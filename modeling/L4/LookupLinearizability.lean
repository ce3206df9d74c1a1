import L4.VisibleSections

namespace L4.ConcurrentLookup
set_option autoImplicit true
open Linearizability (Legal Covers others linearizable_with_read)
open SharedHashTable (getBucketInfo tagOf)
open Transition (Run)

/-! A `Get` beside the writers, as one operation among theirs. -/

section Loaded
variable {rs : RecordSerializer} {tagOf : Key → UInt8} {b : Bucket RecordBuffer} {p : SlotIndex}

theorem load_updateRecord (hp : p.entry < b.chainLength) (data : Option RecordBuffer) :
    (b.storeData p data).load = Function.update b.load p data := by
  funext q
  rw [Bucket.load_storeData, Function.update_apply]
  simp only [hp, and_true]

theorem pending_load (hp : p.entry < b.chainLength) (data : Option RecordBuffer) (tag : UInt8) :
    Pending Bucket.load b.load (Function.update b.load p data) b
      (Store.updateRecord p data tag) := by
  have hdata := load_updateRecord hp data
  refine .switch rfl (.cons hdata (.nil ?_))
  exact (funext fun q => Bucket.load_storeTag _ p q tag).trans hdata

/-- The records that are linked, whatever their tags are. -/
def View.loaded (rs : RecordSerializer) (tagOf : Key → UInt8) : View rs tagOf where
  slots := Bucket.load
  consistent _ := rfl
  appendEntry b := funext b.load_appendEntry
  clear _ hp := pending_load hp none 0
  put {_ _ _ record} _ _ hload _ hp _ := hload ▸ pending_load hp (some record) _

end Loaded

section Gets
variable [Platform] {setting : Setting} {rs : RecordSerializer} {key : Key}
  {s t u : System setting}

theorem exists_moment (hbefore : Run (Step rs key) (initial setting allocator) before s)
    (hget : Run (Step rs key) s (.startGet :: during) t) (hl : t.lookup = some l)
    (hvalue : l.point = .returned value) :
    ∃ view : View rs tagOf, ∃ first rest mid, during = first ++ rest ∧
      Run (Step rs key) s (.startGet :: first) mid ∧ Run (Step rs key) mid rest t ∧
      ∀ m, KeyedSlots.Represents rs.keyOf (view.records mid.table) m →
        value = (m key).map rs.valueOf := by
  cases value with
  | none =>
    obtain ⟨first, rest, mid, hsplit, hfirst, hrest, hhidden⟩ :=
      run_hidden hbefore hget hl hvalue
    refine ⟨.visible rs tagOf, first, rest, mid, hsplit, hfirst, hrest, fun m hm => ?_⟩
    rw [hm.eq_none.mpr hhidden]
    rfl
  | some v =>
    cases hget with
    | cons hstart hduring =>
      cases hstart with
      | startGet i keyTag hnone hinfo =>
        obtain ⟨first, rest, mid, slot, record, hsplit, hfirst, hrest, hload, hkey, hv⟩ :=
          run_linked hduring rfl (fun v => by simp) hl hvalue
        refine ⟨.loaded rs tagOf, first, rest, mid, hsplit,
          .cons (.startGet i keyTag hnone hinfo) hfirst, hrest, fun m hm => ?_⟩
        rw [(hm key record).mpr ⟨slot, hload, hkey⟩, ← hv]
        rfl

/-- The map of the records with the `Get`s that read it. -/
def lookupMap (rs : RecordSerializer) : Linearizability.Object (Key → Option RecordBuffer)
    (Operation ⊕ Key) (Unit ⊕ Option Value) :=
  (recordMap rs).withReads fun m key value => value = (m key).map rs.valueOf

/-- The calls and returns of the writers and of the `Get`. -/
def history (key : Key) (value : Option Value) (before during after : List (Event setting)) :
    List (Option Nat × Linearizability.Event (Operation ⊕ Key) (Unit ⊕ Option Value)) :=
  others (before.filterMap Event.call?) ++ (none, .call (.inr key)) ::
    others (during.filterMap Event.call?) ++ (none, .respond (.inr value)) ::
      others (after.filterMap Event.call?)

/-- A `Get` takes effect at once among the critical sections of the writers, although it takes no
lock: it returns what is stored for its key at some moment between its call and its return, and
nothing only if nothing is. -/
theorem get_linearizable (rs : RecordSerializer) (key : Key) (setting : Setting)
    (allocator : Allocator) (before during after : List (Event setting)) (s t u : System setting)
    (hbefore : Run (Step rs key) (initial setting allocator) before s)
    (hget : Run (Step rs key) s (.startGet :: during) t) (hafter : Run (Step rs key) t after u)
    (l : Lookup setting) (hl : t.lookup = some l) (value : Option Value)
    (hvalue : l.point = .returned value) :
    ∃ m order, Legal (lookupMap rs) (fun _ => none) (order.map Prod.snd) m ∧
      ((∀ i, u.sections i = none) → KeyedSlots.Represents rs.keyOf u.table.load m) ∧
      ∀ past rest, history key value before during after = past ++ rest →
        ∃ first second, order = first ++ second ∧ Covers past first := by
  obtain ⟨view, first, rest, mid, rfl, hfirst, hrest, hmoment⟩ :=
    exists_moment hbefore hget hl hvalue
  have hinv := reachable_invariant hbefore
  have hmid := hfirst.invariant (fun _ _ _ => Invariant.step) hinv
  have hlast := hrest.invariant (fun _ _ _ => Invariant.step) hmid
  have hend := hafter.invariant (fun _ _ _ => Invariant.step) hlast
  obtain ⟨labels, a, hrun, hhistory, hfollows⟩ := run_follows view hbefore
  obtain ⟨labels₁, a₁, hrun₁, hhistory₁, hfollows₁⟩ := hfollows.run hinv hfirst
  obtain ⟨labels₂, a₂, hrun₂, hhistory₂, hfollows₂⟩ := hfollows₁.run hmid hrest
  obtain ⟨labels₃, a₃, hrun₃, hhistory₃, hfollows₃⟩ := hfollows₂.run hlast hafter
  have hlinearizable : Linearizability.Linearizable (lookupMap rs) (fun _ => none) _ a₃.state :=
    linearizable_with_read hrun hrun₁ (hmoment _ hfollows₁.shows.represents) hrun₂ hrun₃
  obtain ⟨order, hlegal, hsplit⟩ := hlinearizable.exists_order
  refine ⟨a₃.state, order, hlegal, fun hidle => ?_, fun past rest heq => hsplit past rest ?_⟩
  · have hrecords : view.records u.table = u.table.load := by
      funext ⟨i, p⟩
      have hb := hend i
      rw [hidle i] at hb
      exact congrFun (view.consistent hb) p
    exact hrecords ▸ hfollows₃.shows.represents
  · rw [← heq, history, hhistory, hhistory₁, hhistory₂, hhistory₃, List.filterMap_append]
    rfl

omit [Platform] in
/-- The record is overwritten between the two loads of a `Get`, and the `Get` returns before the
`Add` does. -/
theorem get_linearizable_of_add :
    let _ : Platform := ⟨fun _ => (7, 0), 8, 64⟩
    let i : Setting.BucketIndex {} := ⟨0, by decide⟩
    let rs : RecordSerializer := ⟨0, 0, 0⟩
    let record : RecordBuffer := ⟨0, [0, 0, 1, 0, 0, 0, 5]⟩
    let record' : RecordBuffer := ⟨1, [0, 0, 2, 0, 0, 0, 6, 7]⟩
    let before : List (Event {}) :=
      [.enter i (.add record), .store i, .store i, .leave i (.add record)]
    let during : List (Event {}) := [.load, .enter i (.add record'), .store i, .load]
    let after : List (Event {}) := [.store i, .leave i (.add record')]
    ∃ m order, Legal (lookupMap rs) (fun _ => none) (order.map Prod.snd) m ∧
      ∀ past rest, history (rs.keyOf record) (some (rs.valueOf record')) before during after =
        past ++ rest → ∃ first second, order = first ++ second ∧ Covers past first := by
  have hinfo : @getBucketInfo ⟨fun _ => (7, 0), 8, 64⟩ {}
      (RecordSerializer.keyOf ⟨0, 0, 0⟩ ⟨0, [0, 0, 1, 0, 0, 0, 5]⟩) =
        .ok (⟨0, by decide⟩, 0) := rfl
  have hinfo' : @getBucketInfo ⟨fun _ => (7, 0), 8, 64⟩ {}
      (RecordSerializer.keyOf ⟨0, 0, 0⟩ ⟨1, [0, 0, 2, 0, 0, 0, 6, 7]⟩) =
        .ok (⟨0, by decide⟩, 0) := rfl
  intro _ i rs record record' before during after
  let key : Key := rs.keyOf record
  obtain ⟨s, hbefore, hidle, t, hget, hreturned, u, hafter⟩ : ∃ s : System {},
      Run (Step rs key) (initial {} ⟨0, []⟩) before s ∧ s.lookup = none ∧
      ∃ t : System {}, Run (Step rs key) { s with lookup := some ⟨i, 0, .atTag 0 0⟩ } during t ∧
        t.lookup = some ⟨i, 0, .returned (some (rs.valueOf record'))⟩ ∧
        ∃ u, Run (Step rs key) t after u := by
    refine ⟨_, .cons (.enter i _ _ rfl (.add record 0 hinfo)) (.cons (.store i _ _ _ rfl)
      (.cons (.store i _ _ _ rfl) (.cons (.leave i _ rfl) .nil))), rfl, ?_⟩
    refine ⟨_, .cons (.load _ rfl trivial) (.cons (.enter i _ _ rfl (.add record' 0 hinfo'))
      (.cons (.store i _ _ _ rfl) (.cons (.load _ rfl trivial) .nil))), rfl, ?_⟩
    exact ⟨_, .cons (.store i _ _ _ rfl) (.cons (.leave i _ rfl) .nil)⟩
  obtain ⟨m, order, hlegal, -, hsplit⟩ := get_linearizable rs key {} ⟨0, []⟩ before during after
    s t u hbefore (.cons (.startGet i 0 hidle hinfo) hget) hafter _ hreturned _ rfl
  exact ⟨m, order, hlegal, hsplit⟩

end Gets

end L4.ConcurrentLookup

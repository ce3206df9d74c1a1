import L4.ConcurrentLookup

namespace L4.ConcurrentLookup
set_option autoImplicit true
open SharedHashTable (getBucketInfo tagOf)

variable [Platform] {setting : Setting} {rs : RecordSerializer} {key : Key}
  {s t : System setting}

theorem tag_of_getBucketInfo {i : setting.BucketIndex}
    (h : getBucketInfo setting key = .ok (i, keyTag)) : keyTag = tagOf key := by
  rw [getBucketInfo] at h
  split_ifs at h
  exact (Prod.mk.inj (Except.ok.inj h)).2.symm

theorem bucket_of_getBucketInfo {i j : setting.BucketIndex}
    (h : getBucketInfo setting key = .ok (i, keyTag))
    (h' : getBucketInfo setting key = .ok (j, keyTag')) : i = j := by
  rw [h] at h'
  exact (Prod.mk.inj (Except.ok.inj h')).1

/-- A bucket between the stores of a critical section: some of the stores have been made on the
consistent bucket that the section has found. -/
def Underway (rs : RecordSerializer) (i : setting.BucketIndex) (b : Bucket RecordBuffer)
    (critical : CriticalSection) : Prop :=
  ∃ (found : Bucket RecordBuffer) (done : List Store), found.Consistent rs tagOf ∧
    critical.operation.Plans rs i found (done ++ critical.remaining) ∧
    b = done.foldl Store.apply found

/-- A bucket that nobody has locked is consistent, and one that is locked is on its way from one
consistent bucket to another. -/
def Invariant (rs : RecordSerializer) (s : System setting) : Prop :=
  ∀ i : setting.BucketIndex, match s.sections i with
    | none => s.table.buckets[i].Consistent rs tagOf
    | some critical => Underway rs i s.table.buckets[i] critical

theorem Operation.Plans.consistent {i : setting.BucketIndex} {b : Bucket RecordBuffer}
    {operation : Operation} (h : operation.Plans rs i b stores) (hb : b.Consistent rs tagOf) :
    (stores.foldl Store.apply b).Consistent rs tagOf := by
  cases h with
  | add record newTag hinfo =>
    obtain rfl := tag_of_getBucketInfo hinfo
    exact Store.consistent_ofAdd hb record
  | remove k keyTag hinfo =>
    obtain rfl := tag_of_getBucketInfo hinfo
    exact Store.consistent_ofRemove hb k
  | evict p record hp => exact Store.consistent_updateRecord_none hb hp

theorem Underway.finish {i : setting.BucketIndex} {b : Bucket RecordBuffer}
    (h : Underway rs i b ⟨operation, []⟩) : b.Consistent rs tagOf := by
  obtain ⟨found, done, hfound, hplan, rfl⟩ := h
  rw [List.append_nil] at hplan
  exact hplan.consistent hfound

theorem Underway.store {i : setting.BucketIndex} {b : Bucket RecordBuffer}
    (h : Underway rs i b ⟨operation, st :: rest⟩) :
    Underway rs i (st.apply b) ⟨operation, rest⟩ := by
  obtain ⟨found, done, hfound, hplan, rfl⟩ := h
  refine ⟨found, done ++ [st], hfound, ?_, ?_⟩
  · rw [List.append_assoc]
    exact hplan
  · rw [List.foldl_append]
    rfl

theorem initial_invariant (rs : RecordSerializer) (allocator : Allocator) :
    Invariant rs (initial setting allocator) := by
  intro i
  exact (SharedHashTable.consistent_create rs allocator).bucket i

theorem Invariant.step (h : Invariant rs s) (hs : Step rs key s e t) : Invariant rs t := by
  intro j
  have hj := h j
  cases hs with
  | enter i operation stores hfree hplan =>
    simp only [Function.update_apply]
    by_cases hij : j = i
    · subst hij
      rw [hfree] at hj
      rw [if_pos rfl]
      exact ⟨_, [], hj, hplan, rfl⟩
    · rw [if_neg hij]
      exact hj
  | store i operation st rest hsection =>
    simp only [Function.update_apply, SharedHashTable.getElem_setBucket]
    by_cases hij : j = i
    · subst hij
      rw [hsection] at hj
      simp only [↓reduceIte]
      exact hj.store
    · simp only [if_neg hij]
      exact hj
  | leave i operation hsection =>
    simp only [Function.update_apply]
    by_cases hij : j = i
    · subst hij
      rw [hsection] at hj
      rw [if_pos rfl]
      exact hj.finish
    · rw [if_neg hij]
      exact hj
  | startGet => exact hj
  | load => exact hj

/-- The key stays in the slot, whatever the section that holds its bucket has still to store. -/
structure Kept (rs : RecordSerializer) (key : Key) (i : setting.BucketIndex) (p : SlotIndex)
    (s : System setting) : Prop where
  holds : s.table.buckets[i].HoldsKey rs key (tagOf key) p
  keeps : ∀ critical, s.sections i = some critical →
    ∀ st ∈ critical.remaining, st.Keeps rs key (tagOf key) p

theorem Operation.Plans.keeps {i : setting.BucketIndex} {b : Bucket RecordBuffer}
    {operation : Operation} (h : operation.Plans rs i b stores) (hb : b.Consistent rs tagOf)
    (hp : b.HoldsKey rs key (tagOf key) p)
    (hkeep : ¬ (Event.enter i operation).Removes rs key) :
    ∀ st ∈ stores, st.Keeps rs key (tagOf key) p := by
  cases h with
  | add record newTag hinfo =>
    obtain rfl := tag_of_getBucketInfo hinfo
    exact Store.keeps_ofAdd hb hp record
  | remove k keyTag hinfo =>
    obtain rfl := tag_of_getBucketInfo hinfo
    exact Store.keeps_ofRemove hb hp hkeep
  | evict q record hq => exact Store.keeps_updateRecord_none hp hq hkeep

theorem Kept.step {i : setting.BucketIndex} (h : Kept rs key i p s) (hinv : Invariant rs s)
    (hs : Step rs key s e t) (hkeep : ¬ e.Removes rs key) : Kept rs key i p t := by
  cases hs with
  | enter j operation stores hfree hplan =>
    refine ⟨h.holds, fun critical hsection => ?_⟩
    simp only [Function.update_apply] at hsection
    split_ifs at hsection with hij
    · subst hij
      obtain rfl := Option.some.inj hsection
      have hb := hinv i
      rw [hfree] at hb
      exact hplan.keeps hb h.holds hkeep
    · exact h.keeps critical hsection
  | store j operation st rest hj =>
    by_cases hij : i = j
    · subst hij
      have hkeeps := h.keeps _ hj
      refine ⟨?_, fun critical hsection => ?_⟩
      · simp only [SharedHashTable.getElem_setBucket, ↓reduceIte]
        exact h.holds.apply (hkeeps st (by simp))
      · simp only [Function.update_self, Option.some.injEq] at hsection
        subst hsection
        exact fun st' hst' => hkeeps st' (List.mem_cons_of_mem _ hst')
    · refine ⟨?_, fun critical hsection => ?_⟩
      · simp only [SharedHashTable.getElem_setBucket, if_neg hij]
        exact h.holds
      · simp only [Function.update_apply, if_neg hij] at hsection
        exact h.keeps critical hsection
  | leave j operation hj =>
    refine ⟨h.holds, fun critical hsection => ?_⟩
    simp only [Function.update_apply] at hsection
    split_ifs at hsection
    exact h.keeps critical hsection
  | startGet => exact ⟨h.holds, h.keeps⟩
  | load => exact ⟨h.holds, h.keeps⟩

theorem Kept.of_leave (hinv : Invariant rs s)
    (hs : Step rs key s (.leave i (.add record)) t) :
    getBucketInfo setting (rs.keyOf record) = .ok (i, tagOf (rs.keyOf record)) ∧
      ∃ p, Kept rs (rs.keyOf record) i p t := by
  cases hs with
  | leave i operation hsection =>
    have hi := hinv i
    rw [hsection] at hi
    obtain ⟨found, done, hfound, hplan, hb⟩ := hi
    rw [List.append_nil] at hplan
    cases hplan with
    | add record newTag hinfo =>
      obtain rfl := tag_of_getBucketInfo hinfo
      obtain ⟨p, hp⟩ := hfound.addSlot (rs.keyOf record)
      obtain ⟨-, hload, htag, -⟩ := hp.addRecord record
      rw [Store.foldl_ofAdd] at hb
      refine ⟨hinfo, p, ⟨⟨record, ?_, rfl⟩, ?_⟩, fun critical hnone => ?_⟩
      · rw [hb, hload, Function.update_self]
      · rw [hb, htag, Function.update_self]
      · simp at hnone

/-- The look up has not gone past the slot, or it has returned a value. -/
def Point.NotPast (p : SlotIndex) : Point → Prop
  | .atTag entry index | .atData entry index => ¬ p.Before ⟨entry, index⟩
  | .atNext entry => entry < p.entry
  | .returned value => ∃ v, value = some v

/-- The number of loads that lead to a point at most, `limit` at the end. -/
def Point.rank (limit : Nat) : Point → Nat
  | .atTag entry index => 33 * entry + 2 * index.val
  | .atData entry index => 33 * entry + 2 * index.val + 1
  | .atNext entry => 33 * entry + 32
  | .returned _ => limit

omit [Platform] in
theorem Point.advance_notPast (h : (⟨entry, index⟩ : SlotIndex).Before p) :
    (advance entry index).NotPast p := by
  simp only [SlotIndex.Before, Fin.lt_def] at h
  rw [advance]
  split_ifs with hi
  · simp only [NotPast, SlotIndex.Before, Fin.lt_def]
    omega
  · have hp := p.index.isLt
    show entry < p.entry
    omega

omit [Platform] in
theorem Point.rank_advance (limit : Nat) (entry : Nat) (index : Fin numDataPerEntry) :
    33 * entry + 2 * index.val + 1 < (advance entry index).rank limit := by
  have hi : index.val < 16 := index.isLt
  rw [advance]
  split_ifs
  · simp only [rank]
    omega
  · simp only [rank]
    omega

omit [Platform] in
/-- A look up that meets the slot of its key does not go past it. -/
theorem Point.next_notPast {b : Bucket RecordBuffer} (hp : b.HoldsKey rs key slotTag p)
    {pt : Point} (h : pt.NotPast p) : (pt.next rs key slotTag b).NotPast p := by
  cases pt with
  | atTag entry index =>
    rw [next]
    split_ifs with htag
    · exact h
    · rcases SlotIndex.before_trichotomy ⟨entry, index⟩ p with hb | rfl | hb
      · exact advance_notPast hb
      · exact absurd hp.2.symm htag
      · exact absurd hb h
  | atData entry index =>
    obtain ⟨⟨r, hr, hk⟩, -⟩ := hp
    have hadvance : b.load ⟨entry, index⟩ ≠ some r → (advance entry index).NotPast p := by
      intro hne
      rcases SlotIndex.before_trichotomy ⟨entry, index⟩ p with hb | rfl | hb
      · exact advance_notPast hb
      · exact absurd hr hne
      · exact absurd hb h
    rw [next]
    cases hd : b.load ⟨entry, index⟩ with
    | none => exact hadvance (by simp [hd])
    | some data =>
      simp only
      split_ifs with hkey
      · exact ⟨_, rfl⟩
      · apply hadvance
        rintro hsome
        obtain rfl := Option.some.inj (hd.symm.trans hsome)
        exact hkey hk
  | atNext entry =>
    have hlt := hp.entry_lt
    have hentry : entry < p.entry := h
    rw [next, if_pos (by omega)]
    rintro (hle | ⟨-, hle⟩)
    · exact absurd hentry (Nat.not_lt.mpr (Nat.le_of_lt_succ hle))
    · exact absurd hle (Nat.not_lt_zero _)
  | returned value => exact h

omit [Platform] in
theorem Point.rank_next {b : Bucket RecordBuffer} (hp : b.HoldsKey rs key slotTag p)
    {pt : Point} (h : pt.NotPast p) (hrunning : pt.Running) :
    pt.rank (33 * (p.entry + 1)) < (pt.next rs key slotTag b).rank (33 * (p.entry + 1)) := by
  cases pt with
  | atTag entry index =>
    have hadvance := rank_advance (33 * (p.entry + 1)) entry index
    rw [next]
    split_ifs
    · exact Nat.lt_succ_self _
    · exact Nat.lt_of_succ_lt hadvance
  | atData entry index =>
    have hadvance := rank_advance (33 * (p.entry + 1)) entry index
    have hindex : index.val < 16 := index.isLt
    have hentry : entry ≤ p.entry := Nat.not_lt.mp fun hlt => h (.inl hlt)
    rw [next]
    split
    · split_ifs
      · simp only [rank]
        omega
      · exact hadvance
    · exact hadvance
  | atNext entry =>
    have hlt := hp.entry_lt
    have hentry : entry < p.entry := h
    rw [next, if_pos (by omega)]
    exact Nat.lt_succ_self _
  | returned value => exact absurd hrunning id

omit [Platform] in
theorem Point.rank_le {pt : Point} (h : pt.NotPast p) :
    pt.rank (33 * (p.entry + 1)) ≤ 33 * (p.entry + 1) := by
  cases pt with
  | atTag entry index =>
    have hindex : index.val < 16 := index.isLt
    have hentry : entry ≤ p.entry := Nat.not_lt.mp fun hlt => h (.inl hlt)
    simp only [rank]
    omega
  | atData entry index =>
    have hindex : index.val < 16 := index.isLt
    have hentry : entry ≤ p.entry := Nat.not_lt.mp fun hlt => h (.inl hlt)
    simp only [rank]
    omega
  | atNext entry =>
    have hentry : entry < p.entry := h
    simp only [rank]
    omega
  | returned value => exact Nat.le_refl _

/-- A `Get` of the key in its bucket, not past the slot. -/
structure Searching (key : Key) (i : setting.BucketIndex) (p : SlotIndex) (s : System setting)
    (l : Lookup setting) : Prop where
  lookup : s.lookup = some l
  bucket : l.bucket = i
  tag : l.tag = tagOf key
  notPast : l.point.NotPast p

/-- While the key keeps its slot, every load brings the look up closer to it. -/
theorem Searching.step {i : setting.BucketIndex} (h : Searching key i p s l)
    (hkept : Kept rs key i p s) (hs : Step rs key s e t) :
    ∃ l', Searching key i p t l' ∧
      l.point.rank (33 * (p.entry + 1)) + [e].countP (· matches .load) ≤
        l'.point.rank (33 * (p.entry + 1)) := by
  cases hs with
  | enter => exact ⟨l, ⟨h.lookup, h.bucket, h.tag, h.notPast⟩, Nat.le_refl _⟩
  | store => exact ⟨l, ⟨h.lookup, h.bucket, h.tag, h.notPast⟩, Nat.le_refl _⟩
  | leave => exact ⟨l, ⟨h.lookup, h.bucket, h.tag, h.notPast⟩, Nat.le_refl _⟩
  | startGet j keyTag hnone =>
    rw [h.lookup] at hnone
    cases hnone
  | load l' hlookup hrunning =>
    obtain rfl := Option.some.inj (h.lookup.symm.trans hlookup)
    have hholds := hkept.holds
    rw [← h.bucket, ← h.tag] at hholds
    exact ⟨_, ⟨rfl, h.bucket, h.tag, Point.next_notPast hholds h.notPast⟩,
      Point.rank_next hholds h.notPast hrunning⟩

theorem reachable_invariant (hrun : Transition.Run (Step rs key) (initial setting allocator) es s) :
    Invariant rs s :=
  hrun.invariant (fun _ _ _ => Invariant.step) (initial_invariant rs allocator)

theorem run_kept {i : setting.BucketIndex} (hrun : Transition.Run (Step rs key) s es t)
    (hinv : Invariant rs s) (hkept : Kept rs key i p s) (hkeep : ∀ e ∈ es, ¬ e.Removes rs key) :
    Kept rs key i p t := by
  induction hrun with
  | nil => exact hkept
  | cons hs _ ih =>
    exact ih (hinv.step hs) (hkept.step hinv hs (hkeep _ (by simp)))
      fun e he => hkeep e (List.mem_cons_of_mem _ he)

theorem run_searching {i : setting.BucketIndex} (hrun : Transition.Run (Step rs key) s es t)
    (hinv : Invariant rs s) (hkept : Kept rs key i p s) (hkeep : ∀ e ∈ es, ¬ e.Removes rs key)
    (h : Searching key i p s l) :
    ∃ l', Searching key i p t l' ∧
      l.point.rank (33 * (p.entry + 1)) + es.countP (· matches .load) ≤
        l'.point.rank (33 * (p.entry + 1)) := by
  induction hrun generalizing l with
  | nil => exact ⟨l, h, Nat.le_refl _⟩
  | @cons s e s' es t hs _ ih =>
    obtain ⟨l', h', hle⟩ := h.step hkept hs
    obtain ⟨l'', h'', hle'⟩ := ih (hinv.step hs) (hkept.step hinv hs (hkeep _ (by simp)))
      (fun e he => hkeep e (List.mem_cons_of_mem _ he)) h'
    refine ⟨l'', h'', ?_⟩
    rw [← List.singleton_append, List.countP_append]
    omega

theorem Step.lookup (hs : Step rs key s e t) (hl : s.lookup = some l) :
    t.lookup = some l ∨ l.point.Running ∧ t.lookup =
      some { l with point := l.point.next rs key l.tag s.table.buckets[l.bucket] } := by
  cases hs with
  | enter => exact .inl hl
  | store => exact .inl hl
  | leave => exact .inl hl
  | startGet i keyTag hnone =>
    rw [hl] at hnone
    cases hnone
  | load l' hlookup hrunning =>
    obtain rfl := Option.some.inj (hl.symm.trans hlookup)
    exact .inr ⟨hrunning, rfl⟩

theorem run_returned (hrun : Transition.Run (Step rs key) s es t) (hl : s.lookup = some l)
    (hreturned : ¬ l.point.Running) : t.lookup = some l := by
  induction hrun with
  | nil => exact hl
  | cons hs _ ih =>
    rcases hs.lookup hl with hl' | ⟨hrunning, -⟩
    · exact ih hl'
    · exact absurd hrunning hreturned

omit [Platform] in
theorem Point.loaded {b : Bucket RecordBuffer} {pt : Point} (hrunning : pt.Running)
    (h : pt.next rs key slotTag b = .returned (some value)) :
    ∃ p record, b.load p = some record ∧ rs.keyOf record = key ∧ rs.valueOf record = value := by
  have hadvance (entry : Nat) (index : Fin numDataPerEntry) :
      advance entry index ≠ .returned (some value) := by
    rw [advance]
    split_ifs <;> simp
  cases pt with
  | atTag entry index =>
    rw [next] at h
    split_ifs at h
    exact absurd h (hadvance entry index)
  | atData entry index =>
    rw [next] at h
    cases hd : b.load ⟨entry, index⟩ with
    | none =>
      rw [hd] at h
      exact absurd h (hadvance entry index)
    | some record =>
      rw [hd] at h
      simp only at h
      split_ifs at h with hk
      · simp only [returned.injEq, Option.some.injEq] at h
        exact ⟨_, record, hd, hk, h⟩
      · exact absurd h (hadvance entry index)
  | atNext entry =>
    rw [next] at h
    split_ifs at h
    simp at h
  | returned => exact absurd hrunning id

theorem run_linked (hrun : Transition.Run (Step rs key) s es t) (hl : s.lookup = some l)
    (hstart : ∀ v, l.point ≠ .returned (some v)) (hl' : t.lookup = some l')
    (hvalue : l'.point = .returned (some value)) :
    ∃ first rest mid slot record, es = first ++ rest ∧
      Transition.Run (Step rs key) s first mid ∧ Transition.Run (Step rs key) mid rest t ∧
      mid.table.load slot = some record ∧ rs.keyOf record = key ∧ rs.valueOf record = value := by
  induction hrun generalizing l with
  | nil =>
    obtain rfl := Option.some.inj (hl.symm.trans hl')
    exact absurd hvalue (hstart value)
  | @cons s e s' es t hs hr ih =>
    rcases hs.lookup hl with hl₁ | ⟨hrunning, hl₁⟩
    · obtain ⟨first, rest, mid, slot, record, rfl, hfirst, hrest, hfound⟩ := ih hl₁ hstart hl'
      exact ⟨e :: first, rest, mid, slot, record, rfl, .cons hs hfirst, hrest, hfound⟩
    · by_cases hnext : ∃ v, l.point.next rs key l.tag s.table.buckets[l.bucket] = .returned (some v)
      · obtain ⟨v, hv⟩ := hnext
        obtain ⟨p, record, hp, hk, hvalue'⟩ := Point.loaded hrunning hv
        have hstop : ¬ (l.point.next rs key l.tag s.table.buckets[l.bucket]).Running := by
          rw [hv]
          exact id
        have hlast := run_returned hr hl₁ hstop
        obtain rfl := Option.some.inj (hlast.symm.trans hl')
        simp only [hv, Point.returned.injEq, Option.some.injEq] at hvalue
        exact ⟨[], e :: es, s, (l.bucket, p), record, rfl, .nil, .cons hs hr, hp, hk,
          hvalue'.trans hvalue⟩
      · obtain ⟨first, rest, mid, slot, record, rfl, hfirst, hrest, hfound⟩ :=
          ih hl₁ (fun v hv => hnext ⟨v, hv⟩) hl'
        exact ⟨e :: first, rest, mid, slot, record, rfl, .cons hs hfirst, hrest, hfound⟩

/-- `Get` is correct whatever the writers do meanwhile. If an `Add` of the key has completed before
and the key is not removed from then on, `Get` can only return a value, and does so after at most
33 loads for each entry of the chain. Whenever it returns a value, that is the value of a record
with the key that was linked at some moment during the `Get`. -/
theorem get_correct (hbefore : Transition.Run (Step rs key) (initial setting allocator) before s)
    (hget : Transition.Run (Step rs key) s (.startGet :: during) t) :
    ((∃ earlier i record later, before = earlier ++ .leave i (.add record) :: later ∧
        rs.keyOf record = key ∧ ∀ e ∈ later ++ during, ¬ e.Removes rs key) →
      ∃ l, t.lookup = some l ∧ (∀ value, l.point = .returned value → ∃ v, value = some v) ∧
        (l.point.Running → ∃ t', Step rs key t .load t') ∧
        during.countP (· matches .load) ≤ 33 * s.table.buckets[l.bucket].chainLength) ∧
    ∀ l value, t.lookup = some l → l.point = .returned (some value) →
      ∃ first rest mid slot record, during = first ++ rest ∧
        Transition.Run (Step rs key) s (.startGet :: first) mid ∧
        Transition.Run (Step rs key) mid rest t ∧
        mid.table.load slot = some record ∧ rs.keyOf record = key ∧ rs.valueOf record = value := by
  cases hget with
  | @cons _ _ s₁ _ _ hstart hduring =>
    cases hstart with
    | startGet i keyTag hnone hinfo =>
      constructor
      · rintro ⟨earlier, j, record, later, rfl, rfl, hkeep⟩
        obtain ⟨s₂, hearlier, hrest⟩ := hbefore.split
        cases hrest with
        | @cons _ _ s₃ _ _ hleave hlater =>
          have hinv₂ := reachable_invariant hearlier
          obtain ⟨hinfo', p, hkept⟩ := Kept.of_leave hinv₂ hleave
          have hkept := run_kept hlater (hinv₂.step hleave) hkept
            fun e he => hkeep e (List.mem_append_left _ he)
          have hinv := reachable_invariant hbefore
          obtain rfl := bucket_of_getBucketInfo hinfo hinfo'
          obtain rfl := tag_of_getBucketInfo hinfo
          have hstart : Step rs (rs.keyOf record) s .startGet _ := .startGet i _ hnone hinfo
          have hsearching : Searching (rs.keyOf record) i p
              { s with lookup := some ⟨i, tagOf (rs.keyOf record), .atTag 0 0⟩ }
              ⟨i, tagOf (rs.keyOf record), .atTag 0 0⟩ := by
            refine ⟨rfl, rfl, rfl, ?_⟩
            rintro (hlt | ⟨-, hlt⟩) <;> exact absurd hlt (Nat.not_lt_zero _)
          obtain ⟨l, hl, hle⟩ := run_searching hduring (hinv.step hstart)
            ⟨hkept.holds, hkept.keeps⟩ (fun e he => hkeep e (List.mem_append_right _ he))
            hsearching
          have hpoint := hl.notPast
          refine ⟨l, hl.lookup, ?_, fun hrunning => ⟨_, .load l hl.lookup hrunning⟩, ?_⟩
          · intro value hvalue
            rw [hvalue] at hpoint
            exact hpoint
          · have hlt := hkept.holds.entry_lt
            have hrank := Point.rank_le hpoint
            have hzero : (Point.atTag 0 0).rank (33 * (p.entry + 1)) = 0 := rfl
            rw [hzero] at hle
            simp only [hl.bucket]
            omega
      · intro l value hl hvalue
        obtain ⟨first, rest, mid, slot, record, rfl, hfirst, hrest, hfound⟩ :=
          run_linked hduring rfl (fun v => by simp) hl hvalue
        exact ⟨first, rest, mid, slot, record, rfl, .cons (.startGet i keyTag hnone hinfo) hfirst,
          hrest, hfound⟩

omit [Platform] in
/-- A `Get` that starts after an `Add` while another critical section overwrites the record. -/
theorem get_correct_of_overwrite :
    let platform : Platform := ⟨fun _ => (7, 0), 8, 64⟩
    let i : Setting.BucketIndex {} := ⟨0, by decide⟩
    let rs : RecordSerializer := ⟨0, 0, 0⟩
    let record : RecordBuffer := ⟨0, [0, 0, 1, 0, 0, 0, 5]⟩
    let newRecord : RecordBuffer := ⟨1, [0, 0, 0, 0, 0, 0]⟩
    ∃ (s t : System {}) (l : Lookup {}),
      Transition.Run (Step rs (rs.keyOf record)) (initial {} ⟨0, []⟩)
        [.enter i (.add record), .store i, .store i, .leave i (.add record),
          .enter i (.add newRecord)] s ∧
      Transition.Run (Step rs (rs.keyOf record)) s [.startGet, .store i, .load, .store i, .load] t ∧
      t.lookup = some l ∧ ∀ value, l.point = .returned value → ∃ v, value = some v := by
  have hinfo : @getBucketInfo ⟨fun _ => (7, 0), 8, 64⟩ {}
      (RecordSerializer.keyOf ⟨0, 0, 0⟩ ⟨0, [0, 0, 1, 0, 0, 0, 5]⟩) = .ok (⟨0, by decide⟩, 0) := rfl
  have hinfo' : @getBucketInfo ⟨fun _ => (7, 0), 8, 64⟩ {}
      (RecordSerializer.keyOf ⟨0, 0, 0⟩ ⟨1, [0, 0, 0, 0, 0, 0]⟩) = .ok (⟨0, by decide⟩, 0) := rfl
  intro platform i rs record newRecord
  have hrun : ∃ s t : System {},
      Transition.Run (Step rs (rs.keyOf record)) (initial {} ⟨0, []⟩)
        [.enter i (.add record), .store i, .store i, .leave i (.add record),
          .enter i (.add newRecord)] s ∧
      Transition.Run (Step rs (rs.keyOf record)) s
        [.startGet, .store i, .load, .store i, .load] t := by
    exact ⟨_, _,
      .cons (.enter i _ _ rfl (.add record 0 hinfo)) (.cons (.store i _ _ _ rfl)
        (.cons (.store i _ _ _ rfl) (.cons (.leave i _ rfl)
        (.cons (.enter i _ _ rfl (.add newRecord 0 hinfo')) .nil)))),
      .cons (.startGet i 0 rfl hinfo) (.cons (.store i _ _ _ rfl) (.cons (.load _ rfl trivial)
        (.cons (.store i _ _ _ rfl) (.cons (.load _ rfl trivial) .nil))))⟩
  obtain ⟨s, t, hbefore, hget⟩ := hrun
  obtain ⟨l, hl, hvalue, -, -⟩ := (get_correct hbefore hget).1
    ⟨[.enter i (.add record), .store i, .store i], i, record, [.enter i (.add newRecord)], rfl,
      rfl, by simp [Event.Removes]⟩
  exact ⟨s, t, l, hbefore, hget, hl, hvalue⟩

end L4.ConcurrentLookup

import Mathlib.Data.List.Induction
import Mathlib.Data.Nat.Bitwise
import L4.CacheMetadata
import L4.Library.ThreadPool
import L4.Library.Transition

namespace L4.Cache.MetadataThreads
set_option autoImplicit true
open LittleEndian Metadata
open ThreadPool (Pool)
open Transition (Run Guarded)

/-! Readers and the evictor that update the access bit of one record. The byte with the bit, which
has seven bits of the time as well, is loaded and stored without a lock. -/

/-- The test in `IsAccessed`. -/
def isOn (accessByte : UInt8) : Bool := decide (accessByte &&& 0x80 ≠ 0)

/-- The byte that `UpdateAccessStatus` stores. -/
def setAccess (set : Bool) (accessByte : UInt8) : UInt8 :=
  if set then accessByte ||| 0x80 else accessByte &&& 0x7F

/-- Where a thread stands in `UpdateAccessStatus`. -/
inductive Thread where
  | idle
  | called (set : Bool)
  | tested (set : Bool) (accessByte : UInt8)
  | storing (set isAccessBitOn : Bool) (accessByte : UInt8)
deriving DecidableEq

inductive Label where
  | call (set : Bool)
  | load
  | reuse
  | returned (set isAccessBitOn : Bool)

/-- The steps of a call. The byte is loaded for the test, and again for the store unless the
compiler keeps the first load. -/
inductive Act : List Thread → List UInt8 → Thread → Label → List UInt8 → Thread → Prop
  | call {set : Bool} : Act others metadata .idle (.call set) metadata (.called set)
  | load {set : Bool} :
      Act others metadata (.called set) .load metadata (.tested set (getAccessByte metadata))
  | keep {set : Bool} (h : set = isOn accessByte) :
      Act others metadata (.tested set accessByte) (.returned set (isOn accessByte)) metadata .idle
  | loadAgain {set : Bool} (h : set ≠ isOn accessByte) :
      Act others metadata (.tested set accessByte) .load metadata
        (.storing set (isOn accessByte) (getAccessByte metadata))
  | reuse {set : Bool} (h : set ≠ isOn accessByte) :
      Act others metadata (.tested set accessByte) .reuse metadata
        (.storing set (isOn accessByte) accessByte)
  | store {set : Bool} :
      Act others metadata (.storing set isAccessBitOn accessByte) (.returned set isAccessBitOn)
        (metadata.set accessBitByte (setAccess set accessByte)) .idle

abbrev Step : Pool (List UInt8) Thread → Label → Pool (List UInt8) Thread → Prop :=
  ThreadPool.Step Act

/-- The bytes of a word, and threads that have not called yet. -/
def initial (word : UInt32) (numThreads : Nat) : Pool (List UInt8) Thread :=
  ⟨toBytes 4 word.toNat, .replicate numThreads .idle⟩

def Label.returned? : Label → Option (Bool × Bool)
  | .returned set isAccessBitOn => some (set, isAccessBitOn)
  | _ => none

/-- The calls that have returned, with their results. -/
def returned (labels : List Label) : List (Bool × Bool) := labels.filterMap Label.returned?

/-- A call starts when no other is under way. -/
def Sequential (p : Pool (List UInt8) Thread) : Label → Prop
  | .call _ => ∀ th ∈ p.threads, th = .idle
  | _ => True

section Time

/-- The byte that a thread has loaded. -/
def Thread.accessByte? : Thread → Option UInt8
  | .tested _ accessByte | .storing _ _ accessByte => some accessByte
  | _ => none

/-- The bits of the access byte that belong to the time. -/
def timeBits (accessByte : UInt8) : Nat := accessByte.toNat % 2 ^ 7

/-- The time bits are everywhere those of `d`: in the metadata and in what the threads hold. -/
structure KeepsTime (a b c d : UInt8) (p : Pool (List UInt8) Thread) : Prop where
  shared : ∃ d', p.shared = [a, b, c, d'] ∧ timeBits d' = timeBits d
  threads : ∀ th ∈ p.threads, ∀ accessByte ∈ th.accessByte?, timeBits accessByte = timeBits d

theorem timeBits_setAccess (set : Bool) (accessByte : UInt8) :
    timeBits (setAccess set accessByte) = timeBits accessByte :=
  accessByte_mod set accessByte

theorem Act.keepsTime (h : Act others metadata th label metadata' th')
    (hshared : ∃ d', metadata = [a, b, c, d'] ∧ timeBits d' = timeBits d)
    (hth : ∀ accessByte ∈ th.accessByte?, timeBits accessByte = timeBits d) :
    (∃ d', metadata' = [a, b, c, d'] ∧ timeBits d' = timeBits d) ∧
      ∀ accessByte ∈ th'.accessByte?, timeBits accessByte = timeBits d := by
  have hload : timeBits (getAccessByte metadata) = timeBits d := by
    obtain ⟨d', rfl, hd⟩ := hshared
    exact hd
  cases h with
  | call => exact ⟨hshared, hth⟩
  | load =>
    refine ⟨hshared, ?_⟩
    rintro accessByte ⟨rfl⟩
    exact hload
  | keep => exact ⟨hshared, fun _ hbyte => by cases hbyte⟩
  | loadAgain =>
    refine ⟨hshared, ?_⟩
    rintro accessByte ⟨rfl⟩
    exact hload
  | reuse => exact ⟨hshared, hth⟩
  | @store _ _ _ accessByte set =>
    obtain ⟨d', rfl, -⟩ := hshared
    refine ⟨⟨setAccess set accessByte, rfl, ?_⟩, fun _ hbyte => by cases hbyte⟩
    exact (timeBits_setAccess set accessByte).trans (hth accessByte rfl)

theorem KeepsTime.step (h : KeepsTime a b c d p) (hstep : Step p label p') :
    KeepsTime a b c d p' := by
  constructor
  · cases hstep with
    | intro before after hact => exact (hact.keepsTime h.shared (h.threads _ (by simp))).1
  · exact hstep.forall
      (I := fun _ th => ∀ accessByte ∈ th.accessByte?, timeBits accessByte = timeBits d)
      (fun _ _ _ _ hact hth => (hact.keepsTime h.shared hth).2)
      (fun _ _ _ _ _ _ _ _ hx => hx) h.threads

theorem KeepsTime.getEpochTime_eq (h : KeepsTime a b c d p) :
    getEpochTime p.shared = getEpochTime [a, b, c, d] := by
  obtain ⟨d', hshared, hd⟩ := h.shared
  have htime (d : UInt8) : getEpochTime [a, b, c, d] = _ := getEpochTime_append a b c d []
  rw [timeBits, timeBits] at hd
  rw [hshared, htime, htime, hd]

theorem keepsTime_initial (h : toBytes 4 word.toNat = [a, b, c, d]) :
    KeepsTime a b c d (initial word numThreads) where
  shared := ⟨d, h, rfl⟩
  threads th hth accessByte hbyte := by
    rw [List.eq_of_mem_replicate hth] at hbyte
    cases hbyte

end Time

section Sequential

/-- The results of calls one after the other, and the bytes afterwards. -/
def updateAll (metadata : List UInt8) (calls : List Bool) : List Bool × List UInt8 :=
  calls.foldl
    (fun s set => (s.1 ++ [(updateAccessStatus set s.2).1], (updateAccessStatus set s.2).2))
    ([], metadata)

theorem updateAll_snoc (metadata : List UInt8) (calls : List Bool) (set : Bool) :
    updateAll metadata (calls ++ [set]) =
      ((updateAll metadata calls).1 ++ [(updateAccessStatus set (updateAll metadata calls).2).1],
        (updateAccessStatus set (updateAll metadata calls).2).2) := by
  rw [updateAll, List.foldl_append]
  rfl

theorem updateAll_results {metadata : List UInt8} (h : 4 ≤ metadata.length) (calls : List Bool) :
    (updateAll metadata calls).1 ++ [isAccessed (updateAll metadata calls).2] =
        isAccessed metadata :: calls ∧ 4 ≤ (updateAll metadata calls).2.length := by
  induction calls using List.reverseRecOn with
  | nil => exact ⟨rfl, h⟩
  | append_singleton calls set ih =>
    obtain ⟨hresults, hlength⟩ := ih
    obtain ⟨metadata', hlength', hupdate, -, hbit⟩ := updateAccessStatus_append set
      (List.length_take_of_le hlength) ((updateAll metadata calls).2.drop 4)
    rw [List.take_append_drop] at hupdate
    have hlength'' := length_updateAccessStatus set (updateAll metadata calls).2
    simp only [updateAll_snoc]
    refine ⟨?_, hlength''.symm ▸ hlength⟩
    rw [hupdate, hbit, ← List.cons_append, ← hresults, updateAccessStatus]

/-- What a thread has loaded is what the metadata still has. -/
def Thread.Reads (metadata : List UInt8) : Thread → Prop
  | .tested _ accessByte => accessByte = getAccessByte metadata
  | .storing set isAccessBitOn accessByte =>
    accessByte = getAccessByte metadata ∧ isAccessBitOn = isOn accessByte ∧ set ≠ isAccessBitOn
  | _ => True

/-- At most one call is under way, and those that have returned have done what calls one after the
other do. -/
structure Alone (metadata : List UInt8) (past : List Label) (p : Pool (List UInt8) Thread) :
    Prop where
  results : updateAll metadata ((returned past).map Prod.fst) =
    ((returned past).map Prod.snd, p.shared)
  lone : p.threads.countP (· ≠ .idle) ≤ 1
  reads : ∀ th ∈ p.threads, th.Reads p.shared

theorem Act.updateAccessStatus {set : Bool}
    (h : Act others metadata th (.returned set isAccessBitOn) metadata' th')
    (hreads : th.Reads metadata) :
    Metadata.updateAccessStatus set metadata = (isAccessBitOn, metadata') := by
  have hbit : isAccessed metadata = isOn (getAccessByte metadata) := rfl
  cases h with
  | keep heq =>
    obtain rfl := hreads
    rw [Metadata.updateAccessStatus, hbit, if_neg (not_not.mpr heq)]
  | store =>
    obtain ⟨rfl, rfl, hne⟩ := hreads
    rw [Metadata.updateAccessStatus, hbit, if_pos hne]
    exact congrArg (Prod.mk _) (List.modify_eq_set ..)

theorem Act.metadata_eq (h : Act others metadata th label metadata' th')
    (hlabel : label.returned? = none) : metadata' = metadata := by
  cases h with
  | store => cases hlabel
  | _ => rfl

theorem Act.reads (h : Act others metadata th label metadata' th') (hreads : th.Reads metadata) :
    th'.Reads metadata' := by
  cases h with
  | load => exact rfl
  | loadAgain hne =>
    obtain rfl := hreads
    exact ⟨rfl, rfl, hne⟩
  | reuse hne => exact ⟨hreads, rfl, hne⟩
  | _ => trivial

theorem Act.results (h : Act others metadata th label metadata' th') (hreads : th.Reads metadata)
    (hpast : updateAll metadata₀ ((returned past).map Prod.fst) =
      ((returned past).map Prod.snd, metadata)) :
    updateAll metadata₀ ((returned (past ++ [label])).map Prod.fst) =
      ((returned (past ++ [label])).map Prod.snd, metadata') := by
  rw [returned, List.filterMap_append, ← returned]
  cases label with
  | returned set isAccessBitOn =>
    have hlabel : [Label.returned set isAccessBitOn].filterMap Label.returned? =
        [(set, isAccessBitOn)] := rfl
    simp only [hlabel, List.map_append, List.map_singleton, updateAll_snoc, hpast,
      h.updateAccessStatus hreads]
  | _ =>
    rw [h.metadata_eq rfl, List.filterMap_cons_none rfl, List.filterMap_nil, List.append_nil]
    exact hpast

theorem Alone.step (h : Alone metadata past p) (hstep : Guarded Sequential Step p label p') :
    Alone metadata (past ++ [label]) p' := by
  obtain ⟨hsequential, hstep⟩ := hstep
  cases hstep with
  | @intro m th _ m' th' before after hact =>
    have hreads := h.reads th (by simp)
    -- The thread that acts is the one that is under way, or it starts while no other is.
    have hothers : ∀ x ∈ before ++ after, x = .idle := by
      intro x hx
      by_cases hth : th = .idle
      · obtain rfl := hth
        cases hact with
        | call => exact hsequential x (ThreadPool.mem_of_others hx _)
      · have hlone := h.lone
        rw [List.countP_append, List.countP_cons_of_pos (by simpa using hth)] at hlone
        have hzero : (before ++ after).countP (· ≠ .idle) = 0 := by
          rw [List.countP_append]
          omega
        simpa using List.countP_eq_zero.mp hzero x hx
    refine ⟨hact.results hreads h.results, ?_, ?_⟩
    · have hzero : (before ++ after).countP (· ≠ .idle) = 0 :=
        List.countP_eq_zero.mpr fun x hx => by simpa using hothers x hx
      rw [List.countP_append] at hzero
      rw [List.countP_append, List.countP_cons]
      split_ifs <;> omega
    · intro x hx
      rcases List.mem_append.mp hx with hx | hx
      · rw [hothers x (List.mem_append_left _ hx)]
        trivial
      · rcases List.mem_cons.mp hx with rfl | hx
        · exact hact.reads hreads
        · rw [hothers x (List.mem_append_right _ hx)]
          trivial

theorem alone_initial (word : UInt32) (numThreads : Nat) :
    Alone (toBytes 4 word.toNat) [] (initial word numThreads) where
  results := rfl
  lone := by simp [initial, List.countP_replicate]
  reads th hth := by
    rw [List.eq_of_mem_replicate hth]
    trivial

end Sequential

/-- The access bit of a word. -/
def accessBit (word : UInt32) : Bool := decide (2 ^ 31 ≤ word.toNat)

theorem isOn_iff (accessByte : UInt8) : isOn accessByte = decide (2 ^ 7 ≤ accessByte.toNat) := by
  have hlt := accessByte.toNat_lt
  have hmask : (0x80 : UInt8).toNat = 2 ^ 7 := rfl
  have hbit : accessByte &&& 0x80 = 0 ↔ accessByte.toNat / 2 ^ 7 % 2 = 0 := by
    rw [← UInt8.toNat_inj, UInt8.toNat_and, hmask, Nat.and_two_pow,
      Nat.testBit_eq_decide_div_mod_eq, UInt8.toNat_zero]
    by_cases h : accessByte.toNat / 2 ^ 7 % 2 = 1
    · simp
    · simp
  rw [isOn, decide_eq_decide, Ne, hbit]
  omega

theorem isAccessed_toBytes (word : UInt32) :
    isAccessed (toBytes 4 word.toNat) = accessBit word := by
  have hlt := word.toNat_lt
  have hbyte : (UInt8.ofNat (word.toNat / 256 / 256 / 256)).toNat =
      word.toNat / 256 / 256 / 256 % 2 ^ 8 := UInt8.toNat_ofNat'
  change isOn (UInt8.ofNat (word.toNat / 256 / 256 / 256)) = _
  rw [isOn_iff, accessBit, decide_eq_decide, hbyte]
  omega

/-- In every run of loads and stores the low 31 bits of the word stay, and with them the time and
whether it has expired. Where one call comes after the other, each one returns the bit that the one
before has left. -/
theorem time_kept (word : UInt32) (numThreads : Nat) :
    (∀ labels p, Run Step (initial word numThreads) labels p →
      ofBytes p.shared % 2 ^ 31 = word.toNat % 2 ^ 31 ∧
      getEpochTime p.shared = getEpochTime (toBytes 4 word.toNat) ∧
      ∀ curEpochTime timeToLive, isExpired p.shared curEpochTime timeToLive =
        isExpired (toBytes 4 word.toNat) curEpochTime timeToLive) ∧
    (∀ labels p, Run (Guarded Sequential Step) (initial word numThreads) labels p →
      ∀ (i : Nat) (set isAccessBitOn : Bool), (returned labels)[i]? = some (set, isAccessBitOn) →
        (accessBit word :: (returned labels).map Prod.fst)[i]? = some isAccessBitOn) := by
  constructor
  · intro labels p hrun
    obtain ⟨a, b, c, d, hword⟩ := exists_eq_cons (length_toBytes 4 word.toNat)
    have h : KeepsTime a b c d p :=
      hrun.invariant (fun _ _ _ => KeepsTime.step) (keepsTime_initial hword)
    have htime := h.getEpochTime_eq
    have hlow : ofBytes p.shared % 2 ^ 31 = ofBytes [a, b, c, d] % 2 ^ 31 := by
      obtain ⟨d', hshared, -⟩ := h.shared
      rw [hshared] at htime ⊢
      exact Int.ofNat.inj htime
    rw [← hword] at htime hlow
    refine ⟨?_, htime, fun curEpochTime timeToLive => ?_⟩
    · rw [hlow, ofBytes_toBytes_of_lt (Nat.lt_of_lt_of_le word.toNat_lt (by decide))]
    · rw [isExpired, isExpired, htime]
  · intro labels p hrun i set isAccessBitOn hi
    have h : Alone (toBytes 4 word.toNat) labels p :=
      hrun.history_nil (fun _ _ _ _ => Alone.step) (alone_initial word numThreads)
    have hresults := (updateAll_results (Nat.le_of_eq (length_toBytes 4 word.toNat).symm)
      ((returned labels).map Prod.fst)).1
    rw [h.results, isAccessed_toBytes] at hresults
    rw [← hresults]
    have hresult : ((returned labels).map Prod.snd)[i]? = some isAccessBitOn := by
      rw [List.getElem?_map, hi]
      rfl
    rw [List.getElem?_append_left (List.getElem?_eq_some_iff.mp hresult).1, hresult]

/-- The evictor clears the bit while a reader finds it set, and then the reader sets it again. -/
theorem time_kept_of_evictor :
    let word : UInt32 := 0x80000005
    let p : Pool (List UInt8) Thread := ⟨[5, 0, 0, 0], [.idle, .idle]⟩
    let calls : List Label := [.call false, .load, .reuse, .returned false true, .call true, .load,
      .load, .returned true false]
    getEpochTime p.shared = getEpochTime (toBytes 4 word.toNat) ∧
      (accessBit word :: (returned calls).map Prod.fst)[1]? = some false := by
  intro word p calls
  have hbytes : toBytes 4 word.toNat = [5, 0, 0, 0x80] := by decide
  have hclear (others : List Thread) : Act others [5, 0, 0, 0x80] (.storing false true 0x80)
      (.returned false true) [5, 0, 0, 0] .idle := .store
  have hset (others : List Thread) : Act others [5, 0, 0, 0] (.storing true false 0)
      (.returned true false) [5, 0, 0, 0x80] .idle := .store
  constructor
  · refine ((time_kept word 2).1 [.call false, .load, .load, .call true, .load,
      .returned true true, .returned false true] p ?_).2.1
    rw [initial, hbytes]
    apply Run.cons (t := ⟨[5, 0, 0, 0x80], [.called false, .idle]⟩) (.intro [] [_] .call)
    apply Run.cons (t := ⟨_, [.tested false 0x80, .idle]⟩) (.intro [] [_] .load)
    apply Run.cons (t := ⟨_, [.storing false true 0x80, .idle]⟩)
      (.intro [] [_] (.loadAgain (by decide)))
    apply Run.cons (t := ⟨_, [.storing false true 0x80, .called true]⟩) (.intro [_] [] .call)
    apply Run.cons (t := ⟨_, [.storing false true 0x80, .tested true 0x80]⟩) (.intro [_] [] .load)
    apply Run.cons (t := ⟨_, [.storing false true 0x80, .idle]⟩)
      (.intro [_] [] (.keep (by decide)))
    exact .single (.intro [] [_] (hclear _))
  · refine (time_kept word 1).2 calls ⟨[5, 0, 0, 0x80], [.idle]⟩ ?_ 1 true false rfl
    rw [initial, hbytes]
    have hidle : ∀ th ∈ [Thread.idle], th = .idle := by simp
    apply Run.cons (t := ⟨[5, 0, 0, 0x80], [.called false]⟩) ⟨hidle, .intro [] [] .call⟩
    apply Run.cons (t := ⟨_, [.tested false 0x80]⟩) ⟨trivial, .intro [] [] .load⟩
    apply Run.cons (t := ⟨_, [.storing false true 0x80]⟩)
      ⟨trivial, .intro [] [] (.reuse (by decide))⟩
    apply Run.cons (t := ⟨_, [.idle]⟩) ⟨trivial, .intro [] [] (hclear _)⟩
    apply Run.cons (t := ⟨_, [.called true]⟩) ⟨hidle, .intro [] [] .call⟩
    apply Run.cons (t := ⟨_, [.tested true 0]⟩) ⟨trivial, .intro [] [] .load⟩
    apply Run.cons (t := ⟨_, [.storing true false 0]⟩)
      ⟨trivial, .intro [] [] (.loadAgain (by decide))⟩
    exact .single ⟨trivial, .intro [] [] (hset _)⟩

end L4.Cache.MetadataThreads

import L4.EpochReferences
import L4.Library.Transition

namespace L4.EpochQueue
set_option autoImplicit true

/-- The loop of `RemoveUnreferenceEpochCounters`, for a bounded number of turns. -/
def removeUnreferencedLoop : Nat → EpochQueue → EpochQueue
  | 0, q => q
  | turns + 1, q =>
    match q.removeUnreferencedFront with
    | none => q
    | some q => removeUnreferencedLoop turns q

/-- `RemoveUnreferenceEpochCounters`. Each turn moves the front by one towards the back. -/
def removeUnreferenceEpochCounters (q : EpochQueue) : Nat × EpochQueue :=
  let q := removeUnreferencedLoop (q.backIndex - q.frontIndex) q
  (q.frontIndex, q)

/-- The loop passes the epochs before an index and ends there. -/
structure StopsAt (q : EpochQueue) (front : Nat) : Prop where
  le : q.frontIndex ≤ front
  passed : ∀ e, q.frontIndex ≤ e → e < front → e < q.backIndex ∧ q.refCount e = 0
  stops : ¬ (front < q.backIndex ∧ q.refCount front = 0)

theorem StopsAt.unique {q : EpochQueue} (h : q.StopsAt f) (h' : q.StopsAt g) : f = g := by
  rcases Nat.lt_trichotomy f g with hlt | heq | hlt
  · exact absurd (h'.passed f h.le hlt) h.stops
  · exact heq
  · exact absurd (h.passed g h'.le hlt) h'.stops

theorem removeUnreferencedLoop_eq (turns : Nat) (q : EpochQueue) :
    ∃ front, removeUnreferencedLoop turns q = { q with frontIndex := front } := by
  induction turns generalizing q with
  | zero => exact ⟨q.frontIndex, rfl⟩
  | succ turns ih =>
    rw [removeUnreferencedLoop, removeUnreferencedFront]
    split_ifs
    · exact ih _
    · exact ⟨q.frontIndex, rfl⟩

theorem stopsAt_removeUnreferencedLoop (turns : Nat) (q : EpochQueue)
    (hback : q.backIndex < 2 ^ 64) (hturns : q.backIndex - q.frontIndex ≤ turns) :
    q.StopsAt (removeUnreferencedLoop turns q).frontIndex := by
  induction turns generalizing q with
  | zero =>
    refine ⟨Nat.le_refl _, fun e hle hlt => absurd hle (Nat.not_le_of_lt hlt), ?_⟩
    simp only [removeUnreferencedLoop]
    omega
  | succ turns ih =>
    by_cases hcond : q.frontIndex < q.backIndex ∧ q.refCount q.frontIndex = 0
    · have hmod : (q.frontIndex + 1) % 2 ^ 64 = q.frontIndex + 1 := Nat.mod_eq_of_lt (by omega)
      have hfront : q.removeUnreferencedFront =
          some { q with frontIndex := q.frontIndex + 1 } := by
        rw [removeUnreferencedFront, if_pos hcond, hmod]
      have hrest := ih { q with frontIndex := q.frontIndex + 1 } hback (by dsimp only; omega)
      rw [removeUnreferencedLoop, hfront]
      have hle := hrest.le
      refine ⟨by dsimp only at hle ⊢; omega, fun e hle' hlt => ?_, hrest.stops⟩
      rcases Nat.eq_or_lt_of_le hle' with rfl | hlt'
      · exact hcond
      · exact hrest.passed e hlt' hlt
    · have hfront : q.removeUnreferencedFront = none := if_neg hcond
      rw [removeUnreferencedLoop, hfront]
      exact ⟨Nat.le_refl _, fun e hle hlt => absurd hle (Nat.not_le_of_lt hlt), hcond⟩

theorem removeUnreferenceEpochCounters_eq_iff {q : EpochQueue} (hback : q.backIndex < 2 ^ 64) :
    q.removeUnreferenceEpochCounters.1 = front ↔ q.StopsAt front := by
  have hstops := stopsAt_removeUnreferencedLoop _ q hback (Nat.le_refl _)
  constructor
  · rintro rfl
    exact hstops
  · exact fun h => hstops.unique h

theorem References.removeUnreferencedLoop {q : EpochQueue} (h : q.References live)
    (turns : Nat) : (removeUnreferencedLoop turns q).References live := by
  induction turns generalizing q with
  | zero => exact h
  | succ turns ih =>
    rw [EpochQueue.removeUnreferencedLoop]
    cases hfront : q.removeUnreferencedFront with
    | none => exact h
    | some q' => exact ih (h.removeUnreferencedFront hfront)

/-- A queue and the epochs whose references have not been given back. -/
structure Referenced where
  queue : EpochQueue
  live : List Nat

namespace Referenced

inductive Event where
  | addRef
  | removeRef (epochCounter : Nat)
  | addNewEpoch
  | removeUnreferenceEpochCounters

inductive Step : Referenced → Event → Referenced → Prop
  | addRef : Step s .addRef ⟨s.queue.addRef.2, s.queue.addRef.1 :: s.live⟩
  | removeRef (hlive : s.live = before ++ e :: after) (hq : s.queue.removeRef e = .ok q) :
      Step s (.removeRef e) ⟨q, before ++ after⟩
  | addNewEpoch : Step s .addNewEpoch { s with queue := s.queue.addNewEpoch }
  | removeUnreferenceEpochCounters :
      Step s .removeUnreferenceEpochCounters
        { s with queue := s.queue.removeUnreferenceEpochCounters.2 }

/-- The smaller of the back and the smallest epoch that is referenced. -/
def oldest (s : Referenced) : Nat :=
  (s.queue.backIndex :: s.live).min (List.cons_ne_nil _ _)

/-- The number of references that the counter of an epoch counts. -/
def counted (s : Referenced) (epoch : Nat) : Nat :=
  sharing s.live s.queue.queueSize epoch % 2 ^ 32

/-- No epoch between the front and the oldest one shares its counter with a reference. On 32 bits,
`2 ^ 32` references count for none. -/
structure Unshared (s : Referenced) : Prop where
  front_le : s.queue.frontIndex ≤ s.oldest
  older : ∀ e, s.queue.frontIndex ≤ e → e < s.oldest → s.counted e = 0
  oldest : s.oldest < s.queue.backIndex → s.counted s.oldest ≠ 0

/-- Fewer than `2 ^ 32` references, and the epochs do not wrap. -/
def Fits (s : Referenced) : Event → Prop
  | .addRef => s.live.length + 1 < 2 ^ 32
  | .addNewEpoch => s.queue.backIndex + 1 < 2 ^ 64
  | _ => True

theorem oldest_le_back (s : Referenced) : s.oldest ≤ s.queue.backIndex :=
  List.min_le_of_mem List.mem_cons_self

theorem oldest_le {s : Referenced} (he : e ∈ s.live) : s.oldest ≤ e :=
  List.min_le_of_mem (List.mem_cons_of_mem _ he)

theorem oldest_mem {s : Referenced} (h : s.oldest < s.queue.backIndex) : s.oldest ∈ s.live :=
  (List.mem_cons.mp (List.min_mem (List.cons_ne_nil _ s.live))).resolve_left (Nat.ne_of_lt h)

/-- Every counter counts the references that share it, on 32 bits. -/
structure Counts (s : Referenced) : Prop where
  back_fits : s.queue.backIndex < 2 ^ 64
  counts : ∀ epoch, s.queue.refCount epoch = s.counted epoch

theorem Counts.addRef {s : Referenced} (h : s.Counts) :
    Counts ⟨s.queue.addRef.2, s.queue.addRef.1 :: s.live⟩ := by
  refine ⟨h.back_fits, fun epoch => ?_⟩
  have hcount := h.counts epoch
  simp only [counted] at hcount
  simp only [counted, EpochQueue.addRef, modifyRefCount_refCount, modifyRefCount_queueSize,
    sharing_cons, hcount]
  by_cases he : epoch % s.queue.queueSize = s.queue.backIndex % s.queue.queueSize
  · simp only [he, ↓reduceIte]
    omega
  · simp [he, Ne.symm he]

theorem Counts.removeRef {s : Referenced} (h : s.Counts) (hlive : s.live = before ++ e :: after)
    (hq : s.queue.removeRef e = .ok q) : Counts ⟨q, before ++ after⟩ := by
  simp only [EpochQueue.removeRef] at hq
  split_ifs at hq with hzero
  obtain rfl := Except.ok.inj hq
  refine ⟨h.back_fits, fun epoch => ?_⟩
  have hcount := h.counts epoch
  have hcount' := h.counts e
  simp only [counted, hlive, sharing_append, sharing_cons] at hcount hcount'
  simp only [counted, modifyRefCount_refCount, modifyRefCount_queueSize, sharing_append, hcount]
  by_cases he : epoch % s.queue.queueSize = e % s.queue.queueSize
  · simp only [sharing, he, ↓reduceIte] at hcount' ⊢
    omega
  · simp [he, Ne.symm he]

theorem Counts.step {s s' : Referenced} (h : s.Counts) (hstep : Step s event s') : s'.Counts := by
  cases hstep with
  | addRef => exact h.addRef
  | removeRef hlive hq => exact h.removeRef hlive hq
  | addNewEpoch => exact ⟨Nat.mod_lt _ (by decide), h.counts⟩
  | removeUnreferenceEpochCounters =>
    obtain ⟨front, hloop⟩ := removeUnreferencedLoop_eq
      (s.queue.backIndex - s.queue.frontIndex) s.queue
    rw [EpochQueue.removeUnreferenceEpochCounters, hloop]
    exact ⟨h.back_fits, h.counts⟩

theorem create_counts {size : Nat} (hq : create epoch size = .ok q) (hfits : epoch < 2 ^ 64) :
    Counts ⟨q, []⟩ := by
  have hreferences := create_references hq hfits
  exact ⟨hreferences.back_fits, fun epoch => hreferences.counts epoch⟩

/-- The loop stops at the oldest epoch if and only if no older epoch shares its counter. -/
theorem Counts.stopsAt_oldest_iff {s : Referenced} (h : s.Counts) :
    s.queue.StopsAt s.oldest ↔ s.Unshared := by
  have hback := s.oldest_le_back
  constructor
  · intro hstops
    refine ⟨hstops.le, fun e hle hlt => ?_, fun hlt hzero => hstops.stops ⟨hlt, ?_⟩⟩
    · rw [← h.counts]
      exact (hstops.passed e hle hlt).2
    · rw [h.counts]
      exact hzero
  · intro hunshared
    refine ⟨hunshared.front_le, fun e hle hlt => ⟨Nat.lt_of_lt_of_le hlt hback, ?_⟩, ?_⟩
    · rw [h.counts]
      exact hunshared.older e hle hlt
    · rintro ⟨hlt, hzero⟩
      rw [h.counts] at hzero
      exact hunshared.oldest hlt hzero

theorem references_step {s s' : Referenced} (h : s.queue.References s.live)
    (hstep : Transition.Guarded Fits Step s event s') : s'.queue.References s'.live := by
  obtain ⟨hfits, hstep⟩ := hstep
  cases hstep with
  | addRef => exact h.addRef hfits
  | removeRef hlive hq => exact (hlive ▸ h).removeRef hq
  | addNewEpoch => exact h.addNewEpoch hfits
  | removeUnreferenceEpochCounters => exact h.removeUnreferencedLoop _

theorem unshared_iff {s : Referenced} (h : s.queue.References s.live) :
    s.Unshared ↔ ∀ older, s.queue.frontIndex ≤ older → older < s.oldest →
      ∀ e ∈ s.live, e % s.queue.queueSize ≠ older % s.queue.queueSize := by
  have hcounted (epoch : Nat) :
      s.counted epoch = sharing s.live s.queue.queueSize epoch :=
    Nat.mod_eq_of_lt (Nat.lt_of_le_of_lt (sharing_le _ _ _) h.fits)
  constructor
  · intro hunshared older hle hlt e he heq
    have hzero := hunshared.older older hle hlt
    rw [hcounted, sharing, List.countP_eq_zero] at hzero
    exact hzero e he (decide_eq_true heq)
  · intro hnone
    refine ⟨?_, fun older hle hlt => ?_, fun hlt hzero => ?_⟩
    · rcases Nat.lt_or_eq_of_le s.oldest_le_back with hlt | heq
      · exact (h.between _ (oldest_mem hlt)).1
      · exact heq ▸ h.front_le
    · rw [hcounted, sharing, List.countP_eq_zero]
      exact fun e he heq => hnone older hle hlt e he (of_decide_eq_true heq)
    · rw [hcounted] at hzero
      exact not_mem_of_sharing_eq_zero hzero (oldest_mem hlt)

/-- In every state that the operations reach, a call of `RemoveUnreferenceEpochCounters` returns
the oldest epoch if and only if no older epoch shares its counter with a reference. -/
theorem removeUnreference_eq_oldest_iff (epoch size : Nat) (q : EpochQueue)
    (events : List Event) (s : Referenced) (hq : create epoch size = .ok q)
    (hfits : epoch < 2 ^ 64) (hrun : Transition.Run Step ⟨q, []⟩ events s) :
    (s.queue.removeUnreferenceEpochCounters.1 = s.oldest ↔ s.Unshared) ∧
    (Transition.Run (Transition.Guarded Fits Step) ⟨q, []⟩ events s →
      (s.Unshared ↔ ∀ older, s.queue.frontIndex ≤ older → older < s.oldest →
        ∀ e ∈ s.live, e % s.queue.queueSize ≠ older % s.queue.queueSize)) := by
  have h : s.Counts := hrun.invariant (fun _ _ _ => Counts.step) (create_counts hq hfits)
  refine ⟨(removeUnreferenceEpochCounters_eq_iff h.back_fits).trans h.stopsAt_oldest_iff,
    fun hrun' => unshared_iff ?_⟩
  exact hrun'.invariant (I := fun s => s.queue.References s.live)
    (fun _ _ _ => references_step) (create_references hq hfits)

/-- A ring of two places, in which the reference at epoch 2 keeps epoch 0. -/
theorem kept_by_newer_epoch :
    let s : Referenced := ⟨⟨0, 2, [1, 0], by decide⟩, [2]⟩
    create 0 2 = .ok ⟨0, 0, [0, 0], by decide⟩ ∧
      Transition.Run (Transition.Guarded Fits Step) ⟨⟨0, 0, [0, 0], by decide⟩, []⟩
        [.addNewEpoch, .addNewEpoch, .addRef] s ∧
      s.queue.removeUnreferenceEpochCounters.1 = 0 ∧ s.oldest = 2 := by
  refine ⟨rfl, ?_, by decide, by decide⟩
  apply Transition.Run.cons ⟨show 0 + 1 < 2 ^ 64 by decide, .addNewEpoch⟩
  apply Transition.Run.cons ⟨show 1 + 1 < 2 ^ 64 by decide, .addNewEpoch⟩
  exact .single ⟨show 0 + 1 < 2 ^ 32 by decide, .addRef⟩

/-- The reference at epoch 1 keeps no older one. -/
theorem removeUnreference_eq_oldest_iff_of_next :
    let s : Referenced := ⟨⟨0, 1, [0, 1], by decide⟩, [1]⟩
    s.queue.removeUnreferenceEpochCounters.1 = s.oldest ↔ s.Unshared := by
  refine (removeUnreference_eq_oldest_iff 0 2 ⟨0, 0, [0, 0], by decide⟩ [.addNewEpoch, .addRef] _
    rfl (by decide) ?_).1
  apply Transition.Run.cons .addNewEpoch
  exact .single .addRef

/-- The check for the overwrap that `AddNewEpoch` does not make. -/
def NoOverwrap (s : Referenced) : Event → Prop
  | .addNewEpoch => s.queue.backIndex + 1 < s.queue.frontIndex + s.queue.queueSize
  | _ => True

/-- With the check, no two epochs between front and back share a counter. -/
structure Spread (s : Referenced) : Prop where
  references : s.queue.References s.live
  back_lt : s.queue.backIndex < s.queue.frontIndex + s.queue.queueSize

theorem Spread.unshared {s : Referenced} (h : s.Spread) : s.Unshared := by
  refine (unshared_iff h.references).mpr fun older hle hlt e he heq => ?_
  have hback := (h.references.between e he).2
  have holder : older < e := Nat.lt_of_lt_of_le hlt (oldest_le he)
  have hsize := h.back_lt
  have hmod : (e - older) % s.queue.queueSize = 0 := Nat.sub_mod_eq_zero_of_mod_eq heq
  rw [Nat.mod_eq_of_lt (by omega)] at hmod
  omega

theorem Spread.step {s s' : Referenced} (h : s.Spread)
    (hstep : Transition.Guarded (fun s event => Fits s event ∧ NoOverwrap s event) Step s event
      s') : s'.Spread := by
  obtain ⟨⟨hfits, hspread⟩, hstep⟩ := hstep
  refine ⟨references_step h.references ⟨hfits, hstep⟩, ?_⟩
  have hback := h.back_lt
  cases hstep with
  | addRef => simpa [EpochQueue.addRef] using hback
  | removeRef hlive hq =>
    simp only [EpochQueue.removeRef] at hq
    split_ifs at hq
    obtain rfl := Except.ok.inj hq
    simpa using hback
  | addNewEpoch =>
    have hlt : s.queue.backIndex + 1 < s.queue.frontIndex + s.queue.queueSize := hspread
    exact Nat.lt_of_le_of_lt (Nat.mod_le _ _) hlt
  | removeUnreferenceEpochCounters =>
    have hle := (stopsAt_removeUnreferencedLoop _ s.queue h.references.back_fits
      (Nat.le_refl _)).le
    obtain ⟨front, hloop⟩ := removeUnreferencedLoop_eq
      (s.queue.backIndex - s.queue.frontIndex) s.queue
    simp only [EpochQueue.removeUnreferenceEpochCounters, hloop] at hle ⊢
    exact Nat.lt_of_lt_of_le hback (Nat.add_le_add_right hle _)

/-- With the check for the overwrap, every call returns the oldest epoch. -/
theorem removeUnreference_eq_oldest {size : Nat} (hq : create epoch size = .ok q)
    (hfits : epoch < 2 ^ 64)
    (hrun : Transition.Run
      (Transition.Guarded (fun s event => Fits s event ∧ NoOverwrap s event) Step) ⟨q, []⟩ events
      s) : s.queue.removeUnreferenceEpochCounters.1 = s.oldest := by
  have hspread : Spread ⟨q, []⟩ := by
    refine ⟨create_references hq hfits, ?_⟩
    simp only [create] at hq
    split_ifs at hq with hzero
    obtain rfl := Except.ok.inj hq
    simp only [EpochQueue.queueSize, List.length_replicate]
    omega
  have h : s.Spread := hrun.invariant (fun _ _ _ => Spread.step) hspread
  refine (removeUnreferenceEpochCounters_eq_iff h.references.back_fits).mpr ?_
  have hcounts : s.Counts := by
    have hrun' := hrun.mono fun _ _ _ hstep => hstep.2
    exact hrun'.invariant (fun _ _ _ => Counts.step) (create_counts hq hfits)
  exact hcounts.stopsAt_oldest_iff.mpr h.unshared

end Referenced

end L4.EpochQueue

import L4.EpochSafety

namespace L4.EpochThreads
set_option autoImplicit true
open EpochManager (Reader)
open EpochManager.System (Step)

/-! The epoch queue with the loads and stores of `AddRef` and `RemoveRef` and the lock on its back
index. -/

/-- Where a thread stands in `AddRef`, which holds the shared lock. -/
inductive Adding where
  | locked
  | loaded (backIndex : Nat)
  | counted (epochCounter : Nat)
  | returning (epochCounter : Nat)

/-- The exclusive lock of `AddNewEpoch`: free, or held before or after the increment. -/
inductive Exclusive where
  | free
  | locked
  | unlocking

/-- The epoch manager whose references are added and removed in several steps. A thread in
`removing` has seen that its counter is not zero. `checked` says that the processing thread has seen
that the counter at the front is zero. -/
structure System (Record : Type) where
  base : EpochManager.System Record
  adding : List Adding
  removing : List (Reader Record)
  checked : Bool
  exclusive : Exclusive

inductive Event (Record : Type) where
  | lockShared
  | loadBackIndex
  | count
  | loadResult
  | unlockShared
  | checkRef
  | removeRefThrows
  | discount (epochCounter : Nat)
  | checkFront
  | advance
  | returnFront
  | lockExclusive
  | addNewEpoch
  | unlockExclusive
  | base (event : EpochManager.Event Record)

variable {Record : Type}

/-- The steps that are atomic in the code. -/
def isAtomic : EpochManager.Event Record → Bool
  | .load _ | .updateRecord _ _ | .readCounter _ | .registerAction _ | .performActions _
  | .incrementCounter => true
  | _ => false

namespace System

abbrev queue (s : System Record) : EpochQueue := s.base.queue

def initial (epochQueue : EpochQueue) (numActionQueues : Nat) : System Record where
  base := .initial epochQueue numActionQueues
  adding := []
  removing := []
  checked := false
  exclusive := .free

end System

inductive Step : System Record → Event Record → System Record → Prop
  | lockShared (hfree : s.exclusive = .free) :
      Step s .lockShared { s with adding := .locked :: s.adding }
  | loadBackIndex (hadding : s.adding = before ++ .locked :: after) :
      Step s .loadBackIndex { s with adding := before ++ .loaded s.queue.backIndex :: after }
  | count (hadding : s.adding = before ++ .loaded backIndex :: after) :
      Step s .count
        { s with
          base := s.base.setQueue (s.queue.modifyRefCount backIndex fun c => (c + 1) % 2 ^ 32)
          adding := before ++ .counted backIndex :: after }
  | loadResult (hadding : s.adding = before ++ .counted epochCounter :: after) :
      Step s .loadResult { s with adding := before ++ .returning s.queue.backIndex :: after }
  | unlockShared (hadding : s.adding = before ++ .returning epochCounter :: after) :
      Step s .unlockShared
        { s with
          base := { s.base with readers := ⟨epochCounter, []⟩ :: s.base.readers }
          adding := before ++ after }
  | checkRef (hreaders : s.base.readers = before ++ reader :: after)
      (hcount : s.queue.refCount reader.epochCounter ≠ 0) :
      Step s .checkRef
        { s with
          base := { s.base with readers := before ++ after }
          removing := reader :: s.removing }
  | removeRefThrows (hreaders : s.base.readers = before ++ reader :: after)
      (hcount : s.queue.refCount reader.epochCounter = 0) :
      Step s .removeRefThrows { s with base := { s.base with readers := before ++ after } }
  | discount (hremoving : s.removing = before ++ reader :: after) :
      Step s (.discount reader.epochCounter)
        { s with
          base := s.base.setQueue (s.queue.decrementRef reader.epochCounter)
          removing := before ++ after }
  | checkFront (hp : s.base.processing = .removing) (hfree : s.exclusive = .free)
      (hchecked : s.checked = false) (hfront : s.queue.frontUnreferenced) :
      Step s .checkFront { s with checked := true }
  | advance (hchecked : s.checked = true) :
      Step s .advance { s with base := s.base.setQueue s.queue.advanceFront, checked := false }
  | returnFront (hp : s.base.processing = .removing) (hfree : s.exclusive = .free)
      (hchecked : s.checked = false) (hend : ¬ s.queue.frontUnreferenced) :
      Step s .returnFront
        { s with base := { s.base with processing := .performing s.queue.frontIndex } }
  | lockExclusive (hp : s.base.processing = .enqueuing) (hfree : s.exclusive = .free)
      (hadding : s.adding = []) : Step s .lockExclusive { s with exclusive := .locked }
  | addNewEpoch (hlocked : s.exclusive = .locked) :
      Step s .addNewEpoch
        { s with
          base := { s.base.setQueue s.queue.addNewEpoch with processing := .removing }
          exclusive := .unlocking }
  | unlockExclusive (hlocked : s.exclusive = .unlocking) :
      Step s .unlockExclusive { s with exclusive := .free }
  | base (hstep : EpochManager.System.Step s.base event base') (hevent : isAtomic event) :
      Step s (.base event) { s with base := base' }

section Abstraction

/-- The reference of a thread in `AddRef` that has been counted. -/
def Adding.reader? : Adding → Option (Reader Record)
  | .counted epochCounter | .returning epochCounter => some ⟨epochCounter, []⟩
  | _ => none

/-- What a thread in `AddRef` has read of the back index. -/
def Adding.backIndex? : Adding → Option Nat
  | .loaded backIndex | .counted backIndex | .returning backIndex => some backIndex
  | .locked => none

namespace System

/-- The references that are counted. -/
def live (s : System Record) : List (Reader Record) :=
  s.base.readers ++ s.adding.filterMap Adding.reader? ++ s.removing

/-- The queue with the front that the processing thread has decided on. -/
def frontQueue (s : System Record) : EpochQueue :=
  if s.checked then s.queue.advanceFront else s.queue

/-- The state with the given readers in which `AddRef` and `RemoveRef` are single steps. -/
def abstract (s : System Record) (readers : List (Reader Record)) : EpochManager.System Record :=
  { s.base.setQueue s.frontQueue with readers }

/-- The locks exclude each other, and the back index stays while a thread is in `AddRef`. -/
structure Locked (s : System Record) : Prop where
  adding : s.exclusive ≠ .free → s.adding = []
  enqueuing : s.exclusive = .locked → s.base.processing = .enqueuing
  removing : s.checked = true → s.base.processing = .removing ∧ s.exclusive = .free
  backIndex : ∀ x ∈ s.adding, ∀ b ∈ x.backIndex?, b = s.queue.backIndex

/-- The steps of the other system that the state stands for. -/
structure Refines (s : System Record) (a : EpochManager.System Record) : Prop where
  locked : s.Locked
  queue : a.QueueInvariant
  readers : ∃ readers, readers.Perm s.live ∧ a = s.abstract readers

end System

/-- The step that takes effect at once where `AddRef` and `RemoveRef` are single steps. -/
def Event.atomic? : Event Record → Option (EpochManager.Event Record)
  | .count => some .addRef
  | .discount epochCounter => some (.removeRef epochCounter)
  | .checkFront | .returnFront => some .removeUnreferenced
  | .addNewEpoch => some .addNewEpoch
  | .base event => some event
  | _ => none

/-- Fewer than `2 ^ 32` live references, and the 64-bit epoch counters do not wrap. -/
def Fits (s : System Record) (event : Event Record) : Prop :=
  ∀ e ∈ event.atomic?, EpochManager.System.Fits { s.base with readers := s.live } e

end Abstraction

section Simulation
variable {s t : System Record}

theorem atomic_frame {b b' : EpochManager.System Record}
    (h : EpochManager.System.Step b event b') (hevent : isAtomic event) :
    b'.queue = b.queue ∧ (b'.processing = b.processing ∨
      b.processing ≠ .removing ∧ b.processing ≠ .enqueuing) := by
  cases h with
  | load | updateRecord | readCounter | registerAction => exact ⟨rfl, .inl rfl⟩
  | performActions hp => exact ⟨rfl, .inr (by simp [hp])⟩
  | incrementCounter hp => exact ⟨rfl, .inr (by simp [hp])⟩
  | addRef | removeRef | removeUnreferenced | returnFront | addNewEpoch => cases hevent

theorem System.Locked.moved (h : s.Locked) (hadding : s.adding = before ++ x :: after)
    (ht : t.adding = before ++ y :: after) (hy : ∀ b ∈ y.backIndex?, b = s.queue.backIndex)
    (hback : t.queue.backIndex = s.queue.backIndex) (hp : t.base.processing = s.base.processing)
    (he : t.exclusive = s.exclusive) (hc : t.checked = s.checked) : t.Locked := by
  refine ⟨fun hheld => ?_, ?_, ?_, fun z hz b hb => ?_⟩
  · have hnone := h.adding (he ▸ hheld)
    simp [hadding] at hnone
  · rw [he, hp]
    exact h.enqueuing
  · rw [hc, hp, he]
    exact h.removing
  · rw [hback]
    simp only [ht, List.mem_append, List.mem_cons] at hz
    rcases hz with hz | rfl | hz
    · exact h.backIndex z (by simp [hadding, hz]) b hb
    · exact hy b hb
    · exact h.backIndex z (by simp [hadding, hz]) b hb

/-- The back index moves only while no thread is in `AddRef`. -/
theorem System.Locked.step (h : s.Locked) (hstep : Step s event t) : t.Locked := by
  cases hstep with
  | lockShared hfree =>
    refine ⟨fun he => absurd hfree he, h.enqueuing, h.removing, fun x hx b hb => ?_⟩
    rcases List.mem_cons.mp hx with rfl | hx
    · cases hb
    · exact h.backIndex x hx b hb
  | loadBackIndex hadding =>
    exact h.moved hadding rfl (fun b hb => (Option.some.inj hb).symm) rfl rfl rfl rfl
  | count hadding =>
    exact h.moved hadding rfl (h.backIndex (.loaded _) (by simp [hadding])) rfl rfl rfl rfl
  | loadResult hadding =>
    exact h.moved hadding rfl (fun b hb => (Option.some.inj hb).symm) rfl rfl rfl rfl
  | unlockShared hadding =>
    refine ⟨fun he => ?_, h.enqueuing, h.removing, fun x hx b hb => ?_⟩
    · have hnone := h.adding he
      simp [hadding] at hnone
    · refine h.backIndex x ?_ b hb
      rcases List.mem_append.mp hx with hx | hx <;> simp [hadding, hx]
  | checkRef | removeRefThrows | discount =>
    exact ⟨h.adding, h.enqueuing, h.removing, h.backIndex⟩
  | checkFront hp hfree => exact ⟨h.adding, h.enqueuing, fun _ => ⟨hp, hfree⟩, h.backIndex⟩
  | advance => exact ⟨h.adding, h.enqueuing, fun he => absurd he (by simp), h.backIndex⟩
  | returnFront hp hfree hchecked =>
    refine ⟨h.adding, fun he => ?_, fun he => ?_, h.backIndex⟩
    · exact absurd (hfree.symm.trans he) (by simp)
    · exact absurd (hchecked.symm.trans he) (by simp)
  | lockExclusive hp hfree hadding =>
    refine ⟨fun _ => hadding, fun _ => hp, fun he => ?_, h.backIndex⟩
    exact absurd ((h.removing he).1.symm.trans hp) (by simp)
  | addNewEpoch hlocked =>
    have hnone : s.adding = [] := h.adding (by simp [hlocked])
    refine ⟨fun _ => hnone, fun he => absurd he (by simp), fun he => ?_, fun x hx => ?_⟩
    · exact absurd ((h.removing he).2.symm.trans hlocked) (by simp)
    · simp [hnone] at hx
  | unlockExclusive hlocked =>
    refine ⟨fun he => absurd rfl he, fun he => absurd he (by simp), fun he => ?_, h.backIndex⟩
    exact ⟨(h.removing he).1, rfl⟩
  | base hstep hevent =>
    obtain ⟨hqueue, hp⟩ := atomic_frame hstep hevent
    refine ⟨h.adding, fun he => ?_, fun he => ?_, fun x hx b hb => ?_⟩
    · exact hp.elim (·.trans (h.enqueuing he)) fun hne => absurd (h.enqueuing he) hne.2
    · exact ⟨hp.elim (·.trans (h.removing he).1) fun hne => absurd (h.removing he).1 hne.1,
        (h.removing he).2⟩
    · exact (h.backIndex x hx b hb).trans (congrArg EpochQueue.backIndex hqueue.symm)

theorem System.live_of_adding (hadding : s.adding = before ++ x :: after) :
    s.live.Perm (x.reader?.toList ++
      (s.base.readers ++ (before ++ after).filterMap Adding.reader? ++ s.removing)) := by
  have hx : (x :: after).filterMap (@Adding.reader? Record) =
      x.reader?.toList ++ after.filterMap Adding.reader? := by
    rw [List.filterMap_cons]
    cases @Adding.reader? Record x <;> rfl
  simp only [System.live, hadding, List.filterMap_append, hx, List.append_assoc]
  rw [← List.append_assoc, ← List.append_assoc]
  exact ((List.perm_append_comm.append_right _).trans (.of_eq (by simp)))

theorem System.live_of_readers (hreaders : s.base.readers = before ++ reader :: after) :
    s.live.Perm (reader ::
      (before ++ after ++ s.adding.filterMap Adding.reader? ++ s.removing)) := by
  simp [System.live, hreaders]

theorem System.live_of_removing (hremoving : s.removing = before ++ reader :: after) :
    s.live.Perm (reader ::
      (s.base.readers ++ s.adding.filterMap Adding.reader? ++ (before ++ after))) := by
  rw [System.live, hremoving]
  refine (List.perm_middle.append_left _).trans ?_
  exact List.perm_middle

theorem split_perm {l : List α} (h : l.Perm (x :: rest)) :
    ∃ before after, l = before ++ x :: after ∧ (before ++ after).Perm rest := by
  obtain ⟨before, after, rfl⟩ := List.append_of_mem (h.mem_iff.mpr List.mem_cons_self)
  exact ⟨before, after, rfl, (List.perm_cons x).mp (List.perm_middle.symm.trans h)⟩

theorem atomic_lift {readers : List (Reader Record)}
    (hstep : EpochManager.System.Step s.base event base') (hevent : isAtomic event)
    (hperm : readers.Perm s.live) :
    ∃ readers', readers'.Perm ({ s with base := base' } : System Record).live ∧
      EpochManager.System.Step (s.abstract readers) event
        (({ s with base := base' } : System Record).abstract readers') := by
  cases hstep with
  | @load before after record _ i reader hreaders hslot =>
    obtain ⟨before', after', rfl, hrest⟩ :=
      split_perm (hperm.trans (System.live_of_readers hreaders))
    refine ⟨before' ++ { reader with loaded := record :: reader.loaded } :: after', ?_,
      .load i reader rfl hslot⟩
    refine List.perm_middle.trans ((hrest.cons _).trans ?_)
    exact (System.live_of_readers (s := { s with base := { s.base with
      readers := before ++ { reader with loaded := record :: reader.loaded } :: after } }) rfl).symm
  | updateRecord i newRecord hnew => exact ⟨readers, hperm, .updateRecord i newRecord hnew⟩
  | readCounter hreleases => exact ⟨readers, hperm, .readCounter hreleases⟩
  | registerAction hreleases => exact ⟨readers, hperm, .registerAction hreleases⟩
  | performActions hp => exact ⟨readers, hperm, .performActions hp⟩
  | incrementCounter hp => exact ⟨readers, hperm, .incrementCounter hp⟩
  | addRef | removeRef | removeUnreferenced | returnFront | addNewEpoch => cases hevent

theorem System.frontQueue_refCount (s : System Record) :
    s.frontQueue.refCount = s.queue.refCount := by
  unfold System.frontQueue
  split <;> rfl

theorem stutter {readers : List (Reader Record)} (hperm : readers.Perm s.live)
    (hlive : s.live.Perm t.live) (ht : t.abstract readers = s.abstract readers) :
    ∃ readers', readers'.Perm t.live ∧ Transition.Run
      (Transition.Guarded EpochManager.System.Fits EpochManager.System.Step)
        (s.abstract readers) [] (t.abstract readers') :=
  ⟨readers, hperm.trans hlive, ht ▸ .nil⟩

theorem step_run {readers : List (Reader Record)} (h : s.Locked)
    (hqueue : (s.abstract readers).QueueInvariant) (hperm : readers.Perm s.live)
    (hstep : Transition.Guarded Fits Step s event t) :
    ∃ readers', readers'.Perm t.live ∧ Transition.Run
      (Transition.Guarded EpochManager.System.Fits EpochManager.System.Step)
        (s.abstract readers) event.atomic?.toList (t.abstract readers') := by
  obtain ⟨hfits, hstep⟩ := hstep
  cases hstep with
  | lockShared | lockExclusive | unlockExclusive => exact stutter hperm (.refl _) rfl
  | loadBackIndex hadding =>
    refine stutter hperm (.of_eq ?_) rfl
    simp [System.live, hadding, List.filterMap_cons, Adding.reader?]
  | @loadResult before after _ epochCounter hadding =>
    have hback := h.backIndex (.counted epochCounter) (by simp [hadding]) _ rfl
    refine stutter hperm (.of_eq ?_) rfl
    simp [System.live, hadding, Adding.reader?, hback]
  | @unlockShared before after _ epochCounter hadding =>
    refine stutter hperm ?_ rfl
    exact System.live_of_adding hadding
  | checkRef hreaders =>
    refine stutter hperm ?_ rfl
    exact (System.live_of_readers hreaders).trans List.perm_middle.symm
  | @removeRefThrows before reader after _ hreaders hcount =>
    have hmem : reader ∈ readers :=
      hperm.mem_iff.mpr ((System.live_of_readers hreaders).mem_iff.mpr List.mem_cons_self)
    have hne := hqueue.references.refCount_ne_zero (List.mem_map_of_mem hmem)
    rw [show (s.abstract readers).queue = s.frontQueue from rfl, s.frontQueue_refCount] at hne
    exact absurd hcount hne
  | @count before after _ backIndex hadding =>
    have hback := h.backIndex (.loaded backIndex) (by simp [hadding]) _ rfl
    subst hback
    have hbefore := System.live_of_adding hadding
    have hafter := @System.live_of_adding _ { s with adding := before ++ .counted _ :: after }
      before (.counted s.queue.backIndex) after rfl
    refine ⟨⟨s.queue.backIndex, []⟩ :: readers, ?_, .single ⟨?_, ?_⟩⟩
    · exact ((hperm.trans hbefore).cons _).trans hafter.symm
    · have hfits' : s.live.length + 1 < 2 ^ 32 := hfits _ rfl
      rwa [← hperm.length_eq] at hfits'
    · simp only [System.abstract, System.frontQueue]
      cases s.checked <;> exact .addRef
  | @discount before reader after _ hremoving =>
    obtain ⟨before', after', rfl, hrest⟩ :=
      split_perm (hperm.trans (System.live_of_removing hremoving))
    refine ⟨before' ++ after', hrest, .single ⟨trivial, ?_⟩⟩
    have hq := (hqueue.references.removeRef_eq
      (List.mem_map_of_mem (List.mem_append_right before' List.mem_cons_self))).2
    have hstep := EpochManager.System.Step.removeRef (s := s.abstract _) rfl hq
    obtain ⟨_, _, _, checked, _⟩ := s
    cases checked <;> exact hstep
  | checkFront hp hfree hchecked hfront =>
    obtain ⟨_, _, _, checked, _⟩ := s
    obtain rfl : checked = false := hchecked
    exact ⟨readers, hperm, .single ⟨trivial, .removeUnreferenced hp (if_pos hfront)⟩⟩
  | advance hchecked =>
    obtain ⟨_, _, _, checked, _⟩ := s
    obtain rfl : checked = true := hchecked
    exact stutter hperm (.refl _) rfl
  | returnFront hp hfree hchecked hend =>
    obtain ⟨_, _, _, checked, _⟩ := s
    obtain rfl : checked = false := hchecked
    exact ⟨readers, hperm, .single ⟨trivial, .returnFront hp (if_neg hend)⟩⟩
  | addNewEpoch hlocked =>
    have hchecked : s.checked ≠ true := fun hc =>
      absurd (hlocked.symm.trans (h.removing hc).2) (by simp)
    have hp := h.enqueuing hlocked
    obtain ⟨_, _, _, checked, _⟩ := s
    obtain rfl : checked = false := (Bool.not_eq_true _).mp hchecked
    exact ⟨readers, hperm, .single ⟨trivial, .addNewEpoch hp⟩⟩
  | base hstep hevent =>
    obtain ⟨readers', hperm', hstep'⟩ := atomic_lift hstep hevent hperm
    refine ⟨readers', hperm', .single ⟨?_, hstep'⟩⟩
    have hfits' := hfits _ rfl
    cases hstep with
    | incrementCounter => exact hfits'
    | addRef => cases hevent
    | _ => trivial

theorem System.Refines.step {a : EpochManager.System Record} (h : s.Refines a)
    (hstep : Transition.Guarded Fits Step s event t) :
    ∃ a', Transition.Run (Transition.Guarded EpochManager.System.Fits EpochManager.System.Step)
      a event.atomic?.toList a' ∧ t.Refines a' := by
  obtain ⟨readers, hperm, rfl⟩ := h.readers
  obtain ⟨readers', hperm', hrun⟩ := step_run h.locked h.queue hperm hstep
  have hqueue := hrun.invariant (fun _ _ _ => EpochManager.System.QueueInvariant.step) h.queue
  exact ⟨_, hrun, h.locked.step hstep.2, hqueue, readers', hperm', rfl⟩

theorem initial_refines (hq : EpochQueue.create 0 queueSize = .ok q) (numActionQueues : Nat) :
    (System.initial q numActionQueues : System Record).Refines (.initial q numActionQueues) where
  locked := ⟨fun _ => rfl, fun h => absurd h (by simp [System.initial]),
    fun h => absurd h (by simp [System.initial]), fun x hx => absurd hx (by simp [System.initial])⟩
  queue := (EpochManager.System.initial_invariant hq numActionQueues).queue
  readers := ⟨[], .refl _, rfl⟩

theorem run_refines (hq : EpochQueue.create 0 queueSize = .ok q)
    (hrun : Transition.Run (Transition.Guarded Fits Step)
      (System.initial q numActionQueues : System Record) events s) :
    ∃ a, Transition.Run (Transition.Guarded EpochManager.System.Fits EpochManager.System.Step)
      (.initial q numActionQueues) (events.filterMap Event.atomic?) a ∧ s.Refines a :=
  hrun.simulation (fun _ _ _ _ hstep h => System.Refines.step h hstep)
    (initial_refines hq numActionQueues)

end Simulation

section Results
variable {s : System Record}

theorem fits_count (h : s.live.length + 1 < 2 ^ 32) : Fits s .count := by
  rintro _ ⟨⟩
  exact h

/-- A run of the single loads and stores is a run in which `AddRef` and `RemoveRef` take effect at
once, at their additions to the counter, in their order. -/
theorem run_atomic (hq : EpochQueue.create 0 queueSize = .ok q)
    (hrun : Transition.Run (Transition.Guarded Fits Step)
      (System.initial q numActionQueues : System Record) events s) :
    ∃ readers, readers.Perm s.live ∧
      Transition.Run (Transition.Guarded EpochManager.System.Fits EpochManager.System.Step)
        (.initial q numActionQueues) (events.filterMap Event.atomic?) (s.abstract readers) := by
  obtain ⟨a, ha, h⟩ := run_refines hq hrun
  obtain ⟨readers, hperm, rfl⟩ := h.readers
  exact ⟨readers, hperm, ha⟩

/-- The processing thread returns its front while a reference is being counted. -/
theorem run_atomic_of_returnFront :
    let s : System Nat :=
      { base :=
          { manager := ⟨0, ⟨0, 0, [1], by simp⟩, ⟨[.empty], 0⟩⟩
            slots := fun _ => none
            readers := []
            releases := []
            processing := .performing 0
            published := []
            released := [] }
        adding := [.counted 0]
        removing := []
        checked := false
        exclusive := .free }
    ∃ readers, readers.Perm s.live ∧
      Transition.Run (Transition.Guarded EpochManager.System.Fits EpochManager.System.Step)
        (.initial ⟨0, 0, [0], by simp⟩ 1) [.removeUnreferenced, .addRef] (s.abstract readers) := by
  refine @run_atomic Nat _ 1 ⟨0, 0, [0], by simp⟩ 1
    [.lockShared, .loadBackIndex, .returnFront, .count] rfl ?_
  refine .cons ⟨by simp [Fits, Event.atomic?], .lockShared rfl⟩ ?_
  refine .cons ⟨by simp [Fits, Event.atomic?],
    .loadBackIndex (show _ = [] ++ _ :: [] from rfl)⟩ ?_
  refine .cons ⟨by simp [Fits, Event.atomic?, EpochManager.System.Fits],
    .returnFront rfl rfl rfl (by decide)⟩ ?_
  exact .cons ⟨fits_count (by decide), .count (show _ = [] ++ _ :: [] from rfl)⟩ .nil

/-- Whatever the threads do, a record that a reference holds is not released, `RemoveRef` does not
throw, and no counter falls below zero. -/
theorem held_not_released (hq : EpochQueue.create 0 queueSize = .ok q)
    (hrun : Transition.Run (Transition.Guarded Fits Step)
      (System.initial q numActionQueues : System Record) events s) :
    (∀ reader ∈ s.live, ∀ record ∈ reader.loaded, record ∉ s.base.released ∧
      ∀ performed t, Step s (.base (.performActions performed)) t → record ∉ performed) ∧
    (∀ reader ∈ s.live, s.queue.refCount reader.epochCounter ≠ 0) ∧
    (∀ t, ¬ Step s .removeRefThrows t) := by
  obtain ⟨a, ha, h⟩ := run_refines hq hrun
  obtain ⟨readers, hperm, rfl⟩ := h.readers
  have hinv := EpochManager.System.reachable_invariant hq ha
  have hcount : ∀ reader ∈ s.live, s.queue.refCount reader.epochCounter ≠ 0 := fun reader hr => by
    rw [← s.frontQueue_refCount]
    exact hinv.queue.references.refCount_ne_zero (List.mem_map_of_mem (hperm.mem_iff.mpr hr))
  refine ⟨fun reader hr record hl => ⟨?_, fun performed t hstep => ?_⟩, hcount, fun t hstep => ?_⟩
  · exact (hinv.covered reader (hperm.mem_iff.mpr hr) record hl).1
  · cases hstep with
    | base hstep hevent =>
      obtain ⟨_, -, hstep'⟩ := atomic_lift hstep hevent hperm
      exact hinv.covered.not_performed hinv.queue hstep' (hperm.mem_iff.mpr hr) hl
  · cases hstep with
    | removeRefThrows hreaders hzero =>
      exact hcount _ ((System.live_of_readers hreaders).mem_iff.mpr List.mem_cons_self) hzero

/-- A reader that is in `RemoveRef` still holds the record it has loaded. -/
theorem held_not_released_of_checkRef :
    let s : System Nat :=
      { base :=
          { manager := ⟨0, ⟨0, 0, [1], by simp⟩, ⟨[.empty], 0⟩⟩
            slots := Function.update (fun _ => none) 0 (some 7)
            readers := []
            releases := []
            processing := .removing
            published := [7]
            released := [] }
        adding := []
        removing := [⟨0, [7]⟩]
        checked := false
        exclusive := .free }
    (∀ reader ∈ s.live, ∀ record ∈ reader.loaded, record ∉ s.base.released ∧
      ∀ performed t, Step s (.base (.performActions performed)) t → record ∉ performed) ∧
    (∀ reader ∈ s.live, s.queue.refCount reader.epochCounter ≠ 0) ∧
    (∀ t, ¬ Step s .removeRefThrows t) := by
  refine @held_not_released Nat _ 1 ⟨0, 0, [0], by simp⟩ 1
    [.lockShared, .loadBackIndex, .count, .loadResult, .unlockShared,
      .base (.updateRecord 0 (some 7)), .base (.load 0), .checkRef] rfl ?_
  have hnone : ∀ s : System Nat, Fits s .lockShared := by simp [Fits, Event.atomic?]
  refine .cons ⟨hnone _, .lockShared rfl⟩ ?_
  refine .cons ⟨hnone _, .loadBackIndex (show _ = [] ++ _ :: [] from rfl)⟩ ?_
  refine .cons ⟨fits_count (by decide), .count (show _ = [] ++ _ :: [] from rfl)⟩ ?_
  refine .cons ⟨hnone _, .loadResult (show _ = [] ++ _ :: [] from rfl)⟩ ?_
  refine .cons ⟨hnone _, .unlockShared (show _ = [] ++ _ :: [] from rfl)⟩ ?_
  refine .cons ⟨by simp [Fits, Event.atomic?, EpochManager.System.Fits],
    .base (.updateRecord 0 (some 7) (show ∀ record ∈ some 7, record ∉ [] by simp)) rfl⟩ ?_
  refine .cons ⟨by simp [Fits, Event.atomic?, EpochManager.System.Fits],
    .base (.load 0 ⟨0, []⟩ (show _ = [] ++ _ :: [] from rfl) rfl) rfl⟩ ?_
  exact .cons ⟨hnone _, .checkRef (show _ = [] ++ _ :: [] from rfl) (by decide)⟩ .nil

end Results

end L4.EpochThreads

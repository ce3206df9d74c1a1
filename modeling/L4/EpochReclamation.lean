import L4.EpochSafety

namespace L4
set_option autoImplicit true

namespace EpochManager
open Transition (Run Guarded)
variable {Record : Type}

def Event.isPerformActions : Event Record → Bool
  | .performActions _ => true
  | _ => false

/-- The steps of the processing thread. -/
def Event.isProcessing : Event Record → Bool
  | .removeUnreferenced | .performActions _ | .incrementCounter | .addNewEpoch => true
  | _ => false

namespace System

/-! The processing thread performs every action in the end. -/

/-- No slot of the queue that an epoch up to the given one uses is referenced. -/
def Unreferenced (s : System Record) (epochCounter : Nat) : Prop :=
  ∀ e, s.queue.frontIndex ≤ e → e ≤ epochCounter → s.queue.refCount e = 0

/-- No action is registered at an epoch in the future. -/
def PastReleases (s : System Record) : Prop :=
  ∀ record epoch, s.ReleaseAt record epoch → epoch ≤ s.manager.currentEpochCounter

theorem Step.current_le {s t : System Record} (h : Guarded Fits Step s event t) :
    s.manager.currentEpochCounter ≤ t.manager.currentEpochCounter := by
  obtain ⟨hfits, hstep⟩ := h
  cases hstep with
  | incrementCounter hp =>
    have hlt : s.manager.currentEpochCounter + 1 < 2 ^ 64 := hfits
    show s.manager.currentEpochCounter ≤ (s.manager.currentEpochCounter + 1) % 2 ^ 64
    rw [Nat.mod_eq_of_lt hlt]
    exact Nat.le_succ _
  | _ => exact Nat.le_refl _

theorem PastReleases.step {s t : System Record} (h : s.PastReleases)
    (hstep : Guarded Fits Step s event t) : t.PastReleases := by
  intro record epoch hrelease
  refine Nat.le_trans ?_ (Step.current_le hstep)
  rcases hstep.2.releaseAt hrelease with hrelease | ⟨-, rfl⟩
  · exact h record epoch hrelease
  · exact Nat.le_refl _

/-- How far the processing thread has come with an action that is pending at an epoch, by the number
of its passes. -/
inductive Progress (epochCounter : Nat) (record : Record) (s : System Record) : Nat → Prop
  | registered (hpending : (epochCounter, record) ∈ s.pending)
      (hle : epochCounter ≤ s.manager.currentEpochCounter) : Progress epochCounter record s 0
  | incrementing (hpending : (epochCounter, record) ∈ s.pending)
      (hle : epochCounter ≤ s.manager.currentEpochCounter) (hp : s.processing = .incrementing) :
      Progress epochCounter record s 1
  | passed (hpending : (epochCounter, record) ∈ s.pending)
      (hlt : epochCounter < s.manager.currentEpochCounter)
      (hp : s.processing = .enqueuing ∨ s.processing = .removing ∨
        ∃ oldest, s.processing = .performing oldest ∧ epochCounter < oldest) :
      Progress epochCounter record s 1

theorem performed_of_lt {m : EpochActionManager Record} (hlt : epochCounter < oldest)
    (hpending : (epochCounter, record) ∈ m.pending) :
    (∃ performed, Event.performActions (m.performActions oldest).1 = .performActions performed ∧
      record ∈ performed) ∧ (epochCounter, record) ∉ (m.performActions oldest).2.pending := by
  refine ⟨⟨_, rfl, EpochActionManager.mem_performed.mpr ⟨epochCounter, hlt, hpending⟩⟩, ?_⟩
  rw [EpochActionManager.mem_pending_performActions]
  exact fun h => absurd h.2 (Nat.not_le.mpr hlt)

theorem Step.pending {s t : System Record} (h : Step s event t)
    (hpending : (epochCounter, record) ∈ s.pending) : (epochCounter, record) ∈ t.pending ∨
      (∃ performed, event = .performActions performed ∧ record ∈ performed) ∧
        (epochCounter, record) ∉ t.pending := by
  cases h with
  | registerAction hreleases =>
    exact .inl (EpochActionManager.mem_pending_registerAction_of_mem hpending _ _)
  | @performActions _ oldest hp =>
    rcases Nat.lt_or_ge epochCounter oldest with hlt | hle
    · exact .inr (performed_of_lt hlt hpending)
    · exact .inl (EpochActionManager.mem_pending_performActions.mpr ⟨hpending, hle⟩)
  | _ => exact .inl hpending

theorem Unreferenced.lt_front {s : System Record} (h : s.Unreferenced epochCounter)
    (hq : s.queue.removeUnreferencedFront = none) (hback : epochCounter < s.queue.backIndex) :
    epochCounter < s.queue.frontIndex := by
  by_contra hle
  have hfront := h s.queue.frontIndex (Nat.le_refl _) (Nat.not_lt.mp hle)
  rw [EpochQueue.removeUnreferencedFront, if_pos ⟨by omega, hfront⟩] at hq
  cases hq

theorem Progress.step {s t : System Record} (h : Progress epochCounter record s passes)
    (hinv : s.QueueInvariant) (hunreferenced : s.Unreferenced epochCounter)
    (hstep : Guarded Fits Step s event t) :
    Progress epochCounter record t (passes + if event.isPerformActions then 1 else 0) ∨
      (∃ performed, event = .performActions performed ∧ record ∈ performed) ∧
        (epochCounter, record) ∉ t.pending := by
  have hcurrent := Step.current_le hstep
  obtain ⟨hfits, hstep⟩ := hstep
  cases h with
  | registered hpending hle =>
    refine (hstep.pending hpending).imp_left fun hpending => ?_
    cases hstep with
    | performActions hp => exact .incrementing hpending (Nat.le_trans hle hcurrent) rfl
    | _ => exact .registered hpending (Nat.le_trans hle hcurrent)
  | incrementing hpending hle hp =>
    refine (hstep.pending hpending).imp_left fun hpending => ?_
    cases hstep with
    | incrementCounter =>
      refine .passed hpending (Nat.lt_of_le_of_lt hle ?_) (.inl rfl)
      have hlt : s.manager.currentEpochCounter + 1 < 2 ^ 64 := hfits
      show _ < (s.manager.currentEpochCounter + 1) % 2 ^ 64
      rw [Nat.mod_eq_of_lt hlt]
      exact Nat.lt_succ_self _
    | removeUnreferenced hp' => cases hp.symm.trans hp'
    | returnFront hp' => cases hp.symm.trans hp'
    | performActions hp' => cases hp.symm.trans hp'
    | addNewEpoch hp' => cases hp.symm.trans hp'
    | _ => exact .incrementing hpending hle hp
  | passed hpending hlt hp =>
    cases hstep with
    | @performActions _ oldest hp' =>
      rcases hp with hp | hp | ⟨oldest', hp, hold⟩
      · cases hp.symm.trans hp'
      · cases hp.symm.trans hp'
      · obtain rfl := Processing.performing.inj (hp.symm.trans hp')
        exact .inr (performed_of_lt hold hpending)
    | returnFront hp' hq =>
      have hback : s.manager.currentEpochCounter = s.queue.backIndex + lag s.processing :=
        hinv.current_eq
      rw [hp'] at hback
      have hlt' : epochCounter < s.queue.backIndex := Nat.lt_of_lt_of_eq hlt hback
      exact .inl (.passed hpending hlt (.inr (.inr ⟨_, rfl, hunreferenced.lt_front hq hlt'⟩)))
    | incrementCounter hp' =>
      rcases hp with hp | hp | ⟨oldest, hp, -⟩ <;> cases hp.symm.trans hp'
    | addNewEpoch hp' => exact .inl (.passed hpending hlt (.inr (.inl rfl)))
    | registerAction hreleases =>
      exact .inl (.passed
        (EpochActionManager.mem_pending_registerAction_of_mem hpending _ _) hlt hp)
    | _ => exact .inl (.passed hpending hlt hp)

theorem Progress.passes_le {s : System Record} (h : Progress epochCounter record s passes) :
    passes ≤ 1 := by
  cases h <;> decide

/-- The steps while no slot of an epoch up to the given one is referenced. -/
abbrev UnreferencedStep (epochCounter : Nat) :
    System Record → Event Record → System Record → Prop :=
  Guarded (fun s event => Fits s event ∧ s.Unreferenced epochCounter) Step

theorem Progress.run {s t : System Record} (h : Progress epochCounter record s passes)
    (hinv : s.QueueInvariant) (hrun : Run (UnreferencedStep epochCounter) s events t)
    (hpasses : 2 ≤ passes + events.countP Event.isPerformActions) :
    ∃ performed, .performActions performed ∈ events ∧ record ∈ performed := by
  induction hrun generalizing passes with
  | nil =>
    have hle := h.passes_le
    simp only [List.countP_nil] at hpasses
    omega
  | @cons s event u events t hstep _ ih =>
    obtain ⟨⟨hfits, hunreferenced⟩, hstep⟩ := hstep
    rcases h.step hinv hunreferenced ⟨hfits, hstep⟩ with h | ⟨⟨performed, rfl, hmem⟩, -⟩
    · rw [List.countP_cons] at hpasses
      obtain ⟨performed, hmem, hrecord⟩ := ih h (hinv.step ⟨hfits, hstep⟩) (by omega)
      exact ⟨performed, List.mem_cons_of_mem _ hmem, hrecord⟩
    · exact ⟨performed, List.mem_cons_self, hmem⟩

theorem reachable_pastReleases (hq : EpochQueue.create 0 queueSize = .ok q)
    (hrun : Run (Guarded Fits Step) (initial q numActionQueues : System Record) events s) :
    s.PastReleases := by
  refine hrun.invariant (fun _ _ _ => PastReleases.step) fun record epoch hrelease => ?_
  cases (initial_invariant hq numActionQueues).link.retired_published record hrelease.retired

/-- An action that is pending is performed by one of the next two passes of the processing thread,
whatever the others do, if no slot of the queue that an epoch up to its own uses is referenced. -/
theorem performed_of_two_passes (hq : EpochQueue.create 0 queueSize = .ok q)
    (hrun : Run (Guarded Fits Step) (initial q numActionQueues : System Record) events s)
    (hpending : (epochCounter, record) ∈ s.pending)
    (hrest : Run (UnreferencedStep epochCounter) s rest t)
    (hpasses : 2 ≤ rest.countP Event.isPerformActions) :
    ∃ performed, .performActions performed ∈ rest ∧ record ∈ performed :=
  Progress.run (.registered hpending (reachable_pastReleases hq hrun _ _ (.inr hpending)))
    (reachable_invariant hq hrun).queue hrest (by omega)

section Quiet

/-- There is an action queue to register with. -/
def HasQueue (s : System Record) : Prop :=
  0 < s.manager.epochActionManager.epochToActionsList.length ∧
    s.manager.epochActionManager.epochToActionsList.length ≤ 2 ^ 64

theorem HasQueue.step {s t : System Record} (h : s.HasQueue) (hstep : Step s event t) :
    t.HasQueue := by
  cases hstep with
  | registerAction hreleases =>
    rw [HasQueue, EpochActionManager.length_registerAction]
    exact h
  | performActions hp =>
    rw [HasQueue, EpochActionManager.length_performActions]
    exact h
  | _ => exact h

theorem Step.releases {s t : System Record} (h : Step s event t) (hqueue : s.HasQueue)
    (hmem : release ∈ s.releases) : release ∈ t.releases ∨
      (∃ record, release = .unlinked record ∧
        .counterRead record s.manager.currentEpochCounter ∈ t.releases) ∨
      ∃ record epoch, release = .counterRead record epoch ∧ (epoch, record) ∈ t.pending := by
  cases h with
  | updateRecord => exact .inl (List.mem_append_right _ hmem)
  | readCounter hreleases =>
    rw [hreleases] at hmem
    rcases List.mem_append.mp hmem with hmem | hmem
    · exact .inl (List.mem_append_left _ hmem)
    · rcases List.mem_cons.mp hmem with rfl | hmem
      · exact .inr (.inl ⟨_, rfl, by simp⟩)
      · exact .inl (List.mem_append_right _ (List.mem_cons_of_mem _ hmem))
  | registerAction hreleases =>
    rw [hreleases] at hmem
    rcases List.mem_append.mp hmem with hmem | hmem
    · exact .inl (List.mem_append_left _ hmem)
    · rcases List.mem_cons.mp hmem with rfl | hmem
      · have hindex := EpochActionManager.nextIndex_lt hqueue.1 hqueue.2
        exact .inr (.inr ⟨_, _, rfl, (EpochActionManager.pending_registerAction hindex
          _ _).mem_iff.mpr List.mem_cons_self⟩)
      · exact .inl (List.mem_append_right _ hmem)
  | _ => exact .inl hmem

theorem Step.retired_mono {s t : System Record} (h : Step s event t) (hqueue : s.HasQueue)
    (hretired : s.Retired record) : t.Retired record := by
  rcases hretired with hmem | ⟨epoch, hmem | hmem⟩ | hmem
  · rcases h.releases hqueue hmem with hmem | ⟨_, heq, hmem⟩ | ⟨_, _, heq, -⟩
    · exact .inl hmem
    · obtain rfl := Release.unlinked.inj heq
      exact .inr (.inl ⟨_, .inl hmem⟩)
    · cases heq
  · rcases h.releases hqueue hmem with hmem | ⟨_, heq, -⟩ | ⟨_, _, heq, hmem⟩
    · exact .inr (.inl ⟨epoch, .inl hmem⟩)
    · cases heq
    · obtain ⟨rfl, rfl⟩ := Release.counterRead.inj heq
      exact .inr (.inl ⟨epoch, .inr hmem⟩)
  · cases h with
    | registerAction hreleases =>
      exact .inr (.inl ⟨epoch, .inr
        (EpochActionManager.mem_pending_registerAction_of_mem hmem _ _)⟩)
    | @performActions _ oldest hp =>
      rcases Nat.lt_or_ge epoch oldest with hlt | hle
      · exact .inr (.inr (List.mem_append_right _
          (EpochActionManager.mem_performed.mpr ⟨epoch, hlt, hmem⟩)))
      · exact .inr (.inl ⟨epoch, .inr
          (EpochActionManager.mem_pending_performActions.mpr ⟨hmem, hle⟩)⟩)
    | _ => exact .inr (.inl ⟨epoch, .inr hmem⟩)
  · cases h with
    | performActions hp => exact .inr (.inr (List.mem_append_left _ hmem))
    | _ => exact .inr (.inr hmem)

/-- Every published record is linked or retired. -/
def Accounted (s : System Record) : Prop :=
  ∀ record ∈ s.published, (∃ i, s.slots i = some record) ∨ s.Retired record

theorem Accounted.step {s t : System Record} (h : s.Accounted) (hqueue : s.HasQueue)
    (hstep : Step s event t) : t.Accounted := by
  intro record hmem
  by_cases hold : record ∈ s.published
  · rcases h record hold with ⟨i, hi⟩ | hretired
    · cases hstep with
      | updateRecord j newRecord hnew =>
        by_cases hij : i = j
        · subst hij
          exact .inr (.inl (List.mem_append_left _ (by simp [hi])))
        · exact .inl ⟨i, (Function.update_of_ne hij _ _).trans hi⟩
      | _ => exact .inl ⟨i, hi⟩
    · exact .inr (hstep.retired_mono hqueue hretired)
  · cases hstep with
    | updateRecord j newRecord hnew =>
      rcases List.mem_append.mp hmem with hmem | hmem
      · exact .inl ⟨j, by simpa using hmem⟩
      · exact absurd hmem hold
    | _ => exact absurd hmem hold

/-- The steps of the processing thread alone. -/
abbrev ProcessingStep : System Record → Event Record → System Record → Prop :=
  Guarded (fun s event => Fits s event ∧ event.isProcessing) Step

theorem processingStep {s t : System Record} (hstep : Step s event t)
    (hevent : event.isProcessing) (hfits : Fits s event) : ProcessingStep s event t :=
  ⟨⟨hfits, hevent⟩, hstep⟩

/-- Nobody references an epoch or is about to release a record. -/
structure Quiet (s : System Record) : Prop where
  readers : s.readers = []
  releases : s.releases = []

theorem Quiet.step {s t : System Record} (h : s.Quiet) (hstep : ProcessingStep s event t) :
    t.Quiet := by
  obtain ⟨⟨-, hevent⟩, hstep⟩ := hstep
  cases hstep with
  | addRef | load | removeRef | updateRecord | readCounter | registerAction => cases hevent
  | _ => exact ⟨h.readers, h.releases⟩

theorem Quiet.unreferenced {s : System Record} (h : s.Quiet) (hinv : s.QueueInvariant)
    (epochCounter : Nat) : s.Unreferenced epochCounter := by
  intro e _ _
  have hcounts := hinv.references.counts e
  rw [h.readers] at hcounts
  exact hcounts

theorem pending_of_processing {s t : System Record} (h : ProcessingStep s event t)
    (hmem : x ∈ t.pending) : x ∈ s.pending := by
  obtain ⟨⟨-, hevent⟩, hstep⟩ := h
  cases hstep with
  | registerAction => cases hevent
  | performActions hp => exact (EpochActionManager.mem_pending_performActions.mp hmem).1
  | _ => exact hmem

theorem not_pending_of_run {s t : System Record} (hinv : s.QueueInvariant) (hquiet : s.Quiet)
    (h : Progress epochCounter record s passes ∨ (epochCounter, record) ∉ s.pending)
    (hrun : Run ProcessingStep s events t)
    (hpasses : 2 ≤ passes + events.countP Event.isPerformActions) :
    (epochCounter, record) ∉ t.pending := by
  induction hrun generalizing passes with
  | nil =>
    rcases h with h | h
    · have hle := h.passes_le
      simp only [List.countP_nil] at hpasses
      omega
    · exact h
  | @cons s event u events t hstep _ ih =>
    rw [List.countP_cons] at hpasses
    have hguarded : Guarded Fits Step s event u := ⟨hstep.1.1, hstep.2⟩
    have hnext : Progress epochCounter record u
        (passes + if event.isPerformActions then 1 else 0) ∨
      (epochCounter, record) ∉ u.pending := by
      rcases h with h | h
      · exact (h.step hinv (hquiet.unreferenced hinv _) hguarded).imp_right And.right
      · exact .inr fun hmem => h (pending_of_processing hstep hmem)
    exact ih (hinv.step hguarded) (hquiet.step hstep) hnext (by omega)

theorem reachable_accounted
    (hqueues : 0 < numActionQueues ∧ numActionQueues ≤ 2 ^ 64)
    (hrun : Run (Guarded Fits Step) (initial q numActionQueues : System Record) events s) :
    s.HasQueue ∧ s.Accounted := by
  refine hrun.invariant (I := fun s => s.HasQueue ∧ s.Accounted)
    (fun _ _ _ h hstep => ⟨h.1.step hstep.2, h.2.step h.1 hstep.2⟩) ⟨?_, ?_⟩
  · simpa [HasQueue, initial] using hqueues
  · intro record hmem
    cases hmem

/-- Nothing is leaked: when nobody uses the tables, two passes of the processing thread leave no
action pending, and then the records that are not released are those in the slots. -/
theorem reclaimed_of_two_passes (hq : EpochQueue.create 0 queueSize = .ok q)
    (hqueues : 0 < numActionQueues ∧ numActionQueues ≤ 2 ^ 64)
    (hrun : Run (Guarded Fits Step) (initial q numActionQueues : System Record) events s)
    (hquiet : s.Quiet) (hrest : Run ProcessingStep s rest t)
    (hpasses : 2 ≤ rest.countP Event.isPerformActions) :
    t.pending = [] ∧
      ∀ record ∈ t.published, record ∈ t.released ↔ ∀ i, t.slots i ≠ some record := by
  have hinv := reachable_invariant hq hrun
  have hreach : Run (Guarded Fits Step) (initial q numActionQueues) (events ++ rest) t :=
    hrun.append (hrest.mono fun _ _ _ hstep => ⟨hstep.1.1, hstep.2⟩)
  have hpending : t.pending = [] := by
    refine List.eq_nil_iff_forall_not_mem.mpr fun ⟨epochCounter, record⟩ => ?_
    have hstart : Progress epochCounter record s 0 ∨ (epochCounter, record) ∉ s.pending := by
      by_cases hmem : (epochCounter, record) ∈ s.pending
      · exact .inl (.registered hmem (reachable_pastReleases hq hrun _ _ (.inr hmem)))
      · exact .inr hmem
    exact not_pending_of_run hinv.queue hquiet hstart hrest (by omega)
  refine ⟨hpending, fun record hmem => ⟨fun hreleased i => ?_, fun hunlinked => ?_⟩⟩
  · exact (reachable_invariant hq hreach).link.retired_unlinked record (.inr (.inr hreleased)) i
  · have hquiet : t.Quiet := hrest.invariant (fun _ _ _ => Quiet.step) hquiet
    rcases (reachable_accounted hqueues hreach).2 record hmem with
      ⟨i, hi⟩ | hmem | ⟨epoch, hmem | hmem⟩ | hmem
    · exact absurd hi (hunlinked i)
    · rw [hquiet.releases] at hmem
      cases hmem
    · rw [hquiet.releases] at hmem
      cases hmem
    · rw [hpending] at hmem
      cases hmem
    · exact hmem

end Quiet

section Unlinked

theorem Quiet.unreferencedRun {s t : System Record} (h : s.Quiet) (hinv : s.QueueInvariant)
    (hrun : Run ProcessingStep s events t) (epochCounter : Nat) :
    Run (UnreferencedStep epochCounter) s events t := by
  induction hrun with
  | nil => exact .nil
  | cons hstep _ ih =>
    have hguarded : Guarded Fits Step _ _ _ := ⟨hstep.1.1, hstep.2⟩
    exact .cons ⟨⟨hstep.1.1, h.unreferenced hinv epochCounter⟩, hstep.2⟩
      (ih (h.step hstep) (hinv.step hguarded))

/-- A record is published and unlinked, and its action is registered. The processing thread makes
two rounds. -/
theorem run_unlinked : ∃ events s rest t,
    Run (Guarded Fits Step) (initial ⟨0, 0, [0], by simp⟩ 1 : System Nat) events s ∧ s.Quiet ∧
      s.pending = [(0, 7)] ∧ Run ProcessingStep s rest t ∧
      rest.countP Event.isPerformActions = 2 := by
  have hrun : Run (Guarded Fits Step) (initial ⟨0, 0, [0], by simp⟩ 1 : System Nat)
      [.updateRecord 0 (some 7), .updateRecord 0 none, .readCounter 7, .registerAction 7]
      { manager := ⟨0, ⟨0, 0, [0], by simp⟩, ⟨[⟨[(0, [7])], by simp⟩], 1⟩⟩
        slots := Function.update (Function.update (fun _ => none) 0 (some 7)) 0 none
        readers := []
        releases := []
        processing := .removing
        published := [7]
        released := [] } := by
    refine .cons ⟨trivial, .updateRecord 0 (some 7) (by simp [initial])⟩ ?_
    refine .cons ⟨trivial, .updateRecord 0 none (by simp)⟩ ?_
    refine .cons ⟨trivial, .readCounter (show _ = [] ++ _ :: [] from rfl)⟩ ?_
    exact .cons ⟨trivial, .registerAction (show _ = [] ++ _ :: [] from rfl)⟩ .nil
  refine ⟨_, _, _, _, hrun, ⟨rfl, rfl⟩, rfl,
    .cons (processingStep (.returnFront rfl rfl) rfl trivial)
      (.cons (processingStep (.performActions rfl) rfl trivial)
        (.cons (processingStep (.incrementCounter rfl) rfl (show 0 + 1 < 2 ^ 64 by decide))
          (.cons (processingStep (.addNewEpoch rfl) rfl trivial)
            (.cons (processingStep (.removeUnreferenced rfl rfl) rfl trivial)
              (.cons (processingStep (.returnFront rfl rfl) rfl trivial)
                (.single (processingStep (.performActions rfl) rfl trivial))))))), ?_⟩
  rfl

theorem create_one : EpochQueue.create 0 1 = .ok ⟨0, 0, [0], by simp⟩ := rfl

theorem performed_of_two_passes_of_unlinked : ∃ performed t rest, ∃ s : System Nat,
    Run ProcessingStep s rest t ∧ .performActions performed ∈ rest ∧ 7 ∈ performed := by
  obtain ⟨events, s, rest, t, hrun, hquiet, hpending, hrest, hpasses⟩ := run_unlinked
  have hinv := (reachable_invariant create_one hrun).queue
  obtain ⟨performed, hmem, hrecord⟩ := performed_of_two_passes create_one hrun
    (hpending ▸ List.mem_cons_self) (hquiet.unreferencedRun hinv hrest 0)
    (Nat.le_of_eq hpasses.symm)
  exact ⟨performed, t, rest, s, hrest, hmem, hrecord⟩

theorem reclaimed_of_two_passes_of_unlinked : ∃ t : System Nat, t.pending = [] ∧
    ∀ record ∈ t.published, record ∈ t.released ↔ ∀ i, t.slots i ≠ some record := by
  obtain ⟨events, s, rest, t, hrun, hquiet, -, hrest, hpasses⟩ := run_unlinked
  exact ⟨t, reclaimed_of_two_passes create_one (by decide) hrun hquiet hrest
    (Nat.le_of_eq hpasses.symm)⟩

end Unlinked

end System

end EpochManager

end L4

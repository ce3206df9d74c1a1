import L4.EpochReferences
import L4.Library.Transition

namespace L4
set_option autoImplicit true

/-- `EpochRefPolicy`, and `Context`, which is one. The flag is set while the destructor is between
the check and the decrement of `RemoveRef`. -/
structure EpochRefPolicy where
  epochCounter : Nat
  removing : Bool
deriving DecidableEq

namespace EpochRefPolicy

/-- The epoch of a policy that has been moved from. -/
def constMax : Nat := 2 ^ 64 - 1

def create (q : EpochQueue) : EpochRefPolicy × EpochQueue :=
  let (epochCounter, q) := q.addRef
  (⟨epochCounter, false⟩, q)

/-- The move constructor: the new policy, and what is left of the old one. -/
def moveConstruct (p : EpochRefPolicy) : EpochRefPolicy × EpochRefPolicy :=
  (⟨p.epochCounter, false⟩, { p with epochCounter := constMax })

/-- The policy has not been moved from. -/
def Holds (p : EpochRefPolicy) : Prop := p.epochCounter ≠ constMax

instance (p : EpochRefPolicy) : Decidable p.Holds := inferInstanceAs (Decidable (_ ≠ _))

/-- The policies that are alive, and the thread that owns the front of the queue. It advances the
front in two steps. `thrown` is history. -/
structure System where
  queue : EpochQueue
  policies : List EpochRefPolicy
  advancing : Bool
  thrown : List Failure

inductive Event where
  | construct
  | moveConstruct (p : EpochRefPolicy)
  | destroy (p : EpochRefPolicy)
  | decrement (p : EpochRefPolicy)
  | addNewEpoch
  | compareFront
  | advanceFront

namespace System

def initial (queue : EpochQueue) : System := ⟨queue, [], false, []⟩

/-- The steps of the policies and of the owner of the front. -/
inductive Step : System → Event → System → Prop
  | construct : Step s .construct
      { s with queue := (create s.queue).2, policies := (create s.queue).1 :: s.policies }
  | moveConstruct (p : EpochRefPolicy) (hpolicies : s.policies = before ++ p :: after)
      (hp : p.removing = false) :
      Step s (.moveConstruct p)
        { s with policies := p.moveConstruct.1 :: before ++ p.moveConstruct.2 :: after }
  | destroyMoved (p : EpochRefPolicy) (hpolicies : s.policies = before ++ p :: after)
      (hp : ¬ p.Holds) : Step s (.destroy p) { s with policies := before ++ after }
  | destroy (p : EpochRefPolicy) (hpolicies : s.policies = before ++ p :: after)
      (hp : p.removing = false) (hholds : p.Holds)
      (hcheck : s.queue.checkRef p.epochCounter = .ok ()) :
      Step s (.destroy p) { s with policies := before ++ { p with removing := true } :: after }
  | throws (p : EpochRefPolicy) (hpolicies : s.policies = before ++ p :: after)
      (hp : p.removing = false) (hholds : p.Holds)
      (hcheck : s.queue.checkRef p.epochCounter = .error e) :
      Step s (.destroy p) { s with policies := before ++ after, thrown := e :: s.thrown }
  | decrement (p : EpochRefPolicy) (hpolicies : s.policies = before ++ p :: after)
      (hp : p.removing = true) :
      Step s (.decrement p)
        { s with queue := s.queue.decrementRef p.epochCounter, policies := before ++ after }
  | addNewEpoch (hadvancing : s.advancing = false) :
      Step s .addNewEpoch { s with queue := s.queue.addNewEpoch }
  | compareFront (hadvancing : s.advancing = false) (hfront : s.queue.frontUnreferenced) :
      Step s .compareFront { s with advancing := true }
  | advanceFront (hadvancing : s.advancing = true) :
      Step s .advanceFront { s with queue := s.queue.advanceFront, advancing := false }

/-- The epochs of the references that are held. -/
def epochs (policies : List EpochRefPolicy) : List Nat :=
  (policies.filter (·.Holds)).map epochCounter

/-- Fewer than `2 ^ 32` references, and no epoch is that of a policy that has been moved from. -/
def Fits (s : System) : Event → Prop
  | .construct => (epochs s.policies).length + 1 < 2 ^ 32
  | .addNewEpoch => s.queue.backIndex + 1 < constMax
  | _ => True

@[simp] theorem epochs_append (l l' : List EpochRefPolicy) :
    epochs (l ++ l') = epochs l ++ epochs l' := by
  simp [epochs]

theorem epochs_cons_of_holds {p : EpochRefPolicy} (h : p.Holds) (l : List EpochRefPolicy) :
    epochs (p :: l) = p.epochCounter :: epochs l := by
  simp [epochs, h]

theorem epochs_cons_of_moved {p : EpochRefPolicy} (h : ¬ p.Holds) (l : List EpochRefPolicy) :
    epochs (p :: l) = epochs l := by
  simp [epochs, h]

theorem epochs_moveConstruct (p : EpochRefPolicy) (before after : List EpochRefPolicy) :
    (epochs (before ++ p :: after)).Perm
      (epochs (p.moveConstruct.1 :: before ++ p.moveConstruct.2 :: after)) := by
  have hmoved : ¬ p.moveConstruct.2.Holds := fun hholds => hholds rfl
  rw [List.cons_append]
  by_cases hholds : p.Holds
  · have hholds' : p.moveConstruct.1.Holds := hholds
    rw [epochs_cons_of_holds hholds', epochs_append, epochs_append,
      epochs_cons_of_holds hholds, epochs_cons_of_moved hmoved]
    exact List.perm_middle
  · have hholds' : ¬ p.moveConstruct.1.Holds := hholds
    rw [epochs_cons_of_moved hholds', epochs_append, epochs_append,
      epochs_cons_of_moved hholds, epochs_cons_of_moved hmoved]

theorem epochs_removing {p : EpochRefPolicy} (h : p.Holds) (before after : List EpochRefPolicy) :
    epochs (before ++ { p with removing := true } :: after) = epochs (before ++ p :: after) := by
  have h' : ({ p with removing := true } : EpochRefPolicy).Holds := h
  rw [epochs_append, epochs_append, epochs_cons_of_holds h, epochs_cons_of_holds h']

/-- A policy holds its reference until its destructor has given it back. -/
structure Invariant (queueSize : Nat) (s : System) : Prop where
  references : s.queue.References (epochs s.policies)
  queueSize_eq : s.queue.queueSize = queueSize
  back_lt : s.queue.backIndex < constMax
  removing : ∀ p ∈ s.policies, p.removing = true → p.Holds
  advancing : s.advancing = true →
    s.queue.frontIndex < s.queue.backIndex ∧ s.queue.frontIndex ∉ epochs s.policies
  thrown : s.thrown = []

theorem Invariant.check_ok {s : System} (h : s.Invariant n) (hp : p ∈ s.policies)
    (hholds : p.Holds) : s.queue.checkRef p.epochCounter = .ok () :=
  (h.references.removeRef_eq (List.mem_map_of_mem (List.mem_filter.mpr ⟨hp, by simpa⟩))).1

theorem Invariant.removing_without {s : System} (h : s.Invariant n)
    (hpolicies : s.policies = before ++ p :: after) :
    ∀ p' ∈ before ++ after, p'.removing = true → p'.Holds := by
  intro p' hp'
  apply h.removing p'
  rw [hpolicies]
  exact ((List.sublist_cons_self p after).append_left before).subset hp'

theorem Invariant.step {s s' : System} (h : s.Invariant n)
    (hstep : Transition.Guarded Fits Step s event s') : s'.Invariant n := by
  obtain ⟨hfits, hstep⟩ := hstep
  cases hstep with
  | construct =>
    have hholds : (create s.queue).1.Holds := Nat.ne_of_lt h.back_lt
    have hepochs := epochs_cons_of_holds hholds s.policies
    refine ⟨?_, ?_, h.back_lt, ?_, ?_, h.thrown⟩
    · rw [hepochs]
      exact h.references.addRef hfits
    · exact (EpochQueue.modifyRefCount_queueSize _ _ _).trans h.queueSize_eq
    · intro p hp hremoving
      rcases List.mem_cons.mp hp with rfl | hp
      · exact hholds
      · exact h.removing p hp hremoving
    · intro hadvancing
      obtain ⟨hlt, hfront⟩ := h.advancing hadvancing
      refine ⟨hlt, ?_⟩
      rw [hepochs, List.mem_cons, not_or]
      exact ⟨Nat.ne_of_lt hlt, hfront⟩
  | @moveConstruct before after _ p hpolicies hp =>
    have hperm : (epochs s.policies).Perm
        (epochs (p.moveConstruct.1 :: before ++ p.moveConstruct.2 :: after)) :=
      hpolicies ▸ epochs_moveConstruct p before after
    refine ⟨h.references.perm hperm, h.queueSize_eq, h.back_lt, ?_, ?_, h.thrown⟩
    · intro p' hp' hremoving
      simp only [List.cons_append, List.mem_cons, List.mem_append] at hp'
      rcases hp' with rfl | hp' | rfl | hp'
      · cases hremoving
      · exact h.removing p' (by simp [hpolicies, hp']) hremoving
      · exact absurd (hp.symm.trans hremoving) Bool.false_ne_true
      · exact h.removing p' (by simp [hpolicies, hp']) hremoving
    · intro hadvancing
      obtain ⟨hlt, hfront⟩ := h.advancing hadvancing
      exact ⟨hlt, fun hmem => hfront (hperm.mem_iff.mpr hmem)⟩
  | @destroyMoved before after _ p hpolicies hp =>
    have hepochs : epochs (before ++ after) = epochs s.policies := by
      rw [hpolicies, epochs_append, epochs_append, epochs_cons_of_moved hp]
    exact ⟨hepochs ▸ h.references, h.queueSize_eq, h.back_lt,
      h.removing_without hpolicies, hepochs ▸ h.advancing, h.thrown⟩
  | @destroy before after _ p hpolicies hp hholds hcheck =>
    have hepochs : epochs (before ++ { p with removing := true } :: after) =
        epochs s.policies := hpolicies ▸ epochs_removing hholds before after
    refine ⟨hepochs ▸ h.references, h.queueSize_eq, h.back_lt, ?_, hepochs ▸ h.advancing,
      h.thrown⟩
    intro p' hp' hremoving
    simp only [List.mem_append, List.mem_cons] at hp'
    rcases hp' with hp' | rfl | hp'
    · exact h.removing p' (by simp [hpolicies, hp']) hremoving
    · exact hholds
    · exact h.removing p' (by simp [hpolicies, hp']) hremoving
  | throws p hpolicies hp hholds hcheck =>
    rw [h.check_ok (by simp [hpolicies]) hholds] at hcheck
    cases hcheck
  | @decrement before after _ p hpolicies hp =>
    have hholds : p.Holds := h.removing p (by simp [hpolicies]) hp
    have hepochs : epochs s.policies = epochs before ++ p.epochCounter :: epochs after := by
      rw [hpolicies, epochs_append, epochs_cons_of_holds hholds]
    refine ⟨?_, ?_, h.back_lt, h.removing_without hpolicies, ?_, h.thrown⟩
    · rw [epochs_append]
      exact (hepochs ▸ h.references).decrementRef
    · exact (EpochQueue.modifyRefCount_queueSize _ _ _).trans h.queueSize_eq
    · intro hadvancing
      obtain ⟨hlt, hfront⟩ := h.advancing hadvancing
      refine ⟨hlt, fun hmem => hfront ?_⟩
      rw [epochs_append] at hmem
      rw [hepochs]
      exact ((List.sublist_cons_self p.epochCounter (epochs after)).append_left _).subset hmem
  | addNewEpoch hadvancing =>
    have hlt : s.queue.backIndex + 1 < 2 ^ 64 - 1 := hfits
    have hmod : (s.queue.backIndex + 1) % 2 ^ 64 = s.queue.backIndex + 1 :=
      Nat.mod_eq_of_lt (by omega)
    refine ⟨h.references.addNewEpoch (by omega), h.queueSize_eq, ?_, h.removing, ?_, h.thrown⟩
    · simp only [EpochQueue.addNewEpoch, hmod]
      exact hfits
    · intro hadvancing'
      exact absurd (hadvancing.symm.trans hadvancing') Bool.false_ne_true
  | compareFront hadvancing hfront =>
    exact ⟨h.references, h.queueSize_eq, h.back_lt, h.removing,
      fun _ => ⟨hfront.1, h.references.front_not_mem hfront⟩, h.thrown⟩
  | advanceFront hadvancing =>
    obtain ⟨hlt, hfront⟩ := h.advancing hadvancing
    exact ⟨(h.references.advanceFront hlt hfront).1, h.queueSize_eq, h.back_lt, h.removing,
      fun hadvancing' => absurd hadvancing' Bool.false_ne_true, h.thrown⟩

theorem initial_invariant (hq : EpochQueue.create epoch queueSize = .ok q)
    (hfits : epoch < constMax) : (initial q).Invariant queueSize := by
  have hlt : epoch < 2 ^ 64 - 1 := hfits
  have hreferences := EpochQueue.create_references hq (by omega)
  simp only [EpochQueue.create] at hq
  split_ifs at hq
  obtain rfl := Except.ok.inj hq
  exact ⟨hreferences, List.length_replicate, hfits, by simp [initial], by simp [initial], rfl⟩

theorem Invariant.front_le {s s' : System} (h : s.Invariant n) (hstep : Step s event s') :
    s.queue.frontIndex ≤ s'.queue.frontIndex := by
  cases hstep with
  | advanceFront hadvancing =>
    obtain ⟨hlt, hfront⟩ := h.advancing hadvancing
    have hfront' := (h.references.advanceFront hlt hfront).2
    simp only [hfront']
    omega
  | _ => exact Nat.le_refl _

/-- Each counter of the ring counts the policies that hold a reference at an epoch of its place,
these epochs lie between front and back, the front never decreases, and no destructor throws. -/
theorem references_conserved (epoch queueSize : Nat) (q : EpochQueue) (events : List Event)
    (s : System) (hq : EpochQueue.create epoch queueSize = .ok q) (hfits : epoch < constMax)
    (hrun : Transition.Run (Transition.Guarded Fits Step) (initial q) events s) :
    s.queue.refCounts.length = queueSize ∧
    (∀ i < queueSize, s.queue.refCounts[i]? =
      some ((s.policies.filter (·.Holds)).countP (·.epochCounter % queueSize = i))) ∧
    (∀ p ∈ s.policies, p.Holds →
      s.queue.frontIndex ≤ p.epochCounter ∧ p.epochCounter ≤ s.queue.backIndex) ∧
    (∀ event s', Step s event s' → s.queue.frontIndex ≤ s'.queue.frontIndex) ∧
    s.thrown = [] ∧
    ∀ p ∈ s.policies, p.Holds → s.queue.checkRef p.epochCounter = .ok () := by
  have h : s.Invariant queueSize :=
    hrun.invariant (fun _ _ _ => Invariant.step) (initial_invariant hq hfits)
  refine ⟨h.queueSize_eq, fun i hi => ?_, fun p hp hholds => ?_, fun _ _ => h.front_le, h.thrown,
    fun p => h.check_ok⟩
  · have hsize := h.queueSize_eq
    have hcount := h.references.getElem_refCounts i (hsize.symm ▸ hi)
    rw [hcount, hsize, epochs, List.countP_map]
    rfl
  · apply h.references.between
    exact List.mem_map_of_mem (List.mem_filter.mpr ⟨hp, by simpa⟩)

/-- Two policies in a ring of one place: the first is moved and destroyed while the epoch passes
on, and the second shares its counter. -/
theorem references_conserved_of_moved :
    let s : System := ⟨⟨0, 1, [2], by decide⟩,
      [⟨1, false⟩, ⟨0, true⟩, ⟨constMax, false⟩], false, []⟩
    s.queue.refCounts[0]? =
      some ((s.policies.filter (·.Holds)).countP (·.epochCounter % 1 = 0)) := by
  refine (references_conserved 0 1 ⟨0, 0, [0], by decide⟩
    [.construct, .moveConstruct ⟨0, false⟩, .addNewEpoch, .construct, .destroy ⟨0, false⟩] _ rfl
    (by decide) ?_).2.1 0 (by decide)
  apply Transition.Run.cons ⟨show 0 + 1 < 2 ^ 32 by decide, .construct⟩
  apply Transition.Run.cons
    ⟨trivial, .moveConstruct ⟨0, false⟩ (show _ = [] ++ _ :: [] from rfl) rfl⟩
  apply Transition.Run.cons ⟨show 0 + 1 < 2 ^ 64 - 1 by decide, .addNewEpoch rfl⟩
  apply Transition.Run.cons ⟨show 1 + 1 < 2 ^ 32 by decide, .construct⟩
  exact .single ⟨trivial,
    .destroy ⟨0, false⟩ (show _ = [_] ++ _ :: [_] from rfl) rfl (by decide) rfl⟩

end System

end EpochRefPolicy

end L4

import L4.ActionQueues
import L4.EpochReferences

namespace L4
set_option autoImplicit true

inductive ServerPerfCounter where
  | clientConnectionsCount | oldestEpochCounterInQueue | latestEpochCounterInQueue
  | pendingActionsCount | lastPerformedActionsCount
deriving DecidableEq

/-- The values of the counters of the server, taken as integers. -/
abbrev ServerPerfData := ServerPerfCounter → Int

/-! What the counters of the epoch manager say while its threads run. -/

namespace EpochCounters
open ActionQueues (Label Performer)
open Transition (Run Guarded)
variable {Action : Type}

/-- Where the processing thread stands in `Remove(); Add();`. -/
inductive Stage where
  | removing
  | performing (oldestEpochCounter : Nat)
  | subtracting (oldestEpochCounter numActionsPerformed : Nat)
  | settingPerformed (oldestEpochCounter numActionsPerformed : Nat)
  | settingOldest (oldestEpochCounter : Nat)
  | settingLatest
  | incrementing
  | enqueuing

/-- The epoch manager with its counters. `counting` is the number of threads in `RegisterAction`
that have registered their action and not yet counted it. -/
structure System (Action : Type) where
  currentEpochCounter : Nat
  epochQueue : EpochQueue
  references : List Nat
  actions : ActionQueues.System Action
  counting : Nat
  stage : Stage
  perfData : ServerPerfData

inductive Event (Action : Type) where
  | addRef
  | removeRef (epochCounter : Nat)
  | actions (label : Label Action)
  | count
  | removeUnreferenced
  | subtract
  | setPerformed
  | setOldest
  | setLatest
  | incrementCounter
  | addNewEpoch

namespace System

def set (s : System Action) (counter : ServerPerfCounter) (value : Int) : System Action :=
  { s with perfData := Function.update s.perfData counter value }

def add (s : System Action) (counter : ServerPerfCounter) (value : Int) : System Action :=
  s.set counter (s.perfData counter + value)

def initial (epochQueue : EpochQueue) (queues : Nat) (counter : UInt32) : System Action where
  currentEpochCounter := 0
  epochQueue := epochQueue
  references := []
  actions := ActionQueues.initial queues counter
  counting := 0
  stage := .removing
  perfData := fun _ => 0

end System

/-- What the processing thread does between the call of `PerformActions` and its return. -/
def isPerforming : Label Action → Bool
  | .silent | .performed _ => true
  | _ => false

inductive Step : System Action → Event Action → System Action → Prop
  | addRef : Step s .addRef
      { s with
        epochQueue := s.epochQueue.addRef.2
        references := s.epochQueue.addRef.1 :: s.references }
  | removeRef (hreferences : s.references = before ++ epochCounter :: after)
      (hq : s.epochQueue.removeRef epochCounter = .ok q) :
      Step s (.removeRef epochCounter) { s with epochQueue := q, references := before ++ after }
  | registerAction (hstep : ActionQueues.Step s.actions (.registerAction r) actions)
      (hepoch : r.epochCounter ≤ s.currentEpochCounter) :
      Step s (.actions (.registerAction r)) { s with actions }
  | registered (hstep : ActionQueues.Step s.actions (.registered r) actions) :
      Step s (.actions (.registered r)) { s with actions, counting := s.counting + 1 }
  | count (hcounting : s.counting = counting + 1) :
      Step s .count { s.add .pendingActionsCount 1 with counting }
  | removeUnreferenced (hstage : s.stage = .removing)
      (hq : s.epochQueue.removeUnreferencedFront = some q) :
      Step s .removeUnreferenced { s with epochQueue := q }
  | performActions (hstage : s.stage = .removing)
      (hq : s.epochQueue.removeUnreferencedFront = none)
      (hstep : ActionQueues.Step s.actions (.performActions s.epochQueue.frontIndex) actions) :
      Step s (.actions (.performActions s.epochQueue.frontIndex))
        { s with actions, stage := .performing s.epochQueue.frontIndex }
  | perform (hstage : s.stage = .performing oldest)
      (hstep : ActionQueues.Step s.actions label actions) (hlabel : isPerforming label) :
      Step s (.actions label) { s with actions }
  | returned (hstage : s.stage = .performing oldest)
      (hstep : ActionQueues.Step s.actions (.returned n) actions) :
      Step s (.actions (.returned n)) { s with actions, stage := .subtracting oldest n }
  | subtract {oldest n : Nat} (hstage : s.stage = .subtracting oldest n) :
      Step s .subtract
        { s.add .pendingActionsCount (-n) with stage := .settingPerformed oldest n }
  | setPerformed {oldest n : Nat} (hstage : s.stage = .settingPerformed oldest n) :
      Step s .setPerformed
        { s.set .lastPerformedActionsCount n with stage := .settingOldest oldest }
  | setOldest {oldest : Nat} (hstage : s.stage = .settingOldest oldest) :
      Step s .setOldest { s.set .oldestEpochCounterInQueue oldest with stage := .settingLatest }
  | setLatest (hstage : s.stage = .settingLatest) :
      Step s .setLatest
        { s.set .latestEpochCounterInQueue s.currentEpochCounter with stage := .incrementing }
  | incrementCounter (hstage : s.stage = .incrementing) :
      Step s .incrementCounter
        { s with
          currentEpochCounter := (s.currentEpochCounter + 1) % 2 ^ 64
          stage := .enqueuing }
  | addNewEpoch (hstage : s.stage = .enqueuing) :
      Step s .addNewEpoch
        { s with epochQueue := s.epochQueue.addNewEpoch, stage := .removing }

/-- Fewer than `2 ^ 32` live references, and the epoch counters are within the signed range. -/
def Fits (s : System Action) : Event Action → Prop
  | .addRef => s.references.length + 1 < 2 ^ 32
  | .incrementCounter => s.currentEpochCounter + 1 < 2 ^ 63
  | _ => True

section Pending
variable {s t : System Action}

/-- The number of actions that the call of `PerformActions` has moved out of the queues. -/
def collected : Performer Action → Nat
  | .idle => 0
  | .collecting _ _ actionsToPerform | .applying _ actionsToPerform _ => actionsToPerform.length

/-- What a call of `PerformActions` returns. -/
def returned : Label Action → Nat
  | .returned n => n
  | _ => 0

theorem of_isPerforming {label : Label Action} (h : isPerforming label) :
    returned label = 0 ∧ label.registered? = none := by
  cases label with
  | silent | performed => exact ⟨rfl, rfl⟩
  | _ => cases h

/-- A registered action is in a queue or has been moved out of it until the call returns. -/
theorem collected_step {q q' : ActionQueues.System Action} (h : ActionQueues.Step q a q')
    (hindex : ∀ call ∈ q.registering, call.1 < q.manager.epochToActionsList.length) :
    q'.manager.pending.length + collected q'.performer + returned a =
      q.manager.pending.length + collected q.performer + a.registered?.toList.length := by
  cases h with
  | @registered _ index r _ _ hcall =>
    have hlt := hindex (index, r) (hcall ▸ List.mem_append_right _ List.mem_cons_self)
    have hpending := (EpochActionManager.pending_emplaceAction hlt r.epochCounter r).length_eq
    simp only [List.length_cons] at hpending
    simp only [hpending, Label.registered?, returned, Option.toList_some, List.length_singleton]
    omega
  | collect epochCounter hphase hqueue =>
    have hdrained := (EpochActionManager.pending_drained hqueue epochCounter).1.length_eq
    simp only [List.length_append, List.length_map] at hdrained
    simp only [EpochToActions.moveOut_eq, hphase, collected, returned, Label.registered?,
      List.length_append, Option.toList_none, List.length_nil]
    omega
  | registerAction => rfl
  | performActions epochCounter hidle => simp [hidle, collected, returned, Label.registered?]
  | endCollect hphase hend => simp [hphase, collected, returned, Label.registered?]
  | perform hphase hnext => simp [hphase, collected, returned, Label.registered?]
  | returns _ hphase hend => simp [hphase, collected, returned, Label.registered?]

/-- What is to be subtracted from the counter of the pending actions. -/
def Stage.unsubtracted : Stage → Nat
  | .subtracting _ n => n
  | _ => 0

/-- The counter of the pending actions, up to those that are on their way into it or out of it. -/
structure Balanced (queues : Nat) (s : System Action) : Prop where
  actions : ∃ past, ActionQueues.Invariant queues past s.actions
  performer : (∀ oldest, s.stage ≠ .performing oldest) → s.actions.performer = .idle
  balance : s.perfData .pendingActionsCount + s.counting =
    s.actions.manager.pending.length + collected s.actions.performer + s.stage.unsubtracted

theorem Balanced.moved (h : Balanced queues s) (hpos : 0 < queues) (hsize : queues ≤ 2 ^ 64)
    (hstep : ActionQueues.Step s.actions a q) : (∃ past, ActionQueues.Invariant queues past q) ∧
      q.manager.pending.length + collected q.performer + returned a =
        s.actions.manager.pending.length + collected s.actions.performer +
          a.registered?.toList.length := by
  obtain ⟨past, hinv⟩ := h.actions
  exact ⟨⟨_, hinv.step hpos hsize hstep⟩, collected_step hstep (hinv.length ▸ hinv.index_lt)⟩

theorem Balanced.step (h : Balanced queues s) (hpos : 0 < queues) (hsize : queues ≤ 2 ^ 64)
    (hstep : Step s event t) : Balanced queues t := by
  have hbalance := h.balance
  cases hstep with
  | addRef => exact ⟨h.actions, h.performer, hbalance⟩
  | removeRef => exact ⟨h.actions, h.performer, hbalance⟩
  | registerAction hstep hepoch =>
    obtain ⟨hactions, hmoved⟩ := h.moved hpos hsize hstep
    refine ⟨hactions, fun hstage => ?_, ?_⟩
    · have hidle := h.performer hstage
      cases hstep
      exact hidle
    · simp only [returned, Label.registered?, Option.toList_none, List.length_nil] at hmoved
      dsimp only
      omega
  | registered hstep =>
    obtain ⟨hactions, hmoved⟩ := h.moved hpos hsize hstep
    refine ⟨hactions, fun hstage => ?_, ?_⟩
    · have hidle := h.performer hstage
      cases hstep
      exact hidle
    · simp only [returned, Label.registered?, Option.toList_some, List.length_singleton] at hmoved
      dsimp only
      omega
  | count hcounting =>
    refine ⟨h.actions, h.performer, ?_⟩
    simp only [System.add, System.set, Function.update_self]
    omega
  | removeUnreferenced hstage hq => exact ⟨h.actions, h.performer, hbalance⟩
  | performActions hstage hq hstep =>
    obtain ⟨hactions, hmoved⟩ := h.moved hpos hsize hstep
    refine ⟨hactions, fun hne => absurd rfl (hne _), ?_⟩
    simp only [returned, Label.registered?, Option.toList_none, List.length_nil] at hmoved
    simp only [hstage, Stage.unsubtracted] at hbalance ⊢
    omega
  | perform hstage hstep hlabel =>
    obtain ⟨hactions, hmoved⟩ := h.moved hpos hsize hstep
    refine ⟨hactions, fun hne => absurd hstage (hne _), ?_⟩
    obtain ⟨hreturned, hregistered⟩ := of_isPerforming hlabel
    simp only [hreturned, hregistered, Option.toList_none, List.length_nil] at hmoved
    dsimp only
    omega
  | @returned _ q _ _ hstage hstep =>
    obtain ⟨hactions, hmoved⟩ := h.moved hpos hsize hstep
    refine ⟨hactions, fun _ => ?_, ?_⟩
    · cases hstep
      rfl
    · simp only [returned, Label.registered?, Option.toList_none, List.length_nil] at hmoved
      have hidle : collected q.performer = 0 := by
        cases hstep
        rfl
      simp only [hstage, Stage.unsubtracted] at hbalance ⊢
      omega
  | subtract hstage =>
    refine ⟨h.actions, fun _ => h.performer (by simp [hstage]), ?_⟩
    simp only [hstage, Stage.unsubtracted] at hbalance
    simp only [System.add, System.set, Function.update_self, Stage.unsubtracted]
    omega
  | setPerformed hstage =>
    refine ⟨h.actions, fun _ => h.performer (by simp [hstage]), ?_⟩
    rw [hstage] at hbalance
    exact hbalance
  | setOldest hstage =>
    refine ⟨h.actions, fun _ => h.performer (by simp [hstage]), ?_⟩
    rw [hstage] at hbalance
    exact hbalance
  | setLatest hstage =>
    refine ⟨h.actions, fun _ => h.performer (by simp [hstage]), ?_⟩
    rw [hstage] at hbalance
    exact hbalance
  | incrementCounter hstage =>
    refine ⟨h.actions, fun _ => h.performer (by simp [hstage]), ?_⟩
    rw [hstage] at hbalance
    exact hbalance
  | addNewEpoch hstage =>
    refine ⟨h.actions, fun _ => h.performer (by simp [hstage]), ?_⟩
    rw [hstage] at hbalance
    exact hbalance

theorem initial_balanced (epochQueue : EpochQueue) (queues : Nat) (counter : UInt32) :
    Balanced queues (.initial epochQueue queues counter : System Action) where
  actions := ⟨[], .initial queues counter⟩
  performer _ := rfl
  balance := by
    have hpending := @ActionQueues.pending_initial Action queues counter
    simp [System.initial, hpending, Stage.unsubtracted]
    rfl

end Pending

section Gauges
variable {s t : System Action}

/-- The front of the queue that the processing thread has got and not yet shown. -/
def Stage.oldest? : Stage → Option Nat
  | .performing oldest | .subtracting oldest _ | .settingPerformed oldest _
  | .settingOldest oldest => some oldest
  | _ => none

/-- How far the current epoch counter is ahead of the back of the queue. -/
def Stage.lag : Stage → Nat
  | .enqueuing => 1
  | _ => 0

/-- What the counters of the oldest and of the latest epoch say. -/
structure Gauged (s : System Action) : Prop where
  references : s.epochQueue.References s.references
  current_eq : s.currentEpochCounter = s.epochQueue.backIndex + s.stage.lag
  current_fits : s.currentEpochCounter < 2 ^ 63
  front_eq : ∀ oldest ∈ s.stage.oldest?, oldest = s.epochQueue.frontIndex
  oldest_le : s.perfData .oldestEpochCounterInQueue ≤ s.epochQueue.frontIndex
  latest_le : s.perfData .latestEpochCounterInQueue ≤ s.currentEpochCounter
  le_latest : (s.currentEpochCounter : Int) ≤ s.perfData .latestEpochCounterInQueue + 1
  latest_eq : s.stage = .incrementing →
    s.perfData .latestEpochCounterInQueue = s.currentEpochCounter

theorem Gauged.step (h : Gauged s) (hstep : Guarded Fits Step s event t) : Gauged t := by
  obtain ⟨hfits, hstep⟩ := hstep
  obtain ⟨href, hcur, hcfits, hfront, hold, hlatest, hle, hlatestEq⟩ := h
  cases hstep with
  | addRef => exact ⟨href.addRef hfits, hcur, hcfits, hfront, hold, hlatest, hle, hlatestEq⟩
  | removeRef hreferences hq =>
    have href' := EpochQueue.References.removeRef (hreferences ▸ href) hq
    simp only [EpochQueue.removeRef] at hq
    split_ifs at hq
    obtain rfl := Except.ok.inj hq
    exact ⟨href', hcur, hcfits, hfront, hold, hlatest, hle, hlatestEq⟩
  | registerAction | registered | count | perform =>
    exact ⟨href, hcur, hcfits, hfront, hold, hlatest, hle, hlatestEq⟩
  | removeUnreferenced hstage hq =>
    have href' := href.removeUnreferencedFront hq
    have hback := href.back_fits
    simp only [EpochQueue.removeUnreferencedFront] at hq
    split_ifs at hq with hcond
    obtain rfl := Option.some.inj hq
    refine ⟨href', hcur, hcfits, fun oldest ho => ?_, ?_, hlatest, hle, hlatestEq⟩
    · rw [hstage] at ho
      cases ho
    · have hmod : (s.epochQueue.frontIndex + 1) % 2 ^ 64 = s.epochQueue.frontIndex + 1 :=
        Nat.mod_eq_of_lt (by omega)
      dsimp only
      omega
  | performActions hstage hq hstep =>
    rw [hstage] at hcur
    exact ⟨href, hcur, hcfits, fun oldest ho => (Option.some.inj ho).symm, hold, hlatest, hle,
      fun he => absurd he (by simp)⟩
  | returned hstage =>
    rw [hstage] at hcur hfront
    exact ⟨href, hcur, hcfits, hfront, hold, hlatest, hle, fun he => absurd he (by simp)⟩
  | subtract hstage =>
    rw [hstage] at hcur hfront
    exact ⟨href, hcur, hcfits, hfront, hold, hlatest, hle, fun he => absurd he (by simp)⟩
  | setPerformed hstage =>
    rw [hstage] at hcur hfront
    exact ⟨href, hcur, hcfits, hfront, hold, hlatest, hle, fun he => absurd he (by simp)⟩
  | @setOldest _ oldest hstage =>
    rw [hstage] at hcur hfront
    refine ⟨href, hcur, hcfits, fun _ ho => (by cases ho), ?_, hlatest, hle,
      fun he => absurd he (by simp)⟩
    exact Int.ofNat_le.mpr (hfront oldest rfl).le
  | setLatest hstage =>
    rw [hstage] at hcur
    exact ⟨href, hcur, hcfits, fun _ ho => (by cases ho), hold, Int.le_refl _,
      Int.le_add_one (Int.le_refl _), fun _ => rfl⟩
  | incrementCounter hstage =>
    rw [hstage] at hcur
    have hlt : s.currentEpochCounter + 1 < 2 ^ 63 := hfits
    have hmod : (s.currentEpochCounter + 1) % 2 ^ 64 = s.currentEpochCounter + 1 :=
      Nat.mod_eq_of_lt (by omega)
    have heq := hlatestEq hstage
    simp only [Stage.lag] at hcur
    refine ⟨href, ?_, ?_, fun _ ho => (by cases ho), hold, ?_, ?_, fun he => absurd he (by simp)⟩
    all_goals
      simp only [hmod, Stage.lag]
      omega
  | addNewEpoch hstage =>
    rw [hstage] at hcur
    simp only [Stage.lag] at hcur
    have hmod : (s.epochQueue.backIndex + 1) % 2 ^ 64 = s.epochQueue.backIndex + 1 :=
      Nat.mod_eq_of_lt (by omega)
    refine ⟨href.addNewEpoch (by omega), ?_, hcfits, fun _ ho => (by cases ho), hold, hlatest, hle,
      fun he => absurd he (by simp)⟩
    simp only [EpochQueue.addNewEpoch, hmod, Stage.lag]
    omega

theorem initial_gauged (hq : EpochQueue.create 0 queueSize = .ok q) (queues : Nat)
    (counter : UInt32) : Gauged (.initial q queues counter : System Action) := by
  have hempty : q.frontIndex = 0 ∧ q.backIndex = 0 := by
    simp only [EpochQueue.create] at hq
    split_ifs at hq
    obtain rfl := Except.ok.inj hq
    exact ⟨rfl, rfl⟩
  refine ⟨EpochQueue.create_references hq (by omega), ?_, by simp [System.initial],
    fun _ ho => (by cases ho), ?_, Int.le_refl _, by simp [System.initial],
    fun he => absurd he (by simp [System.initial])⟩
  · exact hempty.2.symm
  · simp [System.initial]

theorem Gauged.grows (h : Gauged s) (hstep : Step s event t) :
    s.perfData .oldestEpochCounterInQueue ≤ t.perfData .oldestEpochCounterInQueue ∧
      s.perfData .latestEpochCounterInQueue ≤ t.perfData .latestEpochCounterInQueue := by
  cases hstep with
  | @setOldest _ oldest hstage =>
    have hfront := h.front_eq oldest (by rw [hstage]; rfl)
    exact ⟨hfront ▸ h.oldest_le, Int.le_refl _⟩
  | setLatest hstage => exact ⟨Int.le_refl _, h.latest_le⟩
  | _ => exact ⟨Int.le_refl _, Int.le_refl _⟩

end Gauges

section Results
variable {queues : Nat} {q : EpochQueue}

/-- In every interleaving the counter of the pending actions is their number, up to the threads
that have not counted their action yet and the actions of the round that is being performed. -/
theorem pendingActionsCount_eq (hpos : 0 < queues) (hsize : queues ≤ 2 ^ 64)
    (counter : UInt32)
    (hrun : Run Step (.initial q queues counter : System Action) events s) :
    s.perfData .pendingActionsCount = s.actions.manager.pending.length +
        collected s.actions.performer + s.stage.unsubtracted - s.counting ∧
      (s.counting = 0 → s.stage = .removing →
        s.perfData .pendingActionsCount = s.actions.manager.pending.length) := by
  have h : Balanced queues s := hrun.invariant
    (fun _ _ _ h hstep => h.step hpos hsize hstep) (initial_balanced q queues counter)
  have hbalance := h.balance
  refine ⟨by omega, fun hcounting hstage => ?_⟩
  have hidle := h.performer (by simp [hstage])
  rw [hidle, hstage, hcounting] at hbalance
  simpa [collected, Stage.unsubtracted] using hbalance

/-- An action that has been registered and counted. -/
theorem pendingActionsCount_eq_of_count :
    ∃ s, Run Step (.initial ⟨0, 0, [0], by simp⟩ 1 0 : System Nat)
        [.actions (.registerAction ⟨0, 0, 7⟩), .actions (.registered ⟨0, 0, 7⟩), .count] s ∧
      s.actions.manager.pending = [(0, ⟨0, 0, 7⟩)] ∧ s.perfData .pendingActionsCount = 1 := by
  obtain ⟨s, hrun, hpending, hcounting, hstage⟩ : ∃ s,
      Run Step (.initial ⟨0, 0, [0], by simp⟩ 1 0 : System Nat)
        [.actions (.registerAction ⟨0, 0, 7⟩), .actions (.registered ⟨0, 0, 7⟩), .count] s ∧
      s.actions.manager.pending = [(0, ⟨0, 0, 7⟩)] ∧ s.counting = 0 ∧ s.stage = .removing :=
    ⟨_, .cons (.registerAction (.registerAction 0 7) (Nat.le_refl 0)) <|
      .cons (.registered (.registered (show _ = [] ++ _ :: [] from rfl))) <| .single (.count rfl),
      rfl, rfl, rfl⟩
  have hcount := (pendingActionsCount_eq (by decide) (by decide) 0 hrun).2 hcounting hstage
  rw [hpending] at hcount
  exact ⟨s, hrun, hpending, hcount⟩

/-- In every interleaving the references lie between the two epochs that the counters show, or one
ahead of the latest, and the counters only grow. -/
theorem references_between (hq : EpochQueue.create 0 queueSize = .ok q) (counter : UInt32)
    (hrun : Run (Guarded Fits Step) (.initial q queues counter : System Action) events s)
    (hlater : Run (Guarded Fits Step) s events' t) :
    (∀ epochCounter ∈ s.references,
      s.perfData .oldestEpochCounterInQueue ≤ epochCounter ∧
        (epochCounter : Int) ≤ s.perfData .latestEpochCounterInQueue + 1) ∧
      s.perfData .latestEpochCounterInQueue ≤ s.currentEpochCounter ∧
      (s.currentEpochCounter : Int) ≤ s.perfData .latestEpochCounterInQueue + 1 ∧
      s.perfData .oldestEpochCounterInQueue ≤ t.perfData .oldestEpochCounterInQueue ∧
      s.perfData .latestEpochCounterInQueue ≤ t.perfData .latestEpochCounterInQueue := by
  have h : Gauged s := hrun.invariant (fun _ _ _ => Gauged.step) (initial_gauged hq queues counter)
  refine ⟨fun epochCounter hmem => ?_, h.latest_le, h.le_latest, ?_⟩
  · have hbetween := h.references.between epochCounter hmem
    have hold := h.oldest_le
    have hle := h.le_latest
    have hcur := h.current_eq
    omega
  · have hgrows := hlater.invariant (I := fun t => Gauged t ∧
      s.perfData .oldestEpochCounterInQueue ≤ t.perfData .oldestEpochCounterInQueue ∧
      s.perfData .latestEpochCounterInQueue ≤ t.perfData .latestEpochCounterInQueue)
      (fun _ _ _ hI hstep => ⟨hI.1.step hstep, Int.le_trans hI.2.1 (hI.1.grows hstep.2).1,
        Int.le_trans hI.2.2 (hI.1.grows hstep.2).2⟩) ⟨h, Int.le_refl _, Int.le_refl _⟩
    exact hgrows.2

/-- A reference to the first epoch that is held through a round of the processing thread. -/
theorem references_between_of_addRef :
    ∃ s t, Run (Guarded Fits Step) (.initial ⟨0, 0, [0], by simp⟩ 1 0 : System Nat) [.addRef] s ∧
      Run (Guarded Fits Step) s
        [.actions (.performActions 0), .actions .silent, .actions .silent, .actions (.returned 0)]
        t ∧
      s.references = [0] ∧ s.perfData .oldestEpochCounterInQueue ≤ 0 ∧
      (0 : Int) ≤ s.perfData .latestEpochCounterInQueue + 1 ∧
      s.perfData .oldestEpochCounterInQueue ≤ t.perfData .oldestEpochCounterInQueue := by
  obtain ⟨s, hrun, t, hlater, hreferences⟩ : ∃ s,
      Run (Guarded Fits Step) (.initial ⟨0, 0, [0], by simp⟩ 1 0 : System Nat) [.addRef] s ∧
      ∃ t, Run (Guarded Fits Step) s
        [.actions (.performActions 0), .actions .silent, .actions .silent, .actions (.returned 0)]
        t ∧ s.references = [0] :=
    ⟨_, .single ⟨by simp [Fits, System.initial], .addRef⟩, _,
      .cons ⟨trivial, .performActions rfl rfl (.performActions 0 rfl)⟩ <|
      .cons ⟨trivial, .perform rfl (.collect 0 rfl rfl) rfl⟩ <|
      .cons ⟨trivial, .perform rfl (.endCollect rfl rfl) rfl⟩ <|
      .single ⟨trivial, .returned rfl (.returns [] rfl rfl)⟩, rfl⟩
  have hq : EpochQueue.create 0 1 = .ok ⟨0, 0, [0], by simp⟩ := rfl
  obtain ⟨hbetween, -, -, hgrows, -⟩ := references_between hq 0 hrun hlater
  obtain ⟨hold, hlatest⟩ := hbetween 0 (by simp [hreferences])
  exact ⟨s, t, hrun, hlater, hreferences, hold, hlatest, hgrows⟩

end Results

end EpochCounters

end L4

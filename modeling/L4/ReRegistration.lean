import Mathlib.Algebra.Order.BigOperators.Group.List
import Mathlib.Algebra.Order.Ring.Nat
import L4.ConnectionMonitor

namespace L4.ConnectionMonitor
set_option autoImplicit true
open Transition
variable {m m' : ConnectionMonitor} {endPoint : EndPointInfo}

/-- The map has a registration of the end point. -/
def Registered (endPoint : EndPointInfo) (m : ConnectionMonitor) : Prop :=
  ∃ monitor ∈ m.remoteMonitors, monitor.endPoint.uuid = endPoint.uuid

def Queued (endPoint : EndPointInfo) (m : ConnectionMonitor) : Prop :=
  ∃ endPoint' ∈ m.unregisteredEndPoints, endPoint'.uuid = endPoint.uuid

def Swapped (endPoint : EndPointInfo) (m : ConnectionMonitor) : Prop :=
  ∃ t, ∃ endPoint' ∈ (m.threads t).endPoints, endPoint'.uuid = endPoint.uuid

def Called (endPoint : EndPointInfo) (m : ConnectionMonitor) : Prop :=
  ∃ t endPoint', m.threads t = .unRegistering endPoint' ∧ endPoint'.uuid = endPoint.uuid

theorem noRemoval_iff :
    NoRemoval endPoint m ↔
      ¬ Queued endPoint m ∧ ¬ Swapped endPoint m ∧ ¬ Called endPoint m := by
  constructor
  · rintro ⟨hqueued, hswapped, hcalled⟩
    refine ⟨?_, ?_, ?_⟩
    · rintro ⟨endPoint', hmem, heq⟩
      exact hqueued endPoint' hmem heq
    · rintro ⟨t, endPoint', hmem, heq⟩
      exact hswapped t endPoint' hmem heq
    · rintro ⟨t, endPoint', hthread, heq⟩
      exact hcalled t endPoint' hthread heq
  · rintro ⟨hqueued, hswapped, hcalled⟩
    exact ⟨fun endPoint' hmem heq => hqueued ⟨endPoint', hmem, heq⟩,
      fun t endPoint' hmem heq => hswapped ⟨t, endPoint', hmem, heq⟩,
      fun t endPoint' hthread heq => hcalled ⟨t, endPoint', hthread, heq⟩⟩

theorem threads_setThread_self (m : ConnectionMonitor) (t : Nat) (thread : Thread) :
    (m.setThread t thread).threads t = thread := by
  simp [setThread]

theorem threads_setThread_of_ne (h : t' ≠ t) (m : ConnectionMonitor) (thread : Thread) :
    (m.setThread t thread).threads t' = m.threads t' := by
  simp [setThread, h]

theorem Swapped.setThread (h : Swapped endPoint m) (hnone : (m.threads t).endPoints = [])
    (thread : Thread) : Swapped endPoint (m.setThread t thread) := by
  obtain ⟨t', endPoint', hmem, heq⟩ := h
  have hne : t' ≠ t := by
    rintro rfl
    rw [hnone] at hmem
    cases hmem
  exact ⟨t', endPoint', by rwa [threads_setThread_of_ne hne], heq⟩

/-- What a step of a callback does: one wait goes on, and at the end the end point is queued. -/
structure CallbackEffect (m : ConnectionMonitor) (act : Act) (m' : ConnectionMonitor) : Prop where
  threads : m'.threads = m.threads
  change : ∃ monitor ∈ m.remoteMonitors, ∃ kind waiter f, monitor.waiters kind = waiter ∧
    (∀ monitor : HandleMonitor, (f monitor).id = monitor.id ∧
      (f monitor).endPoint = monitor.endPoint) ∧
    m'.remoteMonitors = (m.onWaiter monitor.id kind waiter f).remoteMonitors ∧
    (waiter = .armed → act = .start monitor.id kind) ∧
    (m'.unregisteredEndPoints = m.unregisteredEndPoints ∨
      waiter ≠ .armed ∧
        m'.unregisteredEndPoints = m.unregisteredEndPoints ++ [monitor.endPoint])

theorem callbackEffect_onWaiter (h : monitor ∈ m.remoteMonitors)
    (hwaiter : monitor.waiters kind = waiter) {f : HandleMonitor → HandleMonitor}
    (hkeeps : ∀ monitor, (f monitor).id = monitor.id ∧ (f monitor).endPoint = monitor.endPoint)
    (hstart : waiter = .armed → act = .start monitor.id kind) :
    CallbackEffect m act (m.onWaiter monitor.id kind waiter f) :=
  ⟨rfl, monitor, h, kind, waiter, f, hwaiter, hkeeps, rfl, hstart, .inl rfl⟩

theorem callbackEffect_start (h : monitor ∈ m.remoteMonitors)
    (hwaiter : monitor.waiters kind = .armed) :
    CallbackEffect m (.start monitor.id kind)
      (m.onWaiter monitor.id kind .armed (HandleMonitor.setWaiter kind .started)) :=
  callbackEffect_onWaiter h hwaiter (fun _ => ⟨rfl, rfl⟩) (fun _ => rfl)

theorem callbackEffect_exchange (h : monitor ∈ m.remoteMonitors)
    (hwaiter : monitor.waiters kind = .started) :
    CallbackEffect m (.exchange monitor.id kind)
      (m.onWaiter monitor.id kind .started (HandleMonitor.exchange kind)) :=
  callbackEffect_onWaiter h hwaiter (fun _ => ⟨rfl, rfl⟩) (by simp)

theorem callbackEffect_callback (h : monitor ∈ m.remoteMonitors)
    (hwaiter : monitor.waiters kind = .calling) :
    CallbackEffect m (.callback monitor.id kind)
      (m.onWaiter monitor.id kind .calling (HandleMonitor.setWaiter kind .unRegistering)) :=
  callbackEffect_onWaiter h hwaiter (fun _ => ⟨rfl, rfl⟩) (by simp)

theorem callbackEffect_callbackUnRegister (h : monitor ∈ m.remoteMonitors)
    (hwaiter : monitor.waiters kind = .unRegistering) :
    CallbackEffect m (.callbackUnRegister monitor.id kind)
      ((m.onWaiter monitor.id kind .unRegistering
        (HandleMonitor.setWaiter kind .finished)).unRegister monitor.endPoint) :=
  ⟨rfl, monitor, h, kind, _, HandleMonitor.setWaiter kind .finished, hwaiter,
    fun _ => ⟨rfl, rfl⟩, rfl, (by simp), .inr ⟨by simp, rfl⟩⟩

theorem CallbackEffect.mem (h : CallbackEffect m act m') (hmem : monitor' ∈ m'.remoteMonitors) :
    ∃ monitor ∈ m.remoteMonitors, monitor'.id = monitor.id ∧
      monitor'.endPoint = monitor.endPoint := by
  obtain ⟨-, monitor, -, kind, waiter, f, -, hkeeps, hmonitors, -⟩ := h
  rw [hmonitors] at hmem
  obtain ⟨monitor₁, hmem₁, rfl⟩ := List.mem_map.mp hmem
  refine ⟨monitor₁, hmem₁, ?_⟩
  split_ifs
  · exact hkeeps monitor₁
  · exact ⟨rfl, rfl⟩

theorem CallbackEffect.queued (h : CallbackEffect m act m') (hqueued : Queued endPoint m) :
    Queued endPoint m' := by
  obtain ⟨endPoint', hmem, heq⟩ := hqueued
  obtain ⟨-, monitor, -, kind, waiter, f, -, -, -, -, hqueue⟩ := h
  rcases hqueue with hqueue | ⟨-, hqueue⟩
  · exact ⟨endPoint', hqueue ▸ hmem, heq⟩
  · exact ⟨endPoint', hqueue ▸ List.mem_append_left _ hmem, heq⟩

/-- The end point is not registered, or on its way out. -/
def Leaving (endPoint : EndPointInfo) (m : ConnectionMonitor) : Prop :=
  Registered endPoint m → Queued endPoint m ∨ Swapped endPoint m

theorem Leaving.callback (h : Leaving endPoint m) (heffect : CallbackEffect m act m') :
    Leaving endPoint m' := by
  rintro ⟨monitor', hmem', heq⟩
  obtain ⟨monitor, hmem, -, hend⟩ := heffect.mem hmem'
  rcases h ⟨monitor, hmem, hend ▸ heq⟩ with hqueued | ⟨t, endPoint', hend', heq'⟩
  · exact .inl (heffect.queued hqueued)
  · exact .inr ⟨t, endPoint', heffect.threads ▸ hend', heq'⟩

theorem Leaving.setThread (h : Leaving endPoint m) (hnone : (m.threads t).endPoints = [])
    (thread : Thread) : Leaving endPoint (m.setThread t thread) := by
  intro hregistered
  exact (h hregistered).imp id fun hswapped => hswapped.setThread hnone thread

theorem Leaving.unRegister (h : Leaving endPoint m) (endPoint' : EndPointInfo) :
    Leaving endPoint (m.unRegister endPoint') := by
  intro hregistered
  refine (h hregistered).imp ?_ id
  rintro ⟨endPoint₁, hmem, heq⟩
  exact ⟨endPoint₁, List.mem_append_left _ hmem, heq⟩

theorem not_registered_erase {endPoints : List EndPointInfo}
    (h : ∃ endPoint' ∈ endPoints, endPoint'.uuid = endPoint.uuid) :
    ¬ Registered endPoint (m.erase endPoints) := by
  rintro ⟨monitor, hmem, heq⟩
  obtain ⟨endPoint', hmem', heq'⟩ := h
  have hall := List.all_eq_true.mp (List.mem_filter.mp hmem).2 endPoint' hmem'
  exact of_decide_eq_true hall (heq'.trans heq.symm)

theorem Leaving.step (h : Leaving endPoint m) (hact : ¬ act.Registers endPoint)
    (hstep : Step m act m') : Leaving endPoint m' := by
  cases hstep with
  | callUnRegister hthread => exact h.setThread (congrArg Thread.endPoints hthread) _
  | unRegister hthread =>
    exact (h.unRegister _).setThread (congrArg Thread.endPoints hthread) _
  | call hthread => exact h.setThread (congrArg Thread.endPoints hthread) _
  | @swap _ t c hthread =>
    intro hregistered
    refine .inr ?_
    rcases h hregistered with ⟨endPoint', hmem, heq⟩ | hswapped
    · refine ⟨t, endPoint', ?_, heq⟩
      rw [threads_setThread_self]
      exact hmem
    · exact Swapped.setThread (m := m.clear) hswapped (congrArg Thread.endPoints hthread) _
  | @erase endPoints _ t c hthread =>
    rintro ⟨monitor, hmem, heq⟩
    rcases h ⟨monitor, (List.mem_filter.mp hmem).1, heq⟩ with hqueued | ⟨t', endPoint', hend, hsame⟩
    · exact .inl hqueued
    · refine .inr ⟨t', endPoint', ?_, hsame⟩
      have hne : t' ≠ t := by
        rintro rfl
        rw [hthread] at hend
        exact not_registered_erase ⟨endPoint', hend, hsame⟩ ⟨monitor, hmem, heq⟩
      rwa [threads_setThread_of_ne hne]
  | count hthread => exact h.setThread (congrArg Thread.endPoints hthread) _
  | @emplace _ t endPoint' hthread hnew =>
    refine Leaving.setThread (m := m.emplace endPoint') ?_ (congrArg Thread.endPoints hthread) _
    rintro ⟨monitor, hmem, heq⟩
    rcases List.mem_append.mp hmem with hmem | hmem
    · exact h ⟨monitor, hmem, heq⟩
    · obtain rfl := List.mem_singleton.mp hmem
      exact absurd heq hact
  | @throwDuplicate _ t endPoint' isCalled hthread
  | @throwInvalidHandle _ t endPoint' isCalled hthread =>
    cases isCalled with
    | false => exact h.setThread (congrArg Thread.endPoints hthread) _
    | true => exact (h.unRegister endPoint').setThread (congrArg Thread.endPoints hthread) _
  | start hmem hwaiter => exact h.callback (callbackEffect_start hmem hwaiter)
  | exchange hmem hwaiter => exact h.callback (callbackEffect_exchange hmem hwaiter)
  | callback hmem hwaiter => exact h.callback (callbackEffect_callback hmem hwaiter)
  | callbackUnRegister hmem hwaiter =>
    exact h.callback (callbackEffect_callbackUnRegister hmem hwaiter)

section Kept
variable {id : Nat}

theorem NoRemoval.setThread (h : NoRemoval endPoint m)
    (hswapped : ∀ endPoint' ∈ thread.endPoints, endPoint'.uuid ≠ endPoint.uuid)
    (hcalled : ∀ endPoint', thread = .unRegistering endPoint' → endPoint'.uuid ≠ endPoint.uuid)
    (t : Nat) : NoRemoval endPoint (m.setThread t thread) where
  queued := h.queued
  swapped t' := by
    by_cases ht : t' = t
    · rw [ht, threads_setThread_self]
      exact hswapped
    · rw [threads_setThread_of_ne ht]
      exact h.swapped t'
  called t' := by
    by_cases ht : t' = t
    · rw [ht, threads_setThread_self]
      exact hcalled
    · rw [threads_setThread_of_ne ht]
      exact h.called t'

theorem NoRemoval.unRegister (h : NoRemoval endPoint m)
    (hne : endPoint'.uuid ≠ endPoint.uuid) : NoRemoval endPoint (m.unRegister endPoint') where
  queued endPoint₁ hmem := by
    rcases List.mem_append.mp hmem with hmem | hmem
    · exact h.queued endPoint₁ hmem
    · rwa [List.mem_singleton.mp hmem]
  swapped := h.swapped
  called := h.called

/-- The registration of an end point, none of whose waits has started, and which nothing is about
to remove. -/
structure Kept (endPoint : EndPointInfo) (id : Nat) (m : ConnectionMonitor) : Prop where
  noRemoval : NoRemoval endPoint m
  registered : ∃ monitor ∈ m.remoteMonitors, monitor.id = id ∧ monitor.endPoint = endPoint
  armed : ∀ monitor ∈ m.remoteMonitors, monitor.endPoint.uuid = endPoint.uuid →
    monitor.id = id ∧ ∀ kind, monitor.waiters kind = .armed

theorem Kept.setThread (h : Kept endPoint id m)
    (hswapped : ∀ endPoint' ∈ thread.endPoints, endPoint'.uuid ≠ endPoint.uuid)
    (hcalled : ∀ endPoint', thread = .unRegistering endPoint' → endPoint'.uuid ≠ endPoint.uuid)
    (t : Nat) : Kept endPoint id (m.setThread t thread) :=
  ⟨h.noRemoval.setThread hswapped hcalled t, h.registered, h.armed⟩

theorem Kept.setThread_of_none (h : Kept endPoint id m) (hnone : thread.endPoints = [])
    (hcalled : ∀ endPoint', thread ≠ .unRegistering endPoint') (t : Nat) :
    Kept endPoint id (m.setThread t thread) := by
  refine h.setThread ?_ (fun endPoint' heq => absurd heq (hcalled endPoint')) t
  rw [hnone]
  exact fun _ hmem => by cases hmem

theorem Kept.unRegister (h : Kept endPoint id m) (hne : endPoint'.uuid ≠ endPoint.uuid) :
    Kept endPoint id (m.unRegister endPoint') :=
  ⟨h.noRemoval.unRegister hne, h.registered, h.armed⟩

theorem Kept.callback (h : Kept endPoint id m) (hact : ¬ act.Removes endPoint id)
    (heffect : CallbackEffect m act m') : Kept endPoint id m' := by
  obtain ⟨hthreads, monitor, hmem, kind, waiter, f, hwaiter, hkeeps, hmonitors, hstart, hqueue⟩ :=
    heffect
  -- The waits of the registration are armed, and a step that starts one would remove it.
  have hother : ∀ monitor₁ ∈ m.remoteMonitors, monitor₁.endPoint.uuid = endPoint.uuid →
      ¬ (monitor₁.id = monitor.id ∧ monitor₁.waiters kind = waiter) := by
    rintro monitor₁ hmem₁ heq ⟨hid, hsame⟩
    obtain ⟨hid₁, harmed⟩ := h.armed monitor₁ hmem₁ heq
    rw [hstart (hsame.symm.trans (harmed kind))] at hact
    exact hact (hid.symm.trans hid₁)
  have hnoRemoval : NoRemoval endPoint m' := by
    refine ⟨?_, hthreads ▸ h.noRemoval.swapped, hthreads ▸ h.noRemoval.called⟩
    rcases hqueue with hqueue | ⟨hne, hqueue⟩
    · rw [hqueue]
      exact h.noRemoval.queued
    · have hend : monitor.endPoint.uuid ≠ endPoint.uuid := fun heq =>
        hne (hwaiter.symm.trans ((h.armed monitor hmem heq).2 kind))
      rw [hqueue]
      exact (h.noRemoval.unRegister hend).queued
  refine ⟨hnoRemoval, ?_, ?_⟩
  · obtain ⟨monitor₁, hmem₁, hid, hend⟩ := h.registered
    refine ⟨monitor₁, ?_, hid, hend⟩
    rw [hmonitors]
    exact List.mem_map.mpr ⟨monitor₁, hmem₁, if_neg (hother monitor₁ hmem₁ (hend ▸ rfl))⟩
  · intro monitor' hmem' heq
    rw [hmonitors] at hmem'
    obtain ⟨monitor₁, hmem₁, rfl⟩ := List.mem_map.mp hmem'
    split_ifs at heq ⊢ with hchange
    · rw [(hkeeps monitor₁).2] at heq
      exact absurd hchange (hother monitor₁ hmem₁ heq)
    · exact h.armed monitor₁ hmem₁ heq

/-- Nothing but a call or a disconnect that starts removes the registration. -/
theorem Kept.step (h : Kept endPoint id m) (hact : ¬ act.Removes endPoint id)
    (hstep : Step m act m') : Kept endPoint id m' := by
  cases hstep with
  | @callUnRegister _ t endPoint' hthread =>
    refine h.setThread (fun _ hmem => by cases hmem) ?_ t
    rintro _ ⟨⟩
    exact hact
  | unRegister hthread =>
    exact (h.unRegister (h.noRemoval.called _ _ hthread)).setThread_of_none rfl (by simp) _
  | call hthread => exact h.setThread_of_none rfl (by simp) _
  | @swap _ t c hthread =>
    have hclear : Kept endPoint id m.clear :=
      ⟨⟨List.forall_mem_nil _, h.noRemoval.swapped, h.noRemoval.called⟩, h.registered, h.armed⟩
    refine hclear.setThread ?_ (by simp) t
    exact h.noRemoval.queued
  | @erase endPoints _ t c hthread =>
    have hswapped := h.noRemoval.swapped t
    rw [hthread] at hswapped
    have herase : Kept endPoint id (m.erase endPoints) := by
      refine ⟨⟨h.noRemoval.queued, h.noRemoval.swapped, h.noRemoval.called⟩, ?_, ?_⟩
      · obtain ⟨monitor, hmem, hid, rfl⟩ := h.registered
        refine ⟨monitor, List.mem_filter.mpr ⟨hmem, ?_⟩, hid, rfl⟩
        exact List.all_eq_true.mpr fun endPoint' hmem' =>
          decide_eq_true (hswapped endPoint' hmem')
      · exact fun monitor hmem => h.armed monitor (List.mem_filter.mp hmem).1
    exact herase.setThread_of_none rfl (by simp) t
  | count hthread => exact h.setThread_of_none rfl (by simp) _
  | @emplace _ t endPoint' hthread hnew =>
    obtain ⟨monitor, hmem, hid, hend⟩ := h.registered
    have hne : endPoint'.uuid ≠ endPoint.uuid := fun heq =>
      hnew monitor hmem (hend ▸ heq.symm)
    have hemplace : Kept endPoint id (m.emplace endPoint') := by
      refine ⟨⟨h.noRemoval.queued, h.noRemoval.swapped, h.noRemoval.called⟩,
        ⟨monitor, List.mem_append_left _ hmem, hid, hend⟩, fun monitor' hmem' heq => ?_⟩
      rcases List.mem_append.mp hmem' with hmem' | hmem'
      · exact h.armed monitor' hmem' heq
      · obtain rfl := List.mem_singleton.mp hmem'
        exact absurd heq hne
    exact hemplace.setThread_of_none rfl (by simp) t
  | @throwDuplicate _ t endPoint' isCalled hthread
  | @throwInvalidHandle _ t endPoint' isCalled hthread =>
    cases isCalled with
    | false => exact h.setThread_of_none rfl (by simp) t
    | true =>
      have hne : endPoint'.uuid ≠ endPoint.uuid := fun heq => hact ⟨heq, rfl⟩
      exact (h.unRegister hne).setThread_of_none rfl (by simp) t
  | start hmem hwaiter => exact h.callback hact (callbackEffect_start hmem hwaiter)
  | exchange hmem hwaiter => exact h.callback hact (callbackEffect_exchange hmem hwaiter)
  | callback hmem hwaiter => exact h.callback hact (callbackEffect_callback hmem hwaiter)
  | callbackUnRegister hmem hwaiter =>
    exact h.callback hact (callbackEffect_callbackUnRegister hmem hwaiter)

theorem Kept.of_run (h : Kept endPoint id m) (hrun : Run Step m acts m')
    (hacts : ∀ act ∈ acts, ¬ act.Removes endPoint id) : Kept endPoint id m' :=
  (hrun.guarded hacts).invariant (fun _ _ _ hkept hstep => hkept.step hstep.1 hstep.2) h

end Kept

section Removal
variable {id : Nat}

/-- The steps that a callback has left once it has started. -/
def Waiter.stepsLeft : Waiter → Nat
  | .armed => 0
  | .started => 3
  | .calling => 2
  | .unRegistering => 1
  | .finished => 0

def HandleMonitor.stepsLeft (monitor : HandleMonitor) : Nat :=
  (monitor.waiters .event).stepsLeft + (monitor.waiters .process).stepsLeft

def stepsLeft (m : ConnectionMonitor) : Nat :=
  (m.remoteMonitors.map HandleMonitor.stepsLeft).sum

theorem stepsLeft_setWaiter (monitor : HandleMonitor) (kind : HandleKind)
    (h : waiter.stepsLeft < (monitor.waiters kind).stepsLeft) :
    (monitor.setWaiter kind waiter).stepsLeft < monitor.stepsLeft := by
  cases kind with
  | event => simpa [HandleMonitor.stepsLeft, HandleMonitor.setWaiter] using h
  | process => simpa [HandleMonitor.stepsLeft, HandleMonitor.setWaiter] using h

theorem stepsLeft_exchange (monitor : HandleMonitor) (kind : HandleKind)
    (h : monitor.waiters kind = .started) :
    (monitor.exchange kind).stepsLeft < monitor.stepsLeft := by
  have hlt : (if monitor.isCalled then Waiter.finished else .calling).stepsLeft <
      (monitor.waiters kind).stepsLeft := by
    rw [h]
    split_ifs <;> decide
  exact stepsLeft_setWaiter monitor kind hlt

theorem stepsLeft_onWaiter {f : HandleMonitor → HandleMonitor}
    (hmem : monitor ∈ m.remoteMonitors) (hwaiter : monitor.waiters kind = waiter)
    (h : ∀ monitor : HandleMonitor, monitor.waiters kind = waiter →
      (f monitor).stepsLeft < monitor.stepsLeft) :
    (m.onWaiter monitor.id kind waiter f).stepsLeft < m.stepsLeft := by
  rw [stepsLeft, stepsLeft, onWaiter, List.map_map]
  apply List.sum_lt_sum
  · intro monitor₁ _
    rw [Function.comp_apply]
    split_ifs with hchange
    · exact Nat.le_of_lt (h monitor₁ hchange.2)
    · exact Nat.le_refl _
  · refine ⟨monitor, hmem, ?_⟩
    rw [Function.comp_apply, if_pos ⟨rfl, hwaiter⟩]
    exact h monitor hwaiter

theorem exists_callback_step (endPoint : EndPointInfo) (id : Nat)
    (hmem : monitor ∈ m.remoteMonitors) (hrunning : ¬ monitor.Quiet) :
    ∃ act m', Step m act m' ∧ ¬ act.Removes endPoint id ∧ CallbackEffect m act m' ∧
      m'.stepsLeft < m.stepsLeft := by
  obtain ⟨kind, hkind⟩ := not_forall.mp hrunning
  obtain ⟨hnotArmed, hnotFinished⟩ := not_or.mp hkind
  cases hwaiter : monitor.waiters kind with
  | armed => exact absurd hwaiter hnotArmed
  | finished => exact absurd hwaiter hnotFinished
  | started =>
    exact ⟨_, _, .exchange hmem hwaiter, not_false, callbackEffect_exchange hmem hwaiter,
      stepsLeft_onWaiter hmem hwaiter fun monitor h => stepsLeft_exchange monitor kind h⟩
  | calling =>
    refine ⟨_, _, .callback hmem hwaiter, not_false, callbackEffect_callback hmem hwaiter,
      stepsLeft_onWaiter hmem hwaiter fun monitor h => stepsLeft_setWaiter monitor kind ?_⟩
    rw [h]
    decide
  | unRegistering =>
    refine ⟨_, _, .callbackUnRegister hmem hwaiter, not_false,
      callbackEffect_callbackUnRegister hmem hwaiter,
      stepsLeft_onWaiter hmem hwaiter fun monitor h => stepsLeft_setWaiter monitor kind ?_⟩
    rw [h]
    decide

/-- The callbacks that are running can all end while the threads stand still. -/
theorem exists_quiet (endPoint : EndPointInfo) (id : Nat) (m : ConnectionMonitor) :
    ∃ acts m', Run Step m acts m' ∧ (∀ act ∈ acts, ¬ act.Removes endPoint id) ∧
      m'.threads = m.threads ∧ ∀ monitor ∈ m'.remoteMonitors, monitor.Quiet := by
  by_cases hquiet : ∀ monitor ∈ m.remoteMonitors, monitor.Quiet
  · exact ⟨[], m, .nil, List.forall_mem_nil _, rfl, hquiet⟩
  · obtain ⟨monitor, hmonitor⟩ := not_forall.mp hquiet
    obtain ⟨hmem, hrunning⟩ := Classical.not_imp.mp hmonitor
    obtain ⟨act, m₁, hstep, hact, heffect, hlt⟩ :=
      exists_callback_step endPoint id hmem hrunning
    obtain ⟨acts, m', hrun, hacts, hthreads, hquiet'⟩ := exists_quiet endPoint id m₁
    exact ⟨act :: acts, m', .cons hstep hrun, List.forall_mem_cons.mpr ⟨hact, hacts⟩,
      hthreads.trans heffect.threads, hquiet'⟩
termination_by m.stepsLeft

/-- A run in which no removal starts, and at whose end the end point is not registered. -/
def CanVanish (endPoint : EndPointInfo) (id : Nat) (m : ConnectionMonitor) : Prop :=
  ∃ acts m', Run Step m acts m' ∧ (∀ act ∈ acts, ¬ act.Removes endPoint id) ∧
    ¬ Registered endPoint m'

theorem CanVanish.cons (hstep : Step m act m') (hact : ¬ act.Removes endPoint id)
    (h : CanVanish endPoint id m') : CanVanish endPoint id m := by
  obtain ⟨acts, m'', hrun, hacts, hnot⟩ := h
  exact ⟨act :: acts, m'', .cons hstep hrun, List.forall_mem_cons.mpr ⟨hact, hacts⟩, hnot⟩

theorem canVanish_of_swapped (h : Swapped endPoint m) : CanVanish endPoint id m := by
  obtain ⟨t, endPoint', hmem, heq⟩ := h
  obtain ⟨acts, m', hrun, hacts, hthreads, hquiet⟩ := exists_quiet endPoint id m
  cases hthread : m.threads t with
  | erasing endPoints c =>
    rw [hthread] at hmem
    have herase := Step.erase (hthreads ▸ hthread) fun monitor hmonitor _ => hquiet monitor hmonitor
    have hnot : ¬ Registered endPoint ((m'.erase endPoints).setThread t (.finishing c)) :=
      not_registered_erase ⟨endPoint', hmem, heq⟩
    refine ⟨acts ++ [.erase t], _, hrun.append (.single herase), fun act hact => ?_, hnot⟩
    rcases List.mem_append.mp hact with hact | hact
    · exact hacts act hact
    · rw [List.mem_singleton.mp hact]
      exact not_false
  | _ =>
    rw [hthread] at hmem
    cases hmem

theorem canVanish_of_queued (hidle : m.threads t = .idle) (h : Queued endPoint m) :
    CanVanish endPoint id m := by
  obtain ⟨endPoint', hmem, heq⟩ := h
  have hcall := Step.call (c := .getRemoteConnectionsCount) hidle
  have hswap := Step.swap (threads_setThread_self m t (.swapping .getRemoteConnectionsCount))
  refine .cons hcall not_false (.cons hswap not_false (canVanish_of_swapped ?_))
  exact ⟨t, endPoint', by rw [threads_setThread_self]; exact hmem, heq⟩

theorem canVanish_of_called (hidle : m.threads t = .idle) (h : Called endPoint m) :
    CanVanish endPoint id m := by
  obtain ⟨t', endPoint', hthread, heq⟩ := h
  have hne : t ≠ t' := by
    rintro rfl
    rw [hidle] at hthread
    cases hthread
  refine .cons (.unRegister hthread) not_false (canVanish_of_queued (t := t) ?_ ?_)
  · rw [threads_setThread_of_ne hne]
    exact hidle
  · exact ⟨endPoint', List.mem_append_right _ (List.mem_singleton_self _), heq⟩

end Removal

/-- A thread whose `UnRegister` of the end point has returned, and that has got to the block of its
next `Register`, can rely on it if and only if no removal of the end point is under way. -/
theorem reliable_iff (hunRegister : Step m₀ (.unRegister t endPoint) m₁)
    (hrun : Run Step m₁ acts m₂) (hacts : ∀ act ∈ acts, ¬ act.Registers endPoint)
    (hregister : m₂.threads t = .finishing (.register endPoint)) :
    Reliable t endPoint m₂ ↔ NoRemoval endPoint m₂ := by
  have hleaving : Leaving endPoint m₂ := by
    refine (hrun.guarded hacts).invariant
      (fun _ _ _ hs hstep => Leaving.step hs hstep.1 hstep.2) ?_
    cases hunRegister with
    | unRegister hthread =>
      exact fun _ => .inl ⟨endPoint, List.mem_append_right _ (List.mem_singleton_self _), rfl⟩
  constructor
  · intro hreliable
    have hnew : ¬ Registered endPoint m₂ := fun hdup =>
      hreliable.accepted false _ (.throwDuplicate hregister hdup)
    have hemplace := Step.emplace hregister fun monitor hmem heq => hnew ⟨monitor, hmem, heq⟩
    have hidle := threads_setThread_self (m₂.emplace endPoint) t .idle
    have hkept : ¬ CanVanish endPoint m₂.nextId ((m₂.emplace endPoint).setThread t .idle) := by
      rintro ⟨acts', m', hrun', hacts', hnot⟩
      obtain ⟨monitor, hmem, -, hend⟩ := hreliable.stays _ _ hemplace _ _ hrun' hacts'
      exact hnot ⟨monitor, hmem, congrArg EndPointInfo.uuid hend⟩
    rw [noRemoval_iff]
    refine ⟨fun hqueued => ?_, fun hswapped => ?_, ?_⟩
    · exact hkept (canVanish_of_queued hidle hqueued)
    · exact hkept (canVanish_of_swapped (Swapped.setThread (m := m₂.emplace endPoint) hswapped
        (congrArg Thread.endPoints hregister) _))
    · rintro ⟨t', endPoint', hthread, heq⟩
      have hne : t' ≠ t := by
        rintro rfl
        rw [hregister] at hthread
        cases hthread
      refine hkept (canVanish_of_called hidle ⟨t', endPoint', ?_, heq⟩)
      rw [threads_setThread_of_ne hne]
      exact hthread
  · intro hnone
    obtain ⟨hqueued, hswapped, -⟩ := noRemoval_iff.mp hnone
    have hnew : ¬ Registered endPoint m₂ := fun hregistered =>
      (hleaving hregistered).elim hqueued hswapped
    refine ⟨fun isCalled m' hstep => ?_, fun id m' hstep acts' m'' hrun' hacts' => ?_⟩
    · cases hstep with
      | throwDuplicate hthread hdup => exact hnew hdup
    · have hkept : Kept endPoint id m' := by
        cases hstep with
        | emplace hthread hfree =>
          have hemplaced : Kept endPoint m₂.nextId (m₂.emplace endPoint) := by
            refine ⟨⟨hnone.queued, hnone.swapped, hnone.called⟩, ?_, fun monitor hmem heq => ?_⟩
            · exact ⟨_, List.mem_append_right _ (List.mem_singleton_self _), rfl, rfl⟩
            · rcases List.mem_append.mp hmem with hmem | hmem
              · exact absurd heq (hfree monitor hmem)
              · obtain rfl := List.mem_singleton.mp hmem
                exact ⟨rfl, fun _ => rfl⟩
          exact hemplaced.setThread_of_none rfl (by simp) t
      exact (hkept.of_run hrun' hacts').registered

theorem Step.erase_nil (h : m.threads t = .erasing [] c) :
    Step m (.erase t) ((m.erase []).setThread t (.finishing c)) :=
  .erase h fun _ _ hmem => by
    obtain ⟨_, hmem, -⟩ := hmem
    cases hmem

theorem Step.erase_armed (h : m.threads t = .erasing endPoints c)
    (harmed : ∀ monitor ∈ m.remoteMonitors, ∀ kind, monitor.waiters kind = .armed) :
    Step m (.erase t) ((m.erase endPoints).setThread t (.finishing c)) :=
  .erase h fun monitor hmem _ kind => .inl (harmed monitor hmem kind)

/-- A thread unregisters an end point that is registered and registers it again. -/
theorem reliable_iff_of_alone :
    let endPoint : EndPointInfo := ⟨5, 7⟩
    ∃ past m₀ m₁ acts m₂, Run Step {} past m₀ ∧ Step m₀ (.unRegister 0 endPoint) m₁ ∧
      Run Step m₁ acts m₂ ∧ (Reliable 0 endPoint m₂ ↔ NoRemoval endPoint m₂) := by
  intro endPoint
  obtain ⟨m₀, hpast, hm₀⟩ : ∃ m₀, Run Step {} [.call 0 (.register endPoint), .swap 0, .erase 0,
      .emplace 0 endPoint 0, .callUnRegister 0 endPoint] m₀ ∧
      m₀ = { threads := m₀.threads, remoteMonitors := [{ id := 0, endPoint }], nextId := 1 } ∧
      m₀.threads 0 = .unRegistering endPoint :=
    ⟨_, .cons (.call rfl) (.cons (.swap rfl) (.cons (.erase_nil rfl)
      (.cons (.emplace rfl (List.forall_mem_nil _)) (.cons (.callUnRegister rfl) .nil)))), rfl, rfl⟩
  have hunRegister : Step m₀ (.unRegister 0 endPoint) _ := .unRegister hm₀.2
  have hrun : Run Step ((m₀.unRegister endPoint).setThread 0 .idle)
      [.call 0 (.register endPoint), .swap 0, .erase 0] _ :=
    .cons (.call rfl) (.cons (.swap rfl) (.cons (.erase_armed rfl fun monitor hmem kind => by
      rw [hm₀.1] at hmem
      rw [List.mem_singleton.mp hmem]) .nil))
  exact ⟨_, _, _, _, _, hpast, hunRegister, hrun,
    reliable_iff hunRegister hrun (by simp [Act.Registers]) rfl⟩

/-- Another thread has swapped the end point out before it is registered again, and has not erased
it yet. -/
theorem not_reliable_of_swapped :
    ¬ ∀ past m₀ t endPoint m₁ acts m₂, Run Step {} past m₀ →
      Step m₀ (.unRegister t endPoint) m₁ → Run Step m₁ acts m₂ →
      (∀ act ∈ acts, ¬ act.Registers endPoint) →
      m₂.threads t = .finishing (.register endPoint) → Reliable t endPoint m₂ := by
  intro h
  have hpast : Run Step {} [.call 0 (.register ⟨5, 7⟩), .swap 0, .erase 0, .emplace 0 ⟨5, 7⟩ 0,
      .callUnRegister 0 ⟨5, 7⟩] _ :=
    .cons (.call rfl) (.cons (.swap rfl) (.cons (.erase_nil rfl)
      (.cons (.emplace rfl (List.forall_mem_nil _)) (.cons (.callUnRegister rfl) .nil))))
  have hreliable := h _ _ 0 ⟨5, 7⟩ _
    [.call 1 .getRemoteConnectionsCount, .swap 1, .call 0 (.register ⟨5, 7⟩), .swap 0, .erase 0] _
    hpast (.unRegister rfl)
    (.cons (.call rfl) (.cons (.swap rfl) (.cons (.call rfl) (.cons (.swap rfl)
      (.cons (.erase_nil rfl) .nil)))))
    (by simp [Act.Registers]) rfl
  exact hreliable.accepted false _ (.throwDuplicate rfl ⟨_, List.mem_singleton_self _, rfl⟩)

end L4.ConnectionMonitor

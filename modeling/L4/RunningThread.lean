import L4.Library.Transition

namespace L4
set_option autoImplicit true
open Transition

namespace RunningThread

/-- Where the thread is in `Start`. -/
inductive Worker where
  | storing
  | preparing
  | loading
  | entering
  | running
  | sleeping
  | done
deriving DecidableEq

/-- Where the owner is: before the destructor, in the `join` of the destructor, or after it. -/
inductive Owner where
  | alive
  | joining
  | joined
deriving DecidableEq

/-- The atomic steps of both. Calls of `prepFunc` and `coreFunc` return. -/
inductive Act where
  | storeTrue
  | prepFunc
  | load
  | coreFunc
  | coreFuncReturns
  | sleepFor
  | storeFalse
  | join
deriving DecidableEq

end RunningThread

open RunningThread

structure RunningThread where
  isRunning : Bool
  worker : Worker
  owner : Owner
deriving DecidableEq

namespace RunningThread

/-- The constructor, which starts the thread. -/
def create : RunningThread := ⟨false, .storing, .alive⟩

/-- The steps of `Start` and of the destructor. -/
inductive Step : RunningThread → Act → RunningThread → Prop
  | storeTrue : Step ⟨f, .storing, o⟩ .storeTrue ⟨true, .preparing, o⟩
  | prepFunc : Step ⟨f, .preparing, o⟩ .prepFunc ⟨f, .loading, o⟩
  | loadTrue : Step ⟨true, .loading, o⟩ .load ⟨true, .entering, o⟩
  | loadFalse : Step ⟨false, .loading, o⟩ .load ⟨false, .done, o⟩
  | coreFunc : Step ⟨f, .entering, o⟩ .coreFunc ⟨f, .running, o⟩
  | coreFuncReturns : Step ⟨f, .running, o⟩ .coreFuncReturns ⟨f, .sleeping, o⟩
  | sleepFor : Step ⟨f, .sleeping, o⟩ .sleepFor ⟨f, .loading, o⟩
  | storeFalse : Step ⟨f, w, .alive⟩ .storeFalse ⟨false, w, .joining⟩
  | join : Step ⟨f, .done, .joining⟩ .join ⟨f, .done, .joined⟩

/-- What the destructor expects of its store, in the state after it: nothing makes the flag true
again, at most one call of `coreFunc` starts, and whatever the order of the steps, the `join`
returns after a bounded number of them. -/
structure Sticks (t : RunningThread) : Prop where
  isRunning : ∀ acts u, Run Step t acts u → u.isRunning = false
  coreFunc : ∀ acts u, Run Step t acts u → acts.count .coreFunc ≤ 1
  joins : ∀ acts u, Run Step t acts u →
    acts.length ≤ 5 ∧ (u.owner = .joined ∨ ∃ act v, Step u act v)

/-- The calls of `coreFunc` that can still start when the flag stays false. -/
def coreFuncsLeft (t : RunningThread) : Nat := if t.worker = .entering then 1 else 0

/-- The steps that the thread still makes when the flag stays false. -/
def Worker.stepsLeft : Worker → Nat
  | .storing => 0
  | .preparing => 2
  | .loading => 1
  | .entering => 4
  | .running => 3
  | .sleeping => 2
  | .done => 0

def stepsLeft (t : RunningThread) : Nat :=
  t.worker.stepsLeft + if t.owner = .joining then 1 else 0

/-- The destructor has stored false after the store of the thread. -/
structure Stopped (t : RunningThread) : Prop where
  isRunning : t.isRunning = false
  worker : t.worker ≠ .storing
  owner : t.owner ≠ .alive

theorem Stopped.step (h : Stopped t) (hstep : Step t act u) : Stopped u := by
  obtain ⟨hrunning, hworker, howner⟩ := h
  cases hstep with
  | storeTrue => exact absurd rfl hworker
  | storeFalse => exact absurd rfl howner
  | loadTrue => cases hrunning
  | loadFalse => exact ⟨rfl, by simp, howner⟩
  | join => exact ⟨hrunning, by simp, by simp⟩
  | _ => exact ⟨hrunning, by simp, howner⟩

theorem Stopped.of_run (h : Stopped t) (hrun : Run Step t acts u) : Stopped u :=
  hrun.invariant (fun _ _ _ hs hstep => hs.step hstep) h

theorem coreFuncsLeft_step (h : Stopped t) (hstep : Step t act u) :
    coreFuncsLeft u + (if act == .coreFunc then 1 else 0) ≤ coreFuncsLeft t := by
  cases hstep with
  | loadTrue => cases h.isRunning
  | storeTrue => exact absurd rfl h.worker
  | storeFalse => exact absurd rfl h.owner
  | _ => simp [coreFuncsLeft]

theorem stepsLeft_step (h : Stopped t) (hstep : Step t act u) : stepsLeft u + 1 ≤ stepsLeft t := by
  cases hstep with
  | loadTrue => cases h.isRunning
  | storeTrue => exact absurd rfl h.worker
  | storeFalse => exact absurd rfl h.owner
  | join => simp [stepsLeft, Worker.stepsLeft]
  | _ =>
    simp only [stepsLeft, Worker.stepsLeft]
    omega

theorem stepsLeft_le (t : RunningThread) : stepsLeft t ≤ 5 := by
  have hworker : t.worker.stepsLeft ≤ 4 := by
    cases t.worker <;> decide
  rw [stepsLeft]
  split_ifs <;> omega

theorem exists_step (h : t.owner = .joining) : ∃ act u, Step t act u := by
  obtain ⟨f, w, o⟩ := t
  obtain rfl : o = .joining := h
  cases w with
  | storing => exact ⟨_, _, .storeTrue⟩
  | preparing => exact ⟨_, _, .prepFunc⟩
  | loading =>
    cases f with
    | true => exact ⟨_, _, .loadTrue⟩
    | false => exact ⟨_, _, .loadFalse⟩
  | entering => exact ⟨_, _, .coreFunc⟩
  | running => exact ⟨_, _, .coreFuncReturns⟩
  | sleeping => exact ⟨_, _, .sleepFor⟩
  | done => exact ⟨_, _, .join⟩

theorem Stopped.sticks (h : Stopped t) : Sticks t where
  isRunning acts u hrun := (h.of_run hrun).isRunning
  coreFunc acts u hrun := by
    have hcount := hrun.countP_le (fun _ _ _ hs hstep => Stopped.step hs hstep)
      (fun _ _ _ hs hstep => coreFuncsLeft_step hs hstep) h
    have hone : coreFuncsLeft t ≤ 1 := by
      rw [coreFuncsLeft]
      split_ifs <;> omega
    rw [List.count]
    omega
  joins acts u hrun := by
    have hcount : stepsLeft u + acts.countP (fun _ => true) ≤ stepsLeft t :=
      hrun.countP_le (fun _ _ _ hs hstep => Stopped.step hs hstep)
        (fun _ _ _ hs hstep => stepsLeft_step hs hstep) h
    have hfive := stepsLeft_le t
    rw [List.countP_true] at hcount
    refine ⟨by omega, ?_⟩
    cases howner : u.owner with
    | alive => exact absurd howner (h.of_run hrun).owner
    | joining => exact .inr (exists_step howner)
    | joined => exact .inl rfl

theorem mem_storeTrue_iff (h : Run Step create acts s) :
    .storeTrue ∈ acts ↔ s.worker ≠ .storing := by
  refine h.history_nil (I := fun past s => Act.storeTrue ∈ past ↔ s.worker ≠ .storing) ?_
    (by decide)
  intro past s act t hpast hstep
  rw [List.mem_append, hpast]
  cases hstep <;> simp

/-- If the thread stores true after the destructor, it calls `coreFunc` without end, and the
`join` waits. -/
theorem loops_of_storing (n : Nat) :
    ∃ acts, Run Step ⟨false, .storing, .joining⟩ acts ⟨true, .loading, .joining⟩ ∧
      acts.count .coreFunc = n := by
  induction n with
  | zero => exact ⟨[_, _], .cons .storeTrue (.cons .prepFunc .nil), rfl⟩
  | succ n ih =>
    obtain ⟨acts, hrun, hcount⟩ := ih
    refine ⟨acts ++ [_, _, _, _], hrun.append (.cons .loadTrue (.cons .coreFunc
      (.cons .coreFuncReturns (.cons .sleepFor .nil)))), ?_⟩
    rw [List.count_append, hcount]
    rfl

/-- The store of false sticks if and only if the thread has stored true before. -/
theorem sticks_iff (h : Run Step create acts s) (hstop : Step s .storeFalse t) :
    Sticks t ↔ .storeTrue ∈ acts := by
  rw [mem_storeTrue_iff h]
  cases hstop with
  | storeFalse =>
    constructor
    · rintro hsticks rfl
      cases hsticks.isRunning _ _ (.single .storeTrue)
    · intro hworker
      exact Stopped.sticks ⟨rfl, hworker, by simp⟩

/-- The destructor during the first call of `coreFunc`. -/
theorem sticks_of_running : Sticks ⟨false, .running, .joining⟩ ↔
    .storeTrue ∈ [Act.storeTrue, .prepFunc, .load, .coreFunc] :=
  sticks_iff (.cons .storeTrue (.cons .prepFunc (.cons .loadTrue (.cons .coreFunc .nil))))
    .storeFalse

/-- The owner is destroyed before the thread has run its first statement. -/
theorem not_sticks_of_storing :
    ¬ ∀ acts s t, Run Step create acts s → Step s .storeFalse t → Sticks t := by
  intro h
  have hsticks := h [] create ⟨false, .storing, .joining⟩ .nil .storeFalse
  cases hsticks.isRunning _ _ (.single .storeTrue)

end RunningThread

end L4

import Mathlib.Order.Bounds.Basic
import L4.Library.ThreadPool
import L4.Library.Transition

/-! Calls that load a shared value and then try to exchange it for their argument, until the value
that they have seen tells them to stop. -/

namespace CasLoop
set_option autoImplicit true
open ThreadPool (Pool)
open Transition (Run)

/-- Where a call stands. -/
inductive Phase (α : Type) where
  | called
  | comparing (startValue : α)
  | exchanging (startValue : α)
  | returned

structure Call (α : Type) where
  value : α
  phase : Phase α

inductive Event where
  | load | stop | go | exchange | fail

/-- The steps of a call. An exchange that fails gives the call the latest value. -/
inductive Act (stop : α → α → Prop) :
    List (Call α) → α → Call α → Event → α → Call α → Prop
  | load : Act stop others counter ⟨value, .called⟩ .load counter ⟨value, .comparing counter⟩
  | stop (h : stop startValue value) :
      Act stop others counter ⟨value, .comparing startValue⟩ .stop counter ⟨value, .returned⟩
  | go (h : ¬ stop startValue value) :
      Act stop others counter ⟨value, .comparing startValue⟩ .go
        counter ⟨value, .exchanging startValue⟩
  | exchange :
      Act stop others startValue ⟨value, .exchanging startValue⟩ .exchange value ⟨value, .returned⟩
  | fail (h : counter ≠ startValue) :
      Act stop others counter ⟨value, .exchanging startValue⟩ .fail
        counter ⟨value, .comparing counter⟩

abbrev Step (stop : α → α → Prop) : Pool α (Call α) → Event → Pool α (Call α) → Prop :=
  ThreadPool.Step (Act stop)

def initial (counter : α) (values : List α) : Pool α (Call α) :=
  ⟨counter, values.map fun value => ⟨value, .called⟩⟩

/-- All calls have returned. -/
def Returned (p : Pool α (Call α)) : Prop := ∀ c ∈ p.threads, c.phase = .returned

variable {stop : α → α → Prop}

theorem Act.value_eq (h : Act stop others counter c event counter' c') : c'.value = c.value := by
  cases h <;> rfl

theorem Act.counter_eq (h : Act stop others counter c event counter' c') :
    counter' = counter ∨ counter' = c.value := by
  cases h with
  | exchange => exact .inr rfl
  | _ => exact .inl rfl

section Order
variable [LinearOrder α]

/-- What a call knows about the shared value. -/
def Call.Knows (counter : α) (c : Call α) : Prop :=
  match c.phase with
  | .called => True
  | .comparing startValue => startValue ≤ counter
  | .exchanging startValue => startValue ≤ counter ∧ startValue ≤ c.value
  | .returned => c.value ≤ counter

theorem Call.Knows.mono {c : Call α} (h : c.Knows counter) (hle : counter ≤ counter') :
    c.Knows counter' := by
  obtain ⟨value, phase⟩ := c
  cases phase with
  | called => trivial
  | comparing startValue => exact le_trans h hle
  | exchanging startValue => exact ⟨le_trans h.1 hle, h.2⟩
  | returned => exact le_trans h hle

theorem Act.knows (hstop : ∀ startValue value, stop startValue value ↔ value < startValue)
    (h : Act stop others counter c event counter' c') (hc : c.Knows counter) :
    counter ≤ counter' ∧ c'.Knows counter' := by
  cases h with
  | load => exact ⟨le_refl _, le_refl counter⟩
  | stop hlt => exact ⟨le_refl _, le_trans (le_of_lt ((hstop _ _).mp hlt)) hc⟩
  | go hle => exact ⟨le_refl _, hc, le_of_not_gt (mt (hstop _ _).mpr hle)⟩
  | exchange => exact ⟨hc.2, le_refl counter'⟩
  | fail => exact ⟨le_refl _, le_refl counter⟩

/-- The shared value is that of the start or that of a call, and no less than what the calls that
have returned have asked for. -/
structure Invariant (start : α) (values : List α) (p : Pool α (Call α)) : Prop where
  values_eq : p.threads.map Call.value = values
  mem : p.shared = start ∨ p.shared ∈ values
  le : start ≤ p.shared
  knows : ∀ c ∈ p.threads, c.Knows p.shared

theorem Invariant.initial (start : α) (values : List α) :
    Invariant start values (initial start values) where
  values_eq := by
    simp only [CasLoop.initial, List.map_map]
    exact List.map_id values
  mem := .inl rfl
  le := le_refl start
  knows c hc := by
    obtain ⟨value, -, rfl⟩ := List.mem_map.mp hc
    trivial

variable (hstop : ∀ startValue value, stop startValue value ↔ value < startValue)
include hstop

theorem Invariant.step (h : Invariant start values p) (hstep : Step stop p event p') :
    p.shared ≤ p'.shared ∧ Invariant start values p' := by
  cases hstep with
  | @intro counter c _ counter' c' before after hact =>
    obtain ⟨hle, hknows⟩ := hact.knows hstop (h.knows c (by simp))
    refine ⟨hle, ?_, ?_, le_trans h.le hle, ?_⟩
    · rw [← h.values_eq]
      simp only [List.map_append, List.map_cons, hact.value_eq]
    · rcases hact.counter_eq with heq | heq
      · exact heq ▸ h.mem
      · refine .inr ?_
        rw [← h.values_eq]
        exact heq ▸ List.mem_map_of_mem (by simp)
    · intro x hx
      rcases List.mem_append.mp hx with hx | hx
      · exact (h.knows x (by simp [hx])).mono hle
      · rcases List.mem_cons.mp hx with rfl | hx
        · exact hknows
        · exact (h.knows x (by simp [hx])).mono hle

theorem invariant_of_run (hrun : Run (Step stop) (CasLoop.initial start values) events p) :
    Invariant start values p :=
  hrun.invariant (fun _ _ _ h hstep => (h.step hstop hstep).2) (.initial start values)

theorem isGreatest_of_run (hrun : Run (Step stop) (CasLoop.initial start values) events p) :
    (∀ event p', Step stop p event p' → p.shared ≤ p'.shared) ∧
      (Returned p → IsGreatest {x | x = start ∨ x ∈ values} p.shared) := by
  have h := invariant_of_run hstop hrun
  refine ⟨fun event p' hstep => (h.step hstop hstep).1, fun hreturned => ⟨h.mem, ?_⟩⟩
  rintro x (rfl | hx)
  · exact h.le
  · rw [← h.values_eq] at hx
    obtain ⟨c, hc, rfl⟩ := List.mem_map.mp hx
    have hknows := h.knows c hc
    rwa [Call.Knows, hreturned c hc] at hknows

omit hstop in
theorem isGreatest_foldl_max (start : α) (values : List α) :
    IsGreatest {x | x = start ∨ x ∈ values} (values.foldl max start) := by
  induction values generalizing start with
  | nil =>
    refine ⟨.inl rfl, ?_⟩
    rintro x (rfl | hx)
    · exact le_refl x
    · cases hx
  | cons value values ih =>
    obtain ⟨hmem, hupper⟩ := ih (max start value)
    have hle : max start value ≤ values.foldl max (max start value) := hupper (.inl rfl)
    constructor
    · rcases hmem with heq | hmem
      · rw [List.foldl_cons, heq]
        rcases max_choice start value with hmax | hmax
        · exact .inl hmax
        · rw [hmax]
          exact .inr List.mem_cons_self
      · exact .inr (List.mem_cons_of_mem _ hmem)
    · rintro x (rfl | hx)
      · exact le_trans (le_max_left x value) hle
      · rcases List.mem_cons.mp hx with rfl | hx
        · exact le_trans (le_max_right start x) hle
        · exact hupper (.inr hx)

/-- The calls do what one update after the other would do. -/
theorem eq_foldl_max_of_run (hrun : Run (Step stop) (CasLoop.initial start values) events p)
    (hreturned : Returned p) : p.shared = values.foldl max start :=
  ((isGreatest_of_run hstop hrun).2 hreturned).unique (isGreatest_foldl_max start values)

end Order

end CasLoop

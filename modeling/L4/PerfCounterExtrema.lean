import L4.PerfCounter
import L4.Library.CasLoop

namespace L4.PerfCounters
set_option autoImplicit true
open CasLoop (Call Event Returned initial)
open ThreadPool (Pool)
open Transition (Run)

section Extrema
variable {TValue : Type} [LinearOrder TValue]

/-- A step of one of several calls of `Max` on a counter. -/
def MaxStep : Pool TValue (Call TValue) → Event → Pool TValue (Call TValue) → Prop :=
  CasLoop.Step fun startValue value => startValue > value

/-- A step of one of several calls of `Min` on a counter. -/
def MinStep : Pool TValue (Call TValue) → Event → Pool TValue (Call TValue) → Prop :=
  CasLoop.Step fun startValue value => startValue < value

/-- Calls of `Max` in any order never lower the counter, and when all of them have returned it is
the largest of their arguments and its first value. Calls of `Min` do the same downwards. -/
theorem max_min_exact (start : TValue) (values : List TValue) :
    (∀ events p, Run MaxStep (initial start values) events p →
      (∀ event p', MaxStep p event p' → p.shared ≤ p'.shared) ∧
        (Returned p → IsGreatest {x | x = start ∨ x ∈ values} p.shared)) ∧
    (∀ events p, Run MinStep (initial start values) events p →
      (∀ event p', MinStep p event p' → p'.shared ≤ p.shared) ∧
        (Returned p → IsLeast {x | x = start ∨ x ∈ values} p.shared)) := by
  constructor
  · intro events p hrun
    exact CasLoop.isGreatest_of_run (fun _ _ => Iff.rfl) hrun
  · intro events p hrun
    exact CasLoop.isGreatest_of_run (α := TValueᵒᵈ) (fun _ _ => Iff.rfl) hrun

/-- The larger of two arguments is stored first, and the smaller call has still to see it. -/
theorem max_min_exact_of_retry :
    let p : Pool Int (Call Int) := ⟨7, [⟨3, .returned⟩, ⟨7, .returned⟩]⟩
    IsGreatest {x : Int | x = 1 ∨ x ∈ [3, 7]} p.shared := by
  intro p
  refine (((max_min_exact (1 : Int) [3, 7]).1
    [.load, .go, .load, .go, .exchange, .fail, .stop] p ?_).2 ?_)
  · exact .cons (.intro [] [_] .load) (.cons (.intro [] [_] (.go (by decide)))
      (.cons (.intro [_] [] .load) (.cons (.intro [_] [] (.go (by decide)))
        (.cons (.intro [_] [] .exchange) (.cons (.intro [] [_] (.fail (by decide)))
          (.single (.intro [] [_] (.stop (by decide)))))))))
  · intro c hc
    simp only [p, List.mem_cons, List.not_mem_nil, or_false] at hc
    rcases hc with rfl | rfl <;> rfl

end Extrema

section Update
open PerfUpdate (applyAll)

theorem applyAll_of_folds {update : Int → PerfUpdate} {f : Int → Int → Int}
    (h : ∀ perfData value, (update value).apply perfData counter = f (perfData counter) value)
    (perfData : HashTablePerfData) (values : List Int) :
    applyAll perfData (values.map update) counter = values.foldl f (perfData counter) := by
  induction values generalizing perfData with
  | nil => rfl
  | cons value values ih =>
    rw [List.map_cons, applyAll, List.foldl_cons, ← applyAll, ih, h, List.foldl_cons]

/-- The loops do what one update of the counter after the other would do. -/
theorem max_min_refine (perfData : HashTablePerfData) (counter : HashTablePerfCounter)
    (values : List Int) {p : Pool Int (Call Int)} (hreturned : Returned p) :
    (Run MaxStep (initial (perfData counter) values) events p →
      p.shared = applyAll perfData (values.map (.max counter)) counter) ∧
    (Run MinStep (initial (perfData counter) values) events p →
      p.shared = applyAll perfData (values.map (.min counter)) counter) := by
  constructor
  · intro hrun
    rw [applyAll_of_folds (f := max) (by simp [PerfUpdate.apply])]
    exact CasLoop.eq_foldl_max_of_run (fun _ _ => Iff.rfl) hrun hreturned
  · intro hrun
    rw [applyAll_of_folds (f := min) (by simp [PerfUpdate.apply])]
    exact CasLoop.eq_foldl_max_of_run (α := Intᵒᵈ) (fun _ _ => Iff.rfl) hrun hreturned

end Update

end L4.PerfCounters

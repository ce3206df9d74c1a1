import Mathlib.Algebra.BigOperators.Group.List.Basic

namespace Transition
set_option autoImplicit true

/-- A finite run of a labelled step relation, together with the labels of its steps. -/
inductive Run (step : σ → α → σ → Prop) : σ → List α → σ → Prop
  | nil : Run step s [] s
  | cons : step s a t → Run step t as u → Run step s (a :: as) u

/-- The steps of a relation that meet a condition on the state before and the label. -/
def Guarded (ok : σ → α → Prop) (step : σ → α → σ → Prop) (s : σ) (a : α) (t : σ) : Prop :=
  ok s a ∧ step s a t

theorem Run.single (h : step s a t) : Run step s [a] t := .cons h .nil

theorem Run.append (h : Run step s as t) (h' : Run step t bs u) : Run step s (as ++ bs) u := by
  induction h with
  | nil => exact h'
  | cons hs _ ih => exact .cons hs (ih h')

theorem Run.split (h : Run step s (as ++ bs) u) : ∃ t, Run step s as t ∧ Run step t bs u := by
  induction as generalizing s with
  | nil => exact ⟨s, .nil, h⟩
  | cons a as ih =>
    cases h with
    | cons hs hr =>
      obtain ⟨t, hl, hr⟩ := ih hr
      exact ⟨t, .cons hs hl, hr⟩

/-- A property that every step preserves holds at the end of a run that starts in it. -/
theorem Run.invariant {I : σ → Prop} (h : Run step s as t)
    (hstep : ∀ s a t, I s → step s a t → I t) (hs : I s) : I t := by
  induction h with
  | nil => exact hs
  | cons ha _ ih => exact ih (hstep _ _ _ hs ha)

/-- A property of a state and of the labels before it, which every step preserves. -/
theorem Run.history {I : List α → σ → Prop} (h : Run step s as t)
    (hstep : ∀ past s a t, I past s → step s a t → I (past ++ [a]) t) (hs : I past s) :
    I (past ++ as) t := by
  induction h generalizing past with
  | nil => simpa using hs
  | cons ha _ ih => simpa using ih (hstep past _ _ _ hs ha)

theorem Run.history_nil {I : List α → σ → Prop} (h : Run step s as t)
    (hstep : ∀ past s a t, I past s → step s a t → I (past ++ [a]) t) (hs : I [] s) : I as t :=
  h.history hstep hs

theorem Run.mono (h : Run step s as t) (hstep : ∀ s a t, step s a t → step' s a t) :
    Run step' s as t := by
  induction h with
  | nil => exact .nil
  | cons ha _ ih => exact .cons (hstep _ _ _ ha) ih

/-- A run that another one follows. The steps without a label of the other relation are not seen
there. -/
theorem Run.simulation {step' : τ → β → τ → Prop} {label : α → Option β} {R : σ → τ → Prop}
    (h : Run step s as t)
    (hstep : ∀ s a t u, step s a t → R s u → ∃ u', Run step' u (label a).toList u' ∧ R t u')
    (hR : R s u) : ∃ u', Run step' u (as.filterMap label) u' ∧ R t u' := by
  induction h generalizing u with
  | nil => exact ⟨u, .nil, hR⟩
  | @cons s a _ as _ ha _ ih =>
    obtain ⟨u₁, hfirst, hR₁⟩ := hstep _ _ _ u ha hR
    obtain ⟨u', hrest, hR'⟩ := ih hR₁
    have hlabels : (a :: as).filterMap label = (label a).toList ++ as.filterMap label := by
      rw [List.filterMap_cons]
      cases label a <;> rfl
    exact ⟨u', hlabels ▸ hfirst.append hrest, hR'⟩

/-- A condition on the states that steps keep backwards holds all along a run to a state that meets
it. -/
theorem Run.guarded_of_last {I : σ → Prop} (h : Run step s as t)
    (hstep : ∀ s a t, step s a t → I t → I s) (hI : I t) :
    Run (Guarded (fun s _ => I s) step) s as t ∧ I s := by
  induction h with
  | nil => exact ⟨.nil, hI⟩
  | cons ha _ ih =>
    obtain ⟨hrest, hI⟩ := ih hI
    exact ⟨.cons ⟨hstep _ _ _ ha hI, ha⟩ hrest, hstep _ _ _ ha hI⟩

theorem Run.guarded {ok : α → Prop} (h : Run step s as t) (hok : ∀ a ∈ as, ok a) :
    Run (Guarded (fun _ => ok) step) s as t := by
  induction h with
  | nil => exact .nil
  | cons ha _ ih =>
    exact .cons ⟨hok _ List.mem_cons_self, ha⟩
      (ih fun a hmem => hok a (List.mem_cons_of_mem _ hmem))

theorem Run.balance [AddMonoid M] {I : σ → Prop} {v : σ → M} {added : α → M} (h : Run step s as t)
    (hI : ∀ s a t, I s → step s a t → I t)
    (hstep : ∀ s a t, I s → step s a t → v t = v s + added a) (hs : I s) :
    v t = v s + (as.map added).sum := by
  induction h with
  | nil => simp
  | cons ha _ ih =>
    rw [ih (hI _ _ _ hs ha), hstep _ _ _ hs ha, List.map_cons, List.sum_cons, add_assoc]

theorem Run.countP_le {I : σ → Prop} {μ : σ → Nat} {counted : α → Bool} (h : Run step s as t)
    (hI : ∀ s a t, I s → step s a t → I t)
    (hstep : ∀ s a t, I s → step s a t → μ t + (if counted a then 1 else 0) ≤ μ s) (hs : I s) :
    μ t + as.countP counted ≤ μ s := by
  induction h with
  | nil => simp
  | @cons s a t as u ha _ ih =>
    have hrest := ih (hI _ _ _ hs ha)
    have hfirst := hstep _ _ _ hs ha
    rw [List.countP_cons]
    omega

/-- A step with the largest value that each of a family of quantities has had so far. -/
def WithPeak {σ ι : Type} (v : σ → ι → Nat) (step : σ → α → σ → Prop) (s : σ × (ι → Nat)) (a : α)
    (t : σ × (ι → Nat)) : Prop :=
  step s.1 a t.1 ∧ ∀ i, t.2 i = max (s.2 i) (v t.1 i)

theorem Run.withPeak {σ ι : Type} {s t : σ} {step : σ → α → σ → Prop} (h : Run step s as t)
    (v : σ → ι → Nat) (peak : ι → Nat) :
    ∃ peak', Run (WithPeak v step) (s, peak) as (t, peak') := by
  induction h generalizing peak with
  | nil => exact ⟨peak, .nil⟩
  | @cons s a u as t ha _ ih =>
    obtain ⟨peak', hrun⟩ := ih fun i => max (peak i) (v u i)
    exact ⟨peak', .cons ⟨ha, fun _ => rfl⟩ hrun⟩

end Transition

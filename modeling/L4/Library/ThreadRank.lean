import Mathlib.Logic.Hydra
import L4.Library.ThreadPool

/-! Threads that come to an end. -/

namespace ThreadPool
set_option autoImplicit true
open Relation (CutExpand)
variable {W : Type}
variable {act : List τ → σ → τ → α → σ → τ → Prop}

theorem cutExpand_middle {lt : W → W → Prop} {rank : τ → W} (before after : List τ)
    (h : lt (rank th') (rank th)) :
    CutExpand lt (((before ++ th' :: after).map rank : List W) : Multiset W)
      (((before ++ th :: after).map rank : List W) : Multiset W) := by
  have hmiddle (x : τ) : (((before ++ x :: after).map rank : List W) : Multiset W) =
      (((before ++ after).map rank : List W) : Multiset W) + {rank x} := by
    rw [List.map_append, List.map_cons, List.map_append, add_comm, Multiset.singleton_add,
      Multiset.cons_coe]
    exact Multiset.coe_eq_coe.mpr List.perm_middle
  rw [hmiddle, hmiddle]
  exact Relation.cutExpand_add_single _ h

/-- Where every act lowers the rank of its thread, no pool takes steps forever. -/
theorem wellFounded_step {lt : W → W → Prop} (rank : τ → W) (hlt : WellFounded lt)
    (hact : ∀ others s th a s' th', act others s th a s' th' → lt (rank th') (rank th)) :
    WellFounded fun p' p : Pool σ τ => ∃ a, Step act p a p' := by
  refine Subrelation.wf ?_
    (InvImage.wf (fun p : Pool σ τ => ((p.threads.map rank : List W) : Multiset W)) hlt.cutExpand)
  rintro p' p ⟨a, hstep⟩
  cases hstep with
  | intro before after h => exact cutExpand_middle before after (hact _ _ _ _ _ _ h)

end ThreadPool

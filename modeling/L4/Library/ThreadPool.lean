import Mathlib.Algebra.Order.Group.Int
import Mathlib.Algebra.Ring.Int.Defs
import Mathlib.Data.List.Perm.Basic
import Mathlib.Data.List.Nodup
import Mathlib.Algebra.BigOperators.Group.List.Basic
import L4.Library.Transition

/-! Threads that take turns on a shared state. -/

namespace ThreadPool
set_option autoImplicit true

/-- A shared state and the local states of the threads. -/
structure Pool (σ τ : Type) where
  shared : σ
  threads : List τ

/-- One thread acts on the shared state. It sees the other threads, as a thread that waits for a
lock does. -/
inductive Step (act : List τ → σ → τ → α → σ → τ → Prop) : Pool σ τ → α → Pool σ τ → Prop
  | intro (before after : List τ) (h : act (before ++ after) s th a s' th') :
      Step act ⟨s, before ++ th :: after⟩ a ⟨s', before ++ th' :: after⟩

/-- A step together with the number of its thread. -/
inductive NumberedStep (act : List τ → σ → τ → α → σ → τ → Prop) :
    Pool σ τ → Nat × α → Pool σ τ → Prop
  | intro (before after : List τ) (h : act (before ++ after) s th a s' th') :
      NumberedStep act ⟨s, before ++ th :: after⟩ (before.length, a)
        ⟨s', before ++ th' :: after⟩

variable {act : List τ → σ → τ → α → σ → τ → Prop}

theorem NumberedStep.step (h : NumberedStep act p a p') : Step act p a.2 p' := by
  cases h with
  | intro before after h => exact .intro before after h

theorem Step.numbered (h : Step act p a p') : ∃ t, NumberedStep act p (t, a) p' := by
  cases h with
  | intro before after h => exact ⟨before.length, .intro before after h⟩

/-- The numbers of the threads can be added to a run. -/
theorem exists_numbered (h : Transition.Run (Step act) p labels p') :
    ∃ numbered, Transition.Run (NumberedStep act) p numbered p' ∧
      numbered.map Prod.snd = labels := by
  induction h with
  | nil => exact ⟨[], .nil, rfl⟩
  | cons hstep _ ih =>
    obtain ⟨t, hstep⟩ := hstep.numbered
    obtain ⟨numbered, hrun, rfl⟩ := ih
    exact ⟨(t, _) :: numbered, .cons hstep hrun, rfl⟩

theorem getElem?_middle_of_ne {before after : List τ} (h : t ≠ before.length) (th th' : τ) :
    (before ++ th' :: after)[t]? = (before ++ th :: after)[t]? := by
  rcases Nat.lt_or_gt_of_ne h with hlt | hlt
  · rw [List.getElem?_append_left hlt, List.getElem?_append_left hlt]
  · obtain ⟨k, rfl⟩ := Nat.exists_eq_add_of_lt hlt
    simp [List.getElem?_append_right, Nat.add_assoc]

theorem mem_of_others {before after : List τ} (hx : x ∈ before ++ after) (th : τ) :
    x ∈ before ++ th :: after := by
  rcases List.mem_append.mp hx with hx | hx
  · exact List.mem_append_left _ hx
  · exact List.mem_append_right _ (List.mem_cons_of_mem _ hx)

/-- A property that the action keeps for its own thread and for the others. -/
theorem Step.forall {I : σ → τ → Prop} (h : Step act p a p')
    (hown : ∀ others th s' th', act others p.shared th a s' th' → I p.shared th → I s' th')
    (hother : ∀ others th s' th', act others p.shared th a s' th' →
      ∀ x ∈ others, x ∈ p.threads → I p.shared x → I s' x)
    (hp : ∀ th ∈ p.threads, I p.shared th) : ∀ th ∈ p'.threads, I p'.shared th := by
  cases h with
  | @intro s th _ s' th' before after hact =>
    have hrest (x : τ) (hx : x ∈ before ++ after) : I s' x :=
      hother _ th s' th' hact x hx (mem_of_others hx th) (hp x (mem_of_others hx th))
    intro x hx
    simp only [List.mem_append, List.mem_cons] at hx
    rcases hx with hx | rfl | hx
    · exact hrest x (List.mem_append_left _ hx)
    · exact hown _ th s' x hact (hp th (by simp))
    · exact hrest x (List.mem_append_right _ hx)

/-- What is split between the shared state and the threads grows by what the action adds. -/
theorem Step.balance {g : σ → Int} {f : τ → Int} (h : Step act p a p')
    (hact : ∀ others s' th', ∀ th ∈ p.threads, act others p.shared th a s' th' →
      g s' + f th' = g p.shared + f th + added) :
    g p'.shared + (p'.threads.map f).sum = g p.shared + (p.threads.map f).sum + added := by
  cases h with
  | @intro s th _ s' th' before after h =>
    have heq : g s' + f th' = g s + f th + added := hact _ s' th' th (by simp) h
    simp only [List.map_append, List.map_cons, List.sum_append, List.sum_cons]
    omega

/-- What the shared state and the threads hold is passed on: the action takes in what it adds and
gives away what it removes. -/
theorem Step.perm {g : σ → List β} {f : τ → List β} (h : Step act p a p')
    (hact : ∀ others s' th', ∀ th ∈ p.threads, act others p.shared th a s' th' →
      (g s' ++ f th' ++ removed).Perm (g p.shared ++ f th ++ added)) :
    (g p'.shared ++ p'.threads.flatMap f ++ removed).Perm
      (g p.shared ++ p.threads.flatMap f ++ added) := by
  classical
  cases h with
  | @intro s th _ s' th' before after h =>
    have hperm := hact _ s' th' th (by simp) h
    rw [List.perm_iff_count] at hperm ⊢
    intro x
    have hcount := hperm x
    simp only [List.flatMap_append, List.flatMap_cons, List.count_append] at hcount ⊢
    omega

theorem Step.nodup {f : τ → List β} (h : Step act p a p')
    (hact : ∀ others s' th', ∀ th ∈ p.threads, (∀ x ∈ others, x ∈ p.threads) →
      act others p.shared th a s' th' →
      (f th ++ others.flatMap f).Nodup → (f th' ++ others.flatMap f).Nodup)
    (hp : (p.threads.flatMap f).Nodup) : (p'.threads.flatMap f).Nodup := by
  cases h with
  | @intro s th _ s' th' before after h =>
    have hperm (x : τ) : ((before ++ x :: after).flatMap f).Perm
        (f x ++ (before ++ after).flatMap f) := by
      rw [List.flatMap_append, List.flatMap_cons, List.flatMap_append]
      exact List.perm_append_comm_assoc _ _ _
    exact (hperm th').nodup_iff.mpr
      (hact _ s' th' th (by simp) (fun x hx => mem_of_others hx th) h ((hperm th).nodup_iff.mp hp))

theorem Step.pairwise {R : τ → τ → Prop} (hsymm : ∀ {x y}, R x y → R y x) (h : Step act p a p')
    (hact : ∀ others s' th', ∀ th ∈ p.threads, act others p.shared th a s' th' →
      ∀ x ∈ others, R th x → R th' x)
    (hp : p.threads.Pairwise R) : p'.threads.Pairwise R := by
  cases h with
  | @intro s th _ s' th' before after h =>
    obtain ⟨hth, hrest⟩ := List.pairwise_cons.mp ((List.pairwise_middle hsymm).mp hp)
    refine (List.pairwise_middle hsymm).mpr (List.pairwise_cons.mpr ⟨fun x hx => ?_, hrest⟩)
    exact hact _ s' th' th (by simp) h x hx (hth x hx)

end ThreadPool

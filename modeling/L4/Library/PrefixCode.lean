import Mathlib.Data.List.Basic

/-! Encodings from which a reader recovers the value and what follows it. -/

namespace PrefixCode
set_option autoImplicit true

/-- No encoding is a proper start of another one, and no two values have the same encoding. -/
def PrefixFree (encode : α → List σ) : Prop :=
  ∀ a b rest rest', encode a ++ rest = encode b ++ rest' → a = b ∧ rest = rest'

/-- The items of a list, each after a mark, and the end mark after the last one. -/
def marked (encode : α → List σ) (endMark : σ) (items : List (σ × α)) : List σ :=
  (items.flatMap fun item => item.1 :: encode item.2) ++ [endMark]

variable {α β σ : Type} {encode : α → List σ}

/-- A first part, and a second part whose encoding may depend on the first. -/
theorem PrefixFree.append {f : α → List σ} {g : α → β → List σ} (hf : PrefixFree f)
    (hg : ∀ a, PrefixFree (g a)) : PrefixFree fun p : α × β => f p.1 ++ g p.1 p.2 := by
  intro p q rest rest' he
  obtain ⟨a, b⟩ := p
  obtain ⟨a', b'⟩ := q
  simp only [List.append_assoc] at he
  obtain ⟨rfl, hrest⟩ := hf a a' _ _ he
  obtain ⟨rfl, hrest'⟩ := hg a b b' _ _ hrest
  exact ⟨rfl, hrest'⟩

theorem PrefixFree.comap {e : β → α} (h : PrefixFree encode) (he : Function.Injective e) :
    PrefixFree fun b => encode (e b) := by
  intro b b' rest rest' heq
  obtain ⟨hb, hrest⟩ := h _ _ _ _ heq
  exact ⟨he hb, hrest⟩

@[simp] theorem marked_nil (encode : α → List σ) (endMark : σ) :
    marked encode endMark [] = [endMark] := rfl

@[simp] theorem marked_cons (encode : α → List σ) (endMark : σ) (item : σ × α) :
    marked encode endMark (item :: items) =
      item.1 :: encode item.2 ++ marked encode endMark items := by
  simp [marked]

theorem length_lt_marked (encode : α → List σ) (endMark : σ) (items : List (σ × α)) :
    items.length < (marked encode endMark items).length := by
  induction items with
  | nil => simp
  | cons item items ih =>
    simp only [marked_cons, List.length_cons, List.length_append]
    omega

theorem PrefixFree.marked (h : PrefixFree encode) {items items' : List (σ × α)}
    (hmarks : ∀ item ∈ items, item.1 ≠ endMark) (hmarks' : ∀ item ∈ items', item.1 ≠ endMark)
    (he : PrefixCode.marked encode endMark items ++ rest =
      PrefixCode.marked encode endMark items' ++ rest') :
    items = items' ∧ rest = rest' := by
  induction items generalizing items' with
  | nil =>
    cases items' with
    | nil =>
      rw [marked_nil, List.singleton_append, List.singleton_append] at he
      exact ⟨rfl, (List.cons.inj he).2⟩
    | cons item' items' =>
      rw [marked_nil, marked_cons, List.singleton_append, List.append_assoc] at he
      exact absurd (List.cons.inj he).1.symm (hmarks' item' (by simp))
  | cons item items ih =>
    cases items' with
    | nil =>
      rw [marked_nil, marked_cons, List.singleton_append, List.append_assoc] at he
      exact absurd (List.cons.inj he).1 (hmarks item (by simp))
    | cons item' items' =>
      rw [marked_cons, marked_cons, List.append_assoc, List.append_assoc] at he
      obtain ⟨hmark, htail⟩ := List.cons.inj he
      obtain ⟨hvalue, htail⟩ := h _ _ _ _ htail
      obtain ⟨rfl, hrest⟩ := ih (fun i hi => hmarks i (List.mem_cons_of_mem _ hi))
        (fun i hi => hmarks' i (List.mem_cons_of_mem _ hi)) htail
      exact ⟨by rw [Prod.ext hmark hvalue], hrest⟩

end PrefixCode

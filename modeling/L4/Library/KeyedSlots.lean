import Mathlib.Logic.Function.Basic
import Mathlib.Tactic.SplitIfs

/-! Slots that hold keyed items, at most one for each key, as the representation of a map. -/

namespace KeyedSlots
set_option autoImplicit true

variable {ι α κ : Type} (key : α → κ)

/-- No key is held by two slots. -/
def UniqueKeys (slots : ι → Option α) : Prop :=
  ∀ p q a b, slots p = some a → slots q = some b → key a = key b → p = q

/-- The items in the slots are exactly those of the map. -/
def Represents (slots : ι → Option α) (m : κ → Option α) : Prop :=
  ∀ k a, m k = some a ↔ ∃ p, slots p = some a ∧ key a = k

/-- The slot may take an item with the given key: it is empty or holds that key, and no other
slot does. -/
def Admits (slots : ι → Option α) (p : ι) (k : κ) : Prop :=
  (∀ b, slots p = some b → key b = k) ∧ ∀ q b, slots q = some b → key b = k → q = p

variable {key} {slots : ι → Option α} {m : κ → Option α}

theorem uniqueKeys_empty : UniqueKeys key (fun _ : ι => none) := by
  intro p q a b hp
  cases hp

theorem represents_empty : Represents key (fun _ : ι => none) fun _ => none := by
  intro k a
  simp

theorem Represents.eq_none (h : Represents key slots m) :
    m k = none ↔ ∀ p a, slots p = some a → key a ≠ k := by
  rw [Option.eq_none_iff_forall_ne_some]
  constructor
  · rintro hn p a hp rfl
    exact hn a ((h _ a).mpr ⟨p, hp, rfl⟩)
  · intro hn a ha
    obtain ⟨p, hp, hk⟩ := (h k a).mp ha
    exact hn p a hp hk

theorem UniqueKeys.admits (h : UniqueKeys key slots) (hp : slots p = some a) :
    Admits key slots p (key a) := by
  refine ⟨fun b hb => ?_, fun q b hq hk => h q p b a hq hp hk⟩
  obtain rfl := Option.some.inj (hp.symm.trans hb)
  rfl

theorem UniqueKeys.same_slot {slots' : ι → Option α} (h : UniqueKeys key slots)
    (h' : UniqueKeys key slots') (hchange : ∀ r, r ≠ x → slots' r = slots r)
    (hp : slots p = some a) (hq : slots' q = some b) (hk : key a = key b) : p = q := by
  by_cases hx : p = x
  · by_contra hne
    have hqx : slots' q = slots q := hchange q fun heq => hne (hx.trans heq.symm)
    exact hne (h p q a b hp (hqx ▸ hq) hk)
  · exact h' p q a b ((hchange p hx).trans hp) hq hk

variable [DecidableEq ι]

theorem UniqueKeys.update_some (h : UniqueKeys key slots) (hp : Admits key slots p (key a)) :
    UniqueKeys key (Function.update slots p (some a)) := by
  intro q q' b b' hq hq' hk
  simp only [Function.update_apply] at hq hq'
  split_ifs at hq hq' with h1 h2 h2
  · exact h1.trans h2.symm
  · obtain rfl := Option.some.inj hq
    exact absurd (hp.2 q' b' hq' hk.symm) h2
  · obtain rfl := Option.some.inj hq'
    exact absurd (hp.2 q b hq hk) h1
  · exact h q q' b b' hq hq' hk

theorem UniqueKeys.update_none (h : UniqueKeys key slots) :
    UniqueKeys key (Function.update slots p none) := by
  intro q q' b b' hq hq' hk
  simp only [Function.update_apply] at hq hq'
  split_ifs at hq hq'
  exact h q q' b b' hq hq' hk

variable [DecidableEq κ]

theorem Represents.update_some (h : Represents key slots m) (hp : Admits key slots p (key a)) :
    Represents key (Function.update slots p (some a)) (Function.update m (key a) (some a)) := by
  intro k b
  simp only [Function.update_apply]
  constructor
  · intro hb
    split_ifs at hb with hk
    · obtain rfl := Option.some.inj hb
      exact ⟨p, if_pos rfl, hk.symm⟩
    · obtain ⟨q, hq, hkey⟩ := (h k b).mp hb
      refine ⟨q, ?_, hkey⟩
      rw [if_neg, hq]
      rintro rfl
      exact hk (hkey.symm.trans (hp.1 b hq))
  · rintro ⟨q, hq, rfl⟩
    split_ifs at hq with hqp
    · obtain rfl := Option.some.inj hq
      exact if_pos rfl
    · rw [if_neg fun hk => hqp (hp.2 q b hq hk)]
      exact (h _ b).mpr ⟨q, hq, rfl⟩

theorem Represents.update_none (h : Represents key slots m) (hu : UniqueKeys key slots)
    (hp : slots p = some a) :
    Represents key (Function.update slots p none) (Function.update m (key a) none) := by
  intro k b
  simp only [Function.update_apply]
  constructor
  · intro hb
    split_ifs at hb with hk
    obtain ⟨q, hq, hkey⟩ := (h k b).mp hb
    refine ⟨q, ?_, hkey⟩
    rw [if_neg, hq]
    rintro rfl
    obtain rfl := Option.some.inj (hp.symm.trans hq)
    exact hk hkey.symm
  · rintro ⟨q, hq, rfl⟩
    split_ifs at hq with hqp
    rw [if_neg fun hk => hqp (hu q p b a hq hp hk)]
    exact (h _ b).mpr ⟨q, hq, rfl⟩

end KeyedSlots

import Mathlib.Data.BitVec
import Mathlib.Logic.Equiv.Basic

/-! Steps of hash functions that lose nothing. -/

namespace Mixing
set_option autoImplicit true
open Function

section Words
variable {w k r : Nat}

/-- A word shifted by half of its width or more can be taken back with the same step. -/
theorem involutive_xorShift (h : w ≤ 2 * k) : Involutive fun x : BitVec w => x ^^^ x >>> k := by
  intro x
  have hshift : x >>> k >>> k = 0#w := by
    rw [← BitVec.shiftRight_add]
    exact BitVec.ushiftRight_eq_zero (by omega)
  simp only [BitVec.ushiftRight_xor_distrib, hshift]
  rw [BitVec.xor_zero, BitVec.xor_assoc, BitVec.xor_self, BitVec.xor_zero]

theorem bijective_xorShift (h : w ≤ 2 * k) : Bijective fun x : BitVec w => x ^^^ x >>> k :=
  (involutive_xorShift h).bijective

theorem bijective_mul {c d : BitVec w} (h : c * d = 1) : Bijective fun x : BitVec w => x * c := by
  refine bijective_iff_has_inverse.mpr ⟨fun x => x * d, fun x => ?_, fun x => ?_⟩
  · show x * c * d = x
    rw [mul_assoc, h, mul_one]
  · show x * d * c = x
    rw [mul_assoc, mul_comm d, h, mul_one]

theorem bijective_add (y : BitVec w) : Bijective fun x : BitVec w => x + y :=
  (Equiv.addRight y).bijective

theorem bijective_xor (y : BitVec w) : Bijective fun x : BitVec w => x ^^^ y := by
  refine Involutive.bijective fun x => ?_
  show x ^^^ y ^^^ y = x
  rw [BitVec.xor_assoc, BitVec.xor_self, BitVec.xor_zero]

theorem rotateRight_rotateLeft (x : BitVec w) (r : Nat) :
    (x.rotateLeft r).rotateRight r = x := by
  ext i hi
  have hr : r % w < w := Nat.mod_lt _ (by omega)
  rw [BitVec.getElem_rotateRight hi]
  split_ifs with h
  · rw [BitVec.getElem_rotateLeft, dif_neg (by omega)]
    congr 1
    omega
  · rw [BitVec.getElem_rotateLeft, dif_pos (by omega)]
    congr 1
    omega

theorem rotateLeft_rotateRight (x : BitVec w) (r : Nat) :
    (x.rotateRight r).rotateLeft r = x := by
  ext i hi
  have hr : r % w < w := Nat.mod_lt _ (by omega)
  rw [BitVec.getElem_rotateLeft hi]
  split_ifs with h
  · rw [BitVec.getElem_rotateRight, dif_neg (by omega)]
    congr 1
    omega
  · rw [BitVec.getElem_rotateRight, dif_pos (by omega)]
    congr 1
    omega

theorem bijective_rotateLeft (r : Nat) : Bijective fun x : BitVec w => x.rotateLeft r :=
  bijective_iff_has_inverse.mpr
    ⟨fun x => x.rotateRight r, fun x => rotateRight_rotateLeft x r,
      fun x => rotateLeft_rotateRight x r⟩

end Words

section Pairs
variable {α β : Type}

theorem bijective_first {f : β → α → α} (hf : ∀ b, Bijective (f b)) :
    Bijective fun p : α × β => (f p.2 p.1, p.2) := by
  refine ⟨fun p q h => ?_, fun q => ?_⟩
  · obtain ⟨a, b⟩ := p
    obtain ⟨a', b'⟩ := q
    obtain ⟨hfirst, rfl⟩ := Prod.mk.inj h
    exact congrArg (·, b) ((hf b).1 hfirst)
  · obtain ⟨a, ha⟩ := (hf q.2).2 q.1
    exact ⟨(a, q.2), Prod.ext ha rfl⟩

theorem bijective_second {f : α → α} {g : α → β → β} (hf : Bijective f)
    (hg : ∀ a, Bijective (g a)) : Bijective fun p : α × β => (f p.1, g (f p.1) p.2) := by
  refine ⟨fun p q h => ?_, fun q => ?_⟩
  · obtain ⟨a, b⟩ := p
    obtain ⟨a', b'⟩ := q
    obtain ⟨hfirst, hsecond⟩ := Prod.mk.inj h
    obtain rfl := hf.1 hfirst
    exact congrArg (a, ·) ((hg _).1 hsecond)
  · obtain ⟨a, ha⟩ := hf.2 q.1
    obtain ⟨b, hb⟩ := (hg q.1).2 q.2
    exact ⟨(a, b), Prod.ext ha (by simp only [ha, hb])⟩

end Pairs

/-- A step that absorbs a block and loses neither the block nor the state. -/
structure Absorbs (step : σ → β → σ) : Prop where
  state : ∀ b, Bijective fun s => step s b
  block : ∀ s, Bijective (step s)

namespace Absorbs
variable {step : σ → β → σ}

theorem bijective_foldl (h : Absorbs step) (blocks : List β) :
    Bijective fun s => blocks.foldl step s := by
  induction blocks with
  | nil => exact bijective_id
  | cons b blocks ih => exact ih.comp (h.state b)

theorem bijective_block (h : Absorbs step) (before after : List β) (s : σ) :
    Bijective fun b => (before ++ b :: after).foldl step s := by
  simp only [List.foldl_append, List.foldl_cons]
  exact (h.bijective_foldl after).comp (h.block _)

end Absorbs

end Mixing

import Mathlib.Data.Int.CardIntervalMod
import Mathlib.Data.Vector.Basic
import Mathlib.SetTheory.Cardinal.Finite
import Mathlib.Tactic.Ring
import L4.Library.LittleEndian
import L4.Library.Mixing
import L4.SharedHashTable

namespace L4.MurmurHash3
set_option autoImplicit true
open LittleEndian Mixing SharedHashTable
open Function (Bijective)

/-! The hash function of the keys. -/

def rotl64 (x : UInt64) (r : UInt64) : UInt64 := (x <<< r) ||| (x >>> (64 - r))

/-- `getblock`: a word of the data, in the byte order of x64. -/
def getblock (data : List UInt8) (i : Nat) : UInt64 :=
  UInt64.ofNat (ofBytes ((data.drop (8 * i)).take 8))

def fmix (k : UInt64) : UInt64 :=
  let k := k ^^^ k >>> 33
  let k := k * 0xff51afd7ed558ccd
  let k := k ^^^ k >>> 33
  let k := k * 0xc4ceb9fe1a85ec53
  k ^^^ k >>> 33

def c1 : UInt64 := 0x87c37b91114253d5

def c2 : UInt64 := 0x4cf5ad432745937f

def mixK1 (k1 : UInt64) : UInt64 := rotl64 (k1 * c1) 31 * c2

def mixK2 (k2 : UInt64) : UInt64 := rotl64 (k2 * c2) 33 * c1

/-- The two words of the state. -/
abbrev Hash := UInt64 × UInt64

/-- What the body does with a block of 16 bytes. -/
def mixBlock (h : Hash) (k : UInt64 × UInt64) : Hash :=
  let h1 := h.1 ^^^ mixK1 k.1
  let h1 := rotl64 h1 27 + h.2
  let h1 := h1 * 5 + 0x52dce729
  let h2 := h.2 ^^^ mixK2 k.2
  let h2 := rotl64 h2 31 + h1
  let h2 := h2 * 5 + 0x38495ab5
  (h1, h2)

/-- The last bytes of the tail come first. -/
def tailWord (bytes : List UInt8) : UInt64 :=
  bytes.zipIdx.foldr (fun b k => k ^^^ b.1.toUInt64 <<< UInt64.ofNat (8 * b.2)) 0

/-- The `switch` over the number of bytes after the last block. Its cases fall through. -/
def mixTail (h : Hash) (tail : List UInt8) : Hash :=
  let h2 := if 8 < tail.length then h.2 ^^^ mixK2 (tailWord (tail.drop 8)) else h.2
  let h1 := if 0 < tail.length then h.1 ^^^ mixK1 (tailWord (tail.take 8)) else h.1
  (h1, h2)

def finalize (h : Hash) (len : Nat) : Hash :=
  let h1 := h.1 ^^^ UInt64.ofNat len
  let h2 := h.2 ^^^ UInt64.ofNat len
  let h1 := h1 + h2
  let h2 := h2 + h1
  let h1 := fmix h1
  let h2 := fmix h2
  let h1 := h1 + h2
  (h1, h2 + h1)

/-- The words of the blocks of 16 bytes. -/
def blocks (data : List UInt8) : List (UInt64 × UInt64) :=
  (List.range (data.length / 16)).map fun i => (getblock data (i * 2), getblock data (i * 2 + 1))

/-- `MurmurHash3_x64_128` -/
def murmurHash3 (key : List UInt8) (seed : UInt32) : Hash :=
  let h := (blocks key).foldl mixBlock (seed.toUInt64, seed.toUInt64)
  finalize (mixTail h (key.drop (key.length / 16 * 16))) key.length

section Words

theorem bijective_of_toBitVec {f : UInt64 → UInt64} {g : BitVec 64 → BitVec 64}
    (h : ∀ x, (f x).toBitVec = g x.toBitVec) (hg : Bijective g) : Bijective f := by
  refine ⟨fun x y hxy => ?_, fun y => ?_⟩
  · exact UInt64.toBitVec_inj.mp (hg.1 (by rw [← h, ← h, hxy]))
  · obtain ⟨x, hx⟩ := hg.2 y.toBitVec
    exact ⟨⟨x⟩, UInt64.toBitVec_inj.mp ((h ⟨x⟩).trans hx)⟩

theorem bijective_xor (y : UInt64) : Bijective fun x => x ^^^ y :=
  bijective_of_toBitVec (fun _ => rfl) (Mixing.bijective_xor y.toBitVec)

theorem bijective_xorLeft (y : UInt64) : Bijective fun x => y ^^^ x := by
  simp only [UInt64.xor_comm y]
  exact bijective_xor y

theorem bijective_add (y : UInt64) : Bijective fun x => x + y :=
  bijective_of_toBitVec (fun _ => rfl) (Mixing.bijective_add y.toBitVec)

theorem bijective_mul {c d : UInt64} (h : c * d = 1) : Bijective fun x => x * c :=
  bijective_of_toBitVec (fun _ => rfl) (Mixing.bijective_mul (congrArg UInt64.toBitVec h))

theorem toBitVec_mod {r : UInt64} (hr : r.toNat < 64) : (r.toBitVec % 64).toNat = r.toNat := by
  rw [BitVec.toNat_umod]
  exact Nat.mod_eq_of_lt hr

theorem toBitVec_rotl64 (x : UInt64) {r : UInt64} (hr : 0 < r.toNat ∧ r.toNat < 64) :
    (rotl64 x r).toBitVec = x.toBitVec.rotateLeft r.toNat := by
  have hsub : (64 - r).toNat = 64 - r.toNat :=
    UInt64.toNat_sub_of_le _ _ (UInt64.le_iff_toNat_le.mpr (Nat.le_of_lt hr.2))
  rw [rotl64, BitVec.rotateLeft_def, Nat.mod_eq_of_lt hr.2, UInt64.toBitVec_or,
    UInt64.toBitVec_shiftLeft, UInt64.toBitVec_shiftRight, BitVec.shiftLeft_eq',
    BitVec.ushiftRight_eq', toBitVec_mod hr.2, toBitVec_mod (by omega), hsub]

theorem bijective_rotl64 {r : UInt64} (hr : 0 < r.toNat ∧ r.toNat < 64) :
    Bijective fun x => rotl64 x r :=
  bijective_of_toBitVec (fun x => toBitVec_rotl64 x hr) (Mixing.bijective_rotateLeft r.toNat)

theorem bijective_xorShift : Bijective fun x : UInt64 => x ^^^ x >>> 33 :=
  bijective_of_toBitVec (fun _ => rfl) (Mixing.bijective_xorShift (by decide : 64 ≤ 2 * 33))

theorem bijective_fmix : Bijective fmix :=
  have hfirst : (0xff51afd7ed558ccd : UInt64) * 0x4f74430c22a54005 = 1 := by decide
  have hsecond : (0xc4ceb9fe1a85ec53 : UInt64) * 0x9cb4b2f8129337db = 1 := by decide
  bijective_xorShift.comp ((bijective_mul hsecond).comp
    (bijective_xorShift.comp ((bijective_mul hfirst).comp bijective_xorShift)))

theorem c1_mul : c1 * 0xa98409e882ce4d7d = 1 := by decide

theorem c2_mul : c2 * 0xa81e14edd9de2c7f = 1 := by decide

theorem bijective_mixK1 : Bijective mixK1 :=
  (bijective_mul c2_mul).comp ((bijective_rotl64 (by decide)).comp (bijective_mul c1_mul))

theorem bijective_mixK2 : Bijective mixK2 :=
  (bijective_mul c1_mul).comp ((bijective_rotl64 (by decide)).comp (bijective_mul c2_mul))

theorem bijective_mixWord {r : UInt64} (hr : 0 < r.toNat ∧ r.toNat < 64) (b c : UInt64) :
    Bijective fun x => (rotl64 x r + b) * 5 + c :=
  have hfive : (5 : UInt64) * 0xcccccccccccccccd = 1 := by decide
  (bijective_add c).comp ((bijective_mul hfive).comp ((bijective_add b).comp (bijective_rotl64 hr)))

end Words

section State

theorem absorbs_mixBlock : Absorbs mixBlock where
  state k := by
    have hfirst : Bijective fun p : Hash =>
        ((rotl64 (p.1 ^^^ mixK1 k.1) 27 + p.2) * 5 + 0x52dce729, p.2) :=
      bijective_first fun b => (bijective_mixWord (by decide) b _).comp (bijective_xor _)
    have hsecond : Bijective fun p : Hash =>
        (p.1, (rotl64 (p.2 ^^^ mixK2 k.2) 31 + p.1) * 5 + 0x38495ab5) :=
      bijective_second Function.bijective_id
        fun a => (bijective_mixWord (by decide) a _).comp (bijective_xor _)
    have hcomp := hsecond.comp hfirst
    simp only [Function.comp_def] at hcomp
    exact hcomp
  block h := by
    have hfirst : Bijective fun k1 => (rotl64 (h.1 ^^^ mixK1 k1) 27 + h.2) * 5 + 0x52dce729 :=
      (bijective_mixWord (by decide) _ _).comp ((bijective_xorLeft _).comp bijective_mixK1)
    have hsecond (a : UInt64) :
        Bijective fun k2 => (rotl64 (h.2 ^^^ mixK2 k2) 31 + a) * 5 + 0x38495ab5 :=
      (bijective_mixWord (by decide) a _).comp ((bijective_xorLeft _).comp bijective_mixK2)
    exact bijective_second hfirst hsecond

/-- What the tail does to the state. -/
def xorTail (h : Hash) (k : UInt64 × UInt64) : Hash := (h.1 ^^^ mixK1 k.1, h.2 ^^^ mixK2 k.2)

theorem absorbs_xorTail : Absorbs xorTail where
  state k := (bijective_xor (mixK1 k.1)).prodMap (bijective_xor (mixK2 k.2))
  block h := ((bijective_xorLeft h.1).comp bijective_mixK1).prodMap
    ((bijective_xorLeft h.2).comp bijective_mixK2)

theorem mixTail_eq (h : Hash) (tail : List UInt8) :
    mixTail h tail = xorTail h (tailWord (tail.take 8), tailWord (tail.drop 8)) := by
  have hzero1 : mixK1 (tailWord []) = 0 := by decide
  have hzero2 : mixK2 (tailWord []) = 0 := by decide
  refine Prod.ext ?_ ?_
  · by_cases hlength : 0 < tail.length
    · simp only [mixTail, xorTail, if_pos hlength]
    · obtain rfl := List.eq_nil_of_length_eq_zero (by omega : tail.length = 0)
      simp only [mixTail, xorTail, if_neg hlength, List.take_nil, hzero1, UInt64.xor_zero]
  · by_cases hlength : 8 < tail.length
    · simp only [mixTail, xorTail, if_pos hlength]
    · have hshort := List.drop_of_length_le (Nat.le_of_not_lt hlength)
      simp only [mixTail, xorTail, if_neg hlength, hshort, hzero2, UInt64.xor_zero]

theorem bijective_finalize (len : Nat) : Bijective fun h => finalize h len := by
  have hsum : Bijective fun p : Hash => (p.1 + p.2, p.2 + (p.1 + p.2)) :=
    (bijective_second Function.bijective_id bijective_add).comp (bijective_first bijective_add)
  exact hsum.comp ((bijective_fmix.prodMap bijective_fmix).comp
    (hsum.comp ((bijective_xor (UInt64.ofNat len)).prodMap (bijective_xor (UInt64.ofNat len)))))

end State

section Bytes

theorem getblock_append_left (h : 8 * i + 8 ≤ before.length) (after : List UInt8) :
    getblock (before ++ after) i = getblock before i := by
  rw [getblock, getblock, List.drop_append_of_le_length (by omega),
    List.take_append_of_le_length (by rw [List.length_drop]; omega)]

theorem getblock_append_right (h : before.length = 8 * n) (after : List UInt8) (i : Nat) :
    getblock (before ++ after) (n + i) = getblock after i := by
  rw [getblock, getblock, Nat.mul_add, ← h, List.drop_length_add_append]

theorem blocks_append (h : before.length = 16 * n) (after : List UInt8) :
    blocks (before ++ after) = blocks before ++ blocks after := by
  have hlength : (before ++ after).length / 16 = before.length / 16 + after.length / 16 := by
    rw [List.length_append]
    omega
  rw [blocks, hlength, List.range_add, List.map_append, List.map_map]
  congr 1
  · refine List.map_congr_left fun i hi => ?_
    have hi := List.mem_range.mp hi
    rw [getblock_append_left (by omega), getblock_append_left (by omega)]
  · refine List.map_congr_left fun i _ => ?_
    have hfirst : (before.length / 16 + i) * 2 = 2 * n + i * 2 := by omega
    have hsecond : 2 * n + i * 2 + 1 = 2 * n + (i * 2 + 1) := by omega
    have hwords : before.length = 8 * (2 * n) := by omega
    simp only [Function.comp_apply, hfirst, hsecond, getblock_append_right hwords]

theorem toBytes_getblock (h : 8 * i + 8 ≤ data.length) :
    toBytes 8 (getblock data i).toNat = (data.drop (8 * i)).take 8 := by
  have hlength : ((data.drop (8 * i)).take 8).length = 8 := by
    rw [List.length_take, List.length_drop]
    omega
  have hlt := ofBytes_lt ((data.drop (8 * i)).take 8)
  rw [hlength] at hlt
  have hbytes := toBytes_ofBytes ((data.drop (8 * i)).take 8)
  rw [hlength] at hbytes
  rw [getblock, UInt64.toNat_ofNat_of_lt' hlt, hbytes]

theorem bijective_words : Bijective fun block : List.Vector UInt8 16 =>
    (getblock block.toList 0, getblock block.toList 1) := by
  have hbytes (k : UInt64) : UInt64.ofNat (ofBytes (toBytes 8 k.toNat)) = k := by
    rw [ofBytes_toBytes_of_lt (show k.toNat < 256 ^ 8 from k.toNat_lt), UInt64.ofNat_toNat]
  refine ⟨fun x y h => ?_, fun k => ?_⟩
  · obtain ⟨x, hx⟩ := x
    obtain ⟨y, hy⟩ := y
    obtain ⟨hfirst, hsecond⟩ := Prod.mk.inj h
    have hlow := congrArg (fun k => toBytes 8 k.toNat) hfirst
    have hhigh := congrArg (fun k => toBytes 8 k.toNat) hsecond
    simp only [List.Vector.toList_mk] at hlow hhigh
    rw [toBytes_getblock (by omega), toBytes_getblock (by omega)] at hlow hhigh
    rw [List.take_of_length_le (by simp [hx]), List.take_of_length_le (by simp [hy])] at hhigh
    refine Subtype.ext ?_
    calc x = x.take 8 ++ x.drop 8 := (List.take_append_drop 8 x).symm
      _ = y.take 8 ++ y.drop 8 := congrArg₂ _ hlow hhigh
      _ = y := List.take_append_drop 8 y
  · refine ⟨⟨toBytes 8 k.1.toNat ++ toBytes 8 k.2.toNat, by simp⟩, Prod.ext ?_ ?_⟩
    · simp [getblock, hbytes]
    · simp [getblock, List.take_of_length_le, hbytes]

theorem xor_eq_add (h : b < 2 ^ i) (a : Nat) : (2 ^ i * a) ^^^ b = 2 ^ i * a + b := by
  refine Nat.eq_of_testBit_eq fun j => ?_
  rw [Nat.testBit_xor, Nat.testBit_two_pow_mul_add _ h, Nat.testBit_two_pow_mul]
  split_ifs with hj
  · simp [Nat.not_le.mpr hj]
  · have hle : i ≤ j := Nat.le_of_not_lt hj
    have hb := Nat.testBit_lt_two_pow (h.trans_le (Nat.pow_le_pow_right (by decide) hle))
    simp [hle, hb]

theorem toNat_tailWord (h : bytes.length ≤ 8) : (tailWord bytes).toNat = ofBytes bytes := by
  suffices ∀ n, n + bytes.length ≤ 8 →
      ((bytes.zipIdx n).foldr (fun b k => k ^^^ b.1.toUInt64 <<< UInt64.ofNat (8 * b.2)) 0).toNat =
        2 ^ (8 * n) * ofBytes bytes by
    simpa [tailWord] using this 0 (by omega)
  clear h
  induction bytes with
  | nil => simp [ofBytes]
  | cons b bytes ih =>
    intro n hn
    rw [List.length_cons] at hn
    have hb := b.toNat_lt
    have hlow : 2 ^ (8 * n) * b.toNat < 2 ^ (8 * n + 8) := by
      rw [Nat.pow_add]
      exact Nat.mul_lt_mul_of_pos_left hb (Nat.two_pow_pos _)
    have hword : (b.toUInt64 <<< UInt64.ofNat (8 * n)).toNat = 2 ^ (8 * n) * b.toNat := by
      have hle : 2 ^ (8 * n + 8) ≤ 2 ^ 64 := Nat.pow_le_pow_right (by decide) (by omega)
      rw [UInt64.toNat_shiftLeft, UInt8.toNat_toUInt64, Nat.shiftLeft_eq, Nat.mul_comm,
        UInt64.toNat_ofNat_of_lt' (show 8 * n < 2 ^ 64 by omega),
        Nat.mod_eq_of_lt (by omega : 8 * n < 64), Nat.mod_eq_of_lt (by omega)]
    rw [List.zipIdx_cons, List.foldr_cons, UInt64.toNat_xor, ih (n + 1) (by omega), hword,
      Nat.mul_succ, xor_eq_add hlow, ofBytes]
    ring

theorem tailWord_injective (hx : x.length ≤ 8) (hy : y.length = x.length)
    (h : tailWord x = tailWord y) : x = y := by
  have hnat := congrArg UInt64.toNat h
  rw [toNat_tailWord hx, toNat_tailWord (by omega)] at hnat
  rw [← toBytes_ofBytes x, ← toBytes_ofBytes y, hy, hnat]

end Bytes

section Keys
variable {before after : List UInt8}

theorem murmurHash3_append (h : before.length = 16 * n) (after : List UInt8) (seed : UInt32) :
    murmurHash3 (before ++ after) seed =
      finalize (mixTail
        ((blocks before ++ blocks after).foldl mixBlock (seed.toUInt64, seed.toUInt64))
        (after.drop (after.length / 16 * 16))) (before.length + after.length) := by
  have hdrop : (before.length + after.length) / 16 * 16 =
      before.length + after.length / 16 * 16 := by omega
  rw [murmurHash3, blocks_append h, List.length_append, hdrop, List.drop_length_add_append]

/-- All the other bytes of a key fixed, a block has each hash exactly once. -/
theorem bijective_block (h : before.length = 16 * n) (after : List UInt8) (seed : UInt32) :
    Bijective fun block : List.Vector UInt8 16 =>
      murmurHash3 (before ++ block.toList ++ after) seed := by
  have hlength (block : List.Vector UInt8 16) :
      (before ++ block.toList).length = 16 * (n + 1) := by
    rw [List.length_append, block.toList_length, h, Nat.mul_succ]
  have hblocks (block : List.Vector UInt8 16) : blocks block.toList =
      [(getblock block.toList 0, getblock block.toList 1)] := by
    rw [blocks, block.toList_length]
    rfl
  have hhash : (fun block : List.Vector UInt8 16 =>
      murmurHash3 (before ++ block.toList ++ after) seed) =
      (fun h => finalize h (16 * (n + 1) + after.length)) ∘
        (fun h => mixTail h (after.drop (after.length / 16 * 16))) ∘
        (fun b => (blocks before ++ b :: blocks after).foldl mixBlock
          (seed.toUInt64, seed.toUInt64)) ∘
        fun block => (getblock block.toList 0, getblock block.toList 1) := by
    funext block
    rw [murmurHash3_append (hlength block), hlength, blocks_append h, hblocks, List.append_assoc,
      List.singleton_append]
    rfl
  have htail : Bijective fun h => mixTail h (after.drop (after.length / 16 * 16)) := by
    simp only [mixTail_eq]
    exact absorbs_xorTail.state _
  rw [hhash]
  exact (bijective_finalize _).comp
    (htail.comp ((absorbs_mixBlock.bijective_block _ _ _).comp bijective_words))

theorem tail_injective {tail tail' : List UInt8} {seed : UInt32} (h : before.length = 16 * n)
    (hlt : tail.length < 16) (hlength : tail'.length = tail.length)
    (hhash : murmurHash3 (before ++ tail) seed = murmurHash3 (before ++ tail') seed) :
    tail = tail' := by
  have hzero : tail.length / 16 = 0 := Nat.div_eq_of_lt hlt
  have hnil (x : List UInt8) (hx : x.length / 16 = 0) : blocks x = [] := by
    rw [blocks, hx]
    rfl
  simp only [murmurHash3_append h, hnil _ hzero, hnil tail' (hlength ▸ hzero), hlength, hzero,
    Nat.zero_mul, List.drop_zero, mixTail_eq] at hhash
  have hwords := (absorbs_xorTail.block _).1 ((bijective_finalize _).1 hhash)
  obtain ⟨hlow, hhigh⟩ := Prod.mk.inj hwords
  have hfirst : tail.take 8 = tail'.take 8 :=
    tailWord_injective (by simp) (by simp [hlength]) hlow
  have hsecond : tail.drop 8 = tail'.drop 8 :=
    tailWord_injective (by rw [List.length_drop]; omega) (by simp [hlength]) hhigh
  rw [← List.take_append_drop 8 tail, hfirst, hsecond, List.take_append_drop]

/-- Keys of one length that differ within one block only have different hashes. The bytes after the
last block are one more block. -/
theorem murmurHash3_ne (x y : List UInt8) (seed : UInt32) (i : Nat)
    (hlength : x.length = y.length) (hothers : ∀ j, j / 16 ≠ i → x[j]? = y[j]?) (hne : x ≠ y) :
    murmurHash3 x seed ≠ murmurHash3 y seed := by
  refine fun hhash => hne ?_
  have hbefore : x.take (16 * i) = y.take (16 * i) := by
    refine List.ext_getElem? fun j => ?_
    rw [List.getElem?_take, List.getElem?_take]
    split_ifs with hj
    · exact hothers j (by omega)
    · rfl
  have hafter : x.drop (16 * i + 16) = y.drop (16 * i + 16) := by
    refine List.ext_getElem? fun j => ?_
    rw [List.getElem?_drop, List.getElem?_drop]
    exact hothers _ (by omega)
  by_cases hlong : 16 * i ≤ x.length
  · have htake : (x.take (16 * i)).length = 16 * i := List.length_take_of_le hlong
    have hx := List.take_append_drop (16 * i) x
    have hy := List.take_append_drop (16 * i) y
    rw [← hbefore] at hy
    by_cases hblock : 16 * i + 16 ≤ x.length
    · have hsplit (z : List UInt8) : z.drop (16 * i) =
          (z.drop (16 * i)).take 16 ++ z.drop (16 * i + 16) := by
        rw [← List.drop_drop, List.take_append_drop]
      rw [hsplit, ← List.append_assoc] at hx hy
      rw [← hafter] at hy
      have hxlength : ((x.drop (16 * i)).take 16).length = 16 := by
        rw [List.length_take, List.length_drop]
        omega
      have hylength : ((y.drop (16 * i)).take 16).length = 16 := by
        rw [List.length_take, List.length_drop]
        omega
      have heq : (⟨_, hxlength⟩ : List.Vector UInt8 16) = ⟨_, hylength⟩ := by
        refine (bijective_block htake (x.drop (16 * i + 16)) seed).1 ?_
        rw [← hx, ← hy] at hhash
        exact hhash
      have hbytes : (x.drop (16 * i)).take 16 = (y.drop (16 * i)).take 16 :=
        congrArg List.Vector.toList heq
      rw [← hx, ← hy, hbytes]
    · rw [← hx, ← hy] at hhash ⊢
      rw [tail_injective htake (by rw [List.length_drop]; omega) (by simp [hlength]) hhash]
  · have htake (z : List UInt8) (hz : z.length = x.length) : z.take (16 * i) = z :=
      List.take_of_length_le (by omega)
    rw [← htake x rfl, hbefore, htake y hlength.symm]

/-- Keys that differ in the first of two blocks, and have three more bytes. -/
theorem murmurHash3_ne_of_first :
    murmurHash3 (1 :: List.replicate 34 0) 5 ≠ murmurHash3 (2 :: List.replicate 34 0) 5 := by
  refine murmurHash3_ne _ _ 5 0 (by simp) (fun j hj => ?_) (by simp)
  cases j with
  | zero => exact absurd rfl hj
  | succ j => rw [List.getElem?_cons_succ, List.getElem?_cons_succ]

end Keys

section Buckets

/-- The platform with the hash function of the code, which is called with the seed 0. -/
@[reducible] def platform (sizeofMutex sizeofSharedHashTable : Nat) : Platform :=
  ⟨fun key => murmurHash3 key 0, sizeofMutex, sizeofSharedHashTable⟩

open scoped Count in
theorem card_mod {r v : Nat} (hv : v < r) :
    Nat.card {h : UInt64 // h.toNat % r = v} = 2 ^ 64 / r + if v < 2 ^ 64 % r then 1 else 0 := by
  have hequiv : {h : UInt64 // h.toNat % r = v} ≃ {k : Nat // k < 2 ^ 64 ∧ k ≡ v [MOD r]} :=
    { toFun := fun h => ⟨h.1.toNat, h.1.toNat_lt, h.2.trans (Nat.mod_eq_of_lt hv).symm⟩
      invFun := fun k => ⟨UInt64.ofNatLT k.1 k.2.1, by
        rw [UInt64.toNat_ofNatLT]
        exact Eq.trans k.2.2 (Nat.mod_eq_of_lt hv)⟩
      left_inv := fun h => Subtype.ext (UInt64.ofNatLT_toNat _)
      right_inv := fun k => Subtype.ext (UInt64.toNat_ofNatLT (h := k.2.1)) }
  rw [Nat.card_congr hequiv, Nat.card_eq_fintype_card, ← Nat.count_eq_card_fintype,
    Nat.count_modEq_card _ (by omega), Nat.mod_eq_of_lt hv]

theorem card_tag (tag : UInt8) : Nat.card {h : UInt64 // h.toUInt8 = tag} = 2 ^ 56 := by
  have htag (h : UInt64) : h.toUInt8 = tag ↔ h.toNat % 256 = tag.toNat := by
    rw [← UInt8.toNat_inj, UInt64.toNat_toUInt8]
  simp only [htag]
  rw [card_mod (show tag.toNat < 256 from tag.toNat_lt)]
  norm_num

/-- The key with a block of 16 bytes between others. -/
def keyWith (before after : List UInt8) (hsize : before.length + 16 + after.length < 2 ^ 16)
    (block : List.Vector UInt8 16) : Key :=
  ⟨before ++ block.toList ++ after, by simpa [Nat.add_assoc] using hsize⟩

/-- The keys that differ in one block are spread evenly: how many of them go to a bucket with a
tag. -/
theorem card_getBucketInfo (sizeofMutex sizeofSharedHashTable : Nat) (setting : Setting)
    (i : setting.BucketIndex) (tag : UInt8) (before after : List UInt8)
    (hbefore : 16 ∣ before.length) (hsize : before.length + 16 + after.length < 2 ^ 16) :
    let _ : Platform := platform sizeofMutex sizeofSharedHashTable
    Nat.card {block : List.Vector UInt8 16 //
      getBucketInfo setting (keyWith before after hsize block) = .ok (i, tag)} =
        (2 ^ 64 / setting.numBuckets.toNat +
          if i.val < 2 ^ 64 % setting.numBuckets.toNat then 1 else 0) * 2 ^ 56 := by
  intro _
  obtain ⟨n, hn⟩ := hbefore
  have hinfo (block : List.Vector UInt8 16) :
      getBucketInfo setting (keyWith before after hsize block) = .ok (i, tag) ↔
        (murmurHash3 (before ++ block.toList ++ after) 0).1.toNat % setting.numBuckets.toNat = i ∧
          (murmurHash3 (before ++ block.toList ++ after) 0).2.toUInt8 = tag := by
    obtain ⟨j, hj, heq⟩ :=
      getBucketInfo_ok (Setting.numBuckets_ne_zero i) (keyWith before after hsize block)
    rw [heq, Except.ok.injEq, Prod.mk.injEq, Fin.ext_iff, hj]
    rfl
  let hash := Equiv.ofBijective _ (bijective_block hn after 0)
  have hequiv : {block : List.Vector UInt8 16 //
      getBucketInfo setting (keyWith before after hsize block) = .ok (i, tag)} ≃
      {h : UInt64 // h.toNat % setting.numBuckets.toNat = i} × {h : UInt64 // h.toUInt8 = tag} :=
    (hash.subtypeEquiv hinfo).trans Equiv.subtypeProdEquivProd
  rw [Nat.card_congr hequiv, Nat.card_prod, card_mod i.isLt, card_tag]

/-- One of the buckets of a table with three buckets. -/
theorem card_getBucketInfo_of_three :
    let _ : Platform := platform 8 64
    Nat.card {block : List.Vector UInt8 16 //
      getBucketInfo { numBuckets := 3 } (keyWith [] [1] (by decide) block) =
        .ok (⟨0, by decide⟩, 7)} = (2 ^ 64 / 3 + 1) * 2 ^ 56 :=
  card_getBucketInfo 8 64 { numBuckets := 3 } ⟨0, by decide⟩ 7 [] [1] (by decide) (by decide)

end Buckets

end L4.MurmurHash3

import Mathlib.Algebra.Group.Nat.Defs
import Mathlib.Tactic.Common

namespace L4.LocalMemory
set_option autoImplicit true

/-- `tolower` in the C locale. -/
def toLower (c : UInt8) : UInt8 := if 65 ≤ c ∧ c ≤ 90 then c + 32 else c

/-- `CaseInsensitiveStdStringComparer`, which compares up to the first zero. -/
def caseInsensitiveStdStringComparer (str1 str2 : List UInt8) : Bool :=
  decide ((str1.takeWhile (· ≠ 0)).map toLower = (str2.takeWhile (· ≠ 0)).map toLower)

/-- `std::toupper` in the C locale on a signed `char`. -/
def toUpper (c : UInt8) : Int := if 97 ≤ c ∧ c ≤ 122 then c.toNat - 32 else c.toInt8.toInt

/-- `CaseInsensitiveStdStringHasher`, which goes through the whole string. -/
def caseInsensitiveStdStringHasher (hashCombine : UInt64 → Int → UInt64) (str : List UInt8) :
    UInt64 :=
  str.foldl (fun seed c => hashCombine seed (toUpper c)) 0

/-- `CaseInsensitiveStringHasher`, which stops at the first zero. -/
def caseInsensitiveStringHasher (hashCombine : UInt64 → Int → UInt64) (str : List UInt8) :
    UInt64 :=
  caseInsensitiveStdStringHasher hashCombine (str.takeWhile (· ≠ 0))

/-- The strings that a `std::string` can hold. -/
abbrev StdString : Type := { str : List UInt8 // str.length < 2 ^ 63 }

/-- The part of a string that `c_str` shows to a function on C strings. -/
def cString (str : List UInt8) : List UInt8 := str.takeWhile (· ≠ 0)

/-- What an unordered map asks of its two parameters. -/
def HashAgrees (hashCombine : UInt64 → Int → UInt64) (str1 str2 : List UInt8) : Prop :=
  caseInsensitiveStdStringComparer str1 str2 = true →
    caseInsensitiveStdStringHasher hashCombine str1 =
      caseInsensitiveStdStringHasher hashCombine str2

/-- The strings differ in nothing but case. -/
def EqualUpToCase (str1 str2 : List UInt8) : Prop := str1.map toLower = str2.map toLower

theorem toNat_toLower (c : UInt8) :
    (toLower c).toNat = if 65 ≤ c.toNat ∧ c.toNat ≤ 90 then c.toNat + 32 else c.toNat := by
  have hcase : (65 ≤ c ∧ c ≤ 90) ↔ 65 ≤ c.toNat ∧ c.toNat ≤ 90 :=
    and_congr UInt8.le_iff_toNat_le UInt8.le_iff_toNat_le
  have hadd : (c + 32).toNat = (c.toNat + 32) % 2 ^ 8 := UInt8.toNat_add c 32
  rw [toLower]
  split_ifs with h h' h'
  · rw [hadd]
    omega
  · exact absurd (hcase.mp h) h'
  · exact absurd (hcase.mpr h') h
  · rfl

theorem toUpper_eq (c : UInt8) :
    toUpper c = if 97 ≤ c.toNat ∧ c.toNat ≤ 122 then (c.toNat : Int) - 32
      else if c.toNat < 128 then (c.toNat : Int) else (c.toNat : Int) - 256 := by
  have hcase : (97 ≤ c ∧ c ≤ 122) ↔ 97 ≤ c.toNat ∧ c.toNat ≤ 122 :=
    and_congr UInt8.le_iff_toNat_le UInt8.le_iff_toNat_le
  have hlt := c.toNat_lt
  have hsigned : c.toInt8.toInt = (c.toNat : Int).bmod (2 ^ 8) :=
    BitVec.toInt_eq_toNat_bmod c.toBitVec
  rw [toUpper, hsigned, Int.bmod]
  simp only [hcase]
  split_ifs <;> omega

theorem toUpper_eq_iff (a b : UInt8) : toUpper a = toUpper b ↔ toLower a = toLower b := by
  have ha := a.toNat_lt
  have hb := b.toNat_lt
  rw [← UInt8.toNat_inj, toNat_toLower, toNat_toLower, toUpper_eq, toUpper_eq]
  split_ifs <;> omega

theorem map_toUpper_eq_iff {str1 str2 : List UInt8} :
    str1.map toUpper = str2.map toUpper ↔ EqualUpToCase str1 str2 := by
  unfold EqualUpToCase
  induction str1 generalizing str2 with
  | nil => simp
  | cons a str1 ih =>
    cases str2 with
    | nil => simp
    | cons b str2 => simp [ih, toUpper_eq_iff]

theorem caseInsensitiveStdStringComparer_iff {str1 str2 : List UInt8} :
    caseInsensitiveStdStringComparer str1 str2 = true ↔
      EqualUpToCase (cString str1) (cString str2) :=
  decide_eq_true_iff

theorem caseInsensitiveStdStringHasher_eq (hashCombine : UInt64 → Int → UInt64)
    (str : List UInt8) :
    caseInsensitiveStdStringHasher hashCombine str =
      (str.map toUpper).foldl hashCombine 0 :=
  List.foldl_map.symm

theorem caseInsensitiveStdStringHasher_congr (hashCombine : UInt64 → Int → UInt64)
    {str1 str2 : List UInt8} (h : EqualUpToCase str1 str2) :
    caseInsensitiveStdStringHasher hashCombine str1 =
      caseInsensitiveStdStringHasher hashCombine str2 := by
  rw [caseInsensitiveStdStringHasher_eq, caseInsensitiveStdStringHasher_eq,
    map_toUpper_eq_iff.mpr h]

/-- The hasher of C strings stops where the comparer does. -/
theorem caseInsensitiveStringHasher_congr (hashCombine : UInt64 → Int → UInt64)
    {str1 str2 : List UInt8} (h : caseInsensitiveStdStringComparer str1 str2 = true) :
    caseInsensitiveStringHasher hashCombine str1 =
      caseInsensitiveStringHasher hashCombine str2 :=
  caseInsensitiveStdStringHasher_congr hashCombine (caseInsensitiveStdStringComparer_iff.mp h)

/-- A combination that counts how far the characters follow `word`, and gives up at the first
that does not. -/
def recogniser (word : List Int) (seed : UInt64) (c : Int) : UInt64 :=
  if word[seed.toNat]? = some c then seed + 1 else 18446744073709551615

theorem foldl_recogniser_of_lost {word : List Int} (hword : word.length < 2 ^ 63)
    (cs : List Int) :
    cs.foldl (recogniser word) 18446744073709551615 = 18446744073709551615 := by
  induction cs with
  | nil => rfl
  | cons c cs ih =>
    have hnone : word[(18446744073709551615 : UInt64).toNat]? = none :=
      List.getElem?_eq_none (by
        change word.length ≤ 18446744073709551615
        omega)
    rw [List.foldl_cons, recogniser, hnone]
    exact ih

theorem toNat_ofNat_of_lt {n : Nat} (hn : n < 2 ^ 63) : (UInt64.ofNat n).toNat = n :=
  UInt64.toNat_ofNat_of_lt' (by
    change n < 18446744073709551616
    omega)

theorem foldl_recogniser {word : List Int} (hword : word.length < 2 ^ 63) (cs : List Int)
    {n : Nat} (hn : n ≤ word.length) :
    cs.foldl (recogniser word) (UInt64.ofNat n) = UInt64.ofNat word.length ↔
      cs = word.drop n := by
  induction cs generalizing n with
  | nil =>
    rw [List.foldl_nil, eq_comm (a := []), List.drop_eq_nil_iff, ← UInt64.toNat_inj,
      toNat_ofNat_of_lt (by omega), toNat_ofNat_of_lt (by omega)]
    omega
  | cons c cs ih =>
    have hseed : (UInt64.ofNat n).toNat = n := toNat_ofNat_of_lt (by omega)
    rw [List.foldl_cons, recogniser, hseed]
    split_ifs with hc
    · obtain ⟨hlt, rfl⟩ := List.getElem?_eq_some_iff.mp hc
      have hsucc : UInt64.ofNat n + 1 = UInt64.ofNat (n + 1) := (UInt64.ofNat_add n 1).symm
      rw [hsucc, ih hlt, List.drop_eq_getElem_cons hlt]
      simp only [List.cons.injEq, true_and]
    · rw [foldl_recogniser_of_lost hword, ← UInt64.toNat_inj,
        toNat_ofNat_of_lt (by omega)]
      refine iff_of_false ?_ ?_
      · change ¬ 18446744073709551615 = word.length
        omega
      · intro heq
        have hget := congrArg (·[0]?) heq
        simp only [List.getElem?_cons_zero, List.getElem?_drop, Nat.add_zero] at hget
        exact hc hget.symm

theorem equalUpToCase_of_hasher {str1 str2 : List UInt8} (hlt : str1.length < 2 ^ 63)
    (h : ∀ hashCombine, caseInsensitiveStdStringHasher hashCombine str1 =
      caseInsensitiveStdStringHasher hashCombine str2) : EqualUpToCase str1 str2 := by
  have hword : (str1.map toUpper).length < 2 ^ 63 := by
    rw [List.length_map]
    exact hlt
  have hself := (foldl_recogniser hword (str1.map toUpper) (Nat.zero_le _)).mpr rfl
  have hother := h (recogniser (str1.map toUpper))
  rw [caseInsensitiveStdStringHasher_eq, caseInsensitiveStdStringHasher_eq] at hother
  have heq := (foldl_recogniser hword (str2.map toUpper) (Nat.zero_le _)).mp
    (hother.symm.trans hself)
  exact map_toUpper_eq_iff.mp heq.symm

/-- The hash agrees with the comparer if and only if the strings that are the same up to case
before their first zeros are the same up to case after them too. -/
theorem hashAgrees_iff (str1 str2 : StdString) :
    (∀ hashCombine, HashAgrees hashCombine str1 str2) ↔
      ¬ EqualUpToCase (cString str1) (cString str2) ∨ EqualUpToCase str1 str2 := by
  rw [← caseInsensitiveStdStringComparer_iff, or_iff_not_imp_left, not_not]
  constructor
  · intro hagrees hequal
    exact equalUpToCase_of_hasher str1.2 fun hashCombine => hagrees hashCombine hequal
  · intro hequal hashCombine hcompared
    exact caseInsensitiveStdStringHasher_congr hashCombine (hequal hcompared)

/-- A zero at the end is hashed and not compared. -/
theorem not_hashAgrees_of_zero :
    ¬ ∀ (hashCombine : UInt64 → Int → UInt64) (str1 str2 : StdString),
      HashAgrees hashCombine str1 str2 := by
  intro h
  have hhash := h (fun seed c => 31 * seed + UInt64.ofInt c) ⟨[97], by decide⟩
    ⟨[97, 0], by decide⟩ (by decide)
  exact absurd hhash (by decide)

end L4.LocalMemory

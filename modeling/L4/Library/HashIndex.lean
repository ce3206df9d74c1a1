import Mathlib.Data.List.Nodup
import Mathlib.Data.Set.Function
import Mathlib.Order.Interval.Set.Defs

/-! Look-ups of keys that are only distinguished up to an equivalence, directly and by hash. -/

namespace HashIndex
set_option autoImplicit true

variable {κ ν η α : Type}

/-- The value of the first entry whose key is the same as the one looked for. -/
def lookUp (same : κ → κ → Bool) (entries : List (κ × ν)) (key : κ) : Option ν :=
  (entries.find? fun entry => same entry.1 key).map Prod.snd

/-- The look-up that goes through the entries in the place of the key only. -/
def hashedLookUp [DecidableEq η] (place : κ → η) (same : κ → κ → Bool) (entries : List (κ × ν))
    (key : κ) : Option ν :=
  lookUp (fun key' key => decide (place key' = place key) && same key' key) entries key

theorem hashedLookUp_eq [DecidableEq η] {place : κ → η} {same : κ → κ → Bool}
    {entries : List (κ × ν)}
    (h : ∀ entry ∈ entries, same entry.1 key = true → place entry.1 = place key) :
    hashedLookUp place same entries key = lookUp same entries key := by
  induction entries with
  | nil => rfl
  | cons entry entries ih =>
    have hhead := h entry List.mem_cons_self
    have htail := ih fun entry hmem => h entry (List.mem_cons_of_mem _ hmem)
    simp only [hashedLookUp, lookUp, List.find?_cons] at htail ⊢
    cases hsame : same entry.1 key with
    | false => simpa using htail
    | true => simp [hhead hsame]

variable [BEq α] [LawfulBEq α]

theorem lookUp_zipIdx {same : κ → κ → Bool} {fold : κ → α}
    (hsame : ∀ key key', same key key' = true ↔ fold key = fold key') (keys : List κ) (key : κ) :
    lookUp same keys.zipIdx key = (keys.map fold).idxOf? (fold key) := by
  have hpred : (fun key' => same key' key) = fun key' => fold key' == fold key := by
    funext key'
    rw [Bool.eq_iff_iff, hsame, beq_iff_eq]
  calc lookUp same keys.zipIdx key
      = keys.findIdx? fun key' => same key' key :=
        (List.findIdx?_eq_fst_find?_zipIdx (p := fun key' => same key' key)).symm
    _ = keys.findIdx? ((· == fold key) ∘ fold) := by rw [hpred]; rfl
    _ = (keys.map fold).idxOf? (fold key) := List.findIdx?_map.symm

omit [BEq α] [LawfulBEq α] in
theorem getElem?_append_of_some {l l' : List α} {i : Nat} (h : l[i]? = some a) :
    (l ++ l')[i]? = some a :=
  (List.getElem?_append_left (List.getElem?_eq_some_iff.mp h).1).trans h

theorem idxOf?_eq_some_iff {l : List α} (h : l.Nodup) : l.idxOf? a = some i ↔ l[i]? = some a := by
  rw [List.idxOf?_eq_some_iff, List.getElem?_eq_some_iff]
  constructor
  · rintro ⟨hi, ha, -⟩
    exact ⟨hi, ha⟩
  · rintro ⟨hi, ha⟩
    refine ⟨hi, ha, fun j hj heq => ?_⟩
    exact absurd ((List.Nodup.getElem_inj_iff h).mp (heq.trans ha.symm)) (Nat.ne_of_lt hj)

theorem bijOn_idxOf? {l : List α} (h : l.Nodup) :
    Set.BijOn l.idxOf? {a | a ∈ l} (Set.image some (Set.Iio l.length)) := by
  refine ⟨fun a ha => ?_, fun a ha b hb heq => ?_, ?_⟩
  · obtain ⟨i, hi⟩ := Option.isSome_iff_exists.mp (List.isSome_idxOf?.mpr ha)
    obtain ⟨hlt, -⟩ := List.getElem?_eq_some_iff.mp ((idxOf?_eq_some_iff h).mp hi)
    exact ⟨i, hlt, hi.symm⟩
  · obtain ⟨i, hi⟩ := Option.isSome_iff_exists.mp (List.isSome_idxOf?.mpr ha)
    have ha' := (idxOf?_eq_some_iff h).mp hi
    have hb' := (idxOf?_eq_some_iff h).mp (heq.symm.trans hi)
    exact Option.some.inj (ha'.symm.trans hb')
  · rintro - ⟨i, hlt, rfl⟩
    exact ⟨l[i], List.getElem_mem hlt, (idxOf?_eq_some_iff h).mpr (List.getElem?_eq_getElem hlt)⟩

theorem nodup_concat {l : List α} (h : l.Nodup) (ha : l.idxOf? a = none) : (l ++ [a]).Nodup := by
  rw [← List.concat_eq_append]
  exact List.Nodup.concat (List.idxOf?_eq_none_iff.mp ha) h

end HashIndex

import L4.HashTableManager
import L4.Library.HashIndex
import L4.Library.Transition

namespace L4.LocalMemory
set_option autoImplicit true
open Transition

/-- A name of ASCII characters without a zero. -/
def AsciiName (name : List UInt8) : Prop := ∀ c ∈ name, c ≠ 0 ∧ c < 128

instance : DecidablePred AsciiName := fun name =>
  inferInstanceAs (Decidable (∀ c ∈ name, c ≠ 0 ∧ c < 128))

/-- A name without the case of its letters. -/
def foldCase (name : List UInt8) : List UInt8 := name.map toLower

theorem toLower_eq_zero_iff (c : UInt8) : toLower c = 0 ↔ c = 0 := by
  rw [← UInt8.toNat_inj, ← UInt8.toNat_inj, toNat_toLower, UInt8.toNat_zero]
  split_ifs with h
  · exact iff_of_false id (by omega)
  · rfl

theorem toLower_toLower (c : UInt8) : toLower (toLower c) = toLower c := by
  rw [← UInt8.toNat_inj, toNat_toLower, toNat_toLower]
  split_ifs <;> omega

theorem foldCase_foldCase (name : List UInt8) : foldCase (foldCase name) = foldCase name := by
  simp [foldCase, toLower_toLower]

theorem foldCase_cString (name : List UInt8) :
    foldCase (cString name) = cString (foldCase name) := by
  rw [foldCase, cString, cString, foldCase, List.takeWhile_map]
  have hzero : (fun c : UInt8 => decide (c ≠ 0)) ∘ toLower = fun c => decide (c ≠ 0) := by
    funext c
    exact decide_eq_decide.mpr (not_congr (toLower_eq_zero_iff c))
  rw [hzero]

theorem AsciiName.cString_eq (h : AsciiName name) : cString name = name :=
  List.takeWhile_eq_self_iff.mpr fun c hc => decide_eq_true (h c hc).1

theorem comparer_iff_foldCase (str1 str2 : List UInt8) :
    caseInsensitiveStdStringComparer str1 str2 = true ↔
      cString (foldCase str1) = cString (foldCase str2) := by
  rw [caseInsensitiveStdStringComparer_iff, ← foldCase_cString, ← foldCase_cString]
  rfl

theorem AsciiName.of_equalUpToCase (h : AsciiName name) (hequal : EqualUpToCase name' name) :
    AsciiName name' := by
  intro c' hc'
  have hmem : toLower c' ∈ name.map toLower := hequal ▸ List.mem_map_of_mem hc'
  obtain ⟨c, hc, heq⟩ := List.mem_map.mp hmem
  obtain ⟨hne, hlt⟩ := h c hc
  refine ⟨fun hzero => hne ((toLower_eq_zero_iff c).mp ?_), ?_⟩
  · rw [heq, hzero]
    rfl
  · have hcase := congrArg UInt8.toNat heq
    rw [toNat_toLower, toNat_toLower] at hcase
    rw [UInt8.lt_iff_toNat_lt] at hlt ⊢
    change c.toNat < 128 at hlt
    change c'.toNat < 128
    split_ifs at hcase <;> omega

namespace HashTableManager
variable [Platform] [StdStringKeyMap]

/-- A call of `Add` with an ASCII name. -/
structure AddCall where
  config : HashTableConfig
  allocator : Allocator
  ascii : AsciiName config.name

/-- A call of `Add` together with what it returns or throws. -/
def Step (m : HashTableManager) (call : AddCall × Except Failure Nat) (m' : HashTableManager) :
    Prop :=
  m.add call.1.config call.1.allocator = (m', call.2)

/-- The names of the calls that returned, in their order. -/
def added (calls : List (AddCall × Except Failure Nat)) : List (List UInt8) :=
  calls.filterMap fun call => call.2.toOption.map fun _ => call.1.config.name

section
variable (m : HashTableManager)
omit [Platform]

omit [StdStringKeyMap] in
/-- `GetHashTable` of an index, where its assertion holds. -/
def getHashTable (index : Nat) : Option WritableHashTable := m.hashTables[index]?

/-- `GetHashTable` of a name, where its assertion holds. -/
def getHashTableByName (name : List UInt8) : Option WritableHashTable :=
  (m.find name).bind m.getHashTable

end

/-- What the three containers have in common after the calls. -/
structure Consistent (calls : List (AddCall × Except Failure Nat)) (m : HashTableManager) :
    Prop where
  length_eq : m.internalHashTables.length = m.hashTables.length
  find_isSome_iff : ∀ name, AsciiName name →
    ((m.find name).isSome ↔ foldCase name ∈ (added calls).map foldCase)
  bijOn_find : Set.BijOn m.find {folded | folded ∈ (added calls).map foldCase}
    (Set.image some (Set.Iio m.hashTables.length))
  getHashTable_eq : ∀ call index, (call, .ok index) ∈ calls →
    ∀ name, EqualUpToCase name call.config.name →
      ∃ table, m.getHashTableByName name = some table ∧ m.getHashTable index = some table
  findInBucket_eq : ∀ hashCombine bucketCount name, AsciiName name →
    m.findInBucket hashCombine bucketCount name = m.find name

/-- The tables of the first state that are still the tables of the second. -/
structure Keeps (m m' : HashTableManager) : Prop where
  getHashTable : ∀ index table, m.getHashTable index = some table →
    m'.getHashTable index = some table
  internalHashTable : ∀ index table, m.internalHashTable index = some table →
    m'.internalHashTable index = some table

/-- The invariant of the calls: the names are numbered in the order of the tables. -/
structure Numbered (calls : List (AddCall × Except Failure Nat)) (m : HashTableManager) :
    Prop where
  nameToIndex : m.hashTableNameToIndex = (added calls).zipIdx
  internal_length : m.internalHashTables.length = (added calls).length
  length : m.hashTables.length = (added calls).length
  nodup : ((added calls).map foldCase).Nodup
  ascii : ∀ name ∈ added calls, AsciiName name
  index : ∀ call index, (call, .ok index) ∈ calls →
    (added calls)[index]? = some call.config.name

/-- `Add` throws and changes nothing, or it appends to the three containers. -/
theorem add_cases (m : HashTableManager) (config : HashTableConfig) (allocator : Allocator) :
    (∃ e, m.add config allocator = (m, .error e)) ∨
      (m.find config.name = none ∧ ∃ internalHashTable, m.add config allocator =
        ({ hashTableNameToIndex := m.hashTableNameToIndex ++ [(config.name, m.hashTables.length)]
           internalHashTables := m.internalHashTables ++ [internalHashTable]
           hashTables := m.hashTables ++ [⟨m.internalHashTables.length, config.cache⟩] },
          .ok m.hashTables.length)) := by
  by_cases hname : m.find config.name = none
  · by_cases hcache : config.cache.isSome ∧ config.serializer.isSome
    · exact .inl ⟨_, by rw [add, hname, Option.isSome_none, if_neg Bool.false_ne_true,
        if_pos hcache]⟩
    · cases htable : createHashTable config allocator with
      | error e =>
        exact .inl ⟨e, by rw [add, hname, Option.isSome_none, if_neg Bool.false_ne_true,
          if_neg hcache, htable]⟩
      | ok table =>
        exact .inr ⟨hname, table, by rw [add, hname, Option.isSome_none,
          if_neg Bool.false_ne_true, if_neg hcache, htable]⟩
  · exact .inl ⟨_, by rw [add, if_pos (Option.isSome_iff_ne_none.mpr hname)]⟩

theorem add_error {m : HashTableManager} (h : (m.add config allocator).2 = .error e) :
    (m.add config allocator).1 = m := by
  rcases m.add_cases config allocator with ⟨e', hadd⟩ | ⟨-, table, hadd⟩
  · rw [hadd]
  · rw [hadd] at h
    cases h

omit [Platform] [StdStringKeyMap] in
theorem added_concat_error (calls : List (AddCall × Except Failure Nat)) (call : AddCall)
    (e : Failure) : added (calls ++ [(call, .error e)]) = added calls := by
  simp [added, Except.toOption]

omit [Platform] [StdStringKeyMap] in
theorem added_concat_ok (calls : List (AddCall × Except Failure Nat)) (call : AddCall)
    (index : Nat) :
    added (calls ++ [(call, .ok index)]) = added calls ++ [call.config.name] := by
  simp [added, Except.toOption]

omit [Platform] [StdStringKeyMap] in
theorem Numbered.findInBucket_eq (h : Numbered calls m) (hashCombine : UInt64 → Int → UInt64)
    (bucketCount : Nat) (hname : AsciiName name) :
    m.findInBucket hashCombine bucketCount name =
      HashIndex.lookUp caseInsensitiveStdStringComparer m.hashTableNameToIndex name := by
  apply HashIndex.hashedLookUp_eq
  intro entry hentry hsame
  have hkey : entry.1 ∈ added calls := by
    rw [h.nameToIndex] at hentry
    exact List.fst_mem_of_mem_zipIdx hentry
  rw [caseInsensitiveStdStringComparer_iff, (h.ascii _ hkey).cString_eq, hname.cString_eq]
    at hsame
  rw [caseInsensitiveStdStringHasher_congr hashCombine hsame]

omit [Platform] in
theorem Numbered.find_eq (h : Numbered calls m) (hname : AsciiName name) :
    m.find name = ((added calls).map foldCase).idxOf? (foldCase name) := by
  rw [find, h.findInBucket_eq _ _ hname]
  have hfold : HashIndex.lookUp caseInsensitiveStdStringComparer (added calls).zipIdx name =
      ((added calls).map fun key => cString (foldCase key)).idxOf? (cString (foldCase name)) :=
    HashIndex.lookUp_zipIdx comparer_iff_foldCase (added calls) name
  have hmap : (added calls).map (fun key => cString (foldCase key)) =
      (added calls).map foldCase := by
    apply List.map_congr_left
    intro key hkey
    rw [← foldCase_cString, (h.ascii key hkey).cString_eq]
  rw [hmap, ← foldCase_cString, hname.cString_eq, ← h.nameToIndex] at hfold
  exact hfold

omit [Platform] [StdStringKeyMap] in
theorem Numbered.initial : Numbered [] {} where
  nameToIndex := rfl
  internal_length := rfl
  length := rfl
  nodup := .nil
  ascii _ hname := absurd hname List.not_mem_nil
  index _ _ hcall := absurd hcall List.not_mem_nil

theorem Numbered.step (h : Numbered calls m) (hstep : Step m call m') :
    Numbered (calls ++ [call]) m' := by
  obtain ⟨call, result⟩ := call
  rcases m.add_cases call.config call.allocator with ⟨e, hadd⟩ | ⟨hname, table, hadd⟩
  · obtain ⟨rfl, rfl⟩ := Prod.mk.inj (hadd.symm.trans hstep)
    have hadded := added_concat_error calls call e
    refine ⟨?_, ?_, ?_, ?_, ?_, fun call' index hcall => ?_⟩
    · rw [hadded, h.nameToIndex]
    · rw [hadded, h.internal_length]
    · rw [hadded, h.length]
    · rw [hadded]
      exact h.nodup
    · rw [hadded]
      exact h.ascii
    · rcases List.mem_append.mp hcall with hcall | hcall
      · rw [hadded]
        exact h.index call' index hcall
      · cases List.mem_singleton.mp hcall
  · obtain ⟨rfl, rfl⟩ := Prod.mk.inj (hadd.symm.trans hstep)
    have hadded := added_concat_ok calls call m.hashTables.length
    rw [h.find_eq call.ascii] at hname
    refine ⟨?_, ?_, ?_, ?_, fun name hmem => ?_, fun call' index hcall => ?_⟩
    · rw [hadded, h.nameToIndex, h.length, List.zipIdx_append]
      simp
    · rw [hadded, List.length_append, List.length_append, h.internal_length]
      rfl
    · rw [hadded, List.length_append, List.length_append, h.length]
      rfl
    · rw [hadded, List.map_append]
      exact HashIndex.nodup_concat h.nodup hname
    · rw [hadded] at hmem
      rcases List.mem_append.mp hmem with hmem | hmem
      · exact h.ascii name hmem
      · obtain rfl := List.mem_singleton.mp hmem
        exact call.ascii
    · rw [hadded]
      rcases List.mem_append.mp hcall with hcall | hcall
      · exact HashIndex.getElem?_append_of_some (h.index call' index hcall)
      · obtain ⟨rfl, hindex⟩ := Prod.mk.inj (List.mem_singleton.mp hcall)
        obtain rfl := Except.ok.inj hindex
        rw [h.length]
        exact List.getElem?_concat_length

theorem Numbered.of_run (h : Run Step {} calls m) : Numbered calls m :=
  h.history_nil (fun _ _ _ _ hpast hstep => hpast.step hstep) .initial

omit [Platform] in
theorem Numbered.find_foldCase (h : Numbered calls m)
    (hfolded : folded ∈ (added calls).map foldCase) :
    m.find folded = ((added calls).map foldCase).idxOf? folded := by
  obtain ⟨name, hname, rfl⟩ := List.mem_map.mp hfolded
  have hascii : AsciiName (foldCase name) := by
    intro c' hc'
    obtain ⟨c, hc, rfl⟩ := List.mem_map.mp hc'
    obtain ⟨hne, hlt⟩ := h.ascii name hname c hc
    refine ⟨fun hzero => hne ((toLower_eq_zero_iff c).mp hzero), ?_⟩
    rw [UInt8.lt_iff_toNat_lt] at hlt ⊢
    change c.toNat < 128 at hlt
    change (toLower c).toNat < 128
    rw [toNat_toLower]
    split_ifs <;> omega
  rw [h.find_eq hascii, foldCase_foldCase]

omit [Platform] in
theorem Numbered.consistent (h : Numbered calls m) : Consistent calls m where
  length_eq := h.internal_length.trans h.length.symm
  find_isSome_iff name hname := by rw [h.find_eq hname, List.isSome_idxOf?]
  bijOn_find := by
    have hbij := HashIndex.bijOn_idxOf? h.nodup
    rw [List.length_map, ← h.length] at hbij
    exact hbij.congr fun _ hfolded => (h.find_foldCase hfolded).symm
  getHashTable_eq call index hcall name hequal := by
    have hindex := h.index call index hcall
    have hascii := h.ascii _ (List.mem_of_getElem? hindex)
    have hlt : index < m.hashTables.length := by
      rw [h.length]
      exact (List.getElem?_eq_some_iff.mp hindex).1
    have hsame : m.find name = m.find call.config.name := by
      rw [h.find_eq (hascii.of_equalUpToCase hequal), h.find_eq hascii]
      have hfold : foldCase name = foldCase call.config.name := hequal
      rw [hfold]
    have hfind : m.find call.config.name = some index := by
      rw [h.find_eq hascii, HashIndex.idxOf?_eq_some_iff h.nodup, List.getElem?_map, hindex]
      rfl
    refine ⟨m.hashTables[index], ?_, List.getElem?_eq_getElem hlt⟩
    rw [getHashTableByName, hsame, hfind]
    exact List.getElem?_eq_getElem hlt
  findInBucket_eq hashCombine bucketCount _ hname :=
    (h.findInBucket_eq hashCombine bucketCount hname).trans (h.findInBucket_eq _ _ hname).symm

theorem Keeps.step (h : Step m call m') : Keeps m m' := by
  rcases m.add_cases call.1.config call.1.allocator with ⟨e, hadd⟩ | ⟨-, table, hadd⟩
  · obtain ⟨rfl, -⟩ := Prod.mk.inj (hadd.symm.trans h)
    exact ⟨fun _ _ htable => htable, fun _ _ htable => htable⟩
  · obtain ⟨rfl, -⟩ := Prod.mk.inj (hadd.symm.trans h)
    refine ⟨fun index table htable => HashIndex.getElem?_append_of_some htable,
      fun index table htable => ?_⟩
    obtain ⟨hashTable, hindex, hinternal⟩ := Option.bind_eq_some_iff.mp htable
    exact Option.bind_eq_some_iff.mpr ⟨hashTable, HashIndex.getElem?_append_of_some hindex,
      HashIndex.getElem?_append_of_some hinternal⟩

theorem Keeps.of_run (h : Run Step m calls m') : Keeps m m' := by
  refine h.invariant (I := Keeps m) (fun s call s' hkeeps hstep => ?_)
    ⟨fun _ _ htable => htable, fun _ _ htable => htable⟩
  have hlast := Keeps.step hstep
  exact ⟨fun index table htable => hlast.getHashTable _ _ (hkeeps.getHashTable _ _ htable),
    fun index table htable => hlast.internalHashTable _ _ (hkeeps.internalHashTable _ _ htable)⟩

/-- After any calls the three containers agree, the tables stay where they are, and a call that
throws changes nothing. -/
theorem registry_consistent (h : Run Step {} calls m) (hlater : Run Step m later m') :
    Consistent calls m ∧ Keeps m m' ∧
      ∀ (call : AddCall) (e : Failure) (m'' : HashTableManager),
        Step m (call, .error e) m'' → m'' = m := by
  refine ⟨(Numbered.of_run h).consistent, .of_run hlater, fun call e m'' hstep => ?_⟩
  have herror : (m.add call.config call.allocator).2 = .error e := congrArg Prod.snd hstep
  exact (congrArg Prod.fst hstep).symm.trans (add_error herror)

omit [Platform] [StdStringKeyMap] in
/-- A table, one under the same name, which is rejected, and one under another name. -/
theorem registry_consistent_of_names :
    let platform : Platform := ⟨fun _ => (7, 0), 8, 64⟩
    let names : StdStringKeyMap := ⟨fun seed c => 31 * seed + UInt64.ofInt c, fun _ => 11⟩
    let config (name : List UInt8) : HashTableConfig :=
      ⟨name, { numBuckets := 4 }, none, none, by decide⟩
    let calls : List (AddCall × Except Failure Nat) :=
      [(⟨config [97], ⟨0, []⟩, List.forall_mem_singleton.mpr (by decide)⟩, .ok 0),
        (⟨config [65], ⟨0, []⟩, List.forall_mem_singleton.mpr (by decide)⟩,
          .error (.runtimeException "Same hash table name already exists.")),
        (⟨config [98], ⟨0, []⟩, List.forall_mem_singleton.mpr (by decide)⟩, .ok 1)]
    ∃ m, Run Step {} calls m ∧ Consistent calls m ∧ m.hashTables.length = 2 := by
  intro platform names config calls
  let m₁ := (add {} (config [97]) ⟨0, []⟩).1
  let m₂ := (add m₁ (config [65]) ⟨0, []⟩).1
  let m₃ := (add m₂ (config [98]) ⟨0, []⟩).1
  have hfirst : (add {} (config [97]) ⟨0, []⟩).2 = .ok 0 := by decide +kernel
  have hsecond : (add m₁ (config [65]) ⟨0, []⟩).2 =
      .error (.runtimeException "Same hash table name already exists.") := by decide +kernel
  have hthird : (add m₂ (config [98]) ⟨0, []⟩).2 = .ok 1 := by decide +kernel
  have hrun : Run Step {} calls m₃ :=
    .cons (Prod.ext rfl hfirst) (.cons (Prod.ext rfl hsecond) (.single (Prod.ext rfl hthird)))
  exact ⟨m₃, hrun, (registry_consistent hrun (.nil (s := m₃))).1, by decide +kernel⟩

end HashTableManager
end L4.LocalMemory

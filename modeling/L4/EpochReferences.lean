import L4.EpochQueue

namespace L4.EpochQueue
set_option autoImplicit true

/-- The number of live references that the ring counts together with the given epoch. -/
def sharing (live : List Nat) (queueSize epoch : Nat) : Nat :=
  live.countP fun e => e % queueSize = epoch % queueSize

theorem sharing_cons (e : Nat) (live : List Nat) (n epoch : Nat) :
    sharing (e :: live) n epoch =
      sharing live n epoch + if e % n = epoch % n then 1 else 0 := by
  simp [sharing, List.countP_cons]

theorem sharing_append (l l' : List Nat) (n epoch : Nat) :
    sharing (l ++ l') n epoch = sharing l n epoch + sharing l' n epoch :=
  List.countP_append

theorem sharing_le (live : List Nat) (n epoch : Nat) : sharing live n epoch ≤ live.length :=
  List.countP_le_length

theorem not_mem_of_sharing_eq_zero (h : sharing live n epoch = 0) : epoch ∉ live := by
  intro hmem
  simpa using List.countP_eq_zero.mp h epoch hmem

/-- The live references lie between front and back, and each counter of the ring counts the
references at all the epochs that share it. -/
structure References (q : EpochQueue) (live : List Nat) : Prop where
  front_le : q.frontIndex ≤ q.backIndex
  back_fits : q.backIndex < 2 ^ 64
  between : ∀ e ∈ live, q.frontIndex ≤ e ∧ e ≤ q.backIndex
  counts : ∀ epoch, q.refCount epoch = sharing live q.queueSize epoch
  fits : live.length < 2 ^ 32

theorem create_references {size : Nat} (h : create epochCounter size = .ok q)
    (hfits : epochCounter < 2 ^ 64) : q.References [] := by
  simp only [create] at h
  split_ifs at h with hzero
  obtain rfl := Except.ok.inj h
  refine ⟨Nat.le_refl _, hfits, by simp, fun e => ?_, by simp⟩
  have hlt : e % size < size := Nat.mod_lt _ (Nat.pos_of_ne_zero hzero)
  simp [refCount, EpochQueue.queueSize, sharing, hlt]

theorem References.addRef {q : EpochQueue} (h : q.References live)
    (hfits : live.length + 1 < 2 ^ 32) : q.addRef.2.References (q.addRef.1 :: live) := by
  refine ⟨h.front_le, h.back_fits, fun e he => ?_, fun epoch => ?_, hfits⟩
  · rcases List.mem_cons.mp he with rfl | he
    · exact ⟨h.front_le, Nat.le_refl _⟩
    · exact h.between e he
  · have hle := sharing_le live q.queueSize epoch
    simp only [EpochQueue.addRef, modifyRefCount_refCount, modifyRefCount_queueSize,
      h.counts epoch, sharing_cons]
    by_cases he : epoch % q.queueSize = q.backIndex % q.queueSize
    · simp only [he, ↓reduceIte]
      exact Nat.mod_eq_of_lt (by omega)
    · simp [he, Ne.symm he]

theorem References.removeRef {q : EpochQueue} (h : q.References (before ++ e :: after))
    (hq : q.removeRef e = .ok q') : q'.References (before ++ after) := by
  simp only [EpochQueue.removeRef] at hq
  split_ifs at hq with hzero
  obtain rfl := Except.ok.inj hq
  have hfits := h.fits
  simp only [List.length_append, List.length_cons] at hfits
  refine ⟨h.front_le, h.back_fits, fun e' he' => h.between e' ?_, fun epoch => ?_, ?_⟩
  · rcases List.mem_append.mp he' with he' | he'
    · exact List.mem_append_left _ he'
    · exact List.mem_append_right _ (List.mem_cons_of_mem _ he')
  · have hc := h.counts epoch
    simp only [sharing_append, sharing_cons] at hc
    simp only [modifyRefCount_refCount, modifyRefCount_queueSize, hc, sharing_append]
    by_cases he : epoch % q.queueSize = e % q.queueSize
    · simp only [he, ↓reduceIte]
      omega
    · simp [he, Ne.symm he]
  · simp only [List.length_append]
    omega

/-- A live reference is always counted, so giving it back does not throw. -/
theorem References.refCount_ne_zero {q : EpochQueue} (h : q.References live) (he : e ∈ live) :
    q.refCount e ≠ 0 := by
  rw [h.counts e]
  exact fun hzero => not_mem_of_sharing_eq_zero hzero he

theorem References.removeRef_eq {q : EpochQueue} (h : q.References live) (he : e ∈ live) :
    q.checkRef e = .ok () ∧ q.removeRef e = .ok (q.decrementRef e) := by
  have hpos := h.refCount_ne_zero he
  have hlt : q.refCount e < 2 ^ 32 := by
    rw [h.counts e]
    exact Nat.lt_of_le_of_lt (sharing_le live q.queueSize e) h.fits
  refine ⟨if_neg hpos, (if_neg hpos).trans (congrArg Except.ok (modifyRefCount_congr ?_))⟩
  omega

theorem References.decrementRef {q : EpochQueue} (h : q.References (before ++ e :: after)) :
    (q.decrementRef e).References (before ++ after) :=
  h.removeRef (h.removeRef_eq (by simp)).2

theorem References.frontIndex_succ {q : EpochQueue} (h : q.References live)
    (hlt : q.frontIndex < q.backIndex) (hfront : q.frontIndex ∉ live) :
    References { q with frontIndex := (q.frontIndex + 1) % 2 ^ 64 } live := by
  have hback := h.back_fits
  have hmod : (q.frontIndex + 1) % 2 ^ 64 = q.frontIndex + 1 := Nat.mod_eq_of_lt (by omega)
  refine ⟨by simp only [hmod]; omega, hback, fun e he => ?_, h.counts, h.fits⟩
  have hb := h.between e he
  have hne : e ≠ q.frontIndex := by
    rintro rfl
    exact hfront he
  simp only [hmod]
  omega

theorem References.advanceFront {q : EpochQueue} (h : q.References live)
    (hlt : q.frontIndex < q.backIndex) (hfront : q.frontIndex ∉ live) :
    q.advanceFront.References live ∧ q.advanceFront.frontIndex = q.frontIndex + 1 := by
  have hback := h.back_fits
  exact ⟨h.frontIndex_succ hlt hfront, Nat.mod_eq_of_lt (by omega)⟩

theorem References.perm {q : EpochQueue} (h : q.References live) (hp : live.Perm live') :
    q.References live' where
  front_le := h.front_le
  back_fits := h.back_fits
  between e he := h.between e (hp.mem_iff.mpr he)
  counts epoch := (h.counts epoch).trans (hp.countP_eq _)
  fits := hp.length_eq ▸ h.fits

theorem References.front_not_mem {q : EpochQueue} (h : q.References live)
    (hfront : q.frontUnreferenced) : q.frontIndex ∉ live :=
  fun hmem => h.refCount_ne_zero hmem hfront.2

theorem References.getElem_refCounts {q : EpochQueue} (h : q.References live) (i : Nat)
    (hi : i < q.queueSize) : q.refCounts[i]? = some (live.countP (· % q.queueSize = i)) := by
  have hmod : i % q.queueSize = i := Nat.mod_eq_of_lt hi
  have hcount := h.counts i
  have hget : q.refCounts[i]? = some q.refCounts[i] := List.getElem?_eq_getElem hi
  simp only [refCount, sharing, hmod, List.getD_eq_getElem?_getD, hget, Option.getD_some] at hcount
  rw [hget, hcount]

/-- The front moves only past an epoch whose shared counter is zero, so no live reference,
at that epoch or at a congruent one, is left behind. -/
theorem References.removeUnreferencedFront {q : EpochQueue} (h : q.References live)
    (hq : q.removeUnreferencedFront = some q') : q'.References live := by
  simp only [EpochQueue.removeUnreferencedFront] at hq
  split_ifs at hq with hcond
  obtain rfl := Option.some.inj hq
  exact h.frontIndex_succ hcond.1 fun hmem => h.refCount_ne_zero hmem hcond.2

theorem References.addNewEpoch {q : EpochQueue} (h : q.References live)
    (hfits : q.backIndex + 1 < 2 ^ 64) : q.addNewEpoch.References live := by
  have hback : (q.backIndex + 1) % 2 ^ 64 = q.backIndex + 1 := Nat.mod_eq_of_lt hfits
  have hle := h.front_le
  refine ⟨?_, ?_, fun e he => ?_, h.counts, h.fits⟩
  · simp only [EpochQueue.addNewEpoch, hback]
    omega
  · simpa only [EpochQueue.addNewEpoch, hback] using hfits
  · have hb := h.between e he
    simp only [EpochQueue.addNewEpoch, hback]
    omega

end L4.EpochQueue

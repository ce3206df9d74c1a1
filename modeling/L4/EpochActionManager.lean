import Mathlib.Algebra.Group.Nat.Defs
import Mathlib.Data.List.Perm.Basic
import Mathlib.Data.List.TakeWhile
import Mathlib.Tactic.Tauto

namespace L4
set_option autoImplicit true

/-- The `std::map` from an epoch counter to the actions registered at it, in key order. -/
structure EpochToActions (Action : Type) where
  entries : List (Nat × List Action)
  sorted : (entries.map Prod.fst).Pairwise (· < ·)

namespace EpochToActions
variable {Action : Type}

def empty : EpochToActions Action := ⟨[], .nil⟩

/-- `epochToActions[epochCounter].emplace_back(action)` on the entries. -/
def emplaceEntry (epochCounter : Nat) (action : Action) :
    List (Nat × List Action) → List (Nat × List Action)
  | [] => [(epochCounter, [action])]
  | (e, actions) :: rest =>
    if epochCounter < e then (epochCounter, [action]) :: (e, actions) :: rest
    else if epochCounter = e then (e, actions ++ [action]) :: rest
    else (e, actions) :: emplaceEntry epochCounter action rest

theorem mem_keys_emplaceEntry {entries : List (Nat × List Action)}
    (h : k ∈ (emplaceEntry e a entries).map Prod.fst) : k = e ∨ k ∈ entries.map Prod.fst := by
  induction entries with
  | nil => simpa [emplaceEntry] using h
  | cons p rest ih =>
    obtain ⟨e', as⟩ := p
    simp only [emplaceEntry] at h
    split_ifs at h with hlt heq
    · simpa using h
    · exact .inr (by simpa using h)
    · rcases List.mem_cons.mp h with rfl | h
      · exact .inr (by simp)
      · rcases ih h with rfl | h
        · exact .inl rfl
        · exact .inr (List.mem_cons_of_mem _ h)

theorem emplaceEntry_sorted {entries : List (Nat × List Action)}
    (h : (entries.map Prod.fst).Pairwise (· < ·)) :
    ((emplaceEntry e a entries).map Prod.fst).Pairwise (· < ·) := by
  induction entries with
  | nil => simp [emplaceEntry]
  | cons p rest ih =>
    obtain ⟨e', as⟩ := p
    obtain ⟨hhead, htail⟩ := List.pairwise_cons.mp h
    simp only [emplaceEntry]
    split_ifs with hlt heq
    · refine List.pairwise_cons.mpr ⟨fun k hk => ?_, h⟩
      rcases List.mem_cons.mp hk with rfl | hk
      · exact hlt
      · exact hlt.trans (hhead k hk)
    · exact h
    · refine List.pairwise_cons.mpr ⟨fun k hk => ?_, ih htail⟩
      rcases mem_keys_emplaceEntry hk with rfl | hk
      · show e' < _
        omega
      · exact hhead k hk

def emplaceBack (m : EpochToActions Action) (epochCounter : Nat) (action : Action) :
    EpochToActions Action :=
  ⟨emplaceEntry epochCounter action m.entries, emplaceEntry_sorted m.sorted⟩

/-- Every registered action that has not been drained, with its epoch. -/
def pending (m : EpochToActions Action) : List (Nat × Action) :=
  m.entries.flatMap fun p => p.2.map (Prod.mk p.1)

/-- The entries before `lower_bound(epochCounter)`, whose actions are moved out and erased. -/
def drain (m : EpochToActions Action) (epochCounter : Nat) :
    List Action × EpochToActions Action :=
  ((m.entries.takeWhile (·.1 < epochCounter)).flatMap Prod.snd,
    ⟨m.entries.dropWhile (·.1 < epochCounter),
      m.sorted.sublist ((List.dropWhile_sublist _).map _)⟩)

theorem mem_emplaceEntry {entries : List (Nat × List Action)} {x : Nat × Action} :
    (x ∈ (emplaceEntry e a entries).flatMap fun p => p.2.map (Prod.mk p.1)) ↔
      x = (e, a) ∨ x ∈ entries.flatMap fun p => p.2.map (Prod.mk p.1) := by
  induction entries with
  | nil => simp [emplaceEntry]
  | cons p rest ih =>
    obtain ⟨e', as⟩ := p
    simp only [emplaceEntry]
    split_ifs with hlt heq
    · simp
    · subst heq
      simp only [List.flatMap_cons, List.map_append, List.map_cons, List.map_nil,
        List.mem_append, List.mem_singleton]
      tauto
    · simp only [List.flatMap_cons, List.mem_append, ih]
      tauto

theorem mem_pending_emplaceBack {m : EpochToActions Action} {x : Nat × Action} :
    x ∈ (m.emplaceBack e a).pending ↔ x = (e, a) ∨ x ∈ m.pending :=
  mem_emplaceEntry

theorem takeWhile_dropWhile_eq_filter {p : α → Bool} {l : List α}
    (h : l.Pairwise fun a b => p b → p a) :
    l.takeWhile p = l.filter p ∧ l.dropWhile p = l.filter fun a => !p a := by
  induction l with
  | nil => exact ⟨rfl, rfl⟩
  | cons a rest ih =>
    obtain ⟨hhead, htail⟩ := List.pairwise_cons.mp h
    obtain ⟨htake, hdrop⟩ := ih htail
    cases hp : p a with
    | true => simp [hp, htake, hdrop]
    | false =>
      have hrest : ∀ b ∈ rest, p b = false := by
        intro b hb
        exact Bool.eq_false_iff.mpr fun hpb => Bool.false_ne_true (hp ▸ hhead b hb hpb)
      have hnone : rest.filter p = [] := List.filter_eq_nil_iff.mpr (by simpa using hrest)
      have hall : (rest.filter fun a => !p a) = rest :=
        List.filter_eq_self.mpr (by simpa using hrest)
      simp [hp, hnone, hall]

/-- The keys are sorted, so the entries before the bound are those with a smaller key. -/
theorem drain_eq_filter (m : EpochToActions Action) (epochCounter : Nat) :
    (m.drain epochCounter).1 =
        (m.entries.filter (·.1 < epochCounter)).flatMap Prod.snd ∧
      (m.drain epochCounter).2.entries =
        m.entries.filter fun p => !decide (p.1 < epochCounter) := by
  have hsorted : m.entries.Pairwise fun a b =>
      decide (b.1 < epochCounter) → decide (a.1 < epochCounter) :=
    (List.pairwise_map.mp m.sorted).imp fun hlt hb =>
      decide_eq_true (hlt.trans (of_decide_eq_true hb))
  obtain ⟨htake, hdrop⟩ := takeWhile_dropWhile_eq_filter hsorted
  exact ⟨congrArg (List.flatMap Prod.snd) htake, hdrop⟩

theorem mem_drained {m : EpochToActions Action} {x : Action} :
    x ∈ (m.drain epochCounter).1 ↔ ∃ e < epochCounter, (e, x) ∈ m.pending := by
  rw [(m.drain_eq_filter epochCounter).1]
  simp only [pending, List.mem_flatMap, List.mem_filter, List.mem_map, Prod.mk.injEq,
    decide_eq_true_eq]
  constructor
  · rintro ⟨p, ⟨hp, hlt⟩, hx⟩
    exact ⟨p.1, hlt, p, hp, x, hx, rfl, rfl⟩
  · rintro ⟨_, hlt, p, hp, _, hx, rfl, rfl⟩
    exact ⟨p, ⟨hp, hlt⟩, hx⟩

theorem mem_pending_drain {m : EpochToActions Action} {x : Nat × Action} :
    x ∈ (m.drain epochCounter).2.pending ↔ x ∈ m.pending ∧ epochCounter ≤ x.1 := by
  rw [pending, (m.drain_eq_filter epochCounter).2]
  simp only [pending, List.mem_flatMap, List.mem_filter, List.mem_map, Bool.not_eq_true',
    decide_eq_false_iff_not, Nat.not_lt]
  constructor
  · rintro ⟨p, ⟨hp, hle⟩, y, hy, rfl⟩
    exact ⟨⟨p, hp, y, hy, rfl⟩, hle⟩
  · rintro ⟨⟨p, hp, y, hy, rfl⟩, hle⟩
    exact ⟨p, ⟨hp, hle⟩, y, hy, rfl⟩

theorem pending_emplaceBack (m : EpochToActions Action) (epochCounter : Nat) (action : Action) :
    (m.emplaceBack epochCounter action).pending.Perm ((epochCounter, action) :: m.pending) := by
  simp only [emplaceBack, pending]
  induction m.entries with
  | nil => exact .refl _
  | cons p rest ih =>
    obtain ⟨e, actions⟩ := p
    simp only [emplaceEntry]
    split_ifs with hlt heq
    · exact .refl _
    · subst heq
      simp only [List.flatMap_cons, List.map_append, List.map_cons, List.map_nil,
        List.append_assoc, List.singleton_append]
      exact List.perm_middle
    · simp only [List.flatMap_cons]
      exact (ih.append_left _).trans List.perm_middle

theorem map_pending (m : EpochToActions Action) :
    m.pending.map Prod.snd = m.entries.flatMap Prod.snd := by
  have hsnd (e : Nat) : (Prod.snd ∘ Prod.mk e : Action → Action) = id := rfl
  simp only [pending, List.map_flatMap, List.map_map, hsnd, List.map_id]

theorem drain_append (m : EpochToActions Action) (epochCounter : Nat) :
    (m.drain epochCounter).1 ++ (m.drain epochCounter).2.pending.map Prod.snd =
      m.pending.map Prod.snd := by
  rw [map_pending, map_pending]
  simp only [drain]
  rw [← List.flatMap_append, List.takeWhile_append_dropWhile]

end EpochToActions

/-- The action queues and the counter that picks the next one in turn. -/
structure EpochActionManager (Action : Type) where
  epochToActionsList : List (EpochToActions Action)
  counter : Nat

namespace EpochActionManager
variable {Action : Type}

/-- `++m_counter & (m_epochToActionsList.size() - 1)` on 32 and 64 bits. -/
def nextIndex (m : EpochActionManager Action) : Nat :=
  (m.counter + 1) % 2 ^ 32 &&& (m.epochToActionsList.length + (2 ^ 64 - 1)) % 2 ^ 64

def registerAction (m : EpochActionManager Action) (epochCounter : Nat) (action : Action) :
    EpochActionManager Action where
  epochToActionsList :=
    m.epochToActionsList.modify m.nextIndex (·.emplaceBack epochCounter action)
  counter := (m.counter + 1) % 2 ^ 32

/-- The part of `RegisterAction` before the lock: the queue that it picks. -/
def pickQueue (m : EpochActionManager Action) : Nat × EpochActionManager Action :=
  (m.nextIndex, { m with counter := (m.counter + 1) % 2 ^ 32 })

/-- The part of `RegisterAction` under the lock of the queue. -/
def emplaceAction (m : EpochActionManager Action) (index epochCounter : Nat) (action : Action) :
    EpochActionManager Action :=
  { m with
    epochToActionsList := m.epochToActionsList.modify index (·.emplaceBack epochCounter action) }

/-- The actions performed, in order, and the manager after the queues have been drained. -/
def performActions (m : EpochActionManager Action) (epochCounter : Nat) :
    List Action × EpochActionManager Action :=
  (m.epochToActionsList.flatMap fun q => (q.drain epochCounter).1,
    { m with epochToActionsList := m.epochToActionsList.map fun q => (q.drain epochCounter).2 })

def setQueue (m : EpochActionManager Action) (index : Nat) (q : EpochToActions Action) :
    EpochActionManager Action :=
  { m with epochToActionsList := m.epochToActionsList.set index q }

def pending (m : EpochActionManager Action) : List (Nat × Action) :=
  m.epochToActionsList.flatMap EpochToActions.pending

theorem nextIndex_lt {m : EpochActionManager Action} (hpos : 0 < m.epochToActionsList.length)
    (hlt : m.epochToActionsList.length ≤ 2 ^ 64) :
    m.nextIndex < m.epochToActionsList.length := by
  have hmod : (m.epochToActionsList.length + (2 ^ 64 - 1)) % 2 ^ 64 =
      m.epochToActionsList.length - 1 := by
    omega
  have hle : m.nextIndex ≤ m.epochToActionsList.length - 1 := by
    rw [nextIndex, hmod]
    exact Nat.and_le_right
  omega

theorem length_registerAction (m : EpochActionManager Action) (epochCounter : Nat)
    (action : Action) : (m.registerAction epochCounter action).epochToActionsList.length =
      m.epochToActionsList.length :=
  List.length_modify ..

theorem length_performActions (m : EpochActionManager Action) (epochCounter : Nat) :
    (m.performActions epochCounter).2.epochToActionsList.length = m.epochToActionsList.length :=
  List.length_map ..

theorem pending_setQueue {m : EpochActionManager Action}
    (hqueue : m.epochToActionsList[i]? = some q) (q' : EpochToActions Action) :
    ∃ rest, m.pending.Perm (q.pending ++ rest) ∧
      (m.setQueue i q').pending.Perm (q'.pending ++ rest) := by
  obtain ⟨hindex, rfl⟩ := List.getElem?_eq_some_iff.mp hqueue
  refine ⟨(m.epochToActionsList.take i).flatMap EpochToActions.pending ++
    (m.epochToActionsList.drop (i + 1)).flatMap EpochToActions.pending, ?_, ?_⟩
  · have hsplit : m.pending = (m.epochToActionsList.take i).flatMap EpochToActions.pending ++
        (m.epochToActionsList[i].pending ++
          (m.epochToActionsList.drop (i + 1)).flatMap EpochToActions.pending) := by
      rw [← List.flatMap_cons, ← List.drop_eq_getElem_cons hindex, ← List.flatMap_append,
        List.take_append_drop, pending]
    rw [hsplit]
    exact List.perm_append_comm_assoc _ _ _
  · rw [pending, setQueue, List.set_eq_take_append_cons_drop, if_pos hindex, List.flatMap_append,
      List.flatMap_cons]
    exact List.perm_append_comm_assoc _ _ _

theorem emplaceAction_eq {m : EpochActionManager Action}
    (hqueue : m.epochToActionsList[index]? = some q) (epochCounter : Nat) (action : Action) :
    m.emplaceAction index epochCounter action =
      m.setQueue index (q.emplaceBack epochCounter action) := by
  rw [emplaceAction, setQueue, List.modify_eq_set_getElem?, hqueue]
  rfl

theorem pending_emplaceAction {m : EpochActionManager Action}
    (hindex : index < m.epochToActionsList.length) (epochCounter : Nat) (action : Action) :
    (m.emplaceAction index epochCounter action).pending.Perm
      ((epochCounter, action) :: m.pending) := by
  have hqueue := List.getElem?_eq_getElem hindex
  rw [emplaceAction_eq hqueue]
  obtain ⟨rest, hold, hnew⟩ := pending_setQueue hqueue
    (m.epochToActionsList[index].emplaceBack epochCounter action)
  have hemplace := m.epochToActionsList[index].pending_emplaceBack epochCounter action
  exact hnew.trans ((hemplace.append_right rest).trans (hold.symm.cons _))

theorem pending_registerAction {m : EpochActionManager Action}
    (hindex : m.nextIndex < m.epochToActionsList.length) (epochCounter : Nat) (action : Action) :
    (m.registerAction epochCounter action).pending.Perm ((epochCounter, action) :: m.pending) :=
  pending_emplaceAction (m := m.pickQueue.2) hindex epochCounter action

theorem pending_performActions (m : EpochActionManager Action) (epochCounter : Nat) :
    ((m.performActions epochCounter).1 ++
      (m.performActions epochCounter).2.pending.map Prod.snd).Perm (m.pending.map Prod.snd) := by
  simp only [performActions, pending, List.map_flatMap, List.flatMap_map]
  refine (List.flatMap_append_perm _ _ _).trans (.of_eq ?_)
  exact List.flatMap_congr fun q _ => q.drain_append epochCounter

theorem pending_drained {m : EpochActionManager Action}
    (hqueue : m.epochToActionsList[index]? = some q) (epochCounter : Nat) :
    ((q.drain epochCounter).1 ++
        (m.setQueue index (q.drain epochCounter).2).pending.map Prod.snd).Perm
        (m.pending.map Prod.snd) ∧
      ∀ x ∈ (m.setQueue index (q.drain epochCounter).2).pending, x ∈ m.pending := by
  obtain ⟨rest, hold, hnew⟩ := pending_setQueue hqueue (q.drain epochCounter).2
  constructor
  · have hold' := hold.map Prod.snd
    have hnew' := hnew.map Prod.snd
    rw [List.map_append] at hnew'
    rw [List.map_append, ← q.drain_append epochCounter, List.append_assoc] at hold'
    exact (hnew'.append_left _).trans hold'.symm
  · intro x hx
    rw [hold.mem_iff, List.mem_append]
    apply (List.mem_append.mp (hnew.mem_iff.mp hx)).imp_left
    intro hq
    exact (EpochToActions.mem_pending_drain.mp hq).1

theorem mem_pending_registerAction {m : EpochActionManager Action} {x : Nat × Action}
    (h : x ∈ (m.registerAction e a).pending) : x = (e, a) ∨ x ∈ m.pending := by
  simp only [pending, registerAction, List.mem_flatMap] at h ⊢
  obtain ⟨q, hq, hx⟩ := h
  obtain ⟨i, hi⟩ := List.mem_iff_getElem?.mp hq
  rw [List.getElem?_modify, Option.map_eq_map, Option.map_eq_some_iff] at hi
  obtain ⟨q', hq', rfl⟩ := hi
  have hmem := List.mem_of_getElem? hq'
  split_ifs at hx
  · rcases EpochToActions.mem_pending_emplaceBack.mp hx with rfl | hx
    · exact .inl rfl
    · exact .inr ⟨q', hmem, hx⟩
  · exact .inr ⟨q', hmem, hx⟩

theorem mem_pending_registerAction_of_mem {m : EpochActionManager Action} {x : Nat × Action}
    (h : x ∈ m.pending) (epochCounter : Nat) (action : Action) :
    x ∈ (m.registerAction epochCounter action).pending := by
  by_cases hindex : m.nextIndex < m.epochToActionsList.length
  · exact (pending_registerAction hindex epochCounter action).mem_iff.mpr (List.mem_cons_of_mem _ h)
  · have hlist : (m.registerAction epochCounter action).epochToActionsList =
        m.epochToActionsList := List.modify_eq_self (Nat.not_lt.mp hindex)
    rwa [pending, hlist]

theorem mem_performed {m : EpochActionManager Action} {x : Action} :
    x ∈ (m.performActions epochCounter).1 ↔ ∃ e < epochCounter, (e, x) ∈ m.pending := by
  simp only [performActions, pending, List.mem_flatMap, EpochToActions.mem_drained]
  constructor
  · rintro ⟨q, hq, e, he, hx⟩
    exact ⟨e, he, q, hq, hx⟩
  · rintro ⟨e, he, q, hq, hx⟩
    exact ⟨q, hq, e, he, hx⟩

theorem mem_pending_performActions {m : EpochActionManager Action} {x : Nat × Action} :
    x ∈ (m.performActions epochCounter).2.pending ↔ x ∈ m.pending ∧ epochCounter ≤ x.1 := by
  simp only [performActions, pending, List.mem_flatMap, List.mem_map]
  constructor
  · rintro ⟨_, ⟨q, hq, rfl⟩, hx⟩
    obtain ⟨hx, hle⟩ := EpochToActions.mem_pending_drain.mp hx
    exact ⟨⟨q, hq, hx⟩, hle⟩
  · rintro ⟨⟨q, hq, hx⟩, hle⟩
    exact ⟨_, ⟨q, hq, rfl⟩, EpochToActions.mem_pending_drain.mpr ⟨hx, hle⟩⟩

end EpochActionManager

end L4

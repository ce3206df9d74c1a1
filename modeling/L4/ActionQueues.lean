import Mathlib.Data.List.Nodup
import L4.EpochActionManager
import L4.Library.Transition

namespace L4
set_option autoImplicit true

namespace EpochToActions
variable {Action : Type}

/-- `lower_bound`: the key of the entry that the iterator points at, if it is not at the end. -/
def lowerBound (m : EpochToActions Action) (epochCounter : Nat) : Option Nat :=
  (m.entries.map Prod.fst).find? (epochCounter ≤ ·)

/-- The loop of `PerformActions` over the entries of a queue. It moves out the actions of an entry
and erases it, until it comes to the entry that `endIt` points at. -/
def moveActions (endIt : Option Nat) :
    List (Nat × List Action) → List Action → List Action × List (Nat × List Action)
  | [], actionsToPerform => (actionsToPerform, [])
  | (e, actions) :: rest, actionsToPerform =>
    if endIt = some e then (actionsToPerform, (e, actions) :: rest)
    else moveActions endIt rest (actionsToPerform ++ actions)

theorem moveActions_eq (m : EpochToActions Action) (epochCounter : Nat)
    (actionsToPerform : List Action) :
    moveActions (m.lowerBound epochCounter) m.entries actionsToPerform =
      (actionsToPerform ++ (m.drain epochCounter).1, (m.drain epochCounter).2.entries) := by
  obtain ⟨entries, hsorted⟩ := m
  simp only [lowerBound, drain]
  induction entries generalizing actionsToPerform with
  | nil => simp [moveActions]
  | cons p rest ih =>
    obtain ⟨e, actions⟩ := p
    obtain ⟨hhead, htail⟩ := List.pairwise_cons.mp hsorted
    by_cases hlt : e < epochCounter
    · have hfind : (((e, actions) :: rest).map Prod.fst).find? (epochCounter ≤ ·) =
          (rest.map Prod.fst).find? (epochCounter ≤ ·) :=
        List.find?_cons_of_neg (by simpa using hlt)
      have hend : (rest.map Prod.fst).find? (epochCounter ≤ ·) ≠ some e := by
        intro hfound
        exact absurd (hhead e (List.mem_of_find?_eq_some hfound)) (Nat.lt_irrefl e)
      rw [hfind, moveActions, if_neg hend, ih _ htail]
      simp [hlt]
    · have hfind : (((e, actions) :: rest).map Prod.fst).find? (epochCounter ≤ ·) = some e :=
        List.find?_cons_of_pos (by simpa using hlt)
      rw [hfind, moveActions, if_pos rfl]
      simp [hlt]

/-- The actions to perform and the queue after the loop. -/
def moveOut (m : EpochToActions Action) (epochCounter : Nat) (actionsToPerform : List Action) :
    List Action × EpochToActions Action :=
  let moved := moveActions (m.lowerBound epochCounter) m.entries actionsToPerform
  have hsorted : (moved.2.map Prod.fst).Pairwise (· < ·) := by
    simp only [moved, moveActions_eq]
    exact (m.drain epochCounter).2.sorted
  (moved.1, ⟨moved.2, hsorted⟩)

theorem moveOut_eq (m : EpochToActions Action) (epochCounter : Nat)
    (actionsToPerform : List Action) : m.moveOut epochCounter actionsToPerform =
      (actionsToPerform ++ (m.drain epochCounter).1, (m.drain epochCounter).2) := by
  simp only [moveOut, moveActions_eq]

end EpochToActions

/-- A call of `RegisterAction`. Calls are told apart by their numbers. -/
structure Registration (Action : Type) where
  number : Nat
  epochCounter : Nat
  action : Action
deriving DecidableEq

namespace ActionQueues
open Transition (Run)
variable {Action : Type}

/-- Where the thread stands that calls `PerformActions`. -/
inductive Performer (Action : Type) where
  | idle
  | collecting (epochCounter index : Nat) (actionsToPerform : List (Registration Action))
  | applying (epochCounter : Nat) (actionsToPerform : List (Registration Action)) (performed : Nat)

/-- The manager, the calls of `RegisterAction` before the lock of the queue that they have
picked, and the number of calls so far. -/
structure System (Action : Type) where
  manager : EpochActionManager (Registration Action)
  registering : List (Nat × Registration Action)
  performer : Performer Action
  numCalls : Nat

/-- What a step shows: the calls, what they have done and what they return. -/
inductive Label (Action : Type) where
  | registerAction (r : Registration Action)
  | registered (r : Registration Action)
  | performActions (epochCounter : Nat)
  | performed (r : Registration Action)
  | returned (count : Nat)
  | silent

inductive Step : System Action → Label Action → System Action → Prop
  | registerAction (epochCounter : Nat) (action : Action) :
      Step s (.registerAction ⟨s.numCalls, epochCounter, action⟩)
        { s with
          manager := s.manager.pickQueue.2
          registering := s.registering ++
            [(s.manager.pickQueue.1, ⟨s.numCalls, epochCounter, action⟩)]
          numCalls := s.numCalls + 1 }
  | registered (hcall : s.registering = before ++ (index, r) :: after) :
      Step s (.registered r)
        { s with
          manager := s.manager.emplaceAction index r.epochCounter r
          registering := before ++ after }
  | performActions (epochCounter : Nat) (hidle : s.performer = .idle) :
      Step s (.performActions epochCounter) { s with performer := .collecting epochCounter 0 [] }
  | collect (epochCounter : Nat)
      (hphase : s.performer = .collecting epochCounter index actionsToPerform)
      (hqueue : s.manager.epochToActionsList[index]? = some q) :
      Step s .silent
        { s with
          manager := s.manager.setQueue index (q.moveOut epochCounter actionsToPerform).2
          performer := .collecting epochCounter (index + 1)
            (q.moveOut epochCounter actionsToPerform).1 }
  | endCollect (hphase : s.performer = .collecting epochCounter index actionsToPerform)
      (hend : s.manager.epochToActionsList[index]? = none) :
      Step s .silent { s with performer := .applying epochCounter actionsToPerform 0 }
  | perform (hphase : s.performer = .applying epochCounter actionsToPerform performed)
      (hnext : actionsToPerform[performed]? = some r) :
      Step s (.performed r)
        { s with performer := .applying epochCounter actionsToPerform (performed + 1) }
  | returns (actionsToPerform : List (Registration Action))
      (hphase : s.performer = .applying epochCounter actionsToPerform performed)
      (hend : actionsToPerform[performed]? = none) :
      Step s (.returned actionsToPerform.length) { s with performer := .idle }

/-- Empty queues, with any value of the counter. -/
def initial (queues : Nat) (counter : UInt32) : System Action :=
  ⟨⟨.replicate queues .empty, counter.toNat⟩, [], .idle, 0⟩

def Label.called? : Label Action → Option (Registration Action)
  | .registerAction r => some r
  | _ => none

def Label.registered? : Label Action → Option (Registration Action)
  | .registered r => some r
  | _ => none

def Label.performed? : Label Action → Option (Registration Action)
  | .performed r => some r
  | _ => none

/-- The registrations that have been completed. -/
def registered (labels : List (Label Action)) : List (Registration Action) :=
  labels.filterMap Label.registered?

/-- The actions that have been performed, in order. -/
def performed (labels : List (Label Action)) : List (Registration Action) :=
  labels.filterMap Label.performed?

/-- The actions that have been moved out of the queues and not yet performed. -/
def Performer.moved : Performer Action → List (Registration Action)
  | .idle => []
  | .collecting _ _ actionsToPerform => actionsToPerform
  | .applying _ actionsToPerform performed => actionsToPerform.drop performed

/-- The registered actions that have not been performed. -/
def System.held (s : System Action) : List (Registration Action) :=
  s.manager.pending.map Prod.snd ++ s.performer.moved

/-- The calls of `RegisterAction`, completed or not. -/
def System.calls (s : System Action) (past : List (Label Action)) : List (Registration Action) :=
  s.registering.map Prod.snd ++ registered past

theorem registered_snoc (past : List (Label Action)) (a : Label Action) :
    registered (past ++ [a]) = registered past ++ a.registered?.toList := by
  cases a <;> simp [registered, Label.registered?]

theorem performed_snoc (past : List (Label Action)) (a : Label Action) :
    performed (past ++ [a]) = performed past ++ a.performed?.toList := by
  cases a <;> simp [performed, Label.performed?]

section Step
variable {s s' : System Action} {a : Label Action}

theorem Step.calls (h : Step s a s') (past : List (Label Action)) :
    (s'.calls (past ++ [a])).Perm (a.called?.toList ++ s.calls past) := by
  rw [System.calls, System.calls, registered_snoc]
  cases h with
  | registerAction epochCounter action =>
    simp only [List.map_append, List.map_cons, List.map_nil, List.append_assoc]
    exact List.perm_middle.trans (.of_eq (by simp [Label.called?, Label.registered?]))
  | @registered before _ r after _ hcall =>
    rw [hcall]
    simp only [List.map_append, List.map_cons, List.append_assoc, List.cons_append]
    have hmoved := List.perm_append_singleton r
      (before.map Prod.snd ++ (after.map Prod.snd ++ ActionQueues.registered past))
    refine .trans (.of_eq ?_) (hmoved.trans List.perm_middle.symm)
    simp [Label.registered?]
  | _ => exact .of_eq (by simp [Label.called?, Label.registered?])

theorem Step.held (h : Step s a s')
    (hindex : ∀ call ∈ s.registering, call.1 < s.manager.epochToActionsList.length) :
    (a.performed?.toList ++ s'.held).Perm (a.registered?.toList ++ s.held) := by
  cases h with
  | registerAction epochCounter action => exact .refl _
  | registered hcall =>
    have hlt := hindex _ (hcall ▸ List.mem_append_right _ List.mem_cons_self)
    have hpending := EpochActionManager.pending_emplaceAction hlt
    exact ((hpending _ _).map Prod.snd).append_right _
  | performActions epochCounter hidle =>
    simp only [System.held, hidle]
    exact .refl _
  | collect epochCounter hphase hqueue =>
    have hdrained := (EpochActionManager.pending_drained hqueue epochCounter).1
    simp only [System.held, hphase, EpochToActions.moveOut_eq, Performer.moved, Label.performed?,
      Label.registered?, Option.toList_none, List.nil_append]
    refine .trans ?_ (hdrained.append_right _)
    exact (List.perm_append_comm.trans (.of_eq (List.append_assoc ..))).trans List.perm_append_comm
  | endCollect hphase hend =>
    simp only [System.held, hphase]
    exact .refl _
  | perform hphase hnext =>
    obtain ⟨hlt, rfl⟩ := List.getElem?_eq_some_iff.mp hnext
    simp only [System.held, hphase, Performer.moved, List.drop_eq_getElem_cons hlt]
    exact (List.perm_middle : (s.manager.pending.map Prod.snd ++ _ :: _).Perm _).symm
  | returns _ hphase hend =>
    simp only [System.held, hphase, Performer.moved,
      List.drop_eq_nil_of_le (List.getElem?_eq_none_iff.mp hend)]
    exact .refl _

end Step

/-- What holds between the labels of a run and its state: no call has the number of another, and
what has been registered has been performed or is still there. -/
structure Invariant (queues : Nat) (past : List (Label Action)) (s : System Action) : Prop where
  length : s.manager.epochToActionsList.length = queues
  index_lt : ∀ call ∈ s.registering, call.1 < queues
  epochs : ∀ x ∈ s.manager.pending, x.1 = x.2.epochCounter
  nodup : ((s.calls past).map Registration.number).Nodup
  number_lt : ∀ r ∈ s.calls past, r.number < s.numCalls
  conserved : (performed past ++ s.held).Perm (registered past)

theorem pending_initial (queues : Nat) (counter : UInt32) :
    (initial queues counter : System Action).manager.pending = [] := by
  apply List.flatMap_eq_nil_iff.mpr
  intro q hq
  rw [List.eq_of_mem_replicate hq]
  rfl

theorem Invariant.initial (queues : Nat) (counter : UInt32) :
    Invariant queues [] (initial queues counter : System Action) where
  length := List.length_replicate
  index_lt := by
    intro call hcall
    cases hcall
  epochs := by
    intro x hx
    rw [pending_initial] at hx
    cases hx
  nodup := .nil
  number_lt := by
    intro r hr
    cases hr
  conserved := by
    rw [System.held, pending_initial]
    exact .refl _

section Invariant
variable {s s' : System Action} {a : Label Action}

theorem nextIndex_lt_of_length {m : EpochActionManager (Registration Action)} (hpos : 0 < queues)
    (hsize : queues ≤ 2 ^ 64) (hlength : m.epochToActionsList.length = queues) :
    m.nextIndex < queues := by
  rw [← hlength] at hpos hsize ⊢
  exact EpochActionManager.nextIndex_lt hpos hsize

theorem Step.numCalls (h : Step s a s') : s.numCalls ≤ s'.numCalls ∧
    ∀ r ∈ a.called?, r.number = s.numCalls ∧ s'.numCalls = s.numCalls + 1 := by
  cases h with
  | registerAction epochCounter action =>
    refine ⟨Nat.le_succ _, ?_⟩
    intro r hr
    obtain rfl := Option.some.inj hr
    exact ⟨rfl, rfl⟩
  | _ =>
    refine ⟨Nat.le_refl _, ?_⟩
    intro r hr
    cases hr

theorem Invariant.step (hpos : 0 < queues) (hsize : queues ≤ 2 ^ 64)
    (h : Invariant queues past s) (hs : Step s a s') : Invariant queues (past ++ [a]) s' := by
  have hcalls := hs.calls past
  obtain ⟨hnum, hcalled⟩ := hs.numCalls
  have hnumber : ∀ r ∈ s'.calls (past ++ [a]), r.number < s'.numCalls := by
    intro r hr
    rcases List.mem_append.mp (hcalls.mem_iff.mp hr) with hr | hr
    · obtain ⟨hnumber, hnext⟩ := hcalled r (Option.mem_toList.mp hr)
      omega
    · exact Nat.lt_of_lt_of_le (h.number_lt r hr) hnum
  have hnodup : ((s'.calls (past ++ [a])).map Registration.number).Nodup := by
    rw [(hcalls.map Registration.number).nodup_iff, List.map_append, List.nodup_append]
    refine ⟨?_, h.nodup, ?_⟩
    · cases a.called? <;> simp
    · intro n hn n' hn' heq
      obtain ⟨r, hr, rfl⟩ := List.mem_map.mp hn
      obtain ⟨r', hr', rfl⟩ := List.mem_map.mp hn'
      have hlt := h.number_lt r' hr'
      have hnext := (hcalled r (Option.mem_toList.mp hr)).1
      omega
  have hconserved : (performed (past ++ [a]) ++ s'.held).Perm (registered (past ++ [a])) := by
    rw [performed_snoc, registered_snoc, List.append_assoc]
    refine ((hs.held (h.length ▸ h.index_lt)).append_left _).trans ?_
    exact (List.perm_append_comm_assoc _ _ _).trans
      ((h.conserved.append_left _).trans List.perm_append_comm)
  cases hs with
  | registerAction epochCounter action =>
    refine ⟨h.length, ?_, h.epochs, hnodup, hnumber, hconserved⟩
    intro call hcall
    rcases List.mem_append.mp hcall with hcall | hcall
    · exact h.index_lt call hcall
    · rw [List.mem_singleton.mp hcall]
      exact nextIndex_lt_of_length hpos hsize h.length
  | registered hcall =>
    have hlt := h.index_lt _ (hcall ▸ List.mem_append_right _ List.mem_cons_self)
    have hpending := EpochActionManager.pending_emplaceAction (h.length ▸ hlt)
    refine ⟨(List.length_modify ..).trans h.length, ?_, ?_, hnodup, hnumber, hconserved⟩
    · intro call hmem
      apply h.index_lt call
      rw [hcall]
      exact ((List.sublist_cons_self _ _).append_left _).subset hmem
    · intro x hx
      rcases List.mem_cons.mp ((hpending _ _).mem_iff.mp hx) with rfl | hx
      · rfl
      · exact h.epochs x hx
  | collect epochCounter hphase hqueue =>
    refine ⟨List.length_set.trans h.length, h.index_lt, ?_, hnodup, hnumber, hconserved⟩
    intro x hx
    rw [EpochToActions.moveOut_eq] at hx
    exact h.epochs x ((EpochActionManager.pending_drained hqueue _).2 x hx)
  | _ => exact ⟨h.length, h.index_lt, h.epochs, hnodup, hnumber, hconserved⟩

/-- The action is in a queue that the loop over the queues has not reached. -/
def Ahead (m : EpochActionManager (Registration Action)) (index : Nat) (r : Registration Action) :
    Prop :=
  ∃ i q, index ≤ i ∧ m.epochToActionsList[i]? = some q ∧ (r.epochCounter, r) ∈ q.pending

theorem Ahead.emplaceAction {m : EpochActionManager (Registration Action)} (h : Ahead m index r)
    (picked epochCounter : Nat) (action : Registration Action) :
    Ahead (m.emplaceAction picked epochCounter action) index r := by
  obtain ⟨i, q, hle, hqueue, hmem⟩ := h
  refine ⟨i, if picked = i then q.emplaceBack epochCounter action else q, hle, ?_, ?_⟩
  · simp only [EpochActionManager.emplaceAction, List.getElem?_modify, hqueue]
    split_ifs <;> rfl
  · split_ifs
    · exact EpochToActions.mem_pending_emplaceBack.mpr (.inr hmem)
    · exact hmem

theorem Ahead.collect {m : EpochActionManager (Registration Action)} (h : Ahead m index r)
    (hlt : r.epochCounter < epochCounter) (hqueue : m.epochToActionsList[index]? = some q)
    (actionsToPerform : List (Registration Action)) :
    r ∈ (q.moveOut epochCounter actionsToPerform).1 ∨
      Ahead (m.setQueue index (q.moveOut epochCounter actionsToPerform).2) (index + 1) r := by
  obtain ⟨i, q', hle, hqueue', hmem⟩ := h
  rcases Nat.eq_or_lt_of_le hle with rfl | hne
  · left
    obtain rfl := Option.some.inj (hqueue.symm.trans hqueue')
    rw [EpochToActions.moveOut_eq]
    exact List.mem_append_right _ (EpochToActions.mem_drained.mpr ⟨_, hlt, hmem⟩)
  · exact .inr ⟨i, q', hne, (List.getElem?_set_ne (Nat.ne_of_lt hne)).trans hqueue', hmem⟩

/-- While a call of `PerformActions` is under way, everything below its epoch that was pending when
it began is in a queue still ahead of it or among the actions to perform. -/
def Calling (epochCounter : Nat) (earlier done : List (Registration Action)) (s : System Action) :
    Prop :=
  match s.performer with
  | .idle => False
  | .collecting e index actionsToPerform =>
    e = epochCounter ∧ done = [] ∧ (∀ r ∈ actionsToPerform, r.epochCounter < epochCounter) ∧
      ∀ r ∈ earlier, r.epochCounter < epochCounter →
        r ∈ actionsToPerform ∨ Ahead s.manager index r
  | .applying e actionsToPerform n =>
    e = epochCounter ∧ done = actionsToPerform.take n ∧
      (∀ r ∈ actionsToPerform, r.epochCounter < epochCounter) ∧
      ∀ r ∈ earlier, r.epochCounter < epochCounter → r ∈ actionsToPerform

theorem Calling.start (h : Invariant queues past s) (hs : Step s (.performActions e) s') :
    Calling e (s.manager.pending.map Prod.snd) [] s' ∧ s.performer = .idle := by
  cases hs with
  | performActions _ hidle =>
    refine ⟨⟨rfl, rfl, ?_, ?_⟩, hidle⟩
    · intro r hr
      cases hr
    · intro r hr _
      obtain ⟨x, hx, rfl⟩ := List.mem_map.mp hr
      obtain ⟨q, hq, hxq⟩ := List.mem_flatMap.mp hx
      obtain ⟨i, hi⟩ := List.mem_iff_getElem?.mp hq
      have hepoch := h.epochs x hx
      exact .inr ⟨i, q, Nat.zero_le i, hi, hepoch ▸ hxq⟩

theorem Calling.congr (h : Calling e earlier done s) (hperformer : s'.performer = s.performer)
    (hahead : ∀ index r, Ahead s.manager index r → Ahead s'.manager index r) :
    Calling e earlier done s' := by
  rw [Calling] at h ⊢
  rw [hperformer]
  cases hphase : s.performer with
  | idle =>
    rw [hphase] at h
    exact h
  | collecting epochCounter index actionsToPerform =>
    rw [hphase] at h
    obtain ⟨he, hdone, hlt, hearlier⟩ := h
    refine ⟨he, hdone, hlt, ?_⟩
    intro r hr hre
    exact (hearlier r hr hre).imp_right (hahead index r)
  | applying epochCounter actionsToPerform n =>
    rw [hphase] at h
    exact h

theorem Calling.step (hinv : Invariant queues past s) (h : Calling e earlier done s)
    (hs : Step s a s') (ha : ∀ n, a ≠ .returned n) :
    Calling e earlier (done ++ a.performed?.toList) s' := by
  cases hs with
  | registerAction epochCounter action =>
    have hnone : done ++ [] = done := List.append_nil done
    exact hnone.symm ▸ h.congr rfl fun index r hr => hr
  | registered hcall =>
    have hnone : done ++ [] = done := List.append_nil done
    exact hnone.symm ▸ h.congr rfl fun index r hr => hr.emplaceAction _ _ _
  | performActions epochCounter hidle =>
    rw [Calling, hidle] at h
    exact h.elim
  | collect epochCounter hphase hqueue =>
    rw [Calling, hphase] at h
    obtain ⟨rfl, rfl, hlt, hearlier⟩ := h
    refine ⟨rfl, rfl, ?_, ?_⟩
    · intro r hr
      rw [EpochToActions.moveOut_eq] at hr
      rcases List.mem_append.mp hr with hr | hr
      · exact hlt r hr
      · obtain ⟨e', he', hmem⟩ := EpochToActions.mem_drained.mp hr
        have hpending := List.mem_flatMap.mpr ⟨_, List.mem_of_getElem? hqueue, hmem⟩
        exact (hinv.epochs _ hpending).symm ▸ he'
    · intro r hr hre
      rcases hearlier r hr hre with hmem | hahead
      · rw [EpochToActions.moveOut_eq]
        exact .inl (List.mem_append_left _ hmem)
      · exact hahead.collect hre hqueue _
  | endCollect hphase hend =>
    rw [Calling, hphase] at h
    obtain ⟨rfl, rfl, hlt, hearlier⟩ := h
    refine ⟨rfl, rfl, hlt, ?_⟩
    intro r hr hre
    rcases hearlier r hr hre with hmem | ⟨i, q, hle, hqueue, -⟩
    · exact hmem
    · rw [List.getElem?_eq_none_iff] at hend
      rw [List.getElem?_eq_none (hend.trans hle)] at hqueue
      cases hqueue
  | perform hphase hnext =>
    rw [Calling, hphase] at h
    obtain ⟨rfl, rfl, hlt, hearlier⟩ := h
    refine ⟨rfl, ?_, hlt, hearlier⟩
    rw [List.take_add_one, hnext]
    rfl
  | returns _ hphase hend => exact absurd rfl (ha _)

theorem Calling.returned (h : Calling e earlier done s) (hs : Step s (.returned n) s') :
    n = done.length ∧ ∀ r ∈ earlier, r.epochCounter < e → r ∈ done := by
  cases hs with
  | returns _ hphase hend =>
    rw [Calling, hphase] at h
    obtain ⟨rfl, rfl, -, hearlier⟩ := h
    rw [List.take_of_length_le (List.getElem?_eq_none_iff.mp hend)]
    exact ⟨rfl, hearlier⟩

theorem Calling.lt (h : Calling e earlier done s) : ∀ r ∈ done, r.epochCounter < e := by
  rw [Calling] at h
  cases hphase : s.performer with
  | idle =>
    rw [hphase] at h
    exact h.elim
  | collecting epochCounter index actionsToPerform =>
    rw [hphase] at h
    obtain ⟨-, rfl, -⟩ := h
    intro r hr
    cases hr
  | applying epochCounter actionsToPerform n =>
    rw [hphase] at h
    obtain ⟨-, rfl, hlt, -⟩ := h
    intro r hr
    exact hlt r (List.mem_of_mem_take hr)

end Invariant

theorem invariant_of_run (hpos : 0 < queues) (hsize : queues ≤ 2 ^ 64)
    (hrun : Run Step (initial queues counter) labels (s : System Action)) :
    Invariant queues labels s :=
  hrun.history (I := Invariant queues) (fun _ _ _ _ h hs => h.step hpos hsize hs)
    (.initial queues counter)

theorem Invariant.nodup_performed {s : System Action} (h : Invariant queues past s) :
    ((performed past).map Registration.number).Nodup := by
  have hcalls := h.nodup
  have hregistered := h.conserved.map Registration.number
  rw [System.calls, List.map_append] at hcalls
  rw [List.map_append] at hregistered
  exact (List.nodup_append.mp (hregistered.nodup_iff.mpr (List.nodup_append.mp hcalls).2.1)).1

section Call
variable {s t u : System Action}

theorem calling_of_run (hpos : 0 < queues) (hsize : queues ≤ 2 ^ 64) (h : Invariant queues before s)
    (hs : Step s (.performActions e) t) (hrun : Run Step t during u)
    (hduring : ∀ n, .returned n ∉ during) :
    Calling e (s.manager.pending.map Prod.snd) (performed during) u := by
  let I (past : List (Label Action)) (u : System Action) : Prop :=
    Invariant queues (before ++ [.performActions e] ++ past) u ∧
      ((∀ n, .returned n ∉ past) →
        Calling e (s.manager.pending.map Prod.snd) (performed past) u)
  have hstep (past : List (Label Action)) (u : System Action) (a : Label Action)
      (u' : System Action) (hu : I past u) (ha : Step u a u') : I (past ++ [a]) u' := by
    obtain ⟨hinv, hcall⟩ := hu
    refine ⟨by simpa using hinv.step hpos hsize ha, ?_⟩
    intro hpast
    rw [performed_snoc]
    apply (hcall fun n hn => hpast n (List.mem_append_left _ hn)).step hinv ha
    rintro n rfl
    exact hpast n (by simp)
  have hstart : I [] t := ⟨by simpa using h.step hpos hsize hs, fun _ => (Calling.start h hs).1⟩
  exact (hrun.history hstep hstart).2 hduring

theorem exists_call (hpos : 0 < queues) (hsize : queues ≤ 2 ^ 64)
    (hrun : Run Step (initial queues counter) (before ++ .performActions e :: (during ++ after))
      (s : System Action)) (hduring : ∀ n, .returned n ∉ during) :
    ∃ t u : System Action, Invariant queues before t ∧ t.performer = .idle ∧
      Calling e (t.manager.pending.map Prod.snd) (performed during) u ∧ Run Step u after s := by
  obtain ⟨t, hbefore, hrest⟩ := hrun.split
  have hinv := invariant_of_run hpos hsize hbefore
  cases hrest with
  | cons hs hrest =>
    obtain ⟨u, hcall, hafter⟩ := hrest.split
    exact ⟨t, u, hinv, (Calling.start hinv hs).2, calling_of_run hpos hsize hinv hs hcall hduring,
      hafter⟩

end Call

/-- However calls of `RegisterAction` and of `PerformActions` interleave, no registration is
performed twice or lost. A call of `PerformActions` performs only what is below its epoch, all of
that which was registered before it, and returns how much it has performed. -/
theorem performed_exactly_once (hpos : 0 < queues) (hsize : queues ≤ 2 ^ 64) (counter : UInt32)
    (hrun : Run Step (initial queues counter) labels (s : System Action)) :
    ((performed labels).map Registration.number).Nodup ∧
    (performed labels ++ s.held).Perm (registered labels) ∧
    (∀ before e during after, labels = before ++ .performActions e :: (during ++ after) →
      (∀ n, .returned n ∉ during) → ∀ r ∈ performed during, r.epochCounter < e) ∧
    ∀ before e during n after,
      labels = before ++ .performActions e :: (during ++ .returned n :: after) →
      (∀ n, .returned n ∉ during) →
      n = (performed during).length ∧
      ∀ r ∈ registered before, r.epochCounter < e →
        ((performed before ++ performed during).map Registration.number).count r.number = 1 := by
  have hinv := invariant_of_run hpos hsize hrun
  refine ⟨hinv.nodup_performed, hinv.conserved, ?_, ?_⟩
  · rintro before e during after rfl hduring
    obtain ⟨t, u, -, -, hcall, -⟩ := exists_call hpos hsize hrun hduring
    exact hcall.lt
  · rintro before e during n after rfl hduring
    obtain ⟨t, u, ht, hidle, hcall, hafter⟩ := exists_call hpos hsize hrun hduring
    cases hafter with
    | cons hs _ =>
      obtain ⟨hcount, hdone⟩ := hcall.returned hs
      refine ⟨hcount, ?_⟩
      intro r hr hlt
      have hmem : r ∈ performed before ++ performed during := by
        have hconserved := ht.conserved
        rw [System.held, hidle, Performer.moved, List.append_nil] at hconserved
        rcases List.mem_append.mp (hconserved.mem_iff.mpr hr) with hr | hr
        · exact List.mem_append_left _ hr
        · exact List.mem_append_right _ (hdone r hr hlt)
      have hnodup : ((performed before ++ performed during).map Registration.number).Nodup := by
        apply List.Nodup.sublist _ hinv.nodup_performed
        simp only [performed, List.filterMap_append, List.filterMap_cons, Label.performed?]
        exact (((List.sublist_append_left _ _)).append_left _).map _
      exact List.count_eq_one_of_mem hnodup (List.mem_map_of_mem hmem)

/-- Two queues and a counter that wraps around; a second registration comes in below the epoch
while the queues are drained, and is left for later. -/
theorem performed_exactly_once_of_stale :
    let r : Registration Unit := ⟨0, 3, ()⟩
    let stale : Registration Unit := ⟨1, 1, ()⟩
    let before : List (Label Unit) := [.registerAction r, .registered r]
    let during : List (Label Unit) :=
      [.silent, .registerAction stale, .silent, .silent, .registered stale, .performed r]
    1 = (performed during).length ∧
      ∀ r ∈ registered before, r.epochCounter < 4 →
        ((performed before ++ performed during).map Registration.number).count r.number = 1 := by
  intro r stale before during
  obtain ⟨s, hrun⟩ : ∃ s, Run Step (initial 2 0xFFFFFFFF)
      (before ++ .performActions 4 :: (during ++ [.returned 1])) s :=
    ⟨_, .cons (.registerAction 3 ()) <| .cons (.registered (show _ = [] ++ _ :: [] from rfl)) <|
      .cons (.performActions 4 rfl) <| .cons (.collect 4 rfl rfl) <|
      .cons (.registerAction 1 ()) <| .cons (.collect 4 rfl rfl) <| .cons (.endCollect rfl rfl) <|
      .cons (.registered (show _ = [] ++ _ :: [] from rfl)) <| .cons (.perform rfl rfl) <|
      .single (.returns [r] rfl rfl)⟩
  exact (performed_exactly_once (by decide) (by decide) 0xFFFFFFFF hrun).2.2.2 before 4 during 1 []
    rfl (by simp [during])

section Alone
variable (epochCounter counter numCalls : Nat) (registering : List (Nat × Registration Action))

theorem run_collect (front queues : List (EpochToActions (Registration Action)))
    (actionsToPerform : List (Registration Action)) :
    Run Step
      ⟨⟨front ++ queues, counter⟩, registering,
        .collecting epochCounter front.length actionsToPerform, numCalls⟩
      (.replicate queues.length .silent)
      ⟨⟨front ++ queues.map fun q => (q.drain epochCounter).2, counter⟩, registering,
        .collecting epochCounter (front.length + queues.length)
          (actionsToPerform ++ queues.flatMap fun q => (q.drain epochCounter).1), numCalls⟩ := by
  induction queues generalizing front actionsToPerform with
  | nil => simpa using .nil
  | cons q queues ih =>
    have hqueue : (front ++ q :: queues)[front.length]? = some q := by simp
    have hstep := Step.collect
      (s := ⟨⟨front ++ q :: queues, counter⟩, registering,
        .collecting epochCounter front.length actionsToPerform, numCalls⟩) epochCounter rfl hqueue
    have hrest := ih (front ++ [(q.drain epochCounter).2])
      (actionsToPerform ++ (q.drain epochCounter).1)
    rw [EpochToActions.moveOut_eq] at hstep
    simp only [EpochActionManager.setQueue, List.set_append_right _ _ (Nat.le_refl _),
      Nat.sub_self, List.set_cons_zero] at hstep
    simp only [List.append_assoc, List.singleton_append, List.length_append, List.length_singleton,
      Nat.add_assoc, Nat.add_comm 1] at hrest
    simp only [List.map_cons, List.flatMap_cons, List.length_cons, List.replicate_succ]
    exact .cons hstep hrest

theorem run_apply (manager : EpochActionManager (Registration Action))
    (done rest : List (Registration Action)) :
    Run Step ⟨manager, registering, .applying epochCounter (done ++ rest) done.length, numCalls⟩
      (rest.map .performed)
      ⟨manager, registering, .applying epochCounter (done ++ rest) (done ++ rest).length,
        numCalls⟩ := by
  induction rest generalizing done with
  | nil => simpa using .nil
  | cons r rest ih =>
    have hnext : (done ++ r :: rest)[done.length]? = some r := by simp
    have hstep := Step.perform
      (s := ⟨manager, registering, .applying epochCounter (done ++ r :: rest) done.length,
        numCalls⟩) rfl hnext
    have hrest := ih (done ++ [r])
    simp only [List.append_assoc, List.singleton_append, List.length_append,
      List.length_singleton] at hrest
    rw [← List.length_append] at hrest
    exact .cons hstep hrest

/-- Without other calls in between, the steps of `PerformActions` are those of the sequential
function. -/
theorem run_performActions (s : System Action) (hidle : s.performer = .idle) :
    let actions := (s.manager.performActions epochCounter).1
    Run Step s
      (.performActions epochCounter ::
        (List.replicate (s.manager.epochToActionsList.length + 1) .silent ++
          (actions.map .performed ++ [.returned actions.length])))
      { s with manager := (s.manager.performActions epochCounter).2 } := by
  intro actions
  obtain ⟨⟨queues, counter⟩, registering, performer, numCalls⟩ := s
  obtain rfl : performer = .idle := hidle
  refine .cons (.performActions epochCounter rfl) ?_
  have hcollect := run_collect epochCounter counter numCalls registering [] queues []
  simp only [List.nil_append, List.length_nil, Nat.zero_add] at hcollect
  have hend : (queues.map fun q => (q.drain epochCounter).2)[queues.length]? = none := by simp
  have happly := run_apply epochCounter numCalls registering
    ⟨queues.map fun q => (q.drain epochCounter).2, counter⟩ [] actions
  have hreturn : actions[actions.length]? = none := by simp
  rw [List.replicate_succ', List.append_assoc]
  refine hcollect.append (.cons (.endCollect rfl hend) (happly.append (.single ?_)))
  exact .returns actions rfl hreturn

end Alone

end ActionQueues

end L4

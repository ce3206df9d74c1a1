import Mathlib.Logic.Function.Basic
import L4.Library.ThreadPool
import L4.Library.Transition

/-! Objects that several threads use, whose operations take effect at once between the call and the
response. -/

namespace Linearizability
set_option autoImplicit true
open ThreadPool (Pool NumberedStep)
open Transition (Run Guarded)

/-- What the operations of an object do and return, and what may happen between them. -/
structure Object (σ ω ρ : Type) where
  effect : σ → ω → ρ → σ → Prop
  internal : σ → σ → Prop

/-- What a thread shows. -/
inductive Event (ω ρ : Type) where
  | call (op : ω)
  | respond (result : ρ)

/-- Where a thread stands: outside of a call, before its effect, or after it. -/
inductive Status (ω ρ : Type) where
  | idle
  | called (op : ω)
  | done (op : ω) (result : ρ)

def Event.map {ω ρ ω' ρ' : Type} (f : ω → ω') (g : ρ → ρ') : Event ω ρ → Event ω' ρ'
  | .call op => .call (f op)
  | .respond result => .respond (g result)

def Status.map {ω ρ ω' ρ' : Type} (f : ω → ω') (g : ρ → ρ') : Status ω ρ → Status ω' ρ'
  | .idle => .idle
  | .called op => .called (f op)
  | .done op result => .done (f op) (g result)

inductive Label (ι ω ρ : Type) where
  | event (t : ι) (e : Event ω ρ)
  | effect (t : ι) (op : ω) (result : ρ)
  | internal

structure System (ι σ ω ρ : Type) where
  state : σ
  threads : ι → Status ω ρ

variable {ι σ ω ρ : Type} {o : Object σ ω ρ}

def Label.event? : Label ι ω ρ → Option (ι × Event ω ρ)
  | .event t e => some (t, e)
  | _ => none

def Label.effect? : Label ι ω ρ → Option (ι × ω × ρ)
  | .effect t op result => some (t, op, result)
  | _ => none

def history (labels : List (Label ι ω ρ)) : List (ι × Event ω ρ) := labels.filterMap Label.event?

/-- The effects of a run, in their order. -/
def effects (labels : List (Label ι ω ρ)) : List (ι × ω × ρ) := labels.filterMap Label.effect?

theorem history_append (labels labels' : List (Label ι ω ρ)) :
    history (labels ++ labels') = history labels ++ history labels' := List.filterMap_append ..

theorem history_snoc_event (past : List (Label ι ω ρ)) (t : ι) (e : Event ω ρ) :
    history (past ++ [.event t e]) = history past ++ [(t, e)] := by
  simp [history, Label.event?]

theorem history_snoc_effect (past : List (Label ι ω ρ)) (t : ι) (op : ω) (result : ρ) :
    history (past ++ [.effect t op result]) = history past := by
  simp [history, Label.event?]

theorem effects_snoc_event (past : List (Label ι ω ρ)) (t : ι) (e : Event ω ρ) :
    effects (past ++ [.event t e]) = effects past := by
  simp [effects, Label.effect?]

theorem effects_snoc_effect (past : List (Label ι ω ρ)) (t : ι) (op : ω) (result : ρ) :
    effects (past ++ [.effect t op result]) = effects past ++ [(t, op, result)] := by
  simp [effects, Label.effect?]

variable [DecidableEq ι]

def System.setThread (s : System ι σ ω ρ) (t : ι) (status : Status ω ρ) : System ι σ ω ρ :=
  { s with threads := Function.update s.threads t status }

@[simp] theorem System.threads_setThread (s : System ι σ ω ρ) (t u : ι) (status : Status ω ρ) :
    (s.setThread t status).threads u = if u = t then status else s.threads u :=
  Function.update_apply _ _ _ _

@[simp] theorem System.setThread_setThread (s : System ι σ ω ρ) (t : ι)
    (status status' : Status ω ρ) : (s.setThread t status).setThread t status' =
      s.setThread t status' :=
  congrArg (System.mk s.state) (Function.update_idem _ _ _)

theorem System.setThread_state (s : System ι σ ω ρ) (t : ι) (status : Status ω ρ) (state' : σ) :
    { s.setThread t status with state := state' } = { s with state := state' }.setThread t status :=
  rfl

/-- The steps of the threads: the effect of an operation is one step. -/
inductive Step (o : Object σ ω ρ) : System ι σ ω ρ → Label ι ω ρ → System ι σ ω ρ → Prop
  | call (t : ι) (op : ω) (h : s.threads t = .idle) :
      Step o s (.event t (.call op)) (s.setThread t (.called op))
  | effect (t : ι) (h : s.threads t = .called op) (heffect : o.effect s.state op result state') :
      Step o s (.effect t op result) ({ s with state := state' }.setThread t (.done op result))
  | respond (t : ι) (h : s.threads t = .done op result) :
      Step o s (.event t (.respond result)) (s.setThread t .idle)
  | internal (h : o.internal s.state state') : Step o s .internal { s with state := state' }

/-- The calls and responses are those of threads whose operations take effect at once, one of them
after the other, and lead from the one state to the other. -/
def Linearizable (o : Object σ ω ρ) (state : σ) (events : List (ι × Event ω ρ)) (state' : σ) :
    Prop :=
  ∃ labels threads, Run (Step o) ⟨state, fun _ => .idle⟩ labels ⟨state', threads⟩ ∧
    history labels = events

/-- Operations one after the other, with their results. -/
inductive Legal (o : Object σ ω ρ) : σ → List (ω × ρ) → σ → Prop
  | nil : Legal o s [] s
  | internal (h : o.internal s s₁) (hrest : Legal o s₁ order s') : Legal o s order s'
  | effect (h : o.effect s op result s₁) (hrest : Legal o s₁ order s') :
      Legal o s ((op, result) :: order) s'

section Order
variable {s s' : System ι σ ω ρ} {past labels : List (Label ι ω ρ)} {events : List (ι × Event ω ρ)}

def Event.op? : Event ω ρ → Option ω
  | .call op => some op
  | .respond _ => none

def Event.result? : Event ω ρ → Option ρ
  | .call _ => none
  | .respond result => some result

/-- What belongs to one thread. -/
def ofThread {α : Type} (t : ι) (xs : List (ι × α)) : List α :=
  xs.filterMap fun x => if x.1 = t then some x.2 else none

def ops (t : ι) (events : List (ι × Event ω ρ)) : List ω :=
  (ofThread t events).filterMap Event.op?

def results (t : ι) (events : List (ι × Event ω ρ)) : List ρ :=
  (ofThread t events).filterMap Event.result?

/-- The operations of the events before have all taken effect that have returned, with the results
that they have returned, and none has that has not been called. -/
structure Covers (events : List (ι × Event ω ρ)) (effects : List (ι × ω × ρ)) : Prop where
  returned : ∀ t, (ops t events).zip (results t events) <+: ofThread t effects
  called : ∀ t, (ofThread t effects).map Prod.fst <+: ops t events

/-- The operation that a thread has called without effect so far. -/
def Status.op? : Status ω ρ → Option ω
  | .called op => some op
  | _ => none

/-- The result that a thread has still to return. -/
def Status.result? : Status ω ρ → Option ρ
  | .done _ result => some result
  | _ => none

/-- What each thread has called and returned is what has taken effect, up to the operation that is
under way. -/
structure Matches (past : List (Label ι ω ρ)) (s : System ι σ ω ρ) : Prop where
  ops_eq : ∀ t, ops t (history past) =
    (ofThread t (effects past)).map Prod.fst ++ (s.threads t).op?.toList
  results_eq : ∀ t, results t (history past) ++ (s.threads t).result?.toList =
    (ofThread t (effects past)).map Prod.snd

theorem ofThread_snoc {α : Type} (t u : ι) (xs : List (ι × α)) (x : α) :
    ofThread t (xs ++ [(u, x)]) = ofThread t xs ++ if u = t then [x] else [] := by
  rw [ofThread, List.filterMap_append, ← ofThread]
  by_cases h : u = t <;> simp [h]

theorem ops_snoc (t u : ι) (events : List (ι × Event ω ρ)) (e : Event ω ρ) :
    ops t (events ++ [(u, e)]) = ops t events ++ if u = t then e.op?.toList else [] := by
  rw [ops, ofThread_snoc, List.filterMap_append, ← ops]
  split_ifs
  · cases e <;> rfl
  · rfl

theorem results_snoc (t u : ι) (events : List (ι × Event ω ρ)) (e : Event ω ρ) :
    results t (events ++ [(u, e)]) =
      results t events ++ if u = t then e.result?.toList else [] := by
  rw [results, ofThread_snoc, List.filterMap_append, ← results]
  split_ifs
  · cases e <;> rfl
  · rfl

theorem Matches.initial (state : σ) :
    Matches [] (⟨state, fun _ => .idle⟩ : System ι σ ω ρ) :=
  ⟨fun _ => rfl, fun _ => rfl⟩

theorem Matches.step (h : Matches past s) (hstep : Step o s label s') :
    Matches (past ++ [label]) s' := by
  cases hstep with
  | call u op hidle =>
    refine ⟨fun t => ?_, fun t => ?_⟩
    · have hops := h.ops_eq t
      rw [history_snoc_event, effects_snoc_event, ops_snoc, hops, System.threads_setThread]
      by_cases ht : t = u
      · simp [ht, hidle, Status.op?, Event.op?]
      · simp [ht, Ne.symm ht]
    · have hresults := h.results_eq t
      rw [history_snoc_event, effects_snoc_event, results_snoc, ← hresults,
        System.threads_setThread]
      by_cases ht : t = u
      · simp [ht, hidle, Status.result?, Event.result?]
      · simp [ht, Ne.symm ht]
  | effect u hcalled heffect =>
    refine ⟨fun t => ?_, fun t => ?_⟩
    · have hops := h.ops_eq t
      rw [history_snoc_effect, effects_snoc_effect, ofThread_snoc, hops, System.threads_setThread]
      by_cases ht : t = u
      · simp [ht, hcalled, Status.op?]
      · simp [ht, Ne.symm ht]
    · have hresults := h.results_eq t
      rw [history_snoc_effect, effects_snoc_effect, ofThread_snoc, List.map_append, ← hresults,
        System.threads_setThread]
      by_cases ht : t = u
      · simp [ht, hcalled, Status.result?]
      · simp [ht, Ne.symm ht]
  | respond u hdone =>
    refine ⟨fun t => ?_, fun t => ?_⟩
    · have hops := h.ops_eq t
      rw [history_snoc_event, effects_snoc_event, ops_snoc, hops, System.threads_setThread]
      by_cases ht : t = u
      · simp [ht, hdone, Status.op?, Event.op?]
      · simp [ht, Ne.symm ht]
    · have hresults := h.results_eq t
      rw [history_snoc_event, effects_snoc_event, results_snoc, ← hresults,
        System.threads_setThread]
      by_cases ht : t = u
      · simp [ht, hdone, Status.result?, Event.result?]
      · simp [ht, Ne.symm ht]
  | internal =>
    have hhistory : history (past ++ [.internal]) = history past := by simp [history, Label.event?]
    have heffects : effects (past ++ [.internal]) = effects past := by
      simp [effects, Label.effect?]
    refine ⟨fun t => ?_, fun t => ?_⟩
    · rw [hhistory, heffects]
      exact h.ops_eq t
    · rw [hhistory, heffects]
      exact h.results_eq t

theorem Matches.of_run (h : Run (Step o) ⟨state, fun _ => .idle⟩ labels s) : Matches labels s :=
  h.history_nil (fun _ _ _ _ hmatches hstep => hmatches.step hstep) (.initial state)

theorem zip_prefix {α β : Type} {xs : List (α × β)} {as : List α} {bs : List β}
    (has : xs.map Prod.fst <+: as) (hbs : bs <+: xs.map Prod.snd) : as.zip bs <+: xs := by
  induction xs generalizing as bs with
  | nil => simp [List.prefix_nil.mp hbs]
  | cons x xs ih =>
    obtain ⟨as, rfl⟩ := has
    cases bs with
    | nil => simp
    | cons b bs =>
      obtain ⟨rfl, hrest⟩ := List.cons_prefix_cons.mp hbs
      exact List.cons_prefix_cons.mpr ⟨rfl, ih (List.prefix_append _ as) hrest⟩

theorem Matches.covers (h : Matches past s) : Covers (history past) (effects past) where
  returned t := by
    refine zip_prefix ?_ ?_
    · rw [h.ops_eq t]
      exact List.prefix_append _ _
    · rw [← h.results_eq t]
      exact List.prefix_append _ _
  called t := by
    rw [h.ops_eq t]
    exact List.prefix_append _ _

theorem legal_of_run (h : Run (Step o) s labels s') :
    Legal o s.state ((effects labels).map Prod.snd) s'.state := by
  induction h with
  | nil => exact .nil
  | cons hstep _ ih =>
    cases hstep with
    | call => exact ih
    | effect t hcalled heffect => exact .effect heffect ih
    | respond => exact ih
    | internal hinternal => exact .internal hinternal ih

/-- The operations of a linearizable object have an order in which one could have done them one
after the other. At every moment the operations that have returned stand before those that
have not been called. -/
theorem Linearizable.exists_order (h : Linearizable o state events state') :
    ∃ order, Legal o state (order.map Prod.snd) state' ∧
      ∀ before after, events = before ++ after →
        ∃ first second, order = first ++ second ∧ Covers before first := by
  obtain ⟨labels, threads, hrun, rfl⟩ := h
  refine ⟨effects labels, legal_of_run hrun, fun before after hsplit => ?_⟩
  obtain ⟨past, rest, rfl, rfl, -⟩ := List.filterMap_eq_append_iff.mp hsplit
  obtain ⟨mid, hpast, -⟩ := hrun.split
  refine ⟨effects past, effects rest, List.filterMap_append .., (Matches.of_run hpast).covers⟩

end Order

section Simulation

/-- What one thread does to an object, and what it shows. -/
inductive Turn (o : Object σ ω ρ) :
    σ → Status ω ρ → List (Event ω ρ) → σ → Status ω ρ → Prop
  | done : Turn o s status [] s status
  | call (op : ω) (hrest : Turn o s (.called op) events s' status') :
      Turn o s .idle (.call op :: events) s' status'
  | effect (h : o.effect s op result s₁) (hrest : Turn o s₁ (.done op result) events s' status') :
      Turn o s (.called op) events s' status'
  | respond (op : ω) (hrest : Turn o s .idle events s' status') :
      Turn o s (.done op result) (.respond result :: events) s' status'
  | internal (h : o.internal s s₁) (hrest : Turn o s₁ status events s' status') :
      Turn o s status events s' status'

theorem Step.setThread_call (s : System ι σ ω ρ) (t : ι) (op : ω) :
    Step o (s.setThread t .idle) (.event t (.call op)) (s.setThread t (.called op)) := by
  have hstep := Step.call (o := o) (s := s.setThread t .idle) t op (by simp)
  rwa [System.setThread_setThread] at hstep

theorem Step.setThread_effect (s : System ι σ ω ρ) (t : ι)
    (h : o.effect s.state op result state') :
    Step o (s.setThread t (.called op)) (.effect t op result)
      ({ s with state := state' }.setThread t (.done op result)) := by
  have hstep := Step.effect (s := s.setThread t (.called op)) t (by simp) h
  rwa [System.setThread_state, System.setThread_setThread] at hstep

theorem Step.setThread_respond (s : System ι σ ω ρ) (t : ι) (op : ω) (result : ρ) :
    Step o (s.setThread t (.done op result)) (.event t (.respond result))
      (s.setThread t .idle) := by
  have hdone : (s.setThread t (.done op result)).threads t = .done op result := by simp
  have hstep := Step.respond (o := o) t hdone
  rwa [System.setThread_setThread] at hstep

theorem Turn.run (h : Turn o state status events state' status') (s : System ι σ ω ρ) (t : ι) :
    ∃ labels, history labels = events.map (Prod.mk t) ∧
      Run (Step o) ({ s with state }.setThread t status) labels
        ({ s with state := state' }.setThread t status') := by
  induction h with
  | done => exact ⟨[], rfl, .nil⟩
  | call op hrest ih =>
    obtain ⟨labels, hlabels, hrun⟩ := ih
    refine ⟨_ :: labels, ?_, .cons (.setThread_call _ t op) hrun⟩
    exact congrArg (List.cons _) hlabels
  | effect heffect hrest ih =>
    obtain ⟨labels, hlabels, hrun⟩ := ih
    refine ⟨_ :: labels, ?_, .cons (.setThread_effect { s with state := _ } t heffect) hrun⟩
    exact hlabels
  | respond op hrest ih =>
    obtain ⟨labels, hlabels, hrun⟩ := ih
    refine ⟨_ :: labels, ?_, .cons (.setThread_respond _ t op _) hrun⟩
    exact congrArg (List.cons _) hlabels
  | internal hinternal hrest ih =>
    obtain ⟨labels, hlabels, hrun⟩ := ih
    exact ⟨.internal :: labels, hlabels, .cons (.internal hinternal) hrun⟩

theorem Turn.run_of_threads {s : System ι σ ω ρ}
    (h : Turn o s.state (s.threads t) events state' status') :
    ∃ labels, Run (Step o) s labels ({ s with state := state' }.setThread t status') ∧
      history labels = events.map (Prod.mk t) := by
  obtain ⟨labels, hlabels, hrun⟩ := h.run s t
  have hs : { s with state := s.state }.setThread t (s.threads t) = s :=
    congrArg (System.mk s.state) (Function.update_eq_self _ _)
  rw [hs] at hrun
  exact ⟨labels, hrun, hlabels⟩

section Follows
variable {S α : Type} {step : S → α → S → Prop} {shown : α → Option (ι × Event ω ρ)}
  {Follows : S → System ι σ ω ρ → Prop} {c c' : S} {as : List α} {s : System ι σ ω ρ}

theorem run_of_follows
    (hstep : ∀ c a c' s, step c a c' → Follows c s → ∃ labels s', Run (Step o) s labels s' ∧
      history labels = (shown a).toList ∧ Follows c' s')
    (hrun : Run step c as c') (hfollows : Follows c s) :
    ∃ labels s', Run (Step o) s labels s' ∧ history labels = as.filterMap shown ∧
      Follows c' s' := by
  induction hrun generalizing s with
  | nil => exact ⟨[], s, .nil, rfl, hfollows⟩
  | @cons c a _ as _ ha _ ih =>
    obtain ⟨first, s₁, hfirst, hshown, hfollows₁⟩ := hstep _ _ _ _ ha hfollows
    obtain ⟨rest, s', hrest, hhistory, hfollows'⟩ := ih hfollows₁
    refine ⟨first ++ rest, s', hfirst.append hrest, ?_, hfollows'⟩
    rw [history_append, hshown, hhistory, List.filterMap_cons]
    cases shown a <;> rfl

theorem linearizable_of_follows
    (hstep : ∀ c a c' s, step c a c' → Follows c s → ∃ labels s', Run (Step o) s labels s' ∧
      history labels = (shown a).toList ∧ Follows c' s')
    (hrun : Run step c as c') (hfollows : Follows c ⟨state, fun _ => .idle⟩) :
    ∃ s', Linearizable o state (as.filterMap shown) s'.state ∧ Follows c' s' :=
  have ⟨labels, s', hlabels, hhistory, hfollows'⟩ := run_of_follows hstep hrun hfollows
  ⟨s', ⟨labels, s'.threads, hlabels, hhistory⟩, hfollows'⟩

end Follows

section Threads
variable {shared τ α : Type} {act : List τ → shared → τ → α → shared → τ → Prop}

/-- The calls and responses in the labels of threads. -/
def visible (event? : α → Option (Event ω ρ)) (labels : List (Nat × α)) :
    List (Nat × Event ω ρ) :=
  labels.filterMap fun x => (event? x.2).map (Prod.mk x.1)

/-- Threads whose acts are turns of an object are linearizable, and their shared state stands for
the state of the object all the time. -/
theorem linearizable_of_turns {event? : α → Option (Event ω ρ)} (ok : α → Prop)
    (I : shared → σ → Prop) (Stands : τ → Status ω ρ → Prop)
    (hact : ∀ others c th a c' th' s status, act others c th a c' th' → ok a → I c s →
      Stands th status → ∃ s' status', Turn o s status (event? a).toList s' status' ∧ I c' s' ∧
        Stands th' status')
    {p p' : Pool shared τ} (hrun : Run (NumberedStep act) p labels p')
    (hok : ∀ x ∈ labels, ok x.2) (hI : I p.shared state)
    (hidle : ∀ th ∈ p.threads, Stands th .idle) :
    ∃ state', Linearizable o state (visible event? labels) state' ∧ I p'.shared state' := by
  -- the pool and the system stand the same way after each step
  let Follows (p : Pool shared τ) (s : System Nat σ ω ρ) : Prop :=
    I p.shared s.state ∧ ∀ t th, p.threads[t]? = some th → Stands th (s.threads t)
  have hstep (p : Pool shared τ) (x : Nat × α) (p' : Pool shared τ) (s : System Nat σ ω ρ)
      (h : Guarded (fun _ x => ok x.2) (NumberedStep act) p x p') (hfollows : Follows p s) :
      ∃ labels s', Run (Step o) s labels s' ∧
        history labels = ((event? x.2).map (Prod.mk x.1)).toList ∧ Follows p' s' := by
    obtain ⟨hok, hstep⟩ := h
    cases hstep with
    | @intro c th a c' th' before after h =>
      obtain ⟨state', status', hturn, hI', hth'⟩ :=
        hact _ c th a c' th' s.state _ h hok hfollows.1 (hfollows.2 before.length th (by simp))
      obtain ⟨labels, hrun, hlabels⟩ := hturn.run_of_threads
      refine ⟨labels, _, hrun, ?_, hI', fun t x hx => ?_⟩
      · rw [hlabels]
        cases event? a <;> rfl
      · rw [System.threads_setThread]
        split_ifs with ht
        · subst ht
          obtain rfl : th' = x := by simpa using hx
          exact hth'
        · exact hfollows.2 t x ((ThreadPool.getElem?_middle_of_ne ht th th').symm ▸ hx)
  have hinitial : Follows p ⟨state, fun _ => .idle⟩ :=
    ⟨hI, fun t th hth => hidle th (List.mem_of_getElem? hth)⟩
  obtain ⟨s', hlinearizable, hfollows⟩ :=
    linearizable_of_follows hstep (hrun.guarded hok) hinitial
  exact ⟨s'.state, hlinearizable, hfollows.1⟩

end Threads
end Simulation

section Family
variable {κ : Type} [DecidableEq κ]

/-- A family of objects as one object. An operation is on one of them. -/
def Object.family (objects : κ → Object σ ω ρ) : Object (κ → σ) (κ × ω) ρ where
  effect states op result states' := ∃ state',
    (objects op.1).effect (states op.1) op.2 result state' ∧
      states' = Function.update states op.1 state'
  internal states states' := ∃ k state', (objects k).internal (states k) state' ∧
    states' = Function.update states k state'

theorem Turn.family {objects : κ → Object σ ω ρ} {k : κ}
    (h : Turn (objects k) state status events state' status') (states : κ → σ) :
    Turn (.family objects) (Function.update states k state) (status.map (Prod.mk k) id)
      (events.map (Event.map (Prod.mk k) id)) (Function.update states k state')
      (status'.map (Prod.mk k) id) := by
  have hupdate (state state' : σ) : Function.update states k state' =
      Function.update (Function.update states k state) k state' :=
    (Function.update_idem _ _ _).symm
  induction h with
  | done => exact .done
  | call op _ ih => exact .call (k, op) ih
  | effect heffect _ ih =>
    refine .effect ⟨_, ?_, hupdate _ _⟩ ih
    rwa [Function.update_self]
  | respond op _ ih => exact .respond (k, op) ih
  | internal hinternal _ ih =>
    refine .internal ⟨k, _, ?_, hupdate _ _⟩ ih
    rwa [Function.update_self]

end Family

section Reads
variable {κ α : Type} {read : σ → κ → α → Prop}

/-- An object with queries that leave it as it is. -/
def Object.withReads (o : Object σ ω ρ) (read : σ → κ → α → Prop) :
    Object σ (ω ⊕ κ) (ρ ⊕ α) where
  effect state op result state' :=
    match op, result with
    | .inl op, .inl result => o.effect state op result state'
    | .inr key, .inr value => read state key value ∧ state' = state
    | _, _ => False
  internal := o.internal

/-- The calls and responses of other threads than the one that reads. -/
def others (events : List (ι × Event ω ρ)) : List (Option ι × Event (ω ⊕ κ) (ρ ⊕ α)) :=
  events.map fun x => (some x.1, x.2.map .inl .inl)

def Label.other : Label ι ω ρ → Label (Option ι) (ω ⊕ κ) (ρ ⊕ α)
  | .event t e => .event (some t) (e.map .inl .inl)
  | .effect t op result => .effect (some t) (.inl op) (.inl result)
  | .internal => .internal

/-- The threads beside one that reads. -/
def System.beside (s : System ι σ ω ρ) (reader : Status (ω ⊕ κ) (ρ ⊕ α)) :
    System (Option ι) σ (ω ⊕ κ) (ρ ⊕ α) where
  state := s.state
  threads t := t.elim reader fun t => (s.threads t).map .inl .inl

theorem System.setThread_beside (s : System ι σ ω ρ) (t : ι) (status : Status ω ρ)
    (reader : Status (ω ⊕ κ) (ρ ⊕ α)) : (s.setThread t status).beside reader =
      (s.beside reader).setThread (some t) (status.map .inl .inl) := by
  refine congrArg (System.mk s.state) (funext fun u => ?_)
  cases u with
  | none => rfl
  | some u =>
    simp only [System.beside, Option.elim_some, System.threads_setThread, Function.update_apply,
      Option.some.injEq]
    split_ifs <;> rfl

theorem System.beside_setThread (s : System ι σ ω ρ)
    (reader reader' : Status (ω ⊕ κ) (ρ ⊕ α)) :
    (s.beside reader).setThread none reader' = s.beside reader' := by
  refine congrArg (System.mk s.state) (funext fun u => ?_)
  cases u <;> rfl

variable {s s' mid t u : System ι σ ω ρ} {labels before first rest after : List (Label ι ω ρ)}

theorem Step.beside (h : Step o s label s') (reader : Status (ω ⊕ κ) (ρ ⊕ α)) :
    Step (o.withReads read) (s.beside reader) label.other (s'.beside reader) := by
  cases h with
  | call t op hidle =>
    rw [System.setThread_beside]
    exact .call (some t) (Sum.inl op) (congrArg (Status.map Sum.inl Sum.inl) hidle)
  | effect t hcalled heffect =>
    rename_i op result state'
    have heffect : (o.withReads read).effect s.state (.inl op) (.inl result) state' := heffect
    rw [System.setThread_beside]
    exact .effect (some t) (congrArg (Status.map Sum.inl Sum.inl) hcalled) heffect
  | respond t hdone =>
    rw [System.setThread_beside]
    exact .respond (some t) (congrArg (Status.map Sum.inl Sum.inl) hdone)
  | internal hinternal => exact .internal hinternal

theorem run_beside (read : σ → κ → α → Prop) (h : Run (Step o) s labels s')
    (reader : Status (ω ⊕ κ) (ρ ⊕ α)) :
    ∃ labels', Run (Step (o.withReads read)) (s.beside reader) labels' (s'.beside reader) ∧
      history labels' = others (history labels) := by
  induction h with
  | nil => exact ⟨[], .nil, rfl⟩
  | @cons _ label _ _ _ hstep _ ih =>
    obtain ⟨labels', hrun, hlabels⟩ := ih
    refine ⟨label.other :: labels', .cons (hstep.beside reader) hrun, ?_⟩
    cases label with
    | event t e => exact congrArg (List.cons _) hlabels
    | effect | internal => exact hlabels

/-- A read that is right at some moment between its call and its response. -/
theorem linearizable_with_read (hbefore : Run (Step o) ⟨state, fun _ => .idle⟩ before s)
    (hfirst : Run (Step o) s first mid) (hread : read mid.state key value)
    (hrest : Run (Step o) mid rest t) (hafter : Run (Step o) t after u) :
    Linearizable (o.withReads read) state
      (others (history before) ++ (none, .call (.inr key)) ::
        others (history first ++ history rest) ++ (none, .respond (.inr value)) ::
          others (history after)) u.state := by
  have hcall : Step (o.withReads read) (s.beside .idle) (.event none (.call (.inr key)))
      (s.beside (.called (.inr key))) := by
    have hstep := Step.call (o := o.withReads read) (s := s.beside .idle) none (.inr key) rfl
    rwa [System.beside_setThread] at hstep
  have hmid : Step (o.withReads read) (mid.beside (.called (.inr key)))
      (.effect none (.inr key) (.inr value)) (mid.beside (.done (.inr key) (.inr value))) := by
    have heffect : (o.withReads read).effect mid.state (.inr key) (.inr value) mid.state :=
      ⟨hread, rfl⟩
    have hstep := Step.effect (s := mid.beside (.called (.inr key))) none rfl heffect
    change Step _ _ _ ((mid.beside (.called (.inr key))).setThread none _) at hstep
    rwa [System.beside_setThread] at hstep
  have hrespond : Step (o.withReads read) (t.beside (.done (.inr key) (.inr value)))
      (.event none (.respond (.inr value))) (t.beside .idle) := by
    have hdone : (t.beside (.done (.inr key) (.inr value))).threads none =
        .done (.inr key) (.inr value) := rfl
    have hstep := Step.respond (o := o.withReads read) none hdone
    rwa [System.beside_setThread] at hstep
  obtain ⟨before', hbefore, hhistory⟩ := run_beside read hbefore .idle
  obtain ⟨first', hfirst, hhistory₁⟩ := run_beside read hfirst (.called (.inr key))
  obtain ⟨rest', hrest, hhistory₂⟩ := run_beside read hrest (.done (.inr key) (.inr value))
  obtain ⟨after', hafter, hhistory₃⟩ := run_beside read hafter .idle
  have hstart : (⟨state, fun _ => .idle⟩ : System (Option ι) σ (ω ⊕ κ) (ρ ⊕ α)) =
      (⟨state, fun _ => .idle⟩ : System ι σ ω ρ).beside .idle := by
    refine congrArg (System.mk state) (funext fun u => ?_)
    cases u <;> rfl
  refine ⟨_, _, hstart ▸ hbefore.append (.cons hcall (hfirst.append (.cons hmid
    (hrest.append (.cons hrespond hafter))))), ?_⟩
  simp only [history, others, List.filterMap_append, List.filterMap_cons, Label.event?,
    List.map_append] at hhistory hhistory₁ hhistory₂ hhistory₃ ⊢
  rw [hhistory, hhistory₁, hhistory₂, hhistory₃]
  simp

end Reads
end Linearizability

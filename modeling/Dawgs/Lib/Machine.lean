import Mathlib

/-!
# Machines

A machine is a partial step function: a state and an event give the next
state, or nothing where the event cannot happen. Its runs are histories,
lists of events with the oldest first. What holds after every history is
proved by `run_invariant`, where the invariant may speak of the history
as well as of the state it led to.

Where a measure goes down with every step, histories end (`run_measure`).

Safety needs no more. For what must happen there are executions without an
end, in which the machine may also rest. `Execution.Fair` is weak fairness:
a class of events that stays possible is not passed over for ever. The one
rule about it is `Execution.leadsTo`.

Where every event is possible, a run is the list of its points. A property
that each step keeps exactly under a condition holds at every point exactly
if every step meets the condition (`forall_points_iff`). The state of several
objects is a function of their numbers, and a step on one of them has to
answer for that one only (`forall_update_iff`).
-/

namespace Dawgs.Lib

open List

variable {S E : Type} (step : S → E → Option S)

/-- The state a history leads to. -/
def run (start : S) (es : List E) : Option S := es.foldlM step start

theorem run_cons (start : S) (e : E) (es : List E) :
    run step start (e :: es) = (step start e).bind fun s => run step s es := rfl

theorem run_append (start : S) (es fs : List E) :
    run step start (es ++ fs) = (run step start es).bind fun s => run step s fs := by
  rw [run, foldlM_append]
  rfl

theorem run_snoc (start : S) (es : List E) (e : E) :
    run step start (es ++ [e]) = (run step start es).bind fun s => step s e := by
  rw [run_append]
  congr 1
  funext s
  show (step s e).bind some = step s e
  rw [Option.bind_fun_some]

variable {step : S → E → Option S} {P : S → Prop} {start : S} {es : List E}

/-- A history and one more event. -/
theorem run_snoc_of {s s' : S} {e : E} (hs : run step start es = some s) (he : step s e = some s') :
    run step start (es ++ [e]) = some s' := by
  rw [run_snoc, hs]
  exact he

theorem run_map {D : Type} (f : D → E) (start : S) (ds : List D) :
    run step start (ds.map f) = run (fun s d => step s (f d)) start ds := foldlM_map ..

/-- Induction over histories. -/
theorem run_invariant
    {P : List E → S → Prop} (hstart : P [] start)
    (hstep : ∀ {es s e s'}, run step start es = some s → P es s →
      step s e = some s' → P (es ++ [e]) s')
    {s : S} (h : run step start es = some s) : P es s := by
  induction es using reverseRecOn generalizing s with
  | nil =>
    cases h
    exact hstart
  | append_singleton es e ih =>
    rw [run_snoc] at h
    obtain ⟨m, hm, he⟩ := Option.bind_eq_some_iff.mp h
    exact hstep hm (ih hm) he

section Measure

variable {measure : S → Nat} (hstart : P start)
  (hstep : ∀ {s e s'}, P s → step s e = some s' → P s' ∧ measure s' < measure s)

include hstart hstep

/-- A measure that every step decreases bounds the histories. -/
theorem run_measure {s : S} (h : run step start es = some s) :
    P s ∧ es.length + measure s ≤ measure start := by
  refine run_invariant (P := fun es s => P s ∧
    es.length + measure s ≤ measure start) ⟨hstart, by simp⟩ ?_ h
  intro es s e s' _ hinv hs
  obtain ⟨hP, hlt⟩ := hstep hinv.1 hs
  rw [length_append, length_singleton]
  exact ⟨hP, by omega⟩

/-- Then one of them ends in a state in which no event can happen. -/
theorem exists_halted : ∃ es s, run step start es = some s ∧ ∀ e, step s e = none := by
  induction hn : measure start using Nat.strongRecOn generalizing start with
  | ind n ih =>
    by_cases hend : ∀ e, step start e = none
    · exact ⟨[], start, rfl, hend⟩
    · push Not at hend
      obtain ⟨e, he⟩ := hend
      obtain ⟨s, hs⟩ := Option.ne_none_iff_exists'.mp he
      obtain ⟨hP, hlt⟩ := hstep hstart hs
      obtain ⟨es, t, hrun, ht⟩ := ih _ (hn ▸ hlt) hP rfl
      exact ⟨e :: es, t, by rw [run_cons, hs]; exact hrun, ht⟩

end Measure

/-- An execution without an end; where there is no event it rests. -/
structure Execution (step : S → E → Option S) (start : S) where
  state : Nat → S
  event : Nat → Option E
  starts : state 0 = start
  rests : ∀ i, event i = none → state (i + 1) = state i
  steps : ∀ i e, event i = some e → step (state i) e = some (state (i + 1))

namespace Execution

/-- What has happened before a point. -/
def history (x : Execution step start) : Nat → List E
  | 0 => []
  | i + 1 => x.history i ++ (x.event i).toList

section

variable (x : Execution step start)

theorem run_history (i : Nat) :
    run step start (x.history i) = some (x.state i) := by
  induction i with
  | zero => rw [x.starts]; rfl
  | succ i ih =>
    rw [history]
    cases he : x.event i with
    | none =>
      rw [x.rests i he, Option.toList_none, append_nil]
      exact ih
    | some e => exact run_snoc_of ih (x.steps i e he)

/-- Events of a class that stay possible from some point on are not passed
over for ever. -/
def Fair (A : E → Prop) : Prop :=
  ∀ i, (∀ j ≥ i, ∃ e, A e ∧ (step (x.state j) e).isSome) → ∃ j ≥ i, ∃ e, A e ∧ x.event j = some e

/-- A condition that only gives way to its goal, and under which a fair
class of events is possible and reaches the goal, leads to it. -/
theorem leadsTo {A : E → Prop} {Q : S → Prop} (hfair : x.Fair A)
    (hstay : ∀ j, P (x.state j) → P (x.state (j + 1)) ∨ Q (x.state (j + 1)))
    (hpossible : ∀ j, P (x.state j) → ∃ e, A e ∧ (step (x.state j) e).isSome)
    (hreach : ∀ j e, P (x.state j) → A e → x.event j = some e → Q (x.state (j + 1)))
    {i : Nat} (hi : P (x.state i)) : ∃ j ≥ i, Q (x.state j) := by
  by_contra hnever
  push Not at hnever
  have hall : ∀ k, P (x.state (i + k)) := by
    intro k
    induction k with
    | zero => exact hi
    | succ k ih =>
      rcases hstay _ ih with h | h
      · exact h
      · exact absurd h (hnever _ (by omega))
  have hfrom : ∀ j ≥ i, P (x.state j) := by
    intro j hj
    have h := hall (j - i)
    rwa [Nat.add_sub_cancel' hj] at h
  obtain ⟨j, hj, e, hA, he⟩ := hfair i fun j hj => hpossible j (hfrom j hj)
  exact hnever (j + 1) (by omega) (hreach j e (hfrom j hj) hA he)

end

end Execution

/-- The states a total machine goes through. -/
def points (step : S → E → S) : S → List E → List S
  | s, [] => [s]
  | s, e :: es => s :: points step (step s e) es

/-- A condition on each step of a run. -/
def Along (step : S → E → S) (ok : S → E → Prop) : S → List E → Prop
  | _, [] => True
  | s, e :: es => ok s e ∧ Along step ok (step s e) es

theorem forall_points_iff {step : S → E → S} {ok : S → E → Prop} {Inv Good : S → Prop}
    (hinv : ∀ s e, Inv s → Good s → Inv (step s e))
    (hstep : ∀ s e, Inv s → Good s → (Good (step s e) ↔ ok s e)) {s : S} (hs : Inv s)
    (hgood : Good s) (es : List E) : (∀ p ∈ points step s es, Good p) ↔ Along step ok s es := by
  induction es generalizing s with
  | nil => simpa [points, Along] using hgood
  | cons e es ih =>
    rw [points, forall_mem_cons, Along, ← hstep s e hs hgood]
    constructor
    · intro ⟨_, hpoints⟩
      have hnext : Good (step s e) := by
        cases es with
        | nil => exact hpoints _ (mem_singleton_self _)
        | cons e' es => exact hpoints _ mem_cons_self
      exact ⟨hnext, (ih (hinv s e hs hgood) hnext).mp hpoints⟩
    · intro ⟨hnext, halong⟩
      exact ⟨hgood, (ih (hinv s e hs hgood) hnext).mpr halong⟩

theorem forall_update_iff {objects : Nat → S} (h : ∀ i, P (objects i)) (i : Nat) (s : S) :
    (∀ j, P (Function.update objects i s j)) ↔ P s := by
  rw [Function.forall_update_iff objects fun _ s => P s]
  exact ⟨And.left, fun hs => ⟨hs, fun j _ => h j⟩⟩

end Dawgs.Lib

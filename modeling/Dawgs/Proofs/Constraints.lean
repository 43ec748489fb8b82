import Dawgs.Ref.Constraints

/-!
# Constraints are conserved

What a tracker was given is what it has returned and what it still holds.
Constraints with equal dependencies are merged in place, so this cannot be
said of the constraints as they stand in the tracker; it is said of what
their expressions mean, for every meaning that takes a conjunction to a
product in a commutative monoid.
-/

namespace Dawgs.Ref.Constraints

open Lib List Option

/-- A meaning of expressions under which conjunctions may be taken in any
order, and that type hints do not change. With truth values it says what an
expression demands; with multisets, how often each constraint is in it. -/
structure Meaning {E : Type} (x : Expressions E) (M : Type) [CommMonoid M] where
  of : E → M
  and (left right : E) : of (x.and left right) = of left * of right
  hints {e e' : E} : x.applyTypeHints e = some e' → of e' = of e

variable {I E M : Type} [CommMonoid M] {x : Expressions E}

/-- What all of some expressions mean. -/
def Meaning.all (m : Meaning x M) (es : List E) : M := (es.map m.of).prod

section Conjunctions
variable (m : Meaning x M)

@[simp] theorem Meaning.all_nil : m.all [] = 1 := rfl

@[simp] theorem Meaning.all_cons (e : E) (es : List E) :
    m.all (e :: es) = m.of e * m.all es := prod_cons

theorem Meaning.all_append (es es' : List E) : m.all (es ++ es') = m.all es * m.all es' := by
  rw [all, map_append, prod_append]
  rfl

theorem Meaning.conjoin {l r e : E} (h : conjoin x l r = some e) : m.of e = m.of l * m.of r := by
  rw [m.hints h, m.and]

theorem Meaning.conjoinExpressions {es : List E} {r : Option E}
    (h : conjoinExpressions x es = some r) : m.all r.toList = m.all es := by
  suffices hfold : m.all r.toList = m.all (none : Option E).toList * m.all es by
    simpa using hfold
  rw [Constraints.conjoinExpressions] at h
  generalize (none : Option E) = acc at h ⊢
  induction es generalizing acc with
  | nil =>
    cases h
    simp
  | cons e es ih =>
    obtain ⟨next, hnext, hrest⟩ := bind_eq_some_iff.mp h
    rw [ih next hrest, m.all_cons, ← mul_assoc]
    cases acc with
    | none => cases hnext; simp
    | some c =>
      obtain ⟨joined, hjoined, rfl⟩ := map_eq_some_iff.mp hnext
      simp [m.conjoin hjoined]

end Conjunctions

/-- The expressions of constraints. -/
abbrev expressions (cs : List (Constraint I E)) : List E := cs.map Constraint.expression

variable [DecidableEq I] (m : Meaning x M) {cs : List (Constraint I E)}
  {satisfied : E → Option Bool} {visible : Finset I} {c : Constraint I (Option E)}

theorem Meaning.constrain {d : Finset I} {e : E} {cs' : List (Constraint I E)}
    (h : constrain x d e cs = some cs') :
    m.all (expressions cs') = m.all (expressions cs) * m.of e := by
  induction cs generalizing cs' with
  | nil => cases h; simp
  | cons c cs ih =>
    rw [Constraints.constrain] at h
    split at h
    · obtain ⟨joined, hjoined, rfl⟩ := map_eq_some_iff.mp h
      simp [m.conjoin hjoined, mul_comm, mul_assoc]
    · obtain ⟨rest, hrest, rfl⟩ := map_eq_some_iff.mp h
      simp [ih hrest, mul_assoc]

/-- A constraint that `ConsumeSet` takes out. -/
def Ready (satisfied : E → Option Bool) (visible : Finset I) (c : Constraint I E) : Bool :=
  satisfied c.expression = some true ∧ c.dependencies ⊆ visible

theorem consume_eq {r : List (Constraint I E) × List (Constraint I E)}
    (h : consume satisfied visible cs = some r) :
    r = (cs.filter (!Ready satisfied visible ·), cs.filter (Ready satisfied visible)) := by
  induction cs generalizing r with
  | nil => cases h; rfl
  | cons c cs ih =>
    obtain ⟨b, hb, h⟩ := bind_eq_some_iff.mp h
    obtain ⟨rest, hrest, h⟩ := bind_eq_some_iff.mp h
    by_cases hd : c.dependencies ⊆ visible <;> cases b <;> simp_all [Ready]

/-- `ConsumeSet` takes out exactly what is ready. -/
theorem consumeSet_eq {r : List (Constraint I E) × Constraint I (Option E)}
    (h : consumeSet x satisfied visible cs = some r) :
    r.1 = cs.filter (!Ready satisfied visible ·) ∧
      matched x (cs.filter (Ready satisfied visible)) = some r.2 := by
  obtain ⟨p, hp, h⟩ := bind_eq_some_iff.mp h
  obtain rfl := consume_eq hp
  obtain ⟨c, hc, rfl⟩ := map_eq_some_iff.mp h
  exact ⟨rfl, hc⟩

theorem Meaning.matched (h : matched x cs = some c) :
    m.all c.expression.toList = m.all (expressions cs) := by
  obtain ⟨e, he, rfl⟩ := map_eq_some_iff.mp h
  exact m.conjoinExpressions he

/-- A call that takes out `taken` and leaves `kept` conserves both. -/
theorem Meaning.after {s : Tracker I E} {kept taken : List (Constraint I E)}
    (hperm : (taken ++ kept).Perm s.constraints) (h : Constraints.matched x taken = some c) :
    m.all (s.after (kept, c)).returned * m.all (expressions kept) =
      m.all s.returned * m.all (expressions s.constraints) := by
  have hall : m.all (expressions taken) * m.all (expressions kept) =
      m.all (expressions s.constraints) := by
    rw [← m.all_append, ← map_append]
    exact ((hperm.map _).map _).prod_eq
  rw [Tracker.after, m.all_append, m.matched h, mul_assoc, hall]

theorem Meaning.conserved {calls : List (Call I E)} {s : Tracker I E}
    (h : run (Tracker.call x) {} calls = some s) :
    m.all s.returned * m.all (expressions s.constraints) = m.all s.added := by
  refine run_invariant (P := fun _ s =>
    m.all s.returned * m.all (expressions s.constraints) = m.all s.added) (by simp) ?_ h
  intro _ s call s' _ ih hcall
  cases call with
  | constrain d e =>
    obtain ⟨cs, hcs, rfl⟩ := map_eq_some_iff.mp hcall
    simp [m.all_append, ← ih, m.constrain hcs, mul_assoc]
  | consumeSet satisfied visible =>
    obtain ⟨⟨kept, c⟩, hr, rfl⟩ := map_eq_some_iff.mp hcall
    obtain ⟨rfl, hc⟩ := consumeSet_eq hr
    exact (m.after (filter_append_perm ..) hc).trans ih
  | consumeAll =>
    obtain ⟨⟨kept, c⟩, hr, rfl⟩ := map_eq_some_iff.mp hcall
    obtain ⟨_, hc, he⟩ := map_eq_some_iff.mp hr
    cases he
    exact (m.after (by rw [append_nil]) hc).trans ih

/-- Along every run that does not fail, what was returned and what is still
tracked are together what was added, each constraint once; and a
`ConsumeSet` returns the conjunction of exactly the constraints that are
ready, and keeps the others. -/
theorem tracker_conserves (x : Expressions E) {calls : List (Call I E)}
    {s : Tracker I E} (h : run (Tracker.call x) {} calls = some s) :
    (∀ (M : Type) [CommMonoid M] (m : Meaning x M),
      m.all s.returned * m.all (expressions s.constraints) = m.all s.added) ∧
    ∀ satisfied visible kept c, consumeSet x satisfied visible s.constraints = some (kept, c) →
      kept = s.constraints.filter (!Ready satisfied visible ·) ∧
        ∀ (M : Type) [CommMonoid M] (m : Meaning x M), m.all c.expression.toList =
          m.all (expressions (s.constraints.filter (Ready satisfied visible))) := by
  refine ⟨fun M _ m => m.conserved h, fun satisfied visible kept c hc => ?_⟩
  obtain ⟨hkept, hmatched⟩ := consumeSet_eq hc
  exact ⟨hkept, fun M _ m => m.matched hmatched⟩

/-- Conjunctions as lists. -/
def listed : Expressions (List Nat) := ⟨(· ++ ·), some⟩

/-- A constraint on `a`, a second one, and one on `b`; then `a` is visible. -/
def visibleRun : List (Call String (List Nat)) :=
  [.constrain {"a"} [1], .constrain {"b"} [2], .constrain {"a"} [3],
    .consumeSet (fun _ => some true) {"a"}]

theorem tracker_conserves_visibleRun :
    ∃ s, run (Tracker.call listed) {} visibleRun = some s ∧ s.returned = [[3, 1]] ∧
      ∀ (M : Type) [CommMonoid M] (m : Meaning listed M),
        m.all s.returned * m.all (expressions s.constraints) = m.all s.added :=
  ⟨_, rfl, rfl, (@tracker_conserves String _ _ listed visibleRun _ rfl).1⟩

/-- Its dependencies are visible, but it holds a future: it stays. -/
theorem future_not_consumed :
    ∃ c : Constraint String (List Nat), c.dependencies ⊆ {"a"} ∧
      run (Tracker.call listed) {} [.constrain {"a"} [1],
        .consumeSet (fun _ => some false) {"a"}] = some ⟨[c], [[1]], []⟩ :=
  ⟨⟨{"a"}, [1]⟩, by decide, rfl⟩

end Dawgs.Ref.Constraints

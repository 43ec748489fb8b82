import Dawgs.Ref.Cypher

/-!
# Quantifiers over lists

A quantifier of a `WHERE` becomes a subquery that counts the elements whose
predicate is true, compared with a number or with the cardinality of the
list; `none` also asks that the list is not null. For the relationships of a
path the subquery may be an `EXISTS` over the table of edges instead. Null
is `none`, of a list as of a truth value, and a row passes if the condition
is true.

An element for which the predicate is null counts like one for which it is
false. That is right where openCypher is at most null too, and wrong for
`none`, for `single` and for the negations. A null list is wrong for the
negations, except that of `all`.
-/

namespace Dawgs.Ref.Quantifier

open Cypher (QuantifierType)

inductive SqlNumber where
  | count
  | literal (value : Nat)
  | cardinality

inductive SqlOperator where
  | greaterThanOrEqualTo | equals

inductive SqlCondition where
  | exists_ (negated : Bool)
  | compare (operator : SqlOperator) (left right : SqlNumber)
  | and (left right : SqlCondition)
  | isNotNull

inductive BuildError where
  | unsupportedLowering (type : QuantifierType)
  | unknownType (type : QuantifierType)

/-- `buildQuantifier`, of a filter that is an `EXISTS` or counts. -/
def buildQuantifier (type : QuantifierType) (useExists : Bool) : Except BuildError SqlCondition :=
  if useExists then
    match type with
    | .any => .ok (.exists_ false)
    | .none => .ok (.and (.exists_ true) .isNotNull)
    | _ => .error (.unsupportedLowering type)
  else
    match type with
    | .any => .ok (.compare .greaterThanOrEqualTo .count (.literal 1))
    | .none => .ok (.and (.compare .equals .count (.literal 0)) .isNotNull)
    | .single => .ok (.compare .equals .count (.literal 1))
    | .all => .ok (.compare .equals .count .cardinality)
    | .invalid => .error (.unknownType type)

variable {α : Type} (p : α → Option Bool) (list : Option (List α))

/-- An element of which the predicate is true. -/
def isTrue (x : α) : Bool := p x == some true

/-- The value of a number; `unnest` makes no row of a null list. -/
def SqlNumber.eval : SqlNumber → Option Nat
  | .count => some ((list.getD []).countP (isTrue p))
  | .literal value => some value
  | .cardinality => list.map List.length

def SqlOperator.holds : SqlOperator → Nat → Nat → Bool
  | .greaterThanOrEqualTo, m, n => n ≤ m
  | .equals, m, n => m = n

def SqlCondition.eval : SqlCondition → Option Bool
  | .exists_ negated => some (negated ^^ (list.getD []).any (isTrue p))
  | .compare operator left right =>
    (left.eval p list).bind fun m => (right.eval p list).map fun n => operator.holds m n
  | .and left right =>
    match left.eval, right.eval with
    | some false, _ | _, some false => some false
    | some true, some true => some true
    | _, _ => none
  | .isNotNull => some list.isSome

/-- The value of the quantifier in openCypher: what the elements with a known
value decide whatever the others are, or null. -/
def meaning (type : QuantifierType) : Option Bool :=
  list.bind fun xs =>
    let unknown := xs.any fun x => p x == none
    let trues := xs.countP (isTrue p)
    match type with
    | .any => if 0 < trues then some true else if unknown then none else some false
    | .none => if 0 < trues then some false else if unknown then none else some true
    | .all => if xs.any fun x => p x == some false then some false
        else if unknown then none else some true
    | .single => if 1 < trues then some false else if unknown then none else some (trues = 1)
    | .invalid => none

/-- A row passes the condition, or its negation. -/
def passes (negated : Bool) (condition : Option Bool) : Prop := condition = some !negated

/-- Where the translation and openCypher let the same rows pass. -/
def Agrees (type : QuantifierType) (negated : Bool) : Prop :=
  match list with
  | none => negated = false ∨ type = .all
  | some xs => (∀ x ∈ xs, p x ≠ none) ∨
    match type, negated with
    | .any, false | .all, false | .none, true => True
    | .all, true => ∃ x ∈ xs, p x = some false
    | .single, false => xs.countP (isTrue p) ≠ 1
    | _, _ => ∃ x ∈ xs, p x = some true

/-- What the condition asks of a list that is not null. -/
def Selects (xs : List α) : QuantifierType → Prop
  | .any => 0 < xs.countP (isTrue p)
  | .none => xs.countP (isTrue p) = 0
  | .all => xs.countP (isTrue p) = xs.length
  | _ => xs.countP (isTrue p) = 1

variable {p list} {type : QuantifierType} {useExists negated : Bool} {condition : SqlCondition}
  {xs : List α}

theorem eval_and {left right : SqlCondition} {a b : Bool} (hl : left.eval p list = some a)
    (hr : right.eval p list = some b) : (left.and right).eval p list = some (a && b) := by
  rw [SqlCondition.eval, hl, hr]
  cases a <;> cases b <;> rfl

section

variable (h : buildQuantifier type useExists = .ok condition)
include h

theorem passes_some (xs : List α) :
    passes negated (condition.eval p (some xs)) ↔ (Selects p xs type ↔ negated = false) := by
  revert h
  fun_cases buildQuantifier type useExists <;> rintro ⟨⟩
  all_goals
    try rw [eval_and rfl rfl]
    cases negated <;> simp [passes, Selects, SqlCondition.eval, SqlNumber.eval, SqlOperator.holds]

theorem passes_none :
    passes negated (condition.eval p none) ↔ negated = true ∧ type ≠ .all := by
  revert h
  fun_cases buildQuantifier type useExists <;> rintro ⟨⟩ <;> cases negated <;>
    simp [passes, SqlCondition.eval, SqlNumber.eval, SqlOperator.holds]

omit h in
/-- All elements are true if none is false or unknown. -/
theorem countP_eq_length_iff : xs.countP (isTrue p) = xs.length ↔
    (¬ ∃ x ∈ xs, p x = none) ∧ ¬ ∃ x ∈ xs, p x = some false := by
  rw [List.countP_eq_length, not_exists, not_exists, ← forall_and]
  refine forall_congr' fun x => ?_
  rcases hx : p x with - | - | - <;> simp [isTrue, hx]

/-- For every list and every predicate: a row passes the translated condition,
or its negation, as in openCypher exactly where `Agrees` says so. -/
theorem passes_iff :
    (passes negated (condition.eval p list) ↔ passes negated (meaning p list type)) ↔
      Agrees p list type negated := by
  cases list with
  | none =>
    rw [passes_none h]
    cases type <;> cases negated <;> simp [passes, meaning, Agrees]
  | some xs =>
    have htrue : (∃ x ∈ xs, p x = some true) ↔ 0 < xs.countP (isTrue p) := by simp [isTrue]
    have hnull : (∀ x ∈ xs, p x ≠ none) ↔ ¬ ∃ x ∈ xs, p x = none := by simp
    have hvalid : type ≠ .invalid := by
      rintro rfl
      cases useExists <;> cases h
    rw [passes_some h]
    simp only [Agrees, passes, meaning, Option.bind_some, List.any_eq_true, beq_iff_eq, htrue,
      hnull]
    -- What is left is about the number of true elements and whether another one
    -- is false or unknown.
    cases type <;> cases negated <;> simp only [Selects, countP_eq_length_iff] <;>
      by_cases hn : ∃ x ∈ xs, p x = none <;> by_cases hf : ∃ x ∈ xs, p x = some false <;>
      simp only [hn, hf, if_true, if_false] <;> grind

end

theorem passes_iff_any :
    passes true ((SqlCondition.exists_ false).eval (fun b : Bool => some b) (some [true])) ↔
      passes true (meaning (fun b : Bool => some b) (some [true]) .any) :=
  (passes_iff (show buildQuantifier .any true = .ok _ from rfl)).mpr (.inl (by simp))

/-- No element is true and one is unknown: openCypher does not let the row pass. -/
theorem none_unknown :
    ∃ condition, buildQuantifier .none false = .ok condition ∧
      passes false (condition.eval (fun _ : Unit => none) (some [()])) ∧
      ¬ passes false (meaning (fun _ : Unit => none) (some [()]) .none) :=
  ⟨_, rfl, rfl, nofun⟩

end Dawgs.Ref.Quantifier

import Dawgs.Ref.PropertyComparison

/-!
# Comparisons of a property keep the laws of null

A property that is absent is null in every comparison, and a value that is
there is compared as in Cypher. JSON null is where the comparisons differ:
the one with the empty list gives null, the one with a text does not.
-/

namespace Dawgs.Ref.PropertyComparison

open Expression

section Laws
variable {A : Type} [DecidableEq A] (print : Jsonb A → String)
  (fields : List (String × Jsonb A)) (column : List String) (key text : String)

/-- What the comparison of a property evaluates to. -/
def compare (operator : Operator) (right : Expression) : Option (Value A) :=
  (rewriteBinaryExpression
    (binary (compoundIdentifier column) .propertyLookup (literal key)) operator
      right).bind (evaluate print fields)

/-- A property is null if it is absent or JSON null. -/
def isNull : Bool := fields.lookup key = none ∨ fields.lookup key = some .null

/-- What a property is compared with, and the value that this means. -/
def operands : List (Expression × Jsonb A) :=
  [(literal text, .string text), (emptyArray, .array [])]

/-- The comparisons evaluate to what they do in openCypher. -/
structure Lawful : Prop where
  null : compare print fields column key .is nullLiteral =
    some (.boolean (isNull fields key))
  notNull : compare print fields column key .isNot nullLiteral =
    some (.boolean !isNull fields key)
  equals : ∀ o ∈ operands text, compare print fields column key .equals o.1 =
    if isNull fields key then none
    else some (.boolean (fields.lookup key = some o.2))
  notEquals : ∀ o ∈ operands text,
    compare print fields column key .cypherNotEquals o.1 =
      if isNull fields key then none
      else some (.boolean (fields.lookup key ≠ some o.2))

variable {print fields column key text}

@[simp] theorem evaluate_field : evaluate print fields (jsonFieldPropertyLookup
    ⟨compoundIdentifier column, literal key⟩) = (fields.lookup key).map .jsonb := rfl

@[simp] theorem evaluate_text : evaluate print fields (jsonTextPropertyLookup
    ⟨compoundIdentifier column, literal key⟩) = (fields.lookup key).bind (textOf print) := rfl

/-- JSON null is compared with a text like any other value. -/
theorem compare_text :
    compare print fields column key .equals (literal text) =
        (fields.lookup key).map (fun j => .boolean (j = .string text)) ∧
      compare print fields column key .cypherNotEquals (literal text) =
        (fields.lookup key).map fun j => .boolean (j ≠ .string text) := by
  cases hv : fields.lookup key with
  | none => simp [compare, hv]
  | some j =>
    cases j with
    | string s => by_cases hs : s = text <;> simp [compare, hv, hs]
    | _ => simp [compare, hv]

theorem compare_empty :
    compare print fields column key .equals emptyArray = (if isNull fields key then none
        else some (.boolean (fields.lookup key = some (.array [])))) ∧
      compare print fields column key .cypherNotEquals emptyArray =
        if isNull fields key then none
        else some (.boolean (fields.lookup key ≠ some (.array []))) := by
  cases hv : fields.lookup key with
  | none => simp [compare, hv, isNull]
  | some j =>
    cases j with
    | array items => cases items <;> simp [compare, hv, isNull]
    | _ => simp [compare, hv, isNull]

theorem compare_null :
    compare print fields column key .is nullLiteral = some (.boolean (isNull fields key)) ∧
      compare print fields column key .isNot nullLiteral = some (.boolean !isNull fields key) := by
  cases hv : fields.lookup key with
  | none => simp [compare, hv, isNull]
  | some j => cases j <;> simp [compare, hv, isNull]

theorem not_lawful (h : fields.lookup key = some .null) : ¬Lawful print fields column key text := by
  intro hlawful
  have hequals := hlawful.equals _ (List.mem_cons_self ..)
  rw [compare_text.1, h] at hequals
  simp [h, isNull] at hequals

/-- The laws hold but where the property is JSON null. -/
theorem lawful_iff : Lawful print fields column key text ↔ fields.lookup key ≠ some .null := by
  refine ⟨fun h hnull => not_lawful hnull h, fun hnull => ?_⟩
  have habsent : isNull fields key = (fields.lookup key).isNone := by
    rw [isNull, Bool.decide_or, decide_eq_false hnull]
    cases fields.lookup key <;> simp
  refine ⟨compare_null.1, compare_null.2, ?_, ?_⟩
  all_goals
    intro o ho
    rcases List.mem_cons.mp ho with rfl | ho
  · rw [compare_text.1, habsent]
    cases fields.lookup key <;> simp
  · rw [List.mem_singleton.mp ho]
    exact compare_empty.1
  · rw [compare_text.2, habsent]
    cases fields.lookup key <;> simp
  · rw [List.mem_singleton.mp ho]
    exact compare_empty.2

end Laws

/-- `n.p = 't'` where `p` is stored as JSON null is false and not null. -/
theorem json_null_equals_text : ¬∀ fields : List (String × Jsonb Nat),
      Lawful (fun _ => "") fields ["n0", "properties"] "p" "t" :=
  fun h => not_lawful rfl (h [("p", .null)])

end Dawgs.Ref.PropertyComparison

import Mathlib

/-!
# Comparisons of a property

The properties of an entity are one JSON object in SQL. A comparison of a
property with a text, with the empty list or with null becomes a tree of
tests on a field of that object: the field may be absent, or be JSON null,
and Cypher has one null for both.

`rewriteBinaryExpression` is here what it does for these comparisons; other
operands go on as they are. The type hints that come first change no more
than the operator of a lookup, which nothing reads after that. Of SQL there
is what the trees need. A null of SQL is `none`.
-/

namespace Dawgs.Ref.PropertyComparison

inductive Operator where
  | propertyLookup | jsonField | jsonTextField | jsonbFieldExists
  | equals | notEquals | cypherNotEquals | and | or | is | isNot
deriving DecidableEq

inductive DataType where
  | text | jsonb

inductive Function where
  | jsonbTypeof | toJsonb

/-- Expressions; `emptyArray` is an array literal without values. -/
inductive Expression where
  | compoundIdentifier (path : List String)
  | literal (value : String)
  | nullLiteral
  | emptyArray
  | typeCast (e : Expression) (dataType : DataType)
  | functionCall (function : Function) (parameter : Expression)
  | not (e : Expression)
  | binary (left : Expression) (operator : Operator) (right : Expression)
  | parenthetical (e : Expression)

open Expression

/-- The operands of a property lookup. -/
structure Lookup where
  left : Expression
  right : Expression

/-- `expressionToPropertyLookupBinaryExpression`. -/
@[simp] def expressionToPropertyLookup : Expression → Option Lookup
  | binary left .propertyLookup right | binary left .jsonField right
  | binary left .jsonTextField right => some ⟨left, right⟩
  | _ => none

@[simp] def jsonNullLiteral : Expression := typeCast (literal "null") .jsonb

@[simp] def jsonEmptyArrayLiteral : Expression := typeCast (literal "[]") .jsonb

section Build
variable (l : Lookup)

def jsonFieldPropertyLookup : Expression := binary l.left .jsonField l.right

def jsonTextPropertyLookup : Expression := binary l.left .jsonTextField l.right

@[simp] def rewritePropertyLookupNullCheck (isNotNull : Bool) : Expression :=
  let existsExpression := binary l.left .jsonbFieldExists l.right
  let jsonNullExpression := binary (jsonFieldPropertyLookup l) .equals jsonNullLiteral
  parenthetical <|
    if isNotNull then binary existsExpression .and (not jsonNullExpression)
    else binary (not existsExpression) .or jsonNullExpression

/-- The type of the field compared with that of a string. -/
@[simp] def jsonbStringTypeCheck (operator : Operator) : Expression :=
  binary (functionCall .jsonbTypeof (jsonFieldPropertyLookup l)) operator (literal "string")

@[simp] def toJsonbTextOperand (e : Expression) : Expression :=
  functionCall .toJsonb (typeCast e .text)

@[simp] def buildStringPropertyEqualityComparison (textOperand : Expression)
    (propertyOnLeft : Bool) (operator : Operator) : Expression :=
  if propertyOnLeft then binary (jsonTextPropertyLookup l) operator textOperand
  else binary textOperand operator (jsonTextPropertyLookup l)

@[simp] def buildStringPropertyComparisonPredicate (textOperand : Expression)
    (propertyOnLeft : Bool) (operator : Operator) : Expression :=
  let stringCase := binary (jsonbStringTypeCheck l .equals) .and
    (buildStringPropertyEqualityComparison l textOperand propertyOnLeft operator)
  let nonStringComparison := binary (jsonFieldPropertyLookup l)
    .cypherNotEquals (toJsonbTextOperand textOperand)
  parenthetical <|
    if operator = .equals then stringCase
    else binary stringCase .or (binary
      (jsonbStringTypeCheck l .cypherNotEquals) .and nonStringComparison)

@[simp] def buildEmptyArrayPropertyComparison (negated : Bool) : Expression :=
  let field := jsonFieldPropertyLookup l
  let nullTaintExpression := binary (binary field .equals jsonNullLiteral) .and nullLiteral
  if negated then
    binary (binary (binary field .notEquals jsonEmptyArrayLiteral) .and
      (binary field .notEquals jsonNullLiteral)) .or nullTaintExpression
  else binary (binary field .equals jsonEmptyArrayLiteral) .or nullTaintExpression

end Build

/-- `rewriteStringEqualityOperand`: the operand is of the type text. -/
@[simp] def rewriteStringEqualityOperand : Expression → Option Expression
  | literal value => some (literal value)
  | typeCast e .text => some (typeCast e .text)
  | _ => none

@[simp] def buildStringPropertyEqualityPredicate (left : Expression)
    (operator : Operator) (right : Expression) : Option Expression :=
  let predicate (lookup operand : Expression) (propertyOnLeft : Bool) := do
    let l ← expressionToPropertyLookup lookup
    let textOperand ← rewriteStringEqualityOperand operand
    some (buildStringPropertyComparisonPredicate l textOperand propertyOnLeft operator)
  (predicate left right true).or (predicate right left false)

/-- `isEmptyArrayLiteralPropertyComparison`. -/
@[simp] def isEmptyArrayComparison (left right : Expression) : Option Lookup :=
  match left, right with
  | .emptyArray, e | e, .emptyArray => expressionToPropertyLookup e
  | _, _ => none

/-- What `rewriteBinaryExpression` pushes; it pushes nothing for an `IS` of
another form. -/
@[simp] def rewriteBinaryExpression (left : Expression) (operator : Operator)
    (right : Expression) : Option Expression :=
  match operator, right with
  | .is, nullLiteral => (expressionToPropertyLookup left).map
      (rewritePropertyLookupNullCheck · false)
  | .isNot, nullLiteral => (expressionToPropertyLookup left).map
      (rewritePropertyLookupNullCheck · true)
  | .is, _ | .isNot, _ => none
  | .equals, _ | .cypherNotEquals, _ =>
    match isEmptyArrayComparison left right with
    | some l => some (parenthetical
        (buildEmptyArrayPropertyComparison l (operator = .cypherNotEquals)))
    | none => (buildStringPropertyEqualityPredicate left operator right).or
        (some (binary left operator right))
  | _, _ => some (binary left operator right)

/-! ## What they evaluate to -/

/-- A stored value. Nothing here looks at the items of an array. -/
inductive Jsonb (A : Type) where
  | null
  | boolean (b : Bool)
  | number (n : ℚ)
  | string (s : String)
  | array (items : List A)
deriving DecidableEq

/-- A value of SQL; `object` is a column of properties. -/
inductive Value (A : Type) where
  | boolean (b : Bool)
  | text (s : String)
  | jsonb (j : Jsonb A)
  | object (fields : List (String × Jsonb A))
deriving DecidableEq

variable {A : Type} [DecidableEq A]

/-- `jsonb_typeof`. -/
@[simp] def Jsonb.typeof : Jsonb A → String
  | .null => "null"
  | .boolean _ => "boolean"
  | .number _ => "number"
  | .string _ => "string"
  | .array _ => "array"

/-- A cast, for the texts that are cast. -/
@[simp] def cast : DataType → Value A → Option (Value A)
  | .text, .text s => some (.text s)
  | .jsonb, .text "null" => some (.jsonb .null)
  | .jsonb, .text "[]" => some (.jsonb (.array []))
  | _, _ => none

@[simp] def call : Function → Value A → Option (Value A)
  | .jsonbTypeof, .jsonb j => some (.text j.typeof)
  | .toJsonb, .text s => some (.jsonb (.string s))
  | _, _ => none

@[simp] def negation : Value A → Option (Value A)
  | .boolean b => some (.boolean !b)
  | _ => none

/-- `AND` of three-valued logic. -/
@[simp] def conjunction : Option (Value A) → Option (Value A) → Option (Value A)
  | some (.boolean false), _ | _, some (.boolean false) => some (.boolean false)
  | some (.boolean true), some (.boolean true) => some (.boolean true)
  | _, _ => none

@[simp] def disjunction (v w : Option (Value A)) : Option (Value A) :=
  (conjunction (v.bind negation) (w.bind negation)).bind negation

/-- The text of a field; `print` gives that of a value that is no string. -/
@[simp] def textOf (print : Jsonb A → String) : Jsonb A → Option (Value A)
  | .null => none
  | .string s => some (.text s)
  | j => some (.text (print j))

/-- The operators that give null for null. -/
@[simp] def strict (print : Jsonb A → String) : Operator → Value A → Value A → Option (Value A)
  | .jsonField, .object fields, .text key => (fields.lookup key).map .jsonb
  | .jsonTextField, .object fields, .text key =>
    (fields.lookup key).bind (textOf print)
  | .jsonbFieldExists, .object fields, .text key =>
    some (.boolean (fields.lookup key).isSome)
  | .equals, v, w => some (.boolean (v = w))
  | .notEquals, v, w | .cypherNotEquals, v, w => some (.boolean (v ≠ w))
  | _, _, _ => none

/-- The value of an expression for an entity with these properties. -/
@[simp] def evaluate (print : Jsonb A → String) (fields : List (String × Jsonb A)) :
    Expression → Option (Value A)
  | .compoundIdentifier _ => some (.object fields)
  | .literal value => some (.text value)
  | .nullLiteral | .emptyArray => none
  | .typeCast e dataType => (evaluate print fields e).bind (cast dataType)
  | .functionCall function e => (evaluate print fields e).bind (call function)
  | .not e => (evaluate print fields e).bind negation
  | .binary left .and right =>
    conjunction (evaluate print fields left) (evaluate print fields right)
  | .binary left .or right =>
    disjunction (evaluate print fields left) (evaluate print fields right)
  | .binary left operator right => do
    strict print operator (← evaluate print fields left) (← evaluate print fields right)
  | .parenthetical e => evaluate print fields e

end Dawgs.Ref.PropertyComparison

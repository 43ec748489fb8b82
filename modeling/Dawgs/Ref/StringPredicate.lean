import Dawgs.Lib.Like

/-!
# Predicates on strings

`CONTAINS`, `STARTS WITH` and `ENDS WITH` as the translator emits them. Its
operands have been translated and stand on the operand stack; popping one
applies the type hints of its operator, which for a property lookup means
that it is read as text. `PopBinaryExpression` makes a binary expression of
them and applies the type hints of the Cypher operator. It is there, and
only for a left operand that is a property lookup, that the wildcards of a
literal are escaped. `rewriteBinaryExpression` then turns a literal into a
pattern for `LIKE`, and anything else into a call of a function of the
schema, and pushes the result, which gets the hints of `LIKE` when it is
popped in its turn.

The types that are inferred for function calls are left out: they add a cast
to a text and change no operand.
-/

namespace Dawgs.Ref.StringPredicate

open Lib

inductive StringOperator where
  | contains | startsWith | endsWith
deriving DecidableEq

inductive Operator where
  | propertyLookup | jsonField | jsonTextField
  | string (operator : StringOperator)
  | like
  | other (name : String)
deriving DecidableEq

/-- A literal is a string or has another type. -/
inductive Literal where
  | text (s : List Char)
  | other (dataType : String)
deriving DecidableEq

inductive Expression where
  | literal (value : Literal)
  | parameter (name : String)
  | compoundIdentifier (path : List String)
  | binary (operator : Operator) (left right : Expression)
  | functionCall (function : String) (parameters : List Expression)
  | parenthetical (e : Expression)
  | typeCast (e : Expression) (dataType : String)
  | any (e : Expression)

/-- `OperatorIsPropertyLookup`. -/
def Operator.isPropertyLookup : Operator → Bool
  | .propertyLookup | .jsonField | .jsonTextField => true
  | _ => false

/-- The operands of a property lookup, through any-expressions. -/
def expressionToPropertyLookup : Expression → Option (Expression × Expression)
  | .any e => expressionToPropertyLookup e
  | .binary operator left right =>
    if operator.isPropertyLookup then some (left, right) else none
  | _ => none

def rewriteStringWildCardLiteral : Expression → Except String Expression
  | .literal (.text s) => .ok (.literal (.text (Like.escape s)))
  | .literal (.other dataType) =>
    .error ("expected a string literal but received type: " ++ dataType)
  | e => .ok e

/-- An operand that is a property lookup is read as text. -/
def lookupAsText (e : Expression) : Expression :=
  match expressionToPropertyLookup e with
  | some (left, right) => .binary .jsonTextField left right
  | none => e

/-- `rewritePropertyLookupOperands`, for the operators at hand. -/
def rewritePropertyLookupOperands (operator : Operator)
    (left right : Expression) : Except String (Expression × Expression) :=
  match operator, expressionToPropertyLookup left with
  | .string _, some _ =>
    (rewriteStringWildCardLiteral right).map fun right =>
      (lookupAsText left, lookupAsText right)
  | _, _ => .ok (lookupAsText left, lookupAsText right)

/-- `applyBinaryExpressionTypeHints` as it is applied to what is popped. -/
def popOperand : Expression → Except String Expression
  | .binary .propertyLookup left right =>
    .ok (.binary .jsonTextField left right)
  | .binary operator left right =>
    if operator.isPropertyLookup then .ok (.binary operator left right)
    else (rewritePropertyLookupOperands operator left right).map
      fun (left, right) => .binary operator left right
  | e => .ok e

/-- The literal that `LIKE` gets. -/
def likePattern : StringOperator → List Char → List Char
  | .contains, s => '%' :: (s ++ ['%'])
  | .startsWith, s => s ++ ['%']
  | .endsWith, s => '%' :: s

def predicateFunction : StringOperator → String
  | .contains => "cypher_contains"
  | .startsWith => "cypher_starts_with"
  | .endsWith => "cypher_ends_with"

/-- `cypherStringPredicateTextOperand`. -/
def textOperand (e : Expression) : Expression :=
  match expressionToPropertyLookup e with
  | some (left, right) => .binary .jsonTextField left right
  | none => .typeCast e "text"

/-- The left operand of a predicate may be a binary expression only if it is
a property lookup. -/
def unexpectedLeftOperand : Expression → Bool
  | .binary operator _ _ => !operator.isPropertyLookup
  | _ => false

section

variable (operator : StringOperator) (left right : Expression)

def rewriteBinaryExpression
    : Except String Expression :=
  if unexpectedLeftOperand left then
    .error "unexpected operator for binary expression \"like\" left operand"
  else match right with
    | .literal (.text s) =>
      .ok (.binary .like left (.literal (.text (likePattern operator s))))
    | .literal (.other dataType) =>
      .error ("expected text data type but found " ++ dataType ++
        " as right operand for operator like")
    | right => .ok (.functionCall (predicateFunction operator)
        [textOperand left, textOperand right])

/-- A predicate, from its operands on the stack to what is popped as a
constraint. -/
def translate : Except String Expression := do
  let right ← popOperand right
  let left ← popOperand left
  let (left, right) ← rewritePropertyLookupOperands (.string operator) left right
  let e ← rewriteBinaryExpression operator left right
  popOperand e

end

/-! ### What the predicates mean -/

/-- `strpos`: the position of the first occurrence, counted from one. -/
def strpos (haystack needle : List Char) : Nat :=
  match haystack.tails.findIdx? (needle.isPrefixOf ·) with
  | some i => i + 1
  | none => 0

/-- `left`. -/
def leftText (text : List Char) (n : Nat) : List Char := text.take n

/-- `right`. -/
def rightText (text : List Char) (n : Nat) : List Char := text.drop (text.length - n)

/-- The functions of the schema. -/
def callPredicate : StringOperator → List Char → List Char → Bool
  | .contains, haystack, needle => 0 < strpos haystack needle
  | .startsWith, haystack, needle => leftText haystack needle.length = needle
  | .endsWith, haystack, needle => rightText haystack needle.length = needle

/-- A predicate where its left operand has the text `v` and a right operand
that is no literal has the text `s`; nothing where it fails. -/
def evaluate (v s : List Char) : Expression → Option Bool
  | .binary .like _ (.literal (.text pattern)) => Like.like pattern v
  | .functionCall function [_, _] =>
    [.contains, .startsWith, .endsWith].findSome? fun operator =>
      if predicateFunction operator = function then
        some (callPredicate operator v s)
      else none
  | _ => none

/-- What the operators of Cypher mean. -/
def StringOperator.Holds : StringOperator → List Char → List Char → Prop
  | .contains, s, v => s <:+: v
  | .startsWith, s, v => s <+: v
  | .endsWith, s, v => s <:+ v

end Dawgs.Ref.StringPredicate

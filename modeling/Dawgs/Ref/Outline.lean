import Dawgs.Lib.RoseTree
import Dawgs.Ref.Frontend

/-!
# What an expression says

The parts of an expression at their places, as a tree of labels. `outline`
reads it off a parse tree by the rules of the grammar, and `shape` off the
syntax tree that the frontend builds. Nothing here is taken from the
visitors: a rule that only stands between two others passes on what is below
it, and every other rule puts its label over it.

Punctuation has no label of its own. The entries of a map are in the order
of their keys, and of several equal relationship types one is kept, since a
map and a list of kinds do not tell more.

`clean` is a condition on the parse tree alone, rule by rule.
-/

namespace Dawgs.Ref.Frontend

open Lib Cypher Grammar

inductive Label where
  | or | xor | and | not
  | comparison
  | arithmetic
  /-- A comparison, predicate or arithmetic operator over its right operand. -/
  | operator (operator : Operator)
  | sign (operator : Operator)
  | lookup
  | index
  | slice (lower upper : Bool)
  /-- All of the kinds, or any of them. -/
  | kinds | anyKind
  | name (name : String)
  | variable_ (symbol : String)
  | parameter (symbol : String)
  | null
  | literal (value : LiteralValue)
  | all (symbol : String)
  | list | map
  | entry (key : String)
  | listComprehension | patternComprehension
  | shortestPath (all : Bool)
  | quantifier (type : QuantifierType)
  | filter | specifier | where_
  | pattern | node
  | relationship (direction : Direction)
  | range (lower upper : Option Int)
  | properties
  | parentheses
  | function (distinct : Bool)
  | functionName | namespace_
  | projection (as : Option String)
  | nothing

abbrev Outline := RoseTree Label

def nameOutline (name : String) : Outline := .node (.name name) []

def variableOutline (symbol : String) : Outline := .node (.variable_ symbol) []

/-! ## Of a parse tree -/

def wrapIf (condition : Bool) (label : Label) (os : List Outline) : List Outline :=
  if condition then [.node label os] else os

/-- One predicate after the other, each over all before it. -/
def predicateChain : List Outline → List Outline
  | [] => []
  | o :: predicates =>
    [predicates.foldl (fun left p => .node .comparison [left, p]) o]

/-- The operand becomes the first child of what follows it. -/
def under (operand : Outline) : Outline → Outline
  | .node label os => .node label (operand :: os)

/-- Lookups, indexes and labels, each applied to all before it. -/
def suffixChain : List Outline → List Outline
  | [] => []
  | o :: suffixes => [suffixes.foldl under o]

variable (cs : List Tree)

/-- The operators between the operands of a rule of arithmetic. -/
def operatorsWritten : List Operator := cs.filterMap fun
    | .token ⟨.symbol, text⟩ => some ((parseOperator text).getD .invalid)
    | _ => none

def arithmeticChain (operators : List Operator) : List Outline → List Outline
  | [] => []
  | o :: os =>
    [.node .arithmetic (o :: List.zipWith
      (fun operator o => .node (.operator operator) [o]) operators os)]

def predicateOperator : Operator :=
  if hasToken .starts cs then .startsWith
  else if hasToken .ends cs then .endsWith
  else if hasToken .contains cs then .contains
  else .regexMatch

/-- Keys and values in turn. -/
def pairs : List Outline → List (String × Outline)
  | .node (.name key) _ :: value :: rest => (key, value) :: pairs rest
  | _ => []

def mapEntries (os : List Outline) : List Outline :=
  ((pairs os).foldl (fun map p => map.orderedInsert (fun a b => a.1 ≤ b.1) p) []).map
    fun p => .node (.entry p.1) [p.2]

/-- The names without repetition. -/
def kindNames : List String := ((cs.filter (isRule .relTypeName)).map text).foldl addKind []

def integerBound : Option Int := (cs.find? (isRule .integerLiteral)).bind fun t => parseInt (text t)

/-- The bounds of a range: one number alone is both. -/
def rangeBounds : Option Int × Option Int :=
  let before := cs.takeWhile fun t => !isToken .range t
  let after := cs.dropWhile fun t => !isToken .range t
  (integerBound before,
    if hasToken .range cs then integerBound after else integerBound before)

/-- The direction that the arrow heads say. -/
def directionOf (left right : Bool) : Direction :=
  match left, right with
  | true, false => .inbound
  | false, true => .outbound
  | _, _ => .both

def literalOutline (value : Option LiteralValue) : List Outline :=
  value.toList.map fun value => .node (.literal value) []

/-- What a rule makes of what its children say. -/
def assemble (r : Rule) (cs : List Tree) (os : List Outline) : List Outline :=
  match r with
  | .orExpression => wrapIf (hasToken .or cs) .or os
  | .xorExpression => wrapIf (hasToken .xor cs) .xor os
  | .andExpression => wrapIf (hasToken .and cs) .and os
  | .notExpression =>
    (fun os => [.node .not os])^[cs.countP (isToken .not)] os
  | .comparisonExpression =>
    wrapIf (cs.any (isRule .partialComparisonExpression)) .comparison os
  | .partialComparisonExpression =>
    (operatorsWritten cs).map fun operator => .node (.operator operator) os
  | .stringListNullPredicateExpression => predicateChain os
  | .stringPredicateExpression => [.node (.operator (predicateOperator cs)) os]
  | .listPredicateExpression => [.node (.operator .in_) os]
  | .nullPredicateExpression =>
    [.node (.operator (if hasToken .not cs then .isNot else .is)) [.node .null []]]
  | .addOrSubtractExpression | .multiplyDivideModuloExpression
  | .powerOfExpression =>
    if operatorsWritten cs = [] then os
    else arithmeticChain (operatorsWritten cs) os
  | .unaryAddOrSubtractExpression =>
    if operatorsWritten cs = [] then os
    else (operatorsWritten cs).map fun operator => .node (.sign operator) os
  | .nonArithmeticOperatorExpression => suffixChain os
  | .listOperatorExpression =>
    if hasToken .range cs then
      [.node (.slice (!isToken .range ((dense cs).getD 1 (symbol "")))
        (!isToken .range ((dense cs).reverse.getD 1 (symbol "")))) os]
    else [.node .index os]
  | .propertyLookup => [.node .lookup os]
  | .propertyKeyName => [nameOutline (unescapePropertyKeyName (texts cs))]
  | .labelName | .relTypeName | .schemaName | .symbolicName | .reservedWord =>
    [nameOutline (texts cs)]
  | .variable_ => [variableOutline (texts cs)]
  | .nodeLabels => [.node .kinds os]
  | .relationshipTypes => [.node .kinds ((kindNames cs).map nameOutline)]
  | .atom =>
    if hasToken .count cs then
      [.node (.function false) [.node .functionName [.node .namespace_ [], nameOutline "count"],
          .node (.all "*") []]]
    else os
  | .literal =>
    match cs with
    | [.token ⟨.null, _⟩] => [.node .null []]
    | [.token ⟨.string, text⟩] => [.node (.literal (.text text)) []]
    | _ => os
  | .booleanLiteral => literalOutline ((parseBool (texts cs)).map .boolean)
  | .doubleLiteral => literalOutline (parseFloat (texts cs))
  | .integerLiteral => literalOutline ((parseInt (texts cs)).map .integer)
  | .listLiteral => [.node .list os]
  | .mapLiteral => [.node .map (mapEntries os)]
  | .parameter => [.node (.parameter (texts cs.tail)) []]
  | .listComprehension => [.node .listComprehension os]
  | .patternComprehension => [.node .patternComprehension os]
  | .shortestPathPattern =>
    [.node (.shortestPath (hasToken .allShortestPaths cs)) os]
  | .quantifier => [.node (.quantifier (quantifierType cs)) os]
  | .filterExpression => [.node .filter os]
  | .idInColl => [.node .specifier os]
  | .where_ => [.node .where_ os]
  | .patternPredicate => [.node .pattern os]
  | .nodePattern => [.node .node os]
  | .relationshipPattern =>
    [.node (.relationship (directionOf (cs.any (isRule .leftArrowHead))
      (cs.any (isRule .rightArrowHead)))) os]
  | .rangeLiteral =>
    [.node (.range (rangeBounds cs).1 (rangeBounds cs).2) []]
  | .properties => [.node .properties os]
  | .parenthesizedExpression => [.node .parentheses os]
  | .functionInvocation => [.node (.function (hasToken .distinct cs)) os]
  | .functionName => [.node .functionName os]
  | .namespace_ => [.node .namespace_ os]
  | _ => os

mutual

def outline : Tree → List Outline
  | .token _ => []
  | .node r cs => assemble r cs (outlines cs)

def outlines : List Tree → List Outline
  | [] => []
  | t :: ts => outline t ++ outlines ts

end

/-! ## Of a syntax tree -/

def kindsOutline (names : List String) : List Outline :=
  if names = [] then [] else [.node .kinds (names.map nameOutline)]

/-- What is said by an expression that may be missing. -/
def optional (e : Expression) (o : Outline) : List Outline :=
  if e.isNil then [] else [o]

mutual

def shape : Expression → Outline
  | .nil => .node .nothing []
  | .var v => variableOutline v.symbol
  | .literal l => if l.null then .node .null [] else .node (.literal l.value) []
  | .parameter p => .node (.parameter p.symbol) []
  | .rangeQuantifier value => .node (.all value) []
  | .propertyLookup atom key => .node .lookup [shape atom, nameOutline key]
  | .functionInvocation distinct namespaces name arguments =>
    .node (.function distinct) (.node .functionName [.node .namespace_ (namespaces.map nameOutline),
        nameOutline name] :: shapes arguments)
  | .parenthetical e => .node .parentheses [shape e]
  | .negation e => .node .not [shape e]
  | .conjunction es => .node .and (shapes es)
  | .disjunction es => .node .or (shapes es)
  | .exclusiveDisjunction es => .node .xor (shapes es)
  | .listLiteral es => .node .list (shapes es)
  | .mapLiteral items => .node .map (itemShapes items)
  | .comparison left partials =>
    .node .comparison (shape left :: partialShapes partials)
  -- The frontend wraps the operand of a sign, without an operator.
  | .arithmetic left partials =>
    if partials.isEmpty then shape left
    else .node .arithmetic (shape left :: partialShapes partials)
  | .unaryAddOrSubtract operator right => .node (.sign operator) [shape right]
  | .quantifier type filter => .node (.quantifier type) (filterShape filter)
  | .kindMatcher reference kinds isExclusive =>
    .node (if isExclusive then .kinds else .anyKind) (shape reference :: kinds.map nameOutline)
  | .properties p => .node .properties (propertiesShape p)
  | .nodePattern p =>
    .node .node
      ((p.variable_.toList.map fun v => variableOutline v.symbol) ++
        kindsOutline p.kinds ++ optional p.properties (shape p.properties))
  | .relationshipPattern p =>
    .node (.relationship p.direction)
      ((p.variable_.toList.map fun v => variableOutline v.symbol) ++
        kindsOutline p.kinds ++ (p.range.toList.map fun r =>
          .node (.range r.startIndex r.endIndex) []) ++
        optional p.properties (shape p.properties))
  | .patternPredicate elements => .node .pattern (elementShapes elements)
  | .projectionItem e as =>
    .node (.projection (as.map Variable.symbol)) [shape e]

def shapes : List Expression → List Outline
  | [] => []
  | e :: es => shape e :: shapes es

def partialShapes : List (PartialExpression Expression) → List Outline
  | [] => []
  | p :: ps => .node (.operator p.operator) [shape p.right] :: partialShapes ps

def itemShapes : List (MapItem Expression) → List Outline
  | [] => []
  | item :: items =>
    .node (.entry item.key) [shape item.value] :: itemShapes items

def propertiesShape : Properties Expression → List Outline
  | ⟨_, some p⟩ => [.node (.parameter p.symbol) []]
  | ⟨items, none⟩ => [.node .map (itemShapes items)]

def elementShapes : List (PatternElement Expression) → List Outline
  | [] => []
  | p :: ps => shape p.element :: elementShapes ps

def filterShape : Option (FilterExpression Expression) → List Outline
  | none => []
  | some f =>
    [.node .filter (specifierShape f.specifier ++ whereShape f.where_)]

def specifierShape : Option (IDInCollection Expression) → List Outline
  | none => []
  | some c =>
    [.node .specifier ((c.variable_.toList.map fun v =>
      variableOutline v.symbol) ++ [shape c.expression])]

def whereShape : Option (Where Expression) → List Outline
  | none => []
  | some w => [.node .where_ (shapes w.expressions)]

end

/-! ## A condition on the parse tree -/

/-- White space without a comment, as far as `strings.TrimSpace` takes it
for that; every other child is fine too. -/
def isBlank : Tree → Bool
  | .token t => t.type ≠ .space || trimSpace t.text = ""
  | .node _ _ => true

/-- The spaces that an operator follows are blank. -/
def blankBeforeOperators : List Tree → Bool
  | [] => true
  | t :: ts =>
    (isBlank t || !ts.any (isToken .symbol)) && blankBeforeOperators ts

def mapKeys : List String := (cs.filter (isRule .propertyKeyName)).map fun t =>
    unescapePropertyKeyName (text t)

/-- At most one `NOT` in a row; no list operator, comprehension or shortest
path; distinct keys in a map; no comment before an operator of arithmetic;
no range that is one number. -/
def fine (r : Rule) (cs : List Tree) : Bool :=
  match r with
  | .notExpression => cs.countP (isToken .not) ≤ 1
  | .listOperatorExpression | .listComprehension | .patternComprehension
  | .shortestPathPattern => false
  | .mapLiteral => (mapKeys cs).Nodup
  | .addOrSubtractExpression | .multiplyDivideModuloExpression
  | .powerOfExpression => blankBeforeOperators cs
  | .rangeLiteral => hasToken .range cs || !cs.any (isRule .integerLiteral)
  | _ => true

mutual

/-- Every rule of the tree is fine. -/
def clean : Tree → Bool
  | .token _ => true
  | .node r cs => fine r cs && cleanAll cs

def cleanAll : List Tree → Bool
  | [] => true
  | t :: ts => clean t && cleanAll ts

end

end Dawgs.Ref.Frontend

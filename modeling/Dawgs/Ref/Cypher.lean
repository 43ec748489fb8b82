import Dawgs.Ref.Digraph

/-!
# The Cypher syntax tree

The frontend turns a query text into the structs of `models/cypher`. An
`Expression` is an `any` there, and what the frontend stores in one is a
pointer to one of a fixed set of structs. These are the constructors here.
The structs that only occur in a field of their own type, such as the
parts of a comparison, stay structures, over the type of expressions, and
the inductive type closes the knot.

A nil interface is `nil`. A pointer field that may be nil is an `Option`.
Two kinds of value Go has are left out: an interface that holds a nil
pointer, and nil pointers in the lists of the parts of an expression. The
frontend makes neither. Map literals are lists in the order of their keys,
which is the order `ForEachItem` visits them in.

Clauses are compared by their address, so a reading clause carries one.
The frontend allocates each clause anew.
-/

namespace Dawgs.Ref.Cypher

/-- `graph.Kinds`, each kind by its name. -/
abbrev Kinds := List String

/-- `Operator`. -/
inductive Operator where
  | add | subtract | multiply | divide | modulo | powerOf
  | equals | regexMatch | notEquals | greaterThan | greaterThanOrEqualTo
  | lessThan | lessThanOrEqualTo | startsWith | endsWith | contains | in_
  | is | isNot | not | and | or | invalid
deriving DecidableEq

/-- `QuantifierType`. -/
inductive QuantifierType where
  | all | any | none | single | invalid
deriving DecidableEq

structure Variable where
  symbol : String
deriving DecidableEq

/-- The values a literal holds; a text is the raw token, quotes included. -/
inductive LiteralValue where
  | text (token : String)
  | integer (value : Int)
  | float (token : String)
  | boolean (value : Bool)
deriving DecidableEq

structure Literal where
  value : LiteralValue
  null : Bool
deriving DecidableEq

structure Parameter where
  symbol : String
deriving DecidableEq

structure PatternRange where
  startIndex : Option Int
  endIndex : Option Int
deriving DecidableEq

section

variable (E : Type)

/-- `PartialComparison` and `PartialArithmeticExpression`, which are one
struct under two names. -/
structure PartialExpression where
  operator : Operator
  right : E

structure MapItem where
  key : String
  value : E

structure Where where
  expressions : List E

structure IDInCollection where
  variable_ : Option Variable
  expression : E

structure FilterExpression where
  specifier : Option (IDInCollection E)
  where_ : Option (Where E)

/-- `Properties`: a map, or a parameter that stands for one. -/
structure Properties where
  map : List (MapItem E)
  parameter : Option Parameter

structure NodePattern where
  variable_ : Option Variable
  kinds : Kinds
  properties : E

structure RelationshipPattern where
  variable_ : Option Variable
  kinds : Kinds
  direction : Direction
  range : Option PatternRange
  properties : E

structure PatternElement where
  element : E

end

/-- `Expression`, by what the interface holds. -/
inductive Expression where
  | nil
  | var (v : Variable)
  | literal (l : Literal)
  | parameter (p : Parameter)
  | rangeQuantifier (value : String)
  | propertyLookup (atom : Expression) (symbol : String)
  | functionInvocation (distinct : Bool) (namespaces : List String)
      (name : String) (arguments : List Expression)
  | parenthetical (expression : Expression)
  | negation (expression : Expression)
  | conjunction (expressions : List Expression)
  | disjunction (expressions : List Expression)
  | exclusiveDisjunction (expressions : List Expression)
  | listLiteral (expressions : List Expression)
  | mapLiteral (items : List (MapItem Expression))
  | comparison (left : Expression) (partials : List (PartialExpression Expression))
  | arithmetic (left : Expression) (partials : List (PartialExpression Expression))
  | unaryAddOrSubtract (operator : Operator) (right : Expression)
  | quantifier (type : QuantifierType) (filter : Option (FilterExpression Expression))
  | kindMatcher (reference : Expression) (kinds : Kinds) (isExclusive : Bool)
  | properties (p : Properties Expression)
  | nodePattern (p : NodePattern Expression)
  | relationshipPattern (p : RelationshipPattern Expression)
  | patternPredicate (elements : List (PatternElement Expression))
  | projectionItem (expression : Expression) (as : Option Variable)

namespace Expression

def isNil : Expression → Bool
  | nil => true
  | _ => false

end Expression

/-- `PatternElement.AsNodePattern`. -/
def PatternElement.asNodePattern : PatternElement Expression → Option (NodePattern Expression)
  | ⟨.nodePattern p⟩ => some p
  | _ => none

/-- `PatternElement.AsRelationshipPattern`. -/
def PatternElement.asRelationshipPattern :
    PatternElement Expression → Option (RelationshipPattern Expression)
  | ⟨.relationshipPattern p⟩ => some p
  | _ => none

structure PatternPart where
  variable_ : Option Variable
  shortestPathPattern : Bool
  allShortestPathsPattern : Bool
  pathDirectionReversed : Bool
  patternElements : List (Option (PatternElement Expression))

structure Match where
  optional : Bool
  pattern : List (Option PatternPart)
  where_ : Option (Where Expression)

structure Unwind where
  expression : Expression
  variable_ : Option Variable

/-- `ReadingClause`, with the address it is found at. -/
structure ReadingClause where
  address : Nat
  match_ : Option Match
  unwind : Option Unwind

structure SortItem where
  ascending : Bool
  expression : Expression

structure Order where
  items : List (Option SortItem)

/-- `Skip` and `Limit`. -/
structure RowBound where
  value : Expression

structure Projection where
  distinct : Bool
  all : Bool
  order : Option Order
  skip : Option RowBound
  limit : Option RowBound
  items : List Expression

structure With where
  projection : Option Projection
  where_ : Option (Where Expression)

structure Return where
  projection : Option Projection

/-- `AssignmentOperator`. -/
inductive AssignmentOperator where
  | assignment | additionAssignment | labelAssignment
deriving DecidableEq

structure SetItem where
  left : Expression
  operator : AssignmentOperator
  right : Expression

structure RemoveItem where
  kindMatcher : Expression
  property : Expression

structure MergeAction where
  onCreate : Bool
  onMatch : Bool
  set : List SetItem

/-- `UpdatingClause`, by the clause it holds. -/
inductive UpdatingClause where
  | create (unique : Bool) (pattern : List (Option PatternPart))
  | merge (patternPart : Option PatternPart) (actions : List MergeAction)
  | set (items : List SetItem)
  | remove (items : List RemoveItem)
  | delete (detach : Bool) (expressions : List Expression)

structure SinglePartQuery where
  readingClauses : List (Option ReadingClause)
  updatingClauses : List UpdatingClause
  return_ : Option Return

structure MultiPartQueryPart where
  readingClauses : List (Option ReadingClause)
  updatingClauses : List UpdatingClause
  with_ : Option With

structure MultiPartQuery where
  parts : List (Option MultiPartQueryPart)
  singlePartQuery : Option SinglePartQuery

structure SingleQuery where
  singlePartQuery : Option SinglePartQuery
  multiPartQuery : Option MultiPartQuery

structure RegularQuery where
  singleQuery : Option SingleQuery

end Dawgs.Ref.Cypher

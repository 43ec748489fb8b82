import Mathlib

/-!
# Local constraints

`PartitionConstraintByLocality` splits a constraint into the terms that
speak of local identifiers only, which may stand at a join, and the rest,
which stays in the `WHERE`. What a term speaks of is found by a walk over
its syntax tree. The walk stops at a node it has no cursor for, or at a nil
one, and nobody asks whether it did: a term is local unless the walk has
come to a foreign identifier.

An `EXISTS` is looked at differently. Its query is checked part by part,
with the names that its `FROM` binds, and each part is walked by itself.

In the tree the types that the walk treats alike are one constructor with a
tag. A nil expression is `nil`, also where it means that there is none, and
so is a future that is not satisfied. The walk tells a value from a pointer
to one. A constructor stands for the form that has a cursor, or for both if
both have one. The nodes without a cursor are `unknown`: those of other
types, such as `Values`, `Wildcard` and `KindListLiteral`, an
`AnyExpression` that is not a pointer, or a pointer to a `Select`.
-/

namespace Dawgs.Ref.Locality

abbrev Identifier := String

/-- Operators; all but the conjunction are the same here. -/
inductive Operator where
  | and
  | other (symbol : String)
  deriving DecidableEq

/-- Types without nodes in them. -/
inductive LeafType where
  | operator | literal | parameter | formattingLiteral

/-- Types with one expression in them. -/
inductive WrapperType where
  | typeCast | parenthetical | edgeArrayFromPathIDs | variadic
  | arrayExpression | all | any | unary | orderBy

/-- Types that are a list of expressions. -/
inductive ListType where
  | compositeValue | arrayLiteral | projection

mutual

inductive Node where
  | nil
  | identifier (name : Identifier)
  | compoundIdentifier (names : List Identifier)
  | leaf (type : LeafType)
  | rowColumnReference (e : Node) (column : Identifier)
  | wrapper (type : WrapperType) (e : Node)
  | binary (operator : Operator) (left right : Node)
  | values (type : ListType) (es : List Node)
  /-- `window` has the expressions of `Over`. -/
  | functionCall (parameters window : List Node)
  | arrayIndex (e : Node) (indexes : List Node)
  | arraySlice (e lower upper : Node)
  | case_ (operand : Node) (conditions then_ : List Node) (else_ : Node)
  | aliased (e : Node) (as_ : Option Identifier)
  | exists_ (subquery : Query) (negated : Bool)
  | subquery (q : Query)
  | lateralSubquery (q : Query) (binding : Option Identifier)
  | query (q : Query)
  | select (s : Select)
  | setOperation (left right : Node)
  | tableReference (name : List Identifier) (binding : Option Identifier)
  | projectionFrom (projection : List Node) (from_ : List FromClause)
  | future (node : Node)
  | unknown (nodes : List Node)

inductive Query where
  | mk (commonTableExpressions : List CommonTableExpression) (body : Node)
      (orderBy : List Node) (offset limit : Node)

inductive CommonTableExpression where
  | mk (alias_ : Identifier) (shape : Option (List Identifier)) (query : Query)

inductive Select where
  | mk (projection : List Node) (from_ : List FromClause) (where_ : Node)
      (groupBy : List Node) (having : Node)

inductive FromClause where
  | mk (source : Node) (joins : List Join)

inductive Join where
  | mk (table constraint : Node)

end

def Node.isNil : Node → Bool
  | .nil => true
  | _ => false

/-! ## The walk -/

/-- How a walk ends: it gets through, it stops with an error, or it comes
to an identifier that is not local. -/
inductive Outcome where
  | through
  | stopped
  | foreign
  deriving DecidableEq

/-- One walk after the other, until one does not get through. -/
def Outcome.sequence : List Outcome → Outcome
  | [] => .through
  | .through :: os => sequence os
  | o :: _ => o

/-- What `ExpressionReferencesOnlyLocalIdentifiers` makes of a walk; its
error is dropped. -/
def Outcome.isLocal (o : Outcome) : Bool := o ≠ .foreign

/-- The end of a walk inside a visit. -/
def Outcome.ofLocal (isLocal : Bool) : Outcome :=
  if isLocal then .through else .foreign

/-- The visitor at an identifier. -/
def visit (localScope : Finset Identifier) (name : Identifier) : Outcome :=
  .ofLocal (name ∈ localScope)

/-- The visitor at a compound identifier. -/
def visitCompound (localScope : Finset Identifier) : List Identifier → Outcome
  | [] => .through
  | name :: _ => visit localScope name

/-- Two lists in turn. -/
def alternate {α : Type} : List α → List α → List α
  | a :: as, b :: bs => a :: b :: alternate as bs
  | _, _ => []

/-- `AddFromExpressionBinding`. -/
def Node.addBinding (localScope : Finset Identifier) : Node → Finset Identifier
  | .tableReference _ (some binding) => insert binding localScope
  | .lateralSubquery _ (some binding) => insert binding localScope
  | _ => localScope

mutual

/-- The walk over a node: the visitor, and then its branches. -/
def Node.walk (localScope : Finset Identifier) : Node → Outcome
  | .nil => .stopped
  | .unknown _ => .stopped
  | .identifier name => visit localScope name
  | .compoundIdentifier names => visitCompound localScope names
  | .leaf _ => .through
  | .rowColumnReference e _ => .ofLocal (e.walk localScope).isLocal
  | .wrapper _ e => e.walk localScope
  | .binary _ left right =>
    .sequence [left.walk localScope, right.walk localScope]
  | .values _ es => .sequence (walks localScope es)
  | .functionCall parameters _ => .sequence (walks localScope parameters)
  | .arrayIndex e indexes =>
    .sequence (e.walk localScope :: walks localScope indexes)
  | .arraySlice e lower upper =>
    .sequence [e.walk localScope,
      if lower.isNil then .through else lower.walk localScope,
      if upper.isNil then .through else upper.walk localScope]
  | .case_ operand conditions then_ else_ =>
    if conditions.length = then_.length then
      .sequence
        ((if operand.isNil then .through else operand.walk localScope) ::
          alternate (walks localScope conditions) (walks localScope then_) ++
          [if else_.isNil then .through else else_.walk localScope])
    else .stopped
  | .aliased e as_ =>
    .sequence (e.walk localScope :: as_.toList.map (visit localScope))
  | .exists_ q _ => .ofLocal (q.check localScope)
  | .subquery q => q.walk localScope
  | .lateralSubquery q binding =>
    .sequence (q.walk localScope :: binding.toList.map (visit localScope))
  | .query q => q.walk localScope
  | .select s => s.walk localScope
  | .setOperation left right =>
    .sequence [left.walk localScope, right.walk localScope]
  | .tableReference name binding =>
    .sequence (visitCompound localScope name :: binding.toList.map (visit localScope))
  | .projectionFrom projection from_ =>
    .sequence (walks localScope projection ++ walkFroms localScope from_)
  | .future node =>
    if node.isNil then .through else node.walk localScope

def walks (localScope : Finset Identifier) : List Node → List Outcome
  | [] => []
  | e :: es => e.walk localScope :: walks localScope es

/-- `OrderBy`, `Offset` and `Limit` are no branches. -/
def Query.walk (localScope : Finset Identifier) : Query → Outcome
  | .mk commonTableExpressions body _ _ _ =>
    .sequence (walkCommonTableExpressions localScope
      commonTableExpressions ++ [body.walk localScope])

def walkCommonTableExpressions (localScope : Finset Identifier) :
    List CommonTableExpression → List Outcome
  | [] => []
  | c :: cs =>
    c.walk localScope :: walkCommonTableExpressions localScope cs

/-- The shape is a pointer, and only its value has a cursor. -/
def CommonTableExpression.walk (localScope : Finset Identifier) : CommonTableExpression → Outcome
  | .mk alias_ shape query =>
    .sequence [query.walk localScope, visit localScope alias_,
      if shape.isSome then .stopped else .through]

/-- `GroupBy` is no branch. -/
def Select.walk (localScope : Finset Identifier) : Select → Outcome
  | .mk projection from_ where_ _ having =>
    .sequence (walks localScope projection ++ walkFroms localScope from_ ++
      [if where_.isNil then .through else where_.walk localScope,
        if having.isNil then .through else having.walk localScope])

def walkFroms (localScope : Finset Identifier) : List FromClause → List Outcome
  | [] => []
  | c :: cs => c.walk localScope :: walkFroms localScope cs

def FromClause.walk (localScope : Finset Identifier) : FromClause → Outcome
  | .mk source joins =>
    .sequence (source.walk localScope :: walkJoins localScope joins)

def walkJoins (localScope : Finset Identifier) : List Join → List Outcome
  | [] => []
  | j :: js => j.walk localScope :: walkJoins localScope js

/-- The constraint of the join operator is a branch also if it is nil. -/
def Join.walk (localScope : Finset Identifier) : Join → Outcome
  | .mk table constraint =>
    .sequence [table.walk localScope, constraint.walk localScope]

/-- `QueryReferencesOnlyLocalIdentifiers`. -/
def Query.check (localScope : Finset Identifier) : Query → Bool
  | .mk commonTableExpressions body orderBy offset limit =>
    commonTableExpressions.isEmpty && body.checkSelect localScope &&
      (walks localScope orderBy).all Outcome.isLocal &&
      (offset.walk localScope).isLocal && (limit.walk localScope).isLocal

/-- The body of a query has to be a select. -/
def Node.checkSelect (localScope : Finset Identifier) : Node → Bool
  | .select s => s.check localScope
  | _ => false

/-- `SelectReferencesOnlyLocalIdentifiers`. -/
def Select.check (localScope : Finset Identifier) : Select → Bool
  | .mk projection from_ where_ groupBy having =>
    match checkFroms localScope from_ with
    | none => false
    | some scope =>
      (walks scope projection).all Outcome.isLocal && (walks scope groupBy).all Outcome.isLocal &&
        (where_.walk scope).isLocal && (having.walk scope).isLocal

/-- The loop over the `FROM`, which returns the scope after it. -/
def checkFroms (scope : Finset Identifier) : List FromClause → Option (Finset Identifier)
  | [] => some scope
  | c :: cs =>
    match c.check scope with
    | none => none
    | some scope => checkFroms scope cs

def FromClause.check (scope : Finset Identifier) : FromClause → Option (Finset Identifier)
  | .mk source joins =>
    if source.checkFrom scope then
      checkJoins (source.addBinding scope) joins
    else none

def checkJoins (scope : Finset Identifier) : List Join → Option (Finset Identifier)
  | [] => some scope
  | j :: js =>
    match j.check scope with
    | none => none
    | some scope => checkJoins scope js

def Join.check (scope : Finset Identifier) : Join → Option (Finset Identifier)
  | .mk table constraint =>
    if table.checkFrom scope && (constraint.walk scope).isLocal then
      some (table.addBinding scope)
    else none

/-- `FromExpressionReferencesOnlyLocalIdentifiers`. -/
def Node.checkFrom (scope : Finset Identifier) : Node → Bool
  | .tableReference _ _ => true
  | .lateralSubquery q _ => q.check scope
  | _ => false

end

/-! ## The partition -/

/-- `FlattenConjunction`. -/
def flattenConjunction : Node → List Node
  | .binary .and left right =>
    flattenConjunction left ++ flattenConjunction right
  | e => [e]

/-- `IsLocalToScope`. -/
def isLocalToScope (e : Node) (localScope : Finset Identifier) : Bool :=
  e.isNil || (e.walk localScope).isLocal

/-- `OptionalAnd`. -/
def optionalAnd (left right : Node) : Node :=
  if left.isNil then right
  else if right.isNil then left
  else .binary .and left right

/-- The loop of `PartitionConstraintByLocality`. -/
def partitionTerms (localScope : Finset Identifier) : List Node → Node × Node → Node × Node
  | [], parts => parts
  | term :: terms, (joinConstraints, whereConstraints) =>
    if isLocalToScope term localScope then
      partitionTerms localScope terms (optionalAnd joinConstraints term, whereConstraints)
    else
      partitionTerms localScope terms (joinConstraints, optionalAnd whereConstraints term)

/-- `PartitionConstraintByLocality`. -/
def partitionConstraintByLocality (e : Node) (localScope : Finset Identifier) : Node × Node :=
  partitionTerms localScope (flattenConjunction e) (.nil, .nil)

end Dawgs.Ref.Locality

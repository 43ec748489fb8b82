import Dawgs.Ref.Locality

/-!
# What an expression refers to

The identifiers that occur free in an expression, from the language and not
from the optimizer. An identifier refers to a row: by itself, or as the
first part of a compound identifier. The `FROM` of a select binds names,
for the sources after it, for the join constraints that can see them and
for the other parts of the select. Names of tables, columns and aliases do
not refer to rows, and neither does the star.

With the same recursion one gets the hidden references, those in parts of
the tree that are not looked at: the window of a function call, and outside
of an `EXISTS` the `GROUP BY` of a select and what follows the body of a
query. An identifier counts if `all` is set, and `rest` says this for the
parts of a query that a walk does not visit.

A tree is walkable if no walk in it stops.
-/

namespace Dawgs.Ref.Locality

/-- The names a source of a `FROM` binds. -/
def Node.binds : Node → Finset Identifier
  | .tableReference _ (some binding) => {binding}
  | .tableReference name none => name.getLast?.toFinset
  | .lateralSubquery _ binding => binding.toFinset
  | .aliased _ as_ => as_.toFinset
  | _ => ∅

def joinBinds : List Join → Finset Identifier
  | [] => ∅
  | .mk table _ :: js => table.binds ∪ joinBinds js

def fromBinds : List FromClause → Finset Identifier
  | [] => ∅
  | .mk source joins :: cs => source.binds ∪ joinBinds joins ∪ fromBinds cs

/-- The names of the columns of a projection. -/
def outputNames : List Node → Finset Identifier
  | [] => ∅
  | .aliased _ as_ :: es => as_.toFinset ∪ outputNames es
  | _ :: es => outputNames es

/-- The names an `ORDER BY` finds in its query. -/
def Node.orderNames : Node → Finset Identifier
  | .select (.mk projection from_ _ _ _) =>
    fromBinds from_ ∪ outputNames projection
  | _ => ∅

/-- A reference to a row, if it counts. -/
def reference (all : Bool) (name : Identifier) : Finset Identifier :=
  if all && name ≠ "*" then {name} else ∅

def rootReference (all : Bool) : List Identifier → Finset Identifier
  | [] => ∅
  | name :: _ => reference all name

mutual

def Node.refs (all rest : Bool) : Node → Finset Identifier
  | .nil | .leaf _ | .tableReference _ _ => ∅
  | .unknown nodes => listRefs true nodes
  | .identifier name => reference all name
  | .compoundIdentifier names => rootReference all names
  | .rowColumnReference e _ => e.refs all true
  | .wrapper _ e => e.refs all true
  | .binary _ left right => left.refs all true ∪ right.refs all true
  | .values _ es => listRefs all es
  | .functionCall parameters window =>
    listRefs all parameters ∪ listRefs true window
  | .arrayIndex e indexes => e.refs all true ∪ listRefs all indexes
  | .arraySlice e lower upper =>
    e.refs all true ∪ (lower.refs all true ∪ upper.refs all true)
  | .case_ operand conditions then_ else_ =>
    operand.refs all true ∪ (listRefs all conditions ∪ (listRefs all then_ ∪ else_.refs all true))
  | .aliased e _ => e.refs all true
  | .exists_ q _ => q.refs all all
  | .subquery q => q.refs all true
  | .lateralSubquery q _ => q.refs all rest
  | .query q => q.refs all true
  | .select s => s.refs all rest
  | .setOperation left right => left.refs all true ∪ right.refs all true
  | .projectionFrom projection from_ =>
    fromRefs all true ∅ from_ ∪ listRefs all projection \ fromBinds from_
  | .future node => node.refs all true

def listRefs (all : Bool) : List Node → Finset Identifier
  | [] => ∅
  | e :: es => e.refs all true ∪ listRefs all es

def Query.refs (all rest : Bool) : Query → Finset Identifier
  | .mk commonTableExpressions body orderBy offset limit =>
    commonTableExpressionRefs all commonTableExpressions ∪
      (body.refs all rest ∪
        (listRefs rest orderBy \ body.orderNames ∪ (offset.refs rest true ∪ limit.refs rest true)))

def commonTableExpressionRefs (all : Bool) : List CommonTableExpression → Finset Identifier
  | [] => ∅
  | c :: cs => c.refs all ∪ commonTableExpressionRefs all cs

def CommonTableExpression.refs (all : Bool) : CommonTableExpression → Finset Identifier
  | .mk _ _ query => query.refs all true

def Select.refs (all rest : Bool) : Select → Finset Identifier
  | .mk projection from_ where_ groupBy having =>
    fromRefs all rest ∅ from_ ∪
      (listRefs all projection ∪ (where_.refs all true ∪
        (listRefs rest groupBy ∪ having.refs all true))) \ fromBinds from_

/-- The references of a `FROM`, where names are bound already. -/
def fromRefs (all rest : Bool) (bound : Finset Identifier) : List FromClause → Finset Identifier
  | [] => ∅
  | c :: cs =>
    c.refs all rest bound ∪ fromRefs all rest (bound ∪ fromBinds [c]) cs

def FromClause.refs (all rest : Bool) (bound : Finset Identifier) : FromClause → Finset Identifier
  | .mk source joins =>
    source.refs all rest \ bound ∪ joinRefs all rest (bound ∪ source.binds) joins

def joinRefs (all rest : Bool) (bound : Finset Identifier) : List Join → Finset Identifier
  | [] => ∅
  | j :: js =>
    j.refs all rest bound ∪ joinRefs all rest (bound ∪ joinBinds [j]) js

def Join.refs (all rest : Bool) (bound : Finset Identifier) : Join → Finset Identifier
  | .mk table constraint =>
    table.refs all rest \ bound ∪ constraint.refs all true \ (bound ∪ table.binds)

end

/-- The identifiers that occur free in an expression. -/
def Node.free (e : Node) : Finset Identifier := e.refs true true

/-- Those that occur in parts that are not looked at. -/
def Node.hidden (e : Node) : Finset Identifier := e.refs false true

mutual

/-- No walk in the tree stops; in a `checked` query, parts that are nil are
left out. -/
def Node.walkable (checked : Bool) : Node → Bool
  | .nil | .unknown _ => false
  | .identifier _ | .compoundIdentifier _ | .leaf _
  | .tableReference _ _ => true
  | .rowColumnReference e _ => e.walkable false
  | .wrapper _ e => e.walkable false
  | .binary _ left right => left.walkable false && right.walkable false
  | .values _ es => allWalkable es
  | .functionCall parameters _ => allWalkable parameters
  | .arrayIndex e indexes => e.walkable false && allWalkable indexes
  | .arraySlice e lower upper =>
    e.walkable false && (lower.isNil || lower.walkable false) &&
      (upper.isNil || upper.walkable false)
  | .case_ operand conditions then_ else_ =>
    conditions.length == then_.length && (operand.isNil || operand.walkable false) &&
      allWalkable conditions && allWalkable then_ && (else_.isNil || else_.walkable false)
  | .aliased e _ => e.walkable false
  | .exists_ q _ => q.walkable true
  | .subquery q => q.walkable false
  | .lateralSubquery q _ => q.walkable checked
  | .query q => q.walkable false
  | .select s => s.walkable checked
  | .setOperation left right =>
    left.walkable false && right.walkable false
  | .projectionFrom projection from_ =>
    allWalkable projection && fromWalkable false from_
  | .future node => node.isNil || node.walkable false

def allWalkable : List Node → Bool
  | [] => true
  | e :: es => e.walkable false && allWalkable es

/-- The entries of a list that are not nil. -/
def presentWalkable : List Node → Bool
  | [] => true
  | e :: es => (e.isNil || e.walkable false) && presentWalkable es

def Query.walkable (checked : Bool) : Query → Bool
  | .mk commonTableExpressions body orderBy offset limit =>
    commonTableExpressionWalkable commonTableExpressions && body.walkable checked &&
      (!checked || presentWalkable orderBy && (offset.isNil || offset.walkable false) &&
        (limit.isNil || limit.walkable false))

def commonTableExpressionWalkable : List CommonTableExpression → Bool
  | [] => true
  | c :: cs => c.walkable && commonTableExpressionWalkable cs

def CommonTableExpression.walkable : CommonTableExpression → Bool
  | .mk _ shape query => query.walkable false && shape.isNone

def Select.walkable (checked : Bool) : Select → Bool
  | .mk projection from_ where_ groupBy having =>
    allWalkable projection && fromWalkable checked from_ &&
      (where_.isNil || where_.walkable false) && (!checked || allWalkable groupBy) &&
      (having.isNil || having.walkable false)

def fromWalkable (checked : Bool) : List FromClause → Bool
  | [] => true
  | c :: cs => c.walkable checked && fromWalkable checked cs

def FromClause.walkable (checked : Bool) : FromClause → Bool
  | .mk source joins => source.walkable checked && joinWalkable checked joins

def joinWalkable (checked : Bool) : List Join → Bool
  | [] => true
  | j :: js => j.walkable checked && joinWalkable checked js

def Join.walkable (checked : Bool) : Join → Bool
  | .mk table constraint =>
    table.walkable checked && (checked && constraint.isNil || constraint.walkable false)

end

end Dawgs.Ref.Locality

import Dawgs.Ref.Outline
import Dawgs.Ref.QueryRewrite

/-!
# What a query says with its parameters

A query with parameters says what it says with their values in their places.
The properties of a pattern are a map wherever they come from: `$p` says the
entries of the value of `p`, in the order of their keys, and an empty map
says as much as no properties at all. Neo4j refuses a query with a parameter
that has no value, so a missing value is not passed over in silence: it has a
place of its own.

The clauses of a query are kept as they are, as a tree of marks with the
expressions at their places. The tree tells apart the elements of the
patterns in `MATCH`, the expressions of the clauses that read and those of
the clauses that write, since the rewriting treats each in its own way.
-/

namespace Dawgs.Ref.QueryRewrite

open Lib Cypher Frontend

variable {α : Type}

/-! ## Expressions -/

inductive ResolvedLabel (α : Type) where
  | said (label : Label)
  | value (v : Option (Value α))

abbrev Resolved (α : Type) := RoseTree (ResolvedLabel α)

def parameterLabel : Label → Option String
  | .parameter symbol => some symbol
  | _ => none

/-- The parameter that stands for the properties of a pattern. -/
def propertiesParameter : Outline → Option String
  | .node .properties [.node (.parameter symbol) _] => some symbol
  | _ => none

def resolvedEntry (entry : String × Value α) : Resolved α :=
  .node (.said (.entry entry.1)) [.node (.value (some entry.2)) []]

/-- Properties that are given by a value, if there are any. -/
def resolvedProperties : Option (Value α) → List (Resolved α)
  | some (.map entries) =>
    if entries.isEmpty then []
    else [.node (.said .properties)
      [.node (.said .map) ((sortedEntries entries).map resolvedEntry)]]
  | v => [.node (.said .properties) [.node (.value v) []]]

mutual

/-- What an expression says with the values of its parameters. -/
def resolve (values : String → Option (Value α)) : Outline → Resolved α
  | .node label children =>
    match parameterLabel label with
    | some symbol => .node (.value (values symbol)) []
    | none => .node (.said label) (resolveAll values children)

def resolveAll (values : String → Option (Value α)) : List Outline → List (Resolved α)
  | [] => []
  | o :: os =>
    (match propertiesParameter o with
      | some symbol => resolvedProperties (values symbol)
      | none => [resolve values o]) ++ resolveAll values os

end

mutual

/-- The names of the parameters. -/
def parameterNames : Outline → List String
  | .node label children =>
    match parameterLabel label with
    | some symbol => [symbol]
    | none => parameterNamesAll children

def parameterNamesAll : List Outline → List String
  | [] => []
  | o :: os => parameterNames o ++ parameterNamesAll os

end

/-! ## Clauses -/

inductive Mark where
  | missing
  | query | singleQuery | singlePartQuery | multiPartQuery | part | list
  | readingClause (address : Nat)
  | match_ (optional : Bool)
  | patternPart (variable_ : Option Variable)
      (shortestPathPattern allShortestPathsPattern pathDirectionReversed : Bool)
  | where_
  | unwind (variable_ : Option Variable)
  | with_ | return_
  | projection (distinct all : Bool)
  | order
  | sortItem (ascending : Bool)
  | rowBound
  | create (unique : Bool)
  | merge
  | mergeAction (onCreate onMatch : Bool)
  | set | remove
  | assign (operator : AssignmentOperator)
  | delete (detach : Bool)

inductive QueryLabel where
  | mark (m : Mark)
  /-- An element of a pattern in `MATCH`. -/
  | element (e : Expression)
  /-- An expression of a clause that reads or of a projection. -/
  | read (e : Expression)
  /-- An expression of a clause that writes. -/
  | written (e : Expression)

abbrev QueryOutline := RoseTree QueryLabel

def marked (m : Mark) (children : List QueryOutline) : QueryOutline := .node (.mark m) children

def leaf (l : QueryLabel) : QueryOutline := .node l []

def optionOutline {X : Type} (f : X → QueryOutline) : Option X → QueryOutline
  | none => marked .missing []
  | some x => f x

def readOutlines (es : List Expression) : QueryOutline :=
  marked .list (es.map fun e => leaf (.read e))

def whereOutline (w : Where Expression) : QueryOutline :=
  marked .where_ [readOutlines w.expressions]

def partOutline (onElement : Expression → QueryLabel) (p : PatternPart) : QueryOutline :=
  marked (.patternPart p.variable_ p.shortestPathPattern
      p.allShortestPathsPattern p.pathDirectionReversed)
    (p.patternElements.map (optionOutline fun element => leaf (onElement element.element)))

def matchOutline (m : Match) : QueryOutline :=
  marked (.match_ m.optional) [marked .list (m.pattern.map (optionOutline (partOutline .element))),
      optionOutline whereOutline m.where_]

def unwindOutline (u : Unwind) : QueryOutline :=
  marked (.unwind u.variable_) [leaf (.read u.expression)]

def readingClauseOutline (c : ReadingClause) : QueryOutline :=
  marked (.readingClause c.address)
    [optionOutline matchOutline c.match_, optionOutline unwindOutline c.unwind]

def readingClausesOutline (cs : List (Option ReadingClause)) : QueryOutline :=
  marked .list (cs.map (optionOutline readingClauseOutline))

def sortItemOutline (item : SortItem) : QueryOutline :=
  marked (.sortItem item.ascending) [leaf (.read item.expression)]

def orderOutline (order : Order) : QueryOutline :=
  marked .order (order.items.map (optionOutline sortItemOutline))

def rowBoundOutline (bound : RowBound) : QueryOutline := marked .rowBound [leaf (.read bound.value)]

def projectionOutline (p : Projection) : QueryOutline :=
  marked (.projection p.distinct p.all) [readOutlines p.items, optionOutline orderOutline p.order,
      optionOutline rowBoundOutline p.skip, optionOutline rowBoundOutline p.limit]

def withOutline (w : With) : QueryOutline :=
  marked .with_ [optionOutline projectionOutline w.projection, optionOutline whereOutline w.where_]

def returnOutline (r : Return) : QueryOutline :=
  marked .return_ [optionOutline projectionOutline r.projection]

def setItemOutline (item : SetItem) : QueryOutline :=
  marked (.assign item.operator) [leaf (.written item.left), leaf (.written item.right)]

def removeItemOutline (item : RemoveItem) : QueryOutline :=
  marked .list [leaf (.written item.kindMatcher), leaf (.written item.property)]

def mergeActionOutline (action : MergeAction) : QueryOutline :=
  marked (.mergeAction action.onCreate action.onMatch) (action.set.map setItemOutline)

def updatingClauseOutline : UpdatingClause → QueryOutline
  | .create unique pattern =>
    marked (.create unique) (pattern.map (optionOutline (partOutline .written)))
  | .merge patternPart actions =>
    marked .merge (optionOutline (partOutline .written) patternPart ::
      actions.map mergeActionOutline)
  | .set items => marked .set (items.map setItemOutline)
  | .remove items => marked .remove (items.map removeItemOutline)
  | .delete detach expressions =>
    marked (.delete detach) (expressions.map fun e => leaf (.written e))

def updatingClausesOutline (cs : List UpdatingClause) : QueryOutline :=
  marked .list (cs.map updatingClauseOutline)

def singlePartQueryOutline (q : SinglePartQuery) : QueryOutline :=
  marked .singlePartQuery [readingClausesOutline q.readingClauses,
    updatingClausesOutline q.updatingClauses, optionOutline returnOutline q.return_]

def multiPartQueryPartOutline (p : MultiPartQueryPart) : QueryOutline :=
  marked .part [readingClausesOutline p.readingClauses, updatingClausesOutline p.updatingClauses,
    optionOutline withOutline p.with_]

def multiPartQueryOutline (q : MultiPartQuery) : QueryOutline :=
  marked .multiPartQuery [marked .list (q.parts.map (optionOutline multiPartQueryPartOutline)),
      optionOutline singlePartQueryOutline q.singlePartQuery]

def singleQueryOutline (q : SingleQuery) : QueryOutline :=
  marked .singleQuery [optionOutline singlePartQueryOutline q.singlePartQuery,
      optionOutline multiPartQueryOutline q.multiPartQuery]

def queryOutline (q : RegularQuery) : QueryOutline :=
  marked .query [optionOutline singleQueryOutline q.singleQuery]

/-! ## Meaning -/

def resolveLabel (values : String → Option (Value α)) : QueryLabel → Mark ⊕ Resolved α
  | .mark m => .inl m
  | .element e | .read e | .written e => .inr (resolve values (shape e))

/-- What a query says with the values of its parameters. -/
def meaning (values : String → Option (Value α)) (q : RegularQuery) :
    RoseTree (Mark ⊕ Resolved α) := (queryOutline q).map (resolveLabel values)

/-- The parameter that stands for the properties of an element. -/
def elementParameter : Expression → Option String
  | .nodePattern ⟨_, _, .properties ⟨_, some p⟩⟩ => some p.symbol
  | .relationshipPattern ⟨_, _, _, _, .properties ⟨_, some p⟩⟩ => some p.symbol
  | _ => none

def labelExpanded : QueryLabel → List String
  | .element e => (elementParameter e).toList
  | _ => []

def labelReferences : QueryLabel → List String
  | .mark _ => []
  | .element e =>
    if (elementParameter e).isSome then [] else parameterNames (shape e)
  | .read e | .written e => parameterNames (shape e)

/-- The parameters for the properties of patterns in `MATCH`, in the order of
the patterns. -/
def expanded (q : RegularQuery) : List String := (queryOutline q).labels.flatMap labelExpanded

/-- The parameters at all other places. -/
def references (q : RegularQuery) : List String := (queryOutline q).labels.flatMap labelReferences

/-- The query with its temporal comparisons, where there are any, wrapped. -/
def wrapped (q : RegularQuery) : RegularQuery :=
  if (Temporal.rewriteRegularQuery q).changed then
    (Temporal.rewriteRegularQuery q).value
  else q

def Result.values (r : Result α) (symbol : String) : Option (Value α) :=
  r.parameters.bind (List.lookup symbol)

/-- What is sent says the same as the query, and the parameters are kept. -/
structure MeansSame (frontend : String → Option RegularQuery) (query : String)
    (parameters : Parameters α) (r : Result α) : Prop where
  /-- Temporal comparisons apart, what is sent says the same. -/
  meaning : match r.query with
    | .text sent => sent = query ∧ r.parameters = some parameters
    | .tree sent => ∃ parsed, frontend query = some parsed ∧ QueryRewrite.meaning r.values sent =
          QueryRewrite.meaning (parameters.lookup ·) (wrapped parsed)
  /-- A new name is no name of the query. -/
  fresh : ∀ parsed, frontend query = some parsed → ∀ symbol,
    r.values symbol ≠ none → parameters.lookup symbol = none →
    symbol ∉ references parsed
  /-- A parameter that is not expanded keeps its value. -/
  kept : ∀ parsed, frontend query = some parsed → ∀ symbol ∉ expanded parsed,
    ∀ value, parameters.lookup symbol = some value →
    r.values symbol = some value
  caller : r.caller = parameters

/-! ## The condition -/

variable (parameters : Parameters α)

/-- The number of entries that the value of a parameter has as a map. -/
def entryCount (symbol : String) : Nat :=
  match (parameters.lookup symbol).bind parameterPropertyMap with
  | some m => (sortedEntries m).length
  | none => 0

def entryTotal (symbols : List String) : Nat := (symbols.map (entryCount parameters)).sum

/-- The name with this number is not taken by a parameter. -/
def IsFree (i : Nat) : Prop := patternPropertyName i ∉ keys parameters

instance (parameters : Parameters α) : DecidablePred (IsFree parameters) :=
  fun _ => inferInstanceAs (Decidable (_ ∉ _))

/-- Nothing is expanded; or there is an entry to expand and the query has no
name, other than those of its parameters, so low that it is given to one of
the entries; or there is none, and every parameter is only expanded. -/
def Keeps (q : RegularQuery) : Prop :=
  expanded q = [] ∨
  (0 < entryTotal parameters (expanded q) ∧
    ∀ i, patternPropertyName i ∈ references q → IsFree parameters i →
      entryTotal parameters (expanded q) ≤ Nat.count (IsFree parameters) i) ∨
  (entryTotal parameters (expanded q) = 0 ∧
    ∀ symbol ∈ keys parameters, symbol ∈ expanded q ∧ symbol ∉ references q)

end Dawgs.Ref.QueryRewrite

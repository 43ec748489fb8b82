import Dawgs.Ref.Reordering

/-!
# What clauses declare and use

Clauses are read in order, and a clause may refer to the variables that
clauses before it declare. This file says which these are, from the
language and not from the optimizer: the variables free in an expression,
what each kind of clause declares, and what a reading clause uses. Next to
the last stands what the optimizer sees of it. A use it does not see is
hidden.

A pattern predicate refers to the variables of its nodes and
relationships, as any other expression does. A quantifier binds the
variable of its filter in the filter's `WHERE`. An expression is plain if
the walker gets everywhere in it: then nothing in it is hidden.
-/

namespace Dawgs.Ref.Cypher

/-- The symbol a variable in an expression refers to. -/
def Variable.free (v : Variable) : Finset String :=
  if v.symbol ≠ "" ∧ v.symbol ≠ "*" then {v.symbol} else ∅

mutual

/-- The variables an expression refers to. -/
def Expression.free : Expression → Finset String
  | .nil | .literal _ | .parameter _ | .rangeQuantifier _ => ∅
  | .var v => v.free
  | .propertyLookup atom _ => atom.free
  | .functionInvocation _ _ _ arguments => frees arguments
  | .parenthetical e => e.free
  | .negation e => e.free
  | .conjunction es => frees es
  | .disjunction es => frees es
  | .exclusiveDisjunction es => frees es
  | .listLiteral es => frees es
  | .mapLiteral items => itemFrees items
  | .comparison left partials => left.free ∪ partialFrees partials
  | .arithmetic left partials => left.free ∪ partialFrees partials
  | .unaryAddOrSubtract _ right => right.free
  | .quantifier _ filter => filterFree filter
  | .kindMatcher reference _ _ => reference.free
  | .properties p => itemFrees p.map
  | .nodePattern p => (symbolOf p.variable_).toFinset ∪ p.properties.free
  | .relationshipPattern p =>
    (symbolOf p.variable_).toFinset ∪ p.properties.free
  | .patternPredicate elements => elementFrees elements
  | .projectionItem e _ => e.free

def frees : List Expression → Finset String
  | [] => ∅
  | e :: es => e.free ∪ frees es

def itemFrees : List (MapItem Expression) → Finset String
  | [] => ∅
  | m :: ms => m.value.free ∪ itemFrees ms

def partialFrees : List (PartialExpression Expression) → Finset String
  | [] => ∅
  | p :: ps => p.right.free ∪ partialFrees ps

def elementFrees : List (PatternElement Expression) → Finset String
  | [] => ∅
  | p :: ps => p.element.free ∪ elementFrees ps

/-- The variable of the specifier is bound in the `WHERE`. -/
def filterFree : Option (FilterExpression Expression) → Finset String
  | none => ∅
  | some f =>
    specifierFree f.specifier ∪ whereFree f.where_ \
        (f.specifier.toList.flatMap fun i => symbolOf i.variable_).toFinset

def specifierFree : Option (IDInCollection Expression) → Finset String
  | none => ∅
  | some i => i.expression.free

def whereFree : Option (Where Expression) → Finset String
  | none => ∅
  | some w => frees w.expressions

end

/-- A clause of a query, in the order it is written. -/
inductive Clause where
  | reading (clause : ReadingClause)
  | updating (clause : UpdatingClause)
  | projecting (clause : With)

/-- The symbol an item of a `WITH` passes on. -/
def projectedSymbol : Expression → List String
  | .projectionItem _ (some as) => symbolOf (some as)
  | .projectionItem (.var v) none => symbolOf (some v)
  | _ => []

/-- What an updating clause declares. -/
def UpdatingClause.declares : UpdatingClause → List String
  | create _ pattern => pattern.flatMap partBindings
  | merge patternPart _ => partBindings patternPart
  | _ => []

/-- What a clause declares. -/
def Clause.declares : Clause → List String
  | reading c =>
    bindingsForReadingClause (some c) ++ c.unwind.toList.flatMap fun u => symbolOf u.variable_
  | updating c => c.declares
  | projecting w =>
    w.projection.toList.flatMap fun p => p.items.flatMap projectedSymbol

/-- What the pattern and the `WHERE` of a match refer to. -/
def Match.uses (m : Match) : Finset String :=
  (bindingsForMatch m).toFinset ∪ elementFrees (m.pattern.reduceOption.flatMap fun part =>
      part.patternElements.reduceOption) ∪
    whereFree m.where_

/-- What a reading clause uses. -/
def ReadingClause.uses (c : ReadingClause) : Finset String :=
  (c.match_.elim ∅ Match.uses) ∪ c.unwind.elim ∅ fun u => u.expression.free

/-- What the optimizer sees of the uses of a reading clause. -/
def ReadingClause.seen (c : ReadingClause) : Finset String :=
  (bindingsForReadingClause (some c)).toFinset ∪ localMatchDependencies c.match_

/-- The uses the optimizer does not see. -/
def ReadingClause.hidden (c : ReadingClause) : Finset String := c.uses \ c.seen

def Clause.Declares (c : Clause) (v : String) : Prop := v ∈ c.declares

instance (c : Clause) : DecidablePred c.Declares :=
  fun v => inferInstanceAs (Decidable (v ∈ c.declares))

/-- A reading clause relies on what it uses. -/
def Clause.Relies : Clause → String → Prop
  | reading c, v => v ∈ c.uses
  | _, _ => False

/-- A part of a query: its reading clauses, and the clauses after them. -/
structure Part where
  readingClauses : List (Option ReadingClause)
  tail : List Clause

def MultiPartQueryPart.part (p : MultiPartQueryPart) : Part :=
  ⟨p.readingClauses, p.updatingClauses.map .updating ++ p.with_.toList.map .projecting⟩

def SinglePartQuery.part (p : SinglePartQuery) : Part :=
  ⟨p.readingClauses, p.updatingClauses.map .updating⟩

/-- The parts of a query, first one first. -/
def RegularQuery.parts (query : RegularQuery) : List Part :=
  match query.singleQuery with
  | none => []
  | some single =>
    match single.multiPartQuery, single.singlePartQuery with
    | some multi, _ =>
      multi.parts.reduceOption.map MultiPartQueryPart.part ++
        multi.singlePartQuery.toList.map SinglePartQuery.part
    | none, some part => [part.part]
    | none, none => []

/-- The reading clauses of a list, without the nil ones. -/
def readings (clauses : List (Option ReadingClause)) : List Clause :=
  clauses.filterMap (Option.map .reading)

def Part.clauses (p : Part) : List Clause := readings p.readingClauses ++ p.tail

/-- The clauses of a query. -/
def RegularQuery.clauses (query : RegularQuery) : List Clause := query.parts.flatMap Part.clauses

end Dawgs.Ref.Cypher

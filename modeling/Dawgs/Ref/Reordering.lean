import Dawgs.Lib.Greedy
import Dawgs.Ref.Walk

/-!
# Conservative pattern reordering

The rule schedules the `MATCH` clauses of a region anew, the more selective
ones earlier. A region is a run of clauses that no barrier interrupts: an
`UNWIND`, an `OPTIONAL MATCH` or a nil clause closes it.

For each clause of a region the rule collects what it declares and what it
depends on. The first clause of the region that binds a symbol declares it,
unless a clause before the region has bound it; every other one depends on
it. A clause also depends on what `sortedDependencies` finds in its
properties and its `WHERE`. A clause with a dependency that nothing in
sight binds is not movable: it stays, and the clauses before and after it
are scheduled apart.

Sets of strings are `map[string]struct{}` in the source and finite sets
here. The parts of the analysis the rule does not read are left out.
-/

namespace Dawgs.Ref.Cypher

open Lib SyntaxNode

/-! ## Bindings and dependencies -/

/-- The symbol of a variable that has one. -/
def symbolOf : Option Variable → List String
  | some v => if v.symbol ≠ "" then [v.symbol] else []
  | none => []

/-- What an element of a pattern binds. -/
def elementBindings : Option (PatternElement Expression) → List String
  | none => []
  | some element =>
    match element.asNodePattern, element.asRelationshipPattern with
    | some p, _ => symbolOf p.variable_
    | none, some p => symbolOf p.variable_
    | none, none => []

/-- What a part of a pattern binds. -/
def partBindings : Option PatternPart → List String
  | none => []
  | some part =>
    symbolOf part.variable_ ++ part.patternElements.flatMap elementBindings

/-- `bindingsForMatch`, by their symbols. -/
def bindingsForMatch (m : Match) : List String := m.pattern.flatMap partBindings

/-- `bindingsForReadingClause`. -/
def bindingsForReadingClause : Option ReadingClause → List String
  | some ⟨_, some m, _⟩ => bindingsForMatch m
  | _ => []

/-- `dependenciesForMatch`: what the `WHERE` depends on. -/
def dependenciesForMatch (m : Match) : Finset String :=
  match m.where_ with
  | none => ∅
  | some w =>
    (w.expressions.map fun e => sortedDependencies (expression e)).foldr (· ∪ ·) ∅

/-- What the properties of an element depend on. -/
def elementDependencies : Option (PatternElement Expression) → Finset String
  | none => ∅
  | some element =>
    match element.asNodePattern, element.asRelationshipPattern with
    | some p, _ => sortedDependencies (expression p.properties)
    | none, some p => sortedDependencies (expression p.properties)
    | none, none => ∅

/-- What the properties in a part of a pattern depend on. -/
def partDependencies : Option PatternPart → Finset String
  | none => ∅
  | some part =>
    (part.patternElements.map elementDependencies).foldr (· ∪ ·) ∅

/-- `localMatchDependencies`. -/
def localMatchDependencies : Option Match → Finset String
  | none => ∅
  | some m =>
    (m.pattern.map partDependencies).foldr (· ∪ ·) ∅ ∪ dependenciesForMatch m

/-! ## Selectivity -/

/-- `boundSourceSelectivity`. -/
inductive BoundSourceSelectivity where
  | none | kindOnly | predicate | unique | limited | topN
deriving DecidableEq

/-- The value of the constant. -/
def BoundSourceSelectivity.rank : BoundSourceSelectivity → Nat
  | none => 0
  | kindOnly => 1
  | predicate => 2
  | unique => 3
  | limited => 4
  | topN => 5

/-- `mergeSelectivityValue`. -/
def mergeSelectivityValue (current next : BoundSourceSelectivity) : BoundSourceSelectivity :=
  if current.rank < next.rank then next else current

/-- `strings.EqualFold`, for a text of which no letter folds to one outside
of ASCII. -/
def equalFold (s t : String) : Bool := s.toList.map Char.toLower == t.toList.map Char.toLower

/-- `expressionIsConstant`. -/
def expressionIsConstant : Expression → Bool
  | .literal l => !l.null
  | .parameter _ => true
  | _ => false

/-- `propertySelectivity`. -/
def propertySelectivity (property : String) (value : Expression) : BoundSourceSelectivity :=
  if equalFold property "objectid" && expressionIsConstant value then .unique
  else if expressionIsConstant value then .predicate
  else .none

/-- `propertyConstraintSelectivity`. -/
def propertyConstraintSelectivity : Expression → BoundSourceSelectivity
  | .properties p =>
    if p.parameter.isSome then .none
    else
      (p.map.map fun m => propertySelectivity m.key m.value).foldl mergeSelectivityValue .none
  | _ => .none

/-- `nodePatternSelectivity`. -/
def nodePatternSelectivity (p : NodePattern Expression)
    (hasAttachedPredicate : Bool) : BoundSourceSelectivity :=
  let kinds : BoundSourceSelectivity :=
    if p.kinds.length > 0 then .kindOnly else .none
  let constrained := mergeSelectivityValue kinds (propertyConstraintSelectivity p.properties)
  if hasAttachedPredicate then mergeSelectivityValue constrained .predicate
  else constrained

/-- `propertyLookupSymbol`. -/
def propertyLookupSymbol : Expression → Option (String × String)
  | .propertyLookup (.var v) symbol =>
    if v.symbol ≠ "" ∧ symbol ≠ "" then some (v.symbol, symbol) else none
  | _ => none

/-- `expressionReferencesAnySource`. -/
def expressionReferencesAnySource (e : Expression) : Bool :=
  match e with
  | .nil | .literal _ | .parameter _ => false
  | _ =>
    let references := collectReferencedSourceIdentifiers e
    references.2 || decide (references.1.card > 0)

/-- The selectivity of `lookup = value`, if `lookup` is a property and the
value refers to no source. -/
def lookupSelectivity (lookup value : Expression) : Option (String × BoundSourceSelectivity) :=
  match propertyLookupSymbol lookup with
  | some (symbol, property) =>
    if expressionReferencesAnySource value then none
    else some (symbol, propertySelectivity property value)
  | none => none

/-- `propertyPredicateSelectivity`. -/
def propertyPredicateSelectivity : Expression → Option (String × BoundSourceSelectivity)
  | .comparison left [p] =>
    if p.operator ≠ .equals then none
    else (lookupSelectivity left p.right).or (lookupSelectivity p.right left)
  | _ => none

mutual

/-- `cypherConjunctionTerms`. -/
def cypherConjunctionTerms : Expression → List Expression
  | .conjunction es => conjunctionTerms es
  | e => [e]

def conjunctionTerms : List Expression → List Expression
  | [] => []
  | e :: es => cypherConjunctionTerms e ++ conjunctionTerms es

end

/-- `sourceTraversalStep`. -/
structure SourceTraversalStep where
  leftNode : NodePattern Expression
  relationship : RelationshipPattern Expression
  rightNode : NodePattern Expression

/-- The loop of `traversalStepsForPattern`, with the last node and the last
relationship it has met. -/
def traversalStepsFrom :
    Option (NodePattern Expression) → Option (RelationshipPattern Expression) →
    List (Option (PatternElement Expression)) → List SourceTraversalStep
  | _, _, [] => []
  | left, relationship, none :: rest =>
    traversalStepsFrom left relationship rest
  | left, relationship, some element :: rest =>
    match element.asNodePattern, element.asRelationshipPattern with
    | some node, _ =>
      match left, relationship with
      | none, _ => traversalStepsFrom (some node) relationship rest
      | some l, some r =>
        ⟨l, r, node⟩ :: traversalStepsFrom (some node) none rest
      | some _, none => traversalStepsFrom (some node) none rest
    | none, some r => traversalStepsFrom left (some r) rest
    | none, none => traversalStepsFrom left relationship rest

/-- `traversalStepsForPattern`. -/
def traversalStepsForPattern : Option PatternPart → List SourceTraversalStep
  | none => []
  | some part => traversalStepsFrom none none part.patternElements

/-- `nodePatternsForPattern`. -/
def nodePatternsForPattern : Option PatternPart → List (NodePattern Expression)
  | none => []
  | some part =>
    part.patternElements.filterMap fun element =>
      element.bind PatternElement.asNodePattern

/-- What a step adds to the selectivity of its clause. -/
def stepSelectivity (step : SourceTraversalStep) : BoundSourceSelectivity :=
  mergeSelectivityValue (if step.relationship.kinds.length > 0 then .kindOnly else .none)
    (propertyConstraintSelectivity step.relationship.properties)

/-- What a term of the `WHERE` adds. -/
def termSelectivity (term : Expression) : BoundSourceSelectivity :=
  match propertyPredicateSelectivity term with
  | some (_, selectivity) => selectivity
  | none => .predicate

/-- `matchClauseSelectivity`. -/
def matchClauseSelectivity : Option ReadingClause → BoundSourceSelectivity
  | some ⟨_, some m, _⟩ =>
    let nodes := m.pattern.flatMap fun part =>
      (nodePatternsForPattern part).map (nodePatternSelectivity · false) ++
        (traversalStepsForPattern part).map stepSelectivity
    let terms := m.where_.toList.flatMap fun w =>
      (w.expressions.flatMap cypherConjunctionTerms).map termSelectivity
    (nodes ++ terms).foldl mergeSelectivityValue .none
  | _ => .none

/-! ## Candidates -/

/-- `reorderCandidate`. -/
structure ReorderCandidate where
  clause : Option ReadingClause
  declarations : Finset String
  dependencies : Finset String
  movable : Bool
  score : BoundSourceSelectivity
  index : Nat

/-- The match of a clause, if there is one. -/
def matchOf (clause : Option ReadingClause) : Option Match := clause.bind ReadingClause.match_

/-- The bindings of a clause, those it declares first and those it depends
on. A symbol bound twice in the clause is both. -/
def splitBindings : Finset String → List String → Finset String × Finset String
  | _, [] => (∅, ∅)
  | firstDeclaration, symbol :: rest =>
    let later := splitBindings (insert symbol firstDeclaration) rest
    if symbol ∈ firstDeclaration then (later.1, insert symbol later.2)
    else (insert symbol later.1, later.2)

/-- A candidate, given what has been declared before its clause
(`firstDeclaration`), before the region, and in the region as a whole. -/
def newCandidate (declaredBeforeRegion regionSymbols firstDeclaration : Finset String) (index : Nat)
    (clause : Option ReadingClause) : ReorderCandidate :=
  let bindings := splitBindings firstDeclaration (bindingsForReadingClause clause)
  let dependencies := bindings.2 ∪ localMatchDependencies (matchOf clause)
  { clause
    declarations := bindings.1
    dependencies
    movable := decide (dependencies ⊆ declaredBeforeRegion ∪ regionSymbols)
    score := matchClauseSelectivity clause
    index }

/-- The loop of `reorderCandidates`. -/
def candidatesFrom (declaredBeforeRegion regionSymbols : Finset String) :
    Finset String → Nat → List (Option ReadingClause) → List ReorderCandidate
  | _, _, [] => []
  | firstDeclaration, index, clause :: rest =>
    newCandidate declaredBeforeRegion regionSymbols firstDeclaration index
        clause :: candidatesFrom declaredBeforeRegion regionSymbols
        (firstDeclaration ∪ (bindingsForReadingClause clause).toFinset) (index + 1) rest

variable (regionClauses : List (Option ReadingClause)) (declaredBeforeRegion : Finset String)

/-- `reorderCandidates`. -/
def reorderCandidates : List ReorderCandidate :=
  candidatesFrom declaredBeforeRegion (regionClauses.flatMap bindingsForReadingClause).toFinset
    declaredBeforeRegion 0 regionClauses

/-- `candidateDependenciesSatisfied`. -/
def candidateDependenciesSatisfied (candidate : ReorderCandidate)
    (available : Finset String) : Bool :=
  decide (candidate.dependencies ⊆ available ∪ candidate.declarations)

/-- Whether a candidate takes the place of the best one so far. -/
def betterThan (candidate : ReorderCandidate) : Option (Nat × ReorderCandidate) → Bool
  | none => true
  | some (_, best) =>
    decide (best.score.rank < candidate.score.rank) ||
      (decide (candidate.score = best.score) &&
        decide (candidate.index < best.index))

/-- The loop of `bestSchedulableCandidateIndex`. -/
def bestFrom (available : Finset String) :
    Nat → Option (Nat × ReorderCandidate) → List ReorderCandidate → Option (Nat × ReorderCandidate)
  | _, best, [] => best
  | idx, best, candidate :: rest =>
    if candidateDependenciesSatisfied candidate available && betterThan candidate best then
      bestFrom available (idx + 1) (some (idx, candidate)) rest
    else bestFrom available (idx + 1) best rest

/-- `bestSchedulableCandidateIndex`, `none` for -1. -/
def bestSchedulableCandidateIndex (candidates : List ReorderCandidate)
    (available : Finset String) : Option Nat := (bestFrom available 0 none candidates).map Prod.fst

/-- `mergeStringSet` with the declarations of a candidate. -/
def mergeDeclarations (available : Finset String)
    (candidate : ReorderCandidate) : Finset String := available ∪ candidate.declarations

/-- `reorderMovableCandidates`, with what is available at its end. -/
def reorderMovableCandidates (candidates : List ReorderCandidate)
    (available : Finset String) : List ReorderCandidate × Finset String :=
  greedy bestSchedulableCandidateIndex mergeDeclarations candidates.length available candidates

/-- The variables of the loop of `reorderCandidateSegments`. -/
structure Segments where
  reordered : List ReorderCandidate
  available : Finset String
  segment : List ReorderCandidate

/-- `flushSegment`. -/
def Segments.flush (s : Segments) : Segments :=
  let next := reorderMovableCandidates s.segment s.available
  { reordered := s.reordered ++ next.1
    available := next.1.foldl mergeDeclarations next.2
    segment := [] }

/-- One turn of the loop of `reorderCandidateSegments`. -/
def Segments.turn (s : Segments) (candidate : ReorderCandidate) : Segments :=
  if candidate.movable then
    { s with segment := s.segment ++ [candidate] }
  else
    let flushed := s.flush
    { reordered := flushed.reordered ++ [candidate]
      available := mergeDeclarations flushed.available candidate
      segment := [] }

/-- `reorderCandidateSegments`. -/
def reorderCandidateSegments (candidates : List ReorderCandidate)
    (declaredBeforeRegion : Finset String) : List ReorderCandidate :=
  (candidates.foldl Segments.turn ⟨[], declaredBeforeRegion, []⟩).flush.reordered

/-- The order `reorderRegion` writes back to the region. -/
def schedule : List ReorderCandidate :=
  reorderCandidateSegments
    (reorderCandidates regionClauses declaredBeforeRegion) declaredBeforeRegion

/-- `reorderRegionWouldApply`: some clause differs, by its address, from
the one at its place. -/
def reorderRegionWouldApply : Bool :=
  (regionClauses.zip (schedule regionClauses declaredBeforeRegion)).any
    fun p => p.1.map ReadingClause.address ≠ p.2.clause.map ReadingClause.address

/-- `reorderRegion`. -/
def reorderRegion : List (Option ReadingClause) × Bool :=
  ((schedule regionClauses declaredBeforeRegion).map ReorderCandidate.clause,
    reorderRegionWouldApply regionClauses declaredBeforeRegion)

/-! ## Regions -/

/-- `Region`, by its bounds. -/
structure Region where
  startClause : Nat
  endClause : Nat
deriving DecidableEq

/-- A clause that closes a region: nil, `UNWIND` or `OPTIONAL MATCH`. -/
def isBarrier : Option ReadingClause → Bool
  | none => true
  | some clause =>
    clause.unwind.isSome || (clause.match_.map Match.optional).getD false

/-- The region with one more clause, or a new one. -/
def extendRegion (current : Option Region) (clauseIndex : Nat) : Region :=
  match current with
  | none => ⟨clauseIndex, clauseIndex⟩
  | some region => ⟨region.startClause, clauseIndex⟩

/-- The loop of `analyzeReadingClauses`, with its current region. -/
def regionsFrom : Nat → Option Region → List (Option ReadingClause) → List Region
  | _, current, [] => current.toList
  | idx, current, clause :: rest =>
    if isBarrier clause then
      current.toList ++ regionsFrom (idx + 1) none rest
    else if (matchOf clause).isSome then
      regionsFrom (idx + 1) (some (extendRegion current idx)) rest
    else regionsFrom (idx + 1) current rest

variable (readingClauses : List (Option ReadingClause))

/-- `analyzeReadingClauses`: the regions. -/
def analyzeReadingClauses : List Region := regionsFrom 0 none readingClauses

/-- `declaredBeforeClause`. -/
def declaredBeforeClause (clauseIndex : Nat) : Finset String :=
  ((readingClauses.take clauseIndex).flatMap bindingsForReadingClause).toFinset

section

variable (region : Region) (readingClauses : List (Option ReadingClause))

/-- The clauses of a region. -/
def Region.clauses :
    List (Option ReadingClause) :=
  (readingClauses.drop region.startClause).take (region.endClause + 1 - region.startClause)

/-- A region the rule passes over. -/
def Region.skipped : Bool :=
  decide (readingClauses.length ≤ region.endClause) ||
    decide (region.endClause ≤ region.startClause)

end

/-- One turn of the loop of `reorderReadingClauses`. -/
def reorderStep (state : List (Option ReadingClause) × Bool)
    (region : Region) : List (Option ReadingClause) × Bool :=
  let readingClauses := state.1
  if region.skipped readingClauses then state
  else
    let next := reorderRegion (region.clauses readingClauses)
      (declaredBeforeClause readingClauses region.startClause)
    (readingClauses.take region.startClause ++ next.1 ++ readingClauses.drop (region.endClause + 1),
      next.2 || state.2)

/-- `reorderReadingClauses`: the clauses it leaves and whether it applied. -/
def reorderReadingClauses (regions : List Region) : List (Option ReadingClause) × Bool :=
  regions.foldl reorderStep (readingClauses, false)

/-- `readingClausesWouldReorder`. -/
def readingClausesWouldReorder (regions : List Region) : Bool :=
  regions.any fun region =>
    !region.skipped readingClauses && reorderRegionWouldApply (region.clauses readingClauses)
        (declaredBeforeClause readingClauses region.startClause)

/-! ## Queries -/

/-- `QueryPart`. -/
structure QueryPart where
  index : Nat
  regions : List Region

/-- `analyzeMultiPartQueryPart`, by its regions. -/
def analyzeMultiPartQueryPart : Option MultiPartQueryPart → List Region
  | none => []
  | some part => analyzeReadingClauses part.readingClauses

/-- `Analyze`. -/
def analyze (query : RegularQuery) : List QueryPart :=
  match query.singleQuery with
  | none => []
  | some single =>
    match single.multiPartQuery, single.singlePartQuery with
    | some multi, _ =>
      multi.parts.zipIdx.map (fun p =>
          ⟨p.2, analyzeMultiPartQueryPart p.1⟩) ++
        multi.singlePartQuery.toList.map fun part =>
          ⟨multi.parts.length, analyzeReadingClauses part.readingClauses⟩
    | none, some part => [⟨0, analyzeReadingClauses part.readingClauses⟩]
    | none, none => []

variable (analysis : List QueryPart)

/-- `analysisQueryPart`, by the regions of the part; a missing part has
none, which leaves its clauses as they are. -/
def analysisRegions (index : Nat) : List Region :=
  match analysis.find? (fun part => part.index == index) with
  | some part => part.regions
  | none => []

/-- `queryWouldReorder`. -/
def queryWouldReorder (query : RegularQuery) (analysis : List QueryPart) : Bool :=
  match query.singleQuery with
  | none => false
  | some single =>
    match single.multiPartQuery, single.singlePartQuery with
    | some multi, _ =>
      (multi.parts.zipIdx.any fun p =>
          p.1.any fun part =>
            readingClausesWouldReorder part.readingClauses (analysisRegions analysis p.2)) ||
        multi.singlePartQuery.any fun part =>
          readingClausesWouldReorder part.readingClauses
            (analysisRegions analysis multi.parts.length)
    | none, some part =>
      readingClausesWouldReorder part.readingClauses (analysisRegions analysis 0)
    | none, none => false

/-- `reorderSinglePartQuery`, with the index of the part. -/
def reorderSinglePartQuery (index : Nat) (part : SinglePartQuery) : SinglePartQuery × Bool :=
  let next := reorderReadingClauses part.readingClauses (analysisRegions analysis index)
  ({ part with readingClauses := next.1 }, next.2)

/-- The same for a part that ends in a `WITH`. -/
def reorderMultiPartQueryPart (index : Nat)
    (part : MultiPartQueryPart) : MultiPartQueryPart × Bool :=
  let next := reorderReadingClauses part.readingClauses (analysisRegions analysis index)
  ({ part with readingClauses := next.1 }, next.2)

/-- `reorderMultiPartQuery`. -/
def reorderMultiPartQuery (query : MultiPartQuery) : MultiPartQuery × Bool :=
  let parts := query.parts.zipIdx.map fun p =>
    p.1.map (reorderMultiPartQueryPart analysis p.2)
  let last := query.singlePartQuery.map (reorderSinglePartQuery analysis query.parts.length)
  ({ parts := parts.map (Option.map Prod.fst)
     singlePartQuery := last.map Prod.fst },
    parts.any (Option.any Prod.snd) || last.any Prod.snd)

/-- `ConservativePatternReorderingRule.Apply`: the query it leaves and
whether it applied. -/
def applyReordering (query : RegularQuery) (analysis : List QueryPart) : RegularQuery × Bool :=
  if queryWouldReorder query analysis then
    match query.singleQuery with
    | none => (query, false)
    | some single =>
      match single.multiPartQuery, single.singlePartQuery with
      | some multi, _ =>
        let next := reorderMultiPartQuery analysis multi
        (⟨some { single with multiPartQuery := some next.1 }⟩, next.2)
      | none, some part =>
        let next := reorderSinglePartQuery analysis 0 part
        (⟨some { single with singlePartQuery := some next.1 }⟩, next.2)
      | none, none => (query, false)
  else (query, false)

end Dawgs.Ref.Cypher

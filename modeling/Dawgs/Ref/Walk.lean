import Dawgs.Ref.Cypher

/-!
# The semantic walker

`walk.Cypher` visits a tree in preorder. For each node a cursor is made,
which lists the branches to go down; a nil node has none and is an error
that ends the walk where it stands. What the walker sees is thus decided
by `newCypherWalkCursor` alone, and the lists there leave things out on
purpose: of a node or relationship pattern only the properties are a
branch, of an `IDInCollection` only the expression, and a map literal that
is not under `Properties` has no branches at all.

The walker here is for visitors that only collect: they neither consume a
node nor stop the walk. Its result is the list of the nodes entered, and
whether the walk ended in an error. `depth` bounds the recursion and
`walk_eq` is the equation without it.
-/

namespace Dawgs.Ref.Cypher

open List Nat

/-- The nodes at and below an expression or a `WHERE`. -/
inductive SyntaxNode where
  | expression (e : Expression)
  | operator (o : Operator)
  | partialComparison (p : PartialExpression Expression)
  | partialArithmetic (p : PartialExpression Expression)
  | mapItem (m : MapItem Expression)
  | where_ (w : Where Expression)
  | idInCollection (i : IDInCollection Expression)
  | filterExpression (f : FilterExpression Expression)
  | patternElement (p : PatternElement Expression)

namespace SyntaxNode

/-- A branch that is added only if the field is not nil. -/
def present (e : Expression) : List SyntaxNode :=
  if e.isNil then [] else [expression e]

/-- `newCypherWalkCursor`: the branches of a node, `none` for a nil one. -/
def newCypherWalkCursor : SyntaxNode → Option (List SyntaxNode)
  | operator _ => some []
  | mapItem m => some (present m.value)
  | where_ w => some (w.expressions.map expression)
  | idInCollection i => some (present i.expression)
  | filterExpression f =>
    some (f.specifier.toList.map idInCollection ++ f.where_.toList.map where_)
  | partialArithmetic p => some (operator p.operator :: present p.right)
  | partialComparison p => some (present p.right)
  | patternElement p => some (present p.element)
  | expression e =>
    match e with
    | .nil => none
    | .var _ | .literal _ | .parameter _ | .rangeQuantifier _
    | .mapLiteral _ => some []
    | .kindMatcher reference _ _ => some (present reference)
    | .propertyLookup atom _ => some (present atom)
    | .properties p =>
      match p.parameter with
      | some q => some [expression (.parameter q)]
      | none => some (p.map.map mapItem)
    | .listLiteral es => some (es.map expression)
    | .functionInvocation _ _ _ arguments =>
      some (arguments.map expression)
    | .parenthetical e => some (present e)
    | .quantifier _ filter => some (filter.toList.map filterExpression)
    | .negation e => some (present e)
    | .conjunction es => some (es.map expression)
    | .disjunction es => some (es.map expression)
    | .exclusiveDisjunction es => some (es.map expression)
    | .arithmetic left partials =>
      some (present left ++ partials.map partialArithmetic)
    | .comparison left partials =>
      some (present left ++ partials.map partialComparison)
    | .unaryAddOrSubtract _ right => some (present right)
    | .projectionItem e _ => some (present e)
    | .patternPredicate elements => some (elements.map patternElement)
    | .relationshipPattern p => some (present p.properties)
    | .nodePattern p => some (present p.properties)

end SyntaxNode

mutual

/-- How deep a tree goes, counting the nodes the walker stands on. -/
def Expression.depth : Expression → Nat
  | .nil | .var _ | .literal _ | .parameter _ | .rangeQuantifier _ => 1
  | .propertyLookup atom _ => atom.depth + 1
  | .functionInvocation _ _ _ arguments => depths arguments + 1
  | .parenthetical e => e.depth + 1
  | .negation e => e.depth + 1
  | .conjunction es => depths es + 1
  | .disjunction es => depths es + 1
  | .exclusiveDisjunction es => depths es + 1
  | .listLiteral es => depths es + 1
  | .mapLiteral items => itemDepths items + 1
  | .comparison left partials => max left.depth (partialDepths partials) + 1
  | .arithmetic left partials => max left.depth (partialDepths partials) + 1
  | .unaryAddOrSubtract _ right => right.depth + 1
  | .quantifier _ filter => filterDepth filter + 1
  | .kindMatcher reference _ _ => reference.depth + 1
  | .properties p => max 1 (itemDepths p.map) + 1
  | .nodePattern p => p.properties.depth + 1
  | .relationshipPattern p => p.properties.depth + 1
  | .patternPredicate elements => elementDepths elements + 1
  | .projectionItem e _ => e.depth + 1

def depths : List Expression → Nat
  | [] => 0
  | e :: es => max e.depth (depths es)

def itemDepths : List (MapItem Expression) → Nat
  | [] => 0
  | m :: ms => max (m.value.depth + 1) (itemDepths ms)

def partialDepths : List (PartialExpression Expression) → Nat
  | [] => 0
  | p :: ps => max (max 1 p.right.depth + 1) (partialDepths ps)

def elementDepths : List (PatternElement Expression) → Nat
  | [] => 0
  | p :: ps => max (p.element.depth + 1) (elementDepths ps)

def filterDepth : Option (FilterExpression Expression) → Nat
  | none => 0
  | some f => max (specifierDepth f.specifier) (whereDepth f.where_) + 1

def specifierDepth : Option (IDInCollection Expression) → Nat
  | none => 0
  | some i => i.expression.depth + 1

def whereDepth : Option (Where Expression) → Nat
  | none => 0
  | some w => depths w.expressions + 1

end

namespace SyntaxNode

def depth : SyntaxNode → Nat
  | expression e => e.depth
  | operator _ => 1
  | partialComparison p => max 1 p.right.depth + 1
  | partialArithmetic p => max 1 p.right.depth + 1
  | mapItem m => m.value.depth + 1
  | where_ w => depths w.expressions + 1
  | idInCollection i => i.expression.depth + 1
  | filterExpression f =>
    max (specifierDepth f.specifier) (whereDepth f.where_) + 1
  | patternElement p => p.element.depth + 1

/-- What a walk has entered, and whether it ended in an error. -/
structure Visits where
  entered : List SyntaxNode
  failed : Bool

/-- The walks of the branches one after the other, up to the first error. -/
def Visits.sequence : List Visits → Visits
  | [] => ⟨[], false⟩
  | v :: vs =>
    if v.failed then v
    else ⟨v.entered ++ (sequence vs).entered, (sequence vs).failed⟩

/-- `walk.Generic` with the semantic cursor, to a bounded depth. -/
def walkWithin : Nat → SyntaxNode → Visits
  | 0, _ => ⟨[], true⟩
  | n + 1, node =>
    match newCypherWalkCursor node with
    | none => ⟨[], true⟩
    | some branches =>
      let below := Visits.sequence (branches.map (walkWithin n))
      ⟨node :: below.entered, below.failed⟩

/-- `walk.Cypher`. -/
def walk (node : SyntaxNode) : Visits := walkWithin node.depth node

variable {b : SyntaxNode} {e : Expression} {n : Nat} {branches : List SyntaxNode}

theorem eq_of_mem_present (h : b ∈ present e) : b = expression e := by
  rw [present] at h
  split at h
  · cases h
  · exact mem_singleton.mp h

theorem depth_lt_of_present (h : b ∈ present e) (hn : e.depth < n) : b.depth < n := by
  rw [eq_of_mem_present h]
  exact hn

/-- What is deeper than a list is deeper than each branch from it. -/
theorem depth_lt_of_map {α : Type} {node : α → SyntaxNode} {g : List α → Nat}
    (hg : ∀ x xs, g (x :: xs) = max (node x).depth (g xs)) {xs : List α}
    (h : b ∈ xs.map node) (hn : g xs < n) : b.depth < n := by
  induction xs with
  | nil => cases h
  | cons x xs ih =>
    rw [hg] at hn
    rcases mem_cons.mp h with rfl | h
    · omega
    · exact ih h (by omega)

/-- The branches of an expression are less deep than it is. -/
theorem depth_lt_of_branch_expression (hc : newCypherWalkCursor (expression e) = some branches)
    (hb : b ∈ branches) : b.depth < e.depth := by
  cases e with
  | nil => cases hc
  | var | literal | parameter | rangeQuantifier | mapLiteral =>
    cases hc
    cases hb
  | propertyLookup e | parenthetical e | negation e | unaryAddOrSubtract _ e | kindMatcher e
  | nodePattern p | relationshipPattern p | projectionItem e =>
    cases hc
    exact depth_lt_of_present hb (lt_succ_self _)
  | functionInvocation _ _ _ es | conjunction es | disjunction es | exclusiveDisjunction es
  | listLiteral es =>
    cases hc
    exact depth_lt_of_map (fun _ _ => rfl) hb (lt_succ_self (depths es))
  | comparison left partials | arithmetic left partials =>
    cases hc
    rw [Expression.depth]
    rcases mem_append.mp hb with hb | hb
    · exact depth_lt_of_present hb (by omega)
    · exact depth_lt_of_map (g := partialDepths) (fun _ _ => rfl) hb (by omega)
  | quantifier type filter =>
    cases hc
    cases filter with
    | none => cases hb
    | some f => rw [mem_singleton.mp hb]; exact lt_succ_self _
  | properties p =>
    obtain ⟨map, parameter⟩ := p
    cases parameter with
    | some q =>
      cases hc
      rw [mem_singleton.mp hb]
      show 1 < max 1 (itemDepths map) + 1
      omega
    | none =>
      cases hc
      rw [Expression.depth]
      exact depth_lt_of_map (g := itemDepths) (fun _ _ => rfl) hb (by dsimp only; omega)
  | patternPredicate elements =>
    cases hc
    exact depth_lt_of_map (fun _ _ => rfl) hb (lt_succ_self (elementDepths elements))

/-- The branches of a node are less deep than the node. -/
theorem depth_lt_of_branch {node : SyntaxNode}
    (hc : newCypherWalkCursor node = some branches) (hb : b ∈ branches) : b.depth < node.depth := by
  cases node with
  | expression e => exact depth_lt_of_branch_expression hc hb
  | operator o => cases hc; cases hb
  | partialComparison p =>
    cases hc
    exact depth_lt_of_present hb (by rw [depth]; omega)
  | partialArithmetic p =>
    cases hc
    rcases mem_cons.mp hb with rfl | hb
    · show 1 < max 1 p.right.depth + 1
      omega
    · exact depth_lt_of_present hb (by rw [depth]; omega)
  | mapItem m | idInCollection i | patternElement p =>
    cases hc
    exact depth_lt_of_present hb (lt_succ_self _)
  | where_ w =>
    cases hc
    exact depth_lt_of_map (fun _ _ => rfl) hb (lt_succ_self (depths w.expressions))
  | filterExpression f =>
    cases hc
    obtain ⟨specifier, condition⟩ := f
    rcases mem_append.mp hb with hb | hb
    · obtain ⟨i, hi, rfl⟩ := mem_map.mp hb
      obtain rfl : specifier = some i := Option.mem_toList.mp hi
      show i.expression.depth + 1 < max (i.expression.depth + 1) (whereDepth condition) + 1
      omega
    · obtain ⟨w, hw, rfl⟩ := mem_map.mp hb
      obtain rfl : condition = some w := Option.mem_toList.mp hw
      show depths w.expressions + 1 < max (specifierDepth specifier) (depths w.expressions + 1) + 1
      omega

theorem depth_pos (node : SyntaxNode) : 0 < node.depth := by
  cases node with
  | expression e => cases e <;> exact succ_pos _
  | operator o => exact one_pos
  | _ => exact succ_pos _

/-- Beyond the depth of a node a larger bound changes nothing. -/
theorem walkWithin_eq {m : Nat} {node : SyntaxNode} (hn : node.depth ≤ n)
    (hm : node.depth ≤ m) : walkWithin n node = walkWithin m node := by
  have hpos := depth_pos node
  induction n generalizing m node with
  | zero => omega
  | succ n ih =>
    obtain ⟨m, rfl⟩ : ∃ k, m = k + 1 := ⟨m - 1, by omega⟩
    rw [walkWithin, walkWithin]
    cases hc : newCypherWalkCursor node with
    | none => rfl
    | some branches =>
      have below : branches.map (walkWithin n) = branches.map (walkWithin m) := by
        refine map_congr_left fun b hb => ?_
        have := depth_lt_of_branch hc hb
        exact ih (by omega) (by omega) (depth_pos b)
      simp only [below]

/-- The walk without its bound. -/
theorem walk_eq (node : SyntaxNode) : node.walk =
      match newCypherWalkCursor node with
      | none => ⟨[], true⟩
      | some branches =>
        let below := Visits.sequence (branches.map walk)
        ⟨node :: below.entered, below.failed⟩ := by
  rw [walk, walkWithin_eq (le_refl _) (le_succ _), walkWithin]
  cases hc : newCypherWalkCursor node with
  | none => rfl
  | some branches =>
    have below : branches.map (walkWithin node.depth) = branches.map walk :=
      map_congr_left fun b hb => walkWithin_eq (depth_lt_of_branch hc hb).le (le_refl _)
    simp only [below]

end SyntaxNode

open SyntaxNode

/-- The symbol a node adds to the dependencies, if it does. -/
def dependency : SyntaxNode → Option String
  | .expression (.var v) =>
    if v.symbol ≠ "" ∧ v.symbol ≠ "*" then some v.symbol else none
  | _ => none

/-- `sortedDependencies`. The slice is the set in order; its users ask for
members and for its length. An error of the walk is dropped. -/
def sortedDependencies (node : SyntaxNode) : Finset String :=
  (node.walk.entered.filterMap dependency).toFinset

/-- `addVariable` of the reference collector, for the symbol of a variable. -/
def referenced : Option Variable → Option String
  | some v => if v.symbol ≠ "" then some v.symbol else none
  | none => none

/-- What the reference collector takes from a node outside of a match. -/
def sourceReference : SyntaxNode → Option String
  | .expression (.nodePattern p) => referenced p.variable_
  | .expression (.relationshipPattern p) => referenced p.variable_
  | .expression (.propertyLookup (.var v) _) => referenced (some v)
  | .expression (.var v) => referenced (some v)
  | _ => none

/-- `collectReferencedSourceIdentifiers` at an expression, and whether it
returned an error. -/
def collectReferencedSourceIdentifiers (e : Expression) : Finset String × Bool :=
  if e.isNil then (∅, false)
  else
    let visits := (expression e).walk
    ((visits.entered.filterMap sourceReference).toFinset, visits.failed)

end Dawgs.Ref.Cypher

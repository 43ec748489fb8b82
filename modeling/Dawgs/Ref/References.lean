import Dawgs.Ref.Reordering

/-!
# References of a query part

Two collectors walk a query part. The optimizer prunes from the projections
of a traversal what its collector does not find; what the translator's finds
is live. Both count the variables outside of the patterns of a `MATCH`, and
those that such patterns declare more than once. They differ in what they take
of the expressions inside of these patterns.

Neither consumes a node or ends the walk, so both get the same callbacks. Those
for clauses, which neither looks at, are left out, and so is the set of the
pattern parts that a `MATCH` declares by: a pattern part comes with whether it
is one of them. `none` is a walk that ends in an error.
-/

namespace Dawgs.Ref.Cypher

open SyntaxNode

inductive Callback where
  | enterPatternPart (declares : Bool) (variable_ : Option Variable)
  | exitPatternPart (declares : Bool)
  | enter (node : SyntaxNode)

abbrev Callbacks := Option (List Callback)

/-- Branches, one after the other. -/
def callbacksOf (branches : List (Callbacks)) : Callbacks := (branches.mapM id).map List.flatten

def nodeCallbacks (nodes : List SyntaxNode) : Callbacks := callbacksOf (nodes.map fun node =>
    if node.walk.failed then none else some (node.walk.entered.map .enter))

def PatternPart.callbacks (declares : Bool) (part : PatternPart) : Callbacks := do
  let elements ← callbacksOf (part.patternElements.map fun element =>
    element.bind fun element => nodeCallbacks [patternElement element])
  some (.enterPatternPart declares part.variable_ :: elements ++ [.exitPatternPart declares])

def Match.callbacks (m : Match) : Callbacks :=
  callbacksOf (m.pattern.map (·.bind (PatternPart.callbacks true)) ++
    [nodeCallbacks (m.where_.toList.map SyntaxNode.where_)])

def ReadingClause.callbacks (c : ReadingClause) : Callbacks :=
  callbacksOf (c.match_.toList.map Match.callbacks ++ c.unwind.toList.map fun u =>
    nodeCallbacks (present u.expression ++ u.variable_.toList.map fun v => expression (.var v)))

def SetItem.branches (item : SetItem) : List SyntaxNode := present item.left ++ present item.right

def UpdatingClause.callbacks : UpdatingClause → Callbacks
  | create _ pattern => callbacksOf (pattern.map (·.bind (PatternPart.callbacks false)))
  | merge part actions =>
    callbacksOf (part.toList.map (PatternPart.callbacks false) ++
      [nodeCallbacks (actions.flatMap fun a => a.set.flatMap SetItem.branches)])
  | set items => nodeCallbacks (items.flatMap SetItem.branches)
  | remove items => nodeCallbacks (items.flatMap fun item => present item.property)
  | delete _ expressions => nodeCallbacks (expressions.map expression)

def Projection.callbacks (p : Projection) : Callbacks :=
  callbacksOf (nodeCallbacks (p.items.map expression) ::
    p.order.toList.flatMap fun order => order.items.map (·.bind fun item =>
      nodeCallbacks (present item.expression)))

def With.callbacks (w : With) : Callbacks :=
  callbacksOf (w.projection.toList.map Projection.callbacks ++
    [nodeCallbacks (w.where_.toList.map SyntaxNode.where_)])

/-- The roots of the collectors. -/
inductive CollectorRoot where
  | single (part : SinglePartQuery)
  | multi (part : MultiPartQueryPart)

def CollectorRoot.callbacks : CollectorRoot → Callbacks
  | single p =>
    callbacksOf (p.readingClauses.map (·.bind ReadingClause.callbacks) ++
      p.updatingClauses.map UpdatingClause.callbacks ++
      (p.return_.bind Return.projection).toList.map Projection.callbacks)
  | multi p =>
    callbacksOf (p.readingClauses.map (·.bind ReadingClause.callbacks) ++
      p.updatingClauses.map UpdatingClause.callbacks ++ p.with_.toList.map With.callbacks)

/-- What a variable is to the collectors. -/
inductive Use where
  | declared
  | read
  | lookedUp
  | readInDeclaration
  deriving DecidableEq

def useOf (use : Use) (v : Option Variable) : List (Use × String) :=
  v.toList.map fun v => (use, v.symbol)

/-- What `Enter` finds at a node, at a `matchPatternDeclarationDepth`. -/
def SyntaxNode.uses (depth : Nat) : SyntaxNode → List (Use × String)
  | .expression (.nodePattern p) =>
    useOf (if depth = 0 then .read else .declared) p.variable_
  | .expression (.relationshipPattern p) =>
    useOf (if depth = 0 then .read else .declared) p.variable_
  | .expression (.propertyLookup (.var v) _) => [(.lookedUp, v.symbol)]
  | .expression (.var v) =>
    [(if depth = 0 then .read else .readInDeclaration, v.symbol)]
  | _ => []

/-- What a walk finds. -/
def usesFrom : Nat → List Callback → List (Use × String)
  | _, [] => []
  | depth, .enterPatternPart true v :: rest => useOf .declared v ++ usesFrom (depth + 1) rest
  | depth, .enterPatternPart false v :: rest => useOf .read v ++ usesFrom depth rest
  | depth, .exitPatternPart declares :: rest =>
    usesFrom (if declares then depth - 1 else depth) rest
  | depth, .enter node :: rest => node.uses depth ++ usesFrom depth rest

def CollectorRoot.uses (root : CollectorRoot) : Option (List (Use × String)) :=
  root.callbacks.map (usesFrom 0)

/-- What a collector takes: the variables of the uses that it counts, and
`collectRepeatedMatchPatternDeclarations`. -/
def collect (counts : Use → Bool) (uses : List (Use × String)) : Finset String :=
  (uses.filter fun u => counts u.1 ∨ u.1 = .declared ∧ 1 < uses.count u).toFinset.image Prod.snd

/-- `collectReferencedIdentifiers`, of the translator. -/
def referencedIdentifiers (uses : List (Use × String)) : Finset String :=
  collect (fun u => u = .read ∨ u = .readInDeclaration) uses

/-- `collectReferencedSourceIdentifiers`, which takes no empty symbol. -/
def referencedSourceIdentifiers (uses : List (Use × String)) : Finset String :=
  collect (fun u => u = .read ∨ u = .lookedUp) (uses.filter (·.2 ≠ ""))

/-- A binding is pruned from a projection only if this is false of it. -/
def referencesSourceIdentifier (references : Finset String) (symbol : String) : Bool :=
  "*" ∈ references ∨ symbol ≠ "" ∧ symbol ∈ references

end Dawgs.Ref.Cypher

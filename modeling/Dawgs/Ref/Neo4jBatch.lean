import Dawgs.Lib.Changes
import Dawgs.Ref.IdentityUpdates

/-!
# Batches of node updates for Neo4j

The Neo4j driver writes a list of node updates with as few statements as it
can. Updates that need the same statement are to share one, so they are
grouped by a key and each group becomes a statement with a row for each of
its updates. `cypherBuildNodeUpdateQueryBatch` finds the nodes by their
identifiers, `cypherBuildNodeUpdateQueryByBatch` by their kind and the
values of some properties.

The groups are a Go map, which is ranged over in any order, and here a list
in the order of the first updates. A statement is what the driver writes
into it: the kinds, the property names and the rows. The clauses of Cypher
work on a table of rows, one clause after the other, each on all rows.
`SET n += p` writes every entry of `p` and keeps the other properties of
the node, `REMOVE n:K` takes the label, and `MERGE` binds the nodes it finds
or else a node that it creates; it refuses a property that is null.

An identifier that the database gives to a node it creates belongs to the
update that needs one. A nil kind and `EmptyKind` are the empty name.
-/

namespace Dawgs.Ref.Neo4j

open Lib

/-! ## Cypher -/

/-- A node of the database. -/
structure StoredNode (V : Type) where
  labels : Finset String
  properties : String → Option V

namespace StoredNode

variable {V : Type}

/-- `SET n += p, n:K, …`. -/
def set (properties : String → Option V) (kinds : List String)
    (n : StoredNode V) : StoredNode V where
  labels := n.labels ∪ kinds.toFinset
  properties := fun name => (properties name).or (n.properties name)

/-- `REMOVE n:K, …`. -/
def remove (kinds : List String) (n : StoredNode V) : StoredNode V :=
  { n with labels := n.labels \ kinds.toFinset }

end StoredNode

abbrev StoredNodes (V : Type) := Table Nat (StoredNode V)

/-- A row that the clauses of a statement work on: the nodes bound to `n`
and the properties that are written. -/
structure BoundRow (V : Type) where
  nodes : Finset Nat
  properties : String → Option V

section

variable {V : Type}

/-- A change of the nodes bound in each row. -/
def forEachRow (change : BoundRow V → StoredNode V → StoredNode V)
    (rows : List (BoundRow V)) (t : StoredNodes V) : StoredNodes V := rows.foldl (fun t row =>
    t.changeWhere (fun id _ => decide (id ∈ row.nodes)) (change row)) t

def setClause (kinds : List String) : List (BoundRow V) → StoredNodes V → StoredNodes V :=
  forEachRow fun row => StoredNode.set row.properties kinds

def removeClause (kinds : List String) : List (BoundRow V) → StoredNodes V → StoredNodes V :=
  forEachRow fun _ => StoredNode.remove kinds

/-- `MATCH (n) WHERE id(n) = p.id`. -/
def matchClause (rows : List (Nat × (String → Option V))) (t : StoredNodes V) : List (BoundRow V) :=
  rows.map fun row => ⟨t.keys.filter (· = row.1), row.2⟩

/-- The pattern `(n:K {a: p.a, …})` of a `MERGE`. -/
def mergePattern [DecidableEq V] (kind : String) (names : List String)
    (p : String → Option V) (n : StoredNode V) : Bool :=
  (kind = "" || kind ∈ n.labels) && names.all fun name =>
    n.properties name = p name

/-- The node that a `MERGE` creates. -/
def mergeCreates (kind : String) (names : List String) (p : String → Option V) : StoredNode V where
  labels := if kind = "" then ∅ else {kind}
  properties := fun name => if name ∈ names then p name else none

/-- `MERGE (n:K {a: p.a, …})` for a row: the nodes bound to `n`. -/
def mergeRow [DecidableEq V] (kind : String) (names : List String) (newID : Nat)
    (p : String → Option V) (t : StoredNodes V) : Option (StoredNodes V × Finset Nat) :=
  if names.all fun name => (p name).isSome then
    let found := t.find fun _ => mergePattern kind names p
    if found.Nonempty then some (t, found)
    else
      (t.insertNew newID (mergeCreates kind names p)).map fun t => (t, {newID})
  else none

/-- `MERGE` for the rows in order, with the identifiers of new nodes. -/
def mergeClause [DecidableEq V] (kind : String) (names : List String) :
    List (Nat × (String → Option V)) → StoredNodes V → Option (StoredNodes V × List (BoundRow V))
  | [], t => some (t, [])
  | (newID, p) :: rows, t => do
    let (t, nodes) ← mergeRow kind names newID p t
    let (t, bound) ← mergeClause kind names rows t
    return (t, ⟨nodes, p⟩ :: bound)

end

/-! ## Updates by identifier -/

variable {α : Type}

/-- A `graph.Node` with its identifier. -/
structure IdentifiedNode (α : Type) where
  id : Nat
  node : Node α

/-- What `digestKeys` writes to the digest: the names, each once, in
order. -/
def digestKeys (kinds : List String) : String := String.join (sortNames kinds.dedup)

/-- What `nodeToNodeUpdateKey` writes to the digest. -/
def nodeUpdateText (node : Node α) : String :=
  digestKeys node.addedKinds ++ digestKeys node.deletedKinds

/-- `nodeToNodeUpdateKey`. -/
def nodeToNodeUpdateKey (digest : String → UInt64) (node : Node α) : UInt64 :=
  digest (nodeUpdateText node)

/-- `nodeUpdateBatch`. -/
structure NodeUpdateBatch (α : Type) where
  nodeKindsToAdd : List String
  nodeKindsToRemove : List String
  parameters : List (Nat × (String → Option (PropertyValue α)))

def IdentifiedNode.parameters (s : IdentifiedNode α) :
    Nat × (String → Option (PropertyValue α)) := (s.id, s.node.properties.map)

/-- `cypherBuildNodeUpdateQueryBatch`. -/
def cypherBuildNodeUpdateQueryBatch (digest : String → UInt64)
    (updates : List (IdentifiedNode α)) : List (NodeUpdateBatch α) := (upserts (fun batch update =>
      { batch with parameters := batch.parameters ++ [update.parameters] })
    (fun update _ =>
      ⟨update.node.addedKinds, update.node.deletedKinds, [update.parameters]⟩)
    (updates.map fun update =>
      (nodeToNodeUpdateKey digest update.node, update))).map Prod.snd

/-- The statement `unwind $p as p match (n) where id(n) = p.id set n +=
p.properties, n:K, … remove n:D, …`. -/
def NodeUpdateBatch.run (t : StoredNodes (PropertyValue α))
    (s : NodeUpdateBatch α) : Option (StoredNodes (PropertyValue α)) :=
  let rows := matchClause s.parameters t
  some (removeClause s.nodeKindsToRemove rows (setClause s.nodeKindsToAdd rows t))

/-! ## Updates by identity -/

/-- A `graph.NodeUpdate`, with the identifier of the node if it is new. -/
structure NewNodeUpdate (α : Type) where
  update : NodeUpdate α
  newID : Nat

/-- The identity kind, if there is one. -/
def identityKinds (identityKind : String) : List String :=
  if identityKind = "" then [] else [identityKind]

/-- `newUpdateKey`. -/
def newUpdateKey (identityKind : String) (identityProperties : List String)
    (updateKinds : List String) : String :=
  String.join (sortNames (identityKinds identityKind ++ identityProperties ++ updateKinds))

/-- `nodeUpdates`. -/
structure NodeUpdates (α : Type) where
  identityKind : String
  identityProperties : List String
  nodeKindsToAdd : List String
  nodeKindsToRemove : List String
  properties : List (Nat × (String → Option (PropertyValue α)))

namespace NewNodeUpdate

def updateKey (s : NewNodeUpdate α) : String :=
  newUpdateKey s.update.identityKind s.update.identityProperties s.update.node.kinds

def properties (s : NewNodeUpdate α) : Nat × (String → Option (PropertyValue α)) :=
  (s.newID, s.update.node.properties.map)

end NewNodeUpdate

/-- `cypherBuildNodeUpdateQueryByBatch`, with `nodeUpdateByMap.add` for each
update. -/
def cypherBuildNodeUpdateQueryByBatch (updates : List (NewNodeUpdate α)) :
    List (NodeUpdates α) := (upserts (fun batch update =>
      { batch with properties := batch.properties ++ [update.properties] })
    (fun update _ =>
      { identityKind := update.update.identityKind
        identityProperties := update.update.identityProperties
        nodeKindsToAdd := update.update.node.kinds
        nodeKindsToRemove := update.update.node.deletedKinds
        properties := [update.properties] })
    (updates.map fun update => (update.updateKey, update))).map Prod.snd

/-- The statement `unwind $p as p merge (n:K {a: p.a, …}) set n += p, n:K, …
remove n:D, …`. -/
def NodeUpdates.run [DecidableEq α] (t : StoredNodes (PropertyValue α))
    (s : NodeUpdates α) : Option (StoredNodes (PropertyValue α)) := do
  let (t, rows) ← mergeClause s.identityKind s.identityProperties s.properties t
  return removeClause s.nodeKindsToRemove rows (setClause s.nodeKindsToAdd rows t)

/-! ## What an update is for -/

/-- The update of a node: kinds added and removed, the values of the bag
set, its deleted properties gone. -/
def ownUpdate (kinds deletedKinds : List String) (properties : Properties (PropertyValue α))
    (n : StoredNode (PropertyValue α)) : StoredNode (PropertyValue α) where
  labels := (n.labels ∪ kinds.toFinset) \ deletedKinds.toFinset
  properties := fun name =>
    if name ∈ properties.deleted then none
    else (properties.map name).or (n.properties name)

/-- The update of the node with an identifier. -/
def IdentifiedNode.own (s : IdentifiedNode α) : RowChange Nat (StoredNode (PropertyValue α)) where
  hits id _ := id = s.id
  change := ownUpdate s.node.addedKinds s.node.deletedKinds s.node.properties
  new := none
  hits_new := by simp

/-- The update of the nodes with an identity, or of a new one. -/
def NewNodeUpdate.own [DecidableEq α] (s : NewNodeUpdate α) :
    RowChange Nat (StoredNode (PropertyValue α)) where
  hits _ := mergePattern s.update.identityKind s.update.identityProperties
    s.update.node.properties.map
  change := ownUpdate s.update.node.kinds s.update.node.deletedKinds s.update.node.properties
  new := some (s.newID, mergeCreates s.update.identityKind
    s.update.identityProperties s.update.node.properties.map)
  hits_new := by
    simp only [Option.mem_def, Option.some.injEq, forall_eq', mergePattern,
      mergeCreates, Bool.and_eq_true, List.all_eq_true]
    refine ⟨?_, fun name hname => by simp [hname]⟩
    split <;> simp [*]

end Dawgs.Ref.Neo4j

import Dawgs.Lib.Upsert
import Dawgs.Ref.Properties

/-!
# Updates by identity

`graph.NodeUpdate` and `graph.RelationshipUpdate` name what they update by
the values of some of its properties. `Key` makes a text of an identity:
the values in the order of the property names, one after the other. The
batches of the PostgreSQL driver keep one entry for each key, and merge an
update into the entry that has its key.

A property value is a string or something else, and only strings make a
key. The value of a future is set when the batch is written; here a future
is its number, in the order of creation. The bags of an update are not nil,
and no two updates share a node: the entry of a batch is the node of the
first update with its key, and later ones are merged into it. A batch that
has refused an update is not used again.
-/

namespace Dawgs.Ref

open Lib

/-- A value of a property. -/
inductive PropertyValue (α : Type) where
  | string (s : String)
  | other (a : α)
  deriving DecidableEq

inductive KeyError where
  | propertyNotFound (key : String)
  | expectedString (key : String)
  deriving DecidableEq

/-- `Properties.Get(key).String()`. -/
def Properties.getString {α : Type} (s : Properties (PropertyValue α))
    (key : String) : Except KeyError String :=
  match s.map key with
  | none => .error (.propertyNotFound key)
  | some (.string value) => .ok value
  | some (.other _) => .error (.expectedString key)

/-- `slices.Sort`. -/
def sortNames (names : List String) : List String := names.insertionSort (· ≤ ·)

/-- The values of the properties, written one after the other. -/
def writeValues {α : Type} (s : Properties (PropertyValue α)) : List String → Except KeyError String
  | [] => .ok ""
  | name :: names => do
    let value ← s.getString name
    let rest ← writeValues s names
    return value ++ rest

/-! ## Kinds -/

/-- `Kinds.Add`. -/
def addKinds (s kinds : List String) : List String :=
  kinds.foldl (fun ref kind => if kind ∈ ref then ref else ref ++ [kind]) s

/-- `Kinds.Remove` of each kind. -/
def removeKinds (s kinds : List String) : List String := kinds.foldl List.erase s

/-- `graph.Node`, without its identifier. -/
structure Node (α : Type) where
  kinds : List String
  addedKinds : List String
  deletedKinds : List String
  properties : Properties (PropertyValue α)

variable {α : Type}

namespace Node

/-- `AddKinds`. -/
def addKinds (s : Node α) (kinds : List String) : Node α :=
  { s with
    kinds := Dawgs.Ref.addKinds s.kinds kinds
    addedKinds := Dawgs.Ref.addKinds s.addedKinds kinds
    deletedKinds := removeKinds s.deletedKinds kinds }

/-- `NewNode`, without the identifier. -/
def new (properties : Properties (PropertyValue α)) (kinds : List String) :
    Node α := ⟨kinds, [], [], properties⟩

/-- `DeleteKinds`. -/
def deleteKinds (s : Node α) (kinds : List String) : Node α :=
  { s with
    kinds := removeKinds s.kinds kinds
    addedKinds := removeKinds s.addedKinds kinds
    deletedKinds := Dawgs.Ref.addKinds s.deletedKinds kinds }

/-- `Merge`. -/
def merge (s other : Node α) : Node α where
  kinds := removeKinds (Dawgs.Ref.addKinds s.kinds other.kinds) other.deletedKinds
  addedKinds := Dawgs.Ref.addKinds (removeKinds s.addedKinds other.deletedKinds) other.addedKinds
  deletedKinds := Dawgs.Ref.addKinds
    (removeKinds s.deletedKinds other.addedKinds) other.deletedKinds
  properties := s.properties.merge other.properties

end Node

/-- A call on one of several nodes, which are numbered. -/
inductive NodeCall where
  | addKinds (node : Nat) (kinds : List String)
  | deleteKinds (node : Nat) (kinds : List String)
  | merge (node other : Nat)

/-- The receiver of a call. -/
def NodeCall.receiver : NodeCall → Nat
  | .addKinds node _ | .deleteKinds node _ | .merge node _ => node

/-- The receiver after the call. -/
def NodeCall.result {α : Type} (nodes : Nat → Node α) : NodeCall → Node α
  | .addKinds node kinds => (nodes node).addKinds kinds
  | .deleteKinds node kinds => (nodes node).deleteKinds kinds
  | .merge node other => (nodes node).merge (nodes other)

/-- The nodes after a call. -/
def NodeCall.on {α : Type} (nodes : Nat → Node α) (call : NodeCall) :
    Nat → Node α := Function.update nodes call.receiver (call.result nodes)

/-- What an update reads of a `graph.Relationship`. -/
structure Edge (α : Type) where
  kind : String
  properties : Properties (PropertyValue α)

/-- `Merge`. -/
def Edge.merge {α : Type} (s other : Edge α) : Edge α :=
  { s with properties := s.properties.merge other.properties }

/-! ## Updates and their keys -/

/-- `graph.NodeUpdate`. -/
structure NodeUpdate (α : Type) where
  node : Node α
  identityKind : String
  identityProperties : List String

/-- `NodeUpdate.Key`. -/
def NodeUpdate.key {α : Type} (s : NodeUpdate α) : Except KeyError String :=
  writeValues s.node.properties (sortNames s.identityProperties)

/-- `graph.RelationshipUpdate`. -/
structure RelationshipUpdate (α : Type) where
  relationship : Edge α
  identityProperties : List String
  start : Node α
  startIdentityKind : String
  startIdentityProperties : List String
  end_ : Node α
  endIdentityKind : String
  endIdentityProperties : List String

namespace RelationshipUpdate

def startNodeUpdate (s : RelationshipUpdate α) : NodeUpdate α :=
  ⟨s.start, s.startIdentityKind, s.startIdentityProperties⟩

def endNodeUpdate (s : RelationshipUpdate α) : NodeUpdate α :=
  ⟨s.end_, s.endIdentityKind, s.endIdentityProperties⟩

/-- `RelationshipUpdate.Key`. -/
def key (s : RelationshipUpdate α) : Except KeyError String := do
  let startKey ← s.startNodeUpdate.key
  let endKey ← s.endNodeUpdate.key
  let values ← writeValues s.relationship.properties (sortNames s.identityProperties)
  return s.relationship.kind ++ startKey ++ values ++ endKey

end RelationshipUpdate

/-! ## The batches -/

inductive BatchError where
  | mixesIdentityProperties
  | key (e : KeyError)
  deriving DecidableEq

/-- Whether `Add` takes an update with these names for one that mixes
identity properties. -/
def mixesNames (expected names : List String) : Bool :=
  (!expected.isEmpty && names.length != expected.length) ||
    expected.any fun name => !names.contains name

/-- The names recorded after an update; `Key` has sorted the update's. -/
def recordNames (expected names : List String) : List String :=
  if expected.isEmpty then sortNames names else expected

/-- `query.NodeUpdate`, an entry of a batch. -/
structure NodeEntry (α : Type) where
  idFuture : Nat
  node : Node α

/-- `NodeUpdateBatch`; its map as a list, in the order of insertion. -/
structure NodeUpdateBatch (α : Type) where
  identityProperties : List String
  updates : List (String × NodeEntry α)

namespace NodeUpdateBatch

/-- `NewNodeUpdateBatch`. -/
def new : NodeUpdateBatch α := ⟨[], []⟩

/-- `Add`: the batch, and the future it returns. -/
def add (s : NodeUpdateBatch α) (update : NodeUpdate α) :
    Except BatchError (NodeUpdateBatch α × Nat) :=
  if mixesNames s.identityProperties update.identityProperties then
    .error .mixesIdentityProperties
  else
    match update.key with
    | .error e => .error (.key e)
    | .ok key =>
      let node := update.node.addKinds update.node.kinds
      .ok (⟨recordNames s.identityProperties update.identityProperties,
        upsert (fun existing => { existing with
          node := existing.node.merge node }) key
          (fun newIDFuture => ⟨newIDFuture, node⟩) s.updates⟩,
        (s.updates.lookup key).elim s.updates.length NodeEntry.idFuture)

/-- `ValidateNodeUpdateByBatch` from a batch on, with the futures of the
calls. -/
def addAll (s : NodeUpdateBatch α) : List (NodeUpdate α) →
    Except BatchError (NodeUpdateBatch α × List Nat)
  | [] => .ok (s, [])
  | update :: updates => do
    let (s, future) ← s.add update
    let (s, futures) ← s.addAll updates
    return (s, future :: futures)

end NodeUpdateBatch

/-- `query.RelationshipUpdate`, an entry of a batch. -/
structure RelationshipEntry (α : Type) where
  startID : Nat
  endID : Nat
  relationship : Edge α

/-- `RelationshipUpdateBatch`. -/
structure RelationshipUpdateBatch (α : Type) where
  nodeUpdates : NodeUpdateBatch α
  identityProperties : List String
  updates : List (String × RelationshipEntry α)

namespace RelationshipUpdateBatch

/-- `NewRelationshipUpdateBatch`. -/
def new : RelationshipUpdateBatch α := ⟨.new, [], []⟩

/-- `Add`. -/
def add (s : RelationshipUpdateBatch α) (update : RelationshipUpdate α) :
    Except BatchError (RelationshipUpdateBatch α) :=
  if mixesNames s.identityProperties update.identityProperties then
    .error .mixesIdentityProperties
  else do
    let (nodes, startID) ← s.nodeUpdates.add update.startNodeUpdate
    let (nodes, endID) ← nodes.add update.endNodeUpdate
    match update.key with
    | .error e => .error (.key e)
    | .ok key =>
      .ok ⟨nodes, recordNames s.identityProperties update.identityProperties,
        upsert (fun existing => { existing with
          relationship := existing.relationship.merge update.relationship })
          key (fun _ => ⟨startID, endID, update.relationship⟩) s.updates⟩

/-- `ValidateRelationshipUpdateByBatch` from a batch on. -/
def addAll (s : RelationshipUpdateBatch α) :
    List (RelationshipUpdate α) → Except BatchError (RelationshipUpdateBatch α)
  | [] => .ok s
  | update :: updates => do
    let s ← s.add update
    s.addAll updates

end RelationshipUpdateBatch

end Dawgs.Ref

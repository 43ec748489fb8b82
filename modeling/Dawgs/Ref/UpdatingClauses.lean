import Dawgs.Lib.Upsert

/-!
# SET and REMOVE

The `SET` and `REMOVE` items of a query part are collected while the query
is walked and written when its last updating clause is left, with one
`UPDATE` for each variable. An item goes into one of four collections of
the variable: properties to assign, properties to remove, kinds to assign
and kinds to remove. A property that is assigned twice keeps its place in
the collection and gets the new value.

The column of the properties is then assigned `properties - removals ||
assignments` and the column of the kinds the same with arrays, sorted and
without duplicates. The printed expression has no parentheses; since `-`
binds tighter than `||`, PostgreSQL reads the tree that was printed. Kinds
and their identifiers are told apart by the same names. A value is null or
something else: `SET n.key = null` removes the key in Cypher, and a JSON
object may have a null under a key.
-/

namespace Dawgs.Ref

open Lib

variable {V : Type}

/-- A node, as the two columns hold it. -/
structure NodeRow (V : Type) where
  kinds : List String
  properties : String → Option (Option V)

/-- An item of a `SET` or `REMOVE` clause, without its variable. -/
inductive UpdateItem (V : Type) where
  | setProperty (key : String) (value : Option V)
  | setKinds (kinds : List String)
  | removeProperty (key : String)
  | removeKinds (kinds : List String)

/-! ## Cypher -/

/-- What an item does to the node. -/
def UpdateItem.execute (n : NodeRow V) : UpdateItem V → NodeRow V
  | .setProperty key value =>
    { n with properties := Function.update n.properties key (value.map some) }
  | .setKinds kinds => { n with kinds := n.kinds ++ kinds }
  | .removeProperty key =>
    { n with properties := Function.update n.properties key none }
  | .removeKinds kinds =>
    { n with kinds := n.kinds.filter fun kind => kind ∉ kinds }

/-- The items one after the other. -/
def executeItems (items : List (UpdateItem V)) (n : NodeRow V) : NodeRow V :=
  items.foldl UpdateItem.execute n

/-! ## The collections -/

/-- `IndexedSlice.Put`. -/
def put {K E : Type} [DecidableEq K] (key : K) (value : E)
    (s : List (K × E)) : List (K × E) := upsert (fun _ => value) key (fun _ => value) s

/-- What is collected for a variable. -/
structure Update (V : Type) where
  propertyAssignments : List (String × Option V)
  removals : List (String × Unit)
  kindAssignments : List String
  kindRemovals : List String

/-- `newIdentifierAssignment`. -/
def Update.empty : Update V := ⟨[], [], [], []⟩

/-- `AddPropertyAssignment`, `AddKindAssignment`, `AddPropertyRemoval` and
`AddKindRemoval`. -/
def Update.add (s : Update V) : UpdateItem V → Update V
  | .setProperty key value =>
    { s with propertyAssignments := put key value s.propertyAssignments }
  | .setKinds kinds =>
    { s with kindAssignments := s.kindAssignments ++ kinds }
  | .removeProperty key => { s with removals := put key () s.removals }
  | .removeKinds kinds => { s with kindRemovals := s.kindRemovals ++ kinds }

/-- `Mutations.Updates` after the items of a query part, each with its
variable. -/
def collectUpdates (items : List (String × UpdateItem V)) : List (String × Update V) :=
  upserts Update.add (fun item _ => Update.empty.add item) items

/-! ## The statement -/

/-- What is assigned to the column `kind_ids`. -/
inductive KindsExpression where
  | column
  | subtract (e : KindsExpression) (kinds : List String)
  | concatenate (e : KindsExpression) (kinds : List String)
  | uniqueSorted (e : KindsExpression)

/-- What is assigned to the column `properties`. -/
inductive PropertiesExpression (V : Type) where
  | column
  | subtract (e : PropertiesExpression V) (keys : List String)
  | concatenate (e : PropertiesExpression V) (object : List (String × Option V))

/-- The assignments of the `UPDATE`, for the columns that have one. -/
structure SqlUpdate (V : Type) where
  kinds : Option KindsExpression
  properties : Option (PropertiesExpression V)

/-- `buildUpdates` for a variable. -/
def buildUpdates (s : Update V) : SqlUpdate V where
  kinds :=
    if s.kindAssignments ≠ [] then
      if s.kindRemovals ≠ [] then
        some (.uniqueSorted (.concatenate (.subtract .column s.kindRemovals) s.kindAssignments))
      else some (.uniqueSorted (.concatenate .column s.kindAssignments))
    else if s.kindRemovals ≠ [] then some (.subtract .column s.kindRemovals)
    else none
  properties :=
    if s.propertyAssignments ≠ [] then
      if s.removals ≠ [] then
        some (.concatenate (.subtract .column (s.removals.map Prod.fst)) s.propertyAssignments)
      else some (.concatenate .column s.propertyAssignments)
    else if s.removals ≠ [] then
      some (.subtract .column (s.removals.map Prod.fst))
    else none

/-- The arrays of kinds: `-`, `||` and `uniq(sort(…))`. -/
def KindsExpression.eval (kinds : List String) : KindsExpression → List String
  | .column => kinds
  | .subtract e removed => (e.eval kinds).filter fun kind => kind ∉ removed
  | .concatenate e added => e.eval kinds ++ added
  | .uniqueSorted e => ((e.eval kinds).insertionSort (· ≤ ·)).dedup

/-- `jsonb_build_object`: the last value of a key is the one that counts. -/
def buildObject (entries : List (String × Option V)) :
    String → Option (Option V) := entries.foldl (fun object entry =>
    Function.update object entry.1 (some entry.2)) fun _ => none

/-- The objects of properties: `-` and `||`. -/
def PropertiesExpression.eval (properties : String → Option (Option V)) :
    PropertiesExpression V → String → Option (Option V)
  | .column => properties
  | .subtract e keys => fun key =>
    if key ∈ keys then none else e.eval properties key
  | .concatenate e object => fun key =>
    (buildObject object key).or (e.eval properties key)

/-- What the `UPDATE` writes. -/
def SqlUpdate.write (s : SqlUpdate V) (n : NodeRow V) : NodeRow V where
  kinds := s.kinds.elim n.kinds fun e => e.eval n.kinds
  properties := s.properties.elim n.properties fun e => e.eval n.properties

/-- What the statement of a query part writes to the node of a variable. -/
def writtenTo (items : List (String × UpdateItem V)) (target : String)
    (n : NodeRow V) : NodeRow V := ((collectUpdates items).lookup target).elim n fun s =>
    (buildUpdates s).write n

end Dawgs.Ref

import Mathlib

/-!
# Property bags

`graph.Properties` is a map of values with two sets of keys beside it: the
keys modified since the bag was loaded and the keys deleted since. The
values loaded and the values set live in the one map.

The three Go maps may be nil. Every method makes the map it is about to
write, reading or deleting from a nil map does nothing, and no method
tells nil from empty, so a nil map is the empty one here. A loop over the
keys of a map visits each once, in no particular order, and what the loops
of `Merge` do does not depend on the order: they are the set operations
below. A value that is absent reads as Go's nil, `default`.
-/

namespace Dawgs.Ref

open Function

/-- `Properties`. -/
structure Properties (V : Type) where
  map : String → Option V
  deleted : Finset String
  modified : Finset String

namespace Properties

variable {V : Type}

/-- A bag as it comes from the database: values, and no change. -/
def load (stored : String → Option V) : Properties V := ⟨stored, ∅, ∅⟩

/-- `NewProperties`. -/
def empty : Properties V := load fun _ => none

variable (s : Properties V)

/-- `Set`. -/
def set (key : String) (value : V) : Properties V where
  map := update s.map key (some value)
  modified := insert key s.modified
  deleted := s.deleted.erase key

/-- `SetAll`, over the entries of the map in the order of the iteration. -/
def setAll (other : List (String × V)) : Properties V :=
  other.foldl (fun s entry => s.set entry.1 entry.2) s

/-- `Delete`. -/
def delete (key : String) : Properties V where
  map := update s.map key none
  deleted := insert key s.deleted
  modified := s.modified.erase key

/-- `Merge` of a bag that is not nil: its values over the receiver's, then
its modified keys, then its deleted keys. -/
def merge (s other : Properties V) : Properties V where
  map := fun k =>
    if k ∈ other.deleted then none else (other.map k).or (s.map k)
  modified := (s.modified ∪ other.modified) \ other.deleted
  deleted := (s.deleted \ other.modified) ∪ other.deleted

/-- `Merge`: nil is ignored. -/
def mergeNilable : Option (Properties V) → Properties V
  | none => s
  | some other => s.merge other

/-- `Clone`: new maps with the entries of the old ones. -/
def clone : Properties V := ⟨s.map, s.deleted, s.modified⟩

/-- `ModifiedProperties`. -/
def modifiedProperties [Inhabited V] : String → Option V :=
  fun k => if k ∈ s.modified then some ((s.map k).getD default) else none

end Properties

/-- A call on one of several bags, which are numbered. `Clone` gives its
result a number. -/
inductive BagCall (V : Type) where
  | set (bag : Nat) (key : String) (value : V)
  | setAll (bag : Nat) (other : List (String × V))
  | delete (bag : Nat) (key : String)
  | clone (bag copy : Nat)
  | merge (bag : Nat) (other : Option Nat)

/-- The bags after a call. Each method writes maps of its receiver or maps
it has made, so that no two bags come to share one. -/
def BagCall.on {V : Type} (bags : Nat → Properties V) : BagCall V → Nat → Properties V
  | .set bag key value =>
    update bags bag ((bags bag).set key value)
  | .setAll bag other => update bags bag ((bags bag).setAll other)
  | .delete bag key => update bags bag ((bags bag).delete key)
  | .clone bag copy => update bags copy (bags bag).clone
  | .merge bag other =>
    update bags bag ((bags bag).mergeNilable (other.map bags))

end Dawgs.Ref

import Dawgs.Ref.RelationshipWrites

/-!
# The graph cache

`graphcache.Cache` keeps relationships by identifier in an `IndexedSlice`,
a slice of values and a map from keys to places in it. Different keys have
different places, which is the invariant of the type. The size that `Put`
keeps account of is left out, nothing here reads it.

`FetchRelationshipsByID` takes from the cache what is there and asks the
database if anything is missing. What it has from the cache and what comes
from the database are in one slice, and the last of it is put into the
cache, as many as were missing. A slice expression with a negative bound
panics.
-/

namespace Dawgs.Ref

open Function List Option

/-- `IndexedSlice`. -/
structure IndexedSlice (K V : Type) where
  index : K → Option Nat
  values : List V
  stored : ∀ {k i}, index k = some i → i < values.length
  apart : ∀ {k l i}, index k = some i → index l = some i → k = l

namespace IndexedSlice

variable {K V : Type} [DecidableEq K]

/-- `NewIndexedSlice`. -/
def new : IndexedSlice K V := ⟨fun _ => none, [], nofun, nofun⟩

section

variable (s : IndexedSlice K V)

/-- `CheckedGet`. -/
def checkedGet (key : K) : Option V :=
  (s.index key).bind fun valueIdx => s.values[valueIdx]?

/-- `GetAll`: the values found, and the keys without one. -/
def getAll (keys : List K) : List V × List K :=
  keys.foldl (fun (values, missingKeys) key =>
    match s.checkedGet key with
    | some value => (values ++ [value], missingKeys)
    | none => (values, missingKeys ++ [key])) ([], [])

theorem stored_append (key : K) (value : V) {k : K} {i : Nat}
    (hk : update s.index key (some s.values.length) k = some i) :
    i < (s.values ++ [value]).length := by
  rw [length_append, length_singleton]
  by_cases hkey : k = key
  · rw [hkey, update_self, some.injEq] at hk
    omega
  · rw [update_of_ne hkey] at hk
    have := s.stored hk
    omega

theorem apart_append (key : K) {k l : K} {i : Nat}
    (hk : update s.index key (some s.values.length) k = some i)
    (hl : update s.index key (some s.values.length) l = some i) : k = l := by
  by_cases hkey : k = key <;> by_cases lkey : l = key
  · rw [hkey, lkey]
  · rw [hkey, update_self, some.injEq] at hk
    rw [update_of_ne lkey] at hl
    have := s.stored hl
    omega
  · rw [lkey, update_self, some.injEq] at hl
    rw [update_of_ne hkey] at hk
    have := s.stored hk
    omega
  · rw [update_of_ne hkey] at hk
    rw [update_of_ne lkey] at hl
    exact s.apart hk hl

omit [DecidableEq K] in
theorem stored_set (i : Nat) (value : V) {k : K} {j : Nat} (hk : s.index k = some j) :
    j < (s.values.set i value).length := by
  rw [length_set]
  exact s.stored hk

/-- `Put`. -/
def put (key : K) (value : V) : IndexedSlice K V :=
  match s.index key with
  | some valueIdx =>
    { s with
      values := s.values.set valueIdx value
      stored := @stored_set _ _ s valueIdx value }
  | none =>
    { index := update s.index key (some s.values.length)
      values := s.values ++ [value]
      stored := @stored_append _ _ _ s key value
      apart := @apart_append _ _ _ s key }

theorem checkedGet_put (key : K) (value : V) (k : K) :
    (s.put key value).checkedGet k =
      if k = key then some value else s.checkedGet k := by
  unfold put
  split
  next i hi =>
    by_cases hk : k = key
    · have hlt := s.stored hi
      simp [checkedGet, hk, hi, hlt]
    · rw [if_neg hk]
      refine bind_congr fun j hj => ?_
      have hij : i ≠ j := by
        rintro rfl
        exact hk (s.apart hj hi)
      exact getElem?_set_ne hij
  · by_cases hk : k = key
    · simp [checkedGet, hk]
    · rw [if_neg hk]
      show (update s.index key _ k).bind _ = _
      rw [update_of_ne hk]
      refine bind_congr fun j hj => ?_
      exact getElem?_append_left (s.stored hj)

end

end IndexedSlice

variable {V ε : Type}

/-- The relationships of `graphcache.Cache`, each under its identifier. -/
structure RelationshipCache (V : Type) where
  slice : IndexedSlice UInt64 (Relationship V)
  keyed : ∀ {i r}, slice.checkedGet i = some r → r.id = i

namespace RelationshipCache

/-- `New`. -/
def new : RelationshipCache V := ⟨.new, nofun⟩

section

variable (s : RelationshipCache V)

/-- `CheckedGetRelationship`. -/
def checkedGet (id : UInt64) :
    Option (Relationship V) := s.slice.checkedGet id

def put (relationship : Relationship V) : RelationshipCache V where
  slice := s.slice.put relationship.id relationship
  keyed {i r} h := by
    rw [IndexedSlice.checkedGet_put] at h
    split at h
    next hi =>
      obtain rfl := some.inj h
      exact hi.symm
    · exact s.keyed h

/-- `PutRelationships`. -/
def putRelationships
    (relationships : List (Relationship V)) : RelationshipCache V := relationships.foldl put s

/-- `GetRelationships`. -/
def getRelationships (ids : List UInt64) :
    List (Relationship V) × List UInt64 := s.slice.getAll ids

end

end RelationshipCache

/-- `RelationshipSet`. -/
abbrev RelationshipSet (V : Type) := UInt64 → Option (Relationship V)

/-- `NewRelationshipSet`. -/
def newRelationshipSet (relationships : List (Relationship V)) :
    RelationshipSet V := relationships.foldl (fun newSet relationship =>
    update newSet relationship.id (some relationship))
    fun _ => none

/-- How a fetch fails: the query does, or it panics. -/
inductive FetchFailure (ε : Type) where
  | query (e : ε)
  | panic

/-- What a fetch does: its result, the cache it leaves and the identifiers
it asks the database for. -/
structure Fetch (V ε : Type) where
  result : Except (FetchFailure ε) (RelationshipSet V)
  cache : RelationshipCache V
  asked : Option (List UInt64)

/-- `FetchRelationshipsByID`, where `query` is what the database answers
for a list of identifiers. -/
def fetchRelationshipsByID (query : List UInt64 → Except ε (List (Relationship V)))
    (cache : RelationshipCache V) (ids : List UInt64) : Fetch V ε :=
  let (cachedRelationships, missingRelationshipIDs) := cache.getRelationships ids
  if missingRelationshipIDs.length > 0 then
    match query ids with
    | .error e => ⟨.error (.query e), cache, some ids⟩
    | .ok rows =>
      let cachedRelationships := cachedRelationships ++ rows
      if cachedRelationships.length < missingRelationshipIDs.length then
        ⟨.error .panic, cache, some ids⟩
      else
        ⟨.ok (newRelationshipSet cachedRelationships),
          cache.putRelationships (cachedRelationships.drop
            (cachedRelationships.length - missingRelationshipIDs.length)), some ids⟩
  else ⟨.ok (newRelationshipSet cachedRelationships), cache, none⟩

end Dawgs.Ref

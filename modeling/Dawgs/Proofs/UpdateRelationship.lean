import Dawgs.Ref.RelationshipWrites

/-!
# What `UpdateRelationship` leaves in the table

Two of the three statements do what they are for. The third,
`properties || $1 - $2`, was meant to set and then delete; PostgreSQL
reads it as `properties || ($1 - $2)`, so the keys to delete are taken off
the new values, which do not have them, and the stored ones stay.

The stored bag is right after that statement exactly when there was
nothing to delete.
-/

namespace Dawgs.Ref

open Finset Function

variable {V J : Type} [Inhabited V] {table : EdgeTable J}

/-- The bag with every modified key set and every deleted key removed. -/
def updatedBag (encode : V → Option J) (properties : Properties V)
    (stored : JsonObject J) : JsonObject J := fun k =>
  if k ∈ properties.deleted then none
  else ((properties.modifiedProperties k).bind encode).or (stored k)

section Statements

variable {id : Nat} {stored set : JsonObject J} {deleted : Finset String}

section

variable (hstored : table id = some stored)
include hstored

theorem exec_setAndDelete :
    execUpdate table (some edgePropertySetAndDeleteStatement)
      [.jsonb set, .textArray deleted, .int8 id] = update table id
        (some fun k => (if k ∈ deleted then none else set k).or (stored k)) := by
  simp [execUpdate, edgePropertySetAndDeleteStatement, param, hstored,
    SqlText.parse, SqlText.group, joinConcat, SqlExpr.eval]

theorem exec_setOnly :
    execUpdate table (some edgePropertySetOnlyStatement) [.jsonb set, .int8 id] =
      update table id (some fun k => (set k).or (stored k)) := by
  simp [execUpdate, edgePropertySetOnlyStatement, param, hstored,
    SqlText.parse, SqlText.group, joinConcat, SqlExpr.eval]

theorem exec_deleteOnly :
    execUpdate table (some edgePropertyDeleteOnlyStatement)
      [.textArray deleted, .int8 id] = update table id
        (some fun k => if k ∈ deleted then none else stored k) := by
  simp [execUpdate, edgePropertyDeleteOnlyStatement, param, hstored,
    SqlText.parse, SqlText.group, joinConcat, SqlExpr.eval]

end

end Statements

variable {encode : V → Option J} {properties : Properties V}

/-- The statement chosen, by what there is to modify and to delete. -/
theorem updateRelationship_table {id : Nat}
    {stored : JsonObject J} (hstored : table id = some stored)
    (hencode : ∀ k ∈ properties.modified, ((properties.modifiedProperties k).bind encode).isSome) :
    updateRelationship encode table id properties = some (update table id (some fun k =>
        if properties.modified = ∅ then
          if k ∈ properties.deleted then none else stored k
        else
          (if k ∈ properties.deleted then none
            else (properties.modifiedProperties k).bind encode).or (stored k))) := by
  have hvalue : valueToJSONB encode properties.modified properties.modifiedProperties =
      some fun k => (properties.modifiedProperties k).bind encode := if_pos hencode
  rw [updateRelationship, hvalue]
  simp only [card_pos]
  by_cases hmod : properties.modified = ∅
  · rw [if_neg (by rw [hmod]; exact not_nonempty_empty)]
    by_cases hdel : properties.deleted = ∅
    · rw [if_neg (by rw [hdel]; exact not_nonempty_empty)]
      simp [hmod, hdel, execUpdate, ← hstored]
    · rw [if_pos (nonempty_iff_ne_empty.mpr hdel), exec_deleteOnly hstored]
      simp [hmod]
  · rw [if_pos (nonempty_iff_ne_empty.mpr hmod)]
    by_cases hdel : properties.deleted = ∅
    · rw [exec_setOnly hstored]
      simp [hmod, hdel]
    · rw [if_pos (nonempty_iff_ne_empty.mpr hdel), exec_setAndDelete hstored]
      simp [hmod]

/-- The stored bag ends up as it should exactly when there is nothing to
modify, or none of the keys to delete is stored. -/
theorem updateRelationship_iff (encode : V → Option J) (table : EdgeTable J)
    (id : Nat) (properties : Properties V) (stored : JsonObject J)
    (hstored : table id = some stored) (hdisjoint : Disjoint properties.modified properties.deleted)
    (hencode : ∀ k ∈ properties.modified, ((properties.modifiedProperties k).bind encode).isSome) :
    (∃ table', updateRelationship encode table id properties = some table' ∧
      table' id = some (updatedBag encode properties stored)) ↔
      properties.modified = ∅ ∨ ∀ k ∈ properties.deleted, stored k = none := by
  have hnot : ∀ k ∈ properties.deleted, ¬ k ∈ properties.modified :=
    fun k hdel hmod => disjoint_left.mp hdisjoint hmod hdel
  rw [updateRelationship_table hstored hencode]
  simp only [Option.some.injEq, exists_eq_left', update_self]
  rw [funext_iff]
  by_cases hmod : properties.modified = ∅
  · simp only [hmod, true_or, iff_true]
    intro k
    rw [updatedBag, Properties.modifiedProperties, hmod, if_neg (Finset.notMem_empty k)]
    rfl
  · simp only [hmod, if_false, false_or]
    constructor
    · intro h k hdel
      have hk := h k
      rw [updatedBag, if_pos hdel, if_pos hdel] at hk
      exact hk
    · intro h k
      rw [updatedBag]
      split
      next hdel => exact h k hdel
      · rfl

theorem updateRelationship_iff_set :
    ∃ table', updateRelationship (V := Nat) some
        (fun id => if id = 7 then some fun _ => none else none) 7
        (Properties.empty.set "k" 1) = some table' ∧
      table' 7 = some (updatedBag some (Properties.empty.set "k" 1) fun _ => none) :=
  (updateRelationship_iff some _ 7 _ (fun _ => none) rfl (by decide)
    (by decide)).mpr (Or.inr (by decide))

/-- A key to delete is stored and something else is set: the key stays. -/
theorem updateRelationship_keeps :
    (updateRelationship (V := Nat) some
        (fun id => if id = 7 then some fun k => if k = "old" then some 0 else none
          else none) 7
        ((Properties.empty.delete "old").set "k" 1)).map
      (fun table' => (table' 7).map (· "old")) = some (some (some 0)) ∧
      updatedBag some ((Properties.empty.delete "old").set "k" 1)
        (fun k => if k = "old" then some 0 else none) "old" = none := by
  decide

end Dawgs.Ref

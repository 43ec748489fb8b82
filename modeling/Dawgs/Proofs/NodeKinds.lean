import Dawgs.Ref.IdentityUpdates

/-!
# The kinds of a node and their changes

A node has its kinds and, beside them, the kinds added and deleted since it
was loaded. The two lists of changes are sets that stay apart whatever is
called, so merged changes are the one after the other. The kinds do not
follow them everywhere. `Merge` takes over all kinds of the other node, those
it was loaded with too, and takes a kind off the deleted ones only if the
other node has added it. A kind that the receiver has deleted comes back so
and stays marked as deleted.

Kinds are removed one occurrence at a time, so that a node which was made
with a kind twice still has it after the kind was deleted. The nodes here
are made with lists that name no kind twice.
-/

namespace Dawgs.Ref

open Lib List

section Kinds

variable {s kinds : List String} {k : String}

theorem mem_addKinds : k ∈ addKinds s kinds ↔ k ∈ s ∨ k ∈ kinds := by
  induction kinds generalizing s with
  | nil => simp [addKinds]
  | cons kind kinds ih =>
    rw [addKinds, foldl_cons, ← addKinds]
    split <;> grind

theorem nodup_addKinds (h : s.Nodup) : (addKinds s kinds).Nodup := by
  induction kinds generalizing s with
  | nil => exact h
  | cons kind kinds ih =>
    refine ih ?_
    dsimp only
    split
    · exact h
    next hnot => exact h.append (nodup_singleton _) (by simpa using hnot)

theorem removeKinds_eq_diff : removeKinds s kinds = s.diff kinds := (diff_eq_foldl ..).symm

theorem mem_removeKinds (h : s.Nodup) : k ∈ removeKinds s kinds ↔ k ∈ s ∧ k ∉ kinds := by
  rw [removeKinds_eq_diff, h.mem_sdiff_iff]

theorem nodup_removeKinds (h : s.Nodup) : (removeKinds s kinds).Nodup := by
  rw [removeKinds_eq_diff]
  exact h.diff

end Kinds

/-- What every call keeps of the kinds, the added and the deleted ones. -/
structure Tracks (K A D : List String) : Prop where
  kinds : K.Nodup
  addedKinds : A.Nodup
  deletedKinds : D.Nodup
  apart : ∀ k ∈ A, k ∉ D
  added : ∀ k ∈ A, k ∈ K

section Merge

variable {K A D K' A' D' : List String} {k : String} (h : Tracks K A D)
include h

theorem mem_mergedKinds : k ∈ removeKinds (addKinds K K') D' ↔ (k ∈ K ∨ k ∈ K') ∧ k ∉ D' := by
  rw [mem_removeKinds (nodup_addKinds h.kinds), mem_addKinds]

theorem mem_mergedAdded : k ∈ addKinds (removeKinds A D') A' ↔ k ∈ A ∧ k ∉ D' ∨ k ∈ A' := by
  rw [mem_addKinds, mem_removeKinds h.addedKinds]

theorem mem_mergedDeleted : k ∈ addKinds (removeKinds D A') D' ↔ k ∈ D ∧ k ∉ A' ∨ k ∈ D' := by
  rw [mem_addKinds, mem_removeKinds h.deletedKinds]

/-- `AddKinds` and `DeleteKinds` are merges as well, of the kinds as added
ones and of the kinds as deleted ones. -/
theorem Tracks.merge (K' A' D' : List String) (hapart : ∀ k ∈ A', k ∉ D')
    (hadded : ∀ k ∈ A', k ∈ K') :
    Tracks (removeKinds (addKinds K K') D') (addKinds (removeKinds A D') A')
      (addKinds (removeKinds D A') D') where
  kinds := nodup_removeKinds (nodup_addKinds h.kinds)
  addedKinds := nodup_addKinds (nodup_removeKinds h.addedKinds)
  deletedKinds := nodup_addKinds (nodup_removeKinds h.deletedKinds)
  apart := by
    intro k
    have hapart₁ := h.apart k
    rw [mem_mergedAdded h, mem_mergedDeleted h]
    tauto
  added := by
    intro k
    have hadded₁ := h.added k
    rw [mem_mergedAdded h, mem_mergedKinds h]
    tauto

/-- The merged kinds have no deleted one among them exactly if the other
kinds bring back none of those deleted before. -/
theorem deleted_merge_iff (K' A' D' : List String)
    (hdeleted : ∀ k ∈ D, k ∉ K) (hdeleted' : ∀ k ∈ D', k ∉ K') :
    (∀ k ∈ addKinds (removeKinds D A') D', k ∉ removeKinds (addKinds K K') D') ↔
      ∀ k ∈ D, k ∉ A' → k ∉ K' := by
  refine forall_congr' fun k => ?_
  rw [mem_mergedDeleted h, mem_mergedKinds h]
  tauto

end Merge

namespace Node

variable {α : Type} {n : Node α}

def Tracked (n : Node α) : Prop := Tracks n.kinds n.addedKinds n.deletedKinds

/-- What a node should keep of its kinds. -/
structure Consistent (n : Node α) : Prop where
  added : ∀ k ∈ n.addedKinds, k ∈ n.kinds
  deleted : ∀ k ∈ n.deletedKinds, k ∉ n.kinds
  apart : ∀ k ∈ n.addedKinds, k ∉ n.deletedKinds

theorem consistent_iff (h : n.Tracked) : n.Consistent ↔ ∀ k ∈ n.deletedKinds, k ∉ n.kinds :=
  ⟨Consistent.deleted, fun hd => ⟨h.added, hd, h.apart⟩⟩

/-- What the changes make of the kinds stored. -/
def applyKinds (n : Node α) (stored : Finset String) : Finset String :=
  (stored \ n.deletedKinds.toFinset) ∪ n.addedKinds.toFinset

/-- Merged changes are the one after the other. -/
theorem applyKinds_merge (h : n.Tracked) (other : Node α) (stored : Finset String) :
    (n.merge other).applyKinds stored = other.applyKinds (n.applyKinds stored) := by
  ext k
  simp only [applyKinds, merge, Finset.mem_union, Finset.mem_sdiff,
    mem_toFinset, mem_mergedAdded h, mem_mergedDeleted h]
  tauto

end Node

namespace NodeCall

open Node

variable {α : Type} {nodes : Nat → Node α}

/-- A merge does not bring a kind back that is deleted. -/
def Keeps (nodes : Nat → Node α) : NodeCall → Prop
  | .merge node other => ∀ k ∈ (nodes node).deletedKinds,
      k ∉ (nodes other).addedKinds → k ∉ (nodes other).kinds
  | _ => True

theorem tracked_result (h : ∀ i, (nodes i).Tracked) (call : NodeCall) :
    (call.result nodes).Tracked := by
  cases call with
  | addKinds node kinds =>
    exact (h node).merge kinds kinds [] (fun _ _ => not_mem_nil) fun _ hk => hk
  | deleteKinds node kinds =>
    exact (h node).merge [] [] kinds (fun _ hk => absurd hk not_mem_nil) fun _ hk => hk
  | merge node other => exact (h node).merge _ _ _ (h other).apart (h other).added

theorem tracked_on (h : ∀ i, (nodes i).Tracked) (call : NodeCall) :
    ∀ i, (call.on nodes i).Tracked := (forall_update_iff h ..).mpr (tracked_result h call)

theorem consistent_on_iff (h : ∀ i, (nodes i).Tracked) (hgood : ∀ i, (nodes i).Consistent)
    (call : NodeCall) : (∀ i, (call.on nodes i).Consistent) ↔ call.Keeps nodes := by
  refine (forall_update_iff hgood ..).trans ((consistent_iff (tracked_result h call)).trans ?_)
  cases call with
  | addKinds node kinds =>
    have hiff := deleted_merge_iff (h node) kinds kinds [] (hgood node).deleted
      fun _ hk => absurd hk not_mem_nil
    exact iff_of_true (hiff.mpr fun _ _ hk => hk) trivial
  | deleteKinds node kinds =>
    have hiff := deleted_merge_iff (h node) [] [] kinds (hgood node).deleted fun _ _ => not_mem_nil
    exact iff_of_true (hiff.mpr fun _ _ _ => not_mem_nil) trivial
  | merge node other =>
    exact deleted_merge_iff (h node) _ _ _ (hgood node).deleted (hgood other).deleted

end NodeCall

end Dawgs.Ref

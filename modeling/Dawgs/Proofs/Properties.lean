import Dawgs.Lib.Machine
import Dawgs.Lib.Patch
import Dawgs.Ref.Properties

/-!
# Merging change sets

A bag's modified and deleted keys are a change to what is stored, and
`Merge` is meant to be one change after another. Key by key it is, except
in one place. `Merge` copies every value of the other bag, those it was
loaded with too, while the key may be marked modified by the receiver
alone. Then the receiver's change survives with the other bag's value.

So the law holds exactly for pairs in which the other bag, where it has a
value it did not itself set under a key the receiver modified, has the
value the receiver set.

The same copy breaks what every other method keeps, that a deleted key has
no value: a value the other bag was loaded with comes back under a key the
receiver deleted, and the key stays marked. Over a history of calls the
bags keep it exactly if no merge does that.
-/

namespace Dawgs.Ref

open Lib Finset

namespace Properties

variable {V : Type}

/-- The bags a program gets to: one that was loaded, and then changed. -/
inductive Reachable : Properties V → Prop where
  | load (stored : String → Option V) : Reachable (load stored)
  | set {s : Properties V} (key : String) (value : V) : Reachable s → Reachable (s.set key value)
  | setAll {s : Properties V} (other : List (String × V)) : Reachable s → Reachable (s.setAll other)
  | delete {s : Properties V} (key : String) : Reachable s → Reachable (s.delete key)

/-- A modified key has a value, a deleted key has none. -/
structure Wf (s : Properties V) : Prop where
  modified_some : ∀ k ∈ s.modified, ∃ v, s.map k = some v
  deleted_none : ∀ k ∈ s.deleted, s.map k = none

variable {s : Properties V}

theorem Wf.disjoint (h : s.Wf) {k : String} (hm : k ∈ s.modified) : ¬ k ∈ s.deleted := by
  intro hdel
  obtain ⟨v, hv⟩ := h.modified_some k hm
  rw [h.deleted_none k hdel] at hv
  cases hv

theorem Wf.set (h : s.Wf) (key : String) (value : V) : (s.set key value).Wf where
  modified_some := by
    intro k hk
    by_cases heq : k = key
    · exact ⟨value, by rw [heq]; exact Function.update_self ..⟩
    · rw [show (s.set key value).map k = s.map k from
        Function.update_of_ne heq ..]
      exact h.modified_some k ((mem_insert.mp hk).resolve_left heq)
  deleted_none := by
    intro k hk
    obtain ⟨hne, hk⟩ := mem_erase.mp hk
    rw [show (s.set key value).map k = s.map k from
      Function.update_of_ne hne ..]
    exact h.deleted_none k hk

theorem Wf.delete (h : s.Wf) (key : String) : (s.delete key).Wf where
  modified_some := by
    intro k hk
    obtain ⟨hne, hk⟩ := mem_erase.mp hk
    rw [show (s.delete key).map k = s.map k from Function.update_of_ne hne ..]
    exact h.modified_some k hk
  deleted_none := by
    intro k hk
    by_cases heq : k = key
    · rw [heq]
      exact Function.update_self ..
    · rw [show (s.delete key).map k = s.map k from
        Function.update_of_ne heq ..]
      exact h.deleted_none k ((mem_insert.mp hk).resolve_left heq)

theorem Wf.setAll (h : s.Wf) (other : List (String × V)) : (s.setAll other).Wf := by
  induction other generalizing s with
  | nil => exact h
  | cons entry other ih => exact ih (h.set entry.1 entry.2)

theorem Reachable.wf (h : Reachable s) : s.Wf := by
  induction h with
  | load stored => exact ⟨nofun, nofun⟩
  | set key value _ ih => exact ih.set key value
  | setAll other _ ih => exact ih.setAll other
  | delete key _ ih => exact ih.delete key

/-- What a bag should keep. -/
def Consistent (s : Properties V) : Prop := s.Wf ∧ Disjoint s.modified s.deleted

theorem consistent_iff : s.Consistent ↔ s.Wf :=
  ⟨And.left, fun h => ⟨h, disjoint_left.mpr fun _ => h.disjoint⟩⟩

/-- The merged bag: the one thing that can go wrong is a value of the other
bag, which it did not set itself, under a key the receiver deleted. -/
theorem merge_wf_iff {a b : Properties V} (ha : a.Wf) (hb : b.Wf) :
    (a.merge b).Wf ↔ ∀ k ∈ a.deleted, ¬ k ∈ b.modified → b.map k = none := by
  constructor
  · intro h k hk hm
    by_cases hbd : k ∈ b.deleted
    · exact hb.deleted_none k hbd
    · have hnone := h.deleted_none k (by simp [merge, hk, hm])
      simpa [merge, hbd, ha.deleted_none k hk] using hnone
  · intro h
    constructor
    · intro k hk
      simp only [merge, mem_sdiff, mem_union] at hk
      obtain ⟨hm | hm, hbd⟩ := hk
      · obtain ⟨v, hv⟩ := ha.modified_some k hm
        cases hb' : b.map k <;> simp [merge, hbd, hv]
      · obtain ⟨v, hv⟩ := hb.modified_some k hm
        exact ⟨v, by simp [merge, hbd, hv]⟩
    · intro k hk
      simp only [merge, mem_sdiff, mem_union] at hk
      rcases hk with ⟨hd, hm⟩ | hbd
      · simp [merge, ha.deleted_none k hd, h k hd hm]
      · simp [merge, hbd]

variable [Inhabited V]

/-- What a change set makes of what is stored: the deleted keys go, then
the modified keys get their values. -/
def apply (s : Properties V) (stored : String → Option V) : String → Option V :=
  fun k => (s.modifiedProperties k).or (if k ∈ s.deleted then none else stored k)

/-- The change a change set is. -/
def patch (s : Properties V) : Patch String V := fun k =>
  if k ∈ s.modified then some (some ((s.map k).getD default))
  else if k ∈ s.deleted then some none
  else none

theorem apply_eq_patch (s : Properties V) (stored : String → Option V) :
    s.apply stored = s.patch.apply stored := by
  funext k
  rw [apply, modifiedProperties, Patch.apply, patch]
  split
  · rfl
  · split <;> rfl

/-- The condition under which `Merge` composes: a value the other bag has
without having set it does not displace one the receiver set. -/
def Composes (a b : Properties V) : Prop :=
  ∀ k ∈ a.modified, ¬ k ∈ b.modified → ¬ k ∈ b.deleted → ∀ v, b.map k = some v → a.map k = some v

/-- Key by key: the change `Merge` makes is the composed one wherever the
condition holds, and nowhere else. -/
theorem merge_patch_iff {a b : Properties V} (ha : a.Wf) (hb : b.Wf) (k : String) :
    (a.merge b).patch k = (a.patch.andThen b.patch) k ↔
      (k ∈ a.modified → ¬ k ∈ b.modified → ¬ k ∈ b.deleted →
        ∀ v, b.map k = some v → a.map k = some v) := by
  have hmod : k ∈ (a.merge b).modified ↔ (k ∈ a.modified ∨ k ∈ b.modified) ∧ ¬ k ∈ b.deleted := by
    rw [merge, mem_sdiff, mem_union]
  have hdel : k ∈ (a.merge b).deleted ↔ (k ∈ a.deleted ∧ ¬ k ∈ b.modified) ∨ k ∈ b.deleted := by
    rw [merge, mem_union, mem_sdiff]
  rw [patch, Patch.andThen, patch, patch]
  simp only [hmod, hdel]
  by_cases hbd : k ∈ b.deleted
  · have hbm : ¬ k ∈ b.modified := fun hm => hb.disjoint hm hbd
    simp [hbd, hbm]
  · by_cases hbm : k ∈ b.modified
    · obtain ⟨v, hv⟩ := hb.modified_some k hbm
      simp [hbd, hbm, merge, hv]
    · by_cases ham : k ∈ a.modified
      · -- The receiver's change, with the value `Merge` left it.
        obtain ⟨w, hw⟩ := ha.modified_some k ham
        cases hv : b.map k with
        | none => simp [hbd, hbm, merge, hv]
        | some v =>
          simp only [hbd, hbm, ham, merge, hv, hw]
          simp [eq_comm]
      · simp [hbd, hbm, ham]

/-- Applying a merged change set is applying the one and then the other
exactly for the pairs that compose. -/
theorem merge_apply_iff (a b : Properties V) (ha : Reachable a) (hb : Reachable b) :
    (∀ stored, (a.merge b).apply stored = b.apply (a.apply stored)) ↔ Composes a b := by
  have hpatch : (∀ stored, (a.merge b).apply stored = b.apply (a.apply stored)) ↔
      (a.merge b).patch = a.patch.andThen b.patch := by
    rw [← Patch.apply_eq_iff]
    simp only [Patch.apply_andThen, ← apply_eq_patch]
  refine hpatch.trans ⟨fun h k => ?_, fun h => funext fun k => ?_⟩
  · exact (merge_patch_iff ha.wf hb.wf k).mp (congrFun h k)
  · exact (merge_patch_iff ha.wf hb.wf k).mpr (h k)

theorem merge_apply_iff_set :
    Composes ((empty : Properties Nat).set "k" 1) (empty.set "k" 2) ∧
      ∀ stored, (((empty : Properties Nat).set "k" 1).merge (empty.set "k" 2)).apply stored =
        (empty.set "k" 2).apply ((empty.set "k" 1).apply stored) := by
  have hcond : Composes ((empty : Properties Nat).set "k" 1) (empty.set "k" 2) := by
    intro k hk hb
    exact absurd hk hb
  exact ⟨hcond, (merge_apply_iff _ _ (.set "k" 1 (.load _)) (.set "k" 2 (.load _))).mpr hcond⟩

/-- One bag sets a key, the other was loaded with it and did nothing: the
merged change set writes the value loaded. -/
theorem merge_apply_loaded :
    Reachable ((empty : Properties Nat).set "k" 1) ∧
      Reachable (load fun k => if k = "k" then some 0 else none) ∧
      (((empty : Properties Nat).set "k" 1).merge
        (load fun k => if k = "k" then some 0 else none)).apply (fun _ => none) "k" = some 0 ∧
      (load fun k => if k = "k" then some 0 else none).apply
        (((empty : Properties Nat).set "k" 1).apply fun _ => none) "k" =
          some 1 := ⟨.set "k" 1 (.load _), .load _, by decide, by decide⟩

end Properties

/-! ## Histories -/

namespace BagCall

open Properties

variable {V : Type}

/-- A merge does not bring a value back under a key that is deleted. -/
def Keeps (bags : Nat → Properties V) : BagCall V → Prop
  | .merge bag (some other) => ∀ k ∈ (bags bag).deleted,
      ¬ k ∈ (bags other).modified → (bags other).map k = none
  | _ => True

theorem on_wf_iff {bags : Nat → Properties V} (h : ∀ i, (bags i).Wf)
    (call : BagCall V) : (∀ i, (call.on bags i).Wf) ↔ call.Keeps bags := by
  cases call with
  | set bag key value => exact (forall_update_iff h ..).trans (iff_of_true ((h bag).set ..) trivial)
  | setAll bag other =>
    exact (forall_update_iff h ..).trans (iff_of_true ((h bag).setAll _) trivial)
  | delete bag key => exact (forall_update_iff h ..).trans (iff_of_true ((h bag).delete _) trivial)
  | clone bag copy => exact (forall_update_iff h ..).trans (iff_of_true (h bag) trivial)
  | merge bag other =>
    refine (forall_update_iff h ..).trans ?_
    cases other with
    | none => exact iff_of_true (h bag) trivial
    | some other => exact merge_wf_iff (h bag) (h other)

end BagCall

end Dawgs.Ref

import Mathlib

/-!
# Changes to a map

A change to a map says of every key whether it is left alone, removed, or
given a value. Changes act on maps and compose, and two changes that act
alike on every map are the same change. So a law about what change sets do
to stored maps is an equation between changes, to be checked key by key.
-/

namespace Dawgs.Lib

variable {K V : Type*}

/-- A change: leave the key, remove it (`some none`), or set it. -/
def Patch (K V : Type*) := K → Option (Option V)

namespace Patch

/-- The map after the change. -/
def apply (p : Patch K V) (m : K → Option V) : K → Option V := fun k => (p k).getD (m k)

/-- One change and then another. -/
def andThen (p q : Patch K V) : Patch K V := fun k => (q k).or (p k)

theorem apply_andThen (p q : Patch K V) (m : K → Option V) :
    (p.andThen q).apply m = q.apply (p.apply m) := by
  funext k
  rw [apply, apply, andThen]
  cases q k <;> rfl

/-- Changes are told apart by the maps they act on. -/
theorem apply_eq_iff [Nonempty V] {p q : Patch K V} : (∀ m, p.apply m = q.apply m) ↔ p = q := by
  constructor
  · intro h
    funext k
    obtain ⟨v⟩ := ‹Nonempty V›
    -- The two maps that differ from any one outcome at the key.
    have hnone := congrFun (h fun _ => none) k
    have hsome := congrFun (h fun _ => some v) k
    rw [apply, apply] at hnone hsome
    cases hp : p k with
    | none =>
      cases hq : q k with
      | none => rfl
      | some y =>
        rw [hp, hq] at hnone hsome
        exact absurd (hnone.trans hsome.symm) (by simp)
    | some x =>
      cases hq : q k with
      | none =>
        rw [hp, hq] at hnone hsome
        exact absurd (hnone.symm.trans hsome) (by simp)
      | some y =>
        rw [hp, hq] at hnone
        exact congrArg some hnone
  · rintro rfl m
    rfl

end Patch

end Dawgs.Lib

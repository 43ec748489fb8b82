import Mathlib

/-!
# Values with a note

What a rewriting returns, and whether it has changed anything on the way: the
note of a whole is the disjunction of the notes of its parts. The value does
not depend on the notes, so it is computed as if there were none.
-/

namespace Dawgs.Lib

structure Noted (β : Type) where
  value : β
  changed : Bool

namespace Noted

instance : Monad Noted where
  pure x := ⟨x, false⟩
  bind x f := ⟨(f x.value).value, x.changed || (f x.value).changed⟩

variable {α β : Type}

@[simp] theorem value_pure (x : α) : (pure x : Noted α).value = x := rfl

@[simp] theorem changed_pure (x : α) : (pure x : Noted α).changed = false := rfl

@[simp] theorem value_bind (x : Noted α) (f : α → Noted β) :
    (x >>= f).value = (f x.value).value := rfl

@[simp] theorem changed_bind (x : Noted α) (f : α → Noted β) :
    (x >>= f).changed = (x.changed || (f x.value).changed) := rfl

@[simp] theorem value_map (f : α → β) (x : Noted α) : (f <$> x).value = f x.value := rfl

@[simp] theorem changed_map (f : α → β) (x : Noted α) :
    (f <$> x).changed = x.changed := Bool.or_false _

instance : LawfulMonad Noted :=
  LawfulMonad.mk' Noted (fun x => congrArg (Noted.mk x.value) (Bool.or_false _))
    (fun x f => congrArg (Noted.mk (f x).value) (Bool.false_or _))
    (fun x f g => congrArg (Noted.mk (g (f x.value).value).value) (Bool.or_assoc ..))

@[simp] theorem value_mapM (f : α → Noted β) (xs : List α) :
    (xs.mapM f).value = xs.map fun x => (f x).value := by
  induction xs with
  | nil => rfl
  | cons x xs ih => simp [ih]

@[simp] theorem changed_mapM (f : α → Noted β) (xs : List α) :
    (xs.mapM f).changed = xs.any fun x => (f x).changed := by
  induction xs with
  | nil => rfl
  | cons x xs ih => simp [ih]

/-- Nothing was changed without a note. -/
def Honest (f : α → Noted α) : Prop := ∀ x, (f x).changed = false → (f x).value = x

theorem Honest.mapM {f : α → Noted α} (h : Honest f) : Honest (List.mapM f) := by
  intro xs hxs
  rw [changed_mapM, List.any_eq_false] at hxs
  calc (xs.mapM f).value = xs.map fun x => (f x).value := value_mapM f xs
    _ = xs.map id := List.map_congr_left fun x hx =>
        h x (by simpa using hxs x hx)
    _ = xs := List.map_id xs

end Noted

end Dawgs.Lib

import Dawgs.Lib.Lists

/-!
# Passes over a structure, with a state and errors

A pass goes over a structure, keeps a state on the way and rebuilds what it
visits. What a pass does to one place is said for any list of places visited
before: an invariant over the places visited so far, an order in which the
state grows, and a relation of the place before and after, which must stand
when the state grows further. Then it is the same for a list of such places,
visited from the front.
-/

namespace Dawgs.Lib

open List

variable {σ ε τ α β : Type}

/-- If `f` ends without an error, it has visited the places of its argument
and no more. -/
def Visits (Inv : List τ → σ → Prop) (le : σ → σ → Prop)
    (f : α → StateT σ (Except ε) β) (places : α → List τ) (Rel : σ → α → β → Prop) : Prop :=
  ∀ ⦃x s y s' done⦄, Inv done s → f x s = .ok (y, s') →
    Inv (done ++ places x) s' ∧ le s s' ∧ Rel s' x y

variable {Inv : List τ → σ → Prop} {le : σ → σ → Prop} {f : α → StateT σ (Except ε) β}

theorem stateT_bind_eq_ok {m : StateT σ (Except ε) α} {s s' : σ} {y : β}
    (h : (m >>= f) s = .ok (y, s')) : ∃ x s₁, m s = .ok (x, s₁) ∧ f x s₁ = .ok (y, s') := by
  obtain ⟨⟨x, s₁⟩, hm, hf⟩ := bind_eq_ok h
  exact ⟨x, s₁, hm, hf⟩

theorem Visits.mapM {places : α → List τ} {Rel : σ → α → β → Prop} (h : Visits Inv le f places Rel)
    (hrefl : ∀ s, le s s) (htrans : ∀ {s s' s''}, le s s' → le s' s'' → le s s'')
    (hmono : ∀ {s s' x y}, le s s' → Rel s x y → Rel s' x y) :
    Visits Inv le (mapM f) (flatMap places) fun s => List.Forall₂ (Rel s) := by
  intro xs
  induction xs with
  | nil =>
    intro s ys s' done hinv hxs
    cases hxs
    rw [flatMap_nil, append_nil]
    exact ⟨hinv, hrefl s, .nil⟩
  | cons x xs ih =>
    intro s ys s' done hinv hxs
    rw [mapM_cons] at hxs
    obtain ⟨y, s₁, hx, hxs⟩ := stateT_bind_eq_ok hxs
    obtain ⟨ys', s₂, hxs, hys⟩ := stateT_bind_eq_ok hxs
    cases hys
    obtain ⟨hinv₁, hle₁, hrel₁⟩ := h hinv hx
    obtain ⟨hinv', hle', hrel'⟩ := ih hinv₁ hxs
    rw [append_assoc] at hinv'
    exact ⟨hinv', htrans hle₁ hle', .cons (hmono hle' hrel₁) hrel'⟩

end Dawgs.Lib

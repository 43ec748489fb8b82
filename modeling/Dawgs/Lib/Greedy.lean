import Mathlib

/-!
# Greedy scheduling

A greedy schedule takes the items of a list one by one. At each turn a
choice looks at the items that remain and at a state, and names the next
one; the state takes note of it. When the choice names none, the items that
remain follow in the order they have.

The schedule is a permutation. It keeps an order that the choices respect:
if `follows a b` holds of the items in their given order, and each chosen
item may come before all that remain, then it holds along the schedule.
-/

namespace Dawgs.Lib

open List

section
variable {α S : Type} (choose : List α → S → Option Nat) (place : S → α → S)

/-- At most `n` turns; the schedule and the state at its end. -/
def greedy : Nat → S → List α → List α × S
  | 0, s, rest => (rest, s)
  | n + 1, s, rest =>
    match (choose rest s).bind fun k => (rest[k]?).map fun x => (k, x) with
    | none => (rest, s)
    | some (k, x) =>
      let later := greedy n (place s x) (rest.eraseIdx k)
      (x :: later.1, later.2)

variable {choose place} {rest : List α}

/-- A turn that is taken takes an item of the list. -/
theorem turn_eq {s : S} {k : Nat} {x : α}
    (h : ((choose rest s).bind fun k => (rest[k]?).map fun x => (k, x)) = some (k, x)) :
    choose rest s = some k ∧ rest[k]? = some x := by
  obtain ⟨j, hj, hx⟩ := Option.bind_eq_some_iff.mp h
  obtain ⟨y, hy, he⟩ := Option.map_eq_some_iff.mp hx
  cases he
  exact ⟨hj, hy⟩

theorem greedy_perm (n : Nat) (s : S) (rest : List α) :
    (greedy choose place n s rest).1.Perm rest := by
  induction n generalizing s rest with
  | zero => exact List.Perm.refl _
  | succ n ih =>
    rw [greedy]
    split
    · exact List.Perm.refl _
    next k x h =>
      obtain ⟨hk, rfl⟩ := List.getElem?_eq_some_iff.mp (turn_eq h).2
      exact ((ih _ _).cons _).trans (getElem_cons_eraseIdx_perm hk)

/-- What every placing keeps holds at the end. -/
theorem greedy_state {P : S → Prop} {n : Nat} {s : S}
    (hplace : ∀ s, ∀ x ∈ rest, P s → P (place s x)) (hs : P s) :
    P (greedy choose place n s rest).2 := by
  induction n generalizing s rest with
  | zero => exact hs
  | succ n ih =>
    rw [greedy]
    split
    · exact hs
    next k x h =>
      have hx := mem_of_getElem? (turn_eq h).2
      exact ih (fun s y hy => hplace s y (mem_of_mem_eraseIdx hy)) (hplace s x hx hs)

/-- An order that each choice respects holds along the schedule. `Inv`
ties the state to the items that remain. -/
theorem greedy_pairwise {follows : α → α → Prop} {Inv : S → List α → Prop}
    (hchoose : ∀ s rest k x, Inv s rest → choose rest s = some k →
      rest[k]? = some x → (∀ y ∈ rest.eraseIdx k, follows x y) ∧ Inv (place s x) (rest.eraseIdx k))
    {n : Nat} {s : S} (hs : Inv s rest)
    (hrest : rest.Pairwise follows) :
    (greedy choose place n s rest).1.Pairwise follows := by
  induction n generalizing s rest with
  | zero => exact hrest
  | succ n ih =>
    rw [greedy]
    split
    · exact hrest
    next k x h =>
      obtain ⟨hk, hx⟩ := turn_eq h
      obtain ⟨hfirst, hinv⟩ := hchoose s rest k x hs hk hx
      refine pairwise_cons.mpr ⟨fun y hy => ?_, ?_⟩
      · exact hfirst y ((greedy_perm _ _ _).subset hy)
      · exact ih hinv (hrest.sublist (eraseIdx_sublist _ _))

end

end Dawgs.Lib

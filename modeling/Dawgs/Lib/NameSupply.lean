import Mathlib

/-!
# Numbered names that are not yet taken

A supply of names numbers them from zero on. The next name is the first one
from a number on that is not taken, and as no two numbers give one name, the
search ends after at most as many rounds as there are taken names.

How far a supply has come is told by its next number, and how many names it
has given out by the numbers below it whose names were free from the start.
-/

namespace Dawgs.Lib

open List

variable {N : Type} [DecidableEq N] (name : Nat → N)

/-- The first number from `start` on whose name is not taken. -/
def nextFree (taken : List N) (start : Nat) : Option Nat :=
  (range' start (taken.length + 1)).find? fun i => name i ∉ taken

variable {name}

theorem nextFree_eq_some {taken : List N} {start i : Nat} (h : nextFree name taken start = some i) :
    start ≤ i ∧ name i ∉ taken ∧ ∀ j, start ≤ j → j < i → name j ∈ taken := by
  obtain ⟨hfree, hmem, hbefore⟩ := find?_range'_eq_some.mp h
  refine ⟨(mem_range'_1.mp hmem).1, by simpa using hfree, ?_⟩
  intro j hstart hlt
  simpa using hbefore j hstart hlt

theorem exists_nextFree (hname : Function.Injective name) (taken : List N)
    (start : Nat) : ∃ i, nextFree name taken start = some i := by
  refine Option.ne_none_iff_exists'.mp fun hnone => ?_
  have hall : (range' start (taken.length + 1)).map name ⊆ taken := by
    intro n hn
    obtain ⟨i, hi, rfl⟩ := mem_map.mp hn
    simpa using find?_eq_none.mp hnone i hi
  have hnodup := (nodup_range' (s := start) (n := taken.length + 1)).map hname
  have hle := (hnodup.subperm hall).length_le
  rw [length_map, length_range'] at hle
  omega

/-- No name is free between the two numbers but the last. -/
theorem count_succ_nextFree {p : Nat → Prop} [DecidablePred p] {start i : Nat} (hle : start ≤ i)
    (hi : p i) (hbetween : ∀ j, start ≤ j → j < i → ¬ p j) :
    Nat.count p (i + 1) = Nat.count p start + 1 := by
  obtain ⟨d, rfl⟩ := Nat.exists_eq_add_of_le hle
  have hnone : Nat.count (fun k => p (start + k)) d = 0 := by
    refine Nat.count_iff_forall_not.mpr fun k hk => ?_
    exact hbetween _ (by omega) (by omega)
  rw [Nat.count_succ, if_pos hi, Nat.count_add, hnone]

end Dawgs.Lib

import Mathlib

/-!
# Bit sets with select

A bit set that grows as bits are set. It is the ascending list of its set
bits, and its length, which is past every one of them. `select j` is the
position of the set bit with `j` set bits below it, and the length if there
is none; `nextSet i` is the first set bit from `i` on. A bit set above all
others goes to the end of the list.
-/

namespace Dawgs.Lib

open List

structure BitSet where
  /-- The set bits, lowest first. -/
  ascending : List Nat
  length : Nat
  sorted : ascending.Pairwise (· < ·)
  lt_length : ∀ i ∈ ascending, i < length

namespace BitSet

variable {i j : Nat} {b : BitSet}

theorem pairwise_orderedInsert {l : List Nat} (hl : l.Pairwise (· < ·)) (hi : i ∉ l) :
    (l.orderedInsert (· ≤ ·) i).Pairwise (· < ·) := by
  have hle := (hl.imp Nat.le_of_lt).orderedInsert i
  have hnodup : (l.orderedInsert (· ≤ ·) i).Nodup :=
    (perm_orderedInsert (· ≤ ·) i l).nodup_iff.mpr (nodup_cons.mpr ⟨hi, hl.imp Nat.ne_of_lt⟩)
  exact hle.imp₂ (fun _ _ h hne => Nat.lt_of_le_of_ne h hne) hnodup

def new (length : Nat) : BitSet where
  ascending := []
  length := length
  sorted := .nil
  lt_length := by simp

section

variable (b : BitSet) (i : Nat)

def test : Bool :=
  decide (i ∈ b.ascending)

def set : BitSet :=
  if h : i ∈ b.ascending then b
  else
    { ascending := b.ascending.orderedInsert (· ≤ ·) i
      length := max b.length (i + 1)
      sorted := pairwise_orderedInsert b.sorted h
      lt_length := by
        intro j hj
        obtain rfl | hj := mem_orderedInsert (· ≤ ·) |>.mp hj
        · omega
        · have := b.lt_length j hj
          omega }

def clear : BitSet where
  ascending := b.ascending.filter (· ≠ i)
  length := b.length
  sorted := b.sorted.filter _
  lt_length j hj := b.lt_length j (mem_of_mem_filter hj)

def setTo (value : Bool) : BitSet :=
  if value then b.set i else b.clear i

end

def select (b : BitSet) (j : Nat) : Nat := b.ascending.getD j b.length

def nextSet (b : BitSet) (i : Nat) : Option Nat := b.ascending.find? fun j => decide (i ≤ j)

@[simp] theorem ascending_new (length : Nat) : (new length).ascending = [] := rfl

@[simp] theorem mem_set : j ∈ (b.set i).ascending ↔ j = i ∨ j ∈ b.ascending := by
  unfold set
  split
  next h =>
    refine ⟨Or.inr, fun hj => hj.elim (fun heq => ?_) id⟩
    rw [heq]
    exact h
  · exact mem_orderedInsert (· ≤ ·)

@[simp] theorem mem_clear : j ∈ (b.clear i).ascending ↔ j ∈ b.ascending ∧ j ≠ i := by
  simp [clear]

theorem ascending_set (h : ∀ j ∈ b.ascending, j < i) :
    (b.set i).ascending = b.ascending ++ [i] := by
  have hsorted : (b.ascending ++ [i]).Pairwise (· < ·) := by
    refine pairwise_append.mpr ⟨b.sorted, by simp, ?_⟩
    intro j hj k hk
    rw [mem_singleton.mp hk]
    exact h j hj
  refine List.Perm.eq_of_pairwise' (r := (· < ·)) (b.set i).sorted hsorted ?_
  refine (perm_ext_iff_of_nodup ((b.set i).sorted.imp Nat.ne_of_lt)
    (hsorted.imp Nat.ne_of_lt)).mpr fun j => ?_
  simp [or_comm]

@[simp] theorem test_setTo (b : BitSet) (i j : Nat) (value : Bool) :
    (b.setTo i value).test j = if j = i then value else b.test j := by
  unfold setTo test
  cases value <;> by_cases hj : j = i <;> simp [hj]

theorem select_eq (hj : j < b.ascending.length) : b.select j = b.ascending[j] := by
  simp [select, hj]

theorem nextSet_zero (h : 0 < b.ascending.length) : b.nextSet 0 = some b.ascending[0] := by
  rw [nextSet, find?_eq_some_iff_getElem]
  exact ⟨by simp, 0, h, rfl, fun k hk => absurd hk (by omega)⟩

/-- From just past one set bit, the next one is found. -/
theorem nextSet_succ (h : j + 1 < b.ascending.length) :
    b.nextSet (b.ascending[j] + 1) = some b.ascending[j + 1] := by
  have hsorted := pairwise_iff_getElem.mp b.sorted
  rw [nextSet, find?_eq_some_iff_getElem]
  refine ⟨decide_eq_true (hsorted j (j + 1) (by omega) h (by omega)), j + 1, h, rfl, ?_⟩
  intro k hk
  have hle : b.ascending[k] ≤ b.ascending[j] := by
    obtain hlt | rfl := Nat.lt_or_eq_of_le (Nat.le_of_lt_succ hk)
    · exact Nat.le_of_lt (hsorted k j (by omega) (by omega) hlt)
    · exact Nat.le_refl _
  simp
  omega

end BitSet

end Dawgs.Lib

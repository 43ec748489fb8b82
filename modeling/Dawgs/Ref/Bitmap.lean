import Mathlib

/-!
# The 64-bit bitmaps

`cardinality.Duplex[uint64]` is implemented by a roaring bitmap, a set of
node or component identifiers whose iterator runs in ascending order. The
model is the ascending list itself: the order the iterator hands values
out is the order of the list, and two bitmaps with the same members are
the same bitmap. Strict ascent is a field, so a value that is out of order
or stored twice cannot be built.

Identifiers are natural numbers. The code's are `uint64`, and nothing it
does with them in these packages depends on the width.
-/

namespace Dawgs.Ref

/-- Insertion into an ascending list; a value already there is not doubled. -/
def insertAsc (x : Nat) : List Nat → List Nat
  | [] => [x]
  | y :: ys =>
    if x < y then x :: y :: ys
    else if x = y then y :: ys
    else y :: insertAsc x ys

@[simp] theorem mem_insertAsc {x z : Nat} {l : List Nat} : z ∈ insertAsc x l ↔ z = x ∨ z ∈ l := by
  induction l with
  | nil => simp [insertAsc]
  | cons y ys ih =>
    rw [insertAsc]
    split
    · simp
    · split
      next heq => subst heq; simp
      · simp only [List.mem_cons, ih]
        tauto

theorem pairwise_insertAsc {x : Nat} {l : List Nat}
    (hl : l.Pairwise (· < ·)) : (insertAsc x l).Pairwise (· < ·) := by
  induction l with
  | nil => simp [insertAsc]
  | cons y ys ih =>
    rw [List.pairwise_cons] at hl
    rw [insertAsc]
    split
    next hlt =>
      refine List.pairwise_cons.mpr ⟨fun z hz => ?_, List.pairwise_cons.mpr hl⟩
      rcases List.mem_cons.mp hz with rfl | hz
      · exact hlt
      · exact Nat.lt_trans hlt (hl.1 z hz)
    · split
      · exact List.pairwise_cons.mpr hl
      next hnlt hne =>
        refine List.pairwise_cons.mpr ⟨fun z hz => ?_, ih hl.2⟩
        rcases (mem_insertAsc).mp hz with rfl | hz
        · omega
        · exact hl.1 z hz

/-- A bitmap of identifiers, as its iterator lists it. -/
structure Bitmap where
  elems : List Nat
  asc : elems.Pairwise (· < ·)
deriving DecidableEq

namespace Bitmap

instance : Membership Nat Bitmap := ⟨fun b x => x ∈ b.elems⟩

variable {b : Bitmap} {x z : Nat}

theorem mem_def : x ∈ b ↔ x ∈ b.elems := Iff.rfl

instance (x : Nat) (b : Bitmap) : Decidable (x ∈ b) := inferInstanceAs (Decidable (x ∈ b.elems))

theorem sorted_nil : ([] : List Nat).Pairwise (· < ·) := .nil

/-- `NewBitmap64()`. -/
def new : Bitmap := ⟨[], sorted_nil⟩

/-- `Contains`. -/
def contains (b : Bitmap) (x : Nat) : Bool := decide (x ∈ b)

/-- `Add` of one value. -/
def add (b : Bitmap) (x : Nat) : Bitmap := ⟨insertAsc x b.elems, pairwise_insertAsc b.asc⟩

/-- `Add` of several values, and so also `NewBitmap64With`. -/
def addMany (b : Bitmap) (xs : List Nat) : Bitmap := xs.foldl add b

/-- `CheckedAdd`: the bitmap after the addition, and whether it grew. -/
def checkedAdd (b : Bitmap) (x : Nat) : Bitmap × Bool := (b.add x, !b.contains x)

/-- `Remove`. -/
def remove (b : Bitmap) (x : Nat) : Bitmap := ⟨b.elems.filter (· ≠ x), b.asc.filter _⟩

/-- `Or`. -/
def or (a b : Bitmap) : Bitmap := a.addMany b.elems

/-- `Xor`: what is in exactly one of the two. -/
def xor (a b : Bitmap) : Bitmap :=
  addMany ⟨a.elems.filter (!b.contains ·), a.asc.filter _⟩ (b.elems.filter (!a.contains ·))

/-- `Cardinality`. -/
def cardinality (b : Bitmap) : Nat := b.elems.length

@[simp] theorem not_mem_new : ¬ x ∈ new := by
  simp [mem_def, new]

@[simp] theorem contains_eq : b.contains x = true ↔ x ∈ b := by
  simp [contains]

@[simp] theorem mem_add : z ∈ b.add x ↔ z = x ∨ z ∈ b := mem_insertAsc

@[simp] theorem mem_addMany {xs : List Nat} : z ∈ b.addMany xs ↔ z ∈ xs ∨ z ∈ b := by
  induction xs generalizing b with
  | nil => simp [addMany]
  | cons x xs ih =>
    have hstep : b.addMany (x :: xs) = (b.add x).addMany xs := rfl
    rw [hstep, ih, mem_add, List.mem_cons]
    tauto

@[simp] theorem mem_or {a : Bitmap} : z ∈ a.or b ↔ z ∈ a ∨ z ∈ b := by
  rw [or, mem_addMany, ← mem_def]
  exact Or.comm

@[simp] theorem mem_remove : z ∈ b.remove x ↔ z ∈ b ∧ z ≠ x := by
  simp [mem_def, remove]

@[simp] theorem mem_xor {a : Bitmap} : z ∈ a.xor b ↔ (z ∈ a ∧ ¬ z ∈ b) ∨ (z ∈ b ∧ ¬ z ∈ a) := by
  rw [xor, mem_addMany]
  simp only [mem_def, List.mem_filter, Bool.not_eq_true', ← Bool.not_eq_true, contains_eq]
  tauto

theorem nodup (b : Bitmap) : b.elems.Nodup := b.asc.imp fun h => Nat.ne_of_lt h

end Bitmap

end Dawgs.Ref

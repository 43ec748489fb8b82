import Dawgs.Lib.Machine

/-!
# Tables

A table has finitely many rows, each under its key, in no order. `rewrite`
changes or removes rows, each by itself. `insertNew` adds a row and fails if
there is one under the key.
-/

namespace Dawgs.Lib

structure Table (K V : Type) where
  keys : Finset K
  row : K → Option V
  mem_keys (k : K) : k ∈ keys ↔ (row k).isSome

namespace Table

variable {K V : Type} {t u : Table K V} {k : K} {v : V}

theorem ext_row (h : ∀ k, t.row k = u.row k) : t = u := by
  obtain ⟨keys, row, hkeys⟩ := t
  obtain ⟨keys', row', hkeys'⟩ := u
  obtain rfl : row = row' := funext h
  obtain rfl : keys = keys' := Finset.ext fun k => (hkeys k).trans (hkeys' k).symm
  rfl

def empty : Table K V := ⟨∅, fun _ => none, by simp⟩

/-- Each row is changed or removed. -/
def rewrite (f : K → V → Option V) (t : Table K V) : Table K V where
  keys := t.keys.filter fun k => ((t.row k).bind (f k)).isSome
  row k := (t.row k).bind (f k)
  mem_keys k := by
    rw [Finset.mem_filter, t.mem_keys, and_iff_right_iff_imp]
    exact Option.isSome_of_isSome_bind

section

variable [DecidableEq K] (key : K) (value : V) (t : Table K V)

/-- A row is put under a key. -/
def insert : Table K V where
  keys := Insert.insert key t.keys
  row := Function.update t.row key (some value)
  mem_keys k := by
    rw [Finset.mem_insert, Function.update_apply, t.mem_keys]
    split <;> simp [*]

/-- A row is added. -/
def insertNew : Option (Table K V) :=
  if key ∈ t.keys then none else some (t.insert key value)

end

/-- The keys of the rows with a property. -/
def find (hits : K → V → Bool) (t : Table K V) : Finset K :=
  t.keys.filter fun k => (t.row k).any (hits k)

/-- Rows that are found are changed. -/
def changeWhere (hits : K → V → Bool) (change : V → V) (t : Table K V) :
    Table K V := t.rewrite fun k v => some (if hits k v then change v else v)

/-! ## Rows -/

@[simp] theorem row_rewrite (f : K → V → Option V) (t : Table K V) (k : K) :
    (t.rewrite f).row k = (t.row k).bind (f k) := rfl

@[simp] theorem row_insert [DecidableEq K] (key : K) (value : V) (t : Table K V) (k : K) :
    (t.insert key value).row k =
      if k = key then some value else t.row k :=
  Function.update_apply ..

@[simp] theorem row_changeWhere (hits : K → V → Bool) (change : V → V) (t : Table K V) (k : K) :
    (t.changeWhere hits change).row k =
      (t.row k).map fun v => if hits k v then change v else v := by
  cases h : t.row k <;> simp [changeWhere, h]

theorem mem_find {hits : K → V → Bool} :
    k ∈ t.find hits ↔ ∃ v, t.row k = some v ∧ hits k v = true := by
  rw [find, Finset.mem_filter, t.mem_keys]
  cases h : t.row k <;> simp

theorem insertNew_eq_some [DecidableEq K] :
    t.insertNew k v = some u ↔ t.row k = none ∧ t.insert k v = u := by
  have hkey := t.mem_keys k
  unfold insertNew
  cases h : t.row k <;> simp_all

end Table

end Dawgs.Lib

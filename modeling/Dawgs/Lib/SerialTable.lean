import Mathlib

/-!
# Tables with serial numbers

A table of unique names, each with a number from a sequence. A row belongs
to the transaction that wrote it until that commits, and is gone when it
rolls back. A session sees the rows without an owner, which are the
committed ones, and those of its own transaction. A session without a
transaction writes rows without an owner.

The unique index counts all rows. A name that another transaction has
written and not committed cannot be inserted: the insert waits, and here
it fails. Numbers are not given out twice, since a rollback does not
return them to the sequence.
-/

namespace Dawgs.Lib

open List

variable {K T : Type}

structure SerialRow (K T : Type) where
  name : K
  id : Nat
  owner : Option T

structure SerialTable (K T : Type) where
  rows : List (SerialRow K T)
  next : Nat
  names_nodup : (rows.map SerialRow.name).Nodup
  ids_nodup : (rows.map SerialRow.id).Nodup
  ids_lt : ∀ r ∈ rows, r.id < next

namespace SerialTable

variable (t : SerialTable K T) (session : Option T)

/-- A row a session can see. -/
def Visible (name : K) (id : Nat) : Prop :=
  ∃ r ∈ t.rows, (r.owner = none ∨ r.owner = session) ∧ r.name = name ∧ r.id = id

/-- The names that are taken. -/
def names : List K := t.rows.map SerialRow.name

/-- A number of the sequence is lost. -/
def skip : SerialTable K T :=
  { t with
    next := t.next + 1
    ids_lt := fun r hr => Nat.lt_succ_of_lt (t.ids_lt r hr) }

/-- A new row. -/
def insertNew (name : K) (h : name ∉ t.names) : SerialTable K T where
  rows := t.rows ++ [⟨name, t.next, session⟩]
  next := t.next + 1
  names_nodup := by
    rw [map_append, map_singleton, ← concat_eq_append]
    exact .concat h t.names_nodup
  ids_nodup := by
    rw [map_append, map_singleton, ← concat_eq_append]
    refine .concat (fun hmem => ?_) t.ids_nodup
    obtain ⟨r, hr, hid⟩ := mem_map.mp hmem
    exact Nat.ne_of_lt (t.ids_lt r hr) hid
  ids_lt := by
    intro r hr
    rcases mem_append.mp hr with hr | hr
    · exact Nat.lt_succ_of_lt (t.ids_lt r hr)
    · rw [mem_singleton] at hr
      rw [hr]
      exact Nat.lt_succ_self _

/-- A row is inserted, unless the name is taken. -/
def insert [DecidableEq K] (name : K) : SerialTable K T × Option Nat :=
  if h : name ∈ t.names then (t.skip, none)
  else (t.insertNew session name h, some t.next)

section

variable [DecidableEq T]

/-- The rows a session can see. -/
def rowsOf : List (SerialRow K T) := t.rows.filter fun r => r.owner = none ∨ r.owner = session

/-- The number of a name. -/
def select [DecidableEq K] (name : K) : Option Nat :=
  ((t.rowsOf session).find? fun r => r.name = name).map SerialRow.id

/-- The name of a number. -/
def nameOf (id : Nat) : Option K := ((t.rowsOf session).find? fun r => r.id = id).map SerialRow.name

section

variable (tx : T) (r : SerialRow K T)

/-- The row after its owner has committed. -/
def settle : SerialRow K T :=
  if r.owner = some tx then { r with owner := none } else r

@[simp] theorem settle_name : (settle tx r).name = r.name := by
  unfold settle
  split <;> rfl

@[simp] theorem settle_id : (settle tx r).id = r.id := by
  unfold settle
  split <;> rfl

end

def commit (tx : T) : SerialTable K T where
  rows := t.rows.map (settle tx)
  next := t.next
  names_nodup := by
    rw [map_map]
    exact (congrArg Nodup (map_congr_left fun r _ => settle_name tx r)).mpr t.names_nodup
  ids_nodup := by
    rw [map_map]
    exact (congrArg Nodup (map_congr_left fun r _ => settle_id tx r)).mpr t.ids_nodup
  ids_lt := by
    intro r hr
    obtain ⟨q, hq, rfl⟩ := mem_map.mp hr
    rw [settle_id]
    exact t.ids_lt q hq

def rollback (tx : T) : SerialTable K T where
  rows := t.rows.filter fun r => r.owner ≠ some tx
  next := t.next
  names_nodup := t.names_nodup.sublist (filter_sublist.map _)
  ids_nodup := t.ids_nodup.sublist (filter_sublist.map _)
  ids_lt := fun r hr => t.ids_lt r (mem_filter.mp hr).1

end

/-! ## What is visible -/

section

variable {t : SerialTable K T} {session : Option T} {name : K} {id : Nat}

theorem Visible.name_mem (h : t.Visible session name id) : name ∈ t.names := by
  obtain ⟨r, hr, -, rfl, -⟩ := h
  exact mem_map_of_mem hr

/-- A name has one number. -/
theorem Visible.id_eq {session' : Option T} {id' : Nat}
    (h : t.Visible session name id) (h' : t.Visible session' name id') : id = id' := by
  obtain ⟨r, hr, -, hname, rfl⟩ := h
  obtain ⟨q, hq, -, hname', rfl⟩ := h'
  rw [inj_on_of_nodup_map t.names_nodup hr hq (hname.trans hname'.symm)]

/-- A number has one name. -/
theorem Visible.name_eq {session' : Option T} {name' : K}
    (h : t.Visible session name id) (h' : t.Visible session' name' id) : name = name' := by
  obtain ⟨r, hr, -, rfl, hid⟩ := h
  obtain ⟨q, hq, -, rfl, hid'⟩ := h'
  rw [inj_on_of_nodup_map t.ids_nodup hr hq (hid.trans hid'.symm)]

/-- What is committed is visible to all. -/
theorem Visible.mono (h : t.Visible none name id) : t.Visible session name id := by
  obtain ⟨r, hr, howner, heq⟩ := h
  exact ⟨r, hr, .inl (howner.elim (fun h => h) fun h => h), heq⟩

theorem visible_insertNew {by_ : Option T} {new : K} (h : new ∉ t.names) :
    (t.insertNew by_ new h).Visible session name id ↔ t.Visible session name id ∨
        (by_ = none ∨ by_ = session) ∧ new = name ∧ t.next = id := by
  constructor
  · intro ⟨r, hr, heq⟩
    rcases mem_append.mp hr with hr | hr
    · exact .inl ⟨r, hr, heq⟩
    · rw [mem_singleton] at hr
      subst hr
      exact .inr heq
  · intro hvis
    rcases hvis with ⟨r, hr, heq⟩ | heq
    · exact ⟨r, mem_append_left _ hr, heq⟩
    · exact ⟨_, mem_append_right _ (mem_singleton_self _), heq⟩

variable [DecidableEq T]

theorem mem_rowsOf {r : SerialRow K T} : r ∈ t.rowsOf session ↔
    r ∈ t.rows ∧ (r.owner = none ∨ r.owner = session) := by
  rw [rowsOf, mem_filter, decide_eq_true_iff]

/-- Where keys are unique, the row with a key is found. -/
theorem find?_key_eq_some {R A : Type} [DecidableEq A] {rows : List R}
    {key : R → A} (hnodup : (rows.map key).Nodup) {a : A} {r : R} :
    rows.find? (fun r => key r = a) = some r ↔ r ∈ rows ∧ key r = a := by
  constructor
  · intro h
    exact ⟨mem_of_find?_eq_some h, by simpa using List.find?_some h⟩
  · intro ⟨hr, hkey⟩
    cases hfind : rows.find? fun r => key r = a with
    | none =>
      rw [List.find?_eq_none] at hfind
      exact absurd hkey (by simpa using hfind r hr)
    | some q =>
      have hq : key q = a := by simpa using List.find?_some hfind
      rw [inj_on_of_nodup_map hnodup (mem_of_find?_eq_some hfind) hr (hq.trans hkey.symm)]

theorem select_eq_some [DecidableEq K] :
    t.select session name = some id ↔ t.Visible session name id := by
  have hnodup : ((t.rowsOf session).map SerialRow.name).Nodup :=
    t.names_nodup.sublist (filter_sublist.map _)
  rw [select, Option.map_eq_some_iff]
  refine exists_congr fun r => ?_
  rw [find?_key_eq_some hnodup, mem_rowsOf, and_assoc, and_assoc]

theorem nameOf_eq_some : t.nameOf session id = some name ↔ t.Visible session name id := by
  have hnodup : ((t.rowsOf session).map SerialRow.id).Nodup :=
    t.ids_nodup.sublist (filter_sublist.map _)
  rw [nameOf, Option.map_eq_some_iff]
  refine exists_congr fun r => ?_
  rw [find?_key_eq_some hnodup, mem_rowsOf, and_assoc, and_assoc, and_comm (b := r.name = name)]

theorem visible_commit_none {tx : T} : (t.commit tx).Visible none name id ↔
    t.Visible (some tx) name id := by
  constructor
  · intro ⟨r, hr, howner, hname, hid⟩
    obtain ⟨q, hq, rfl⟩ := mem_map.mp hr
    refine ⟨q, hq, ?_, (settle_name tx q).symm.trans hname, (settle_id tx q).symm.trans hid⟩
    unfold settle at howner
    split at howner
    next h => exact .inr h
    · exact .inl (howner.elim (fun h => h) fun h => h)
  · intro ⟨r, hr, howner, hname, hid⟩
    refine ⟨settle tx r, mem_map_of_mem hr, .inl ?_,
      (settle_name tx r).trans hname, (settle_id tx r).trans hid⟩
    unfold settle
    split
    · rfl
    next h => exact howner.resolve_right h

theorem visible_rollback_none {tx : T} :
    (t.rollback tx).Visible none name id ↔ t.Visible none name id := by
  constructor
  · intro ⟨r, hr, heq⟩
    exact ⟨r, (mem_filter.mp hr).1, heq⟩
  · intro ⟨r, hr, howner, heq⟩
    have hnone : r.owner = none := howner.elim (fun h => h) fun h => h
    refine ⟨r, mem_filter.mpr ⟨hr, ?_⟩, howner, heq⟩
    simp [hnone]

end

end SerialTable

end Dawgs.Lib

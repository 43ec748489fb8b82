import Dawgs.Lib.Table
import Dawgs.Lib.Upsert

/-!
# Changes that are apart

A change finds rows of a table and changes each of them. One that finds no
row may bring a new one, which it changes too. What a list of changes comes
to, when each has the rows to itself, is `eachOwn`: a row is changed by the
change that finds it, and the new rows are those of the changes that find
none.

Two changes are apart if neither finds a row of the other, as it was or as
it is after the change. Then what a change finds does not depend on which
of the others are made already. So the changes may be made a few at a time
and the parts in any order: `eachOwn_append` and `eachOwn_perm`.
-/

namespace Dawgs.Lib

open List Option

structure RowChange (K V : Type) where
  hits : K → V → Bool
  change : V → V
  new : Option (K × V)
  hits_new : ∀ r ∈ new, hits r.1 r.2 = true

namespace RowChange

variable {K V : Type}

/-- The row as the change leaves it, if the change finds it. -/
def onRow (c : RowChange K V) (k : K) (v : V) : Option V :=
  if c.hits k v then some (c.change v) else none

/-- The row that the change makes under a key. -/
def onNew [DecidableEq K] (c : RowChange K V) (t : Table K V) (k : K) : Option V :=
  if (t.find c.hits).Nonempty then none
  else c.new.bind fun r => if r.1 = k then some (c.change r.2) else none

/-- The row under a key, each change having the rows that it finds to
itself. -/
def eachOwn [DecidableEq K] (cs : List (RowChange K V)) (t : Table K V) (k : K) : Option V :=
  match t.row k with
  | some v => some ((cs.findSome? fun c => c.onRow k v).getD v)
  | none => cs.findSome? fun c => c.onNew t k

structure Apart (c d : RowChange K V) : Prop where
  rows : ∀ k v, c.hits k v = true → d.hits k v = false
  left : ∀ k v, c.hits k v = true → d.hits k (c.change v) = false
  right : ∀ k v, d.hits k v = true → c.hits k (d.change v) = false
  new : ∀ r ∈ c.new, ∀ r' ∈ d.new, r.1 ≠ r'.1

variable {d : RowChange K V} {α β : Type} {f : α → Option β} {l : List α}

theorem Apart.symm {c : RowChange K V} (h : Apart c d) : Apart d c where
  rows k v hd := by
    by_contra hc
    rw [Bool.not_eq_false] at hc
    rw [h.rows k v hc] at hd
    cases hd
  left := h.right
  right := h.left
  new r hr r' hr' := (h.new r' hr' r hr).symm

/-- The keys of the new rows are not taken. -/
def Fresh (cs : List (RowChange K V)) (t : Table K V) : Prop :=
  ∀ c ∈ cs, ∀ r ∈ c.new, t.row r.1 = none

variable {c : RowChange K V} {cs ds : List (RowChange K V)} {t u : Table K V} {k : K} {v : V}

theorem onRow_eq_some {w : V} : c.onRow k v = some w ↔ c.hits k v = true ∧ c.change v = w := by
  unfold onRow
  split <;> simp [*]

theorem onRow_eq_none : c.onRow k v = none ↔ c.hits k v = false := by
  unfold onRow
  split <;> simp [*]

theorem findSome?_onRow (cs : List (RowChange K V)) (k : K) (v : V) :
    (cs.findSome? fun c => c.onRow k v) =
      (cs.find? fun c => c.hits k v).map fun c => c.change v := by
  induction cs with
  | nil => rfl
  | cons c cs ih =>
    rw [findSome?_cons, onRow]
    split <;> simp_all

section

variable [DecidableEq K]

theorem onNew_eq_some {w : V} :
    c.onNew t k = some w ↔ ¬ (t.find c.hits).Nonempty ∧
      ∃ v, c.new = some (k, v) ∧ c.change v = w := by
  unfold onNew
  split
  next h => simp [h]
  next h =>
    rw [and_iff_right h, bind_eq_some_iff]
    constructor
    · rintro ⟨⟨k', v⟩, hnew, hv⟩
      split at hv
      next hk =>
        obtain rfl : k' = k := hk
        exact ⟨v, hnew, by simpa using hv⟩
      next => cases hv
    · rintro ⟨v, hnew, hv⟩
      exact ⟨(k, v), hnew, by simp [hv]⟩

theorem eachOwn_of_row (hv : t.row k = some v) :
    eachOwn cs t k = some ((cs.find? fun c => c.hits k v).elim v fun c => c.change v) := by
  rw [eachOwn, hv]
  simp only [findSome?_onRow]
  cases cs.find? fun c => c.hits k v <;> rfl

theorem eachOwn_of_none (hk : t.row k = none) (hnew : ∀ c ∈ cs, c.new = none) :
    eachOwn cs t k = none := by
  rw [eachOwn, hk]
  simp only [findSome?_eq_none_iff]
  intro c hc
  simp [onNew, hnew c hc]

end

/-! ## Any order -/

/-- At most one of the answers is there, so the order is no matter. -/
theorem findSome?_perm {l' : List α} (hperm : l.Perm l')
    (h : l.Pairwise fun a b => f a = none ∨ f b = none) : l.findSome? f = l'.findSome? f := by
  induction hperm with
  | nil => rfl
  | cons a _ ih => rw [findSome?_cons, findSome?_cons, ih h.of_cons]
  | swap a b l =>
    obtain hb | ha := (pairwise_cons.mp h).1 a mem_cons_self
    · simp [findSome?_cons, hb]
    · simp [findSome?_cons, ha]
  | trans hperm₁ _ ih₁ ih₂ =>
    refine (ih₁ h).trans (ih₂ ?_)
    exact (hperm₁.pairwise_iff fun h => h.symm).mp h

/-- The answer that is there is found. -/
theorem findSome?_of_mem {a : α} {b : β} (h : l.Pairwise fun a b => f a = none ∨ f b = none)
    (ha : a ∈ l) (hf : f a = some b) : l.findSome? f = some b := by
  induction l with
  | nil => cases ha
  | cons c l ih =>
    obtain ⟨hc, htail⟩ := pairwise_cons.mp h
    rw [findSome?_cons]
    obtain rfl | ha := mem_cons.mp ha
    · rw [hf]
    · obtain hnone | hnone := hc a ha
      · rw [hnone]
        exact ih htail ha
      · rw [hf] at hnone
        cases hnone

theorem Apart.onRow (h : Apart c d) : c.onRow k v = none ∨ d.onRow k v = none := by
  rw [onRow_eq_none, onRow_eq_none]
  cases hc : c.hits k v with
  | false => exact .inl rfl
  | true => exact .inr (h.rows k v hc)

variable [DecidableEq K]

theorem Apart.onNew (h : Apart c d) : c.onNew t k = none ∨ d.onNew t k = none := by
  cases hc : c.onNew t k with
  | none => exact .inl rfl
  | some w =>
    refine .inr (eq_none_iff_forall_ne_some.mpr fun w' hd => ?_)
    obtain ⟨-, v, hv, -⟩ := (onNew_eq_some).mp hc
    obtain ⟨-, v', hv', -⟩ := (onNew_eq_some).mp hd
    exact h.new _ hv _ hv' rfl

theorem eachOwn_perm (hperm : cs.Perm ds) (h : cs.Pairwise Apart) :
    eachOwn cs t k = eachOwn ds t k := by
  unfold eachOwn
  cases t.row k with
  | some v =>
    simp only
    rw [findSome?_perm hperm (h.imp fun h => h.onRow)]
  | none => exact findSome?_perm hperm (h.imp fun h => h.onNew)

theorem eachOwn_of_hits (h : cs.Pairwise Apart) (hc : c ∈ cs)
    (hv : t.row k = some v) (hhit : c.hits k v = true) : eachOwn cs t k = some (c.change v) := by
  have hfind : (cs.findSome? fun c => c.onRow k v) = some (c.change v) :=
    findSome?_of_mem (h.imp fun h => h.onRow) hc (onRow_eq_some.mpr ⟨hhit, rfl⟩)
  rw [eachOwn, hv]
  simp only [hfind, getD_some]

/-! ## A few at a time -/

theorem findSome?_congr {g : α → Option β}
    (h : ∀ a ∈ l, f a = g a) : l.findSome? f = l.findSome? g := by
  induction l with
  | nil => rfl
  | cons a l ih =>
    obtain ⟨ha, hl⟩ := forall_mem_cons.mp h
    rw [findSome?_cons, findSome?_cons, ha, ih hl]

section

variable (hu : ∀ k, u.row k = eachOwn cs t k)
include hu

/-- A change that is apart from the changes made finds what it found. -/
theorem hits_eachOwn (h : ∀ d ∈ cs, Apart d c) (hv : u.row k = some v)
    (hhit : c.hits k v = true) : t.row k = some v := by
  rw [hu, eachOwn] at hv
  cases hk : t.row k with
  | some w =>
    rw [hk] at hv
    simp only [Option.some.injEq] at hv
    cases hfind : cs.findSome? fun c => c.onRow k w with
    | none => rw [← hv, hfind, getD_none]
    | some w' =>
      rw [hfind, getD_some] at hv
      obtain ⟨d, hd, hrow⟩ := exists_of_findSome?_eq_some hfind
      obtain ⟨hdk, rfl⟩ := (onRow_eq_some).mp hrow
      rw [← hv, (h d hd).left k w hdk] at hhit
      cases hhit
  | none =>
    rw [hk] at hv
    obtain ⟨d, hd, hrow⟩ := exists_of_findSome?_eq_some hv
    obtain ⟨-, w, hnew, rfl⟩ := (onNew_eq_some).mp hrow
    rw [(h d hd).left k w (d.hits_new _ hnew)] at hhit
    cases hhit

theorem row_of_hits (h : ∀ d ∈ cs, Apart d c) (hv : t.row k = some v)
    (hhit : c.hits k v = true) : u.row k = some v := by
  have hnone : cs.findSome? (fun c => c.onRow k v) = none := by
    rw [findSome?_eq_none_iff]
    intro d hd
    exact (onRow_eq_none).mpr ((h d hd).symm.rows k v hhit)
  rw [hu, eachOwn, hv]
  simp only [hnone, getD_none]

theorem find_eachOwn (h : ∀ d ∈ cs, Apart d c) : u.find c.hits = t.find c.hits := by
  ext k
  rw [Table.mem_find, Table.mem_find]
  constructor
  · rintro ⟨v, hv, hhit⟩
    exact ⟨v, hits_eachOwn hu h hv hhit, hhit⟩
  · rintro ⟨v, hv, hhit⟩
    exact ⟨v, row_of_hits hu h hv hhit, hhit⟩

/-- Changes made after others. -/
theorem eachOwn_append
    (h : (cs ++ ds).Pairwise Apart) : eachOwn ds u k = eachOwn (cs ++ ds) t k := by
  have happart := (pairwise_append.mp h).2.2
  have hnew : ∀ d ∈ ds, d.onNew u k = d.onNew t k := by
    intro d hd
    rw [onNew, onNew, find_eachOwn hu fun c hc => happart c hc d hd]
  have hnone : ∀ c ∈ cs, ∀ v, c.hits k v = true →
      ds.findSome? (fun d => d.onRow k (c.change v)) = none := by
    intro c hc v hck
    rw [findSome?_eq_none_iff]
    exact fun d hd => (onRow_eq_none).mpr ((happart c hc d hd).left k v hck)
  have huk := hu k
  rw [eachOwn] at huk
  unfold eachOwn
  cases hk : t.row k with
  | some v =>
    simp only [hk] at huk
    rw [huk]
    simp only [findSome?_append]
    cases hfind : cs.findSome? fun c => c.onRow k v with
    | none => simp
    | some w =>
      obtain ⟨c, hc, hrow⟩ := exists_of_findSome?_eq_some hfind
      obtain ⟨hck, rfl⟩ := (onRow_eq_some).mp hrow
      simp [hnone c hc v hck]
  | none =>
    simp only [hk] at huk
    simp only [findSome?_append]
    cases hfind : cs.findSome? fun c => c.onNew t k with
    | none =>
      rw [huk, hfind]
      exact findSome?_congr hnew
    | some w =>
      obtain ⟨c, hc, hrow⟩ := exists_of_findSome?_eq_some hfind
      obtain ⟨-, v, hcv, rfl⟩ := (onNew_eq_some).mp hrow
      rw [huk, hfind]
      simp [hnone c hc v (c.hits_new _ hcv)]

end

/-- The keys of changes still to be made are free. -/
theorem Fresh.eachOwn (hfresh : Fresh (cs ++ ds) t) (hu : ∀ k, u.row k = RowChange.eachOwn cs t k)
    (h : (cs ++ ds).Pairwise Apart) : Fresh ds u := by
  intro d hd r hr
  rw [hu, RowChange.eachOwn, hfresh d (mem_append_right _ hd) r hr]
  simp only [List.findSome?_eq_none_iff]
  intro c hc
  refine eq_none_iff_forall_ne_some.mpr fun w hnew => ?_
  obtain ⟨-, v, hv, -⟩ := (onNew_eq_some).mp hnew
  exact (pairwise_append.mp h).2.2 c hc d hd |>.new _ hv _ hr rfl

/-! ## Finding first, changing later -/

/-- The change that leaves the rows it finds as they are. -/
def still (c : RowChange K V) : RowChange K V := { c with change := id }

omit [DecidableEq K] in
theorem Apart.still (h : Apart c d) : Apart c.still d.still where
  rows := h.rows
  left := h.rows
  right := h.symm.rows
  new := h.new

omit [DecidableEq K] in
theorem fresh_still : Fresh (cs.map still) t ↔ Fresh cs t := by
  unfold Fresh
  rw [List.forall_mem_map]
  rfl

theorem eachOwn_still_of_row (hv : t.row k = some v) : eachOwn (cs.map still) t k = some v := by
  rw [eachOwn_of_row hv, List.find?_map]
  cases cs.find? ((fun c => c.hits k v) ∘ still) <;> rfl

/-- New rows are made first, then all rows are changed. -/
theorem eachOwn_eq_still (h : cs.Pairwise Apart) :
    eachOwn cs t k = (eachOwn (cs.map still) t k).map fun v =>
      (cs.findSome? fun c => c.onRow k v).getD v := by
  cases hk : t.row k with
  | some v => rw [eachOwn_still_of_row hk, map_some, eachOwn, hk]
  | none =>
    rw [eachOwn, eachOwn, hk]
    cases hfind : (cs.map still).findSome? fun c => c.onNew t k with
    | none =>
      rw [map_none, findSome?_eq_none_iff]
      rw [findSome?_eq_none_iff] at hfind
      intro c hc
      refine eq_none_iff_forall_ne_some.mpr fun w hnew => ?_
      obtain ⟨hmiss, v, hv, -⟩ := (onNew_eq_some).mp hnew
      have hmade : c.still.onNew t k = some v := (onNew_eq_some).mpr ⟨hmiss, v, hv, rfl⟩
      rw [hfind _ (mem_map_of_mem hc)] at hmade
      cases hmade
    | some v =>
      obtain ⟨c, hc, hrow⟩ := exists_of_findSome?_eq_some hfind
      obtain ⟨c, hmem, rfl⟩ := mem_map.mp hc
      obtain ⟨hmiss, w, hv, rfl : w = v⟩ := (onNew_eq_some).mp hrow
      have hchange : (cs.findSome? fun c => c.onRow k w) = some (c.change w) :=
        findSome?_of_mem (h.imp fun h => h.onRow) hmem (onRow_eq_some.mpr ⟨c.hits_new _ hv, rfl⟩)
      rw [map_some, hchange]
      exact findSome?_of_mem (h.imp fun h => h.onNew) hmem (onNew_eq_some.mpr ⟨hmiss, _, hv, rfl⟩)

/-! ## Statements that carry out changes -/

/-- The statements carry out the changes, in any order. -/
def CarriesOut {G : Type} (step : Table K V → G → Option (Table K V))
    (statements : List G) (cs : List (RowChange K V)) : Prop :=
  ∀ t, Fresh cs t → ∀ order : List G, order.Perm statements →
    ∃ u, run step t order = some u ∧ ∀ k, u.row k = eachOwn cs t k

/-- Statements that each carry out changes of their own. -/
theorem run_eachOwn {G : Type} {step : Table K V → G → Option (Table K V)}
    {changes : G → List (RowChange K V)} {gs : List G}
    (hstep : ∀ g ∈ gs, ∀ t, Fresh (changes g) t →
      ∃ u, step t g = some u ∧ ∀ k, u.row k = eachOwn (changes g) t k)
    (h : (gs.flatMap changes).Pairwise Apart)
    (hfresh : Fresh (gs.flatMap changes) t) :
    ∃ u, run step t gs = some u ∧ ∀ k, u.row k = eachOwn (gs.flatMap changes) t k := by
  induction gs generalizing t with
  | nil =>
    refine ⟨t, rfl, fun k => ?_⟩
    unfold eachOwn
    cases hk : t.row k <;> simp
  | cons g gs ih =>
    obtain ⟨hg, hgs⟩ := forall_mem_cons.mp hstep
    rw [flatMap_cons] at h hfresh
    obtain ⟨u, hu, hrow⟩ := hg t fun c hc =>
      hfresh c (mem_append_left _ hc)
    obtain ⟨u', hu', hrow'⟩ := ih hgs (pairwise_append.mp h).2.1 (hfresh.eachOwn hrow h)
    refine ⟨u', by rw [run_cons, hu]; exact hu', fun k => ?_⟩
    rw [hrow', flatMap_cons, eachOwn_append hrow h]

/-- A statement for each group of updates with the same key. -/
theorem carriesOut_groups {U G κ : Type} [DecidableEq κ]
    {step : Table K V → G → Option (Table K V)} {key : U → κ}
    {statement : List U → G} {change : U → RowChange K V} {updates : List U}
    (hstep : ∀ group, (∃ k ∈ updates.map key, group = itemsOf (updates.map fun u => (key u, u)) k) →
      ∀ t, Fresh (group.map change) t → ∃ u, step t (statement group) = some u ∧
          ∀ k, u.row k = eachOwn (group.map change) t k)
    (h : (updates.map change).Pairwise Apart) :
    CarriesOut step ((firsts (updates.map key)).map fun k =>
        statement (itemsOf (updates.map fun u => (key u, u)) k))
      (updates.map change) := by
  intro t hfresh order hperm
  let groupOf := itemsOf (updates.map fun u => (key u, u))
  obtain ⟨keys, rfl, hkeys⟩ : ∃ keys : List κ,
      order = keys.map (fun k => statement (groupOf k)) ∧ keys.Perm (firsts (updates.map key)) := by
    have hcomp := eq_map_comp_perm fun k => statement (groupOf k)
    exact (congrFun₂ hcomp order (firsts (updates.map key))).mpr hperm
  have hall : (keys.flatMap fun k => (groupOf k).map change).Perm (updates.map change) := by
    have hitems : (keys.flatMap groupOf).Perm ((updates.map fun u => (key u, u)).map Prod.snd) := by
      refine flatMap_itemsOf_perm (hkeys.nodup_iff.mpr (firsts_nodup _)) fun item hitem => ?_
      obtain ⟨u, hu, rfl⟩ := mem_map.mp hitem
      exact hkeys.mem_iff.mpr (mem_firsts.mpr (mem_map_of_mem hu))
    rw [← map_flatMap]
    refine (hitems.map change).trans (.of_eq ?_)
    rw [List.map_map, List.map_map]
    rfl
  have happart := (hall.pairwise_iff fun h => h.symm).mpr h
  rw [run_map]
  obtain ⟨u, hu, hrow⟩ : ∃ u,
      run (fun t k => step t (statement (groupOf k))) t keys = some u ∧ ∀ k, u.row k =
          eachOwn (keys.flatMap fun k => (groupOf k).map change) t k := by
    refine run_eachOwn (fun k hk t ht => ?_) happart fun c hc =>
      hfresh c (hall.mem_iff.mp hc)
    exact hstep (groupOf k) ⟨k, (mem_firsts).mp (hkeys.mem_iff.mp hk), rfl⟩ t ht
  exact ⟨u, hu, fun k => (hrow k).trans (eachOwn_perm hall happart)⟩

end RowChange

end Dawgs.Lib

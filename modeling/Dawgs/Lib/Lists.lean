import Mathlib

/-!
# Facts about lists

Facts the models' loops come down to, over arbitrary element types.
-/

namespace Dawgs.Lib

open List Option

variable {α : Type*} {rows : List (List α)}

/-- A function that goes through a list as `map` does. -/
theorem eq_map {β : Type*} {f : List α → List β} {g : α → β} (hnil : f [] = [])
    (hcons : ∀ a l, f (a :: l) = g a :: f l) (l : List α) : f l = l.map g := by
  induction l with
  | nil => exact hnil
  | cons a l ih => rw [hcons, ih, map_cons]

/-! ## Rows behind an offset table

Rows laid out one after another in one array, with a table of running
totals of their lengths. Row `i` lies between entry `i` and entry `i + 1`
of the table. -/

/-- The running totals of the rows' lengths, from zero. -/
def offsetTable (rows : List (List α)) : List Nat := (rows.map List.length).scanl (· + ·) 0

theorem foldl_add_length (rows : List (List α)) (n : Nat) :
    (rows.map List.length).foldl (· + ·) n = n + rows.flatten.length := by
  induction rows generalizing n with
  | nil => rfl
  | cons row rows ih =>
    rw [map_cons, foldl_cons, ih, flatten_cons, length_append]
    omega

theorem offsetTable_getElem? {i : Nat} (h : i ≤ rows.length) :
    (offsetTable rows)[i]? = some (rows.take i).flatten.length := by
  rw [offsetTable, List.getElem?_eq_getElem (by simp; omega),
    getElem_scanl, ← map_take, foldl_add_length]
  simp

/-- Cutting the array at the table's entries gives the row back. -/
theorem drop_take_offsetTable {i : Nat} (h : i < rows.length) :
    (rows.flatten.drop ((offsetTable rows)[i]?.getD 0)).take
      ((offsetTable rows)[i + 1]?.getD 0 - (offsetTable rows)[i]?.getD 0) = rows[i] := by
  rw [offsetTable_getElem? (by omega), offsetTable_getElem? (by omega)]
  simp only [getD_some]
  have hsplit : rows.flatten =
      (rows.take i).flatten ++ (rows[i] ++ (rows.drop (i + 1)).flatten) := by
    rw [← flatten_cons, ← flatten_append, getElem_cons_drop, take_append_drop]
  have hnext : (rows.take (i + 1)).flatten.length =
      (rows.take i).flatten.length + rows[i].length := by
    rw [take_succ_eq_append_getElem h, flatten_append]
    simp
  rw [hnext, hsplit, drop_left, Nat.add_sub_cancel_left, take_left]

/-! ## Iteration with a delegate

An iteration hands each element to a delegate that changes a state and
answers whether to go on. -/

def eachWhile {σ : Type*} (f : σ → α → σ × Bool) : List α → σ → σ
  | [], s => s
  | a :: l, s => if (f s a).2 then eachWhile f l (f s a).1 else (f s a).1

variable {σ β : Type*} {f : α → Option β}

/-- A delegate that always goes on folds over the whole list. -/
theorem eachWhile_eq_foldl {f : σ → α → σ × Bool} (hf : ∀ s a, (f s a).2 = true) (l : List α)
    (s : σ) : eachWhile f l s = l.foldl (fun s a => (f s a).1) s := by
  induction l generalizing s with
  | nil => rfl
  | cons a l ih => rw [eachWhile, if_pos (hf s a), ih, foldl_cons]

variable {l : List α}

/-- What every call of the delegate keeps, the iteration keeps. -/
theorem eachWhile_keeps {f : σ → α → σ × Bool} {P : σ → Prop}
    (hf : ∀ s, ∀ a ∈ l, P s → P (f s a).1) {s : σ} (hs : P s) : P (eachWhile f l s) := by
  induction l generalizing s with
  | nil => exact hs
  | cons a l ih =>
    have hstep := hf s a mem_cons_self hs
    rw [eachWhile]
    split
    · exact ih (fun s b hb => hf s b (mem_cons_of_mem _ hb)) hstep
    · exact hstep

/-- A fold that collects what it makes of the elements. -/
theorem foldl_collect {add : σ → α → σ} (make : List β → σ)
    (f : α → β) (hadd : ∀ bs a, add (make bs) a = make (bs ++ [f a]))
    (bs : List β) (l : List α) : l.foldl add (make bs) = make (bs ++ l.map f) := by
  induction l generalizing bs with
  | nil => simp
  | cons a l ih => simp [hadd, ih]

/-- What a run of calls has put in, where each call puts in its own and
keeps the rest. -/
theorem mem_foldl_iff {f : σ → α → σ} (Mem : σ → β → Prop)
    (news : α → List β) (hf : ∀ s a b, Mem (f s a) b ↔ b ∈ news a ∨ Mem s b)
    (l : List α) (s : σ) (b : β) : Mem (l.foldl f s) b ↔ b ∈ l.flatMap news ∨ Mem s b := by
  induction l generalizing s with
  | nil => simp
  | cons a l ih =>
    rw [foldl_cons, ih, hf, flatMap_cons, mem_append]
    tauto

/-- The images of a list, place by place. -/
theorem mapM_eq_some_iff {l' : List β} :
    l.mapM f = some l' ↔ List.Forall₂ (fun a b => f a = some b) l l' := by
  induction l generalizing l' with
  | nil =>
    rw [forall₂_nil_left_iff]
    exact some_inj.trans eq_comm
  | cons a l ih =>
    rw [mapM_cons, forall₂_cons_left_iff]
    constructor
    · intro h
      obtain ⟨b, hb, h⟩ := bind_eq_some_iff.mp h
      obtain ⟨bs, hbs, h⟩ := bind_eq_some_iff.mp h
      exact ⟨b, bs, hb, ih.mp hbs, (Option.some.inj h).symm⟩
    · rintro ⟨b, bs, hb, hbs, rfl⟩
      rw [hb, ih.mpr hbs]
      rfl

/-- Where every element has an image, the list of images. -/
theorem map_some_of_mapM {l' : List β} (h : l.mapM f = some l') : l'.map some = l.map f := by
  rw [eq_comm, ← forall₂_eq_eq_eq, forall₂_map_left_iff, forall₂_map_right_iff]
  exact mapM_eq_some_iff.mp h

theorem isSome_mapM (h : ∀ a ∈ l, (f a).isSome) : (l.mapM f).isSome := by
  induction l with
  | nil => rfl
  | cons a l ih =>
    obtain ⟨b, hb⟩ := isSome_iff_exists.mp (h a (mem_cons_self ..))
    obtain ⟨bs, hbs⟩ := isSome_iff_exists.mp (ih fun x hx => h x (mem_cons_of_mem _ hx))
    rw [mapM_cons, hb, hbs]
    rfl

theorem mapM_eq_some_map {g : α → β}
    (h : ∀ a ∈ l, f a = some (g a)) : l.mapM f = some (l.map g) := by
  induction l with
  | nil => rfl
  | cons a l ih =>
    obtain ⟨ha, hl⟩ := forall_mem_cons.mp h
    rw [mapM_cons, ha, ih hl]
    rfl

section

variable {ε β γ : Type} {x : Except ε β} {f : β → Except ε γ} {c : γ}

/-- A computation that fails where one of its steps does. -/
theorem bind_eq_ok_iff : (x >>= f) = .ok c ↔ ∃ b, x = .ok b ∧ f b = .ok c := by
  cases x <;> simp [bind, Except.bind]

theorem bind_eq_ok (h : (x >>= f) = .ok c) : ∃ b, x = .ok b ∧ f b = .ok c := (bind_eq_ok_iff).mp h

end

/-! ## Updates at an element's place -/

/-- A map over distinct elements changes at one of them by setting its
place. -/
theorem map_eq_set_idxOf [BEq α] [LawfulBEq α] (hl : l.Nodup) {a : α} (ha : a ∈ l) {f g : α → β}
    (h : ∀ x ∈ l, x ≠ a → g x = f x) : l.map g = (l.map f).set (l.idxOf a) (g a) := by
  induction l with
  | nil => cases ha
  | cons b l ih =>
    obtain ⟨hb, hl⟩ := nodup_cons.mp hl
    by_cases hab : b = a
    · subst hab
      rw [idxOf_cons_self]
      refine congrArg _ (map_congr_left fun x hx => ?_)
      refine h x (mem_cons_of_mem _ hx) ?_
      rintro rfl
      exact hb hx
    · rw [idxOf_cons_ne _ hab, map_cons, h b (mem_cons_self ..) hab]
      refine congrArg _ (ih hl ?_ fun x hx => h x (mem_cons_of_mem _ hx))
      exact (mem_cons.mp ha).resolve_left (Ne.symm hab)

/-! ## Sums -/

/-- A sum falls by what one of its terms falls by when the others do not
rise. -/
theorem sum_map_add_le {f' f : α → Nat} {a : α} {k : Nat} (hle : ∀ x ∈ l, f' x ≤ f x) (ha : a ∈ l)
    (hk : f' a + k ≤ f a) : (l.map f').sum + k ≤ (l.map f).sum := by
  induction l with
  | nil => cases ha
  | cons b l ih =>
    have hrest : (l.map f').sum ≤ (l.map f).sum :=
      sum_le_sum fun x hx => hle x (mem_cons_of_mem _ hx)
    have hb := hle b (mem_cons_self ..)
    rw [map_cons, map_cons, sum_cons, sum_cons]
    rcases mem_cons.mp ha with rfl | ha
    · omega
    · have := ih (fun x hx => hle x (mem_cons_of_mem _ hx)) ha
      omega

end Dawgs.Lib

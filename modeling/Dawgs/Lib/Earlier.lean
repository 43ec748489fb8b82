import Mathlib

/-!
# What is declared before an item

The items of a list declare values, and an item may rely on values that an
earlier item declares. `[d, x] <+ xs` says that `d` stands before `x`.

A list is often rewritten block by block: it is cut into pieces, and each
piece is replaced by a permutation of itself. What stands before an item is
then what stands in the earlier pieces, which lose nothing, and what stands
before the item in its own piece. So whether every item keeps what it
relies on can be asked of each piece alone; that is `keeps_iff`.
-/

namespace Dawgs.Lib

open List
open Prod (fst snd)

section
variable {α V : Type}

variable {d x : α} {xs ys : List α} {v : V} {D : V → Prop} {bs : List (List α × List α)}

theorem pair_sublist_append :
    Sublist [d, x] (xs ++ ys) ↔ Sublist [d, x] xs ∨ (d ∈ xs ∧ x ∈ ys) ∨ Sublist [d, x] ys := by
  rw [sublist_append_iff]
  constructor
  · intro ⟨l, r, h, hl, hr⟩
    match l, h with
    | [], h =>
      obtain rfl : [d, x] = r := h
      exact .inr (.inr hr)
    | [e], h =>
      cases h
      exact .inr (.inl ⟨singleton_sublist.mp hl, singleton_sublist.mp hr⟩)
    | [e, f], h =>
      cases h
      exact .inl hl
  · intro h
    rcases h with h | ⟨hd, hx⟩ | h
    · exact ⟨[d, x], [], rfl, h, nil_sublist _⟩
    · exact ⟨[d], [x], rfl, singleton_sublist.mpr hd, singleton_sublist.mpr hx⟩
    · exact ⟨[], [d, x], rfl, nil_sublist _, h⟩

theorem mem_of_pair_sublist (h : Sublist [d, x] xs) : d ∈ xs ∧ x ∈ xs :=
  ⟨h.subset (by simp), h.subset (by simp)⟩

theorem pair_sublist_filterMap {β : Type} {f : β → Option α} {l : List β} :
    Sublist [d, x] (l.filterMap f) ↔ ∃ a b, Sublist [a, b] l ∧ f a = some d ∧ f b = some x := by
  rw [sublist_filterMap_iff]
  constructor
  · intro ⟨m, hm, he⟩
    obtain ⟨l₁, a, m', rfl, _, ha, hrest⟩ := filterMap_eq_cons_iff.mp he.symm
    obtain ⟨l₂, b, l₃, rfl, _, hb, _⟩ := filterMap_eq_cons_iff.mp hrest
    refine ⟨a, b, Sublist.trans ?_ hm, ha, hb⟩
    refine (pair_sublist_append).mpr (.inr (.inr ?_))
    exact cons_sublist_cons.mpr (singleton_sublist.mpr (by simp))
  · intro ⟨a, b, hl, ha, hb⟩
    exact ⟨[a, b], hl, by simp [ha, hb]⟩

/-- Of two items of a list one stands before the other. -/
theorem pair_sublist_or {a b : α} (ha : a ∈ xs) (hb : b ∈ xs)
    (hne : a ≠ b) : Sublist [a, b] xs ∨ Sublist [b, a] xs := by
  obtain ⟨l, r, rfl⟩ := append_of_mem ha
  rcases mem_append.mp hb with hl | hr
  · exact .inr (pair_sublist_append.mpr (.inr (.inl ⟨hl, mem_cons_self⟩)))
  · rcases mem_cons.mp hr with rfl | hr
    · exact absurd rfl hne
    · exact .inl (pair_sublist_append.mpr (.inr (.inr
        (cons_sublist_cons.mpr (singleton_sublist.mpr hr)))))

/-- In a list without repetitions, standing before is transitive. -/
theorem pair_sublist_trans {a b c : α} (h : xs.Nodup)
    (hab : Sublist [a, b] xs) (hbc : Sublist [b, c] xs) : Sublist [a, c] xs := by
  obtain ⟨l, r, rfl⟩ := append_of_mem (mem_of_pair_sublist hab).2
  obtain ⟨_, hr, hcross⟩ := nodup_append.mp h
  have hl : b ∉ l := fun hb => hcross b hb b mem_cons_self rfl
  have hr : b ∉ r := (nodup_cons.mp hr).1
  have ha : a ∈ l := by
    rcases (pair_sublist_append).mp hab with hs | ⟨ha, _⟩ | hs
    · exact absurd (mem_of_pair_sublist hs).2 hl
    · exact ha
    · rcases sublist_cons_iff.mp hs with hs | ⟨_, he, hs⟩
      · exact absurd (mem_of_pair_sublist hs).2 hr
      · cases he
        exact absurd (singleton_sublist.mp hs) hr
  have hc : c ∈ b :: r := by
    rcases (pair_sublist_append).mp hbc with hs | ⟨hb, _⟩ | hs
    · exact absurd (mem_of_pair_sublist hs).1 hl
    · exact absurd hb hl
    · exact (mem_of_pair_sublist hs).2
  exact (pair_sublist_append).mpr (.inr (.inl ⟨ha, hc⟩))

variable (declares : α → V → Prop)

def Declared (xs : List α) (v : V) : Prop := ∃ d ∈ xs, declares d v

/-- Something that declares `v` stands before `x`. -/
def Earlier (xs : List α) (x : α) (v : V) : Prop := ∃ d, Sublist [d, x] xs ∧ declares d v

/-- The same for a list with `D` declared ahead of it. -/
def EarlierFrom (D : V → Prop) (xs : List α) (x : α) (v : V) : Prop :=
  (x ∈ xs ∧ D v) ∨ Earlier declares xs x v

/-- The pieces keep, one after the other, what their items rely on. -/
def KeepsFrom (relies : α → V → Prop) : (V → Prop) → List (List α × List α) → Prop
  | _, [] => True
  | D, b :: bs =>
    (∀ x v, relies x v → Earlier declares b.1 x v → D v ∨ Earlier declares b.2 x v) ∧
    KeepsFrom relies (fun v => D v ∨ Declared declares b.1 v) bs

variable {declares}

theorem Earlier.mem (h : Earlier declares xs x v) : x ∈ xs := by
  obtain ⟨d, hd, _⟩ := h
  exact (mem_of_pair_sublist hd).2

theorem EarlierFrom.mem (h : EarlierFrom declares D xs x v) : x ∈ xs := h.elim And.left Earlier.mem

theorem declared_perm (h : xs.Perm ys) : Declared declares xs = Declared declares ys := by
  funext v
  exact propext (exists_congr fun d => and_congr_left fun _ => h.mem_iff)

theorem earlierFrom_append :
    EarlierFrom declares D (xs ++ ys) x v ↔ EarlierFrom declares D xs x v ∨
        EarlierFrom declares (fun v => D v ∨ Declared declares xs v) ys x v := by
  constructor
  · intro h
    rcases h with ⟨hx, hD⟩ | ⟨d, hd, hv⟩
    · rcases mem_append.mp hx with hx | hx
      · exact .inl (.inl ⟨hx, hD⟩)
      · exact .inr (.inl ⟨hx, .inl hD⟩)
    · rcases (pair_sublist_append).mp hd with hd | ⟨hd, hx⟩ | hd
      · exact .inl (.inr ⟨d, hd, hv⟩)
      · exact .inr (.inl ⟨hx, .inr ⟨d, hd, hv⟩⟩)
      · exact .inr (.inr ⟨d, hd, hv⟩)
  · intro h
    rcases h with (⟨hx, hD⟩ | ⟨d, hd, hv⟩) |
      ⟨hx, hD | ⟨d, hd, hv⟩⟩ | ⟨d, hd, hv⟩
    · exact .inl ⟨mem_append_left _ hx, hD⟩
    · exact .inr ⟨d, (pair_sublist_append).mpr (.inl hd), hv⟩
    · exact .inl ⟨mem_append_right _ hx, hD⟩
    · exact .inr ⟨d, (pair_sublist_append).mpr (.inr (.inl ⟨hd, hx⟩)), hv⟩
    · exact .inr ⟨d, (pair_sublist_append).mpr (.inr (.inr hd)), hv⟩

variable {relies : α → V → Prop}

/-- No two pieces share an item that relies on something. -/
def Apart (relies : α → V → Prop) (b c : List α × List α) : Prop :=
  ∀ x ∈ b.1, x ∈ c.1 → ∀ v, ¬ relies x v

theorem keepsFrom_iff (hperm : ∀ b ∈ bs, b.2.Perm b.1) (hapart : bs.Pairwise (Apart relies)) :
    (∀ x v, relies x v → EarlierFrom declares D (bs.flatMap fst) x v →
      EarlierFrom declares D (bs.flatMap snd) x v) ↔ KeepsFrom declares relies D bs := by
  induction bs generalizing D with
  | nil => exact ⟨fun _ => trivial, fun _ x v _ h => h⟩
  | cons b bs ih =>
    obtain ⟨hb, hbs⟩ := forall_mem_cons.mp hperm
    obtain ⟨hfirst, hrest⟩ := pairwise_cons.mp hapart
    have apart {x v} (hr : relies x v) (hx : x ∈ b.1) (hy : x ∈ bs.flatMap fst) : False := by
      obtain ⟨c, hc, hxc⟩ := mem_flatMap.mp hy
      exact hfirst c hc x hx hxc v hr
    have later {x} (hy : x ∈ bs.flatMap snd) : x ∈ bs.flatMap fst := by
      obtain ⟨c, hc, hxc⟩ := mem_flatMap.mp hy
      exact mem_flatMap.mpr ⟨c, hc, (hbs c hc).subset hxc⟩
    rw [KeepsFrom, ← ih hbs hrest]
    simp only [flatMap_cons, earlierFrom_append, declared_perm hb]
    constructor
    · intro h
      refine ⟨fun x v hr he => ?_, fun x v hr he => ?_⟩
      · rcases h x v hr (.inl (.inr he)) with (⟨_, hD⟩ | he') | h'
        · exact .inl hD
        · exact .inr he'
        · exact (apart hr he.mem (later h'.mem)).elim
      · rcases h x v hr (.inr he) with h' | h'
        · exact (apart hr (hb.subset h'.mem) he.mem).elim
        · exact h'
    · intro ⟨hkeep, hlater⟩ x v hr he
      rcases he with (⟨hx, hD⟩ | he) | he
      · exact .inl (.inl ⟨hb.symm.subset hx, hD⟩)
      · rcases hkeep x v hr he with hD | he'
        · exact .inl (.inl ⟨hb.symm.subset he.mem, hD⟩)
        · exact .inl (.inr he')
      · exact .inr (hlater x v hr he)

theorem declared_append :
    Declared declares (xs ++ ys) v ↔ Declared declares xs v ∨ Declared declares ys v := by
  simp only [Declared, mem_append, or_and_right, exists_or]

theorem keepsFrom_append {cs : List (List α × List α)} :
    KeepsFrom declares relies D (bs ++ cs) ↔ KeepsFrom declares relies D bs ∧
        KeepsFrom declares relies
          (fun v => D v ∨ Declared declares (bs.flatMap fst) v) cs := by
  induction bs generalizing D with
  | nil =>
    simp only [nil_append, KeepsFrom, true_and, Declared,
      flatMap_nil, not_mem_nil, false_and, exists_false, or_false]
  | cons b bs ih =>
    simp only [cons_append, KeepsFrom, ih, and_assoc, or_assoc, flatMap_cons, declared_append]

theorem earlierFrom_false :
    EarlierFrom declares (fun _ => False) xs x v ↔ Earlier declares xs x v := by
  rw [EarlierFrom, and_false, false_or]

/-- A rewriting block by block keeps what every item relies on iff each
block does, with what the blocks before it declare. -/
theorem keeps_iff (hperm : ∀ b ∈ bs, b.2.Perm b.1) (hapart : bs.Pairwise (Apart relies)) :
    (∀ x v, relies x v → Earlier declares (bs.flatMap fst) x v →
      Earlier declares (bs.flatMap snd) x v) ↔
      KeepsFrom declares relies (fun _ => False) bs := by
  rw [← keepsFrom_iff hperm hapart]
  simp only [earlierFrom_false]

end

end Dawgs.Lib

import Mathlib

/-!
# Cutting a list into runs

`cuts l k` lists the ways to cut `l` into `k` consecutive runs, which may be
empty. Each way is there once (`mem_cuts`, `nodup_cuts`). The recursion asks
what becomes of the first element: the first run is empty, or it starts with
that element. `sum_map_cuts` is the same recursion for a sum over all ways.
-/

namespace Dawgs.Lib

open List

variable {α : Type*}

/-- An element put in front of the first run. -/
def consHead (a : α) : List (List α) → List (List α)
  | [] => []
  | run :: runs => (a :: run) :: runs

/-- The ways to cut a list with one more element in front, from those of
the shorter list. -/
def cutsCons (a : α) (shorter : Nat → List (List (List α))) : Nat → List (List (List α))
  | 0 => []
  | k + 1 => (cutsCons a shorter k).map ([] :: ·) ++ (shorter (k + 1)).map (consHead a)

/-- The ways to cut a list into so many runs. -/
def cuts : List α → Nat → List (List (List α))
  | [], k => [List.replicate k []]
  | a :: l, k => cutsCons a (cuts l) k

theorem cuts_cons (a : α) (l : List α) (k : Nat) :
    cuts (a :: l) (k + 1) = (cuts (a :: l) k).map ([] :: ·) ++
      (cuts l (k + 1)).map (consHead a) := rfl

theorem mem_cuts {l : List α} {k : Nat} {c : List (List α)} :
    c ∈ cuts l k ↔ c.length = k ∧ c.flatten = l := by
  induction l generalizing k c with
  | nil =>
    rw [cuts, mem_singleton, eq_replicate_iff, flatten_eq_nil_iff]
  | cons a l ih =>
    induction k generalizing c with
    | zero =>
      rw [length_eq_zero_iff]
      refine ⟨nofun, ?_⟩
      intro h
      rw [h.1] at h
      cases h.2
    | succ k ihk =>
      rw [cuts_cons, mem_append, mem_map, mem_map]
      cases c with
      | nil =>
        refine ⟨?_, fun h => (by cases h.1)⟩
        rintro (⟨c, _, h⟩ | ⟨c, hc, h⟩)
        · cases h
        · have hlen := (ih.mp hc).1
          cases c with
          | nil => cases hlen
          | cons run runs => cases h
      | cons run runs =>
        cases run with
        | nil =>
          rw [length_cons, flatten_cons, nil_append, Nat.add_right_cancel_iff, ← ihk]
          refine ⟨?_, fun h => Or.inl ⟨runs, h, rfl⟩⟩
          rintro (⟨c, hc, h⟩ | ⟨c, _, h⟩)
          · cases h
            exact hc
          · cases c <;> cases h
        | cons b run =>
          have hshort := ih (k := k + 1) (c := run :: runs)
          rw [flatten_cons] at hshort ⊢
          rw [cons_append, List.cons.injEq]
          constructor
          · rintro (⟨c, _, h⟩ | ⟨c, hc, h⟩)
            · cases h
            · cases c with
              | nil => cases h
              | cons run' runs' =>
                cases h
                exact ⟨(hshort.mp hc).1, rfl, (hshort.mp hc).2⟩
          · rintro ⟨hlen, rfl, hflat⟩
            exact Or.inr ⟨_, hshort.mpr ⟨hlen, hflat⟩, rfl⟩

theorem nodup_cuts (l : List α) (k : Nat) : (cuts l k).Nodup := by
  induction l generalizing k with
  | nil => exact nodup_singleton _
  | cons a l ih =>
    induction k with
    | zero => exact nodup_nil
    | succ k ihk =>
      refine nodup_append.mpr ⟨ihk.map cons_injective, ?_, ?_⟩
      · refine (ih (k + 1)).map_on ?_
        intro c hc c' hc' h
        cases c <;> cases c' <;> simp_all [consHead]
      · intro c hc c' hc' heq
        obtain ⟨d, _, rfl⟩ := mem_map.mp hc
        obtain ⟨d', hd', rfl⟩ := mem_map.mp hc'
        have hlen := (mem_cuts.mp hd').1
        cases d' with
        | nil => cases hlen
        | cons run runs => cases heq

/-- A sum over the ways to cut a list, by what becomes of its first
element. -/
theorem sum_map_cuts (a : α) (l : List α) (k : Nat) (f : List (List α) → Nat) :
    ((cuts (a :: l) (k + 1)).map f).sum = ((cuts (a :: l) k).map fun c => f ([] :: c)).sum +
        ((cuts l (k + 1)).map fun c => f (consHead a c)).sum := by
  rw [cuts_cons, map_append, sum_append, map_map, map_map]
  rfl

/-- A sum over a list without repetitions, with one term that may not be
zero. -/
theorem sum_map_single {α : Type*} [DecidableEq α] {l : List α} (hl : l.Nodup) {f : α → Nat} (a : α)
    (h : ∀ b, b ≠ a → b ∈ l → f b = 0) : (l.map f).sum = if a ∈ l then f a else 0 := by
  rw [sum_map_eq_nsmul_single a f h]
  split
  next ha => rw [count_eq_one_of_mem hl ha, one_nsmul]
  next ha => rw [count_eq_zero_of_not_mem ha, zero_nsmul]

end Dawgs.Lib

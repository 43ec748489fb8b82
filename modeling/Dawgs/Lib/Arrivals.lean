import Dawgs.Lib.Reach

/-!
# Searches that report where they stop

A search over edges goes on from each point once. It keeps the arrivals
that are still to be looked at, one for each edge that was followed, the
points it went on from, and a report. An arrival at a point it went on from
before is reported, and so is one at a point without edges. In which order
the arrivals are looked at is left open.

What is in the report in the end does not depend on the order. It is the
points with an edge into them that have no edge out of them, and besides,
whatever is arrived at twice: the points with two edges into them, and the
start, if there is any edge into it.

The invariant counts. Of the edges into a point from where the search went
on, all that are not still to be looked at have been.
-/

namespace Dawgs.Lib

open Relation List Finset

variable {α β : Type} [DecidableEq α] (edges : List β) (src dst : β → α)

/-- Where one step leads from a point. -/
def EdgeStep (a b : α) : Prop := ∃ e ∈ edges, src e = a ∧ dst e = b

/-- The arrivals that the edges out of a point make. -/
def arrivalsFrom (a : α) : Multiset α := ((edges.filter fun e => src e = a).map dst : List α)

/-- The number of edges into a point, from a set of points. -/
def entries (visited : Finset α) (m : α) : Nat := edges.countP fun e => src e ∈ visited ∧ dst e = m

structure Arrivals (α : Type) where
  pending : Multiset α
  visited : Finset α
  reported : Finset α

/-- One arrival is looked at. -/
inductive Arrives : Arrivals α → Arrivals α → Prop
  | again {a rest visited reported} (h : a ∈ visited) : Arrives ⟨a ::ₘ rest, visited, reported⟩
        ⟨rest, visited, insert a reported⟩
  | first {a rest visited reported} (h : a ∉ visited) : Arrives ⟨a ::ₘ rest, visited, reported⟩
        ⟨rest + arrivalsFrom edges src dst a, insert a visited,
          if arrivalsFrom edges src dst a = 0 then insert a reported else reported⟩

/-- The search has gone on from its start. -/
def Arrivals.start (root : α) : Arrivals α := ⟨arrivalsFrom edges src dst root, {root}, ∅⟩

variable {edges src dst}

variable {a m root : α} {visited reported : Finset α}

theorem arrivalsFrom_eq_zero :
    arrivalsFrom edges src dst a = 0 ↔ ¬ ∃ b, EdgeStep edges src dst a b := by
  unfold arrivalsFrom EdgeStep
  constructor
  · intro h ⟨b, e, he, hsrc, _⟩
    have hmem : e ∈ edges.filter fun e => src e = a := by
      simp [he, hsrc]
    rw [Multiset.coe_eq_zero, map_eq_nil_iff] at h
    rw [h] at hmem
    cases hmem
  · intro h
    rw [Multiset.coe_eq_zero, map_eq_nil_iff, filter_eq_nil_iff]
    intro e he hsrc
    exact h ⟨dst e, e, he, by simpa using hsrc, rfl⟩

theorem count_arrivalsFrom (a m : α) :
    (arrivalsFrom edges src dst a).count m = edges.countP fun e => src e = a ∧ dst e = m := by
  rw [arrivalsFrom, Multiset.coe_count, List.count, countP_map, countP_filter]
  refine countP_congr fun e _ => ?_
  simp [and_comm]

/-- A new point adds the edges out of it. -/
theorem entries_insert (h : a ∉ visited) (m : α) :
    entries edges src dst (insert a visited) m = entries edges src dst visited m +
        (arrivalsFrom edges src dst a).count m := by
  rw [count_arrivalsFrom, entries, countP_eq_countP_filter_add edges _ (src · ∈ visited),
    countP_filter, countP_filter, entries]
  congr 1 <;> refine countP_congr fun e _ => ?_
  · simp only [mem_insert, Bool.and_eq_true, decide_eq_true_eq]
    tauto
  · have hne : src e = a → src e ∉ visited := fun hsrc => hsrc ▸ h
    simp only [mem_insert, Bool.and_eq_true, Bool.not_eq_true', decide_eq_true_eq,
      decide_eq_false_iff_not]
    tauto

theorem exists_edge_of_entries
    (h : 0 < entries edges src dst visited m) : ∃ a ∈ visited, EdgeStep edges src dst a m := by
  obtain ⟨e, he, hm⟩ := countP_pos_iff.mp h
  simp only [decide_eq_true_eq] at hm
  exact ⟨src e, hm.1, e, he, rfl, hm.2⟩

theorem entries_pos (ha : a ∈ visited)
    (h : EdgeStep edges src dst a m) : 0 < entries edges src dst visited m := by
  obtain ⟨e, he, rfl, hm⟩ := h
  exact countP_pos_iff.mpr ⟨e, he, by simp [ha, hm]⟩

/-- Two edges into a point. -/
theorem two_le_entries (hnodup : edges.Nodup) :
    2 ≤ entries edges src dst visited m ↔ ∃ e ∈ edges, ∃ e' ∈ edges, e ≠ e' ∧
        (src e ∈ visited ∧ dst e = m) ∧ src e' ∈ visited ∧ dst e' = m := by
  rw [entries, countP_eq_length_filter]
  have hmem : ∀ e, e ∈ edges.filter (fun e => decide (src e ∈ visited ∧ dst e = m)) ↔
      e ∈ edges ∧ src e ∈ visited ∧ dst e = m := by simp
  have hn := hnodup.filter fun e => decide (src e ∈ visited ∧ dst e = m)
  constructor
  · intro h
    match hl : edges.filter (fun e => decide (src e ∈ visited ∧ dst e = m)), h with
    | e :: e' :: l, _ =>
      rw [hl] at hn hmem
      have he := (hmem e).mp (by simp)
      have he' := (hmem e').mp (by simp)
      have hne : e ≠ e' := fun heq => by simp [heq] at hn
      exact ⟨e, he.1, e', he'.1, hne, he.2, he'.2⟩
  · intro ⟨e, he, e', he', hne, hm, hm'⟩
    have hsub : [e, e'].Subperm (edges.filter fun e => decide (src e ∈ visited ∧ dst e = m)) := by
      refine subperm_of_subset (by simp [hne]) fun x hx => ?_
      obtain rfl | hx := mem_cons.mp hx
      · exact (hmem x).mpr ⟨he, hm⟩
      · rw [List.mem_singleton.mp hx]
        exact (hmem e').mpr ⟨he', hm'⟩
    exact hsub.length_le

/-- What the counts say of a search from `root`. -/
structure Counted (edges : List β) (src dst : β → α) (root : α) (s : Arrivals α) : Prop where
  count_le : ∀ m, s.pending.count m ≤ entries edges src dst s.visited m
  mem_visited : ∀ m, m ∈ s.visited ↔
    m = root ∨ s.pending.count m < entries edges src dst s.visited m
  mem_reported : ∀ m, m ∈ s.reported ↔ s.pending.count m < entries edges src dst s.visited m ∧
      (arrivalsFrom edges src dst m = 0 ∨ m = root ∨
        s.pending.count m + 1 < entries edges src dst s.visited m)
  reach : ∀ m ∈ s.visited, ReflTransGen (EdgeStep edges src dst) root m

theorem counted_start (root : α) : Counted edges src dst root (.start edges src dst root) := by
  have hentries : ∀ m, entries edges src dst {root} m =
      (arrivalsFrom edges src dst root).count m := by
    intro m
    rw [count_arrivalsFrom]
    simp [entries]
  refine ⟨fun m => ?_, fun m => ?_, fun m => ?_, fun m hm => ?_⟩
  · exact Nat.le_of_eq (hentries m).symm
  · simp [Arrivals.start, hentries]
  · simp [Arrivals.start, hentries]
  · rw [Finset.mem_singleton.mp hm]

theorem Counted.arrives {s t : Arrivals α} (h : Counted edges src dst root s)
    (hst : Arrives edges src dst s t) : Counted edges src dst root t := by
  cases hst with
  | @again a rest visited reported ha =>
    have hle := h.count_le
    have hvisited := h.mem_visited
    simp only [Multiset.count_cons] at hle hvisited
    refine ⟨fun m => ?_, fun m => ?_, fun m => ?_, h.reach⟩
    · have := hle m
      show rest.count m ≤ entries edges src dst visited m
      omega
    · show m ∈ visited ↔ m = root ∨ rest.count m < entries edges src dst visited m
      by_cases hm : m = a
      · subst hm
        have hvm := (hvisited m).mp ha
        exact iff_of_true ha (hvm.imp_right fun hlt => by omega)
      · rw [hvisited m]
        simp [hm]
    · show m ∈ insert a reported ↔ rest.count m < entries edges src dst visited m ∧
          (arrivalsFrom edges src dst m = 0 ∨ m = root ∨
            rest.count m + 1 < entries edges src dst visited m)
      rw [mem_insert]
      by_cases hm : m = a
      · subst hm
        have hlm := hle m
        have hvm := (hvisited m).mp ha
        simp only [if_true] at hlm hvm
        exact iff_of_true (.inl rfl) ⟨by omega, .inr hvm⟩
      · have hrep := h.mem_reported m
        simp only [Multiset.count_cons, hm] at hrep
        simp only [hm, false_or]
        exact hrep
  | @first a rest visited reported ha =>
    have hle := h.count_le
    have hvisited := h.mem_visited
    simp only [Multiset.count_cons] at hle hvisited
    have hnot := (hvisited a).not.mp ha
    rw [not_or] at hnot
    have hla := hle a
    simp only [if_true] at hnot hla
    have hreach : ReflTransGen (EdgeStep edges src dst) root a := by
      obtain ⟨b, hb, hstep⟩ := exists_edge_of_entries
        (show 0 < entries edges src dst visited a by omega)
      exact (h.reach b hb).tail hstep
    refine ⟨fun m => ?_, fun m => ?_, fun m => ?_, fun m hm => ?_⟩
    · have := hle m
      rw [Multiset.count_add, entries_insert ha]
      omega
    · rw [Multiset.count_add, entries_insert ha, mem_insert, hvisited m]
      by_cases hm : m = a
      · subst hm
        simp only [true_or, true_iff]
        omega
      · simp [hm]
    · rw [Multiset.count_add, entries_insert ha]
      have hrep := h.mem_reported m
      simp only [Multiset.count_cons] at hrep
      by_cases hm : m = a
      · subst hm
        simp only [if_true] at hrep
        have hout : m ∉ reported := fun hin => by
          have := hrep.mp hin
          omega
        by_cases hzero : arrivalsFrom edges src dst m = 0
        · simp [hzero]
          omega
        · simp only [hzero, if_false, hout, false_iff, hnot.1, false_or]
          omega
      · simp only [hm, if_false] at hrep
        have hsame : (m ∈ if arrivalsFrom edges src dst a = 0
            then insert a reported else reported) ↔ m ∈ reported := by
          split <;> simp [hm]
        rw [hsame, hrep]
        refine and_congr (by omega) (or_congr_right (or_congr_right ?_))
        omega
    · obtain rfl | hm := mem_insert.mp hm
      · exact hreach
      · exact h.reach m hm

section

variable (h : Counted edges src dst root ⟨0, visited, reported⟩) (m : α)
include h

/-- A search with nothing left went on from all that can be reached. -/
theorem Counted.visited_iff :
    m ∈ visited ↔ ReflTransGen (EdgeStep edges src dst) root m := by
  refine ⟨h.reach m, fun hm => ?_⟩
  have hclosed : Closed (EdgeStep edges src dst) {a | a ∈ visited} := by
    intro a b ha hab
    refine (h.mem_visited b).mpr (.inr ?_)
    exact entries_pos ha hab
  exact hclosed.reach ((h.mem_visited root).mpr (.inl rfl)) hm

theorem Counted.reported_iff :
    m ∈ reported ↔ 0 < entries edges src dst visited m ∧
      (arrivalsFrom edges src dst m = 0 ∨ m = root ∨ 2 ≤ entries edges src dst visited m) := by
  rw [h.mem_reported m]
  simp only [Multiset.count_zero]
  refine and_congr_right fun _ => or_congr_right (or_congr_right ?_)
  omega

end

/-- The arrivals to be looked at, and the edges not followed yet. -/
def Arrivals.left (edges : List β) (src : β → α) (s : Arrivals α) : Nat :=
  s.pending.card + edges.countP fun e => src e ∉ s.visited

/-- Each arrival that is looked at brings the end nearer. -/
theorem Arrives.left_lt {s t : Arrivals α} (h : Arrives edges src dst s t) :
    t.left edges src < s.left edges src := by
  cases h with
  | @again a rest visited reported ha => simp [Arrivals.left]
  | @first a rest visited reported ha =>
    have hsplit : edges.countP (fun e => src e ∉ visited) =
        (edges.filter fun e => src e = a).length +
          edges.countP fun e => src e ∉ insert a visited := by
      rw [countP_eq_countP_filter_add edges _ (src · = a), ← countP_eq_length_filter,
        countP_filter, countP_filter]
      congr 1 <;> refine countP_congr fun e _ => ?_
      · have hne : src e = a → src e ∉ visited := fun hsrc => hsrc ▸ ha
        simpa using hne
      · simp [and_comm]
    simp only [Arrivals.left, Multiset.card_add, Multiset.card_cons,
      arrivalsFrom, Multiset.coe_card, length_map]
    omega

end Dawgs.Lib

import Dawgs.Ref.PathTree

/-!
# What a segment says of its path

A segment at depth `d` has `d + 1` segments from the root to it. `Path` makes
room for as many nodes and for `d` relationships, and fills both. `Slice`
makes room for `d` segments only and counts down before it writes, so the
write for the root goes before the start of the slice. It panics whatever
the segment.
-/

namespace Dawgs.Ref.PathSegment

variable {R : Type}

/-- The relationships of the path, last one first. -/
def edges : PathSegment R → List R
  | root _ => []
  | descend trunk _ edge => edge :: trunk.edges

/-- The segments of the path, last one first. -/
def segments : PathSegment R → List (PathSegment R)
  | root node => [root node]
  | descend trunk node edge => descend trunk node edge :: trunk.segments

theorem length_edges (s : PathSegment R) : s.edges.length = s.depth := by
  induction s with
  | root => rfl
  | descend trunk node edge ih => simp [edges, depth, ih]

theorem length_nodes (s : PathSegment R) : s.nodes.length = s.depth + 1 := by
  induction s with
  | root => rfl
  | descend trunk node edge ih => simp [nodes, depth, ih]

/-- A slice that is written at a place, from there on. -/
theorem storeAt_nat {α : Type} {slice : List (Option α)} {n : Nat} (hn : n < slice.length) (a : α) :
    ∃ stored, storeAt slice n a = some stored ∧ stored.length = slice.length ∧
      stored.drop n = some a :: slice.drop (n + 1) := by
  refine ⟨slice.set n (some a), if_pos (by omega), List.length_set, ?_⟩
  rw [List.drop_eq_getElem_cons (by simpa using hn), List.getElem_set_self,
    List.drop_set_of_lt (by omega)]

theorem fillPath_eq (s : PathSegment R) {nodes : List (Option Nat)} {edges : List (Option R)}
    (hnodes : s.depth < nodes.length) (hedges : s.depth ≤ edges.length) :
    s.fillPath s.depth ⟨nodes, edges⟩ = some ⟨s.nodes.reverse.map some ++ nodes.drop (s.depth + 1),
        s.edges.reverse.map some ++ edges.drop s.depth⟩ := by
  induction s generalizing nodes edges with
  | root node =>
    obtain ⟨stored, hstored, -, hdrop⟩ := storeAt_nat hnodes node
    rw [fillPath, hstored]
    simpa [depth, PathSegment.nodes, PathSegment.edges] using hdrop
  | descend trunk node edge ih =>
    rw [depth] at hnodes hedges ⊢
    obtain ⟨nodes', hstored, hlen, hdrop⟩ := storeAt_nat hnodes node
    obtain ⟨edges', hstored', hlen', hdrop'⟩ := storeAt_nat
      (show trunk.depth < edges.length by omega) edge
    have hidx : ((trunk.depth + 1 : Nat) : Int) - 1 = trunk.depth := by omega
    simp only [fillPath, hstored, hidx, hstored', Option.bind_eq_bind, Option.bind_some]
    rw [ih (by omega) (by omega), hdrop, hdrop']
    simp [PathSegment.nodes, PathSegment.edges]

theorem fillSlice_eq_none (s : PathSegment R) {idx : Int} (hidx : idx ≤ s.depth)
    (container : List (Option (PathSegment R))) : s.fillSlice idx container = none := by
  induction s generalizing idx container with
  | root node => exact if_neg (by simp only [depth] at hidx; omega)
  | descend trunk node edge ih =>
    rw [depth] at hidx
    rw [fillSlice]
    cases storeAt container (idx - 1) (descend trunk node edge) with
    | none => rfl
    | some container => exact ih (by omega) container

/-- Of every segment `Path` gives the nodes and relationships from the root
to it, one more node than relationships, and `Slice` panics. -/
theorem path_and_slice (s : PathSegment R) :
    s.path = some ⟨s.nodes.reverse.map some, s.edges.reverse.map some⟩ ∧
      s.nodes.length = s.edges.length + 1 ∧ s.slice = none := by
  refine ⟨?_, ?_, fillSlice_eq_none s le_rfl _⟩
  · rw [path, allocatePath, fillPath_eq s (by simp) (by simp)]
    simp
  · rw [length_nodes, length_edges]

/-- The root of a tree: the segments from the root to it are itself. -/
theorem slice_root :
    (root 1 : PathSegment Nat).slice ≠
      some ((root 1 : PathSegment Nat).segments.reverse.map some) := by
  decide

end Dawgs.Ref.PathSegment

import Dawgs.Ref.OpsTraversal

/-!
# Paths and their segments

`PathSegment.Path` and `PathSegment.Slice` make slices of the length they
expect, walk from the segment to its root and write the slices from the
back. A place that is not written yet holds nil, and an index out of range
panics.
-/

namespace Dawgs.Ref

/-- A write to a slice; nothing where the index is out of range. -/
def storeAt {α : Type} (slice : List (Option α)) (idx : Int) (a : α) : Option (List (Option α)) :=
  if 0 ≤ idx ∧ idx < slice.length then some (slice.set idx.toNat (some a))
  else none

/-- `graph.Path`. -/
structure Path (R : Type) where
  nodes : List (Option Nat)
  edges : List (Option R)

/-- `AllocatePath`. -/
def allocatePath (R : Type) (pathDepth : Nat) : Path R :=
  ⟨List.replicate (pathDepth + 1) none, List.replicate pathDepth none⟩

namespace PathSegment

variable {R : Type}

/-- The loop of `Path`. -/
def fillPath : PathSegment R → Int → Path R → Option (Path R)
  | root node, depthIdx, path => do
    let nodes ← storeAt path.nodes depthIdx node
    return { path with nodes := nodes }
  | descend trunk node edge, depthIdx, path => do
    let nodes ← storeAt path.nodes depthIdx node
    let edges ← storeAt path.edges (depthIdx - 1) edge
    fillPath trunk (depthIdx - 1) ⟨nodes, edges⟩

/-- `Path`. -/
def path (s : PathSegment R) : Option (Path R) := s.fillPath s.depth (allocatePath R s.depth)

/-- The loop of `Slice`. -/
def fillSlice : PathSegment R → Int → List (Option (PathSegment R)) →
    Option (List (Option (PathSegment R)))
  | root node, containerIdx, container =>
    storeAt container (containerIdx - 1) (root node)
  | descend trunk node edge, containerIdx, container => do
    let container ← storeAt container (containerIdx - 1) (descend trunk node edge)
    fillSlice trunk (containerIdx - 1) container

/-- `Slice`. -/
def slice (s : PathSegment R) : Option (List (Option (PathSegment R))) :=
  s.fillSlice s.depth (List.replicate s.depth none)

end PathSegment

end Dawgs.Ref

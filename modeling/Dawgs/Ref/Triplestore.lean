import Dawgs.Ref.Csr

/-!
# The triplestore and its projections

A `triplestore` keeps its edges in the order they were added and, for each
node, the places of the edges that start and that end there. Deleting an
edge only notes its id. A projection hides nodes and edges of a store by two
sets of ids; a projection of a projection copies the sets of the first and
adds to the copies. `View` is the interface `Triplestore`, which the two
implement.

Bitmaps are shared by reference: the first projection of a store keeps the
sets its caller passed. So the sets of a chain of projections live in a
memory here, and what is written to it can be seen.
-/

namespace Dawgs.Ref.Triplestore

/-- `container.Edge`. -/
structure Edge where
  id : Nat
  start : Nat
  fin : Nat
deriving DecidableEq

/-- `Edge.Pick`. -/
def Edge.pick (e : Edge) (d : Direction) : Nat :=
  if d = .outbound then e.fin else e.start

/-- `triplestore`. -/
structure Store where
  nodes : Bitmap
  edges : List Edge
  deletedEdges : Bitmap
  startIndex : AdjacencyMap
  endIndex : AdjacencyMap
  start_iff : ∀ node i, startIndex.Linked node i ↔ ∃ e, edges[i]? = some e ∧ e.start = node
  end_iff : ∀ node i, endIndex.Linked node i ↔ ∃ e, edges[i]? = some e ∧ e.fin = node

namespace Store

/-- `NewTriplestore`. -/
def new : Store where
  nodes := Bitmap.new
  edges := []
  deletedEdges := Bitmap.new
  startIndex := fun _ => none
  endIndex := fun _ => none
  start_iff := by simp [AdjacencyMap.Linked]
  end_iff := by simp [AdjacencyMap.Linked]

/-- `DeleteEdge`. -/
def deleteEdge (s : Store) (id : Nat) : Store :=
  { s with deletedEdges := s.deletedEdges.add id }

/-- `AddNode`. -/
def addNode (s : Store) (node : Nat) : Store :=
  { s with nodes := s.nodes.add node }

/-- The places of the edges with an end, after one more edge. -/
theorem linked_append {m : AdjacencyMap} {edges : List Edge} {f : Edge → Nat}
    (h : ∀ node i, m.Linked node i ↔ ∃ e, edges[i]? = some e ∧ f e = node)
    (edge : Edge) (node i : Nat) :
    (m.addTo (f edge) edges.length).Linked node i ↔
      ∃ e, (edges ++ [edge])[i]? = some e ∧ f e = node := by
  rw [AdjacencyMap.linked_addTo, h, List.getElem?_append]
  split
  next hlt =>
    rw [or_iff_right fun heq => Nat.ne_of_lt hlt heq.2]
  next hge =>
    rw [List.getElem?_eq_none (by omega), List.getElem?_singleton]
    split
    next hi => simp [show i = edges.length by omega, eq_comm]
    next hi => simp [show i ≠ edges.length by omega]

/-- `AddTriple`. -/
def addTriple (s : Store) (edge start fin : Nat) : Store where
  edges := s.edges ++ [⟨edge, start, fin⟩]
  startIndex := s.startIndex.addTo start s.edges.length
  endIndex := s.endIndex.addTo fin s.edges.length
  nodes := s.nodes.addMany [start, fin]
  deletedEdges := s.deletedEdges
  start_iff := linked_append s.start_iff ⟨edge, start, fin⟩
  end_iff := linked_append s.end_iff ⟨edge, start, fin⟩

/-- `Or` with an index, if the node has one. -/
def orIndex (edgeIndices : Bitmap) : Option Bitmap → Bitmap
  | some index => edgeIndices.or index
  | none => edgeIndices

/-- `adjacentEdgeIndices`. -/
def adjacentEdgeIndices (s : Store) (node : Nat) : Direction → Bitmap
  | .outbound => orIndex .new (s.startIndex node)
  | .inbound => orIndex .new (s.endIndex node)
  | .both => orIndex (orIndex .new (s.startIndex node)) (s.endIndex node)

/-- `s.edges[edgeIndex]`. -/
def edge (s : Store) (edgeIndex : Nat) : Edge := s.edges[edgeIndex]?.getD ⟨0, 0, 0⟩

/-- What `adjacent` adds for an edge. -/
def ends (e : Edge) : Direction → List Nat
  | .outbound => [e.fin]
  | .inbound => [e.start]
  | .both => [e.fin, e.start]

/-- `adjacent`. -/
def adjacent (s : Store) (node : Nat) (d : Direction) : Bitmap :=
  (s.adjacentEdgeIndices node d).elems.foldl (fun nodes edgeIndex =>
    if s.deletedEdges.contains (s.edge edgeIndex).id then nodes
    else nodes.addMany (ends (s.edge edgeIndex) d)) Bitmap.new

/-- `EachAdjacentEdge`. -/
def eachAdjacentEdge (s : Store) (node : Nat) (d : Direction) : List Edge :=
  (s.adjacentEdgeIndices node d).elems.map s.edge

end Store

/-- `triplestoreProjection`. -/
structure Projection where
  origin : Store
  deletedNodes : Bitmap
  deletedEdges : Bitmap

namespace Projection

/-- The test that every accessor makes. -/
def sees (s : Projection) (next : Edge) : Bool :=
  !s.deletedEdges.contains next.id && !s.deletedNodes.contains next.start &&
    !s.deletedNodes.contains next.fin

/-- `EachEdge`. -/
def eachEdge (s : Projection) : List Edge := s.origin.edges.filter s.sees

/-- `NumEdges`. -/
def numEdges (s : Projection) : Nat := s.origin.edges.countP s.sees

/-- `EachAdjacentEdge`. -/
def eachAdjacentEdge (s : Projection) (node : Nat) (d : Direction) :
    List Edge := (s.origin.eachAdjacentEdge node d).filter s.sees

end Projection

/-- `Triplestore`. -/
inductive View where
  | store (s : Store)
  | projection (p : Projection)

namespace View

/-- `EachAdjacentEdge`. -/
def eachAdjacentEdge : View → Nat → Direction → List Edge
  | .store s => s.eachAdjacentEdge
  | .projection p => p.eachAdjacentEdge

/-- `EachAdjacentNode`. -/
def eachAdjacentNode : View → Nat → Direction → List Nat
  | .store s, node, d => (s.adjacent node d).elems
  | .projection p, node, d => (p.eachAdjacentEdge node d).map (·.pick d)

end View

/-! ## Projections in memory -/

/-- The bitmaps, by their addresses. -/
abbrev Memory := List Bitmap

def Memory.read (m : Memory) (address : Nat) : Bitmap := m[address]?.getD Bitmap.new

/-- `Or` on the bitmap at an address. -/
def Memory.or (m : Memory) (address other : Nat) : Memory :=
  m.set address ((m.read address).or (m.read other))

/-- The two sets of a projection, by their addresses. -/
structure DeletedSets where
  deletedNodes : Nat
  deletedEdges : Nat

/-- Sets that a memory holds. -/
abbrev SetsIn (m : Memory) :=
  { sets : DeletedSets // sets.deletedNodes < m.length ∧ sets.deletedEdges < m.length }

/-- The projection that the sets stand for. -/
def DeletedSets.load (sets : DeletedSets) (m : Memory) (origin : Store) : Projection :=
  ⟨origin, m.read sets.deletedNodes, m.read sets.deletedEdges⟩

/-- `Projection` of a projection: two clones, and an `Or` on each. -/
def DeletedSets.projection (s : DeletedSets) (m : Memory)
    (sets : DeletedSets) : Memory × DeletedSets :=
  let allDeletedNodes := m.length
  let allDeletedEdges := m.length + 1
  let m : Memory := m ++ [m.read s.deletedNodes, m.read s.deletedEdges]
  let m := m.or allDeletedNodes sets.deletedNodes
  let m := m.or allDeletedEdges sets.deletedEdges
  (m, ⟨allDeletedNodes, allDeletedEdges⟩)

/-- A chain of projections of a projection. -/
def DeletedSets.projections (s : DeletedSets) (m : Memory)
    (chain : List DeletedSets) : Memory × DeletedSets :=
  chain.foldl (fun r sets => r.2.projection r.1 sets) (m, s)

end Dawgs.Ref.Triplestore

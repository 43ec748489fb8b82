import Dawgs.Ref.Csr

/-!
# The adjacency map digraph

`adjacencyMapDigraph` keeps one bitmap of external ids per node and
direction and the set of its nodes. It is its own builder. A node without
edges has no bitmap, and one that has been given an edge keeps a bitmap in
the direction of the edge only.

`Change` is a call that both containers understand; a container is built by
a sequence of them.

Both containers can be normalized: the nodes are numbered from zero in the
order of the container's own iteration, and the adjacency is rewritten with
the numbers. The loops over the two maps of the adjacency map digraph write
the bitmap of a node to the entry of its number; as no two nodes share a
number the order of the loops does not matter, and the entry of a number is
given here in one piece.
-/

namespace Dawgs.Ref

open List

/-- `adjacencyMapDigraph`. -/
structure AdjacencyMapDigraph where
  inbound : AdjacencyMap
  outbound : AdjacencyMap
  nodes : Bitmap
  in_iff : ∀ u v, inbound.Linked v u ↔ outbound.Linked u v
  out_mem : ∀ u v, outbound.Linked u v → u ∈ nodes ∧ v ∈ nodes

namespace AdjacencyMapDigraph

/-- `NewAdjacencyMapGraph`. -/
def new : AdjacencyMapDigraph where
  inbound := fun _ => none
  outbound := fun _ => none
  nodes := Bitmap.new
  in_iff := AdjacencyMap.linked_none
  out_mem := by simp [AdjacencyMap.Linked]

variable (s : AdjacencyMapDigraph)

/-- `AddNode`. -/
def addNode (node : Nat) : AdjacencyMapDigraph :=
  { s with
    nodes := s.nodes.add node
    out_mem := fun u v h => by
      have hmem := s.out_mem u v h
      exact ⟨(Bitmap.mem_add).mpr (.inr hmem.1), (Bitmap.mem_add).mpr (.inr hmem.2)⟩ }

/-- `AddEdge`. -/
def addEdge (start fin : Nat) : AdjacencyMapDigraph where
  outbound := s.outbound.addTo start fin
  inbound := s.inbound.addTo fin start
  nodes := s.nodes.addMany [start, fin]
  in_iff := fun u v => by
    rw [AdjacencyMap.linked_addTo, AdjacencyMap.linked_addTo, s.in_iff]
    tauto
  out_mem := fun u v h => by
    simp only [Bitmap.mem_addMany, mem_cons, not_mem_nil, or_false]
    rcases (AdjacencyMap.linked_addTo).mp h with ⟨rfl, rfl⟩ | h
    · exact ⟨.inl (.inl rfl), .inl (.inr rfl)⟩
    · exact (s.out_mem u v h).imp .inr .inr

/-- `getAdjacent`, with nothing for `nil`. -/
def getAdjacent (node : Nat) : Direction → Option Bitmap
  | .outbound => s.outbound node
  | .inbound => s.inbound node
  | .both =>
    match s.outbound node, s.inbound node with
    | some outboundAdjacent, some inboundAdjacent =>
      some (outboundAdjacent.or inboundAdjacent)
    | some outboundAdjacent, none => some outboundAdjacent
    | none, inboundAdjacent => inboundAdjacent

/-- `EachNode`. -/
def eachNode : List Nat := s.nodes.elems

/-- `NumNodes`. -/
def numNodes : Nat := s.nodes.cardinality

/-- `NumEdges`. -/
def numEdges : Nat := s.nodes.cardinality

/-- `EachAdjacentNode`. -/
def eachAdjacentNode (node : Nat) (d : Direction) : List Nat :=
  match s.getAdjacent node d with
  | some adjacent => adjacent.elems
  | none => []

end AdjacencyMapDigraph

/-- `NumNodes` of a CSR digraph. -/
def CsrDigraph.numNodes (s : CsrDigraph) : Nat := s.denseIdxToID.length

/-- `NumEdges` of a CSR digraph. -/
def CsrDigraph.numEdges (s : CsrDigraph) : Nat := s.outAdj.length

/-! ## Building -/

/-- A call of a `DigraphBuilder` or a `MutableDirectedGraph`. -/
inductive Change where
  | addNode (node : Nat)
  | addEdge (start fin : Nat)
deriving DecidableEq

@[simp]
def CsrDigraphBuilder.apply (b : CsrDigraphBuilder) : Change → CsrDigraphBuilder
  | .addNode node => b.addNode node
  | .addEdge start fin => b.addEdge start fin

@[simp]
def AdjacencyMapDigraph.apply (s : AdjacencyMapDigraph) : Change → AdjacencyMapDigraph
  | .addNode node => s.addNode node
  | .addEdge start fin => s.addEdge start fin

variable (changes : List Change)

/-- The builder of a CSR digraph after the calls. -/
def builderOf : CsrDigraphBuilder := changes.foldl CsrDigraphBuilder.apply .new

/-- The CSR digraph that `Build` makes after the calls. -/
def csrOf : CsrDigraph := (builderOf changes).csr

/-- The adjacency map digraph after the calls. -/
def adjacencyMapOf : AdjacencyMapDigraph := changes.foldl AdjacencyMapDigraph.apply .new

/-- The nodes that a call is about. -/
def Change.nodes : Change → List Nat
  | .addNode node => [node]
  | .addEdge start fin => [start, fin]

/-- The edges that a call is about. -/
def Change.edges : Change → List (Nat × Nat)
  | .addNode _ => []
  | .addEdge start fin => [(start, fin)]

/-- The ids in the calls. -/
def idsOf : Finset Nat := (changes.flatMap Change.nodes).toFinset

/-- The pairs in the calls. -/
def pairsOf : Finset (Nat × Nat) := (changes.flatMap Change.edges).toFinset

/-- The neighbours of a node as the calls give them. -/
def Neighbour (node : Nat) : Direction → Nat → Prop
  | .outbound, adjacent => (node, adjacent) ∈ pairsOf changes
  | .inbound, adjacent => (adjacent, node) ∈ pairsOf changes
  | .both, adjacent =>
    (node, adjacent) ∈ pairsOf changes ∨ (adjacent, node) ∈ pairsOf changes

/-! ## Normalizing -/

/-- A `csrDigraph` whose two id maps are inverse to each other and whose
neighbours are registered: what `Build` makes, and `Normalize`. -/
structure CsrForm extends CsrDigraph where
  idx_iff : ∀ id i, idToDenseIdx id = some i ↔ denseIdxToID[i]? = some id
  out_known : ∀ v ∈ outAdj, v ∈ denseIdxToID
  in_known : ∀ v ∈ inAdj, v ∈ denseIdxToID

namespace CsrForm

/-- The index of a neighbour; a read of a missing key gives zero. -/
def denseIdx (s : CsrForm) (node : Nat) : Nat := (s.idToDenseIdx node).getD 0

theorem denseIdx_eq (s : CsrForm) {v : Nat} (hv : v ∈ s.denseIdxToID) :
    s.denseIdxToID[s.denseIdx v]? = some v := by
  obtain ⟨i, hi⟩ := getElem?_of_mem hv
  rw [denseIdx, (s.idx_iff v i).mpr hi]
  exact hi

theorem denseIdx_mem_range (s : CsrForm) {adj : List Nat} (hadj : ∀ v ∈ adj, v ∈ s.denseIdxToID)
    {i : Nat} (hi : i ∈ adj.map s.denseIdx) : i ∈ range s.denseIdxToID.length := by
  obtain ⟨v, hv, rfl⟩ := mem_map.mp hi
  obtain ⟨hlt, -⟩ := List.getElem?_eq_some_iff.mp (s.denseIdx_eq (hadj v hv))
  exact mem_range.mpr hlt

/-- `Normalize`. -/
def normalize (s : CsrForm) : List Nat × CsrForm := (s.denseIdxToID,
    { idToDenseIdx := fun i => if i < s.denseIdxToID.length then some i else none
      denseIdxToID := range s.denseIdxToID.length
      outOffsets := s.outOffsets
      outAdj := s.outAdj.map s.denseIdx
      inOffsets := s.inOffsets
      inAdj := s.inAdj.map s.denseIdx
      idx_iff := fun id i => by
        by_cases hid : id < s.denseIdxToID.length <;> grind
      out_known := fun _ => s.denseIdx_mem_range s.out_known
      in_known := fun _ => s.denseIdx_mem_range s.in_known })

end CsrForm

namespace AdjacencyMapDigraph

section

variable (s : AdjacencyMapDigraph)

/-- The entry of `idIndex` for a node of the graph. -/
def idIndex (node : Nat) : Nat := s.nodes.elems.idxOf node

/-- One direction in normal ids. -/
def normalAdjacent (m : AdjacencyMap) : AdjacencyMap := fun normalID => do
    let originID ← s.nodes.elems[normalID]?
    let originAdjacentBitmap ← m originID
    pure (Bitmap.new.addMany (originAdjacentBitmap.elems.map s.idIndex))

theorem linked_normalAdjacent {m : AdjacencyMap}
    (hm : ∀ u v, m.Linked u v → v ∈ s.nodes) {i j : Nat} :
    (s.normalAdjacent m).Linked i j ↔ ∃ u v, s.nodes.elems[i]? = some u ∧
      s.nodes.elems[j]? = some v ∧ m.Linked u v := by
  have hidx : ∀ {v}, v ∈ s.nodes → s.nodes.elems[s.idIndex v]? = some v :=
    fun hv => getElem?_idxOf hv
  unfold AdjacencyMap.Linked normalAdjacent
  cases hi : s.nodes.elems[i]? with
  | none => simp
  | some u =>
    cases hu : m u with
    | none => simp [hu]
    | some b =>
      have hb : ∀ v ∈ b, v ∈ s.nodes := fun v hv => hm u v ⟨b, hu, hv⟩
      simp only [Option.pure_def, Option.bind_eq_bind, Option.bind_some, hu,
        Option.some.injEq, exists_eq_left', Bitmap.mem_addMany,
        Bitmap.not_mem_new, or_false, mem_map]
      constructor
      · rintro ⟨v, hv, rfl⟩
        exact ⟨u, v, rfl, hidx (hb v hv), b, hu, hv⟩
      · rintro ⟨_, v, rfl, hj, b', hb', hv⟩
        rw [hu] at hb'
        cases hb'
        refine ⟨v, hv, ?_⟩
        obtain ⟨hlt, rfl⟩ := List.getElem?_eq_some_iff.mp hj
        exact s.nodes.nodup.idxOf_getElem j hlt

theorem in_mem (u v : Nat) (h : s.inbound.Linked u v) :
    v ∈ s.nodes := (s.out_mem v u ((s.in_iff v u).mp h)).1

/-- `Normalize`. -/
def normalize : List Nat × AdjacencyMapDigraph := (s.nodes.elems,
    { nodes := ⟨range s.nodes.elems.length, pairwise_lt_range⟩
      inbound := s.normalAdjacent s.inbound
      outbound := s.normalAdjacent s.outbound
      in_iff := fun i j => by
        rw [s.linked_normalAdjacent s.in_mem,
          s.linked_normalAdjacent fun u v h => (s.out_mem u v h).2]
        simp only [s.in_iff]
        tauto
      out_mem := fun i j h => by
        obtain ⟨u, v, hi, hj, -⟩ := (s.linked_normalAdjacent fun u v h => (s.out_mem u v h).2).mp h
        exact ⟨List.mem_range.mpr (List.getElem?_eq_some_iff.mp hi).1,
          List.mem_range.mpr (List.getElem?_eq_some_iff.mp hj).1⟩ })

end

end AdjacencyMapDigraph

end Dawgs.Ref

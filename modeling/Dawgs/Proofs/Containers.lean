import Dawgs.Ref.AdjacencyMap

/-!
# The two digraph containers

A sequence of calls builds a CSR digraph and an adjacency map digraph. What
each container has registered after the calls is what the calls say: the ids
in them are its nodes and the pairs in them its edges. So the containers
agree with each other, and with the calls, on the nodes and on the
neighbours in every direction.

They do not agree on `NumEdges`. The CSR digraph counts its outbound
adjacency, in which every pair stands once; the adjacency map digraph
answers with the number of its nodes.

Normalizing is the same renumbering for both, `Renumbered`: the reverse map
lists the nodes without repeating one, and an edge of the new graph is an
edge of the old one between the nodes that its ends stand for.
-/

namespace Dawgs.Ref

open Lib List AdjacencyMapDigraph

/-! ## What the calls register -/

variable (changes : List Change)

theorem builderOf_nodes (v : Nat) : v ∈ (builderOf changes).denseIdxToID ↔ v ∈ idsOf changes := by
  rw [builderOf, mem_foldl_iff (fun (b : CsrDigraphBuilder) v =>
    v ∈ b.denseIdxToID) Change.nodes fun b change v => ?_]
  · simp [idsOf, CsrDigraphBuilder.new]
  · cases change with
    | addNode node => simpa [Change.nodes] using b.addNode_mem_nodes
    | addEdge start fin => simpa [Change.nodes, or_assoc] using b.addEdge_mem_nodes

theorem builderOf_hasEdge (p : Nat × Nat) :
    (builderOf changes).HasEdge p.1 p.2 ↔ p ∈ pairsOf changes := by
  rw [builderOf, mem_foldl_iff (fun (b : CsrDigraphBuilder)
    (p : Nat × Nat) => b.HasEdge p.1 p.2) Change.edges fun b change p => ?_]
  · simp [pairsOf, CsrDigraphBuilder.not_hasEdge_new]
  · cases change with
    | addNode node => simpa [Change.edges] using b.addNode_hasEdge
    | addEdge start fin => simpa [Change.edges, Prod.ext_iff] using b.addEdge_hasEdge

theorem adjacencyMapOf_nodes (v : Nat) :
    v ∈ (adjacencyMapOf changes).nodes ↔ v ∈ idsOf changes := by
  rw [adjacencyMapOf, mem_foldl_iff (fun (s : AdjacencyMapDigraph) v =>
    v ∈ s.nodes) Change.nodes fun s change v => ?_]
  · simp [idsOf, new]
  · cases change with
    | addNode node => simp [addNode, Change.nodes]
    | addEdge start fin => simp [addEdge, Change.nodes]

theorem adjacencyMapOf_linked (p : Nat × Nat) :
    (adjacencyMapOf changes).outbound.Linked p.1 p.2 ↔ p ∈ pairsOf changes := by
  rw [adjacencyMapOf, mem_foldl_iff (fun (s : AdjacencyMapDigraph)
    (p : Nat × Nat) => s.outbound.Linked p.1 p.2) Change.edges fun s change p => ?_]
  · simp [pairsOf, new, AdjacencyMap.Linked]
  · cases change with
    | addNode node => simp [addNode, Change.edges]
    | addEdge start fin =>
      simp [addEdge, AdjacencyMap.linked_addTo, Change.edges, Prod.ext_iff]

/-! ## Nodes and neighbours -/

namespace AdjacencyMapDigraph

/-- One node next to another in a direction. -/
def Adjacent (s : AdjacencyMapDigraph) (u : Nat) : Direction → Nat → Prop
  | .outbound, v => s.outbound.Linked u v
  | .inbound, v => s.inbound.Linked u v
  | .both, v => s.outbound.Linked u v ∨ s.inbound.Linked u v

theorem mem_eachAdjacentNode (s : AdjacencyMapDigraph) {u v : Nat}
    {d : Direction} : v ∈ s.eachAdjacentNode u d ↔ s.Adjacent u d v := by
  have hlinked : ∀ {m : AdjacencyMap}, m.Linked u v ↔
      v ∈ (m u).elim [] Bitmap.elems := by
    intro m
    unfold AdjacencyMap.Linked
    cases m u with
    | none => simp
    | some b => simp [Bitmap.mem_def]
  cases d with
  | outbound =>
    rw [Adjacent, hlinked, eachAdjacentNode, getAdjacent]
    cases s.outbound u <;> rfl
  | inbound =>
    rw [Adjacent, hlinked, eachAdjacentNode, getAdjacent]
    cases s.inbound u <;> rfl
  | both =>
    rw [Adjacent, hlinked, hlinked, eachAdjacentNode, getAdjacent]
    cases s.outbound u with
    | none => cases s.inbound u <;> simp
    | some b =>
      cases s.inbound u with
      | none => simp
      | some b' => exact Bitmap.mem_or

end AdjacencyMapDigraph

theorem length_eq_card {α : Type} [DecidableEq α] {l : List α} {s : Finset α} (hl : l.Nodup)
    (h : ∀ a, a ∈ l ↔ a ∈ s) : l.length = s.card := by
  rw [← toFinset_card_of_nodup hl]
  congr 1
  ext a
  rw [mem_toFinset, h]

/-- Built from the same calls, the two containers have the same nodes, as
many of them, and for each node and direction the same neighbours: those of
the calls. -/
theorem containers_agree :
    (∀ v, (v ∈ (csrOf changes).eachNode ↔ v ∈ idsOf changes) ∧
      (v ∈ (adjacencyMapOf changes).eachNode ↔ v ∈ idsOf changes)) ∧
    (csrOf changes).numNodes = (idsOf changes).card ∧
    (adjacencyMapOf changes).numNodes = (idsOf changes).card ∧ ∀ node d v,
      (v ∈ (csrOf changes).eachAdjacentNode node d ↔ Neighbour changes node d v) ∧
      (v ∈ (adjacencyMapOf changes).eachAdjacentNode node d ↔ Neighbour changes node d v) := by
  have hout := fun u v => builderOf_hasEdge changes (u, v)
  have hlink := fun u v => adjacencyMapOf_linked changes (u, v)
  refine ⟨fun v => ⟨builderOf_nodes changes v, adjacencyMapOf_nodes changes v⟩,
    length_eq_card (builderOf changes).nodes_nodup (builderOf_nodes changes),
    length_eq_card (adjacencyMapOf changes).nodes.nodup (adjacencyMapOf_nodes changes),
    fun node d v => ⟨?_, ?_⟩⟩
  · cases d with
    | outbound => exact (builderOf changes).mem_csr_outbound.trans (hout node v)
    | inbound => exact (builderOf changes).mem_csr_inbound.trans (hout v node)
    | both =>
      rw [csrOf, (builderOf changes).mem_csr_both, (builderOf changes).mem_csr_outbound,
        (builderOf changes).mem_csr_inbound]
      exact or_congr (hout node v) (hout v node)
  · rw [AdjacencyMapDigraph.mem_eachAdjacentNode]
    cases d with
    | outbound => exact hlink node v
    | inbound => exact ((adjacencyMapOf changes).in_iff v node).trans (hlink v node)
    | both =>
      exact or_congr (hlink node v) (((adjacencyMapOf changes).in_iff v node).trans (hlink v node))

/-! ## Counting edges -/

/-- The edges of a builder in the order of the CSR arrays. -/
def CsrDigraphBuilder.pairs (b : CsrDigraphBuilder) : List (Nat × Nat) :=
  (range b.denseIdxToID.length).flatMap fun i =>
    (row b.outTmp i).elems.map fun j =>
      (b.denseIdxToID[i]?.getD 0, b.denseIdxToID[j]?.getD 0)

namespace CsrDigraphBuilder

variable (b : CsrDigraphBuilder)

theorem idToDenseIdx_getD {i : Nat} (hi : i < b.denseIdxToID.length) :
    b.idToDenseIdx (b.denseIdxToID[i]?.getD 0) = some i := by
  rw [b.idx_iff, getElem?_eq_getElem hi, Option.getD_some]

theorem mem_pairs {p : Nat × Nat} : p ∈ b.pairs ↔ b.HasEdge p.1 p.2 := by
  simp only [pairs, mem_flatMap, mem_range, mem_map, mem_row]
  constructor
  · rintro ⟨i, hi, j, hlink, rfl⟩
    exact ⟨i, j, b.idToDenseIdx_getD hi, b.idToDenseIdx_getD (b.out_lt i j hlink), hlink⟩
  · rintro ⟨i, j, hi, hj, hlink⟩
    refine ⟨i, b.idx_lt hi, j, hlink, Prod.ext ?_ ?_⟩
    · rw [(b.idx_iff _ _).mp hi]
      rfl
    · rw [(b.idx_iff _ _).mp hj]
      rfl

/-- Different indices stand for different ids. -/
theorem nodup_pairs : b.pairs.Nodup := by
  have hinj : ∀ {i j}, i < b.denseIdxToID.length → j < b.denseIdxToID.length →
      b.denseIdxToID[i]?.getD 0 = b.denseIdxToID[j]?.getD 0 → i = j := by
    intro i j hi hj heq
    have hi' := b.idToDenseIdx_getD hi
    rw [heq, b.idToDenseIdx_getD hj] at hi'
    exact (Option.some.inj hi').symm
  refine nodup_flatMap.mpr ⟨fun i _ => ?_, ?_⟩
  · refine (row b.outTmp i).nodup.map_on fun j hj k hk heq => ?_
    exact hinj (b.out_lt i j ((mem_row).mp hj)) (b.out_lt i k ((mem_row).mp hk))
      (Prod.ext_iff.mp heq).2
  · refine nodup_range.imp_of_mem fun hi hj hne p hp hp' => hne ?_
    obtain ⟨_, -, rfl⟩ := mem_map.mp hp
    obtain ⟨_, -, heq⟩ := mem_map.mp hp'
    exact hinj (mem_range.mp hi) (mem_range.mp hj) (Prod.ext_iff.mp heq).1.symm

end CsrDigraphBuilder

theorem csrOf_numEdges : (csrOf changes).numEdges = (pairsOf changes).card := by
  have hlength : (csrOf changes).numEdges = (builderOf changes).pairs.length := by
    simp [CsrDigraph.numEdges, csrOf, CsrDigraphBuilder.csr,
      CsrDigraphBuilder.adjacency, CsrDigraphBuilder.pairs]
  rw [hlength]
  refine length_eq_card (builderOf changes).nodup_pairs fun p => ?_
  rw [CsrDigraphBuilder.mem_pairs, builderOf_hasEdge]

/-- Both containers count the distinct pairs exactly if there happen to be as
many of them as distinct ids. -/
theorem numEdges_iff :
    (csrOf changes).numEdges = (pairsOf changes).card ∧
        (adjacencyMapOf changes).numEdges = (pairsOf changes).card ↔
      (idsOf changes).card = (pairsOf changes).card := by
  have hnodes : (adjacencyMapOf changes).numEdges = (idsOf changes).card :=
    length_eq_card (adjacencyMapOf changes).nodes.nodup (adjacencyMapOf_nodes changes)
  rw [hnodes]
  exact and_iff_right (csrOf_numEdges changes)

/-- One edge between two nodes is counted as two. -/
theorem numEdges_two_nodes :
    (adjacencyMapOf [.addEdge 1 2]).numEdges = 2 ∧ (pairsOf [.addEdge 1 2]).card = 1 := by
  decide

/-! ## Normalizing -/

/-- A graph, given by its nodes and neighbours, with the numbers of its nodes
in place of the nodes. -/
structure Renumbered (nodes : List Nat) (adjacent : Nat → Direction → List Nat)
    (reverse : List Nat) (nodes' : List Nat)
    (adjacent' : Nat → Direction → List Nat) : Prop where
  ids : nodes' = List.range reverse.length
  nodup : reverse.Nodup
  onto : ∀ v, v ∈ reverse ↔ v ∈ nodes
  edges : ∀ i j d, j ∈ adjacent' i d ↔ ∃ u v, reverse[i]? = some u ∧
    reverse[j]? = some v ∧ v ∈ adjacent u d

namespace CsrForm

theorem range_map (offsets adj : List Nat) (f : Nat → Nat) (i : Nat) :
    CsrDigraph.range offsets (adj.map f) i = (CsrDigraph.range offsets adj i).map f := by
  simp [CsrDigraph.range]

theorem known (s : CsrForm) {u v : Nat} {d : Direction}
    (h : v ∈ s.eachAdjacentNode u d) : v ∈ s.denseIdxToID := by
  have hrange : ∀ {offsets adj : List Nat} {i : Nat},
      v ∈ CsrDigraph.range offsets adj i → v ∈ adj := fun h => mem_of_mem_drop (mem_of_mem_take h)
  unfold CsrDigraph.eachAdjacentNode at h
  split at h
  · cases h
  · cases d with
    | outbound => exact s.out_known v (hrange h)
    | inbound => exact s.in_known v (hrange h)
    | both =>
      rcases mem_append.mp h with h | h
      · exact s.out_known v (hrange h)
      · exact s.in_known v (hrange h)

theorem eachAdjacentNode_normalize (s : CsrForm) {i u : Nat}
    (hi : s.denseIdxToID[i]? = some u) (d : Direction) :
    s.normalize.2.eachAdjacentNode i d = (s.eachAdjacentNode u d).map s.denseIdx := by
  have hlt := (List.getElem?_eq_some_iff.mp hi).1
  unfold CsrDigraph.eachAdjacentNode
  rw [(s.idx_iff u i).mpr hi]
  simp only [normalize, if_pos hlt]
  cases d with
  | outbound | inbound => exact range_map ..
  | both =>
    simp only [range_map]
    exact map_append.symm

end CsrForm

/-- Whatever `Build` makes can be normalized. -/
def CsrDigraphBuilder.form (b : CsrDigraphBuilder) : CsrForm where
  toCsrDigraph := b.csr
  idx_iff := b.idx_iff
  out_known := by
    intro v hv
    obtain ⟨i, -, hv⟩ := mem_flatMap.mp hv
    obtain ⟨j, hj, rfl⟩ := mem_map.mp hv
    exact (b.mem_nodes).mpr ⟨j, b.idToDenseIdx_getD (b.out_lt i j ((mem_row).mp hj))⟩
  in_known := by
    intro v hv
    obtain ⟨i, -, hv⟩ := mem_flatMap.mp hv
    obtain ⟨j, hj, rfl⟩ := mem_map.mp hv
    have hlink := (b.in_iff j i).mp ((mem_row).mp hj)
    exact (b.mem_nodes).mpr ⟨j, b.idToDenseIdx_getD (b.linked_lt hlink)⟩

/-- Normalizing renumbers the nodes from zero and keeps the edges, in a CSR
digraph and in an adjacency map digraph. -/
theorem normalize_renumbers :
    (∀ s : CsrForm, Renumbered s.eachNode s.eachAdjacentNode s.normalize.1
      s.normalize.2.eachNode s.normalize.2.eachAdjacentNode) ∧
    ∀ s : AdjacencyMapDigraph, Renumbered s.eachNode s.eachAdjacentNode
      s.normalize.1 s.normalize.2.eachNode s.normalize.2.eachAdjacentNode := by
  constructor
  · intro s
    refine ⟨rfl, CsrDigraphBuilder.nodup_of_index s.idx_iff, fun _ => Iff.rfl, fun i j d => ?_⟩
    show _ ↔ ∃ u v, s.denseIdxToID[i]? = some u ∧ _
    cases hi : s.denseIdxToID[i]? with
    | none =>
      have hge := getElem?_eq_none_iff.mp hi
      have hnone : s.normalize.2.idToDenseIdx i = none := if_neg (Nat.not_lt.mpr hge)
      simp [CsrDigraph.eachAdjacentNode, hnone]
    | some u =>
      rw [s.eachAdjacentNode_normalize hi, mem_map]
      constructor
      · rintro ⟨v, hv, rfl⟩
        exact ⟨u, v, rfl, s.denseIdx_eq (s.known hv), hv⟩
      · rintro ⟨_, v, heq, hj, hv⟩
        obtain rfl := Option.some.inj heq
        refine ⟨v, hv, ?_⟩
        rw [CsrForm.denseIdx, (s.idx_iff v j).mpr hj, Option.getD_some]
  · intro s
    refine ⟨rfl, s.nodes.nodup, fun _ => Iff.rfl, fun i j d => ?_⟩
    have hout := s.linked_normalAdjacent (i := i) (j := j) fun u v h => (s.out_mem u v h).2
    have hin := s.linked_normalAdjacent (i := i) (j := j) s.in_mem
    simp only [AdjacencyMapDigraph.mem_eachAdjacentNode]
    cases d with
    | outbound => exact hout
    | inbound => exact hin
    | both =>
      simp only [AdjacencyMapDigraph.Adjacent, AdjacencyMapDigraph.normalize]
      grind

end Dawgs.Ref

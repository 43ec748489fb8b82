import Dawgs.Lib.Lists
import Dawgs.Ref.Digraph

/-!
# The compressed sparse row digraph and its builder

`NewCSRDigraphBuilder` hands out dense indices to external node ids in the
order it first sees them, keeps one adjacency bitmap of dense indices per
node and direction, and `Build` flattens the bitmaps into one adjacency
array per direction with an offset table.

The builder is a Go struct of two maps and two slices whose agreement no
type states: the two id maps are inverse to each other, every registered
node has both bitmaps, and an edge stands in the bitmap of its start and
in that of its end. Here these are fields, so each operation re-establishes
them where it changes the maps and `build` can rely on them.

A Go map is a function into `Option`; nothing in this file asks for the
size of one or iterates over one.
-/

namespace Dawgs.Ref

open List Function

/-- `container.AdjacencyMap`. -/
abbrev AdjacencyMap := Nat → Option Bitmap

variable {i id k j : Nat}

namespace AdjacencyMap

/-- `j` stands in the bitmap of `i`. -/
def Linked (m : AdjacencyMap) (i j : Nat) : Prop := ∃ b, m i = some b ∧ j ∈ b

variable {m : AdjacencyMap}

theorem linked_none : ∀ i j, Linked (fun _ => none) j i ↔ Linked (fun _ => none) i j := by
  simp [Linked]

/-- An empty bitmap for a key without one links nothing. -/
theorem linked_update_new (hk : m k = none) :
    Linked (update m k (some Bitmap.new)) i j ↔ Linked m i j := by
  unfold Linked
  by_cases hi : i = k
  · subst hi
    simp [hk]
  · simp [update_of_ne hi]

/-- The bitmap of a key with one value more, as both branches of `AddEdge`
leave it. -/
def addTo (m : AdjacencyMap) (k v : Nat) : AdjacencyMap :=
  match m k with
  | some existingBitmap => update m k (some (existingBitmap.add v))
  | none => update m k (some (Bitmap.new.add v))

theorem linked_addTo {v : Nat} : Linked (m.addTo k v) i j ↔ (i = k ∧ j = v) ∨ Linked m i j := by
  unfold Linked addTo
  by_cases hi : i = k
  · subst hi
    cases hm : m i with
    | none | some b => simp
  · cases hm : m k with
    | none | some b => simp [hi]

theorem isSome_addTo {v : Nat} : (m.addTo k v i).isSome ↔ i = k ∨ (m i).isSome := by
  unfold addTo
  by_cases hi : i = k
  · subst hi
    cases hm : m i with
    | none | some b => simp
  · cases hm : m k with
    | none | some b => simp [hi]

end AdjacencyMap

/-- `CSRDigraphBuilder`. -/
structure CsrDigraphBuilder where
  idToDenseIdx : Nat → Option Nat
  denseIdxToID : List Nat
  outTmp : AdjacencyMap
  inTmp : AdjacencyMap
  idx_iff : ∀ id i, idToDenseIdx id = some i ↔ denseIdxToID[i]? = some id
  out_isSome : ∀ i, (outTmp i).isSome ↔ i < denseIdxToID.length
  in_isSome : ∀ i, (inTmp i).isSome ↔ i < denseIdxToID.length
  out_lt : ∀ i j, outTmp.Linked i j → j < denseIdxToID.length
  in_iff : ∀ i j, inTmp.Linked j i ↔ outTmp.Linked i j

namespace CsrDigraphBuilder

/-- `NewCSRDigraphBuilder`. -/
def new : CsrDigraphBuilder where
  idToDenseIdx := fun _ => none
  denseIdxToID := []
  outTmp := fun _ => none
  inTmp := fun _ => none
  idx_iff := by simp
  out_isSome := by simp
  in_isSome := by simp
  out_lt := by simp [AdjacencyMap.Linked]
  in_iff := AdjacencyMap.linked_none

variable (s : CsrDigraphBuilder)

/-- Dense indices already handed out stay below the next one. -/
theorem idx_lt (h : s.idToDenseIdx id = some i) : i < s.denseIdxToID.length :=
  (List.getElem?_eq_some_iff.mp ((s.idx_iff id i).mp h)).1

theorem out_next : s.outTmp s.denseIdxToID.length = none := by
  have h := s.out_isSome s.denseIdxToID.length
  simpa using h

theorem in_next : s.inTmp s.denseIdxToID.length = none := by
  have h := s.in_isSome s.denseIdxToID.length
  simpa using h

/-- The branch of `ensureNode` for an id not seen before. -/
def register (id : Nat) (hnew : s.idToDenseIdx id = none) : CsrDigraphBuilder where
  idToDenseIdx := update s.idToDenseIdx id (some s.denseIdxToID.length)
  denseIdxToID := s.denseIdxToID ++ [id]
  -- Allocate empty adjacency sets for the builder.
  outTmp := update s.outTmp s.denseIdxToID.length (some Bitmap.new)
  inTmp := update s.inTmp s.denseIdxToID.length (some Bitmap.new)
  idx_iff := by
    intro id' i
    have hold := s.idx_iff id' i
    rw [getElem?_append]
    by_cases hid : id' = id
    · subst hid
      rw [update_self]
      split
      next hlt =>
        rw [← hold, hnew]
        simp only [Option.some.injEq, reduceCtorEq, iff_false]
        omega
      next hge =>
        simp only [Option.some.injEq]
        rw [getElem?_singleton]
        split <;> simp <;> omega
    · rw [update_of_ne hid]
      split
      · exact hold
      next hge =>
        have hnone : s.denseIdxToID[i]? = none := getElem?_eq_none (by omega)
        rw [hold, hnone, getElem?_singleton]
        split <;> simp [Ne.symm hid]
  out_isSome := by
    intro i
    rw [length_append, length_singleton]
    by_cases hi : i = s.denseIdxToID.length
    · subst hi; simp
    · rw [update_of_ne hi, s.out_isSome]; omega
  in_isSome := by
    intro i
    rw [length_append, length_singleton]
    by_cases hi : i = s.denseIdxToID.length
    · subst hi; simp
    · rw [update_of_ne hi, s.in_isSome]; omega
  out_lt := by
    intro i j h
    rw [AdjacencyMap.linked_update_new s.out_next] at h
    have := s.out_lt i j h
    rw [length_append]
    omega
  in_iff := by
    intro i j
    rw [AdjacencyMap.linked_update_new s.out_next, AdjacencyMap.linked_update_new s.in_next]
    exact s.in_iff i j

/-- `ensureNode`: the builder with the id registered, and its index. -/
def ensureNode (id : Nat) : CsrDigraphBuilder × Nat :=
  match h : s.idToDenseIdx id with
  | some idx => (s, idx)
  | none => (s.register id h, s.denseIdxToID.length)

theorem ensureNode_of_some {s : CsrDigraphBuilder}
    (h : s.idToDenseIdx id = some i) : s.ensureNode id = (s, i) := by
  unfold ensureNode
  split
  next h' => rw [h] at h'; cases h'; rfl
  next h' => rw [h] at h'; cases h'

theorem ensureNode_of_none {s : CsrDigraphBuilder} (h : s.idToDenseIdx id = none) :
    s.ensureNode id = (s.register id h, s.denseIdxToID.length) := by
  unfold ensureNode
  split
  next h' => rw [h] at h'; cases h'
  · rfl

/-- `AddNode`. -/
def addNode (node : Nat) : CsrDigraphBuilder := (s.ensureNode node).1

/-- The two bitmap updates of `AddEdge`, at indices that are handed out. -/
def link (startIdx endIdx : Nat) (hs : startIdx < s.denseIdxToID.length)
    (he : endIdx < s.denseIdxToID.length) : CsrDigraphBuilder where
  idToDenseIdx := s.idToDenseIdx
  denseIdxToID := s.denseIdxToID
  -- Outgoing edge
  outTmp := s.outTmp.addTo startIdx endIdx
  -- Incoming edge
  inTmp := s.inTmp.addTo endIdx startIdx
  idx_iff := s.idx_iff
  out_isSome := by
    intro i
    rw [AdjacencyMap.isSome_addTo, s.out_isSome]
    constructor
    · rintro (rfl | h) <;> assumption
    · exact .inr
  in_isSome := by
    intro i
    rw [AdjacencyMap.isSome_addTo, s.in_isSome]
    constructor
    · rintro (rfl | h) <;> assumption
    · exact .inr
  out_lt := by
    intro i j h
    rcases (AdjacencyMap.linked_addTo).mp h with ⟨_, rfl⟩ | h
    · exact he
    · exact s.out_lt i j h
  in_iff := by
    intro i j
    rw [AdjacencyMap.linked_addTo, AdjacencyMap.linked_addTo, s.in_iff]
    tauto

theorem ensureNode_idx (id : Nat) :
    (s.ensureNode id).1.idToDenseIdx id = some (s.ensureNode id).2 := by
  cases h : s.idToDenseIdx id with
  | some i => rw [ensureNode_of_some h]; exact h
  | none => rw [ensureNode_of_none h]; simp [register]

theorem ensureNode_keeps (id : Nat) {id' : Nat} (h : s.idToDenseIdx id' = some i) :
    (s.ensureNode id).1.idToDenseIdx id' = some i := by
  cases hid : s.idToDenseIdx id with
  | some k => rw [ensureNode_of_some hid]; exact h
  | none =>
    have hne : id' ≠ id := fun heq => by subst heq; rw [hid] at h; cases h
    rw [ensureNode_of_none hid]
    simp only [register]
    rw [update_of_ne hne]
    exact h

/-- `AddEdge`. -/
def addEdge (start fin : Nat) : CsrDigraphBuilder :=
  let ensured := s.ensureNode start
  let both := ensured.1.ensureNode fin
  both.1.link ensured.2 both.2 (both.1.idx_lt (ensureNode_keeps _ _ (s.ensureNode_idx start)))
    (both.1.idx_lt (ensureNode_idx _ fin))

end CsrDigraphBuilder

/-- `csrDigraph`: the offset tables have one entry more than there are
nodes, and a node's neighbours lie between its own offset and the next. -/
structure CsrDigraph where
  idToDenseIdx : Nat → Option Nat
  denseIdxToID : List Nat
  outOffsets : List Nat
  outAdj : List Nat
  inOffsets : List Nat
  inAdj : List Nat

namespace CsrDigraph

/-- The loop `for next, end := offsets[idx], offsets[idx+1]; next < end`. -/
def range (offsets adj : List Nat) (idx : Nat) : List Nat :=
  (adj.drop (offsets[idx]?.getD 0)).take (offsets[idx + 1]?.getD 0 - offsets[idx]?.getD 0)

/-- `EachNode`. -/
def eachNode (s : CsrDigraph) : List Nat := s.denseIdxToID

/-- `EachAdjacentNode`. -/
def eachAdjacentNode (s : CsrDigraph) (node : Nat) (d : Direction) : List Nat :=
  match s.idToDenseIdx node with
  | none => []
  | some idx =>
    match d with
    | .outbound => range s.outOffsets s.outAdj idx
    | .inbound => range s.inOffsets s.inAdj idx
    | .both => range s.outOffsets s.outAdj idx ++ range s.inOffsets s.inAdj idx

end CsrDigraph

namespace CsrDigraphBuilder

variable (m : AdjacencyMap)

/-- The bitmap of a dense index; reading a Go map at a missing key gives
the zero value, and `Build` reads registered keys only. -/
def row (i : Nat) : Bitmap := (m i).getD Bitmap.new

/-- One direction's offset table: the running totals of the cardinalities,
from zero. -/
def offsets (numNodes : Nat) : List Nat :=
  ((range numNodes).map fun i => (row m i).cardinality).scanl (· + ·) 0

/-- One direction's adjacency array. The fill runs over the nodes in order
and each node's slots start where the last node's ended, so the array is
the rows one after another, translated back to external ids. -/
def adjacency (denseIdxToID : List Nat) : List Nat :=
  (range denseIdxToID.length).flatMap fun i =>
    (row m i).elems.map fun adjacentDenseIndex =>
      denseIdxToID[adjacentDenseIndex]?.getD 0

variable (s : CsrDigraphBuilder)

/-- The record `Build` returns. -/
def csr : CsrDigraph where
  idToDenseIdx := s.idToDenseIdx
  denseIdxToID := s.denseIdxToID
  outOffsets := offsets s.outTmp s.denseIdxToID.length
  outAdj := adjacency s.outTmp s.denseIdxToID
  inOffsets := offsets s.inTmp s.denseIdxToID.length
  inAdj := adjacency s.inTmp s.denseIdxToID

/-- The rows of one direction, translated back to external ids. -/
def rows (denseIdxToID : List Nat) : List (List Nat) :=
  (range denseIdxToID.length).map fun i =>
    (row m i).elems.map fun j => denseIdxToID[j]?.getD 0

theorem offsets_eq (denseIdxToID : List Nat) :
    offsets m denseIdxToID.length = Lib.offsetTable (rows m denseIdxToID) := by
  simp [offsets, Lib.offsetTable, rows, Bitmap.cardinality, Function.comp_def]

theorem adjacency_eq (denseIdxToID : List Nat) :
    adjacency m denseIdxToID = (rows m denseIdxToID).flatten := by
  rfl

variable {m : AdjacencyMap} {v u : Nat}

/-- Reading an index's range gives its own row back. -/
theorem range_csr {denseIdxToID : List Nat} (hi : i < denseIdxToID.length) :
    CsrDigraph.range (offsets m denseIdxToID.length) (adjacency m denseIdxToID) i =
      (row m i).elems.map fun j => denseIdxToID[j]?.getD 0 := by
  have hlen : i < (rows m denseIdxToID).length := by simpa [rows] using hi
  rw [CsrDigraph.range, offsets_eq, adjacency_eq, Lib.drop_take_offsetTable hlen]
  simp [rows]

/-- The edges registered so far, in external ids. -/
def HasEdge (u v : Nat) : Prop :=
  ∃ i j, s.idToDenseIdx u = some i ∧ s.idToDenseIdx v = some j ∧ s.outTmp.Linked i j

theorem linked_lt (h : s.outTmp.Linked i j) : i < s.denseIdxToID.length := by
  obtain ⟨b, hb, _⟩ := h
  exact (s.out_isSome i).mp (by rw [hb]; rfl)

theorem mem_row : j ∈ (row m i).elems ↔ m.Linked i j := by
  unfold row AdjacencyMap.Linked
  cases m i with
  | none => simp [Bitmap.new]
  | some b => simp [Bitmap.mem_def]

/-- A row translated to external ids lists the ids of its members. -/
theorem mem_translated (hm : ∀ j, m.Linked i j → j < s.denseIdxToID.length) :
    v ∈ ((row m i).elems.map fun j => s.denseIdxToID[j]?.getD 0) ↔
      ∃ j, s.idToDenseIdx v = some j ∧ m.Linked i j := by
  rw [mem_map]
  constructor
  · rintro ⟨j, hj, rfl⟩
    have hlink := (mem_row).mp hj
    refine ⟨j, ?_, hlink⟩
    rw [s.idx_iff, getElem?_eq_getElem (hm j hlink)]
    rfl
  · rintro ⟨j, hv, hlink⟩
    refine ⟨j, (mem_row).mpr hlink, ?_⟩
    rw [(s.idx_iff v j).mp hv]
    rfl

theorem mem_csr_outbound : v ∈ s.csr.eachAdjacentNode u .outbound ↔ s.HasEdge u v := by
  unfold CsrDigraph.eachAdjacentNode HasEdge
  simp only [csr]
  cases hu : s.idToDenseIdx u with
  | none => simp
  | some i =>
    simp only [range_csr (s.idx_lt hu)]
    rw [s.mem_translated (fun j => s.out_lt i j)]
    simp

theorem mem_csr_inbound : u ∈ s.csr.eachAdjacentNode v .inbound ↔ s.HasEdge u v := by
  unfold CsrDigraph.eachAdjacentNode HasEdge
  simp only [csr]
  cases hv : s.idToDenseIdx v with
  | none => simp
  | some j =>
    have hin : ∀ i, s.inTmp.Linked j i → i < s.denseIdxToID.length :=
      fun i hi => s.linked_lt ((s.in_iff i j).mp hi)
    simp only [range_csr (s.idx_lt hv)]
    rw [s.mem_translated hin]
    simp [s.in_iff]

theorem mem_csr_both :
    v ∈ s.csr.eachAdjacentNode u .both ↔ v ∈ s.csr.eachAdjacentNode u .outbound ∨
        v ∈ s.csr.eachAdjacentNode u .inbound := by
  unfold CsrDigraph.eachAdjacentNode
  cases s.csr.idToDenseIdx u with
  | none | some i => simp

/-- A list with an index has no entry twice. -/
theorem nodup_of_index {index : Nat → Option Nat} {l : List Nat}
    (h : ∀ v i, index v = some i ↔ l[i]? = some v) : l.Nodup := by
  rw [nodup_iff_getElem?_ne_getElem?]
  intro i j hij hj heq
  have hi := getElem?_eq_getElem (Nat.lt_trans hij hj)
  have hi' := (h _ i).mpr hi
  rw [(h _ j).mpr (heq ▸ hi)] at hi'
  exact Nat.ne_of_gt hij (Option.some.inj hi')

theorem mem_nodes : u ∈ s.denseIdxToID ↔ ∃ i, s.idToDenseIdx u = some i := by
  rw [mem_iff_getElem?]
  simp only [s.idx_iff]

theorem nodes_nodup : s.denseIdxToID.Nodup := nodup_of_index s.idx_iff

/-- `Build`, with what makes the record a directed graph. -/
def build : DirectedGraph where
  eachNode := s.csr.eachNode
  eachAdjacentNode := s.csr.eachAdjacentNode
  nodup := s.nodes_nodup
  mem_of_adjacent := by
    intro u v h
    obtain ⟨i, j, hu, hv, _⟩ := (s.mem_csr_outbound).mp h
    exact ⟨(s.mem_nodes).mpr ⟨i, hu⟩, (s.mem_nodes).mpr ⟨j, hv⟩⟩
  inbound_iff := by
    intro u v
    rw [s.mem_csr_inbound, s.mem_csr_outbound]
  both_iff := s.mem_csr_both

theorem build_step : s.build.Step .outbound u v ↔ s.HasEdge u v := s.mem_csr_outbound

/-! What the three operations do to the nodes and edges registered. -/

theorem not_hasEdge_new : ¬ new.HasEdge u v := by
  simp [HasEdge, new]

theorem ensureNode_mem_nodes :
    u ∈ (s.ensureNode id).1.denseIdxToID ↔ u = id ∨ u ∈ s.denseIdxToID := by
  cases h : s.idToDenseIdx id with
  | some k =>
    rw [ensureNode_of_some h]
    constructor
    · exact .inr
    · rintro (rfl | hu)
      · exact (s.mem_nodes).mpr ⟨_, h⟩
      · exact hu
  | none => rw [ensureNode_of_none h]; simp [register, or_comm]

/-- Only a registered id has a dense index below the next one. -/
theorem register_idx_of_lt {s : CsrDigraphBuilder} {w : Nat}
    (hnew : s.idToDenseIdx id = none) (hk : k < s.denseIdxToID.length)
    (hw : (s.register id hnew).idToDenseIdx w = some k) : s.idToDenseIdx w = some k := by
  simp only [register] at hw
  by_cases hwid : w = id
  · subst hwid
    rw [update_self] at hw
    cases hw
    exact absurd hk (Nat.lt_irrefl _)
  · rwa [update_of_ne hwid] at hw

/-- Registering a node adds no edge. -/
theorem ensureNode_hasEdge : (s.ensureNode id).1.HasEdge u v ↔ s.HasEdge u v := by
  cases h : s.idToDenseIdx id with
  | some k => rw [ensureNode_of_some h]
  | none =>
    have hkeep : ∀ {w k}, s.idToDenseIdx w = some k →
        (s.ensureNode id).1.idToDenseIdx w = some k := fun hw => s.ensureNode_keeps id hw
    rw [ensureNode_of_none h] at hkeep ⊢
    constructor
    · rintro ⟨i, j, hu, hv, hlink⟩
      have hlink' := (AdjacencyMap.linked_update_new s.out_next).mp hlink
      exact ⟨i, j, register_idx_of_lt h (s.linked_lt hlink') hu,
        register_idx_of_lt h (s.out_lt i j hlink') hv, hlink'⟩
    · rintro ⟨i, j, hu, hv, hlink⟩
      exact ⟨i, j, hkeep hu, hkeep hv, (AdjacencyMap.linked_update_new s.out_next).mpr hlink⟩

theorem addNode_mem_nodes : u ∈ (s.addNode id).denseIdxToID ↔ u = id ∨ u ∈ s.denseIdxToID :=
  s.ensureNode_mem_nodes

theorem addNode_hasEdge : (s.addNode id).HasEdge u v ↔ s.HasEdge u v := s.ensureNode_hasEdge

theorem addEdge_mem_nodes {a b : Nat} :
    u ∈ (s.addEdge a b).denseIdxToID ↔ u = a ∨ u = b ∨ u ∈ s.denseIdxToID := by
  simp only [addEdge, link]
  rw [ensureNode_mem_nodes, ensureNode_mem_nodes]
  tauto

/-- `AddEdge` adds its own edge and no other. -/
theorem addEdge_hasEdge {a b : Nat} :
    (s.addEdge a b).HasEdge u v ↔ (u = a ∧ v = b) ∨ s.HasEdge u v := by
  have hold : ((s.ensureNode a).1.ensureNode b).1.HasEdge u v ↔ s.HasEdge u v := by
    rw [ensureNode_hasEdge, ensureNode_hasEdge]
  rw [← hold]
  have ha := ensureNode_keeps (s.ensureNode a).1 b (s.ensureNode_idx a)
  have hb := ensureNode_idx (s.ensureNode a).1 b
  -- Ids with the same dense index are the same id.
  have inj : ∀ {w w' k : Nat}, ((s.ensureNode a).1.ensureNode b).1.idToDenseIdx w = some k →
      ((s.ensureNode a).1.ensureNode b).1.idToDenseIdx w' = some k → w = w' := by
    intro w w' k hw hw'
    rw [idx_iff] at hw hw'
    rw [hw] at hw'
    exact Option.some.inj hw'
  constructor
  · rintro ⟨i, j, hu, hv, hlink⟩
    rcases (AdjacencyMap.linked_addTo).mp hlink with ⟨rfl, rfl⟩ | hlink
    · exact .inl ⟨inj hu ha, inj hv hb⟩
    · exact .inr ⟨i, j, hu, hv, hlink⟩
  · rintro (⟨rfl, rfl⟩ | ⟨i, j, hu, hv, hlink⟩)
    · exact ⟨_, _, ha, hb, (AdjacencyMap.linked_addTo).mpr (.inl ⟨rfl, rfl⟩)⟩
    · exact ⟨i, j, hu, hv, (AdjacencyMap.linked_addTo).mpr (.inr hlink)⟩

end CsrDigraphBuilder

end Dawgs.Ref

import Dawgs.Ref.Triplestore

/-!
# What a triplestore shows of a node

The two indices of a store find the edges at a node, in the order they were
added (`eachAdjacentEdge_eq`), and a projection drops from them what its two
sets hide. For a chain of projections the sets are the unions of the sets of
the chain, and no bitmap that was there before is written to.

The neighbours are another matter. A store adds both ends of an edge for
`DirectionBoth`, so with any edge at all the node is its own neighbour; a
projection picks the start of the edge for `DirectionBoth`, and it does not
look at the edges the store has deleted. `View.Fits` says when nothing comes
of it.
-/

namespace Dawgs.Ref.Triplestore

open Lib List

/-- An edge at a node, in a direction. -/
def incident (node : Nat) (d : Direction) (e : Edge) : Bool :=
  match d with
  | .outbound => e.start == node
  | .inbound => e.fin == node
  | .both => e.start == node || e.fin == node

/-- The other end of an edge at a node. -/
def far (node : Nat) (d : Direction) (e : Edge) : Nat :=
  match d with
  | .outbound => e.fin
  | .inbound => e.start
  | .both => if e.start = node then e.fin else e.start

variable {d : Direction}

theorem Store.mem_adjacentEdgeIndices (s : Store) {node i : Nat}
    : i ∈ s.adjacentEdgeIndices node d ↔
      i < s.edges.length ∧ incident node d (s.edge i) = true := by
  have hor : ∀ {b : Bitmap} {m : AdjacencyMap},
      i ∈ orIndex b (m node) ↔ i ∈ b ∨ m.Linked node i := by
    intro b m
    unfold AdjacencyMap.Linked
    cases m node with
    | none | some index => simp [orIndex]
  have hedge : ∀ {f : Edge → Nat}, (∃ e, s.edges[i]? = some e ∧ f e = node) ↔
      i < s.edges.length ∧ f (s.edge i) = node := by
    unfold edge
    by_cases hi : i < s.edges.length
    · simp [hi]
    · simp [hi]
  cases d <;>
    simp only [adjacentEdgeIndices, hor, Bitmap.not_mem_new, false_or,
      s.start_iff, s.end_iff, hedge, incident, Bool.or_eq_true, beq_iff_eq, and_or_left]

/-- The edges at a node come in the order they were added. -/
theorem Store.eachAdjacentEdge_eq (s : Store) (node : Nat) (d : Direction) :
    s.eachAdjacentEdge node d = s.edges.filter (incident node d) := by
  have hedges : (List.range s.edges.length).map s.edge = s.edges :=
    ext_getElem (by simp) fun i _ hi => by simp [edge, hi]
  have helems : (s.adjacentEdgeIndices node d).elems =
      (List.range s.edges.length).filter (incident node d ∘ s.edge) := by
    refine (s.adjacentEdgeIndices node d).asc.eq_of_mem_iff (pairwise_lt_range.filter _) fun i => ?_
    rw [mem_filter, mem_range]
    exact s.mem_adjacentEdgeIndices
  rw [eachAdjacentEdge, helems, ← filter_map, hedges]

/-! ## Neighbours -/

namespace View

def origin : View → Store
  | .store s => s
  | .projection p => p.origin

/-- The edges that are not hidden. -/
def edges : View → List Edge
  | .store s => s.edges
  | .projection p => p.eachEdge

/-- Neither hidden nor deleted. -/
def Live (t : View) (e : Edge) : Prop := e ∈ t.edges ∧ ¬ e.id ∈ t.origin.deletedEdges

theorem eachAdjacentEdge_eq (t : View) (node : Nat) (d : Direction) :
    t.eachAdjacentEdge node d = t.edges.filter (incident node d) := by
  cases t with
  | store s => exact s.eachAdjacentEdge_eq node d
  | projection p =>
    show (p.origin.eachAdjacentEdge node d).filter p.sees = _
    rw [p.origin.eachAdjacentEdge_eq]
    exact filter_comm ..

/-- The neighbours are the other ends of the live edges. -/
def AdjacentRight (t : View) (node : Nat) (d : Direction) : Prop :=
  ∀ x, x ∈ t.eachAdjacentNode node d ↔ ∃ e, t.Live e ∧ incident node d e = true ∧ far node d e = x

/-- For a store and `DirectionBoth`, the node has a live self loop or no live
edge. For a projection, each edge the store has deleted stands beside a live
one with the same ends; and for `DirectionBoth`, an edge that leaves the node
needs a self loop, one that enters it a live edge between the same two nodes,
and a live one that leaves it an edge back. -/
def Fits : View → Nat → Direction → Prop
  | .store s, node, .both =>
    (∃ e, (store s).Live e ∧ e.start = node ∧ e.fin = node) ∨
      ∀ e, (store s).Live e → e.start ≠ node ∧ e.fin ≠ node
  | .store _, _, _ => True
  | .projection p, node, .both =>
    (∀ e ∈ p.eachEdge, e.start = node →
      ∃ e', (projection p).Live e' ∧ e'.start = node ∧ e'.fin = node) ∧
    (∀ e ∈ p.eachEdge, e.fin = node → ∃ e', (projection p).Live e' ∧
      (e'.start = e.start ∧ e'.fin = node ∨ e'.start = node ∧ e'.fin = e.start)) ∧
    ∀ e, (projection p).Live e → e.start = node →
      ∃ e' ∈ p.eachEdge, e'.start = e.fin ∧ e'.fin = node
  | .projection p, node, d =>
    ∀ e ∈ p.eachEdge, incident node d e = true →
      ∃ e', (projection p).Live e' ∧ e'.start = e.start ∧ e'.fin = e.fin

theorem mem_store (s : Store) {node x : Nat} :
    x ∈ (store s).eachAdjacentNode node d ↔ ∃ e, (store s).Live e ∧
      incident node d e = true ∧ x ∈ Store.ends e d := by
  have hfold := mem_foldl_iff (fun (b : Bitmap) x => x ∈ b)
    (fun i => if s.deletedEdges.contains (s.edge i).id then []
      else Store.ends (s.edge i) d) (f := fun nodes i =>
        if s.deletedEdges.contains (s.edge i).id then nodes
        else nodes.addMany (Store.ends (s.edge i) d))
    (fun b i x => by split <;> simp) (s.adjacentEdgeIndices node d).elems
    Bitmap.new x
  have hlist : x ∈ (s.eachAdjacentEdge node d).flatMap (fun e =>
      if s.deletedEdges.contains e.id then [] else Store.ends e d) ↔
      x ∈ (store s).eachAdjacentNode node d := by
    rw [Store.eachAdjacentEdge, flatMap_map]
    exact (or_iff_left Bitmap.not_mem_new).symm.trans hfold.symm
  rw [← hlist, s.eachAdjacentEdge_eq]
  simp only [Live, edges, origin]
  grind [Bitmap.contains_eq]

theorem mem_projection (p : Projection) {node x : Nat} :
    x ∈ (projection p).eachAdjacentNode node d ↔
      ∃ e ∈ p.eachEdge, incident node d e = true ∧ e.pick d = x := by
  show x ∈ ((projection p).eachAdjacentEdge node d).map _ ↔ _
  rw [eachAdjacentEdge_eq]
  simp only [mem_map, mem_filter, edges, and_assoc]

/-- `EachAdjacentNode` gives the other ends of the live edges exactly where
the edges at the node fit. -/
theorem adjacentRight_iff (t : View) (node : Nat) (d : Direction) :
    t.AdjacentRight node d ↔ t.Fits node d := by
  unfold AdjacentRight
  cases t with
  | store s =>
    simp only [mem_store]
    cases d with
    | outbound | inbound =>
      refine iff_of_true (fun x => ?_) trivial
      simp only [Store.ends, far, mem_singleton, @eq_comm _ x]
    | both =>
      simp only [Store.ends, far, Fits, incident]
      constructor
      · intro h
        by_cases hnone : ∀ e, (store s).Live e → e.start ≠ node ∧ e.fin ≠ node
        · exact .inr hnone
        · -- The node is listed, so it is the other end of an edge.
          obtain ⟨e, hnot⟩ := not_forall.mp hnone
          obtain ⟨he, hends⟩ := Classical.not_imp.mp hnot
          have hnode := (h node).mp ⟨e, he, by grind, by grind⟩
          grind
      · rintro (hloop | hnone) x
        · grind
        · grind
  | projection p =>
    simp only [mem_projection]
    have hshown : ∀ e, (projection p).Live e → e ∈ p.eachEdge := fun _ h => h.1
    constructor
    · intro h
      have hpick : ∀ e ∈ p.eachEdge, incident node d e = true →
          ∃ e', (projection p).Live e' ∧ incident node d e' = true ∧
            far node d e' = e.pick d := fun e he hd => (h _).mp ⟨e, he, hd, rfl⟩
      have hfar : ∀ e, (projection p).Live e → incident node d e = true →
          ∃ e' ∈ p.eachEdge, incident node d e' = true ∧ e'.pick d = far node d e :=
        fun e he hd => (h _).mpr ⟨e, he, hd, rfl⟩
      cases d <;> simp only [Fits, incident, far, Edge.pick] at * <;> grind
    · intro h x
      cases d <;> simp only [Fits, incident, far, Edge.pick] at * <;> grind

/-- One edge, from 1 to 2: the store lists 1 next to itself. -/
theorem store_lists_node :
    (store (Store.new.addTriple 10 1 2)).eachAdjacentNode 1 .both = [1, 2] ∧
      ¬ (store (Store.new.addTriple 10 1 2)).AdjacentRight 1 .both := by
  refine ⟨by decide, fun h => ?_⟩
  obtain ⟨e, ⟨he, -⟩, -, hfar⟩ := (h 1).mp (by decide)
  obtain rfl := mem_singleton.mp he
  cases hfar

end View

/-! ## Chains of projections -/

/-- The union of one set of each link of a chain with a first one. -/
def union {m : Memory} (set : DeletedSets → Nat) (first : Bitmap)
    (chain : List (SetsIn m)) : Bitmap :=
  chain.foldl (fun b sets => b.or (m.read (set sets.1))) first

theorem mem_union {m : Memory} {set : DeletedSets → Nat} {first : Bitmap}
    {chain : List (SetsIn m)} {x : Nat} :
    x ∈ union set first chain ↔ x ∈ first ∨ ∃ sets ∈ chain, x ∈ m.read (set sets.1) := by
  rw [union, mem_foldl_iff (fun (b : Bitmap) x => x ∈ b)
    (fun sets : SetsIn m => (m.read (set sets.1)).elems)
    (fun b sets x => by rw [Bitmap.mem_or, or_comm]; rfl)]
  simp only [mem_flatMap]
  exact or_comm

/-- One projection writes to its two clones only. -/
theorem projection_spec (m : Memory) (s sets : SetsIn m) : let r := s.1.projection m sets.1
    (∀ a < m.length, r.1.read a = m.read a) ∧
    (r.2.deletedNodes < r.1.length ∧ r.2.deletedEdges < r.1.length) ∧
    r.1.read r.2.deletedNodes = (m.read s.1.deletedNodes).or (m.read sets.1.deletedNodes) ∧
    r.1.read r.2.deletedEdges = (m.read s.1.deletedEdges).or (m.read sets.1.deletedEdges) := by
  refine ⟨fun a ha => ?_, ?_, ?_, ?_⟩ <;>
    simp [DeletedSets.projection, Memory.or, Memory.read] <;> grind

theorem projections_spec {m₀ : Memory} (chain : List (SetsIn m₀)) (m : Memory)
    (hold : m₀.length ≤ m.length ∧ ∀ a < m₀.length, m.read a = m₀.read a) (s : SetsIn m) :
    let r := s.1.projections m (chain.map Subtype.val)
    (∀ a < m₀.length, r.1.read a = m₀.read a) ∧
    r.1.read r.2.deletedNodes = union DeletedSets.deletedNodes (m.read s.1.deletedNodes) chain ∧
    r.1.read r.2.deletedEdges = union DeletedSets.deletedEdges (m.read s.1.deletedEdges) chain := by
  induction chain generalizing m with
  | nil => exact ⟨hold.2, rfl, rfl⟩
  | cons sets chain ih =>
    have hlt := sets.2
    obtain ⟨hread, hin, hnodes, hedges⟩ := projection_spec m s ⟨sets.1, by omega, by omega⟩
    obtain ⟨hold', hnodes', hedges'⟩ := ih (s.1.projection m sets.1).1
      ⟨by simp [DeletedSets.projection, Memory.or]; omega, fun a ha => by
        rw [hread a (by omega), hold.2 a ha]⟩ ⟨_, hin⟩
    rw [hnodes, hold.2 _ hlt.1] at hnodes'
    rw [hedges, hold.2 _ hlt.2] at hedges'
    exact ⟨hold', hnodes', hedges'⟩

/-- A chain of projections is the projection with the unions of the sets, its
accessors see the edges that no link hides, and no bitmap that was there
before, those of the store among them, has changed. -/
theorem projections_eq (origin : Store) (m : Memory) (first : SetsIn m) (chain : List (SetsIn m)) :
    let r := first.1.projections m (chain.map Subtype.val)
    let p := r.2.load r.1 origin
    let shown := origin.edges.filter fun e =>
      decide (∀ sets ∈ first :: chain, ¬ e.id ∈ m.read sets.1.deletedEdges ∧
        ¬ e.start ∈ m.read sets.1.deletedNodes ∧ ¬ e.fin ∈ m.read sets.1.deletedNodes)
    (∀ a < m.length, r.1.read a = m.read a) ∧
    p = ⟨origin, union DeletedSets.deletedNodes (m.read first.1.deletedNodes) chain,
      union DeletedSets.deletedEdges (m.read first.1.deletedEdges) chain⟩ ∧
    p.eachEdge = shown ∧ p.numEdges = shown.length ∧
    ∀ node d, p.eachAdjacentEdge node d = shown.filter (incident node d) := by
  intro r p shown
  obtain ⟨hold, hnodes, hedges⟩ := projections_spec chain m ⟨Nat.le_refl _, fun _ _ => rfl⟩ first
  have hp := congrArg₂ (Projection.mk origin) hnodes hedges
  have hshown : p.eachEdge = shown := by
    rw [show p = _ from hp]
    refine filter_congr fun e _ => ?_
    rw [Bool.eq_iff_iff]
    simp [Projection.sees, Bitmap.contains, mem_union]
    grind
  refine ⟨hold, hp, hshown, ?_, fun node d => ?_⟩
  · rw [← hshown]
    exact countP_eq_length_filter
  · rw [← hshown]
    exact (View.projection p).eachAdjacentEdge_eq node d

end Dawgs.Ref.Triplestore

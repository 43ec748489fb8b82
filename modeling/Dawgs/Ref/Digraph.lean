import Dawgs.Lib.Reach
import Dawgs.Ref.Bitmap

/-!
# Directed graphs as the algorithms see them

`container.DirectedGraph` is an interface of three calls: how many nodes,
each node, each node adjacent to a node in a direction. An iteration with
a delegate is modelled by the list of the values the delegate is handed;
a delegate that answers `false` cuts the list short, and the loops that do
so say where.

What the interface leaves unsaid every implementation keeps: a node is
listed once, an edge joins listed nodes, the inbound lists are the
outbound ones turned around, and `DirectionBoth` is both of them. These
are the fields of the structure, so an algorithm may use them and an
implementation has to show them.
-/

namespace Dawgs.Ref

open Relation

/-- `graph.Direction`. -/
inductive Direction where
  | inbound
  | outbound
  | both
deriving DecidableEq, Repr

/-- `Direction.Reverse`. -/
def Direction.reverse : Direction → Direction
  | .inbound => .outbound
  | .outbound => .inbound
  | .both => .both

/-- `container.DirectedGraph` with the laws its implementations keep. -/
structure DirectedGraph where
  eachNode : List Nat
  eachAdjacentNode : Nat → Direction → List Nat
  nodup : eachNode.Nodup
  mem_of_adjacent : ∀ {u v : Nat}, v ∈ eachAdjacentNode u .outbound → u ∈ eachNode ∧ v ∈ eachNode
  inbound_iff : ∀ {u v : Nat}, u ∈ eachAdjacentNode v .inbound ↔ v ∈ eachAdjacentNode u .outbound
  both_iff : ∀ {u v : Nat}, v ∈ eachAdjacentNode u .both ↔
    v ∈ eachAdjacentNode u .outbound ∨ v ∈ eachAdjacentNode u .inbound

namespace DirectedGraph

variable (g : DirectedGraph)

/-- `NumNodes`. -/
def numNodes : Nat := g.eachNode.length

/-- `container.AdjacentNodes`: the whole adjacency of a node, collected. -/
def adjacentNodes (node : Nat) (d : Direction) : List Nat := g.eachAdjacentNode node d

/-- One step along a direction. -/
def Step (d : Direction) (u v : Nat) : Prop := v ∈ g.eachAdjacentNode u d

instance (g : DirectedGraph) (d : Direction) (u v : Nat) : Decidable (g.Step d u v) :=
  inferInstanceAs (Decidable (v ∈ g.eachAdjacentNode u d))

/-- Any number of steps along a direction. -/
abbrev Reach (d : Direction) : Nat → Nat → Prop := ReflTransGen (g.Step d)

variable {d : Direction} {u v : Nat} {g : DirectedGraph}

theorem step_reverse : g.Step d.reverse v u ↔ g.Step d u v := by
  cases d with
  | inbound => exact g.inbound_iff.symm
  | outbound => exact g.inbound_iff
  | both =>
    simp only [Direction.reverse, Step]
    rw [g.both_iff, g.both_iff, g.inbound_iff, g.inbound_iff]
    exact Or.comm

theorem step_both : g.Step .both u v ↔ g.Step .outbound u v ∨ g.Step .outbound v u := by
  rw [Step, g.both_iff, g.inbound_iff]
  rfl

theorem reach_reverse : g.Reach d.reverse v u ↔ g.Reach d u v := by
  have hswap : g.Step d.reverse = Function.swap (g.Step d) := by
    funext a b
    exact propext step_reverse
  rw [Reach, hswap]
  exact reflTransGen_swap

/-- A step joins two nodes of the graph. -/
theorem Step.mem (h : g.Step d u v) : u ∈ g.eachNode ∧ v ∈ g.eachNode := by
  cases d with
  | outbound => exact g.mem_of_adjacent h
  | inbound => exact (g.mem_of_adjacent (g.inbound_iff.mp h)).symm
  | both =>
    rcases g.both_iff.mp h with h | h
    · exact g.mem_of_adjacent h
    · exact (g.mem_of_adjacent (g.inbound_iff.mp h)).symm

/-- A walk that starts in the graph ends in it. -/
theorem Reach.mem (h : g.Reach d u v) (hu : u ∈ g.eachNode) : v ∈ g.eachNode := by
  induction h with
  | refl => exact hu
  | tail _ hstep _ => exact hstep.mem.2

/-! ## Breadth-first searches

The loops carry fuel; a node is queued once, and so is the start, which
bounds the rounds. -/

/-- `PathTerminal`, without the weight, which these searches leave unset. -/
structure PathTerminal where
  node : Nat
  distance : Nat

/-- The local variables of `BFSTree`. -/
structure Bfs where
  visited : Bitmap
  queue : List PathTerminal
  terminals : List PathTerminal

/-- The delegate of `EachAdjacentNode` in `BFSTree`. -/
def Bfs.visit (distance : Nat) (s : Bfs) (adjacentNodeID : Nat) : Bfs :=
  if (s.visited.checkedAdd adjacentNodeID).2 then
    let terminalCursor : PathTerminal := ⟨adjacentNodeID, distance + 1⟩
    { visited := (s.visited.checkedAdd adjacentNodeID).1
      queue := s.queue ++ [terminalCursor]
      terminals := s.terminals ++ [terminalCursor] }
  else s

/-- The loop of `BFSTree`. -/
def Bfs.run (g : DirectedGraph) (d : Direction) : Nat → Bfs → Bfs
  | 0, s => s
  | fuel + 1, s =>
    match s.queue with
    | [] => s
    | nextCursor :: rest =>
      run g d fuel ((g.eachAdjacentNode nextCursor.node d).foldl
        (visit nextCursor.distance) { s with queue := rest })

/-- The state `BFSTree` ends in. -/
def bfs (nodeID : Nat) (d : Direction) : Bfs :=
  Bfs.run g d (g.numNodes + 2) ⟨Bitmap.new, [⟨nodeID, 0⟩], []⟩

/-- `BFSTree`. -/
def bfsTree (nodeID : Nat) (d : Direction) : List PathTerminal := (g.bfs nodeID d).terminals

/-- The delegate of `EachAdjacentNode` in `Reach`, over `visited` and
`queue`. -/
def reachVisit (s : Bitmap × List Nat) (adjacentNodeID : Nat) : Bitmap × List Nat :=
  if (s.1.checkedAdd adjacentNodeID).2 then
    ((s.1.checkedAdd adjacentNodeID).1, s.2 ++ [adjacentNodeID])
  else s

/-- The loop of `Reach`. -/
def reachRun (g : DirectedGraph) (d : Direction) : Nat → Bitmap × List Nat → Bitmap × List Nat
  | 0, s => s
  | fuel + 1, (visited, queue) =>
    match queue with
    | [] => (visited, [])
    | nextNode :: rest =>
      reachRun g d fuel ((g.eachAdjacentNode nextNode d).foldl reachVisit (visited, rest))

/-- What `Reach` ends in: the nodes it returns, and its queue. -/
def reach (nodeID : Nat) (d : Direction) :
    Bitmap × List Nat := g.reachRun d (g.numNodes + 2) (Bitmap.new, [nodeID])

end DirectedGraph

end Dawgs.Ref

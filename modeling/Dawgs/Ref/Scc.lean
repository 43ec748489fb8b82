import Dawgs.Ref.Digraph

/-!
# Strongly connected components

`StronglyConnectedComponents` is Tarjan's algorithm with an explicit stack
of cursors in place of the call stack. The state below is the function's
local variables; `step` is one round of the loop `for len(dfsStack) > 0`,
`descend` is that loop, and `visit` is the delegate handed to `EachNode`.

The two slices used as stacks grow at their end in the source and at their
head here. `lowLink` is only ever read, never probed for presence, so it is
a total function with Go's zero value where nothing was written; `discIdx`
and `nodeToComp` are probed, so they answer in `Option`.

The loop carries fuel. `workload` is what it is given: one round for every
outbound edge and one for every node, which is all the rounds there are.
-/

namespace Dawgs.Ref

/-- `descentCursor`. -/
structure DescentCursor where
  id : Nat
  branches : List Nat
  branchIdx : Nat

/-- The local variables of `StronglyConnectedComponents`. -/
structure SccState where
  index : Nat
  discIdx : Nat → Option Nat
  lowLink : Nat → Nat
  onStack : Bitmap
  stack : List Nat
  dfsStack : List DescentCursor
  components : List Bitmap
  nodeToComp : Nat → Option Nat

namespace SccState

def initial : SccState where
  index := 0
  discIdx := fun _ => none
  lowLink := fun _ => 0
  onStack := Bitmap.new
  stack := []
  dfsStack := []
  components := []
  nodeToComp := fun _ => none

/-- `discIdx[v]` read as a value. -/
def disc (s : SccState) (v : Nat) : Nat := (s.discIdx v).getD 0

/-- `tarjanPush`. -/
def tarjanPush (s : SccState) (v : Nat) : SccState :=
  { s with
    discIdx := Function.update s.discIdx v (some s.index)
    lowLink := Function.update s.lowLink v s.index
    index := s.index + 1
    stack := v :: s.stack
    onStack := s.onStack.add v }

/-- A new cursor on the descent stack, followed by `tarjanPush`. -/
def enter (g : DirectedGraph) (s : SccState) (v : Nat) : SccState := tarjanPush
    { s with dfsStack := ⟨v, g.adjacentNodes v .outbound, 0⟩ :: s.dfsStack } v

/-- `if lowLink[v] > bound { lowLink[v] = bound }`. -/
def lower (s : SccState) (v bound : Nat) : SccState :=
  if s.lowLink v > bound then
    { s with lowLink := Function.update s.lowLink v bound }
  else s

/-- The unwinding loop: pop the Tarjan stack into the component until the
root itself has been popped. An empty stack, on which the source would
index out of range, ends the loop; it never arises. -/
def unwind (root compIdx : Nat) : List Nat → SccState → Bitmap → SccState × Bitmap
  | [], s, comp => (s, comp)
  | top :: rest, s, comp =>
    let s' := { s with
      stack := rest
      onStack := s.onStack.remove top
      nodeToComp := Function.update s.nodeToComp top (some compIdx) }
    if top = root then (s', comp.add top)
    else unwind root compIdx rest s' (comp.add top)

/-- The end of a round that popped the cursor of `v`: if `v` is a root, its
component comes off the Tarjan stack. -/
def close (s : SccState) (v : Nat) : SccState :=
  if s.lowLink v = s.disc v then
    let unwound := unwind v s.components.length s.stack s Bitmap.new
    { unwound.1 with components := unwound.1.components ++ [unwound.2] }
  else s

/-- One round of `for len(dfsStack) > 0`. -/
def step (g : DirectedGraph) (s : SccState) : SccState :=
  match s.dfsStack with
  | [] => s
  | nextEntry :: below =>
    match nextEntry.branches[nextEntry.branchIdx]? with
    | some neighbour =>
      let s := { s with dfsStack :=
        { nextEntry with branchIdx := nextEntry.branchIdx + 1 } :: below }
      match s.discIdx neighbour with
      | none => s.enter g neighbour
      | some disc =>
        if s.onStack.contains neighbour then s.lower nextEntry.id disc
        else s
    | none =>
      let s := { s with dfsStack := below }
      let s := match below with
        | [] => s
        | parent :: _ => s.lower parent.id (s.lowLink nextEntry.id)
      s.close nextEntry.id

/-- The loop `for len(dfsStack) > 0`. -/
def descend (g : DirectedGraph) : Nat → SccState → SccState
  | 0, s => s
  | fuel + 1, s =>
    match s.dfsStack with
    | [] => s
    | _ :: _ => descend g fuel (s.step g)

end SccState

namespace DirectedGraph

/-- One round for every outbound edge and one for every node. -/
def workload (g : DirectedGraph) : Nat :=
  (g.eachNode.map fun v => (g.adjacentNodes v .outbound).length + 1).sum

end DirectedGraph

/-- The delegate of `EachNode`: start a descent from an unvisited node. -/
def SccState.visit (g : DirectedGraph) (s : SccState) (start : Nat) : SccState :=
  match s.discIdx start with
  | some _ => s
  | none => SccState.descend g g.workload (s.enter g start)

/-- The state `StronglyConnectedComponents` ends in. -/
def sccState (g : DirectedGraph) : SccState := g.eachNode.foldl (SccState.visit g) SccState.initial

/-- `StronglyConnectedComponents`. -/
def stronglyConnectedComponents (g : DirectedGraph) : List Bitmap × (Nat → Option Nat) :=
  ((sccState g).components, (sccState g).nodeToComp)

end Dawgs.Ref

import Dawgs.Ref.Csr
import Dawgs.Ref.Scc

/-!
# The component graph

`NewComponentGraph` numbers the strongly connected components of a graph
and builds the digraph of the numbers: a vertex for every component, an
edge wherever an edge of the graph joins two of them.

The construction asks its context after every edge and every node whether
to go on. A context is modelled by the answers it gives, in the order it
is asked, so the number of questions so far is part of the loop's state.

`ComponentReachable` searches from both ends at once, `ComponentSearch` from
the first one only. Both run their loops on fuel. Every round takes a
component off a queue and a component is put on each queue once, which
bounds the rounds.
-/

namespace Dawgs.Ref

open Lib

/-- `context.Context`, by what `util.IsContextLive` answers at each poll. -/
structure Context where
  live : Nat → Bool

/-- `context.Background()`. -/
def Context.background : Context := ⟨fun _ => true⟩

/-- A context that does not end. -/
def Context.Live (ctx : Context) : Prop := ∀ n, ctx.live n = true

theorem Context.background_live : Context.background.Live := fun _ => rfl

/-- `ComponentGraph`. -/
structure ComponentGraph where
  componentMembers : List Bitmap
  memberComponentLookup : Nat → Option Nat
  digraph : DirectedGraph

/-! ## Building -/

/-- A read of `memberComponentLookup`, zero where nothing is stored. -/
def memberComponent (lookup : Nat → Option Nat) (node : Nat) : Nat := (lookup node).getD 0

/-- The delegate of the two adjacency iterations; `edge` says which way
round the two components are joined. The state carries the polls made. -/
def joinComponents (ctx : Context) (lookup : Nat → Option Nat)
    (edge : CsrDigraphBuilder → Nat → Nat → CsrDigraphBuilder) (nodeComponent : Nat)
    (s : CsrDigraphBuilder × Nat) (adjacent : Nat) : (CsrDigraphBuilder × Nat) × Bool :=
  let adjacentComponent := memberComponent lookup adjacent
  let builder :=
    if nodeComponent ≠ adjacentComponent then
      edge s.1 nodeComponent adjacentComponent
    else s.1
  ((builder, s.2 + 1), ctx.live s.2)

/-- The delegate of `EachNode`. -/
def joinNode (ctx : Context) (g : DirectedGraph) (lookup : Nat → Option Nat)
    (s : CsrDigraphBuilder × Nat) (node : Nat) : (CsrDigraphBuilder × Nat) × Bool :=
  let nodeComponent := memberComponent lookup node
  let s := eachWhile (joinComponents ctx lookup (fun b c a => b.addEdge a c) nodeComponent)
    (g.eachAdjacentNode node .inbound) s
  let s := eachWhile (joinComponents ctx lookup (fun b c a => b.addEdge c a) nodeComponent)
    (g.eachAdjacentNode node .outbound) s
  ((s.1, s.2 + 1), ctx.live s.2)

/-- The builder after every component was added as a vertex. -/
def componentVertices (componentMembers : List Bitmap) : CsrDigraphBuilder :=
  (List.range componentMembers.length).foldl CsrDigraphBuilder.addNode CsrDigraphBuilder.new

/-- `NewComponentGraph`. -/
def newComponentGraph (ctx : Context) (originGraph : DirectedGraph) : ComponentGraph :=
  let scc := stronglyConnectedComponents originGraph
  let builder := eachWhile (joinNode ctx originGraph scc.2)
    originGraph.eachNode (componentVertices scc.1, 0)
  { componentMembers := scc.1
    memberComponentLookup := scc.2
    digraph := builder.1.build }

namespace ComponentGraph

variable (g : DirectedGraph) (s : ComponentGraph)

/-- `ContainingComponent`. -/
def containingComponent (member : Nat) : Option Nat := s.memberComponentLookup member

/-- `ComponentMembers`, empty where the source would index out of range. -/
def members (component : Nat) : Bitmap := s.componentMembers[component]?.getD Bitmap.new

/-- `CollectComponentMembers`. -/
def collectComponentMembers (component : Nat)
    (members : Bitmap) : Bitmap := members.or (s.members component)

/-- One end's half of a search: its queue and the components it has
seen. -/
structure SearchEnd where
  queue : List Nat
  components : Bitmap

/-! ## Searching from one end -/

/-- The delegate of `ComponentSearch`, over `traversals` with `visited`, and
`reachable`. -/
def visit (endComponent : Nat) (s : SearchEnd × Bool)
    (adjacentComponent : Nat) : (SearchEnd × Bool) × Bool :=
  if adjacentComponent = endComponent then ((s.1, true), false)
  else
    let added := s.1.components.checkedAdd adjacentComponent
    let s :=
      if added.2 then ⟨s.1.queue ++ [adjacentComponent], added.1⟩ else s.1
    ((s, false), true)

/-- The loop of `ComponentSearch`. -/
def searchRun (g : DirectedGraph) (d : Direction) (endComponent : Nat) :
    Nat → SearchEnd × Bool → SearchEnd × Bool
  | 0, s => s
  | fuel + 1, s =>
    if s.2 then s
    else
      match s.1.queue with
      | [] => s
      | next :: rest =>
        searchRun g d endComponent fuel (eachWhile (visit endComponent)
          (g.eachAdjacentNode next d) ({ s.1 with queue := rest }, false))

variable (startComponent endComponent : Nat) (d : Direction)

/-- The state the loop of `ComponentSearch` ends in. -/
def searchEnd : SearchEnd × Bool :=
  searchRun s.digraph d endComponent (s.digraph.numNodes + 2)
    (⟨[startComponent], Bitmap.new⟩, false)

/-- `ComponentSearch`. -/
def componentSearch : Bool :=
  if startComponent = endComponent then true
  else (s.searchEnd startComponent endComponent d).2

/-! ## Searching from both ends -/

/-- The local variables of `ComponentReachable`. -/
structure Search where
  outbound : SearchEnd
  inbound : SearchEnd
  visitedComponents : Bitmap
  reachable : Bool

/-- The delegate of the two adjacency iterations: a component this end has
not seen is queued, and the ends meet if the other end has seen it. -/
def see (other : Bitmap) (s : SearchEnd × Bool) (adjacentComponent : Nat) :
    (SearchEnd × Bool) × Bool :=
  let added := s.1.components.checkedAdd adjacentComponent
  let s :=
    if added.2 then
      (⟨s.1.queue ++ [adjacentComponent], added.1⟩, other.contains adjacentComponent)
    else s
  (s, !s.2)

/-- The adjacency iteration of one end. -/
def expand (other : Bitmap) (nextComponent : Nat) (s : SearchEnd) : SearchEnd × Bool :=
  eachWhile (see other) (g.eachAdjacentNode nextComponent d) (s, false)

/-- One round of `for !reachable`; nothing where the loop breaks. -/
def Search.round (s : Search) : Option Search :=
  match s.outbound.queue, s.inbound.queue with
  | _, [] => none
  | [], next :: rest => some (inboundRound next rest)
  | next :: rest, next' :: rest' =>
    if s.outbound.queue.length ≤ s.inbound.queue.length then
      some (outboundRound next rest)
    else some (inboundRound next' rest')
where
  outboundRound (next : Nat) (rest : List Nat) : Search :=
    let added := s.visitedComponents.checkedAdd next
    let s := { s with
      outbound := { s.outbound with queue := rest }
      visitedComponents := added.1 }
    if added.2 then
      let r := expand g d s.inbound.components next s.outbound
      { s with outbound := r.1, reachable := r.2 }
    else s
  inboundRound (next : Nat) (rest : List Nat) : Search :=
    let r := expand g d.reverse s.outbound.components next
      { s.inbound with queue := rest }
    { s with inbound := r.1, reachable := r.2 }

/-- The loop `for !reachable`. -/
def Search.run (g : DirectedGraph) (d : Direction) : Nat → Search → Search
  | 0, s => s
  | fuel + 1, s =>
    if s.reachable then s
    else
      match s.round g d with
      | none => s
      | some s' => run g d fuel s'

/-- The search before its first round. -/
def Search.start : Search where
  outbound := ⟨[startComponent], Bitmap.new.add startComponent⟩
  inbound := ⟨[endComponent], Bitmap.new.add endComponent⟩
  visitedComponents := Bitmap.new
  reachable := false

/-- `ComponentReachable`. -/
def componentReachable : Bool :=
  if startComponent = endComponent then true
  else
    (Search.run s.digraph d (2 * s.digraph.numNodes + 3)
      (Search.start startComponent endComponent)).reachable

/-- `OriginReachable`. -/
def originReachable (startID endID : Nat) : Bool :=
  match s.containingComponent startID, s.containingComponent endID with
  | some startComponent, some endComponent =>
    s.componentReachable startComponent endComponent .both
  | _, _ => false

/-- The loop of `ComponentReachable` has ended. -/
def Search.Halted (s : Search) : Prop := s.reachable = true ∨ s.round g d = none

end ComponentGraph

end Dawgs.Ref

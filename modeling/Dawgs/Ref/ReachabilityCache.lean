import Dawgs.Ref.ComponentGraph
import Dawgs.Ref.Sieve

/-!
# The reachability cache

`ReachabilityCache` answers which nodes a node's component reaches. It
walks the component digraph depth first and keeps, per direction, a
bounded cache of the reach of whole components.

The walk's stack is a list of cursors with its back at the head. The root
cursor stands apart from the others, since its reach doubles as the set of
components the whole walk has seen: `rootCursor.reach.CheckedAdd` is what
decides whether a cursor's next component is walked into. A cursor's
ancestor is the cursor under it on the stack, the root for the last one.

A component is walked into once, so the rounds are bounded by the digraph's
edges and vertices, and that is the loop's fuel.
-/

namespace Dawgs.Ref

/-- `reachCursor`, without the ancestor. -/
structure ReachCursor where
  component : Nat
  adjacent : List Nat
  adjacentIdx : Nat
  reach : Bitmap

/-- The component `NextAdjacent` hands out. -/
def ReachCursor.next (s : ReachCursor) : Option Nat := s.adjacent[s.adjacentIdx]?

/-- The index moved past that component. -/
def ReachCursor.advance (s : ReachCursor) : ReachCursor :=
  { s with adjacentIdx := s.adjacentIdx + 1 }

/-- The union of a bitmap into a cursor's reach. -/
def ReachCursor.orReach (s : ReachCursor) (reach : Bitmap) : ReachCursor :=
  { s with reach := s.reach.or reach }

/-- `ReachabilityCache`. -/
structure ReachabilityCache where
  components : ComponentGraph
  inboundComponentReach : Sieve Nat Bitmap
  outboundComponentReach : Sieve Nat Bitmap

/-- `NewReachabilityCache`. -/
def newReachabilityCache (ctx : Context) (digraph : DirectedGraph)
    (maxCacheSize : Int) : ReachabilityCache where
  components := newComponentGraph ctx digraph
  inboundComponentReach := Sieve.new maxCacheSize
  outboundComponentReach := Sieve.new maxCacheSize

namespace ReachabilityCache

variable (s : ReachabilityCache)

/-- `newReachCursor`: the reach starts with the component and everything
adjacent to it. -/
def newReachCursor (component : Nat) (d : Direction) : ReachCursor :=
  let adjacentComponents := s.components.digraph.adjacentNodes component d
  { component
    adjacent := adjacentComponents
    adjacentIdx := 0
    reach := Bitmap.new.addMany (adjacentComponents ++ [component]) }

/-- `newRootReachCursor`: the reach starts with the component alone. -/
def newRootReachCursor (component : Nat) (d : Direction) : ReachCursor where
  component := component
  adjacent := s.components.digraph.adjacentNodes component d
  adjacentIdx := 0
  reach := Bitmap.new.add component

/-- `CanReach`. -/
def canReach (startID endID : Nat) (d : Direction) : Bool :=
  match s.components.containingComponent startID, s.components.containingComponent endID with
  | some startComponent, some endComponent =>
    s.components.componentReachable startComponent endComponent d
  | _, _ => false

/-- `componentReachToMemberReachBitmap`. -/
def componentReachToMemberReachBitmap (componentReach : Bitmap) : Bitmap :=
  componentReach.elems.foldl (fun members component =>
      s.components.collectComponentMembers component members)
    Bitmap.new

/-- `cacheComponentReach`. Nothing is stored for the direction `both`. -/
def cacheComponentReach (cursor : ReachCursor) : Direction → ReachabilityCache
  | .inbound => { s with inboundComponentReach :=
      s.inboundComponentReach.put cursor.component cursor.reach }
  | .outbound => { s with outboundComponentReach :=
      s.outboundComponentReach.put cursor.component cursor.reach }
  | .both => s

/-- `cachedComponentReach`. -/
def cachedComponentReach (component : Nat) : Direction → ReachabilityCache × Option Bitmap
  | .inbound =>
    let found := s.inboundComponentReach.get component
    ({ s with inboundComponentReach := found.1 }, found.2)
  | .outbound =>
    let found := s.outboundComponentReach.get component
    ({ s with outboundComponentReach := found.1 }, found.2)
  | .both => (s, none)

end ReachabilityCache

/-- The state of the walk: the cache it reads and fills, the root cursor,
and the cursors above it on the stack, innermost first. -/
structure ReachWalk where
  cache : ReachabilityCache
  root : ReachCursor
  descent : List ReachCursor

namespace ReachWalk

/-- The union of a bitmap into the reach of the cursor on top. With the
popped cursor's reach this is `nextCursor.Complete`. -/
def orTop (w : ReachWalk) (reach : Bitmap) : ReachWalk :=
  match w.descent with
  | [] => { w with root := w.root.orReach reach }
  | ancestor :: below =>
    { w with descent := ancestor.orReach reach :: below }

/-- The cursor on top took its next component: a component not seen before
is looked up, and walked into if it is not cached. -/
def take (d : Direction) (w : ReachWalk) (next : Nat) : ReachWalk :=
  let added := w.root.reach.checkedAdd next
  if added.2 then
    let w := { w with root := { w.root with reach := added.1 } }
    let found := w.cache.cachedComponentReach next d
    let w := { w with cache := found.1 }
    match found.2 with
    | some cachedReach => w.orTop cachedReach
    | none =>
      { w with descent := w.cache.newReachCursor next d :: w.descent }
  else w

/-- One round of `for stack.Len() > 0`; nothing once the root was popped,
which leaves the cache with the root's reach stored. -/
def round (d : Direction) (w : ReachWalk) : ReachabilityCache ⊕ ReachWalk :=
  match w.descent with
  | [] =>
    match w.root.next with
    | none => .inl (w.cache.cacheComponentReach w.root d)
    | some next => .inr (take d { w with root := w.root.advance } next)
  | cursor :: below =>
    match cursor.next with
    | none =>
      let w := orTop { w with descent := below } cursor.reach
      .inr { w with cache := w.cache.cacheComponentReach cursor d }
    | some next =>
      .inr (take d { w with descent := cursor.advance :: below } next)

/-- The loop `for stack.Len() > 0`, and the root's reach. -/
def run (d : Direction) : Nat → ReachWalk → ReachabilityCache × Bitmap
  | 0, w => (w.cache, w.root.reach)
  | fuel + 1, w =>
    match w.round d with
    | .inl cache => (cache, w.root.reach)
    | .inr w' => run d fuel w'

end ReachWalk

namespace ReachabilityCache

variable (s : ReachabilityCache)

section

variable (component : Nat) (d : Direction)

/-- The rounds a walk can take. -/
def walkFuel : Nat :=
  let g := s.components.digraph
  (g.eachNode.map fun v => (g.adjacentNodes v d).length + 1).sum +
    (g.adjacentNodes component d).length + 2

/-- The walk before its first round. -/
def startWalk : ReachWalk where
  cache := s
  root := s.newRootReachCursor component d
  descent := []

/-- `componentReachDFS`. -/
def componentReachDFS : ReachabilityCache × Bitmap :=
  let found := s.cachedComponentReach component d
  match found.2 with
  | some cachedReach => (found.1, cachedReach)
  | none =>
    (found.1.startWalk component d).run d (found.1.walkFuel component d)

end

/-- `ReachOfComponentContainingMember`. -/
def reachOfComponentContainingMember (member : Nat) (d : Direction) : ReachabilityCache × Bitmap :=
  match s.components.containingComponent member with
  | some rootComponent =>
    let found := s.componentReachDFS rootComponent d
    (found.1, found.1.componentReachToMemberReachBitmap found.2)
  | none => (s, Bitmap.new)

/-- `OrReach`. -/
def orReach (node : Nat) (d : Direction) (duplex : Bitmap) : ReachabilityCache × Bitmap :=
  let found := s.reachOfComponentContainingMember node d
  (found.1, (duplex.or found.2).remove node)

/-- `XorReach`. -/
def xorReach (node : Nat) (d : Direction) (duplex : Bitmap) : ReachabilityCache × Bitmap :=
  let found := s.reachOfComponentContainingMember node d
  (found.1, duplex.xor (found.2.remove node))

end ReachabilityCache

/-- The queries, with the bitmap the last two fold the reach into. -/
inductive ReachQuery where
  | reachOf (member : Nat) (d : Direction)
  | orReach (node : Nat) (d : Direction) (duplex : Bitmap)
  | xorReach (node : Nat) (d : Direction) (duplex : Bitmap)

namespace ReachQuery

def member : ReachQuery → Nat
  | .reachOf member _ => member
  | .orReach node _ _ => node
  | .xorReach node _ _ => node

def direction : ReachQuery → Direction
  | .reachOf _ d => d
  | .orReach _ d _ => d
  | .xorReach _ d _ => d

/-- What a query leaves and what it answers. -/
def ask (s : ReachabilityCache) : ReachQuery → ReachabilityCache × Bitmap
  | .reachOf member d => s.reachOfComponentContainingMember member d
  | .orReach node d duplex => s.orReach node d duplex
  | .xorReach node d duplex => s.xorReach node d duplex

end ReachQuery

/-- The answers to a sequence of queries put to one cache. -/
def ReachabilityCache.answers : ReachabilityCache → List ReachQuery → List Bitmap
  | _, [] => []
  | s, q :: queries => (q.ask s).2 :: (q.ask s).1.answers queries

end Dawgs.Ref

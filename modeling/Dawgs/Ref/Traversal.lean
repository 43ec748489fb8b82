import Dawgs.Lib.Worklist
import Dawgs.Ref.Digraph

/-!
# Traversal patterns

A pattern is a list of expansions, each with a direction, criteria on the
relationships it follows, and bounds on how many of them. Its `Driver` is
called with a segment, the end of a path from the root, and gives back the
segments to go on with. The place in the pattern travels along in the tag
of a segment: the index of the current expansion and the depth in it.

A call fetches up to two times, once for the current expansion and once for
the next one. Both fetches use `fetchDirection`, which is made from the
direction of the current expansion. What a fetch returns with each
relationship is one of its ends, and the direction says which: the start
node for an outbound fetch, the end node for an inbound one. So the fetch
for an outbound expansion has to be inbound, to get the far end.

`BreadthFirst` gives the segments to its workers, who take them in any
order. The delegate gets a segment when the pattern is complete and there
is nothing to go on with.

Relationships are of any type with two ends. The criteria are decided by
the store, so they are predicates here. The tree's bookkeeping (branches and
sizes) is left out, and the delegate returns no error.
-/

namespace Dawgs.Ref

open Lib

/-- The relationships of a stored graph. -/
structure RelationshipStore (R : Type) where
  all : List R
  startID : R → Nat
  endID : R → Nat
  nodup : all.Nodup

/-- `Direction.String`. -/
def Direction.string : Direction → String
  | .inbound => "inbound"
  | .outbound => "outbound"
  | .both => "both"

/-- `PathSegment`, without its tag. -/
inductive PathSegment (R : Type) where
  | root (node : Nat)
  | descend (trunk : PathSegment R) (node : Nat) (edge : R)
deriving DecidableEq

namespace PathSegment

variable {R : Type}

def node : PathSegment R → Nat
  | root node => node
  | descend _ node _ => node

/-- The nodes of the path, last one first. -/
def nodes : PathSegment R → List Nat
  | root node => [node]
  | descend trunk node _ => node :: trunk.nodes

/-- `IsCycle`: the last node is on the trunk. -/
def isCycle : PathSegment R → Bool
  | root _ => false
  | descend trunk node _ => node ∈ trunk.nodes

end PathSegment

/-- `expansion`. The bounds come from the builder, which keeps them from
being negative; a `maxDepth` of zero is no bound. -/
structure Expansion (R : Type) where
  criteria : List (R → Bool)
  direction : Direction
  minDepth : Nat
  maxDepth : Nat

/-- What `OutboundWithDepth` and `InboundWithDepth` make, but for the
direction. -/
def expansionWithDepth {R : Type} (direction : Direction) (min max : Int)
    (criteria : List (R → Bool)) : Expansion R where
  criteria := criteria
  direction := direction
  minDepth := if min < 0 then 1 else min.toNat
  maxDepth := if max < 0 then 0 else max.toNat

/-- A call of the builder. `Outbound` and `Inbound` are the calls with the
depths 1 and 0. -/
inductive PatternCall (R : Type) where
  | outboundWithDepth (min max : Int) (criteria : List (R → Bool))
  | inboundWithDepth (min max : Int) (criteria : List (R → Bool))

/-- The expansion a call adds. -/
def PatternCall.expansion {R : Type} : PatternCall R → Expansion R
  | outboundWithDepth min max criteria =>
    expansionWithDepth .outbound min max criteria
  | inboundWithDepth min max criteria =>
    expansionWithDepth .inbound min max criteria

/-- The expansions of `NewPattern` and the calls that follow it. -/
def newPattern {R : Type} (calls : List (PatternCall R)) :
    List (Expansion R) := calls.map PatternCall.expansion

/-- `patternTag`. -/
structure PatternTag where
  patternIdx : Nat
  depth : Nat

/-- A segment and its tag. -/
structure Tagged (R : Type) where
  segment : PathSegment R
  tag : Option PatternTag

/-- `popSegmentPatternTag`. -/
def popSegmentPatternTag {R : Type} (s : Tagged R) : PatternTag := s.tag.getD ⟨0, 0⟩

/-- How a call of the driver fails: an index out of range, or an error. -/
inductive DriverFailure where
  | panic
  | failed (message : String)

namespace Traversal

variable {R : Type} (store : RelationshipStore R)

/-- `PrepareCriteria`. -/
def prepareCriteria (x : Expansion R) (segment : PathSegment R) : Except DriverFailure (R → Bool) :=
  match x.direction with
  | .outbound => .ok fun r =>
    store.startID r == segment.node && x.criteria.all (· r)
  | .inbound => .ok fun r =>
    store.endID r == segment.node && x.criteria.all (· r)
  | .both => .error (.failed ("unsupported direction " ++ x.direction.string))

/-- `FetchDirection` on the relationships that satisfy the criteria. -/
def fetchDirection (criteria : R → Bool) : Direction → Except DriverFailure (List (Nat × R))
  | .inbound => .ok ((store.all.filter criteria).map fun r =>
    (store.endID r, r))
  | .outbound => .ok ((store.all.filter criteria).map fun r =>
    (store.startID r, r))
  | .both => .error (.failed "bad direction: 2")

/-- `fetchFunc` over the results of a fetch. -/
def descents (segment : PathSegment R) (tag : PatternTag)
    (results : List (Nat × R)) : List (Tagged R) :=
  ((results.map fun next => segment.descend next.1 next.2).filter
    fun nextSegment => !nextSegment.isCycle).map
      fun nextSegment => ⟨nextSegment, some ⟨tag.patternIdx, tag.depth + 1⟩⟩

/-- One expansion of a segment. -/
def expand (x : Expansion R) (segment : PathSegment R) (direction : Direction) (tag : PatternTag) :
    Except DriverFailure (List (Tagged R)) := do
  let criteria ← prepareCriteria store x segment
  let results ← fetchDirection store criteria direction
  return descents segment tag results

/-- The first fetch of `Driver`, if the current expansion may go on. -/
def expandCurrent (current : Expansion R) (segment : PathSegment R) (direction : Direction)
    (tag : PatternTag) : Except DriverFailure (List (Tagged R)) :=
  if current.maxDepth = 0 ∨ tag.depth < current.maxDepth then
    expand store current segment direction tag
  else .ok []

/-- `Driver`: the segments it returns, and those it hands to the delegate. -/
def driver (expansions : List (Expansion R))
    (s : Tagged R) : Except DriverFailure (List (Tagged R) × List (PathSegment R)) :=
  let tag := popSegmentPatternTag s
  match expansions[tag.patternIdx]? with
  | none => .error .panic
  | some current => do
    let direction := current.direction.reverse
    let continued ← expandCurrent store current s.segment direction tag
    if 0 < tag.depth ∧ current.minDepth = 0 ∨ current.minDepth ≤ tag.depth then
      let tag : PatternTag := ⟨tag.patternIdx + 1, 0⟩
      match expansions[tag.patternIdx]? with
      | some next =>
        let entered ← expand store next s.segment direction tag
        let kept :=
          if next.minDepth = 0 then [⟨s.segment, some tag⟩] else []
        return (continued ++ entered ++ kept, [])
      | none =>
        return (continued, if continued.isEmpty then [s.segment] else [])
    else return (continued, [])

/-- A traversal starts with the root segment, which has no tag. -/
def startPool (root : Nat) : Pool (Tagged R) (PathSegment R) := ⟨{⟨.root root, none⟩}, 0⟩

/-- A run of the driver from a root node until no segment is left, with the
segments the delegate got. -/
def Completes (expansions : List (Expansion R))
    (root : Nat) (delivered : Multiset (PathSegment R)) : Prop :=
  Relation.ReflTransGen (Works (driver store expansions)) (startPool root) ⟨0, delivered⟩

end Traversal

end Dawgs.Ref

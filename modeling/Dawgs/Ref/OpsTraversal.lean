import Dawgs.Ref.Traversal

/-!
# The depth-first traversals of the ops package

`ops.Traversal` works off a stack of segments. The relationships next to
the node of a segment are fetched, the segments that they lead to are put
on the stack, and a segment that puts none there is a terminal and goes to
the path visitor. A plan brings filters, and the callers of `Traversal` add
their own: closures that read and change variables of the caller. Those
variables are the environment here, and a closure is a function on it and
on the tracker of skipped and seen results. The filters that come with a
plan are plain predicates on segments.

The rows of a query come in any order. `rows` answers a query with its
rows in the order the store has chosen for it. The memory limit, and
errors of the store with the sentinel that halts a traversal, are left out.
A traversal without a filter need not end, hence the fuel.
-/

namespace Dawgs.Ref

/-- The number of relationships of a path. -/
def PathSegment.depth {R : Type} : PathSegment R → Nat
  | root _ => 0
  | descend trunk _ _ => trunk.depth + 1

namespace Ops

/-- `LimitSkipTracker`. -/
structure LimitSkipTracker where
  limit : Int
  seen : Int
  skip : Int

namespace LimitSkipTracker

def atLimit (s : LimitSkipTracker) : Bool :=
  decide (0 < s.limit ∧ s.limit ≤ s.seen)

def shouldCollect (s : LimitSkipTracker) : Bool × LimitSkipTracker :=
  if 0 < s.skip then (false, { s with skip := s.skip - 1 })
  else if !s.atLimit then (true, { s with seen := s.seen + 1 })
  else (false, s)

end LimitSkipTracker

/-- `TraversalPlan`, without the expansion filter, which the callers of
`Traversal` set. -/
structure TraversalPlan (R : Type) where
  root : Nat
  direction : Direction
  branchQuery : Option (R → Bool)
  descentFilter : Option (PathSegment R → Bool)
  pathFilter : Option (PathSegment R → Bool)
  skip : Int
  limit : Int

/-- `TraversalContext`, and the variables of the closures. -/
structure Context (σ : Type) where
  tracker : LimitSkipTracker
  env : σ

/-- A closure that decides about a segment. -/
abbrev Filter (σ R : Type) : Type := PathSegment R → Context σ → Bool × Context σ

/-- A predicate as such a closure. -/
def Filter.plain {σ R : Type} (f : PathSegment R → Bool) : Filter σ R :=
  fun segment c => (f segment, c)

/-- A filter that is nil lets everything pass. -/
def passes {σ R : Type} (filter : Option (Filter σ R))
    (segment : PathSegment R) (c : Context σ) : Bool × Context σ :=
  match filter with
  | some f => f segment c
  | none => (true, c)

/-- The closures of a traversal. -/
structure Hooks (σ R : Type) where
  expansionFilter : Option (Filter σ R)
  descentFilter : Option (Filter σ R)
  pathFilter : Option (Filter σ R)
  pathVisitor : Option (PathSegment R → Context σ → Context σ)

inductive TraversalError where
  | invalidDirection
  deriving DecidableEq

section

variable {σ R : Type} (store : RelationshipStore R)
  (rows : (R → Bool) → List R) (plan : TraversalPlan R) (hooks : Hooks σ R)

/-- What the branch filter of a plan says of a relationship. -/
def branchFilter (r : R) : Bool :=
  match plan.branchQuery with
  | some criteria => criteria r
  | none => true

/-- `nextTraversal`. -/
def nextTraversal (segment : PathSegment R) (c : Context σ) :
    Except TraversalError (List (PathSegment R) × Context σ) :=
  let (expands, c) := passes hooks.expansionFilter segment c
  if expands then
    match plan.direction with
    | .outbound =>
      .ok ((rows fun r => branchFilter plan r && store.startID r == segment.node).map fun r =>
          segment.descend (store.endID r) r, c)
    | .inbound =>
      .ok ((rows fun r => branchFilter plan r && store.endID r == segment.node).map fun r =>
          segment.descend (store.startID r) r, c)
    | .both => .error .invalidDirection
  else .ok ([], c)

/-- The descendents that pass the descent filter, put on the stack. -/
def descendInto : List (PathSegment R) → List (PathSegment R) → Context σ →
    List (PathSegment R) × Context σ
  | [], stack, c => (stack, c)
  | nextDescendent :: descendents, stack, c =>
    let (descends, c) := passes hooks.descentFilter nextDescendent c
    descendInto descendents (if descends then nextDescendent :: stack else stack) c

/-- What the loop does at a path terminal. -/
def visitTerminal (next : PathSegment R) (c : Context σ) : Context σ :=
  match hooks.pathVisitor with
  | none => c
  | some visit =>
    if 0 < next.depth then
      let (accepted, c) := passes hooks.pathFilter next c
      if accepted then visit next c else c
    else c

/-- One turn of the loop, with the segment taken from the stack. -/
def traverseNext (next : PathSegment R) (stack : List (PathSegment R))
    (c : Context σ) : Except TraversalError (List (PathSegment R) × Context σ) := do
  let (descendents, c) ← nextTraversal store rows plan hooks next c
  let (descended, c) := descendInto hooks descendents stack c
  if stack.length = descended.length then
    return (descended, visitTerminal hooks next c)
  else return (descended, c)

def traverseLoop : Nat → List (PathSegment R) → Context σ →
    Option (Except TraversalError (Context σ))
  | _, [], c => some (.ok c)
  | 0, _ :: _, _ => none
  | fuel + 1, next :: stack, c =>
    match traverseNext store rows plan hooks next stack c with
    | .error e => some (.error e)
    | .ok (stack, c) =>
      if c.tracker.atLimit then some (.ok c)
      else traverseLoop fuel stack c

/-- `Traversal`, for so many turns. -/
def traversal (env : σ) (fuel : Nat) : Option (Except TraversalError (Context σ)) :=
  traverseLoop store rows plan hooks fuel [.root plan.root] ⟨⟨plan.limit, 0, plan.skip⟩, env⟩

end

/-- The variables of `AcyclicTraverseTerminals`. -/
structure TerminalsEnv where
  terminals : Finset Nat
  visitedBitmap : Finset Nat

variable {R : Type}

/-- `visitedBitmap.CheckedAdd` as the expansion filter. -/
def expandOnce : Filter TerminalsEnv R := fun segment c =>
  (decide (segment.node ∉ c.env.visitedBitmap),
    { c with env.visitedBitmap := insert segment.node c.env.visitedBitmap })

/-- The path visitor of `AcyclicTraverseTerminals`. -/
def collectTerminal (segment : PathSegment R) (c : Context TerminalsEnv) : Context TerminalsEnv :=
  let (collect, tracker) := c.tracker.shouldCollect
  if collect then
    { tracker := tracker
      env.terminals := insert segment.node c.env.terminals
      env.visitedBitmap := c.env.visitedBitmap }
  else { c with tracker := tracker }

/-- The closures of `AcyclicTraverseTerminals`. -/
def terminalHooks (plan : TraversalPlan R) : Hooks TerminalsEnv R where
  expansionFilter := some expandOnce
  descentFilter := plan.descentFilter.map Filter.plain
  pathFilter := plan.pathFilter.map Filter.plain
  pathVisitor := some collectTerminal

/-- `AcyclicTraverseTerminals`. -/
def acyclicTraverseTerminals (store : RelationshipStore R) (rows : (R → Bool) → List R)
    (plan : TraversalPlan R) (fuel : Nat) : Option (Except TraversalError (Finset Nat)) :=
  (traversal store rows plan (terminalHooks plan) ⟨∅, ∅⟩ fuel).map (Except.map (·.env.terminals))

end Ops

end Dawgs.Ref

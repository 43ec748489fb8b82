import Dawgs.Lib.Machine

/-!
# The parallel node query

`parallelNodeQuery` cuts the identifiers from zero to the largest into
ranges of one stride. The calling goroutine submits the floors of the ranges
to a channel without a buffer; each worker receives floors inside one read
transaction and calls the delegate on each, until the channel is closed, the
context is done or a call fails. The error of a transaction is submitted to
a second channel, which one more goroutine empties into a list. When the
last floor has been submitted the caller closes the first channel, waits for
the workers, closes the second, waits for the collector and returns the
errors it has joined.

The model interleaves what the goroutines do between two points where they
may block. A channel without a buffer passes a value in one event of both
sides. `Submit` and `Receive` also answer once the context is cancelled; a
`select` that could do several things may do each of them. Identifiers are
of 64 bits and the floor of the next range is computed modulo their number.

What has happened is kept in the state: the floors of the calls that
succeeded and of those that failed, the floors whose submission gave up, the
errors that arose, were collected or were dropped. A transaction may also
fail by itself, when it begins or when it ends.
-/

namespace Dawgs.Ref.ParallelQuery

/-- The number of identifiers of one range. -/
@[irreducible] def stride : Nat := 20000

/-- How many values the type of identifiers has. -/
@[irreducible] def idCount : Nat := 2 ^ 64

/-- The addition of identifiers wraps. -/
def nextRangeFloor (floor : Nat) : Nat := (floor + stride) % idCount

/-- The criteria a worker joins to those of the user select this node. -/
def selects (floor id : Nat) : Bool := floor ≤ id && id < nextRangeFloor floor

inductive Worker where
  /-- About to open its read transaction. -/
  | starting
  /-- In `Receive` on the channel of floors. -/
  | receiving
  /-- In the delegate. -/
  | querying (floor : Nat)
  /-- In `Submit` with the error of its transaction. -/
  | submitting
  | done
deriving DecidableEq, Repr

inductive Caller where
  /-- In `Submit` with the floor of a range. -/
  | submitting (floor : Nat)
  /-- The channel of floors is closed. -/
  | joiningWorkers
  /-- The channel of errors is closed. -/
  | joiningCollector
  | returned
deriving DecidableEq, Repr

structure State where
  caller : Caller
  workers : List Worker
  /-- The goroutine that merges the errors has not left. -/
  collecting : Bool
  /-- The context is done. -/
  cancelled : Bool
  /-- The length of the list the collector appends to. -/
  errs : Nat
  /-- The ranges of the calls that succeeded. -/
  succeeded : List Nat
  /-- The ranges of the calls that failed. -/
  failed : List Nat
  /-- The ranges whose submission gave up. -/
  skipped : List Nat
  /-- How many transactions ended with an error. -/
  failures : Nat
  /-- How many errors were not submitted. -/
  dropped : Nat
deriving DecidableEq, Repr

/-- The head of the loop over the ranges. -/
def loop (largest floor : Nat) : Caller :=
  if floor ≤ largest then .submitting floor else .joiningWorkers

def start (numWorkers largest : Nat) : State where
  caller := loop largest 0
  workers := List.replicate numWorkers .starting
  collecting := true
  cancelled := false
  errs := 0
  succeeded := []
  failed := []
  skipped := []
  failures := 0
  dropped := 0

/-- What can happen next. A flag says whether a call or a transaction
succeeded; a number is that of a worker. -/
inductive Event where
  | cancel
  | opened (i : Nat) (ok : Bool)
  | handedOver (i : Nat)
  | gaveUp
  | answered (i : Nat) (ok : Bool)
  | stopped (i : Nat) (ok : Bool)
  | collected (i : Nat)
  | droppedError (i : Nat)
  | joinedWorkers
  | collectorLeft
  | joinedCollector
deriving DecidableEq, Repr

/-- Where a worker goes on. -/
def State.set (s : State) (i : Nat) (w : Worker) : State :=
  { s with workers := s.workers.set i w }

/-- A transaction ends with an error, which its worker has to submit. -/
def State.fail (s : State) (i : Nat) : State :=
  { s.set i .submitting with failures := s.failures + 1 }

/-- No floor will be submitted any more. -/
def Caller.closed : Caller → Bool
  | .submitting _ => false
  | _ => true

def step (largest : Nat) (s : State) : Event → Option State
  | .cancel => some { s with cancelled := true }
  | .opened i ok =>
    if s.workers[i]? = some .starting then
      some (if ok then s.set i .receiving else s.fail i)
    else none
  | .handedOver i =>
    match s.caller, s.workers[i]? with
    | .submitting floor, some .receiving =>
      some { s.set i (.querying floor) with
        caller := loop largest (nextRangeFloor floor) }
    | _, _ => none
  | .gaveUp =>
    match s.caller with
    | .submitting floor =>
      if s.cancelled then
        some { s with
          caller := loop largest (nextRangeFloor floor)
          skipped := floor :: s.skipped }
      else none
    | _ => none
  | .answered i ok =>
    match s.workers[i]? with
    | some (.querying floor) =>
      some (if ok then
        { s.set i .receiving with succeeded := floor :: s.succeeded }
      else { s.fail i with failed := floor :: s.failed })
    | _ => none
  | .stopped i ok =>
    if s.workers[i]? = some .receiving ∧ (s.cancelled || s.caller.closed) then
      some (if ok then s.set i .done else s.fail i)
    else none
  | .collected i =>
    if s.workers[i]? = some .submitting ∧ s.collecting then
      some { s.set i .done with errs := s.errs + 1 }
    else none
  | .droppedError i =>
    if s.workers[i]? = some .submitting ∧ s.cancelled then
      some { s.set i .done with dropped := s.dropped + 1 }
    else none
  | .joinedWorkers =>
    if s.caller = .joiningWorkers ∧ s.workers.all (· = .done) then
      some { s with caller := .joiningCollector }
    else none
  | .collectorLeft =>
    if s.collecting ∧ (s.cancelled || s.caller = .joiningCollector) then
      some { s with collecting := false }
    else none
  | .joinedCollector =>
    if s.caller = .joiningCollector ∧ !s.collecting then
      some { s with caller := .returned }
    else none

/-- The function has not returned, its context is alive and every one of its
goroutines is blocked: only a cancellation could happen. -/
def Blocked (largest : Nat) (s : State) : Prop :=
  s.caller ≠ .returned ∧ s.cancelled = false ∧ ∀ e, step largest s e ≠ none → e = .cancel

/-- The function has returned without an error. -/
def ReturnedNil (s : State) : Prop := s.caller = .returned ∧ s.errs = 0

/-- Every identifier up to the largest is selected by exactly one of the
calls that succeeded. -/
def CoversOnce (largest : Nat) (s : State) : Prop :=
  ∀ id ≤ largest, s.succeeded.countP (selects · id) = 1

end Dawgs.Ref.ParallelQuery

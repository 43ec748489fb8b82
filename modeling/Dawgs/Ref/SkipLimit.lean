import Mathlib

/-!
# Visitors that skip and limit

A visitor of `FilteredSkipLimit` may be called by many goroutines at once. It
consults two counters, one for the results to skip and one for the results
to pass on, and a counter is advanced by compare-and-swap.

The model interleaves the atomic operations of `n` calls. A state holds how
far each call is, an event is the number of the call that goes on, and what
a call does by itself belongs to the operation before. A Go `int` is a bit
vector: it is compared with its sign, and made the maximum of a counter
without.
-/

namespace Dawgs.Ref.SkipLimit

variable {n : Nat} {σ : Type}

/-- Where a call of a counter is in its loop. -/
inductive Loop where
  /-- About to load the counter. -/
  | load
  /-- About to replace the value it has loaded. -/
  | swap (currentValue : Nat)
deriving DecidableEq, Repr

/-- A call of a counter: in its loop, or answered whether the maximum is
reached. -/
abbrev CounterCall : Type := Loop ⊕ Bool

/-- One operation of the closure `NewCounter` returns. -/
def counterOp (maximum counter : Nat) : Loop → Nat × CounterCall
  | .load =>
    if counter < maximum then (counter, .inl (.swap counter))
    else (counter, .inr true)
  | .swap currentValue =>
    if counter = currentValue then (currentValue + 1, .inr false)
    else (counter, .inl .load)

structure Counter (n : Nat) where
  counter : Nat
  calls : Fin n → CounterCall

namespace Counter

def start (n : Nat) : Counter n := ⟨0, fun _ => .inl .load⟩

/-- One of the calls of a counter goes on. -/
def step (maximum : Nat) (c : Counter n) (i : Fin n) : Option (Counter n) :=
  match c.calls i with
  | .inr _ => none
  | .inl loop =>
    let op := counterOp maximum c.counter loop
    some ⟨op.1, Function.update c.calls i op.2⟩

end Counter

/-- How far a call of a visitor is. -/
inductive Call where
  /-- In `shouldCollect`. -/
  | skipping (loop : Loop)
  /-- In `atLimit`. -/
  | limiting (loop : Loop)
  /-- Over, and the segment was not to be collected. -/
  | ignored
  | skipped
  | refused
  /-- Over, and the inner visitor was given the segment. -/
  | passed
deriving DecidableEq, Repr

/-- What a call returns. -/
def Call.result (shouldDescend : Bool) : Call → Option Bool
  | skipping _ | limiting _ => none
  | refused => some false
  | _ => some shouldDescend

structure Visitor (n : Nat) where
  shouldCollect : Nat
  atLimit : Nat
  calls : Fin n → Call

namespace Visitor

variable (skip limit : BitVec 64)

/-- The result is to be collected, if the limit allows. -/
def collect : Call :=
  if 0 < limit.toInt then .limiting .load else .passed

/-- `FilteredSkipLimit`: a call up to its first operation. -/
def enter (canCollect : Bool) : Call :=
  if canCollect then
    if skip = 0 then collect limit else .skipping .load
  else .ignored

def start (filter : σ → Bool × Bool) (segments : Fin n → σ) : Visitor n :=
  ⟨0, 0, fun i => enter skip limit (filter (segments i)).1⟩

def afterSkip : CounterCall → Call
  | .inr true => collect limit
  | .inr false => .skipped
  | .inl loop => .skipping loop

def afterLimit : CounterCall → Call
  | .inr true => .refused
  | .inr false => .passed
  | .inl loop => .limiting loop

/-- One of the calls of a visitor goes on. -/
def step (s : Visitor n) (i : Fin n) : Option (Visitor n) :=
  match s.calls i with
  | .skipping loop =>
    let op := counterOp skip.toNat s.shouldCollect loop
    some { s with
      shouldCollect := op.1
      calls := Function.update s.calls i (afterSkip limit op.2) }
  | .limiting loop =>
    let op := counterOp limit.toNat s.atLimit loop
    some { s with
      atLimit := op.1
      calls := Function.update s.calls i (afterLimit op.2) }
  | _ => none

end Visitor

end Dawgs.Ref.SkipLimit

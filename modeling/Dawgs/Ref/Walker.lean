import Mathlib

/-!
# The generic walker

`Generic` walks what a cursor constructor unfolds, with a stack of cursors
and no recursion. A visitor is called when a node is entered, between two
branches of it and when it is left. Through its handler it can consume the
node it is at, end the walk, or end it with an error.

A visitor is any function of its own state and its handler. The calls it
gets are recorded, each with the consume flag as the visitor left it. The
loop has fuel; `none` is a walk that is not over yet.
-/

namespace Dawgs.Ref.Walker

/-- `cancelableVisitorHandler`. -/
structure Handler where
  currentSyntaxNodeConsumed : Bool := false
  done : Bool := false
  err : Option String := none

inductive Callback (N : Type) where
  | enter (node : N)
  | visit (node : N)
  | exit (node : N)

structure Cursor (N : Type) where
  node : N
  branches : List N
  branchIndex : Nat := 0

/-- What `Generic` is called with; the visitor has a state of its own. -/
structure Walk (N V : Type) where
  visitor : Callback N → V × Handler → V × Handler
  cursorConstructor : N → Except String (Cursor N)

structure State (N V : Type) where
  visitor : V
  handler : Handler := {}
  calls : List (Callback N × Bool) := []

variable {N V : Type} (w : Walk N V)

def State.wasConsumed (s : State N V) : Bool := s.handler.currentSyntaxNodeConsumed

/-- What `WasConsumed` leaves. -/
def State.clear (s : State N V) : State N V :=
  { s with handler := { s.handler with currentSyntaxNodeConsumed := false } }

def State.call (callback : Callback N) (s : State N V) : State N V :=
  let r := w.visitor callback (s.visitor, s.handler)
  ⟨r.1, r.2, s.calls ++ [(callback, r.2.currentSyntaxNodeConsumed)]⟩

/-- The rest of a computation, or what `Generic` returns before it. -/
abbrev Returns (N V : Type) := Except (Option String × State N V)

/-- A callback, and the check for an error after it. -/
def call (callback : Callback N) (s : State N V) : Returns N V (State N V) :=
  let s := s.call w callback
  match s.handler.err with
  | some err => .error (some err, s)
  | none => .ok s

/-- `Enter` or `Visit`: the walk may also be done after it. -/
def callUnlessDone (callback : Callback N) (s : State N V) : Returns N V (State N V) := do
  let s ← call w callback s
  if s.handler.done then .error (none, s) else .ok s

section

variable (c : Cursor N) (stack : List (Cursor N)) (s : State N V)

/-- `Exit`, after which the cursor is taken from the stack. -/
def exit :
    Returns N V (List (Cursor N) × State N V) :=
  (call w (.exit c.node) s).map fun s => (stack, s.clear)

/-- One round of the loop, for the cursor `c` on top of the stack. -/
def step :
    Returns N V (List (Cursor N) × State N V) := do
  let s ← if c.branchIndex = 0 then callUnlessDone w (.enter c.node) s else .ok s
  match c.branches[c.branchIndex]? with
  | none => exit w c stack s
  | some branch =>
    if s.wasConsumed then exit w c stack s.clear else
      let s ← if c.branchIndex = 0 then .ok s else callUnlessDone w (.visit c.node) s
      if c.branchIndex ≠ 0 ∧ s.wasConsumed then exit w c stack s.clear
      else match w.cursorConstructor branch with
        | .error err => .error (some err, s)
        | .ok cursor =>
          .ok (cursor :: { c with branchIndex := c.branchIndex + 1 } :: stack, s)

end

def loop : Nat → List (Cursor N) → State N V → Option (Option String × State N V)
  | 0, _, _ => none
  | _ + 1, [], s => some (none, s)
  | fuel + 1, c :: stack, s =>
    if s.handler.done then some (none, s)
    else match step w c stack s with
      | .error returned => some returned
      | .ok (stack, s) => loop fuel stack s

def generic (fuel : Nat) (node : N) (s : State N V) : Option (Option String × State N V) :=
  match w.cursorConstructor node with
  | .error err => some (some err, s)
  | .ok cursor => loop w fuel [cursor] s

end Dawgs.Ref.Walker

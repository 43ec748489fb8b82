import Dawgs.Lib.Machine

/-!
# Constraint trackers

A tracker holds constraints until the identifiers they depend on are in
scope. Constraints with the same dependencies are kept as one conjunction.
`ConsumeSet` takes those out whose dependencies are visible, unless a syntax
node in them is a future that has not been realized yet, and `ConsumeAll`
takes out all.

Of expressions the tracker uses the conjunction of two, to which type hints
are applied at once. The hints, and the walk that looks for futures, may
fail; then so does the call. Futures are realized between the calls, so each
`ConsumeSet` has its own answers of `isSyntaxNodeSatisfied`.
-/

namespace Dawgs.Ref.Constraints

/-- `NewBinaryExpression` with `AND`, and `applyBinaryExpressionTypeHints`. -/
structure Expressions (E : Type) where
  and : E → E → E
  applyTypeHints : E → Option E

structure Constraint (I E : Type) where
  dependencies : Finset I
  expression : E

/-- `IdentifierSet.Matches`. -/
def Matches {I : Type} (s other : Finset I) : Prop := s.card = other.card ∧ other ⊆ s

instance {I : Type} [DecidableEq I] (s other : Finset I) : Decidable (Matches s other) :=
  inferInstanceAs (Decidable (_ ∧ _))

section Operations
variable {I E : Type} [DecidableEq I] (x : Expressions E)

def conjoin (left right : E) : Option E := x.applyTypeHints (x.and left right)

/-- `ConjoinExpressions`: nil for no expressions. -/
def conjoinExpressions (expressions : List E) : Option (Option E) :=
  expressions.foldlM (fun conjoined e =>
    match conjoined with
    | none => some (some e)
    | some conjoined => (conjoin x conjoined e).map some) none

def constrain (dependencies : Finset I) (e : E) :
    List (Constraint I E) → Option (List (Constraint I E))
  | [] => some [⟨dependencies, e⟩]
  | c :: cs =>
    if Matches c.dependencies dependencies then
      (conjoin x e c.expression).map fun joined =>
        { c with expression := joined } :: cs
    else (constrain dependencies e cs).map (c :: ·)

/-- What a call returns for the constraints it takes out. -/
def matched (cs : List (Constraint I E)) : Option (Constraint I (Option E)) :=
  (conjoinExpressions x (cs.map Constraint.expression)).map fun conjoined =>
    ⟨cs.foldr (fun c s => c.dependencies ∪ s) ∅, conjoined⟩

/-- The loop of `ConsumeSet`: the constraints that stay, and the others. -/
def consume (satisfied : E → Option Bool) (visible : Finset I) :
    List (Constraint I E) → Option (List (Constraint I E) × List (Constraint I E))
  | [] => some ([], [])
  | c :: cs => do
    let syntaxNodeSatisfied ← satisfied c.expression
    let (kept, taken) ← consume satisfied visible cs
    if syntaxNodeSatisfied && c.dependencies ⊆ visible then some (kept, c :: taken)
    else some (c :: kept, taken)

def consumeSet (satisfied : E → Option Bool) (visible : Finset I) (cs : List (Constraint I E)) :
    Option (List (Constraint I E) × Constraint I (Option E)) := do
  let (kept, taken) ← consume satisfied visible cs
  (matched x taken).map (kept, ·)

def consumeAll (cs : List (Constraint I E)) :
    Option (List (Constraint I E) × Constraint I (Option E)) := (matched x cs).map ([], ·)

end Operations

inductive Call (I E : Type) where
  | constrain (dependencies : Finset I) (e : E)
  | consumeSet (satisfied : E → Option Bool) (visible : Finset I)
  | consumeAll

/-- A tracker, with what it was given and what it has returned. -/
structure Tracker (I E : Type) where
  constraints : List (Constraint I E) := []
  added : List E := []
  returned : List E := []

variable {I E : Type} [DecidableEq I]

/-- The tracker after a call that returned a constraint. -/
def Tracker.after (s : Tracker I E)
    (r : List (Constraint I E) × Constraint I (Option E)) : Tracker I E :=
  { s with constraints := r.1, returned := s.returned ++ r.2.expression.toList }

/-- A call that does not fail. -/
def Tracker.call (x : Expressions E) (s : Tracker I E) : Call I E → Option (Tracker I E)
  | .constrain dependencies e =>
    (constrain x dependencies e s.constraints).map
      ({ s with constraints := ·, added := s.added ++ [e] })
  | .consumeSet satisfied visible =>
    (consumeSet x satisfied visible s.constraints).map s.after
  | .consumeAll => (consumeAll x s.constraints).map s.after

end Dawgs.Ref.Constraints

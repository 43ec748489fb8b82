import Dawgs.Ref.Frontend

/-!
# The visitors and the stack

A visitor of the frontend takes a visitor off the stack when it leaves a
rule exactly if it put one there when it entered it: the conditions in the
two handlers of a rule are the same, and they depend on the type of the
visitor and not on what it has read. So the walk with the stack is the visit
without it, and an expression that is read without an error is one that a
`WhereVisitor` takes.
-/

namespace Dawgs.Ref.Frontend

open Lib Cypher Grammar

/-! ## Balance -/

theorem enters_updates (v : Visitor) (r : Rule) (cs : List Tree) :
    enters (updates v r cs).1 = enters v := by
  cases v <;> simp only [updates, Visitor.base, setLiteral] <;> split <;>
    first
    | rfl
    | (split <;> rfl)

variable {v v' : Visitor} {r : Rule} {cs : List Tree} {f : Visitor → Option (Visitor × List Error)}

theorem enters_stay {errors : List Error}
    (h : exit v r cs = .stay (some (v', errors))) : enters v' = enters v := by
  cases v <;> simp only [exit, leaveBoolean, leaveSubArithmetic] at h <;>
    (repeat' split at h) <;> cases h <;> rfl

theorem eq_arithmetic_of_assignExpression {tokens : List String}
    {s e : Expression} (h : assignExpression tokens s e = some v) :
    ∃ tokens e, v = .arithmeticExpression tokens e := by
  unfold assignExpression at h
  split at h
  next => exact ⟨_, _, (Option.some.inj h).symm⟩
  next =>
    split at h
    next => exact ⟨_, _, (Option.some.inj h).symm⟩
    next => exact ⟨_, _, (Option.some.inj h).symm⟩
    next => cases h

theorem enters_pop {w : Visitor} {errors : List Error} (h : exit v r cs = .pop f)
    (hf : f w = some (v', errors)) : enters v' = enters v := by
  cases v <;> simp only [exit, leaveBoolean, leaveSubArithmetic] at h <;>
    (repeat' split at h) <;> cases h <;> beta_reduce at hf <;>
    (repeat' split at hf) <;>
    simp only [Option.map_eq_some_iff, Option.some.injEq, Prod.mk.injEq, reduceCtorEq] at hf <;>
    first
    | (obtain ⟨rfl, -⟩ := hf; rfl)
    | (obtain ⟨e, -, rfl, -⟩ := hf; rfl)
    | (obtain ⟨e, he, rfl, -⟩ := hf
       obtain ⟨tokens, e, rfl⟩ := eq_arithmetic_of_assignExpression he
       rfl)

@[simp]
theorem isPop_leaveBoolean (v : Visitor) (r : Rule) (cs : List Tree) (assign : Expression → Visitor)
    : (leaveBoolean v r cs assign).isPop = (booleanVisitor r cs).isSome := by
  unfold leaveBoolean
  split <;> simp_all [Leave.isPop]

@[simp]
theorem isPop_leaveSubArithmetic (tokens : List String) (s : Expression)
    (cs : List Tree) (operand : Expression → Expression) :
    (leaveSubArithmetic tokens s cs operand).isPop = (subArithmeticVisitor cs).isSome := by
  unfold leaveSubArithmetic subArithmeticVisitor
  split <;> simp_all [Leave.isPop]

theorem isPop_exit (v : Visitor) (r : Rule) (cs : List Tree) :
    (exit v r cs).isPop = (enters v r cs).isSome := by
  cases v <;> simp only [exit, enters] <;> (try split) <;>
    first
    | rfl
    | (simp; done)
    | (split <;> rfl)
    | (by_cases h : hasToken .null cs <;> by_cases h' : hasToken .string cs <;>
        simp [h, h', Leave.isPop])

theorem listener_balanced : listener.Balanced enters where
  enter := enters_updates
  stay := enters_stay
  pop := enters_pop
  isPop := by
    intro v v' r cs hkind
    show (exit v' r cs).isPop = (enters v r cs).isSome
    rw [isPop_exit, hkind]

/-! ## What is read without an error -/

theorem takes_of_readExpression {t : Tree} {e : Expression} (h : readExpression t = some (e, [])) :
    listener.Takes t (.where_ []) (.where_ [e]) := by
  rw [readExpression, Listener.walk_eq_visit listener_balanced] at h
  cases hvisit : listener.visit t (.where_ []) with
  | none => simp [hvisit] at h
  | some p =>
    obtain ⟨v, errors⟩ := p
    rw [hvisit] at h
    split at h
    next e' depth errors' heq =>
      cases heq
      cases h
      exact hvisit
    next => cases h

theorem takesAll_dense : listener.TakesAll (dense cs) v v' ↔ listener.TakesAll cs v v' :=
  listener.takesAll_filter _ fun _ _ => rfl

@[simp]
theorem takes_token {type : TokenType} {text : String} :
    listener.Takes (token type text) v v' ↔ v = v' := listener.takes_token

@[simp]
theorem takes_symbol {text : String} :
    listener.Takes (symbol text) v v' ↔ v = v' := listener.takes_token

/-- A rule for which the visitor enters another one. -/
theorem takes_entered {w : Visitor} (henters : enters v r cs = some w)
    (hupdates : updates v r cs = (v, [])) (hexit : exit v r cs = .pop f) :
    listener.Takes (.node r cs) v v' ↔ ∃ w', listener.TakesAll cs w w' ∧ f w' = some (v', []) := by
  refine listener.takes_node_pushed ?_ hexit
  show ((updates v r cs).1, enters v r cs, (updates v r cs).2) = _
  rw [henters, hupdates]

/-- For a rule, with any children, the visitor enters `w`, and `f` is what it
does with the visitor that comes back. -/
def HandsOver (v : Visitor) (r : Rule) (w : Visitor)
    (f : List Tree → Visitor → Option (Visitor × List Error)) : Prop :=
  ∀ cs, enters v r cs = some w ∧ updates v r cs = (v, []) ∧ exit v r cs = .pop (f cs)

/-- A rule for which it enters none. -/
theorem takes_passed {v₁ : Visitor} (henters : enters v r cs = none)
    (hupdates : updates v r cs = (v₁, [])) :
    listener.Takes (.node r cs) v v' ↔
      ∃ v₂, listener.TakesAll cs v₁ v₂ ∧ exit v₂ r cs = .stay (some (v', [])) := by
  refine listener.takes_node ?_
  show ((updates v r cs).1, enters v r cs, (updates v r cs).2) = _
  rw [henters, hupdates]

theorem takes_leaf {v₁ : Visitor} {t : Token} (henters : enters v r [.token t] = none)
    (hupdates : updates v r [.token t] = (v₁, [])) : listener.Takes (.node r [.token t]) v v' ↔
      exit v₁ r [.token t] = .stay (some (v', [])) := by
  simp [takes_passed henters hupdates]

theorem updates_unsupported (v : Visitor) (hr : r ∈ unsupported)
    (cs : List Tree) : (updates v r cs).2 ≠ [] := by
  cases v <;> simp only [unsupported, List.mem_cons, List.not_mem_nil,
    or_false] at hr <;> rcases hr with rfl | rfl | rfl | rfl | rfl <;>
    simp [updates, Visitor.base, predicateOf, unsupported]

theorem not_takes_unsupported (hr : r ∈ unsupported) : ¬ listener.Takes (.node r cs) v v' :=
  listener.not_takes_of_errors (updates_unsupported v hr cs)

end Dawgs.Ref.Frontend

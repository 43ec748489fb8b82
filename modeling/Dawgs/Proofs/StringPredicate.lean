import Dawgs.Lib.Lists
import Dawgs.Ref.StringPredicate

/-!
# When a string predicate means what it says

The wildcards of a literal are escaped in one pass and the pattern is built
in another. The first looks at the left operand, the second does not. So a
literal stands for itself behind a property lookup, whatever it contains; in
front of a function call, a parenthesised operand or a literal it does so
only if there is nothing to escape. The same predicate with a parameter does
not use `LIKE` and is always right.

That the condition is exact is a matter of one word: the shortest one that
the pattern accepts has the literal in it only if the literal is plain.
-/

namespace Dawgs.Ref.StringPredicate

open Lib List Option Like

variable {operator : StringOperator} {left e left' : Expression}
  {s v : List Char} {operator' : Operator}

theorem strpos_pos_iff (haystack needle : List Char) :
    0 < strpos haystack needle ↔ needle <:+: haystack := by
  have hfind : 0 < strpos haystack needle ↔
      ∃ tail ∈ haystack.tails, needle.isPrefixOf tail = true := by
    rw [← List.any_eq_true, ← List.findIdx?_isSome, strpos]
    cases haystack.tails.findIdx? (needle.isPrefixOf ·) <;> simp
  rw [hfind, infix_iff_prefix_suffix]
  simp only [mem_tails, isPrefixOf_iff_prefix]
  exact exists_congr fun tail => and_comm

/-- The functions of the schema mean what the operators mean. -/
theorem callPredicate_iff : callPredicate operator v s = true ↔ operator.Holds s v := by
  cases operator with
  | contains =>
    show decide (0 < strpos v s) = true ↔ s <:+: v
    rw [decide_eq_true_eq, strpos_pos_iff]
  | startsWith =>
    show decide (v.take s.length = s) = true ↔ s <+: v
    rw [decide_eq_true_eq, prefix_iff_eq_take, eq_comm]
  | endsWith =>
    show decide (v.drop (v.length - s.length) = s) = true ↔ s <:+ v
    rw [decide_eq_true_eq, suffix_iff_eq_drop, eq_comm]

/-- An escaped literal stands for itself. -/
theorem like_escape (operator : StringOperator) (s v : List Char) :
    ∃ b, like (likePattern operator (escape s)) v = some b ∧ (b = true ↔ operator.Holds s v) := by
  cases operator with
  | contains => exact like_contains s v
  | startsWith => exact like_startsWith s v
  | endsWith => exact like_endsWith s v

theorem like_escape_eq (operator : StringOperator) (s v : List Char) :
    like (likePattern operator (escape s)) v = some (callPredicate operator v s) := by
  obtain ⟨b, hb, hholds⟩ := like_escape operator s v
  rw [hb, some_inj, Bool.eq_iff_iff, hholds, callPredicate_iff]

/-- What stands behind the literal in a pattern. -/
def patternTail : StringOperator → List Char
  | .contains | .startsWith => ['%']
  | .endsWith => []

theorem word_likePattern (operator : StringOperator) (s : List Char) :
    word (likePattern operator s) = word (s ++ patternTail operator) := by
  cases operator with
  | contains => rw [likePattern]; rfl
  | startsWith => rfl
  | endsWith => rw [likePattern, word, patternTail, append_nil]

theorem StringOperator.Holds.sublist (h : operator.Holds s v) : s.Sublist v := by
  cases operator with
  | contains => exact List.IsInfix.sublist h
  | startsWith => exact List.IsPrefix.sublist h
  | endsWith => exact List.IsSuffix.sublist h

theorem holds_self (operator : StringOperator) (s : List Char) : operator.Holds s s := by
  cases operator with
  | contains => exact infix_rfl
  | startsWith => exact prefix_rfl
  | endsWith => exact suffix_rfl

/-- A literal that is not escaped stands for itself only if it is plain. -/
theorem plain_of_like (h : ∀ v, like (likePattern operator s) v = some true ↔ operator.Holds s v) :
    plain s = true := by
  have hself := (h s).mpr (holds_self operator s)
  obtain ⟨tokens, htokens, -⟩ := map_eq_some_iff.mp hself
  have haccepts := accepts_word htokens
  have hword : operator.Holds s (word (likePattern operator s)) := by
    refine (h _).mp ?_
    rw [like, htokens, map_some, haccepts]
  rw [word_likePattern] at hword
  refine plain_of_sublist ?_ hword.sublist
  cases operator <;> simp [patternTail]

/-! ### What is emitted -/

/-- The literal of a predicate, as the first pass leaves it. -/
def hinted (left : Expression) (s : List Char) : List Char :=
  if (expressionToPropertyLookup left).isSome then escape s else s

theorem rewritePropertyLookupOperands_literal (left : Expression) :
    rewritePropertyLookupOperands (.string operator) left (.literal (.text s)) =
      .ok (lookupAsText left, .literal (.text (hinted left s))) := by
  unfold rewritePropertyLookupOperands hinted
  cases expressionToPropertyLookup left <;> rfl

theorem rewritePropertyLookupOperands_parameter (left : Expression) (p : String) :
    rewritePropertyLookupOperands (.string operator) left (.parameter p) =
      .ok (lookupAsText left, .parameter p) := by
  unfold rewritePropertyLookupOperands
  cases expressionToPropertyLookup left <;> rfl

section

variable (hpop : popOperand left = .ok left')
  (hleft : unexpectedLeftOperand (lookupAsText left') = false)
include hpop hleft

theorem translate_literal
    :
    translate operator left (.literal (.text s)) =
      .ok (.binary .like (lookupAsText (lookupAsText left'))
        (.literal (.text (likePattern operator (hinted left' s))))) := by
  show (popOperand left).bind _ = _
  rw [hpop]
  show (rewritePropertyLookupOperands _ left' _).bind _ = _
  rw [rewritePropertyLookupOperands_literal]
  show (rewriteBinaryExpression operator (lookupAsText left') _).bind _ = _
  rw [rewriteBinaryExpression, hleft]
  rfl

theorem translate_parameter
    (p : String) :
    translate operator left (.parameter p) =
      .ok (.functionCall (predicateFunction operator)
        [textOperand (lookupAsText left'), .typeCast (.parameter p) "text"]) := by
  show (popOperand left).bind _ = _
  rw [hpop]
  show (rewritePropertyLookupOperands _ left' _).bind _ = _
  rw [rewritePropertyLookupOperands_parameter]
  show (rewriteBinaryExpression operator (lookupAsText left') _).bind _ = _
  unfold rewriteBinaryExpression
  rw [hleft]
  rfl

end

theorem isSome_lookup_popOperand {l r : Expression} (h : operator'.isPropertyLookup = true)
    (hpop : popOperand (.binary operator' l r) = .ok left') :
    (expressionToPropertyLookup left').isSome =
      (expressionToPropertyLookup (.binary operator' l r)).isSome := by
  cases operator' with
  | propertyLookup | jsonField | jsonTextField => cases hpop; rfl
  | string | like | other => cases h

theorem popOperand_of_not_lookup {l r : Expression} (h : operator'.isPropertyLookup = false)
    (hpop : popOperand (.binary operator' l r) = .ok left') :
    ∃ l' r', left' = .binary operator' l' r' := by
  have hrewrite : popOperand (.binary operator' l r) =
      (rewritePropertyLookupOperands operator' l r).map fun p => .binary operator' p.1 p.2 := by
    cases operator' <;> first | rfl | cases h
  rw [hrewrite] at hpop
  cases hoperands : rewritePropertyLookupOperands operator' l r with
  | error message =>
    rw [hoperands] at hpop
    cases hpop
  | ok operands =>
    rw [hoperands] at hpop
    cases hpop
    exact ⟨operands.1, operands.2, rfl⟩

/-- A left operand that is accepted is popped, and is a property lookup if it
was one. -/
theorem exists_popOperand (h : translate operator left (.literal (.text s)) = .ok e) :
    ∃ left', popOperand left = .ok left' ∧ unexpectedLeftOperand (lookupAsText left') = false ∧
      (expressionToPropertyLookup left').isSome = (expressionToPropertyLookup left).isSome := by
  obtain ⟨left', hpop, h⟩ := bind_eq_ok (x := popOperand left) h
  have hleft : unexpectedLeftOperand (lookupAsText left') = false := by
    by_contra hne
    rw [Bool.not_eq_false] at hne
    rw [rewritePropertyLookupOperands_literal] at h
    have hrewrite : rewriteBinaryExpression operator (lookupAsText left')
        (.literal (.text (hinted left' s))) = .error
        "unexpected operator for binary expression \"like\" left operand" := if_pos hne
    change (rewriteBinaryExpression operator (lookupAsText left') _).bind _ = _ at h
    rw [hrewrite] at h
    cases h
  refine ⟨left', hpop, hleft, ?_⟩
  cases left with
  | binary operator' l r =>
    cases hlookup : operator'.isPropertyLookup with
    | true => exact isSome_lookup_popOperand hlookup hpop
    | false =>
      -- an operator that is no lookup is found unexpected later on
      obtain ⟨l', r', rfl⟩ := popOperand_of_not_lookup hlookup hpop
      have hsame : lookupAsText (.binary operator' l' r') = .binary operator' l' r' := by
        rw [lookupAsText, expressionToPropertyLookup, hlookup]
        rfl
      rw [hsame, unexpectedLeftOperand, hlookup] at hleft
      cases hleft
  | literal | parameter | compoundIdentifier | functionCall | parenthetical
  | typeCast | any =>
    cases hpop
    rfl

theorem evaluate_call (a b : Expression) :
    evaluate v s (.functionCall (predicateFunction operator) [a, b]) =
      some (callPredicate operator v s) := by
  cases operator <;> rfl

/-- The predicate with the literal `s` is true of a text exactly if the
operator holds, and agrees with the predicate that gets `s` as a parameter,
exactly if the left operand is a property lookup or there is nothing to
escape in `s`. -/
theorem string_predicate_iff (p : String)
    (h : translate operator left (.literal (.text s)) = .ok e) :
    ∃ e', translate operator left (.parameter p) = .ok e' ∧
      ((∀ v, (evaluate v s e = some true ↔ operator.Holds s v) ∧ evaluate v s e = evaluate v s e') ↔
        (expressionToPropertyLookup left).isSome = true ∨ plain s = true) := by
  obtain ⟨left', hpop, hleft, hlookup⟩ := exists_popOperand h
  rw [translate_literal hpop hleft] at h
  cases h
  refine ⟨_, translate_parameter hpop hleft p, ?_⟩
  have heval : ∀ v, evaluate v s (.binary .like (lookupAsText (lookupAsText left'))
      (.literal (.text (likePattern operator (hinted left' s))))) =
      like (likePattern operator (hinted left' s)) v := fun _ => rfl
  simp only [evaluate_call]
  have hescaped : hinted left' s = escape s → ∀ v,
      (like (likePattern operator (hinted left' s)) v = some true ↔ operator.Holds s v) ∧
      like (likePattern operator (hinted left' s)) v = some (callPredicate operator v s) := by
    intro heq v
    rw [heq, like_escape_eq, some_inj]
    exact ⟨callPredicate_iff, rfl⟩
  constructor
  · intro hall
    by_cases hsome : (expressionToPropertyLookup left).isSome = true
    · exact .inl hsome
    · have hraw : hinted left' s = s := if_neg (by rwa [hlookup])
      rw [hraw] at hall
      exact .inr (plain_of_like fun v => (hall v).1)
  · rintro (hsome | hplain)
    · exact hescaped (if_pos (by rwa [hlookup]))
    · refine hescaped ?_
      rw [hinted, escape_eq_of_plain hplain]
      exact ite_self s

/-- `n.a CONTAINS '%'`. -/
theorem string_predicate_iff_percent :
    ∃ e, translate .contains (.binary .propertyLookup
        (.compoundIdentifier ["n0", "properties"]) (.literal (.text ['a'])))
        (.literal (.text ['%'])) = .ok e ∧ ∀ v, evaluate v ['%'] e = some true ↔ ['%'] <:+: v := by
  refine ⟨_, rfl, fun v => ?_⟩
  obtain ⟨_, _, h⟩ := string_predicate_iff "p0"
    (show translate .contains (.binary .propertyLookup
        (.compoundIdentifier ["n0", "properties"]) (.literal (.text ['a'])))
        (.literal (.text ['%'])) = .ok _ from rfl)
  exact (h.mpr (.inl rfl) v).1

/-- `toLower(n.a) CONTAINS '%'` is true of a text without a percent sign. -/
theorem function_call_not_escaped :
    ∃ e, translate .contains (.functionCall "lower" [.binary .jsonTextField
        (.compoundIdentifier ["n0", "properties"]) (.literal (.text ['a']))])
        (.literal (.text ['%'])) = .ok e ∧ evaluate ['b'] ['%'] e = some true ∧ ¬['%'] <:+: ['b'] :=
  ⟨_, rfl, by decide, by decide⟩

end Dawgs.Ref.StringPredicate

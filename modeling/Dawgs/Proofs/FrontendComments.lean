import Dawgs.Proofs.FrontendOutline

/-!
# Comments between operands

The frontend takes the operators of a rule of arithmetic from the tokens
among its children, and the spaces are tokens too. One that trims to nothing
is left out. One with a comment in it is not, and then it stands in the list
where an operator should: the first operand after it gets the comment for its
operator, which is none, and the later ones each get the operator before
their own. Only what comes after the last operator does no harm, since there
is no operand left to take it.
-/

namespace Dawgs.Ref.Frontend

open Lib RoseTree Cypher Grammar List ArithmeticPart Prod

/-! ## The text of a space -/

/-- What a comment begins or ends with. -/
def isCommentChar (c : Char) : Bool := c = '/' || c = '*'

theorem space_cases {s : List Char} (hs : Space s) :
    (∀ c ∈ s, c ∈ whitespace) ∨ 2 ≤ s.countP isCommentChar := by
  induction hs with
  | whitespace hc => exact .inl (by simpa using hc)
  | comment | lineComment => right; simp [isCommentChar]
  | append _ _ ih ih' =>
    rcases ih, ih' with ⟨h | h, h' | h'⟩
    · left
      intro c hc
      rcases mem_append.mp hc with hc | hc
      · exact h c hc
      · exact h' c hc
    all_goals
      right
      rw [countP_append]
      omega

theorem countP_dropWhile {p q : Char → Bool} (hpq : ∀ c, q c → p c = false)
    (s : List Char) : (s.dropWhile q).countP p = s.countP p := by
  have hzero : (s.takeWhile q).countP p = 0 := by
    rw [countP_eq_zero]
    intro c hc
    simp [hpq c (mem_takeWhile_imp hc)]
  conv_rhs => rw [← takeWhile_append_dropWhile (p := q) (l := s)]
  rw [countP_append, hzero, Nat.zero_add]

theorem countP_trimSpace {s : String} :
    (trimSpace s).toList.countP isCommentChar = s.toList.countP isCommentChar := by
  have hspace : ∀ c, isSpaceChar c → isCommentChar c = false := by
    intro c hc
    simp only [isCommentChar, Bool.or_eq_false_iff, decide_eq_false_iff_not]
    constructor <;> rintro rfl <;> revert hc <;> decide
  rw [trimSpace, String.toList_ofList, countP_reverse,
    countP_dropWhile hspace, countP_reverse, countP_dropWhile hspace]

theorem mem_of_mem_trimSpace {s : String} {c : Char}
    (hc : c ∈ (trimSpace s).toList) : c ∈ s.toList := by
  rw [trimSpace, String.toList_ofList, mem_reverse] at hc
  have hc := (dropWhile_sublist _).subset hc
  exact (dropWhile_sublist _).subset (mem_reverse.mp hc)

theorem operators_texts : ∀ p ∈ operators,
    p.1.toList.countP isCommentChar ≤ 1 ∧ ∀ c ∈ whitespace, p.1.toList.head? ≠ some c := by
  have h : (operators.all fun p => p.1.toList.countP isCommentChar ≤ 1 &&
      whitespace.all fun c => p.1.toList.head? ≠ some c) = true := by
    decide +kernel
  simpa [all_eq_true] using h

theorem toLower_whitespace : ∀ c ∈ whitespace, c.toLower = c := by
  have h : (whitespace.all fun c => c.toLower = c) = true := by
    decide +kernel
  simpa [all_eq_true] using h

theorem isCommentChar_toLower {c : Char} (hc : isCommentChar c = true) :
    isCommentChar c.toLower = true := by
  simp only [isCommentChar, Bool.or_eq_true, decide_eq_true_eq] at hc
  rcases hc with rfl | rfl <;> decide

/-- The text of a space is no operator. -/
theorem parseOperator_space {s : String} (hs : Space s.toList)
    (hne : trimSpace s ≠ "") : parseOperator (trimSpace s) = none := by
  rw [parseOperator, lookup_eq_none_iff]
  intro p hp
  rw [bne_iff_ne]
  intro heq
  obtain ⟨hcount, hhead⟩ := operators_texts p hp
  have htexts : p.1.toList = (trimSpace s).toList.map Char.toLower := by
    rw [← heq, toLower, String.toList_ofList]
  rcases space_cases hs with hwhite | htwo
  · obtain ⟨c, cs, hcs⟩ : ∃ c cs, (trimSpace s).toList = c :: cs :=
      exists_cons_of_ne_nil fun h => hne (by simpa using h)
    have hc : c ∈ whitespace := hwhite c (mem_of_mem_trimSpace (by simp [hcs]))
    refine hhead c hc ?_
    rw [htexts, hcs, map_cons, toLower_whitespace c hc, head?_cons]
  · rw [← countP_trimSpace] at htwo
    rw [htexts, countP_map] at hcount
    have hle := countP_mono_left (l := (trimSpace s).toList)
      (p := isCommentChar) (q := isCommentChar ∘ Char.toLower)
      fun c _ hc => isCommentChar_toLower hc
    omega

/-! ## The operators of the parts -/

theorem operatorsRead_append {cs ds : List Tree} :
    operatorsRead (cs ++ ds) = operatorsRead cs ++ operatorsRead ds := by
  simp [operatorsRead, tokenLiterals_append]

theorem operatorsWritten_append {cs ds : List Tree} :
    operatorsWritten (cs ++ ds) = operatorsWritten cs ++ operatorsWritten ds := filterMap_append

/-- A space is nothing or an invalid operator. -/
theorem operatorsRead_space {s : Option String}
    (hs : ∀ text ∈ s, Space text.toList) : operatorsRead (space? s) =
      if (space? s).all isBlank then [] else [.invalid] := by
  cases s with
  | none => rfl
  | some text =>
    by_cases htext : trimSpace text = ""
    · simp [space?, operatorsRead, tokenLiterals, token, isBlank, htext]
    · simp [space?, operatorsRead, tokenLiterals, token, isBlank, htext,
        parseOperator_space (hs text rfl) htext]

theorem parseOperator_arithmetic : ∀ text ∈ ["+", "-", "*", "/", "%", "^"],
      ∃ operator, parseOperator text = some operator ∧ (Label.operator operator).weight = 1 := by
  decide +kernel

variable {rest : List ArithmeticPart}

section Parts

variable {below : Rule} {p : ArithmeticPart} {ds : List Tree}

/-- An operator between spaces, before a node. -/
structure IsPart (p : ArithmeticPart) : Prop where
  operator : p.operator ∈ ["+", "-", "*", "/", "%", "^"]
  spaced : p.Spaced
  operand : ∃ r cs, p.operand = .node r cs

def partOperator (p : ArithmeticPart) : Operator := (parseOperator p.operator).getD .invalid

theorem operatorsRead_part (hp : IsPart p) :
    operatorsRead (p.children ++ ds) =
      (if (space? p.before).all isBlank then [] else [.invalid]) ++ partOperator p ::
          ((if (space? p.after).all isBlank then [] else [.invalid]) ++ operatorsRead ds) := by
  obtain ⟨r, cs, hoperand⟩ := hp.operand
  have hnode : operatorsRead [p.operand] = [] := by rw [hoperand]; rfl
  have hsymbol : operatorsRead [symbol p.operator] = [partOperator p] := by
    rw [operatorsRead, tokenLiterals_operator hp.operator]
    rfl
  have hsplit : p.children ++ ds = space? p.before ++ ([symbol p.operator] ++
      (space? p.after ++ ([p.operand] ++ ds))) := by
    simp [children]
  rw [hsplit, operatorsRead_append, operatorsRead_append, operatorsRead_append,
    operatorsRead_append, hsymbol, hnode, operatorsRead_space hp.spaced.1,
    operatorsRead_space hp.spaced.2]
  rfl

theorem operatorsWritten_space {s : Option String} : operatorsWritten (space? s) = [] := by
  cases s <;> rfl

theorem operatorsWritten_part (hp : IsPart p) :
    operatorsWritten (p.children ++ ds) = partOperator p :: operatorsWritten ds := by
  obtain ⟨r, cs, hoperand⟩ := hp.operand
  rw [children, operatorsWritten_append,
    operatorsWritten_append, operatorsWritten_append, operatorsWritten_space, hoperand]
  cases p.after <;> rfl

theorem blankBeforeOperators_part (hp : IsPart p) :
    blankBeforeOperators (p.children ++ ds) =
      ((space? p.before).all isBlank &&
        ((space? p.after).all isBlank || !ds.any (isToken .symbol)) &&
          blankBeforeOperators ds) := by
  obtain ⟨r, cs, hoperand⟩ := hp.operand
  rw [children, hoperand]
  cases p.before <;> cases p.after <;>
    simp [space?, blankBeforeOperators, isBlank, symbol, token, isToken, Bool.and_assoc]

theorem any_symbol_parts {rest : List ArithmeticPart} :
    (rest.flatMap children).any (isToken .symbol) = !rest.isEmpty := by
  cases rest with
  | nil => rfl
  | cons p rest => simp [children]

theorem operatorsWritten_parts (hrest : ∀ p ∈ rest, IsPart p) :
    operatorsWritten (rest.flatMap children) = rest.map partOperator := by
  induction rest with
  | nil => rfl
  | cons p rest ih =>
    rw [flatMap_cons, operatorsWritten_part (hrest p (by simp)),
      ih fun q hq => hrest q (by simp [hq]), map_cons]

/-- The operators that are read are those that are written, unless a space
comes between. -/
theorem take_operatorsRead (hrest : ∀ p ∈ rest, IsPart p) :
    (blankBeforeOperators (rest.flatMap children) = true →
      (operatorsRead (rest.flatMap children)).take rest.length = rest.map partOperator) ∧
    (blankBeforeOperators (rest.flatMap children) = false →
      .invalid ∈ (operatorsRead (rest.flatMap children)).take rest.length) := by
  induction rest with
  | nil => simp [blankBeforeOperators]
  | cons p rest ih =>
    have ih := ih fun q hq => hrest q (by simp [hq])
    rw [flatMap_cons, operatorsRead_part (hrest p (by simp)),
      blankBeforeOperators_part (hrest p (by simp)), any_symbol_parts]
    cases (space? p.before).all isBlank with
    | false => simp
    | true =>
      cases (space? p.after).all isBlank with
      | true => simpa using ⟨ih.1, fun h => .inr (ih.2 h)⟩
      | false =>
        cases rest with
        | nil => simp [blankBeforeOperators]
        | cons q rest => simp

end Parts

/-! ## Weights -/

theorem weights_operators (operators : List Operator) (os : List Outline)
    (h : os.length ≤ operators.length) :
    outlineWeights (zipWith (fun operator o => .node (.operator operator) [o]) operators os) =
      ((operators.take os.length).map fun operator =>
        (Label.operator operator).weight).sum + outlineWeights os := by
  induction os generalizing operators with
  | nil => simp
  | cons o os ih =>
    cases operators with
    | nil => simp at h
    | cons operator operators =>
      have ih := ih operators (by simpa using h)
      simp only [zipWith_cons_cons, outlineWeights, weights_cons,
        weight_node, length_cons, take_succ_cons, map_cons, sum_cons] at ih ⊢
      rw [ih]
      ac_rfl

theorem weight_operator_le (operator : Operator) : (Label.operator operator).weight ≤ 1 := by
  cases operator <;> simp [Label.weight]

theorem sum_operators_le (operators : List Operator) :
    (operators.map fun operator => (Label.operator operator).weight).sum ≤
      operators.length := by
  induction operators with
  | nil => simp
  | cons operator operators ih =>
    rw [map_cons, sum_cons, add_comm]
    exact add_le_add ih (weight_operator_le operator)

theorem sum_operators_lt {operators : List Operator} (h : .invalid ∈ operators) :
    (operators.map fun operator => (Label.operator operator).weight).sum <
      operators.length := by
  induction operators with
  | nil => cases h
  | cons operator operators ih =>
    rw [map_cons, sum_cons, add_comm]
    rcases mem_cons.mp h with rfl | hmem
    · have hle := sum_operators_le operators
      simpa [Label.weight, ENat.lt_add_one_iff] using hle
    · exact ENat.add_lt_add_of_lt_of_le weight_operator_ne_top (ih hmem)
        (weight_operator_le operator)

theorem sum_partOperators
    (hrest : ∀ p ∈ rest, IsPart p) : ((rest.map partOperator).map fun operator =>
      (Label.operator operator).weight).sum = (rest.length : ℕ∞) := by
  induction rest with
  | nil => rfl
  | cons p rest ih =>
    obtain ⟨operator, hoperator, hweight⟩ :=
      parseOperator_arithmetic p.operator (hrest p (by simp)).operator
    rw [map_cons, map_cons, sum_cons,
      ih fun q hq => hrest q (by simp [hq]), partOperator, hoperator]
    simp [hweight, add_comm]

/-! ## The rules of arithmetic -/

variable {r below : Rule} {operators : List String} {cs : List Tree} {ss : List Outline}

section

variable (hr : ArithmeticRule r operators below)
include hr

theorem fine_arithmetic {cs : List Tree} :
    fine r cs = blankBeforeOperators cs := by
  cases hr <;> rfl

theorem assemble_arithmetic
    {cs : List Tree} {os : List Outline} : assemble r cs os = if operatorsWritten cs = [] then os
      else arithmeticChain (operatorsWritten cs) os := by
  cases hr <;> rfl

theorem kept_operand {x : Tree} {ρ : Result}
    (hcs : cs = [x]) (hread : Reads below x ρ) (hx : Kept [x] ss) : Kept [.node r cs] ss := by
  obtain ⟨ds, rfl⟩ := reads_node hread
  subst hcs
  refine hx.pass (fun os => ?_) ?_
  · rw [assemble_arithmetic hr]
    rfl
  · rw [fine_arithmetic hr]
    rfl

end

theorem weights_arithmeticChain {operators : List Operator} (o : Outline)
    {os : List Outline} (h : os.length ≤ operators.length) :
    outlineWeights (arithmeticChain operators (o :: os)) =
      1 + ((operators.take os.length).map fun operator =>
        (Label.operator operator).weight).sum + outlineWeights (o :: os) := by
  have hparts := weights_operators operators os h
  simp only [arithmeticChain, outlineWeights, weights_cons, weight_node, Label.weight] at hparts ⊢
  rw [hparts]
  ac_rfl

theorem zipWith_take {α β γ : Type} (f : α → β → γ) (as : List α) (bs : List β) :
    zipWith f as bs = zipWith f (as.take bs.length) bs := by
  have h := @take_zipWith _ _ _ f as bs bs.length
  rwa [take_of_length_le (by simp), take_length] at h

theorem shape_arithmetic {e : Expression} {operators : List Operator}
    {es : List Expression} (hoperators : operators ≠ []) (hes : es ≠ []) :
    [shape (.arithmetic e (zipWith PartialExpression.mk operators es))] =
      arithmeticChain operators (shape e :: shapes es) := by
  rw [shape, if_neg (by simpa using ⟨hoperators, hes⟩), partialShapes_eq_map,
    arithmeticChain, shapes_eq_map, map_zipWith, zipWith_map_right]

theorem Kept.space {s : Option String} {ts : List Tree} (h : Kept ts ss) :
    Kept (space? s ++ ts) ss := by
  cases s with
  | none => exact h
  | some text => exact h.token

theorem Kept.part {p : ArithmeticPart} (h : Kept [p.operand] ss) : Kept p.children ss := by
  rw [children, append_assoc]
  exact h.space.token.space

/-- The chain of the operators that are read, where one of them may be a
comment. -/
theorem kept_chain {s : Outline} {read written : List Operator} (hkept : Kept cs (s :: ss))
    (hassemble : ∀ os, assemble r cs os = arithmeticChain written os)
    (hlength : written.length = ss.length) (hle : written.length ≤ read.length)
    (hwritten : (written.map fun operator =>
      (Label.operator operator).weight).sum = (written.length : ℕ∞))
    (hfine : fine r cs = true → read.take written.length = written)
    (hlost : fine r cs = false → .invalid ∈ read.take written.length) :
    Kept [.node r cs] (arithmeticChain read (s :: ss)) := by
  have hcons : ∀ os : List Outline, os.length = (s :: ss).length →
      ∃ o os', os = o :: os' ∧ os'.length = ss.length := by
    intro os hos
    obtain ⟨o, os, rfl⟩ : ∃ o os', os = o :: os' := exists_cons_of_length_pos (by simp [hos])
    exact ⟨o, os, rfl, by simpa using hos⟩
  have hweight : ∀ os, os.length = (s :: ss).length → outlineWeights (arithmeticChain written os) =
        1 + written.length + outlineWeights os := by
    intro os hos
    obtain ⟨o, os, rfl, hos⟩ := hcons os hos
    rw [weights_arithmeticChain o (by omega), take_of_length_le (by omega), hwritten]
  cases hc : fine r cs with
  | true =>
    have heq : arithmeticChain read (s :: ss) = arithmeticChain written (s :: ss) := by
      rw [arithmeticChain, zipWith_take, ← hlength, hfine hc]
      rfl
    rw [heq]
    refine hkept.node (n := 1) hc ?_ (fun os _ => hassemble os) (fun os hos => ?_) hweight
    · simp
    · obtain ⟨o, os, rfl, -⟩ := hcons os hos
      rfl
  | false =>
    have hread := weights_arithmeticChain s (hlength ▸ hle)
    have hlt := sum_operators_lt (hlost hc)
    rw [length_take, Nat.min_eq_left hle, hlength] at hlt
    have hlt : outlineWeights (arithmeticChain read (s :: ss)) <
        outlineWeights (arithmeticChain written (outlines cs)) := by
      rw [hread, hweight _ hkept.length, hlength]
      refine ENat.add_lt_add_of_lt_of_le hkept.ne_top ?_ hkept.le
      exact (ENat.add_lt_add_iff_left ENat.one_ne_top).mpr hlt
    refine ⟨?_, fun h => ?_, fun _ => ?_, (hlt.trans_le le_top).ne⟩
    · obtain ⟨o, os, hos, -⟩ := hcons _ hkept.length
      simp [hassemble, hos, arithmeticChain]
    · simp [hc] at h
    · simpa [hassemble] using hlt

theorem kept_arithmetic {x : Tree} {e : Expression} {rest : List (ArithmeticPart × Expression)}
    (hr : ArithmeticRule r operators below) (hcs : cs = x :: rest.flatMap fun p => p.1.children)
    (hrest : rest ≠ []) (hoperators : ∀ p ∈ rest, p.1.operator ∈ operators)
    (hspaces : ∀ p ∈ rest, p.1.Spaced) (hread : Reads below x (.expression e))
    (hreads : ∀ p ∈ rest, Reads below p.1.operand (.expression p.2)) (hx : Kept [x] [shape e])
    (hys : ∀ p ∈ rest, Kept [p.1.operand] [shape p.2]) :
    Kept [.node r cs] [shape (.arithmetic e
      (zipWith PartialExpression.mk (operatorsRead cs) (rest.map snd)))] := by
  have hparts : ∀ p ∈ rest.map fst, IsPart p := by
    intro p hp
    obtain ⟨q, hq, rfl⟩ := mem_map.mp hp
    obtain ⟨ds, hds⟩ := reads_node (hreads q hq)
    exact ⟨mem_operators hr (hoperators q hq), hspaces q hq, _, _, hds⟩
  have hfst : cs = x :: (rest.map fst).flatMap children := by
    simpa [flatMap_map] using hcs
  obtain ⟨ds, rfl⟩ := reads_node hread
  -- The first operand is a node, so the tokens are those of the parts.
  have hwritten : operatorsWritten cs = (rest.map fst).map partOperator := by
    rw [hfst, ← operatorsWritten_parts hparts]
    rfl
  have htokens : operatorsRead cs = operatorsRead ((rest.map fst).flatMap children) := by
    rw [hfst]
    rfl
  have hblank : fine r cs = blankBeforeOperators ((rest.map fst).flatMap children) := by
    rw [fine_arithmetic hr, hfst]
    rfl
  have hlength : rest.length ≤ (operatorsRead cs).length := by
    have h := le_length_tokenLiterals fun p hp => (hparts p hp).operator
    rw [htokens, operatorsRead]
    simpa using h
  have hkept : Kept cs (shape e :: shapes (rest.map snd)) := by
    rw [hcs, shapes_eq_map, List.map_map, List.map_eq_flatMap]
    exact hx.cons (kept_flatMap fun p hp => (hys p hp).part)
  have hpos : 0 < rest.length := length_pos_iff.mpr hrest
  obtain ⟨htake, hinvalid⟩ := take_operatorsRead hparts
  rw [← htokens, ← hblank] at htake hinvalid
  rw [shape_arithmetic (length_pos_iff.mp (by omega)) (by simpa using hrest)]
  have hassemble : ∀ os, assemble r cs os =
      arithmeticChain ((rest.map fst).map partOperator) os := by
    intro os
    rw [assemble_arithmetic hr, hwritten, if_neg (by simpa using hrest)]
  refine kept_chain hkept hassemble ?_ ?_ ?_ ?_ ?_
  · simp [shapes_eq_map]
  · simpa using hlength
  · simpa using sum_partOperators hparts
  · simpa using htake
  · simpa using hinvalid

end Dawgs.Ref.Frontend

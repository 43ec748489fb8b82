import Dawgs.Proofs.FrontendComments
import Dawgs.Proofs.FrontendMaps

/-!
# What the frontend loses

What is read from a tree says what the tree says exactly if the tree is
clean. The cases follow the productions. Three of them compare more than
children at their places: the operators of arithmetic, where the text of a
comment is taken for an operator; a map, where a later value takes the place
of an earlier one; and a range, where one number is read as a lower bound.
-/

namespace Dawgs.Ref.Frontend

open Lib RoseTree Cypher Grammar List Function
open Prod (fst snd)

/-- What a result says. -/
def resultShape : Result → List Outline
  | .expression e => [shape e]
  | .partial_ p => [.node (.operator p.operator) [shape p.right]]
  | .name name => [nameOutline name]
  | .lookup key => [.node .lookup [nameOutline key]]
  | .kinds names => [.node .kinds (names.map nameOutline)]
  | .types names => [.node .kinds ((names.foldl addKind []).map nameOutline)]
  | .names names => [.node .namespace_ (names.map nameOutline)]
  | .function namespaces name =>
    [.node .functionName [.node .namespace_ (namespaces.map nameOutline), nameOutline name]]
  | .filter f => filterShape (some f)
  | .idInCollection c => specifierShape (some c)
  | .where_ e => [.node .where_ [shape e]]
  | .elements elements => elementShapes elements
  | .detail p =>
    (p.variable_.toList.map fun v => variableOutline v.symbol) ++
      kindsOutline p.kinds ++ (p.range.toList.map fun r =>
        .node (.range r.startIndex r.endIndex) []) ++
      optional p.properties (shape p.properties)
  | .range r => [.node (.range r.startIndex r.endIndex) []]

/-! ## Truth values -/

variable {e : Expression}

variable {r below : Rule} {word : TokenType} {cs : List Tree} {x t : Tree} {ρ : Result}
  {ss os : List Outline} {labels types : Option (Tree × List String)}
  {properties : Option (Tree × Expression)} {rest : List (Bool × Tree)}
  {xs : List (Tree × Expression)} {names : List String}

theorem kept_unjoined (hr : JoiningRule r word below) (hcs : dense cs = [x])
    (hx : Reads below x ρ) (h : Kept [x] ss) : Kept [.node r cs] ss := by
  have hnil : dense cs = x :: ([] : List (String × Tree)).flatMap
      fun p => [token word p.1, p.2] := hcs
  have htoken : hasToken word cs = false := hasToken_joining hr hnil (isToken_of_reads hx)
  refine (Kept.of_dense hcs h).pass (fun os => ?_) ?_
  · cases hr <;> simp [assemble.eq_def, wrapIf, htoken]
  · cases hr <;> rfl

theorem kept_joined {rest : List ((String × Tree) × Expression)} (hr : JoiningRule r word below)
    (hcs : dense cs = x :: rest.flatMap fun p => [token word p.1.1, p.1.2])
    (hrest : rest ≠ []) (hread : Reads below x (.expression e))
    (hx : Kept [x] [shape e]) (hys : ∀ p ∈ rest, Kept [p.1.2] [shape p.2]) :
    Kept [.node r cs] [shape ((joinerOf r).joined (e :: rest.map snd))] := by
  have hkept : Kept cs (shapes (e :: rest.map snd)) := by
    have h := Kept.of_dense hcs (hx.cons (kept_flatMap fun p hp => (hys p hp).token))
    simpa [shapes_eq_map, comp_def, ← map_eq_flatMap] using h
  have htoken : hasToken word cs = true := by
    have hfst : dense cs = x :: (rest.map fst).flatMap fun p => [token word p.1, p.2] := by
      simpa [flatMap_map] using hcs
    rw [hasToken_joining hr hfst (isToken_of_reads hread)]
    simpa using hrest
  obtain ⟨label, hlabel, hweight, hassemble⟩ : ∃ label,
      shape ((joinerOf r).joined (e :: rest.map snd)) =
        .node label (shapes (e :: rest.map snd)) ∧ label.weight ≠ ⊤ ∧
      ∀ os, assemble r cs os = [.node label os] := by
    cases hr <;>
      refine ⟨_, by simp only [joinerOf]; rfl, ?_⟩ <;>
      simp [Label.weight, assemble.eq_def, wrapIf, htoken]
  rw [hlabel]
  exact hkept.wrap hassemble hweight (by cases hr <;> rfl)

theorem countP_not {nots : List String} (hcs : dense cs = nots.map (token .not) ++ [x])
    (hx : Reads r x ρ) : cs.countP (isToken .not) = nots.length := by
  rw [countP_eq_length_filter, ← filter_dense fun _ => rfl, hcs, ← countP_eq_length_filter]
  simp [isToken_of_reads hx]

theorem weights_nots (k : Nat) :
    outlineWeights ((fun os => [.node .not os])^[k] os) = k + outlineWeights os := by
  induction k generalizing os with
  | zero => simp
  | succ k ih =>
    rw [iterate_succ_apply, ih]
    simp [Label.weight, add_assoc]

/-- Any number of `NOT` is read as one. -/
theorem kept_negated {nots : List String} (hcs : dense cs = nots.map (token .not) ++ [x])
    (hnots : nots ≠ []) (hread : Reads .comparisonExpression x (.expression e))
    (hx : Kept [x] [shape e]) : Kept [.node .notExpression cs] [shape (.negation e)] := by
  have hcount := countP_not hcs hread
  have hkept : Kept cs [shape e] := by
    refine Kept.of_dense hcs ?_
    clear hcs hcount hnots
    induction nots with
    | nil => exact hx
    | cons not nots ih => exact ih.token
  have hpos := length_pos_iff.mpr hnots
  by_cases hone : nots.length = 1
  · rw [shape]
    refine hkept.wrap (fun os => ?_) (by simp [Label.weight]) ?_
    · simp [assemble.eq_def, hcount, hone]
    · simp [fine, hcount, hone]
  · have hweight : outlineWeights (outline (.node .notExpression cs)) =
        nots.length + outlineWeights (outlines cs) := by
      simp [assemble.eq_def, hcount, weights_nots]
    have hne : outlineWeights [shape (.negation e)] = 1 + outlineWeights [shape e] := by
      simp [shape, Label.weight]
    refine ⟨?_, fun hc => ?_, fun _ => ?_, ?_⟩
    · obtain ⟨k, hk⟩ := Nat.exists_eq_succ_of_ne_zero hpos.ne'
      simp [assemble.eq_def, hcount, hk, iterate_succ_apply']
    · simp [fine] at hc
      omega
    · rw [hne]
      simp only [outlines_cons, outlines_nil, append_nil, hweight]
      refine ENat.add_lt_add_of_lt_of_le hkept.ne_top ?_ hkept.le
      exact_mod_cast (by omega : 1 < nots.length)
    · rw [hne]
      simpa using hkept.ne_top

/-! ## Predicates -/

theorem weights_predicateChain (o : Outline) (ps : List Outline) :
    outlineWeights (predicateChain (o :: ps)) = ps.length + outlineWeights (o :: ps) := by
  induction ps generalizing o with
  | nil => simp [predicateChain]
  | cons p ps ih =>
    have h := ih (.node .comparison [o, p])
    simp only [predicateChain, foldl_cons] at h ⊢
    rw [h]
    simp only [Label.weight, weights_cons, weight_node]
    ac_rfl

section

variable {rest : List ((Rule × Tree) × PartialExpression Expression)}

theorem shape_predicates
    :
    [shape (rest.foldl (fun e p => .comparison e [p.2]) e)] =
      predicateChain (shape e :: rest.flatMap fun p =>
        resultShape (.partial_ p.2)) := by
  induction rest generalizing e with
  | nil => simp [predicateChain]
  | cons p rest ih =>
    rw [foldl_cons, ih]
    simp [predicateChain, resultShape, shape, partialShapes]

theorem kept_predicates
    (hcs : dense cs = x :: rest.map fun p => p.1.2) (hx : Kept [x] [shape e])
    (hps : ∀ p ∈ rest, Kept [p.1.2] (resultShape (.partial_ p.2))) :
    Kept [.node .stringListNullPredicateExpression cs]
      [shape (rest.foldl (fun e p => .comparison e [p.2]) e)] := by
  have hkept : Kept cs (shape e :: rest.flatMap fun p =>
      resultShape (.partial_ p.2)) := by
    refine Kept.of_dense hcs (hx.cons ?_)
    rw [map_eq_flatMap]
    exact kept_flatMap hps
  rw [shape_predicates]
  refine hkept.node (n := 1) (k := rest.length) rfl (by simp)
    (fun _ _ => rfl) (fun os hos => ?_) fun os hos => ?_
  all_goals
    obtain ⟨o, ps, rfl⟩ : ∃ o ps, os = o :: ps := exists_cons_of_length_pos (by simp [hos])
  · rfl
  · rw [weights_predicateChain]
    have hlength : ps.length = rest.length := by
      simpa [resultShape] using hos
    rw [hlength]

end

theorem operatorsWritten_dense (cs : List Tree) :
    operatorsWritten (dense cs) = operatorsWritten cs := by
  induction cs with
  | nil => rfl
  | cons t ts ih =>
    rw [dense_cons]
    split
    next h =>
      obtain ⟨text, rfl⟩ := (isSpace_iff).mp h
      simpa [operatorsWritten, token] using ih
    · simp only [operatorsWritten, filterMap_cons] at ih ⊢
      rw [ih]

theorem operatorsWritten_symbol {text : String} {operator : Operator} {after : List Tree}
    (hoperator : parseOperator text = some operator) (hcs : cs = symbol text :: after)
    (hafter : dense after = [x]) (hx : Reads r x ρ) : operatorsWritten cs = [operator] := by
  obtain ⟨ds, rfl⟩ := reads_node hx
  have h := operatorsWritten_dense after
  rw [hafter] at h
  subst hcs
  simp only [operatorsWritten, symbol, token, filterMap_cons,
    filterMap_nil, hoperator, Option.getD_some] at h ⊢
  rw [← h]

/-! ## Lookups, indexes and labels -/

theorem weight_under (o p : Outline) :
    weight Label.weight (under o p) = weight Label.weight o + weight Label.weight p := by
  obtain ⟨label, os⟩ := p
  simp only [weight_node]
  ac_rfl

theorem weights_suffixChain (o : Outline) :
    outlineWeights (suffixChain (o :: os)) = outlineWeights (o :: os) := by
  induction os generalizing o with
  | nil => rfl
  | cons p os ih =>
    have h := ih (under o p)
    simp only [suffixChain, foldl_cons, weights_cons, weight_under] at h ⊢
    rw [h, add_assoc]

theorem shape_lookups {rest : List (Tree × String)} :
    suffixChain (shape (rest.foldl (fun e p => .propertyLookup e p.2) e) ::
        os) = suffixChain (shape e :: (rest.flatMap fun p =>
        resultShape (.lookup p.2)) ++ os) := by
  induction rest generalizing e with
  | nil => rfl
  | cons p rest ih =>
    rw [foldl_cons, ih]
    simp [suffixChain, resultShape, shape, under]

theorem shape_suffixes {rest : List (Tree × String)}
    {labels : Option (Tree × List String)} :
    [shape (kindMatch (rest.foldl (fun e p => .propertyLookup e p.2) e)
        (labels.map snd))] = suffixChain (shape e :: (rest.flatMap fun p =>
        resultShape (.lookup p.2)) ++ labels.toList.flatMap fun p => resultShape (.kinds p.2)) := by
  rw [← shape_lookups]
  cases labels with
  | none => rfl
  | some p => simp [kindMatch, shape, suffixChain, resultShape, under]

theorem kept_nonArithmetic {a : Tree} {rest : List (Tree × String)}
    (hcs : dense cs = a :: (rest.map fst ++ (labels.map fst).toList))
    (ha : Kept [a] [shape e]) (hrest : ∀ p ∈ rest, Kept [p.1] (resultShape (.lookup p.2)))
    (hlabels : ∀ p ∈ labels, Kept [p.1] (resultShape (.kinds p.2))) :
    Kept [.node .nonArithmeticOperatorExpression cs]
      [shape (kindMatch (rest.foldl (fun e p => .propertyLookup e p.2) e) (labels.map snd))] := by
  have hkept : Kept cs (shape e :: (rest.flatMap fun p =>
      resultShape (.lookup p.2)) ++ labels.toList.flatMap fun p => resultShape (.kinds p.2)) := by
    rw [List.map_eq_flatMap] at hcs
    exact Kept.of_dense hcs (ha.cons ((kept_flatMap hrest).append (kept_toList hlabels)))
  rw [shape_suffixes]
  refine hkept.node (n := 1) (k := 0) rfl (by simp)
    (fun _ _ => rfl) (fun os hos => ?_) fun os hos => ?_
  all_goals
    obtain ⟨o, os, rfl⟩ : ∃ o os', os = o :: os' := exists_cons_of_length_pos (by simp [hos])
  · rfl
  · rw [weights_suffixChain, zero_add]

/-- What follows an index does not make up for it. -/
theorem kept_indexed (hindex : cs.any (isRule .listOperatorExpression)) :
    Kept [.node .nonArithmeticOperatorExpression cs] [shape e] := by
  obtain ⟨t, ht, hrule⟩ := any_eq_true.mp hindex
  obtain ⟨ds, rfl⟩ : ∃ ds, t = .node .listOperatorExpression ds := by
    cases t with
    | token t => simp [isRule] at hrule
    | node r ds => exact ⟨ds, by simpa [isRule] using hrule⟩
  obtain ⟨cs₁, cs₂, rfl⟩ := append_of_mem ht
  obtain ⟨o, ho, htop⟩ : ∃ o, outline (.node .listOperatorExpression ds) = [o] ∧
      weight Label.weight o = ⊤ := by
    rw [outline_node, assemble.eq_def]
    dsimp only
    split <;> exact ⟨_, rfl, by simp [Label.weight]⟩
  have hmem : o ∈ outlines (cs₁ ++ .node .listOperatorExpression ds :: cs₂) := by
    simp only [outlines_append, outlines_cons, ho]
    simp
  obtain ⟨o', os, hos⟩ := exists_cons_of_ne_nil (ne_nil_of_mem hmem)
  have hweights := weights_eq_top_of_mem Label.weight hmem htop
  refine ⟨?_, fun hc => ?_, fun _ => ?_, ?_⟩
  · simp [hos, assemble.eq_def, suffixChain]
  · simp [fine] at hc
  · simp only [outlines_cons _ [], outline_node, outlines_nil, append_nil, assemble.eq_def]
    rw [hos, weights_suffixChain, ← hos]
    refine lt_of_lt_of_eq ?_ hweights.symm
    simpa using (weight_shape_ne_top e).lt_top
  · simpa using weight_shape_ne_top e

theorem kept_fallThrough (hr : r ∈ fallThrough) : Kept [.node r cs] [shape e] := by
  obtain ⟨label, hassemble, htop⟩ : ∃ label,
      assemble r cs (outlines cs) = [.node label (outlines cs)] ∧ label.weight = ⊤ := by
    fin_cases hr <;> exact ⟨_, rfl, rfl⟩
  have hfine : fine r cs = false := by
    fin_cases hr <;> rfl
  refine ⟨by simp [hassemble], fun hc => ?_, fun _ => ?_, ?_⟩
  · simp [hfine] at hc
  · simpa [hassemble, htop] using (weight_shape_ne_top e).lt_top
  · simpa using weight_shape_ne_top e

/-! ## Names -/

theorem clean_schemaName (ht : Derives .schemaName t) : clean t = true := by
  obtain ⟨r, s, hr, rfl⟩ := derives_schemaName ht
  fin_cases hr <;> simp [fine]

theorem clean_schemaNamed (hr : r ∈ [Rule.propertyKeyName, .labelName, .relTypeName])
    (ht : Derives r t) : clean t = true := by
  obtain ⟨x, hx, rfl⟩ := derives_schemaNamed hr ht
  fin_cases hr <;> simp [fine, clean_schemaName hx]

theorem clean_variable (ht : Derives .variable_ t) : clean t = true := by
  obtain ⟨s, rfl⟩ := derives_variable ht
  simp [fine]

theorem weight_name_ne_top (name : String) : outlineWeights [nameOutline name] ≠ ⊤ := by
  simp [nameOutline, Label.weight]

theorem kept_variable (ht : Derives .variable_ t) : Kept [t] [variableOutline (text t)] := by
  have hclean := clean_variable ht
  obtain ⟨cs, rfl⟩ := derives_node ht
  refine kept_const hclean ?_ ?_
  · simp [assemble.eq_def, text]
  · simp [variableOutline, Label.weight]

theorem kept_symbolicName (ht : Derives .symbolicName t) : Kept [t] [nameOutline (text t)] := by
  obtain ⟨s, rfl⟩ := derives_leaf (by simp) ht
  refine kept_const (by simp [fine]) ?_ (weight_name_ne_top _)
  simp [assemble.eq_def, text]

/-! ## Ranges -/

theorem integer_of_reads {n : Int}
    (h : Reads .integerLiteral t (.expression (.literal ⟨.integer n, false⟩))) :
    ∃ text, t = .node .integerLiteral [token .integer text] ∧ parseInt text = some n := by
  cases h with
  | integerLiteral hcs hvalue => exact ⟨_, by rw [hcs], hvalue⟩
  | fallThrough hr => simp [fallThrough] at hr
  | unjoined hr | operand hr => cases hr

theorem kept_range {lower upper : Option Int} (hclean : clean (.node .rangeLiteral cs) = true)
    (hbounds : rangeBounds cs = (lower, upper)) :
    Kept [.node .rangeLiteral cs] (resultShape (.range ⟨lower, upper⟩)) := by
  refine kept_const hclean ?_ ?_
  · simp [assemble.eq_def, hbounds, resultShape]
  · simp [resultShape, Label.weight]

theorem kept_rangeLiteral {first : Option (Tree × Int)}
    {rest : Option (Option (Tree × Int))}
    (hcs : cs = token .asterisk "*" :: (first.map fst).toList ++ rest.toList.flatMap fun last =>
        token .range ".." :: (last.map fst).toList)
    (hfirst : ∀ p ∈ first, Reads .integerLiteral p.1 (.expression (.literal ⟨.integer p.2, false⟩)))
    (hlast : ∀ last ∈ rest, ∀ p ∈ last, Reads .integerLiteral p.1
      (.expression (.literal ⟨.integer p.2, false⟩))) :
    Kept [.node .rangeLiteral cs] (resultShape
      (.range ⟨first.map snd, (rest.getD none).map snd⟩)) := by
  have hinteger : ∀ p : Tree × Int, Reads .integerLiteral p.1
      (.expression (.literal ⟨.integer p.2, false⟩)) →
      clean p.1 = true ∧ isRule .integerLiteral p.1 = true ∧
        isToken .range p.1 = false ∧ parseInt (text p.1) = some p.2 := by
    intro p hp
    obtain ⟨s, hs, hn⟩ := integer_of_reads hp
    rw [hs]
    exact ⟨rfl, rfl, rfl, by simpa [text, texts, token] using hn⟩
  subst hcs
  rcases first with _ | p <;> rcases rest with _ | _ | q
  · exact kept_range rfl rfl
  · exact kept_range rfl rfl
  · obtain ⟨hc, hr, ht, hn⟩ := hinteger q (hlast _ rfl _ rfl)
    refine kept_range ?_ ?_
    · simp [fine, hasToken, hc]
    · simp [rangeBounds, integerBound, hasToken, hr, hn]
  · obtain ⟨hc, hr, ht, hn⟩ := hinteger p (hfirst _ rfl)
    refine ⟨rfl, fun h => ?_, fun _ => ?_, ?_⟩
    · simp [fine, hasToken, hr, ht] at h
    · simp [assemble.eq_def, rangeBounds, integerBound, hasToken, hr, ht, hn,
        resultShape, Label.weight]
    · simp [resultShape, Label.weight]
  · obtain ⟨hc, hr, ht, hn⟩ := hinteger p (hfirst _ rfl)
    refine kept_range ?_ ?_
    · simp [fine, hasToken, hc]
    · simp [rangeBounds, integerBound, hasToken, hr, ht, hn]
  · obtain ⟨hc, hr, ht, hn⟩ := hinteger p (hfirst _ rfl)
    obtain ⟨hc', hr', ht', hn'⟩ := hinteger q (hlast _ rfl _ rfl)
    refine kept_range ?_ ?_
    · simp [fine, hasToken, hc, hc']
    · simp [rangeBounds, integerBound, hasToken, hr, ht, hn, hr', hn']

/-! ## Patterns -/

theorem foldl_addKind_ne_nil {kinds : Kinds}
    (h : kinds ≠ []) : names.foldl addKind kinds ≠ [] := by
  induction names generalizing kinds with
  | nil => exact h
  | cons name names ih =>
    refine ih ?_
    unfold addKind
    split <;> simp [h]

theorem kinds_ne_nil
    (h : Reads .nodeLabels t (.kinds names)) : names ≠ [] := by
  cases h with
  | nodeLabels _ hne _ => simpa using hne

theorem types_ne_nil
    (h : Reads .relationshipTypes t (.types names)) : names.foldl addKind [] ≠ [] := by
  cases h with
  | relationshipTypes _ _ _ =>
    rw [foldl_cons]
    exact foldl_addKind_ne_nil (by simp [addKind])

theorem properties_isNil (h : Reads .properties t (.expression e)) : e.isNil = false := by
  cases h with
  | mapProperties _ _ | parameterProperties _ _ => rfl
  | fallThrough hr => simp [fallThrough] at hr
  | unjoined hr | joined hr | operand hr | arithmetic hr => cases hr

theorem kept_maybeVariable {v : Maybe} (hv : ∀ x ∈ v, Derives .variable_ x) :
    Kept v.toList ((v.map fun x => (⟨text x⟩ : Variable)).toList.map
      fun v => variableOutline v.symbol) := by
  cases v with
  | none => exact kept_nil
  | some x => exact kept_variable (hv x rfl)

theorem kept_maybeLabels (hread : ∀ p ∈ labels, Reads .nodeLabels p.1 (.kinds p.2))
    (h : ∀ p ∈ labels, Kept [p.1] (resultShape (.kinds p.2))) :
    Kept (labels.map fst).toList (kindsOutline ((labels.map snd).getD [])) := by
  cases labels with
  | none => exact kept_nil
  | some p =>
    have hne := kinds_ne_nil (hread p rfl)
    simpa [kindsOutline, hne, resultShape] using h p rfl

theorem kept_maybeTypes (hread : ∀ p ∈ types, Reads .relationshipTypes p.1 (.types p.2))
    (h : ∀ p ∈ types, Kept [p.1] (resultShape (.types p.2))) :
    Kept (types.map fst).toList (kindsOutline (((types.map snd).getD []).foldl addKind [])) := by
  cases types with
  | none => exact kept_nil
  | some p =>
    have hne := types_ne_nil (hread p rfl)
    simpa [kindsOutline, hne, resultShape] using h p rfl

theorem kept_maybeProperties (hread : ∀ p ∈ properties, Reads .properties p.1 (.expression p.2))
    (h : ∀ p ∈ properties, Kept [p.1] [shape p.2]) :
    Kept (properties.map fst).toList
      (optional ((properties.map snd).getD .nil) (shape ((properties.map snd).getD .nil))) := by
  cases properties with
  | none => exact kept_nil
  | some p => simpa [optional, properties_isNil (hread p rfl)] using h p rfl

theorem nodesIn_intersperse (xs : List Tree) {text : String} :
    nodesIn (xs.intersperse (symbol text)) = nodesIn xs := by
  induction xs with
  | nil => rfl
  | cons x xs ih =>
    cases xs with
    | nil => rfl
    | cons y ys =>
      rw [nodesIn_cons x (y :: ys), ← ih]
      exact nodesIn_cons x _

theorem kept_separated {text : String} (h : ∀ p ∈ xs, Kept [p.1] [shape p.2]) :
    Kept ((xs.map fst).intersperse (symbol text)) (shapes (xs.map snd)) := by
  rw [shapes_eq_map, List.map_map]
  exact (kept_map h).of_nodesIn (nodesIn_intersperse _)

theorem kept_mark (hr : r ∈ [Rule.leftArrowHead, .rightArrowHead, .dash])
    (ht : Derives r t) : Kept [t] [] := by
  obtain ⟨s, rfl⟩ := derives_leaf (by fin_cases hr <;> simp) ht
  fin_cases hr <;>
    exact ⟨rfl, fun _ => rfl, fun h => by simp [fine] at h, by simp⟩

theorem kept_maybeMark {x : Maybe} (hr : r ∈ [Rule.leftArrowHead, .rightArrowHead, .dash])
    (hx : ∀ t ∈ x, Derives r t) : Kept x.toList [] := by
  cases x with
  | none => exact kept_nil
  | some t => exact kept_mark hr (hx t rfl)

section

variable (hx : Derives .relTypeName x) (hrest : ∀ p ∈ rest, Derives .relTypeName p.2)
include hx hrest

/-- The names of the types, among colons and bars. -/
theorem filter_types :
    (symbol ":" :: x :: rest.flatMap fun p =>
      symbol "|" :: (if p.1 then [symbol ":", p.2] else [p.2])).filter
        (isRule .relTypeName) = x :: rest.map snd := by
  have hname : ∀ t, Derives .relTypeName t → isRule .relTypeName t = true :=
    fun t ht => isRule_of_derives ht
  have hsymbol : ∀ text, isRule .relTypeName (symbol text) = false := fun text => rfl
  rw [filter_cons_of_neg (by simp [hsymbol]), filter_cons_of_pos (hname x hx), filter_flatMap,
    map_eq_flatMap]
  congr 1
  refine flatMap_congr fun p hp => ?_
  have hp := hname p.2 (hrest p hp)
  cases p.1 <;> simp [hsymbol, hp]

theorem clean_types :
    cleanAll (symbol ":" :: x :: rest.flatMap fun p =>
      symbol "|" :: (if p.1 then [symbol ":", p.2] else [p.2])) = true := by
  have hx := clean_schemaNamed (by simp) hx
  have hsymbol : ∀ text, clean (symbol text) = true := clean_terminal _
  simp only [cleanAll_cons, hsymbol, hx, Bool.true_and]
  induction rest with
  | nil => simp
  | cons p rest ih =>
    have hp := clean_schemaNamed (by simp) (hrest p (by simp))
    have ih := ih fun q hq => hrest q (by simp [hq])
    cases hb : p.1 <;> simp [hb, hsymbol, hp, ih]

end

theorem kept_relationshipTypes (hcs : dense cs = symbol ":" :: x :: rest.flatMap fun p =>
      symbol "|" :: (if p.1 then [symbol ":", p.2] else [p.2]))
    (hx : Derives .relTypeName x) (hrest : ∀ p ∈ rest, Derives .relTypeName p.2) :
    Kept [.node .relationshipTypes cs]
      (resultShape (.types (text x :: rest.map fun p => text p.2))) := by
  have hnames : kindNames cs = (text x :: rest.map fun p => text p.2).foldl addKind [] := by
    rw [kindNames, ← filter_dense fun _ => rfl, hcs, filter_types hx hrest, map_cons, List.map_map]
    rfl
  refine kept_const ?_ ?_ ?_
  · rw [clean_node, ← cleanAll_dense, hcs, clean_types hx hrest]
    rfl
  · simp [assemble.eq_def, hnames, resultShape]
  · simpa [resultShape, Label.weight] using weights_nameOutline_ne_top _

theorem kept_nodePattern {v : Maybe} (hcs : dense cs = symbol "(" :: v.toList ++
      (labels.map fst).toList ++ (properties.map fst).toList ++
        [symbol ")"]) (hv : ∀ x ∈ v, Derives .variable_ x)
    (hlabels : ∀ p ∈ labels, Reads .nodeLabels p.1 (.kinds p.2))
    (hproperties : ∀ p ∈ properties, Reads .properties p.1 (.expression p.2))
    (klabels : ∀ p ∈ labels, Kept [p.1] (resultShape (.kinds p.2)))
    (kproperties : ∀ p ∈ properties, Kept [p.1] [shape p.2]) :
    Kept [.node .nodePattern cs] [shape (.nodePattern
      ⟨v.map fun x => ⟨text x⟩, (labels.map snd).getD [], (properties.map snd).getD .nil⟩)] := by
  have hkept := Kept.of_dense hcs ((((kept_maybeVariable hv).append
    (kept_maybeLabels hlabels klabels)).append
      (kept_maybeProperties hproperties kproperties)).append
        (kept_nil.token (t := ⟨.symbol, ")"⟩))).token
  rw [append_nil] at hkept
  exact hkept.wrap

theorem kept_relationshipDetail {v : Maybe}
    {range : Option (Tree × PatternRange)}
    (hcs : dense cs = symbol "[" :: v.toList ++ (types.map fst).toList ++ (range.map fst).toList ++
        (properties.map fst).toList ++ [symbol "]"])
    (hv : ∀ x ∈ v, Derives .variable_ x)
    (htypes : ∀ p ∈ types, Reads .relationshipTypes p.1 (.types p.2))
    (hproperties : ∀ p ∈ properties, Reads .properties p.1 (.expression p.2))
    (ktypes : ∀ p ∈ types, Kept [p.1] (resultShape (.types p.2)))
    (krange : ∀ p ∈ range, Kept [p.1] (resultShape (.range p.2)))
    (kproperties : ∀ p ∈ properties, Kept [p.1] [shape p.2]) :
    Kept [.node .relationshipDetail cs] (resultShape (.detail ⟨v.map fun x => ⟨text x⟩,
        ((types.map snd).getD []).foldl addKind [], .both,
        range.map snd, (properties.map snd).getD .nil⟩)) := by
  have hrange : Kept (range.map fst).toList ((range.map snd).toList.map fun r =>
        .node (.range r.startIndex r.endIndex) []) := by
    cases range with
    | none => exact kept_nil
    | some p => exact krange p rfl
  have hkept := Kept.of_dense hcs (((((kept_maybeVariable hv).append
    (kept_maybeTypes htypes ktypes)).append hrange).append
      (kept_maybeProperties hproperties kproperties)).append
        (kept_nil.token (t := ⟨.symbol, "]"⟩))).token
  rw [append_nil] at hkept
  exact hkept.pass

theorem any_isRule {r' : Rule} {x : Maybe} (hx : ∀ t ∈ x, Derives r t) :
    x.any (isRule r') = (x.isSome && decide (r = r')) := by
  cases x with
  | none => rfl
  | some t => simp [isRule_of_derives (hx t rfl)]

theorem kept_relationshipPattern {left right : Maybe} {dash dash' : Tree}
    {detail : Option (Tree × RelationshipPattern Expression)}
    (hcs : dense cs = left.toList ++ dash :: (detail.map fst).toList ++ dash' :: right.toList)
    (hdash : Derives .dash dash) (hdash' : Derives .dash dash')
    (hleft : ∀ x ∈ left, Derives .leftArrowHead x) (hright : ∀ x ∈ right, Derives .rightArrowHead x)
    (hdetail : ∀ p ∈ detail, Reads .relationshipDetail p.1 (.detail p.2))
    (kdetail : ∀ p ∈ detail, Kept [p.1] (resultShape (.detail p.2))) :
    Kept [.node .relationshipPattern cs] [shape (.relationshipPattern
      { (detail.map snd).getD newRelationshipPattern with
        direction := directionOf left.isSome right.isSome })] := by
  have hkept : Kept cs (resultShape (.detail ((detail.map snd).getD newRelationshipPattern))) := by
    have hd : Kept (detail.map fst).toList (resultShape
        (.detail ((detail.map snd).getD newRelationshipPattern))) := by
      cases detail with
      | none => exact kept_nil
      | some p => exact kdetail p rfl
    have h := Kept.of_dense hcs (((kept_maybeMark (by simp) hleft).append
      ((kept_mark (by simp) hdash).cons hd)).append
        ((kept_mark (by simp) hdash').cons (kept_maybeMark (by simp) hright)))
    simpa using h
  have harrows : ∀ r, r ≠ .dash → r ≠ .relationshipDetail →
      cs.any (isRule r) = (left.any (isRule r) || right.any (isRule r)) := by
    intro r hr hr'
    have h₁ : isRule r dash = false := by
      simpa [isRule_of_derives hdash] using hr.symm
    have h₂ : isRule r dash' = false := by
      simpa [isRule_of_derives hdash'] using hr.symm
    have h₃ : (detail.map fst).any (isRule r) = false := by
      cases detail with
      | none => rfl
      | some p => simpa [isRule_of_reads (hdetail p rfl)] using hr'.symm
    rw [← any_dense (fun _ => rfl)]
    cases left <;> cases right <;> cases detail <;> simp_all
  have hdirection : directionOf (cs.any (isRule .leftArrowHead))
      (cs.any (isRule .rightArrowHead)) = directionOf left.isSome right.isSome := by
    rw [harrows _ (by simp) (by simp), harrows _ (by simp) (by simp)]
    simp [any_isRule hleft, any_isRule hright]
  refine hkept.wrap fun os => ?_
  simp only [assemble.eq_def, hdirection]

/-! ## Other productions -/

theorem kept_uncompared (hcs : dense cs = [x])
    (hread : Reads .stringListNullPredicateExpression x ρ) (hx : Kept [x] ss) :
    Kept [.node .comparisonExpression cs] ss := by
  have hany : cs.any (isRule .partialComparisonExpression) = false := by
    rw [← any_dense (fun _ => rfl), hcs]
    simp [isRule_of_reads hread]
  refine (Kept.of_dense hcs hx).pass fun os => ?_
  simp [assemble.eq_def, wrapIf, hany]

theorem kept_compared {rest : List (Tree × PartialExpression Expression)}
    (hcs : dense cs = x :: rest.map fst) (hrest : rest ≠ [])
    (hreads : ∀ p ∈ rest, Reads .partialComparisonExpression p.1 (.partial_ p.2))
    (hx : Kept [x] [shape e]) (hps : ∀ p ∈ rest, Kept [p.1] (resultShape (.partial_ p.2))) :
    Kept [.node .comparisonExpression cs] [shape (.comparison e (rest.map snd))] := by
  have hany : cs.any (isRule .partialComparisonExpression) = true := by
    obtain ⟨p, hp⟩ := List.exists_mem_of_ne_nil rest hrest
    rw [← any_dense (fun _ => rfl), hcs, List.any_eq_true]
    exact ⟨p.1, by simpa using .inr ⟨p.2, hp⟩, isRule_of_reads (hreads p hp)⟩
  have hkept := Kept.of_dense hcs (hx.cons (kept_map hps))
  rw [shape, partialShapes_eq_map, List.map_map]
  refine hkept.wrap fun os => ?_
  simp [assemble.eq_def, wrapIf, hany]

theorem kept_symbol {after : List Tree} {text : String} (hcs : cs = symbol text :: after)
    (hafter : dense after = [x]) (hx : Kept [x] ss) : Kept cs ss := by
  subst hcs
  exact (Kept.of_dense hafter hx).token

theorem kept_predicate {ds : List Tree} {operator : Operator}
    (hcs : dense cs = ds) (hds : Kept ds [shape e]) (hoperator : predicateOperator cs = operator) :
    Kept [.node .stringPredicateExpression cs] (resultShape (.partial_ ⟨operator, e⟩)) := by
  refine (Kept.of_dense hcs hds).wrap (fun os => ?_) weight_operator_ne_top
  simp only [assemble.eq_def, hoperator]

theorem kept_regularExpression (ht : Derives .regularExpression t) : Kept [t] [] := by
  cases ht with
  | regularExpression hcs => exact (Kept.of_dense hcs kept_nil.token).pass
  | unsupported hr => simp [unsupported] at hr
  | joining hr | arithmetic hr | naming hr => cases hr
  | mark hr => simp at hr

/-- A rule that has only tokens. -/
theorem kept_terminals {ds : List Tree} (hcs : dense cs = ds)
    (hds : cleanAll ds = true) (hassemble : assemble r cs (outlines cs) = ss)
    (hne : outlineWeights ss ≠ ⊤) (hfine : fine r cs = true := by rfl) : Kept [.node r cs] ss := by
  refine kept_const ?_ hassemble hne
  rw [clean_node, hfine, ← cleanAll_dense, hcs, hds]
  rfl

theorem kept_value {value : LiteralValue} (hclean : clean (.node r cs) = true)
    (hassemble : assemble r cs (outlines cs) = literalOutline (some value)) :
    Kept [.node r cs] (resultShape (.expression (.literal ⟨value, false⟩))) := by
  refine kept_const hclean ?_ ?_
  · simp [hassemble, literalOutline, resultShape, shape]
  · simp [resultShape, shape, Label.weight]

theorem kept_functionInvocation {name : Tree} {distinct : Option String}
    {namespaces : List String} {symbolicName : String}
    (hcs : dense cs = name :: symbol "(" :: (distinct.toList.map (token .distinct)) ++
        (xs.map fst).intersperse (symbol ",") ++ [symbol ")"])
    (hname : Reads .functionName name (.function namespaces symbolicName))
    (hxs : ∀ p ∈ xs, Reads .expression p.1 (.expression p.2))
    (kname : Kept [name] (resultShape (.function namespaces symbolicName)))
    (kxs : ∀ p ∈ xs, Kept [p.1] [shape p.2]) :
    Kept [.node .functionInvocation cs] [shape (.functionInvocation
      distinct.isSome namespaces symbolicName (xs.map snd))] := by
  have hdistinct : hasToken .distinct cs = distinct.isSome := by
    have harguments : ((xs.map fst).intersperse (symbol ",")).any (isToken .distinct) = false := by
      refine hasToken_intersperse (by simp) fun x hx => ?_
      obtain ⟨p, hp, rfl⟩ := mem_map.mp hx
      exact isToken_of_reads (hxs p hp)
    rw [hasToken_eq hcs (by simp)]
    cases distinct <;> simp [isToken_of_reads hname, harguments]
  have hkept : Kept cs (resultShape (.function namespaces symbolicName) ++
      shapes (xs.map snd)) := by
    refine Kept.of_dense hcs ?_
    have harguments : Kept ((xs.map fst).intersperse (symbol ",") ++
        [symbol ")"]) (shapes (xs.map snd) ++ []) := (kept_separated kxs).append kept_nil.token
    rw [append_nil] at harguments
    cases distinct with
    | none => exact kname.cons harguments.token
    | some word => exact kname.cons harguments.token.token
  refine hkept.wrap fun os => ?_
  simp only [assemble.eq_def, hdistinct]

theorem kept_namespace {xs : List Tree} (hcs : cs = xs.flatMap fun x => [x, symbol "."])
    (hxs : ∀ x ∈ xs, Derives .symbolicName x) :
    Kept [.node .namespace_ cs] (resultShape (.names (xs.map text))) := by
  have hkept : Kept cs (xs.flatMap fun x => [nameOutline (text x)]) := by
    rw [hcs]
    refine kept_flatMap fun x hx => ?_
    exact (kept_symbolicName (hxs x hx)).cons kept_nil.token
  rw [resultShape, List.map_map, List.map_eq_flatMap]
  exact hkept.wrap

theorem kept_filterExpression {c : IDInCollection Expression}
    {condition : Option (Tree × Expression)} (hcs : dense cs = x :: (condition.map fst).toList)
    (hx : Kept [x] (resultShape (.idInCollection c)))
    (hcondition : ∀ p ∈ condition, Kept [p.1] (resultShape (.where_ p.2))) :
    Kept [.node .filterExpression cs] (resultShape
      (.filter ⟨some c, condition.map fun p => ⟨[p.2]⟩⟩)) := by
  have hwhere : whereShape (condition.map fun p => ⟨[p.2]⟩) =
      condition.toList.flatMap fun p => resultShape (.where_ p.2) := by
    cases condition <;> simp [whereShape, shapes, resultShape]
  have hkept := Kept.of_dense hcs (hx.cons (kept_toList hcondition))
  rw [← hwhere] at hkept
  exact hkept.wrap

theorem kept_relationshipsPattern {n : Tree} {p : NodePattern Expression}
    {chain : List (Tree × List (PatternElement Expression))} (hcs : dense cs = n :: chain.map fst)
    (hn : Kept [n] [shape (.nodePattern p)])
    (hchain : ∀ q ∈ chain, Kept [q.1] (resultShape (.elements q.2))) :
    Kept [.node .relationshipsPattern cs] (resultShape
      (.elements (⟨.nodePattern p⟩ :: (chain.map snd).flatten))) := by
  have hlinks : elementShapes (chain.map snd).flatten =
      chain.flatMap fun q => resultShape (.elements q.2) := by
    simp [elementShapes_eq_map, resultShape, flatMap, comp_def]
  rw [map_eq_flatMap] at hcs
  have hkept := Kept.of_dense hcs (hn.cons (kept_flatMap hchain))
  rw [resultShape, elementShapes, hlinks]
  exact hkept.pass

/-! ## All productions -/

theorem kept_of_reads (h : Reads r t ρ) : Kept [t] (resultShape ρ) := by
  induction h with
  | expression hcs _ ih => exact (Kept.of_dense hcs ih).pass
  | unjoined hr hcs hx ih => exact kept_unjoined hr hcs hx ih
  | joined hr hcs hrest hx _ ih ihs => exact kept_joined hr hcs hrest hx ih ihs
  | unnegated hcs hx ih =>
    have hnots : dense _ = ([] : List String).map (token .not) ++ _ := hcs
    have hcount := countP_not hnots hx
    refine (Kept.of_dense hcs ih).pass (fun _ => ?_) ?_
    · simp [assemble.eq_def, hcount]
    · simp [fine, hcount]
  | negated hcs hnots hx ih => exact kept_negated hcs hnots hx ih
  | uncompared hcs hx ih => exact kept_uncompared hcs hx ih
  | compared hcs hrest _ hps ih ihs => exact kept_compared hcs hrest hps ih ihs
  | partialComparison hoperator hcs hafter hx ih =>
    have hwritten := operatorsWritten_symbol hoperator hcs hafter hx
    refine (kept_symbol hcs hafter ih).wrap (fun os => ?_) weight_operator_ne_top
    simp only [assemble.eq_def, hwritten]
    rfl
  | predicates hcs _ _ _ ih ihs => exact kept_predicates hcs ih ihs
  | regularPredicate hcs hr hx ih =>
    refine kept_predicate hcs ((kept_regularExpression hr).cons ih) ?_
    simp [predicateOperator, hasToken_eq hcs, isToken_of_derives hr, isToken_of_reads hx]
  | startsWith hcs hx ih | endsWith hcs hx ih =>
    refine kept_predicate hcs ih.token.token ?_
    simp [predicateOperator, hasToken_eq hcs, isToken_of_reads hx]
  | contains hcs hx ih =>
    refine kept_predicate hcs ih.token ?_
    simp [predicateOperator, hasToken_eq hcs, isToken_of_reads hx]
  | listPredicate hcs _ ih =>
    exact (Kept.of_dense hcs ih.token).wrap (fun _ => rfl) weight_operator_ne_top
  | isNull hcs | isNotNull hcs =>
    refine kept_terminals hcs (by simp) ?_ ?_
    · simp [assemble.eq_def, hasToken_eq hcs, resultShape, shape, nullLiteral]
    · simp [resultShape, shape, nullLiteral, Label.weight]
  | operand hr hcs hx ih => exact kept_operand hr hcs hx ih
  | arithmetic hr hcs hrest hoperators hspaces hx hys ih ihs =>
    exact kept_arithmetic hr hcs hrest hoperators hspaces hx hys ih ihs
  | unsigned hcs hx ih | atom hr hcs hx ih | literal hr hcs hx ih | numberLiteral hr hcs hx ih =>
    obtain ⟨ds, rfl⟩ := reads_node hx
    subst hcs
    exact ih.pass
  | signed hoperator hcs hafter hx ih =>
    have hwritten := operatorsWritten_symbol hoperator hcs hafter hx
    refine (kept_symbol hcs hafter ih).wrap fun os => ?_
    simp only [assemble.eq_def, hwritten]
    rfl
  | indexed hindex => exact kept_indexed hindex
  | nonArithmetic hcs _ _ _ ih ihs ihls => exact kept_nonArithmetic hcs ih ihs ihls
  | propertyLookup hcs _ ih | where_ hcs _ ih => exact (Kept.of_dense hcs ih.token).wrap
  | propertyKeyName ht | labelName ht =>
    have hclean := clean_schemaNamed (by simp) ht
    obtain ⟨cs, rfl⟩ := derives_node ht
    exact kept_const hclean rfl (weight_name_ne_top _)
  | nodeLabels hcs _ _ ihs =>
    have hkept := Kept.of_dense hcs (kept_map ihs)
    rw [resultShape, List.map_map]
    exact hkept.wrap
  | nodeLabel hcs _ ih => exact (Kept.of_dense hcs ih.token).pass
  | countAll hcs =>
    refine kept_terminals hcs (by simp [symbol]) ?_ ?_
    · simp [assemble.eq_def, hasToken_eq hcs, resultShape, shape, shapes]
    · simp [resultShape, shape, shapes, nameOutline, Label.weight]
  | fallThrough hr => exact kept_fallThrough hr
  | nullLiteral hcs | stringLiteral hcs | numberedParameter hcs =>
    subst hcs
    refine kept_const rfl ?_ ?_
    · simp [assemble.eq_def, texts, text, token, resultShape, shape, nullLiteral]
    · simp [resultShape, shape, nullLiteral, Label.weight]
  | booleanLiteral hcs hvalue | doubleLiteral hcs hvalue | integerLiteral hcs hvalue =>
    subst hcs
    refine kept_value rfl ?_
    simp [assemble.eq_def, symbol, token, texts, text, hvalue]
  | listLiteral hcs _ ihs =>
    have hkept := Kept.of_dense hcs ((kept_separated ihs).append (kept_nil.token)).token
    rw [append_nil] at hkept
    exact hkept.wrap
  | mapLiteral hcs hkeys hvalues ihs ihs' => exact kept_mapLiteral hcs hkeys hvalues ihs ihs'
  | namedParameter hcs hx =>
    obtain ⟨s, rfl⟩ := derives_leaf (by simp) hx
    subst hcs
    refine kept_const rfl ?_ ?_
    · simp [assemble.eq_def, texts, resultShape, shape]
    · simp [resultShape, shape, Label.weight]
  | variable_ ht => exact kept_variable ht
  | quantifier htype hcs hx ih =>
    have htype := quantifierType_eq htype hcs fun _ => isToken_of_reads hx
    have hkept := Kept.of_dense hcs ((ih.append kept_nil.token).token).token
    refine hkept.wrap fun os => ?_
    simp only [assemble.eq_def, htype]
  | filterExpression hcs _ _ ih ih' => exact kept_filterExpression hcs ih ih'
  | idInColl hcs hv _ ih => exact (Kept.of_dense hcs ((kept_variable hv).cons ih.token)).wrap
  | patternPredicate hcs hx ih =>
    subst hcs
    exact ih.wrap
  | relationshipsPattern hcs _ _ ih ihs => exact kept_relationshipsPattern hcs ih ihs
  | nodePattern hcs hv hlabels hproperties ihs ihs' =>
    exact kept_nodePattern hcs hv hlabels hproperties ihs ihs'
  | patternElementChain hcs _ _ ih ih' => exact (Kept.of_dense hcs (ih.cons ih')).pass
  | relationshipPattern hcs hdash hdash' hleft hright hdetail ih =>
    exact kept_relationshipPattern hcs hdash hdash' hleft hright hdetail ih
  | relationshipDetail hcs hv htypes _ hproperties ih ih' ih'' =>
    exact kept_relationshipDetail hcs hv htypes hproperties ih ih' ih''
  | relationshipTypes hcs hx hrest => exact kept_relationshipTypes hcs hx hrest
  | rangeLiteral hcs hfirst hlast => exact kept_rangeLiteral hcs hfirst hlast
  | mapProperties hcs _ ih | parameterProperties hcs _ ih =>
    subst hcs
    exact ih.wrap
  | parenthesizedExpression hcs _ ih =>
    have hkept := Kept.of_dense hcs ((ih.append kept_nil.token).token)
    exact hkept.wrap
  | functionInvocation hcs hname hxs ih ihs => exact kept_functionInvocation hcs hname hxs ih ihs
  | functionName hcs _ hx ih =>
    subst hcs
    exact (ih.cons (kept_symbolicName hx)).wrap
  | namespace_ hcs hxs => exact kept_namespace hcs hxs

/-! ## Two sources -/

/-- An expression that is one operand. -/
def operandTree (cs : List Tree) : Tree :=
  .node .expression [.node .orExpression [.node .xorExpression
    [.node .andExpression [.node .notExpression [.node .comparisonExpression
      [.node .stringListNullPredicateExpression
        [.node .addOrSubtractExpression
          [.node .multiplyDivideModuloExpression [.node .powerOfExpression
            [.node .unaryAddOrSubtractExpression
              [.node .nonArithmeticOperatorExpression cs]]]]]]]]]]]

theorem derives_unjoined (hr : JoiningRule r word below) (hx : Derives below x) :
    Derives r (.node r [x]) := by
  obtain ⟨cs, rfl⟩ := derives_node hx
  have hcs : dense [.node below cs] = .node below cs ::
      ([] : List (String × Tree)).flatMap fun p => [token word p.1, p.2] := rfl
  exact .joining hr hcs hx (by simp)

theorem derives_operand {operators : List String}
    (hr : ArithmeticRule r operators below) (hx : Derives below x) : Derives r (.node r [x]) := by
  have hcs : [x] = x :: ([] : List ArithmeticPart).flatMap
      ArithmeticPart.children := rfl
  exact .arithmetic hr hcs (by simp) (by simp) hx (by simp)

theorem derives_unpredicated (hx : Derives .addOrSubtractExpression x) :
    Derives .stringListNullPredicateExpression (.node .stringListNullPredicateExpression [x]) := by
  obtain ⟨cs, rfl⟩ := derives_node hx
  have hcs : dense [.node .addOrSubtractExpression cs] =
      .node .addOrSubtractExpression cs :: ([] : List (Rule × Tree)).map snd := rfl
  exact .stringListNullPredicateExpression hcs hx (by simp) (by simp)

theorem derives_unnegated (hx : Derives .stringListNullPredicateExpression x) :
    Derives .notExpression (.node .notExpression [.node .comparisonExpression [x]]) := by
  obtain ⟨cs, rfl⟩ := derives_node hx
  have hcomparison : Derives .comparisonExpression (.node .comparisonExpression
      [.node .stringListNullPredicateExpression cs]) := .comparisonExpression rfl hx (by simp)
  have hcs : dense [.node .comparisonExpression [.node .stringListNullPredicateExpression cs]] =
      ([] : List String).map (token .not) ++ [.node .comparisonExpression
        [.node .stringListNullPredicateExpression cs]] := rfl
  exact .notExpression hcs hcomparison

theorem derives_operandTree (h : Derives .nonArithmeticOperatorExpression
      (.node .nonArithmeticOperatorExpression cs)) : Derives .expression (operandTree cs) := by
  have hpower := derives_operand .powerOf (.unsigned rfl h)
  have hadd := derives_operand .addOrSubtract (derives_operand .multiplyDivideModulo hpower)
  have hnot := derives_unnegated (derives_unpredicated hadd)
  exact .expression rfl (derives_unjoined .or (derives_unjoined .xor (derives_unjoined .and hnot)))

def variableTree (name : String) : Tree :=
  .node .atom [.node .variable_ [.node .symbolicName [token .name name]]]

def integerTree (text : String) : Tree :=
  .node .atom [.node .literal [.node .numberLiteral [.node .integerLiteral [token .integer text]]]]

theorem derives_integerTree (text : String) : Derives .atom (integerTree text) :=
  .atom (r := .literal) (by simp [atomRules]) rfl
    (.literal (r := .numberLiteral) (by simp) rfl
      (.numberLiteral (r := .integerLiteral) (by simp) rfl (.integerLiteral rfl)))

/-- An atom with what follows it. -/
theorem derives_atom {a : Tree} {rest : List (Rule × Tree)} (ha : Derives .atom a)
    (hrest : ∀ p ∈ rest, p.1 ∈ [Rule.listOperatorExpression, .propertyLookup] ∧ Derives p.1 p.2) :
    Derives .nonArithmeticOperatorExpression
      (.node .nonArithmeticOperatorExpression (a :: rest.map snd)) := by
  have hdense : dense (a :: rest.map snd) = a :: (rest.map snd ++ (none : Maybe).toList) := by
    obtain ⟨cs, rfl⟩ := derives_node ha
    rw [dense_cons]
    simp only [isSpace, Bool.false_eq_true, if_false, Option.toList_none,
      append_nil, cons.injEq, true_and, dense, filter_eq_self, mem_map]
    rintro x ⟨p, hp, rfl⟩
    obtain ⟨ds, hds⟩ := derives_node (hrest p hp).2
    rw [hds]
    rfl
  exact .nonArithmeticOperatorExpression hdense ha
    (fun p hp => (hrest p hp).1) (fun p hp => (hrest p hp).2) (by simp)

theorem derives_zero : Derives .expression (operandTree [integerTree "0"]) :=
  derives_operandTree (derives_atom (derives_integerTree "0")
    (by simp : ∀ p ∈ ([] : List (Rule × Tree)), _))

/-- The source a[0]. -/
def indexTree : Tree :=
  operandTree [variableTree "a", .node .listOperatorExpression
    [symbol "[", operandTree [integerTree "0"], symbol "]"]]

theorem derives_indexTree : Derives .expression indexTree := by
  have hindex : Derives .listOperatorExpression (.node .listOperatorExpression
      [symbol "[", operandTree [integerTree "0"], symbol "]"]) := .index rfl derives_zero
  have hrest : ∀ p ∈ [(Rule.listOperatorExpression, ParseTree.node
      Rule.listOperatorExpression [symbol "[", operandTree [integerTree "0"],
        symbol "]"])], p.1 ∈ [Rule.listOperatorExpression, .propertyLookup] ∧ Derives p.1 p.2 := by
    simpa using hindex
  have hatom : Derives .atom (variableTree "a") :=
    .atom (r := .variable_) (by simp [atomRules]) rfl (.naming .variable_ rfl (.symbolicName rfl))
  exact derives_operandTree (derives_atom hatom hrest)

/-- An integer literal without an error. -/
def isInteger (n : Int) : Option (Expression × List Error) → Bool
  | some (.literal ⟨.integer m, false⟩, []) => m = n
  | _ => false

theorem eq_of_isInteger {n : Int} {r : Option (Expression × List Error)}
    (h : isInteger n r = true) : r = some (.literal ⟨.integer n, false⟩, []) := by
  unfold isInteger at h
  split at h
  · simp only [decide_eq_true_eq] at h
    rw [h]
  · cases h

def isIndex : List Outline → Bool
  | [.node .index _] => true
  | _ => false

/-! ## The whole expression -/

/-- What the frontend accepts says in the syntax tree what it says in the
source, at the same places, exactly if the source is clean. -/
theorem outline_eq_shape_iff {t : Tree} {e : Expression} (ht : Derives .expression t)
    (h : readExpression t = some (e, [])) : outline t = [shape e] ↔ clean t = true := by
  have hkept := kept_of_reads (reads_of_derives ht h)
  constructor
  · intro heq
    cases hc : clean t with
    | true => rfl
    | false =>
      have hlt := hkept.lt (by simp [hc])
      simp [heq, resultShape] at hlt
  · intro hc
    simpa [resultShape] using hkept.eq (by simp [hc])

theorem outline_eq_shape_zero :
    Derives .expression (operandTree [integerTree "0"]) ∧
      readExpression (operandTree [integerTree "0"]) = some (.literal ⟨.integer 0, false⟩, []) ∧
      (outline (operandTree [integerTree "0"]) = [shape (.literal ⟨.integer 0, false⟩)] ↔
        clean (operandTree [integerTree "0"]) = true) := by
  have hread : readExpression (operandTree [integerTree "0"]) =
      some (.literal ⟨.integer 0, false⟩, []) := eq_of_isInteger (by decide +kernel)
  exact ⟨derives_zero, hread, outline_eq_shape_iff derives_zero hread⟩

/-- The element a[0] of a list is read as the number 0. -/
theorem index_dropped :
    Derives .expression indexTree ∧
      readExpression indexTree = some (.literal ⟨.integer 0, false⟩, []) ∧
      outline indexTree ≠ [shape (.literal ⟨.integer 0, false⟩)] := by
  refine ⟨derives_indexTree, eq_of_isInteger (by decide +kernel), ?_⟩
  intro h
  have hroot : isIndex (outline indexTree) = true := by decide +kernel
  rw [h] at hroot
  simp [shape, isIndex] at hroot

end Dawgs.Ref.Frontend

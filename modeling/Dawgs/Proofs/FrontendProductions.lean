import Dawgs.Proofs.FrontendPatterns

/-!
# All productions

The productions are put together by induction on the derivation: whatever
the grammar derives and the visitors take without an error is read as the
relation says.
-/

namespace Dawgs.Ref.Frontend

open Lib Cypher Grammar

/-- What is shown of a tree of a rule. The names and marks are read by
looking at them. -/
def Spec (r : Rule) (t : Tree) : Prop :=
  match r with
  | .expression => ExpressionSpec t
  | .orExpression | .xorExpression | .andExpression | .notExpression
  | .comparisonExpression => BooleanSpec r t
  | .partialComparisonExpression => PartialSpec t
  | .stringListNullPredicateExpression => PredicatesSpec t
  | .stringPredicateExpression | .listPredicateExpression
  | .nullPredicateExpression => PredicateSpec r t
  | .addOrSubtractExpression => ArithmeticSpec r t
  | .multiplyDivideModuloExpression | .powerOfExpression
  | .unaryAddOrSubtractExpression | .nonArithmeticOperatorExpression =>
    OperandSpec r t
  | .atom => AtomSpec t
  | .propertyLookup => LookupSpec t
  | .nodeLabels => LabelsSpec t
  | .nodeLabel => LabelSpec t
  | .literal | .legacyParameter | .caseExpression | .listComprehension
  | .patternComprehension | .legacyListExpression | .reduce | .quantifier
  | .shortestPathPattern | .patternPredicate | .parenthesizedExpression
  | .functionInvocation | .existentialSubquery | .variable_ =>
    AtomRuleSpec r t
  | .parameter => ParameterSpec t
  | .booleanLiteral | .numberLiteral | .doubleLiteral | .integerLiteral
  | .listLiteral => LiteralSpec r t
  | .mapLiteral => MapSpec t
  | .filterExpression => FilterSpec t
  | .idInColl => IdInCollSpec t
  | .where_ => WhereSpec t
  | .relationshipsPattern | .patternElementChain => ElementsSpec r t
  | .nodePattern => NodePatternSpec t
  | .relationshipPattern => RelationshipPatternSpec t
  | .relationshipDetail => DetailSpec t
  | .relationshipTypes => TypesSpec t
  | .rangeLiteral => RangeSpec t
  | .properties => PropertiesSpec t
  | .functionName => FunctionNameSpec t
  | .namespace_ => NamespaceSpec t
  | .regularExpression | .listOperatorExpression | .propertyKeyName
  | .labelName | .relTypeName | .schemaName | .symbolicName | .reservedWord
  | .patternElement | .leftArrowHead | .rightArrowHead | .dash => True

theorem atomRuleSpec_of_spec {r : Rule} {t : Tree} (hr : r ∈ atomRules)
    (h : Spec r t) : AtomRuleSpec r t := by
  fin_cases hr <;> first | exact h | exact atomRuleSpec_parameter h

theorem spec_of_derives {r : Rule} {t : Tree} (h : Derives r t) : Spec r t := by
  induction h with
  | unsupported hr =>
    have h := hr
    fin_cases h <;> exact fun _ _ h => absurd h (not_takes_unsupported hr)
  | expression hcs _ ih => exact spec_expression hcs ih
  | joining hr hcs hx _ ihx ihrest =>
    have h := hr
    cases h <;> exact spec_joining hr hcs hx ihx ihrest
  | notExpression hcs hx ih => exact spec_notExpression hcs hx ih
  | comparisonExpression hcs hx hrest ihx ihrest =>
    exact spec_comparisonExpression hcs hx hrest ihx ihrest
  | partialComparisonExpression hoperator hcs hafter _ ih =>
    exact spec_partialComparison hoperator hcs hafter ih
  | stringListNullPredicateExpression hcs _ hrules _ ihx ihrest =>
    refine spec_predicates hcs hrules ihx ?_
    intro p hp
    have h := ihrest p hp
    obtain ⟨r, x⟩ := p
    have hr := hrules _ hp
    fin_cases hr <;> exact h
  | regularPredicate hcs hr hx _ ihx => exact spec_regularPredicate hcs hr hx ihx
  | startsWith hcs hx ih =>
    refine spec_predicate (by simp) ?_ ?_ ih fun he => .startsWith hcs he
    · simp [predicateOf, hasToken_eq hcs]
    · intro v v' h
      simpa [hcs] using h
  | endsWith hcs hx ih =>
    refine spec_predicate (by simp) ?_ ?_ ih fun he => .endsWith hcs he
    · simp [predicateOf, hasToken_eq hcs, isToken_of_derives hx]
    · intro v v' h
      simpa [hcs] using h
  | contains hcs hx ih =>
    refine spec_predicate (by simp) ?_ ?_ ih fun he => .contains hcs he
    · simp [predicateOf, hasToken_eq hcs, isToken_of_derives hx]
    · intro v v' h
      simpa [hcs] using h
  | regularExpression | index | slice | symbolicName | reservedWord | patternElement
  | nestedPatternElement => trivial
  | listPredicateExpression hcs hx ih =>
    refine spec_predicate (by simp) ?_ ?_ ih fun he => .listPredicate hcs he
    · simp [predicateOf, hasToken_eq hcs]
    · intro v v' h
      simpa [hcs] using h
  | isNull hcs =>
    refine spec_nullPredicate ?_ hcs ?_ (.isNull hcs)
    · simp [predicateOf, hasToken_eq hcs, nullLiteral]
    · intro v v' h
      simpa using h
  | isNotNull hcs =>
    refine spec_nullPredicate ?_ hcs ?_ (.isNotNull hcs)
    · simp [predicateOf, hasToken_eq hcs, nullLiteral]
    · intro v v' h
      simpa using h
  | arithmetic hr hcs hoperators hspaces hx _ ihx ihrest =>
    cases hr with
    | addOrSubtract => exact spec_arithmetic .addOrSubtract hcs hoperators hspaces hx ihx ihrest
    | multiplyDivideModulo =>
      exact operandSpec_arithmetic .multiplyDivideModulo (by simp) hcs
        hoperators hx ihx (spec_arithmetic .multiplyDivideModulo hcs
          hoperators hspaces hx ihx ihrest)
    | powerOf =>
      exact operandSpec_arithmetic .powerOf (by simp) hcs hoperators hx ihx
        (spec_arithmetic .powerOf hcs hoperators hspaces hx ihx ihrest)
  | unsigned hcs hx ih => exact spec_unsigned hcs hx ih
  | signed hsign hcs hafter _ ih => exact spec_signed hsign hcs hafter ih
  | nonArithmeticOperatorExpression hcs _ hrules hrest _ iha ihrest ihlabels =>
    refine spec_nonArithmetic hcs hrules hrest iha ?_ ihlabels
    intro p hp hlookup
    have h := ihrest p hp
    rwa [hlookup] at h
  | propertyLookup hcs hx => exact spec_propertyLookup hcs hx
  | naming hr hcs hx =>
    cases hr with
    | variable_ => exact spec_variable (.naming .variable_ hcs hx)
    | _ => trivial
  | nodeLabels hcs _ _ ihx ihrest =>
    refine spec_nodeLabels hcs ?_
    intro y hy
    rcases List.mem_cons.mp hy with rfl | hy
    · exact ihx
    · exact ihrest y hy
  | nodeLabel hcs hx => exact spec_nodeLabel hcs hx
  | atom hr hcs hx ih => exact spec_atom hr hcs hx (atomRuleSpec_of_spec hr ih)
  | countAll hcs => exact spec_countAll hcs
  | literal hr hcs hx ih =>
    have h := hr
    fin_cases h <;> refine spec_literal hr hcs hx ?_ <;> first | exact ih | exact literalSpec_map ih
  | nullLiteral hcs | stringLiteral hcs => exact spec_tokenLiteral (by simp) hcs
  | booleanLiteral hcs => exact spec_booleanLiteral hcs
  | numberLiteral hr hcs _ ih =>
    have h := hr
    fin_cases h <;> exact spec_numberLiteral hr hcs ih
  | doubleLiteral hcs => exact spec_doubleLiteral hcs
  | integerLiteral hcs => exact spec_integerLiteral hcs
  | listLiteral hcs _ ih => exact spec_listLiteral hcs ih
  | mapLiteral hcs hkeys _ _ ih => exact spec_mapLiteral hcs hkeys ih
  | namedParameter hcs hx => exact spec_namedParameter hcs hx
  | numberedParameter hcs => exact spec_numberedParameter hcs
  | listComprehension | patternComprehension | shortestPathPattern =>
    exact spec_fallThrough (by simp [fallThrough])
  | quantifier htype hcs hx ih => exact spec_quantifier htype hcs hx ih
  | filterExpression hcs _ _ ihx ihcondition => exact spec_filterExpression hcs ihx ihcondition
  | idInColl hcs hv _ _ ih => exact spec_idInColl hcs hv ih
  | where_ hcs _ ih => exact spec_where hcs ih
  | patternPredicate hcs _ ih => exact spec_patternPredicate hcs ih
  | relationshipsPattern hcs _ _ _ ihn ihlink ihchain =>
    refine spec_relationshipsPattern hcs ihn ?_
    intro x hx
    rcases List.mem_cons.mp hx with rfl | hx
    · exact ihlink
    · exact ihchain x hx
  | nodePattern hcs hv _ _ _ ihlabels ihproperties =>
    exact spec_nodePattern hcs hv ihlabels ihproperties
  | patternElementChain hcs _ _ ihr ihn => exact spec_patternElementChain hcs ihr ihn
  | relationshipPattern hcs hdash hdash' hleft hright _ _ _ _ _ ihdetail =>
    exact spec_relationshipPattern hcs hdash hdash' hleft hright ihdetail
  | relationshipDetail hcs hv _ _ _ _ ihtypes ihrange ihproperties =>
    exact spec_relationshipDetail hcs hv ihtypes ihrange ihproperties
  | relationshipTypes hcs hx hrest => exact spec_relationshipTypes hcs hx hrest
  | rangeLiteral hcs hfirst hlast => exact spec_rangeLiteral hcs hfirst hlast
  | properties hr hcs hx ih =>
    fin_cases hr
    · exact spec_mapProperties hcs ih
    · exact spec_parameterProperties hcs ih
    · exact spec_legacyProperties hcs hx
  | mark hr => fin_cases hr <;> trivial
  | parenthesizedExpression hcs _ ih => exact spec_parenthesizedExpression hcs ih
  | functionInvocation hcs hname hxs ihname ihxs =>
    exact spec_functionInvocation hcs hname hxs ihname ihxs
  | functionName hcs _ hx ihn => exact spec_functionName hcs hx ihn
  | namespace_ hcs hxs => exact spec_namespace hcs hxs

/-- An expression that the frontend accepts is read production by
production. -/
theorem reads_of_derives {t : Tree} {e : Expression} (ht : Derives .expression t)
    (h : readExpression t = some (e, [])) : Reads .expression t (.expression e) := by
  have ht := spec_of_derives ht
  obtain ⟨e', he', hf⟩ := takes_expression ht (fun _ => ⟨rfl, rfl, rfl⟩)
    (takes_of_readExpression h)
  cases hf
  exact he'

end Dawgs.Ref.Frontend

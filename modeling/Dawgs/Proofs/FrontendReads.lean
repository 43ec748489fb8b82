import Dawgs.Proofs.FrontendVisitors
import Dawgs.Ref.Outline

/-!
# What the frontend reads

The visitors change their state handler by handler. What comes of it for a
whole derivation is a relation with one case for each production: a tree of
the rule `r` is read as a result, and the results of its children are at
their places in it. Two cases say nothing about the result. A list operator
is entered by no visitor, so the visitor of the operand gets the handlers of
whatever is between the brackets, and likewise the visitor of an atom for
the comprehensions and the shortest path.

That a derivation which is taken without an error is read so is shown
production by production in `FrontendProductions`.
-/

namespace Dawgs.Ref.Frontend

open Lib Cypher Grammar
open Prod (fst snd)
open Listener (takesAll_cons takesAll_nil takesAll_singleton)

/-- What is read from a tree, by its rule. -/
inductive Result where
  | expression (e : Expression)
  | partial_ (p : PartialExpression Expression)
  | name (name : String)
  | lookup (key : String)
  | kinds (names : List String)
  | types (names : List String)
  | names (names : List String)
  | function (namespaces : List String) (name : String)
  | filter (f : FilterExpression Expression)
  | idInCollection (c : IDInCollection Expression)
  | where_ (e : Expression)
  | elements (elements : List (PatternElement Expression))
  | detail (p : RelationshipPattern Expression)
  | range (range : PatternRange)

def joinerOf : Rule → Joiner
  | .orExpression => .disjunction
  | .xorExpression => .exclusiveDisjunction
  | _ => .conjunction

/-- The operators that are read from the children of a rule of arithmetic. -/
def operatorsRead (cs : List Tree) : List Operator :=
  (tokenLiterals cs).map fun s => (parseOperator s).getD .invalid

def quantifierTypeOf : TokenType → QuantifierType
  | .all => .all
  | .any => .any
  | .none => .none
  | _ => .single

/-- A lookup or the labels after an atom. -/
def kindMatch (e : Expression) : Option (List String) → Expression
  | none => e
  | some names => .kindMatcher e names true

def nullLiteral : Expression := .literal ⟨.text "", true⟩

/-- The rules of atoms that are entered by no visitor. -/
def fallThrough : List Rule := [.listComprehension, .patternComprehension, .shortestPathPattern]

inductive Reads : Rule → Tree → Result → Prop where
  | expression {cs x e} (hcs : dense cs = [x]) (hx : Reads .orExpression x (.expression e)) :
      Reads .expression (.node .expression cs) (.expression e)
  | unjoined {r below} {word : TokenType} {cs x e} (hr : JoiningRule r word below)
      (hcs : dense cs = [x]) (hx : Reads below x (.expression e)) :
      Reads r (.node r cs) (.expression e)
  | joined {r below} {word : TokenType} {cs x e} {rest : List ((String × Tree) × Expression)}
      (hr : JoiningRule r word below)
      (hcs : dense cs = x :: rest.flatMap fun p => [token word p.1.1, p.1.2])
      (hrest : rest ≠ []) (hx : Reads below x (.expression e))
      (hys : ∀ p ∈ rest, Reads below p.1.2 (.expression p.2)) : Reads r (.node r cs)
        (.expression ((joinerOf r).joined (e :: rest.map snd)))
  | unnegated {cs x e} (hcs : dense cs = [x]) (hx : Reads .comparisonExpression x (.expression e)) :
      Reads .notExpression (.node .notExpression cs) (.expression e)
  | negated {cs} {nots : List String} {x e}
      (hcs : dense cs = nots.map (token .not) ++ [x]) (hnots : nots ≠ [])
      (hx : Reads .comparisonExpression x (.expression e)) :
      Reads .notExpression (.node .notExpression cs) (.expression (.negation e))
  | uncompared {cs x e} (hcs : dense cs = [x])
      (hx : Reads .stringListNullPredicateExpression x (.expression e)) :
      Reads .comparisonExpression (.node .comparisonExpression cs) (.expression e)
  | compared {cs x e} {rest : List (Tree × PartialExpression Expression)}
      (hcs : dense cs = x :: rest.map fst) (hrest : rest ≠ [])
      (hx : Reads .stringListNullPredicateExpression x (.expression e)) (hps : ∀ p ∈ rest,
        Reads .partialComparisonExpression p.1 (.partial_ p.2)) :
      Reads .comparisonExpression (.node .comparisonExpression cs)
        (.expression (.comparison e (rest.map snd)))
  | partialComparison {cs after text} {operator : Operator} {x e}
      (hoperator : parseOperator text = some operator)
      (hcs : cs = symbol text :: after) (hafter : dense after = [x])
      (hx : Reads .stringListNullPredicateExpression x (.expression e)) :
      Reads .partialComparisonExpression (.node .partialComparisonExpression cs)
        (.partial_ ⟨operator, e⟩)
  | predicates {cs x e} {rest : List ((Rule × Tree) × PartialExpression Expression)}
      (hcs : dense cs = x :: rest.map fun p => p.1.2)
      (hx : Reads .addOrSubtractExpression x (.expression e))
      (hrules : ∀ p ∈ rest, p.1.1 ∈ [Rule.stringPredicateExpression,
        .listPredicateExpression, .nullPredicateExpression])
      (hps : ∀ p ∈ rest, Reads p.1.1 p.1.2 (.partial_ p.2)) :
      Reads .stringListNullPredicateExpression (.node .stringListNullPredicateExpression cs)
        (.expression (rest.foldl (fun e p => .comparison e [p.2]) e))
  | regularPredicate {cs r x e} (hcs : dense cs = [r, x]) (hr : Derives .regularExpression r)
      (hx : Reads .addOrSubtractExpression x (.expression e)) :
      Reads .stringPredicateExpression (.node .stringPredicateExpression cs)
        (.partial_ ⟨.regexMatch, e⟩)
  | startsWith {cs starts with_ x e}
      (hcs : dense cs = [token .starts starts, token .with_ with_, x])
      (hx : Reads .addOrSubtractExpression x (.expression e)) :
      Reads .stringPredicateExpression (.node .stringPredicateExpression cs)
        (.partial_ ⟨.startsWith, e⟩)
  | endsWith {cs ends with_ x e} (hcs : dense cs = [token .ends ends, token .with_ with_, x])
      (hx : Reads .addOrSubtractExpression x (.expression e)) :
      Reads .stringPredicateExpression (.node .stringPredicateExpression cs)
        (.partial_ ⟨.endsWith, e⟩)
  | contains {cs contains x e} (hcs : dense cs = [token .contains contains, x])
      (hx : Reads .addOrSubtractExpression x (.expression e)) :
      Reads .stringPredicateExpression (.node .stringPredicateExpression cs)
        (.partial_ ⟨.contains, e⟩)
  | listPredicate {cs in_ x e} (hcs : dense cs = [token .in_ in_, x])
      (hx : Reads .addOrSubtractExpression x (.expression e)) :
      Reads .listPredicateExpression (.node .listPredicateExpression cs) (.partial_ ⟨.in_, e⟩)
  | isNull {cs is null} (hcs : dense cs = [token .is is, token .null null]) :
      Reads .nullPredicateExpression (.node .nullPredicateExpression cs)
        (.partial_ ⟨.is, nullLiteral⟩)
  | isNotNull {cs is not null} (hcs : dense cs = [token .is is, token .not not, token .null null]) :
      Reads .nullPredicateExpression (.node .nullPredicateExpression cs)
        (.partial_ ⟨.isNot, nullLiteral⟩)
  | operand {r below} {operators : List String} {cs x e} (hr : ArithmeticRule r operators below)
      (hcs : cs = [x]) (hx : Reads below x (.expression e)) : Reads r (.node r cs) (.expression e)
  | arithmetic {r below} {operators : List String} {cs x e}
      {rest : List (ArithmeticPart × Expression)} (hr : ArithmeticRule r operators below)
      (hcs : cs = x :: rest.flatMap fun p => p.1.children) (hrest : rest ≠ [])
      (hoperators : ∀ p ∈ rest, p.1.operator ∈ operators)
      (hspaces : ∀ p ∈ rest, p.1.Spaced) (hx : Reads below x (.expression e))
      (hys : ∀ p ∈ rest, Reads below p.1.operand (.expression p.2)) :
      Reads r (.node r cs) (.expression (.arithmetic e
        (List.zipWith PartialExpression.mk (operatorsRead cs) (rest.map snd))))
  | unsigned {cs x e} (hcs : cs = [x])
      (hx : Reads .nonArithmeticOperatorExpression x (.expression e)) :
      Reads .unaryAddOrSubtractExpression (.node .unaryAddOrSubtractExpression cs) (.expression e)
  | signed {cs after sign} {operator : Operator} {x e}
      (hoperator : parseOperator sign = some operator)
      (hcs : cs = symbol sign :: after) (hafter : dense after = [x])
      (hx : Reads .nonArithmeticOperatorExpression x (.expression e)) :
      Reads .unaryAddOrSubtractExpression (.node .unaryAddOrSubtractExpression cs)
        (.expression (.unaryAddOrSubtract operator (.arithmetic e [])))
  | indexed {cs : List Tree} {e} (hindex : cs.any (isRule .listOperatorExpression)) :
      Reads .nonArithmeticOperatorExpression
        (.node .nonArithmeticOperatorExpression cs) (.expression e)
  | nonArithmetic {cs a e} {rest : List (Tree × String)} {labels : Option (Tree × List String)}
      (hcs : dense cs = a :: (rest.map fst ++ (labels.map fst).toList))
      (ha : Reads .atom a (.expression e))
      (hrest : ∀ p ∈ rest, Reads .propertyLookup p.1 (.lookup p.2))
      (hlabels : ∀ p ∈ labels, Reads .nodeLabels p.1 (.kinds p.2)) :
      Reads .nonArithmeticOperatorExpression (.node .nonArithmeticOperatorExpression cs)
        (.expression (kindMatch (rest.foldl (fun e p => .propertyLookup e p.2) e) (labels.map snd)))
  | propertyLookup {cs x key} (hcs : dense cs = [symbol ".", x])
      (hx : Reads .propertyKeyName x (.name key)) :
      Reads .propertyLookup (.node .propertyLookup cs) (.lookup key)
  | propertyKeyName {t} (ht : Derives .propertyKeyName t) :
      Reads .propertyKeyName t (.name (unescapePropertyKeyName (text t)))
  | labelName {t} (ht : Derives .labelName t) : Reads .labelName t (.name (text t))
  | nodeLabels {cs} {labels : List (Tree × String)}
      (hcs : dense cs = labels.map fst) (hne : labels ≠ [])
      (hlabels : ∀ p ∈ labels, Reads .nodeLabel p.1 (.name p.2)) :
      Reads .nodeLabels (.node .nodeLabels cs) (.kinds (labels.map snd))
  | nodeLabel {cs x} (hcs : dense cs = [symbol ":", x]) (hx : Reads .labelName x (.name (text x))) :
      Reads .nodeLabel (.node .nodeLabel cs) (.name (text x))
  | atom {r cs x e} (hr : r ∈ atomRules) (hcs : cs = [x]) (hx : Reads r x (.expression e)) :
      Reads .atom (.node .atom cs) (.expression e)
  | countAll {cs count} (hcs : dense cs = [token .count count, symbol "(", token .asterisk "*",
        symbol ")"]) :
      Reads .atom (.node .atom cs) (.expression
        (.functionInvocation false [] "count" [.rangeQuantifier "*"]))
  | fallThrough {r} {cs : List Tree} {e}
      (hr : r ∈ fallThrough) : Reads r (.node r cs) (.expression e)
  | literal {r cs x e} (hr : r ∈ [Rule.booleanLiteral, .numberLiteral, .listLiteral,
        .mapLiteral]) (hcs : cs = [x]) (hx : Reads r x (.expression e)) :
      Reads .literal (.node .literal cs) (.expression e)
  | nullLiteral {cs null} (hcs : cs = [token .null null]) :
      Reads .literal (.node .literal cs) (.expression nullLiteral)
  | stringLiteral {cs text} (hcs : cs = [token .string text]) : Reads .literal (.node .literal cs)
        (.expression (.literal ⟨.text text, false⟩))
  | booleanLiteral {cs text} {value : Bool}
      (hcs : cs = [symbol text]) (hvalue : parseBool text = some value) :
      Reads .booleanLiteral (.node .booleanLiteral cs)
        (.expression (.literal ⟨.boolean value, false⟩))
  | numberLiteral {r cs x e} (hr : r ∈ [Rule.doubleLiteral, .integerLiteral]) (hcs : cs = [x])
      (hx : Reads r x (.expression e)) :
      Reads .numberLiteral (.node .numberLiteral cs) (.expression e)
  | doubleLiteral {cs text} {value : LiteralValue}
      (hcs : cs = [symbol text]) (hvalue : parseFloat text = some value) :
      Reads .doubleLiteral (.node .doubleLiteral cs) (.expression (.literal ⟨value, false⟩))
  | integerLiteral {cs text} {value : Int} (hcs : cs = [token .integer text])
      (hvalue : parseInt text = some value) : Reads .integerLiteral (.node .integerLiteral cs)
        (.expression (.literal ⟨.integer value, false⟩))
  | listLiteral {cs} {xs : List (Tree × Expression)} (hcs : dense cs = symbol "[" ::
        (xs.map fst).intersperse (symbol ",") ++ [symbol "]"])
      (hxs : ∀ p ∈ xs, Reads .expression p.1 (.expression p.2)) :
      Reads .listLiteral (.node .listLiteral cs) (.expression (.listLiteral (xs.map snd)))
  | mapLiteral {cs} {items : List ((Tree × Tree) × String × Expression)}
      (hcs : dense cs = symbol "\x7b" ::
        ((items.map fun p => [p.1.1, symbol ":", p.1.2]).intersperse
          [symbol ","]).flatten ++ [symbol "\x7d"])
      (hkeys : ∀ p ∈ items, Reads .propertyKeyName p.1.1 (.name p.2.1))
      (hvalues : ∀ p ∈ items, Reads .expression p.1.2 (.expression p.2.2)) :
      Reads .mapLiteral (.node .mapLiteral cs) (.expression (.mapLiteral
          (items.foldl (fun map p => putItem p.2.1 p.2.2 map) [])))
  | namedParameter {cs x} (hcs : cs = [symbol "$", x]) (hx : Derives .symbolicName x) :
      Reads .parameter (.node .parameter cs) (.expression (.parameter ⟨text x⟩))
  | numberedParameter {cs text} (hcs : cs = [symbol "$", token .integer text]) :
      Reads .parameter (.node .parameter cs) (.expression (.parameter ⟨text⟩))
  | variable_ {t} (ht : Derives .variable_ t) : Reads .variable_ t (.expression (.var ⟨text t⟩))
  | quantifier {cs} {type : TokenType} {text x} {f : FilterExpression Expression}
      (htype : type ∈ [TokenType.all, .any, .none, .single])
      (hcs : dense cs = [token type text, symbol "(", x, symbol ")"])
      (hx : Reads .filterExpression x (.filter f)) : Reads .quantifier (.node .quantifier cs)
        (.expression (.quantifier (quantifierTypeOf type) (some f)))
  | filterExpression {cs x} {c : IDInCollection Expression} {condition : Option (Tree × Expression)}
      (hcs : dense cs = x :: (condition.map fst).toList)
      (hx : Reads .idInColl x (.idInCollection c))
      (hcondition : ∀ p ∈ condition, Reads .where_ p.1 (.where_ p.2)) :
      Reads .filterExpression (.node .filterExpression cs)
        (.filter ⟨some c, condition.map fun p => ⟨[p.2]⟩⟩)
  | idInColl {cs v x in_ e} (hcs : dense cs = [v, token .in_ in_, x]) (hv : Derives .variable_ v)
      (hx : Reads .expression x (.expression e)) : Reads .idInColl (.node .idInColl cs)
        (.idInCollection ⟨some ⟨text v⟩, e⟩)
  | where_ {cs word x e} (hcs : dense cs = [token .where_ word, x])
      (hx : Reads .expression x (.expression e)) : Reads .where_ (.node .where_ cs) (.where_ e)
  | patternPredicate {cs x} {elements : List (PatternElement Expression)} (hcs : cs = [x])
      (hx : Reads .relationshipsPattern x (.elements elements)) :
      Reads .patternPredicate (.node .patternPredicate cs)
        (.expression (.patternPredicate elements))
  | relationshipsPattern {cs n} {p : NodePattern Expression}
      {chain : List (Tree × List (PatternElement Expression))} (hcs : dense cs = n :: chain.map fst)
      (hn : Reads .nodePattern n (.expression (.nodePattern p)))
      (hchain : ∀ q ∈ chain, Reads .patternElementChain q.1 (.elements q.2)) :
      Reads .relationshipsPattern (.node .relationshipsPattern cs)
        (.elements (⟨.nodePattern p⟩ :: (chain.map snd).flatten))
  | nodePattern {cs} {v : Maybe} {labels : Option (Tree × List String)}
      {properties : Option (Tree × Expression)} (hcs : dense cs = symbol "(" :: v.toList ++
        (labels.map fst).toList ++ (properties.map fst).toList ++ [symbol ")"])
      (hv : ∀ x ∈ v, Derives .variable_ x)
      (hlabels : ∀ p ∈ labels, Reads .nodeLabels p.1 (.kinds p.2)) (hproperties : ∀ p ∈ properties,
        Reads .properties p.1 (.expression p.2)) :
      Reads .nodePattern (.node .nodePattern cs) (.expression (.nodePattern
          ⟨v.map fun x => ⟨text x⟩, (labels.map snd).getD [], (properties.map snd).getD .nil⟩))
  | patternElementChain {cs r n e e'} (hcs : dense cs = [r, n])
      (hr : Reads .relationshipPattern r (.expression e))
      (hn : Reads .nodePattern n (.expression e')) :
      Reads .patternElementChain (.node .patternElementChain cs) (.elements [⟨e⟩, ⟨e'⟩])
  | relationshipPattern {cs} {left right : Maybe} {dash dash'}
      {detail : Option (Tree × RelationshipPattern Expression)}
      (hcs : dense cs = left.toList ++ dash :: (detail.map fst).toList ++ dash' :: right.toList)
      (hdash : Derives .dash dash) (hdash' : Derives .dash dash')
      (hleft : ∀ x ∈ left, Derives .leftArrowHead x)
      (hright : ∀ x ∈ right, Derives .rightArrowHead x)
      (hdetail : ∀ p ∈ detail, Reads .relationshipDetail p.1 (.detail p.2)) :
      Reads .relationshipPattern (.node .relationshipPattern cs) (.expression (.relationshipPattern
          { (detail.map snd).getD newRelationshipPattern with
            direction := directionOf left.isSome right.isSome }))
  | relationshipDetail {cs} {v : Maybe} {types : Option (Tree × List String)}
      {range : Option (Tree × PatternRange)} {properties : Option (Tree × Expression)}
      (hcs : dense cs = symbol "[" :: v.toList ++
        (types.map fst).toList ++ (range.map fst).toList ++
          (properties.map fst).toList ++ [symbol "]"])
      (hv : ∀ x ∈ v, Derives .variable_ x)
      (htypes : ∀ p ∈ types, Reads .relationshipTypes p.1 (.types p.2))
      (hrange : ∀ p ∈ range, Reads .rangeLiteral p.1 (.range p.2)) (hproperties : ∀ p ∈ properties,
        Reads .properties p.1 (.expression p.2)) :
      Reads .relationshipDetail (.node .relationshipDetail cs) (.detail ⟨v.map fun x => ⟨text x⟩,
          ((types.map snd).getD []).foldl addKind [], .both,
          range.map snd, (properties.map snd).getD .nil⟩)
  | relationshipTypes {cs x} {rest : List (Bool × Tree)}
      (hcs : dense cs = symbol ":" :: x :: rest.flatMap fun p =>
        symbol "|" :: (if p.1 then [symbol ":", p.2] else [p.2]))
      (hx : Derives .relTypeName x) (hrest : ∀ p ∈ rest, Derives .relTypeName p.2) :
      Reads .relationshipTypes (.node .relationshipTypes cs)
        (.types (text x :: rest.map fun p => text p.2))
  | rangeLiteral {cs} {first : Option (Tree × Int)} {rest : Option (Option (Tree × Int))}
      (hcs : cs = token .asterisk "*" :: (first.map fst).toList ++
        rest.toList.flatMap fun last => token .range ".." :: (last.map fst).toList)
      (hfirst : ∀ p ∈ first, Reads .integerLiteral p.1
        (.expression (.literal ⟨.integer p.2, false⟩)))
      (hlast : ∀ last ∈ rest, ∀ p ∈ last, Reads .integerLiteral p.1
        (.expression (.literal ⟨.integer p.2, false⟩))) :
      Reads .rangeLiteral (.node .rangeLiteral cs)
        (.range ⟨first.map snd, (rest.getD none).map snd⟩)
  | mapProperties {cs x} {items : List (MapItem Expression)} (hcs : cs = [x])
      (hx : Reads .mapLiteral x (.expression (.mapLiteral items))) :
      Reads .properties (.node .properties cs) (.expression (.properties ⟨items, none⟩))
  | parameterProperties {cs x} {p : Parameter}
      (hcs : cs = [x]) (hx : Reads .parameter x (.expression (.parameter p))) :
      Reads .properties (.node .properties cs) (.expression (.properties ⟨[], some p⟩))
  | parenthesizedExpression {cs x e} (hcs : dense cs = [symbol "(", x, symbol ")"])
      (hx : Reads .expression x (.expression e)) :
      Reads .parenthesizedExpression (.node .parenthesizedExpression cs)
        (.expression (.parenthetical e))
  | functionInvocation {cs name} {distinct : Option String} {namespaces : List String}
      {symbolicName} {xs : List (Tree × Expression)} (hcs : dense cs = name :: symbol "(" ::
        (distinct.toList.map (token .distinct)) ++
          (xs.map fst).intersperse (symbol ",") ++ [symbol ")"])
      (hname : Reads .functionName name (.function namespaces symbolicName))
      (hxs : ∀ p ∈ xs, Reads .expression p.1 (.expression p.2)) :
      Reads .functionInvocation (.node .functionInvocation cs)
        (.expression (.functionInvocation distinct.isSome namespaces symbolicName (xs.map snd)))
  | functionName {cs n x} {namespaces : List String}
      (hcs : cs = [n, x]) (hn : Reads .namespace_ n (.names namespaces))
      (hx : Derives .symbolicName x) : Reads .functionName (.node .functionName cs)
        (.function namespaces (text x))
  | namespace_ {cs} {xs : List Tree} (hcs : cs = xs.flatMap fun x => [x, symbol "."])
      (hxs : ∀ x ∈ xs, Derives .symbolicName x) :
      Reads .namespace_ (.node .namespace_ cs) (.names (xs.map text))

/-! ## Names -/

variable {t : Tree} {r : Rule} {name : String} {v' : Visitor} {type : TokenType} {cs : List Tree}

/-- The rules of one token. -/
theorem derives_leaf (hr : r ∈ [Rule.symbolicName, .reservedWord, .leftArrowHead, .rightArrowHead,
      .dash]) (ht : Derives r t) : ∃ s, t = .node r [.token s] := by
  cases ht with
  | symbolicName hcs | reservedWord hcs | mark _ hcs => exact ⟨_, by rw [hcs]⟩
  | unsupported h => simp [unsupported] at h hr; grind
  | joining h | arithmetic h | naming h => cases h <;> simp at hr
  | _ => simp at hr

theorem derives_schemaName (ht : Derives .schemaName t) :
    ∃ r s, r ∈ [Rule.symbolicName, .reservedWord] ∧ t = .node .schemaName [.node r [.token s]] := by
  cases ht with
  | unsupported hr => simp [unsupported] at hr
  | joining hr | arithmetic hr => cases hr
  | mark hr => simp at hr
  | naming hr hcs hx =>
    cases hr with
    | symbolic | reserved =>
      obtain ⟨s, rfl⟩ := derives_leaf (by simp) hx
      refine ⟨_, s, ?_, congrArg _ hcs⟩
      simp

/-- The names that are a schema name. -/
theorem derives_schemaNamed (hr : r ∈ [Rule.propertyKeyName, .labelName, .relTypeName])
    (ht : Derives r t) : ∃ x, Derives .schemaName x ∧ t = .node r [x] := by
  cases ht with
  | naming hnaming hcs hx =>
    cases hnaming with
    | propertyKeyName | labelName | relTypeName => exact ⟨_, hx, by rw [hcs]⟩
    | symbolic | reserved | variable_ => simp at hr
  | unsupported h => simp [unsupported] at h hr; grind
  | joining h | arithmetic h => cases h <;> simp at hr
  | mark h => simp at h hr; grind
  | _ => simp at hr

theorem derives_variable (ht : Derives .variable_ t) :
    ∃ s, t = .node .variable_ [.node .symbolicName [.token s]] := by
  cases ht with
  | unsupported hr => simp [unsupported] at hr
  | joining hr | arithmetic hr => cases hr
  | mark hr => simp at hr
  | naming hr hcs hx =>
    cases hr
    obtain ⟨s, rfl⟩ := derives_leaf (by simp) hx
    exact ⟨s, by rw [hcs]⟩

theorem takes_schemaName (ht : Derives .schemaName t)
    (h : listener.Takes t (.symbolicNameOrReservedWord name) v') :
    v' = .symbolicNameOrReservedWord (text t) := by
  obtain ⟨r, s, hr, rfl⟩ := derives_schemaName ht
  obtain ⟨v₂, hcs, hexit⟩ := (takes_passed rfl rfl).mp h
  rw [takesAll_singleton] at hcs
  fin_cases hr <;>
  · cases (takes_leaf rfl rfl).mp hcs
    cases hexit
    simp [text, texts]

theorem takes_labelName (ht : Derives .labelName t)
    (h : listener.Takes t (.symbolicNameOrReservedWord name) v') :
    v' = .symbolicNameOrReservedWord (text t) := by
  obtain ⟨x, hx, rfl⟩ := derives_schemaNamed (by simp) ht
  obtain ⟨v₂, hcs, hexit⟩ := (takes_passed rfl rfl).mp h
  rw [takesAll_singleton] at hcs
  obtain rfl := takes_schemaName hx hcs
  cases hexit
  simp [text, texts]

variable {v v₁ : Visitor} {p : Tree → Bool} {ρ : Result}

/-- What a visitor does with the name when it enters a `SymbolicNameVisitor`
for a rule of names. -/
theorem takes_schemaNamed
    (hr : r ∈ [Rule.propertyKeyName, .labelName, .relTypeName]) (ht : Derives r t)
    {f : List Tree → Visitor → Option (Visitor × List Error)}
    (hv : HandsOver v r (.symbolicNameOrReservedWord "") f)
    (hf : ∀ {cs}, texts cs = text t →
      f cs (.symbolicNameOrReservedWord (text t)) = some (v', []) → v' = v₁)
    (h : listener.Takes t v v') : v' = v₁ := by
  obtain ⟨x, hx, rfl⟩ := derives_schemaNamed hr ht
  obtain ⟨henters, hupdates, hexit⟩ := hv [x]
  rw [takes_entered henters hupdates hexit] at h
  obtain ⟨w', hcs, hv'⟩ := h
  rw [takesAll_singleton] at hcs
  obtain rfl := takes_schemaName hx hcs
  refine hf (by rw [text]) ?_
  simpa [text, texts] using hv'

theorem takes_propertyKeyName {e : Expression} {key : String} (ht : Derives .propertyKeyName t)
    (h : listener.Takes t (.nonArithmeticOperatorExpression e key) v') :
    v' = .nonArithmeticOperatorExpression e (unescapePropertyKeyName (text t)) :=
  takes_schemaNamed (by simp) ht (fun _ => ⟨rfl, rfl, rfl⟩)
    (fun _ hf => (Prod.mk.inj (Option.some.inj hf)).1.symm) h

theorem takes_propertyKeyName_map {key : String} {map : List (MapItem Expression)}
    (ht : Derives .propertyKeyName t) (h : listener.Takes t (.mapLiteral key map) v') :
    v' = .mapLiteral (unescapePropertyKeyName (text t)) map :=
  takes_schemaNamed (by simp) ht (fun _ => ⟨rfl, rfl, rfl⟩)
    (fun _ hf => by cases hf; rfl) h

theorem takes_labelName_node {p : NodePattern Expression}
    (ht : Derives .labelName t) (h : listener.Takes t (.nodePattern p) v') :
    v' = .nodePattern { p with kinds := p.kinds ++ [text t] } :=
  takes_schemaNamed (by simp) ht (fun _ => ⟨rfl, rfl, rfl⟩)
    (fun _ hf => by cases hf; rfl) h

theorem takes_relTypeName {p : RelationshipPattern Expression}
    (ht : Derives .relTypeName t) (h : listener.Takes t (.relationshipPattern p) v') :
    v' = .relationshipPattern { p with kinds := addKind p.kinds (text t) } :=
  takes_schemaNamed (by simp) ht (fun _ => ⟨rfl, rfl, rfl⟩)
    (fun hcs hf => by rw [← hcs]; cases hf; rfl) h

theorem takes_symbolicName (ht : Derives .symbolicName t)
    (henters : ∀ cs, enters v .symbolicName cs = none)
    (hupdates : ∀ cs, texts cs = text t → updates v .symbolicName cs = (v₁, []))
    (hexit : ∀ cs, exit v₁ .symbolicName cs = .stay (some (v₁, [])))
    (h : listener.Takes t v v') : v' = v₁ := by
  obtain ⟨s, rfl⟩ := derives_leaf (by simp) ht
  have hv' := (takes_leaf (henters _) (hupdates _ rfl)).mp h
  rw [hexit] at hv'
  cases hv'
  rfl

/-- The same for a variable, where the visitor that is entered reads the
symbolic name in its own way. -/
theorem takes_variable {w : Visitor} {w' : String → Visitor} (ht : Derives .variable_ t)
    {f : Visitor → Option (Visitor × List Error)} (hv : HandsOver v .variable_ w fun _ => f)
    (hw : ∀ {x w₁}, Derives .symbolicName x → listener.Takes x w w₁ → w₁ = w' (text x))
    (hf : f (w' (text t)) = some (v₁, [])) (h : listener.Takes t v v') : v' = v₁ := by
  obtain ⟨s, rfl⟩ := derives_variable ht
  obtain ⟨henters, hupdates, hexit⟩ := hv _
  rw [takes_entered henters hupdates hexit] at h
  obtain ⟨w₁, hcs, hv'⟩ := h
  rw [takesAll_singleton] at hcs
  obtain rfl := hw (.symbolicName rfl) hcs
  simp only [text, texts, String.append_empty] at hf hv'
  rw [hf] at hv'
  cases hv'
  rfl

theorem takes_symbolicName_variable {symbol : String} (ht : Derives .symbolicName t)
    (h : listener.Takes t (.variable_ symbol) v') : v' = .variable_ (text t) :=
  takes_symbolicName ht (fun _ => rfl) (fun _ hcs => by rw [← hcs]; rfl) (fun _ => rfl) h

theorem takes_symbolicName_name (ht : Derives .symbolicName t)
    (h : listener.Takes t (.symbolicNameOrReservedWord name) v') :
    v' = .symbolicNameOrReservedWord (text t) :=
  takes_symbolicName ht (fun _ => rfl) (fun _ hcs => by rw [← hcs]; rfl) (fun _ => rfl) h

/-! ## Tokens among the children -/

theorem derives_node (ht : Derives r t) : ∃ cs, t = .node r cs := by
  cases ht <;> exact ⟨_, rfl⟩

@[simp]
theorem isToken_node : isToken type (.node r cs) = false := rfl

variable {text : String}

@[simp]
theorem isToken_token {type' : TokenType} :
    isToken type (token type' text) = decide (type' = type) := rfl

@[simp]
theorem isToken_symbol : isToken type (symbol text) = decide (TokenType.symbol = type) := rfl

@[simp]
theorem isRule_token : isRule r (token type text) = false := rfl

theorem isToken_of_derives (ht : Derives r t) : isToken type t = false := by
  obtain ⟨cs, rfl⟩ := derives_node ht
  rfl

theorem isRule_of_derives {r' : Rule} (ht : Derives r t) : isRule r' t = decide (r = r') := by
  obtain ⟨cs, rfl⟩ := derives_node ht
  rfl

theorem isSpace_iff {t : Tree} : isSpace t = true ↔ ∃ text, t = token .space text := by
  cases t with
  | node r cs => simp [isSpace, token]
  | token t =>
    constructor
    · intro h
      simp only [isSpace, decide_eq_true_eq] at h
      exact ⟨t.text, by rw [token, ← h]⟩
    · rintro ⟨text, h⟩
      cases h
      simp [isSpace]

section

variable (hp : ∀ text, p (token .space text) = false)
include hp

/-- What is asked of the children does not see the spaces. -/
theorem and_not_isSpace :
    (fun t => p t && !isSpace t) = p := by
  funext t
  cases h : isSpace t with
  | false => simp
  | true =>
    obtain ⟨text, rfl⟩ := isSpace_iff.mp h
    simp [hp]

theorem filter_dense :
    (dense cs).filter p = cs.filter p := by
  rw [dense, List.filter_filter, and_not_isSpace hp]

theorem any_dense : (dense cs).any p = cs.any p := by
  rw [dense, List.any_filter]
  simp only [Bool.and_comm]
  rw [and_not_isSpace hp]

end

theorem hasToken_dense (htype : type ≠ .space) : hasToken type (dense cs) = hasToken type cs :=
  any_dense fun _ => by simpa using htype.symm

/-! ## Nodes -/

theorem reads_node (h : Reads r t ρ) : ∃ cs, t = .node r cs := by
  cases h with
  | propertyKeyName ht | labelName ht | variable_ ht => exact derives_node ht
  | _ => exact ⟨_, rfl⟩

theorem isToken_of_reads (h : Reads r t ρ) : isToken type t = false := by
  obtain ⟨cs, rfl⟩ := reads_node h
  rfl

theorem isRule_of_reads {r' : Rule} (h : Reads r t ρ) : isRule r' t = decide (r = r') := by
  obtain ⟨cs, rfl⟩ := reads_node h
  rfl

end Dawgs.Ref.Frontend

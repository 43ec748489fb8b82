import Dawgs.Proofs.FrontendOperators

/-!
# The productions of atoms

An atom with its lookups and labels, literals, parameters, quantifiers and
functions. The list operators, the comprehensions and the shortest path have
no visitor, so all that is known of what is read from them is the type of
the visitor that is left with it.
-/

namespace Dawgs.Ref.Frontend

open Lib Cypher Grammar List
open Listener (takesAll_cons takesAll_nil takesAll_singleton)

/-! ## Atoms, lookups and labels -/

theorem eq_nonArithmetic_of_enters {w : Visitor} {e : Expression} {key : String}
    (h : enters w = enters (.nonArithmeticOperatorExpression e key)) :
    ∃ e key, w = .nonArithmeticOperatorExpression e key := by
  have h := congrFun (congrFun h .nodeLabel) []
  cases w <;> first | exact ⟨_, _, rfl⟩ | cases h

theorem eq_atom_of_enters {w : Visitor} {a : Expression}
    (h : enters w = enters (.atom a)) : ∃ a, w = .atom a := by
  have h := congrFun (congrFun h .functionInvocation) []
  cases w <;> first | exact ⟨_, rfl⟩ | cases h

def AtomSpec (t : Tree) : Prop :=
  ∀ s key v', listener.Takes t (.nonArithmeticOperatorExpression s key) v' →
    ∃ e, Reads .atom t (.expression e) ∧ v' = .nonArithmeticOperatorExpression e key

def LookupSpec (t : Tree) : Prop :=
  ∀ s key v', listener.Takes t (.nonArithmeticOperatorExpression s key) v' →
    ∃ key', Reads .propertyLookup t (.lookup key') ∧
      v' = .nonArithmeticOperatorExpression (.propertyLookup s key') key'

def LabelsSpec (t : Tree) : Prop :=
  (∀ s key v', listener.Takes t (.nonArithmeticOperatorExpression s key) v' →
    ∃ names, Reads .nodeLabels t (.kinds names) ∧
      v' = .nonArithmeticOperatorExpression (.kindMatcher s names true) key) ∧
  ∀ p v', listener.Takes t (.nodePattern p) v' → ∃ names, Reads .nodeLabels t (.kinds names) ∧
      v' = .nodePattern { p with kinds := p.kinds ++ names }

variable {cs xs : List Tree} {x t : Tree} {r : Rule} {type : TokenType}
  {v' v : Visitor} {text : String} {items : List (Tree × Tree)}

theorem spec_nonArithmetic {a : Tree} {rest : List (Rule × Tree)} {labels : Maybe}
    (hcs : dense cs = a :: (rest.map Prod.snd ++ labels.toList))
    (hrules : ∀ p ∈ rest, p.1 ∈ [Rule.listOperatorExpression, .propertyLookup])
    (hrest : ∀ p ∈ rest, Derives p.1 p.2) (iha : AtomSpec a)
    (ihrest : ∀ p ∈ rest, p.1 = .propertyLookup → LookupSpec p.2)
    (ihlabels : ∀ x ∈ labels, LabelsSpec x) :
    OperandSpec .nonArithmeticOperatorExpression (.node .nonArithmeticOperatorExpression cs) := by
  intro tokens s v' h
  obtain ⟨w', hw', hf⟩ := (takes_entered rfl rfl rfl).mp h
  suffices hinner : ∃ e key, w' = .nonArithmeticOperatorExpression e key ∧
      Reads .nonArithmeticOperatorExpression
        (.node .nonArithmeticOperatorExpression cs) (.expression e) by
    obtain ⟨e, key, rfl, he⟩ := hinner
    simp only [Option.map_eq_some_iff, Prod.mk.injEq, and_true, exists_eq_right] at hf
    exact ⟨e, he, hf⟩
  by_cases hindex : ∃ p ∈ rest, p.1 = .listOperatorExpression
  · obtain ⟨e, key, rfl⟩ := eq_nonArithmetic_of_enters (listener_balanced.visitAll _ hw')
    refine ⟨e, key, rfl, .indexed ?_⟩
    obtain ⟨p, hp, hrule⟩ := hindex
    rw [← any_dense fun _ => rfl, hcs, any_eq_true]
    refine ⟨p.2, ?_, ?_⟩
    · simp only [mem_cons, mem_append, mem_map]
      exact .inr (.inl ⟨p, hp, rfl⟩)
    · rw [isRule_of_derives (hrest p hp), hrule]
      rfl
  · rw [← takesAll_dense, hcs, takesAll_cons] at hw'
    obtain ⟨w₁, hw₁, hw'⟩ := hw'
    obtain ⟨e, he, rfl⟩ := iha _ _ w₁ hw₁
    rw [listener.takesAll_append] at hw'
    obtain ⟨w₂, hw₂, hw'⟩ := hw'
    have hlookup : ∀ p ∈ rest, p.1 = .propertyLookup := by
      intro p hp
      have h := hrules p hp
      simp only [mem_cons, not_mem_nil, or_false] at h
      exact h.resolve_left fun h => hindex ⟨p, hp, h⟩
    obtain ⟨results, hfst, hresults, rfl⟩ := listener.takesAll_map
      (fun keys => .nonArithmeticOperatorExpression
        (keys.foldl .propertyLookup e) (keys.getLast?.getD ""))
      (fun (p : Rule × Tree) key => Reads .propertyLookup p.2 (.lookup key)) Prod.snd (by
        intro p hp keys v' hv'
        obtain ⟨key, hkey, rfl⟩ := ihrest p hp (hlookup p hp) _ _ _ hv'
        exact ⟨key, hkey, by simp⟩) [] hw₂
    rw [nil_append] at hw'
    have hrest' : rest.map Prod.snd = (results.map fun p => (p.1.2, p.2)).map Prod.fst := by
      rw [← hfst, map_map, map_map]
      rfl
    have hfold : (results.map Prod.snd).foldl .propertyLookup e =
        (results.map fun p => (p.1.2, p.2)).foldl (fun e p => .propertyLookup e p.2) e := by
      rw [foldl_map, foldl_map]
    have hreads : ∀ p ∈ results.map fun p => (p.1.2, p.2),
        Reads .propertyLookup p.1 (.lookup p.2) := by
      intro p hp
      obtain ⟨q, hq, rfl⟩ := mem_map.mp hp
      exact hresults q hq
    rw [hrest'] at hcs
    rw [hfold] at hw'
    obtain ⟨labels', rfl, hlabels, rfl⟩ := listener.takesAll_toList
      (fun names => .nonArithmeticOperatorExpression (kindMatch _ names) _)
      (fun t names => Reads .nodeLabels t (.kinds names)) (fun x hx => (ihlabels x hx).1 _ _) hw'
    exact ⟨_, _, rfl, .nonArithmetic hcs he hreads hlabels⟩

theorem spec_propertyLookup (hcs : dense cs = [symbol ".", x])
    (hx : Derives .propertyKeyName x) : LookupSpec (.node .propertyLookup cs) := by
  intro s key v' h
  obtain ⟨v₂, hv₂, hexit⟩ := (takes_passed rfl rfl).mp h
  rw [← takesAll_dense, hcs] at hv₂
  simp only [takesAll_cons, takesAll_nil, takes_symbol, exists_eq_left', exists_eq_right] at hv₂
  obtain rfl := takes_propertyKeyName hx hv₂
  cases hexit
  exact ⟨_, .propertyLookup hcs (.propertyKeyName hx), rfl⟩

def LabelSpec (t : Tree) : Prop :=
  (∀ s kinds key v', listener.Takes t (.nonArithmeticOperatorExpression
      (.kindMatcher s kinds true) key) v' → ∃ name, Reads .nodeLabel t (.name name) ∧
      v' = .nonArithmeticOperatorExpression (.kindMatcher s (kinds ++ [name]) true) key) ∧
  ∀ p v', listener.Takes t (.nodePattern p) v' → ∃ name, Reads .nodeLabel t (.name name) ∧
      v' = .nodePattern { p with kinds := p.kinds ++ [name] }

theorem spec_nodeLabel (hcs : dense cs = [symbol ":", x])
    (hx : Derives .labelName x) : LabelSpec (.node .nodeLabel cs) := by
  have hreads : Reads .nodeLabel (.node .nodeLabel cs) (.name (text x)) :=
    .nodeLabel hcs (.labelName hx)
  constructor
  · intro s kinds key v' h
    obtain ⟨w', hw', hf⟩ := (takes_entered rfl rfl rfl).mp h
    rw [← takesAll_dense, hcs] at hw'
    simp only [takesAll_cons, takesAll_nil, takes_symbol, exists_eq_left', exists_eq_right] at hw'
    obtain rfl := takes_labelName hx hw'
    cases hf
    exact ⟨_, hreads, rfl⟩
  · intro p v' h
    obtain ⟨v₂, hv₂, hexit⟩ := (takes_passed rfl rfl).mp h
    rw [← takesAll_dense, hcs] at hv₂
    simp only [takesAll_cons, takesAll_nil, takes_symbol, exists_eq_left', exists_eq_right] at hv₂
    obtain rfl := takes_labelName_node hx hv₂
    cases hexit
    exact ⟨_, hreads, rfl⟩

theorem spec_nodeLabels {rest : List Tree} (hcs : dense cs = x :: rest)
    (ih : ∀ y ∈ x :: rest, LabelSpec y) : LabelsSpec (.node .nodeLabels cs) := by
  have hreads : ∀ results : List (Tree × String), results.map Prod.fst = x :: rest →
      (∀ p ∈ results, Reads .nodeLabel p.1 (.name p.2)) →
      Reads .nodeLabels (.node .nodeLabels cs) (.kinds (results.map Prod.snd)) := by
    intro results hfst hresults
    refine .nodeLabels (by rw [hcs, hfst]) (fun hnil => ?_) hresults
    simp [hnil] at hfst
  constructor
  · intro s key v' h
    obtain ⟨v₂, hv₂, hexit⟩ := (takes_passed rfl rfl).mp h
    rw [← takesAll_dense, hcs, ← map_id (x :: rest)] at hv₂
    obtain ⟨results, hfst, hresults, rfl⟩ := listener.takesAll_map
      (fun names => .nonArithmeticOperatorExpression (.kindMatcher s names true) key)
      (fun t name => Reads .nodeLabel t (.name name)) id
      (fun y hy names v' hv' => (ih y hy).1 s names key v' hv') [] hv₂
    cases hexit
    exact ⟨_, hreads results hfst hresults, rfl⟩
  · intro p v' h
    obtain ⟨v₂, hv₂, hexit⟩ := (takes_passed rfl rfl).mp h
    rw [← takesAll_dense, hcs] at hv₂
    obtain ⟨results, hfst, hresults, rfl⟩ := listener.takesAll_map
      (fun names => .nodePattern { p with kinds := p.kinds ++ names })
      (fun t name => Reads .nodeLabel t (.name name)) id (by
        intro y hy names v' hv'
        obtain ⟨name, hname, rfl⟩ := (ih y hy).2 _ v' hv'
        exact ⟨name, hname, by simp⟩) [] (by simpa using hv₂)
    cases hexit
    exact ⟨_, hreads results hfst hresults, rfl⟩

/-- The visitor of an atom takes a tree of a rule of atoms. -/
def AtomRuleSpec (r : Rule) (t : Tree) : Prop :=
  ∀ a v', listener.Takes t (.atom a) v' → ∃ e, Reads r t (.expression e) ∧ v' = .atom e

theorem spec_atom (hr : r ∈ atomRules) (hcs : cs = [x]) (hx : Derives r x)
    (ihx : AtomRuleSpec r x) : AtomSpec (.node .atom cs) := by
  intro s key v' h
  have htoken : hasToken .count cs = false := by
    simp [hcs, hasToken, isToken_of_derives hx]
  have henters : enters (.nonArithmeticOperatorExpression s key) .atom cs = some (.atom .nil) := by
    simp [enters, htoken]
  have hexit : exit (.nonArithmeticOperatorExpression s key) .atom cs =
      .pop _ := if_neg (by simp [htoken])
  obtain ⟨w', hw', hf⟩ := (takes_entered henters rfl hexit).mp h
  rw [hcs, takesAll_singleton] at hw'
  obtain ⟨e, he, rfl⟩ := ihx _ w' hw'
  cases hf
  exact ⟨e, .atom hr hcs he, rfl⟩

theorem spec_countAll {count : String}
    (hcs : dense cs = [token .count count, symbol "(", token .asterisk "*", symbol ")"]) :
    AtomSpec (.node .atom cs) := by
  intro s key v' h
  have htoken : hasToken .count cs = true := by
    rw [← hasToken_dense (by simp), hcs]
    simp [hasToken]
  have henters : enters (.nonArithmeticOperatorExpression s key) .atom cs =
      none := by
    simp [enters, htoken]
  obtain ⟨v₂, hv₂, hexit⟩ := (takes_passed henters rfl).mp h
  rw [← takesAll_dense, hcs] at hv₂
  simp only [takesAll_cons, takesAll_nil, takes_symbol, takes_token, exists_eq_left'] at hv₂
  subst hv₂
  simp only [exit, htoken] at hexit
  cases hexit
  exact ⟨_, .countAll hcs, rfl⟩

theorem spec_fallThrough (hr : r ∈ fallThrough) : AtomRuleSpec r (.node r cs) := by
  intro a v' h
  obtain ⟨e, rfl⟩ := eq_atom_of_enters (listener_balanced.visit _ h)
  exact ⟨e, .fallThrough hr, rfl⟩

/-! ## Literals -/

def LiteralSpec (r : Rule) (t : Tree) : Prop :=
  ∀ v', listener.Takes t (.literal .nil none none) v' →
    ∃ literal map list, v' = .literal literal map list ∧
      Reads r t (.expression (getLiteral literal map list))

theorem spec_literal (hr : r ∈ [Rule.booleanLiteral, .numberLiteral, .listLiteral, .mapLiteral])
    (hcs : cs = [x]) (hx : Derives r x) (ihx : LiteralSpec r x) :
    AtomRuleSpec .literal (.node .literal cs) := by
  intro a v' h
  have htoken : ∀ type, hasToken type cs = false := by
    simp [hcs, hasToken, isToken_of_derives hx]
  have henters : enters (.atom a) .literal cs = some (.literal .nil none none) := by
    simp [enters, htoken]
  have hexit : exit (.atom a) .literal cs = .pop _ :=
    (if_neg (by simp [htoken])).trans (if_neg (by simp [htoken]))
  obtain ⟨w', hw', hf⟩ := (takes_entered henters rfl hexit).mp h
  rw [hcs, takesAll_singleton] at hw'
  obtain ⟨literal, map, list, rfl, hreads⟩ := ihx w' hw'
  cases hf
  exact ⟨_, .literal hr hcs hreads, rfl⟩

theorem spec_tokenLiteral (htype : type ∈ [TokenType.null, .string]) (hcs : cs = [token type text])
    : AtomRuleSpec .literal (.node .literal cs) := by
  intro a v' h
  have hone : hasToken .null cs || hasToken .string cs := by
    fin_cases htype <;> simp [hcs, hasToken]
  have henters : enters (.atom a) .literal cs = none := by
    simp only [enters, hone, if_true]
  obtain ⟨v₂, hv₂, hexit⟩ := (takes_passed henters rfl).mp h
  rw [hcs, takesAll_singleton, takes_token] at hv₂
  subst hv₂
  fin_cases htype
  · simp only [exit, hcs, hasToken] at hexit
    cases hexit
    exact ⟨_, .nullLiteral hcs, rfl⟩
  · have hnull : hasToken .null cs = false := by simp [hcs, hasToken]
    have hstring : hasToken .string cs = true := by simp [hcs, hasToken]
    have htexts : texts cs = text := by
      simp [hcs, texts, Frontend.text, token]
    simp only [exit, hnull, hstring, htexts, if_true] at hexit
    cases hexit
    exact ⟨_, .stringLiteral hcs, rfl⟩

/-- A literal of one token. -/
theorem takes_setLiteral {t : Token} {value : Option LiteralValue} {error : Error}
    (hcs : cs = [.token t]) (henters : enters (.literal .nil none none) r cs = none)
    (hupdates : updates (.literal .nil none none) r cs = setLiteral none none .nil value error)
    (hexit : ∀ v, exit v r cs = .stay (some (v, [])))
    (h : listener.Takes (.node r cs) (.literal .nil none none) v') :
    ∃ l, value = some l ∧ v' = .literal (.literal ⟨l, false⟩) none none := by
  cases value with
  | none =>
    refine absurd h (listener.not_takes_of_errors ?_)
    show (updates _ r cs).2 ≠ []
    rw [hupdates]
    simp [setLiteral]
  | some l =>
    subst hcs
    have hexit₂ := (takes_leaf henters hupdates).mp h
    rw [hexit] at hexit₂
    cases hexit₂
    exact ⟨l, rfl, rfl⟩

theorem texts_singleton (t : Token) : texts [.token t] = t.text := by
  simp [texts, text]

theorem spec_booleanLiteral (hcs : cs = [symbol text]) :
    LiteralSpec .booleanLiteral (.node .booleanLiteral cs) := by
  intro v' h
  obtain ⟨l, hl, rfl⟩ := takes_setLiteral hcs rfl rfl (fun v => by cases v <;> rfl) h
  rw [hcs, symbol, token, texts_singleton] at hl
  obtain ⟨value, hvalue, rfl⟩ := Option.map_eq_some_iff.mp hl
  exact ⟨_, _, _, rfl, .booleanLiteral hcs hvalue⟩

theorem spec_doubleLiteral (hcs : cs = [symbol text]) :
    LiteralSpec .doubleLiteral (.node .doubleLiteral cs) := by
  intro v' h
  obtain ⟨l, hl, rfl⟩ := takes_setLiteral hcs rfl rfl (fun v => by cases v <;> rfl) h
  rw [hcs, symbol, token, texts_singleton] at hl
  exact ⟨_, _, _, rfl, .doubleLiteral hcs hl⟩

theorem spec_integerLiteral (hcs : cs = [token .integer text]) :
    LiteralSpec .integerLiteral (.node .integerLiteral cs) := by
  intro v' h
  obtain ⟨l, hl, rfl⟩ := takes_setLiteral hcs rfl rfl (fun v => by cases v <;> rfl) h
  rw [hcs, token, texts_singleton] at hl
  obtain ⟨value, hvalue, rfl⟩ := Option.map_eq_some_iff.mp hl
  exact ⟨_, _, _, rfl, .integerLiteral hcs hvalue⟩

theorem spec_numberLiteral (hr : r ∈ [Rule.doubleLiteral, .integerLiteral]) (hcs : cs = [x])
    (ihx : LiteralSpec r x) : LiteralSpec .numberLiteral (.node .numberLiteral cs) := by
  intro v' h
  obtain ⟨v₂, hv₂, hexit⟩ := (takes_passed rfl rfl).mp h
  rw [hcs, takesAll_singleton] at hv₂
  obtain ⟨literal, map, list, rfl, hreads⟩ := ihx v₂ hv₂
  cases hexit
  exact ⟨_, _, _, rfl, .numberLiteral hr hcs hreads⟩

/-- The visitor of an expression takes the children. -/
def ExpressionSpec (t : Tree) : Prop :=
  ∃ cs, t = .node .expression cs ∧ ∀ w', listener.TakesAll cs (.expression .nil) w' →
      ∃ e, w' = .expression e ∧ Reads .expression t (.expression e)

theorem spec_expression (hcs : dense cs = [x]) (ihx : BooleanSpec .orExpression x) :
    ExpressionSpec (.node .expression cs) := by
  refine ⟨cs, rfl, ?_⟩
  intro w' hw'
  rw [← takesAll_dense, hcs, takesAll_singleton] at hw'
  obtain ⟨e, he, rfl⟩ := ihx _ w' (by simp [IsHost]) hw'
  exact ⟨e, rfl, .expression hcs he⟩

theorem takes_expression (ht : ExpressionSpec t)
    {f : Visitor → Option (Visitor × List Error)}
    (hv : HandsOver v .expression (.expression .nil) fun _ => f) (h : listener.Takes t v v') :
    ∃ e, Reads .expression t (.expression e) ∧ f (.expression e) = some (v', []) := by
  obtain ⟨cs, rfl, ht⟩ := ht
  obtain ⟨henters, hupdates, hexit⟩ := hv cs
  rw [takes_entered henters hupdates hexit] at h
  obtain ⟨w', hw', hf⟩ := h
  obtain ⟨e, rfl, he⟩ := ht w' hw'
  exact ⟨e, he, hf⟩

theorem takesAll_intersperse :
    listener.TakesAll (xs.intersperse (symbol text)) v v' ↔ listener.TakesAll xs v v' := by
  induction xs generalizing v with
  | nil => simp
  | cons x xs ih =>
    cases xs with
    | nil => simp
    | cons y ys => simp [ih]

/-- A list of which the elements are read in turn, between brackets. -/
theorem takesAll_bracketed {opening closing : String} :
    listener.TakesAll (symbol opening :: xs.intersperse (symbol ",") ++
      [symbol closing]) v v' ↔ listener.TakesAll xs v v' := by
  simp [listener.takesAll_append, takesAll_intersperse]

theorem takesAll_expressions (ihxs : ∀ x ∈ xs, ExpressionSpec x) (state : List Expression → Visitor)
    {f : List Expression → Visitor → Option (Visitor × List Error)}
    (hv : ∀ es, HandsOver (state es) .expression (.expression .nil) fun _ => f es)
    (hf : ∀ es e, f es (.expression e) = some (state (es ++ [e]), []))
    (h : listener.TakesAll xs (state []) v') :
    ∃ results : List (Tree × Expression), results.map Prod.fst = xs ∧
      (∀ p ∈ results, Reads .expression p.1 (.expression p.2)) ∧
      v' = state (results.map Prod.snd) := by
  rw [← map_id xs] at h
  refine listener.takesAll_map state (fun t e => Reads .expression t (.expression e)) id ?_ [] h
  intro x hx es v' hv'
  obtain ⟨e, he, hv'⟩ := takes_expression (ihxs x hx) (hv es) hv'
  rw [hf] at hv'
  cases hv'
  exact ⟨e, he, rfl⟩

theorem spec_listLiteral
    (hcs : dense cs = symbol "[" :: xs.intersperse (symbol ",") ++ [symbol "]"])
    (ihxs : ∀ x ∈ xs, ExpressionSpec x) : LiteralSpec .listLiteral (.node .listLiteral cs) := by
  intro v' h
  obtain ⟨w', hw', hf⟩ := (takes_entered rfl rfl rfl).mp h
  rw [← takesAll_dense, hcs, takesAll_bracketed] at hw'
  obtain ⟨results, hfst, hresults, rfl⟩ := takesAll_expressions ihxs
    .listLiteral (fun _ _ => ⟨rfl, rfl, rfl⟩) (fun _ _ => rfl) hw'
  cases hf
  exact ⟨_, _, _, rfl, .listLiteral (by rw [hcs, hfst]) hresults⟩

/-- The visitor of a map takes the children. -/
def MapSpec (t : Tree) : Prop :=
  ∃ cs, t = .node .mapLiteral cs ∧ ∀ w', listener.TakesAll cs (.mapLiteral "" []) w' →
      ∃ key items, w' = .mapLiteral key items ∧
        Reads .mapLiteral t (.expression (.mapLiteral items))

theorem takesAll_items :
    listener.TakesAll ((items.map fun p => [p.1, symbol ":", p.2]).intersperse
      [symbol ","]).flatten v v' ↔ listener.TakesAll (items.flatMap fun p => [p.1, p.2]) v v' := by
  induction items generalizing v with
  | nil => simp
  | cons p items ih =>
    cases items with
    | nil => simp
    | cons q items =>
      simp only [map_cons] at ih ⊢
      simp [ih]

theorem spec_mapLiteral
    (hcs : dense cs = symbol "\x7b" ::
      ((items.map fun p => [p.1, symbol ":", p.2]).intersperse
        [symbol ","]).flatten ++ [symbol "\x7d"])
    (hkeys : ∀ p ∈ items, Derives .propertyKeyName p.1)
    (ihvalues : ∀ p ∈ items, ExpressionSpec p.2) : MapSpec (.node .mapLiteral cs) := by
  refine ⟨cs, rfl, ?_⟩
  intro w' hw'
  rw [← takesAll_dense, hcs] at hw'
  simp only [listener.takesAll_append, takesAll_cons,
    takesAll_nil, takes_symbol, exists_eq_left', exists_eq_right, takesAll_items] at hw'
  obtain ⟨results, hfst, hresults, rfl⟩ := listener.takesAll_flatMap
    (fun es => .mapLiteral ((es.map Prod.fst).getLast?.getD "")
      (es.foldl (fun map p => putItem p.1 p.2 map) []))
    (fun (p : Tree × Tree) (q : String × Expression) =>
      Reads .propertyKeyName p.1 (.name q.1) ∧ Reads .expression p.2 (.expression q.2)) _
    (by
      intro p hp es v' hv'
      rw [takesAll_cons] at hv'
      obtain ⟨v₁, hv₁, hv'⟩ := hv'
      rw [takesAll_singleton] at hv'
      obtain rfl := takes_propertyKeyName_map (hkeys p hp) hv₁
      obtain ⟨e, he, hf⟩ := takes_expression (ihvalues p hp) (fun _ => ⟨rfl, rfl, rfl⟩) hv'
      cases hf
      refine ⟨(unescapePropertyKeyName (text p.1), e), ⟨.propertyKeyName (hkeys p hp), he⟩, ?_⟩
      simp) [] hw'
  refine ⟨_, _, rfl, ?_⟩
  rw [nil_append, foldl_map]
  refine .mapLiteral ?_ (fun p hp => (hresults p hp).1) (fun p hp => (hresults p hp).2)
  rw [hcs, ← hfst, map_map]
  rfl

theorem literalSpec_map (ht : MapSpec t) : LiteralSpec .mapLiteral t := by
  obtain ⟨cs, rfl, ht⟩ := ht
  intro v' h
  obtain ⟨w', hw', hf⟩ := (takes_entered rfl rfl rfl).mp h
  obtain ⟨key, items, rfl, hreads⟩ := ht w' hw'
  cases hf
  exact ⟨_, _, _, rfl, hreads⟩

/-! ## The other atoms -/

theorem toList_dollar_append (s : String) : ("$" ++ s).toList = '$' :: s.toList := by
  simp

theorem parameterSymbol_eq {name : String} {s : String}
    (hname : name = s ∨ name = "") (hcs : texts cs = "$" ++ s) : parameterSymbol name cs = s := by
  unfold parameterSymbol
  split
  next hne => exact hname.resolve_right hne
  next =>
    rw [hcs, toList_dollar_append]
    exact String.ofList_toList

/-- A parameter is read in one way by the visitors of atoms and of
properties. -/
def ParameterSpec (t : Tree) : Prop :=
  ∃ cs s, t = .node .parameter cs ∧ Reads .parameter t (.expression (.parameter ⟨s⟩)) ∧
    ∀ w', listener.TakesAll cs (.symbolicNameOrReservedWord "") w' →
      ∃ name, w' = .symbolicNameOrReservedWord name ∧ parameterSymbol name cs = s

theorem spec_namedParameter (hcs : cs = [symbol "$", x])
    (hx : Derives .symbolicName x) : ParameterSpec (.node .parameter cs) := by
  refine ⟨cs, text x, rfl, .namedParameter hcs hx, ?_⟩
  intro w' hw'
  rw [hcs] at hw'
  simp only [takesAll_cons, takesAll_nil, takes_symbol, exists_eq_left', exists_eq_right] at hw'
  refine ⟨text x, takes_symbolicName_name hx hw', ?_⟩
  exact parameterSymbol_eq (.inl rfl) (by simp [hcs, texts, text, symbol, token])

theorem spec_numberedParameter (hcs : cs = [symbol "$", token .integer text]) :
    ParameterSpec (.node .parameter cs) := by
  refine ⟨cs, text, rfl, .numberedParameter hcs, ?_⟩
  intro w' hw'
  rw [hcs] at hw'
  simp only [takesAll_cons, takesAll_nil, takes_symbol, takes_token, exists_eq_left'] at hw'
  refine ⟨"", hw'.symm, ?_⟩
  exact parameterSymbol_eq (.inr rfl) (by simp [hcs, texts, Frontend.text, symbol, token])

theorem atomRuleSpec_parameter (ht : ParameterSpec t) : AtomRuleSpec .parameter t := by
  obtain ⟨cs, s, rfl, hreads, ht⟩ := ht
  intro a v' h
  obtain ⟨w', hw', hf⟩ := (takes_entered rfl rfl rfl).mp h
  obtain ⟨name, rfl, hname⟩ := ht w' hw'
  simp only [Option.some.injEq, Prod.mk.injEq, and_true, hname] at hf
  exact ⟨_, hreads, hf.symm⟩

theorem spec_variable (ht : Derives .variable_ t) : AtomRuleSpec .variable_ t := by
  intro a v' h
  exact ⟨_, .variable_ ht, takes_variable ht (fun _ => ⟨rfl, rfl, rfl⟩) takes_symbolicName_name rfl h⟩

theorem spec_parenthesizedExpression
    (hcs : dense cs = [symbol "(", x, symbol ")"]) (ihx : ExpressionSpec x) :
    AtomRuleSpec .parenthesizedExpression (.node .parenthesizedExpression cs) := by
  intro a v' h
  obtain ⟨w', hw', hf⟩ := (takes_entered rfl rfl rfl).mp h
  rw [← takesAll_dense, hcs] at hw'
  simp only [takesAll_cons, takesAll_nil, takes_symbol, exists_eq_left', exists_eq_right] at hw'
  obtain ⟨e, he, hf'⟩ := takes_expression ihx (fun _ => ⟨rfl, rfl, rfl⟩) hw'
  cases hf'
  cases hf
  exact ⟨_, .parenthesizedExpression hcs he, rfl⟩

def WhereSpec (t : Tree) : Prop :=
  ∃ cs, t = .node .where_ cs ∧ ∀ w', listener.TakesAll cs (.where_ []) w' →
      ∃ e, w' = .where_ [e] ∧ Reads .where_ t (.where_ e)

theorem spec_where {word : String} (hcs : dense cs = [token .where_ word, x])
    (ihx : ExpressionSpec x) : WhereSpec (.node .where_ cs) := by
  refine ⟨cs, rfl, ?_⟩
  intro w' hw'
  rw [← takesAll_dense, hcs] at hw'
  simp only [takesAll_cons, takesAll_nil, takes_token, exists_eq_left', exists_eq_right] at hw'
  obtain ⟨e, he, hf⟩ := takes_expression ihx (fun _ => ⟨rfl, rfl, rfl⟩) hw'
  cases hf
  exact ⟨e, rfl, .where_ hcs he⟩

def IdInCollSpec (t : Tree) : Prop :=
  ∃ cs, t = .node .idInColl cs ∧ ∀ w', listener.TakesAll cs (.idInCollection ⟨none, .nil⟩) w' →
      ∃ c, w' = .idInCollection c ∧ Reads .idInColl t (.idInCollection c)

theorem spec_idInColl {v : Tree} {in_ : String} (hcs : dense cs = [v, token .in_ in_, x])
    (hv : Derives .variable_ v) (ihx : ExpressionSpec x) : IdInCollSpec (.node .idInColl cs) := by
  refine ⟨cs, rfl, ?_⟩
  intro w' hw'
  rw [← takesAll_dense, hcs] at hw'
  simp only [takesAll_cons, takesAll_nil, takes_token, exists_eq_left', exists_eq_right] at hw'
  obtain ⟨w₁, hw₁, hw'⟩ := hw'
  obtain rfl := takes_variable hv (fun _ => ⟨rfl, rfl, rfl⟩) takes_symbolicName_variable rfl hw₁
  obtain ⟨e, he, hf⟩ := takes_expression ihx (fun _ => ⟨rfl, rfl, rfl⟩) hw'
  cases hf
  exact ⟨_, rfl, .idInColl hcs hv he⟩

def FilterSpec (t : Tree) : Prop :=
  ∃ cs, t = .node .filterExpression cs ∧
    ∀ w', listener.TakesAll cs (.filterExpression ⟨none, none⟩) w' →
      ∃ f, w' = .filterExpression f ∧ Reads .filterExpression t (.filter f)

theorem spec_filterExpression {condition : Maybe}
    (hcs : dense cs = x :: condition.toList) (ihx : IdInCollSpec x)
    (ihcondition : ∀ y ∈ condition, WhereSpec y) : FilterSpec (.node .filterExpression cs) := by
  refine ⟨cs, rfl, ?_⟩
  intro w' hw'
  rw [← takesAll_dense, hcs, takesAll_cons] at hw'
  obtain ⟨w₁, hw₁, hw'⟩ := hw'
  obtain ⟨ds, rfl, ihx⟩ := ihx
  obtain ⟨w₂, hw₂, hf⟩ := (takes_entered rfl rfl rfl).mp hw₁
  obtain ⟨c, rfl, hc⟩ := ihx w₂ hw₂
  cases hf
  obtain ⟨condition', rfl, hcondition, rfl⟩ := listener.takesAll_toList
    (fun e => .filterExpression ⟨some c, e.map fun e => ⟨[e]⟩⟩)
    (fun t e => Reads .where_ t (.where_ e)) (by
      intro y hy v' hv'
      have ihy := ihcondition y hy
      obtain ⟨ds', rfl, ihy⟩ := ihy
      obtain ⟨w₃, hw₃, hf⟩ := (takes_entered rfl rfl rfl).mp hv'
      obtain ⟨e, rfl, he⟩ := ihy w₃ hw₃
      cases hf
      exact ⟨e, he, rfl⟩) hw'
  refine ⟨_, rfl, ?_⟩
  rw [Option.map_map]
  exact .filterExpression hcs hc hcondition

section

variable (htype : type ∈ [TokenType.all, .any, .none, .single])
  (hcs : dense cs = [token type text, symbol "(", x, symbol ")"])
include htype hcs

theorem quantifierType_eq
    (hx : ∀ type, isToken type x = false) : quantifierType cs = quantifierTypeOf type := by
  have htoken : ∀ type', type' ≠ .space → type' ≠ .symbol →
      hasToken type' cs = decide (type = type') := by
    intro type' hspace hsymbol
    rw [← hasToken_dense hspace, hcs]
    simp [hasToken, hx, Ne.symm hsymbol]
  fin_cases htype <;>
    simp [quantifierType, htoken, quantifierTypeOf]

theorem spec_quantifier
    (hx : Derives .filterExpression x) (ihx : FilterSpec x) :
    AtomRuleSpec .quantifier (.node .quantifier cs) := by
  intro a v' h
  obtain ⟨w', hw', hf⟩ := (takes_entered rfl rfl rfl).mp h
  rw [← takesAll_dense, hcs] at hw'
  simp only [takesAll_cons, takesAll_nil, takes_token, takes_symbol,
    exists_eq_left', exists_eq_right] at hw'
  obtain ⟨ds, rfl, ihx⟩ := ihx
  obtain ⟨w₁, hw₁, hf'⟩ := (takes_entered rfl rfl rfl).mp hw'
  obtain ⟨f, rfl, hreads⟩ := ihx w₁ hw₁
  cases hf'
  cases hf
  rw [quantifierType_eq htype hcs fun _ => isToken_of_derives hx]
  exact ⟨_, .quantifier htype hcs hreads, rfl⟩

end

/-! ## Functions -/

def NamespaceSpec (t : Tree) : Prop :=
  ∃ cs names, t = .node .namespace_ cs ∧ Reads .namespace_ t (.names names) ∧
    ∀ w', listener.TakesAll cs (.namespace_ []) w' → w' = .namespace_ names

theorem spec_namespace (hcs : cs = xs.flatMap fun x => [x, symbol "."])
    (hxs : ∀ x ∈ xs, Derives .symbolicName x) : NamespaceSpec (.node .namespace_ cs) := by
  refine ⟨cs, xs.map text, rfl, .namespace_ hcs hxs, ?_⟩
  intro w' hw'
  rw [hcs] at hw'
  obtain ⟨results, hfst, hresults, rfl⟩ := listener.takesAll_flatMap
    .namespace_ (fun x name => name = text x) _ (by
      intro x hx names v' hv'
      simp only [takesAll_cons, takesAll_nil, takes_symbol, exists_eq_right] at hv'
      refine ⟨text x, rfl, ?_⟩
      exact takes_symbolicName (hxs x hx) (fun _ => rfl)
        (fun _ hcs => by rw [← hcs]; rfl) (fun _ => rfl) hv') [] hw'
  rw [← hfst, map_map]
  exact congrArg _ (map_congr_left hresults)

def FunctionNameSpec (t : Tree) : Prop :=
  ∃ namespaces name, Reads .functionName t (.function namespaces name) ∧
    ∀ distinct v', listener.Takes t (.functionInvocation distinct [] "" []) v' →
      v' = .functionInvocation distinct namespaces name []

theorem spec_functionName {n : Tree} (hcs : cs = [n, x]) (hx : Derives .symbolicName x)
    (ihn : NamespaceSpec n) : FunctionNameSpec (.node .functionName cs) := by
  obtain ⟨ds, names, rfl, hnames, ihn⟩ := ihn
  refine ⟨names, text x, .functionName hcs hnames hx, ?_⟩
  intro distinct v' h
  obtain ⟨v₂, hv₂, hexit⟩ := (takes_passed rfl rfl).mp h
  rw [hcs, takesAll_cons] at hv₂
  obtain ⟨v₁, hv₁, hv₂⟩ := hv₂
  rw [takesAll_singleton] at hv₂
  obtain ⟨w', hw', hf⟩ := (takes_entered rfl rfl rfl).mp hv₁
  obtain rfl := ihn w' hw'
  cases hf
  have hname : v₂ = .functionInvocation distinct names (text x) [] :=
    takes_symbolicName hx (fun _ => rfl) (fun _ hcs => by rw [← hcs]; rfl) (fun _ => rfl) hv₂
  subst hname
  cases hexit
  rfl

theorem hasToken_intersperse (htype : type ≠ .symbol) (hxs : ∀ x ∈ xs, isToken type x = false) :
    hasToken type (xs.intersperse (symbol text)) = false := by
  induction xs with
  | nil => rfl
  | cons x xs ih =>
    have hx : isToken type x = false := hxs x (by simp)
    have ih := ih fun y hy => hxs y (by simp [hy])
    cases xs with
    | nil => simp [hasToken, hx]
    | cons y ys =>
      rw [hasToken] at ih
      simp [hasToken, hx, htype.symm, ih]

theorem spec_functionInvocation {name : Tree} {distinct : Option String}
    (hcs : dense cs = name :: symbol "(" :: (distinct.toList.map (token .distinct)) ++
        xs.intersperse (symbol ",") ++ [symbol ")"])
    (hname : Derives .functionName name) (hxs : ∀ x ∈ xs, Derives .expression x)
    (ihname : FunctionNameSpec name) (ihxs : ∀ x ∈ xs, ExpressionSpec x) :
    AtomRuleSpec .functionInvocation (.node .functionInvocation cs) := by
  intro a v' h
  have hdistinct : hasToken .distinct cs = distinct.isSome := by
    rw [← hasToken_dense (by simp), hcs]
    have harguments : (xs.intersperse (symbol ",")).any (isToken .distinct) = false :=
      hasToken_intersperse (by simp) fun x hx => isToken_of_derives (hxs x hx)
    cases distinct <;> simp [hasToken, isToken_of_derives hname, harguments]
  rw [takes_entered rfl rfl rfl, hdistinct] at h
  obtain ⟨w', hw', hf⟩ := h
  rw [← takesAll_dense, hcs] at hw'
  have hskip : ∀ {v v'}, listener.TakesAll
      (distinct.toList.map (token .distinct)) v v' ↔ v = v' := by
    cases distinct <;> simp
  simp only [listener.takesAll_append, takesAll_cons, takesAll_nil, takes_symbol, hskip,
    exists_eq_right, takesAll_intersperse] at hw'
  obtain ⟨w₁, hw₁, hw'⟩ := hw'
  obtain ⟨namespaces, symbolicName, hreads, ihname⟩ := ihname
  obtain rfl := ihname _ w₁ hw₁
  obtain ⟨results, hfst, hresults, rfl⟩ := takesAll_expressions ihxs
    (.functionInvocation distinct.isSome namespaces symbolicName)
    (fun _ _ => ⟨rfl, rfl, rfl⟩) (fun _ _ => rfl) hw'
  cases hf
  exact ⟨_, .functionInvocation (by rw [hcs, hfst]) hreads hresults, rfl⟩

end Dawgs.Ref.Frontend

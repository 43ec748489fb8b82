import Dawgs.Proofs.FrontendReads

/-!
# The productions with operators

Truth values, predicates and arithmetic. For each production: if the
children are read as the relation says, then so is the tree. What "is read"
means depends on the rule, since each rule has its own visitors. For most it
says what becomes of the visitor that takes the tree, and for the rules at
which another visitor is entered it says what that one holds after the
children.
-/

namespace Dawgs.Ref.Frontend

open Lib Cypher Grammar List Option ArithmeticPart
open Listener (takesAll_cons takesAll_nil takesAll_singleton)

/-! ## Truth values -/

/-- Where a visitor puts a truth value. -/
def assign : Visitor → Expression → Visitor
  | .expression _, e => .expression e
  | .joining joiner joined, e => .joining joiner (joined ++ [e])
  | .negation _, e => .negation e
  | v, _ => v

/-- The visitors that handle a rule of truth values. -/
def IsHost (r : Rule) : Visitor → Prop
  | .expression _ | .joining _ _ =>
    r ∈ [Rule.orExpression, .xorExpression, .andExpression, .notExpression,
      .comparisonExpression, .stringListNullPredicateExpression]
  | .negation _ =>
    r ∈ [Rule.comparisonExpression, .stringListNullPredicateExpression]
  | _ => False

variable {r below : Rule} {v v' : Visitor} {word : TokenType} {cs : List Tree}
  {x t : Tree} {operators : List String} {rest : List ArithmeticPart}

theorem isHost_assign (hv : IsHost r v) (e : Expression) : IsHost r (assign v e) := by
  cases v <;> exact hv

theorem isHost_below (hr : JoiningRule r word below) (hv : IsHost r v) : IsHost below v := by
  cases v <;> cases hr <;> simp_all [IsHost]

theorem isHost_comparison (hv : IsHost .notExpression v) : IsHost .comparisonExpression v := by
  cases v <;> simp_all [IsHost]

theorem isHost_predicates (hv : IsHost .comparisonExpression v) :
    IsHost .stringListNullPredicateExpression v := by
  cases v <;> simp_all [IsHost]

theorem handlers_of_isHost (hv : IsHost r v) (cs : List Tree) :
    enters v r cs = booleanVisitor r cs ∧ updates v r cs = (v, []) ∧
      exit v r cs = leaveBoolean v r cs (assign v) := by
  cases v <;> simp only [IsHost, mem_cons, not_mem_nil, or_false] at hv
  case expression e =>
    rcases hv with rfl | rfl | rfl | rfl | rfl | rfl <;>
      exact ⟨rfl, rfl, rfl⟩
  case joining joiner joined =>
    rcases hv with rfl | rfl | rfl | rfl | rfl | rfl <;>
      exact ⟨rfl, rfl, rfl⟩
  case negation e =>
    rcases hv with rfl | rfl <;> exact ⟨rfl, rfl, rfl⟩

theorem takes_operator {w : Visitor} (hv : IsHost r v)
    (hw : booleanVisitor r cs = some w) (h : listener.Takes (.node r cs) v v') :
    ∃ w' e, listener.TakesAll cs w w' ∧ booleanResult r w' = some e ∧ v' = assign v e := by
  obtain ⟨henters, hupdates, hexit⟩ := handlers_of_isHost hv cs
  rw [leaveBoolean, hw] at hexit
  obtain ⟨w', hcs, hf⟩ := (takes_entered (henters.trans hw) hupdates hexit).mp h
  simp only [map_eq_some_iff, Prod.mk.injEq, and_true] at hf
  obtain ⟨e, he, rfl⟩ := hf
  exact ⟨w', e, hcs, he, rfl⟩

/-- A rule without its operator is passed over. -/
theorem takes_operand {P : Expression → Prop} (hv : IsHost r v) (hw : booleanVisitor r cs = none)
    (hcs : ∀ v₂, listener.TakesAll cs v v₂ → ∃ e, P e ∧ v₂ = assign v e)
    (h : listener.Takes (.node r cs) v v') : ∃ e, P e ∧ v' = assign v e := by
  obtain ⟨henters, hupdates, -⟩ := handlers_of_isHost hv cs
  obtain ⟨v₂, h₂, hexit⟩ := (takes_passed (henters.trans hw) hupdates).mp h
  obtain ⟨e, he, rfl⟩ := hcs v₂ h₂
  rw [(handlers_of_isHost (isHost_assign hv e) cs).2.2, leaveBoolean, hw] at hexit
  cases hexit
  exact ⟨e, he, rfl⟩

/-- A tree of a rule of truth values is read by every visitor that handles
the rule. -/
def BooleanSpec (r : Rule) (t : Tree) : Prop :=
  ∀ v v', IsHost r v → listener.Takes t v v' → ∃ e, Reads r t (.expression e) ∧ v' = assign v e

theorem booleanVisitor_joining (hr : JoiningRule r word below) (cs : List Tree) :
    booleanVisitor r cs =
      if hasToken word cs then some (.joining (joinerOf r) []) else none := by
  cases hr <;> rfl

section

variable {rest : List (String × Tree)} (hr : JoiningRule r word below)
  (hcs : dense cs = x :: rest.flatMap fun p => [token word p.1, p.2])
include hr hcs

theorem hasToken_joining
    (hx : isToken word x = false) : hasToken word cs = !rest.isEmpty := by
  have hword : word ≠ .space := by cases hr <;> simp
  rw [← hasToken_dense hword, hcs]
  cases rest <;> simp [hasToken, hx]

theorem spec_joining
    (hx : Derives below x) (ihx : BooleanSpec below x)
    (ihrest : ∀ p ∈ rest, BooleanSpec below p.2) : BooleanSpec r (.node r cs) := by
  intro v v' hv h
  have htoken := hasToken_joining hr hcs (isToken_of_derives hx)
  by_cases hrest : rest = []
  · subst hrest
    refine takes_operand hv ?_ ?_ h
    · rw [booleanVisitor_joining hr, htoken]
      rfl
    · intro v₂ hv₂
      rw [← takesAll_dense, hcs] at hv₂
      simp only [flatMap_nil, takesAll_cons, takesAll_nil, exists_eq_right] at hv₂
      obtain ⟨e, he, rfl⟩ := ihx v v₂ (isHost_below hr hv) hv₂
      exact ⟨e, .unjoined hr hcs he, rfl⟩
  · have hw : booleanVisitor r cs = some (.joining (joinerOf r) []) := by
      rw [booleanVisitor_joining hr, htoken]
      simp [hrest]
    obtain ⟨w', e', hw', he', rfl⟩ := takes_operator hv hw h
    rw [← takesAll_dense, hcs, takesAll_cons] at hw'
    obtain ⟨w₁, hw₁, hw'⟩ := hw'
    have hhost : ∀ joined, IsHost below (.joining (joinerOf r) joined) := by
      cases hr <;> simp [IsHost]
    obtain ⟨e, he, rfl⟩ := ihx _ w₁ (hhost []) hw₁
    obtain ⟨results, rfl, hresults, rfl⟩ := listener.takesAll_flatMap
      (fun es => .joining (joinerOf r) (e :: es)) (fun p e => Reads below p.2 (.expression e)) _ (by
        intro p hp es v₁ hv₁
        simp only [takesAll_cons, takes_token, takesAll_nil, exists_eq_right,
          exists_eq_left'] at hv₁
        obtain ⟨e', he', rfl⟩ := ihrest p hp _ _ (hhost _) hv₁
        exact ⟨e', he', rfl⟩) [] hw'
    have hresult : e' = (joinerOf r).joined (e :: results.map Prod.snd) := by
      cases hr <;> exact (Option.some.inj he').symm
    subst hresult
    refine ⟨_, .joined hr ?_ ?_ he hresults, rfl⟩
    · rw [hcs, flatMap_map]
    · simpa using hrest

end

theorem spec_notExpression {nots : List String} (hcs : dense cs = nots.map (token .not) ++ [x])
    (hx : Derives .comparisonExpression x) (ihx : BooleanSpec .comparisonExpression x) :
    BooleanSpec .notExpression (.node .notExpression cs) := by
  intro v v' hv h
  have htoken : hasToken .not cs = !nots.isEmpty := by
    rw [← hasToken_dense (by simp), hcs]
    cases nots <;> simp [hasToken, isToken_of_derives hx]
  have hskip : ∀ {v v' : Visitor}, listener.TakesAll cs v v' ↔ listener.Takes x v v' := by
    intro v v'
    rw [← takesAll_dense, hcs, listener.takesAll_append]
    have hnots : ∀ v', listener.TakesAll (nots.map (token .not)) v v' ↔ v = v' := by
      clear hcs htoken
      induction nots with
      | nil => simp
      | cons n nots ih => simp [ih]
    simp [hnots]
  by_cases hnots : nots = []
  · subst hnots
    refine takes_operand hv ?_ ?_ h
    · simp [booleanVisitor, htoken]
    · intro v₂ hv₂
      obtain ⟨e, he, rfl⟩ := ihx v v₂ (isHost_comparison hv) (hskip.mp hv₂)
      exact ⟨e, .unnegated hcs he, rfl⟩
  · have hw : booleanVisitor .notExpression cs = some (.negation .nil) := by
      simp [booleanVisitor, htoken, hnots]
    obtain ⟨w', e', hw', he', rfl⟩ := takes_operator hv hw h
    obtain ⟨e, he, rfl⟩ := ihx _ w' (by simp [IsHost]) (hskip.mp hw')
    cases he'
    exact ⟨_, .negated hcs hnots he, rfl⟩

/-- The visitor of the predicates takes the children. -/
def PredicatesSpec (t : Tree) : Prop :=
  ∃ cs, t = .node .stringListNullPredicateExpression cs ∧
    ∀ w', listener.TakesAll cs (.stringListNullPredicateExpression .nil) w' →
      ∃ e, w' = .stringListNullPredicateExpression e ∧
        Reads .stringListNullPredicateExpression t (.expression e)

theorem booleanSpec_predicates (ht : PredicatesSpec t) :
    BooleanSpec .stringListNullPredicateExpression t := by
  obtain ⟨cs, rfl, hcs⟩ := ht
  intro v v' hv h
  obtain ⟨w', e, hw', he, rfl⟩ := takes_operator hv rfl h
  obtain ⟨e', rfl, he'⟩ := hcs w' hw'
  cases he
  exact ⟨_, he', rfl⟩

def PartialSpec (t : Tree) : Prop := ∀ left partials v',
    listener.Takes t (.comparison (some (left, partials))) v' →
    ∃ p, Reads .partialComparisonExpression t (.partial_ p) ∧
      v' = .comparison (some (left, partials ++ [p]))

theorem spec_comparisonExpression {rest : List Tree} (hcs : dense cs = x :: rest)
    (hx : Derives .stringListNullPredicateExpression x)
    (hrest : ∀ p ∈ rest, Derives .partialComparisonExpression p)
    (ihx : PredicatesSpec x) (ihrest : ∀ p ∈ rest, PartialSpec p) :
    BooleanSpec .comparisonExpression (.node .comparisonExpression cs) := by
  intro v v' hv h
  have hany : cs.any (isRule .partialComparisonExpression) = !rest.isEmpty := by
    rw [← any_dense fun _ => rfl, hcs]
    cases rest with
    | nil => simp [isRule_of_derives hx]
    | cons p rest => simp [isRule_of_derives (hrest p (by simp))]
  by_cases hempty : rest = []
  · subst hempty
    refine takes_operand hv ?_ ?_ h
    · simp [booleanVisitor, hany]
    · intro v₂ hv₂
      rw [← takesAll_dense, hcs, takesAll_singleton] at hv₂
      obtain ⟨e, he, rfl⟩ := booleanSpec_predicates ihx v v₂ (isHost_predicates hv) hv₂
      exact ⟨e, .uncompared hcs he, rfl⟩
  · have hw : booleanVisitor .comparisonExpression cs = some (.comparison none) := by
      simp [booleanVisitor, hany, hempty]
    obtain ⟨w', e', hw', he', rfl⟩ := takes_operator hv hw h
    rw [← takesAll_dense, hcs, takesAll_cons] at hw'
    obtain ⟨w₁, hw₁, hw'⟩ := hw'
    obtain ⟨ds, rfl, ihx⟩ := ihx
    obtain ⟨w₂, hw₂, hf⟩ := (takes_entered rfl rfl rfl).mp hw₁
    obtain ⟨e, rfl, he⟩ := ihx w₂ hw₂
    cases hf
    rw [← map_id rest] at hw'
    obtain ⟨results, rfl, hresults, rfl⟩ := listener.takesAll_map
      (fun ps => .comparison (some (e, ps)))
      (fun t p => Reads .partialComparisonExpression t (.partial_ p)) id
      (fun p hp ps v' hv' => ihrest p hp e ps v' hv') [] hw'
    cases he'
    exact ⟨_, .compared hcs (by simpa using hempty) he hresults, rfl⟩

theorem parseOperator_comparison : ∀ text ∈ ["=", "<>", "<", ">", "<=", ">="],
    (parseOperator text).isSome := by decide +kernel

theorem spec_partialComparison {after : List Tree} {text : String}
    (htext : text ∈ ["=", "<>", "<", ">", "<=", ">="])
    (hcs : cs = symbol text :: after) (hafter : dense after = [x])
    (ihx : PredicatesSpec x) : PartialSpec (.node .partialComparisonExpression cs) := by
  intro left partials v' h
  obtain ⟨operator, hoperator⟩ := isSome_iff_exists.mp (parseOperator_comparison text htext)
  have hnew : newPartialComparison cs = (.partialComparison operator .nil, []) := by
    simp [newPartialComparison, hcs, symbol, token, hoperator]
  have henters : enters (.comparison (some (left, partials)))
      .partialComparisonExpression cs = some (.partialComparison operator .nil) := by
    show some (newPartialComparison cs).1 = _
    rw [hnew]
  have hupdates : updates (.comparison (some (left, partials)))
      .partialComparisonExpression cs = (.comparison (some (left, partials)), []) := by
    show (_, (newPartialComparison cs).2) = _
    rw [hnew]
  obtain ⟨w', hw', hf⟩ := (takes_entered henters hupdates rfl).mp h
  rw [hcs, takesAll_cons] at hw'
  obtain ⟨w₁, hw₁, hw'⟩ := hw'
  rw [takes_symbol] at hw₁
  subst hw₁
  rw [← takesAll_dense, hafter, takesAll_singleton] at hw'
  obtain ⟨ds, rfl, ihx⟩ := ihx
  obtain ⟨w₂, hw₂, hf'⟩ := (takes_entered rfl rfl rfl).mp hw'
  obtain ⟨e, rfl, he⟩ := ihx w₂ hw₂
  cases hf'
  cases hf
  exact ⟨_, .partialComparison hoperator hcs hafter he, rfl⟩

/-! ## Predicates -/

theorem hasToken_eq {type : TokenType} {ds : List Tree} (hcs : dense cs = ds)
    (htype : type ≠ .space) : hasToken type cs = ds.any (isToken type) := by
  rw [← hasToken_dense htype, hcs, hasToken]

/-- The visitor of arithmetic takes the children. -/
def ArithmeticSpec (r : Rule) (t : Tree) : Prop := ∃ cs, t = .node r cs ∧ ∀ w',
    listener.TakesAll cs (.arithmeticExpression (tokenLiterals cs) .nil) w' →
    ∃ tokens e, w' = .arithmeticExpression tokens e ∧ Reads r t (.expression e)

theorem takes_addOrSubtract (ht : ArithmeticSpec .addOrSubtractExpression t)
    (h : listener.Takes t (.stringListNullPredicateExpression .nil) v') :
    ∃ e, Reads .addOrSubtractExpression t (.expression e) ∧
      v' = .stringListNullPredicateExpression e := by
  obtain ⟨cs, rfl, ht⟩ := ht
  obtain ⟨w', hw', hf⟩ := (takes_entered rfl rfl rfl).mp h
  obtain ⟨tokens, e, rfl, he⟩ := ht w' hw'
  cases hf
  exact ⟨e, he, rfl⟩

theorem takes_addOrSubtract_right {left right : Expression}
    {operator : Operator} (ht : ArithmeticSpec .addOrSubtractExpression t)
    (h : listener.Takes t (.stringListNullPredicateExpression
      (.comparison left [⟨operator, right⟩])) v') :
    ∃ e, Reads .addOrSubtractExpression t (.expression e) ∧
      v' = .stringListNullPredicateExpression (.comparison left [⟨operator, e⟩]) := by
  obtain ⟨cs, rfl, ht⟩ := ht
  obtain ⟨w', hw', hf⟩ := (takes_entered rfl rfl rfl).mp h
  obtain ⟨tokens, e, rfl, he⟩ := ht w' hw'
  cases hf
  exact ⟨e, he, rfl⟩

def PredicateSpec (r : Rule) (t : Tree) : Prop :=
  ∀ s v', listener.Takes t (.stringListNullPredicateExpression s) v' →
    ∃ p, Reads r t (.partial_ p) ∧ v' = .stringListNullPredicateExpression (.comparison s [p])

/-- A predicate with an operand. -/
theorem spec_predicate {operator : Operator}
    (hr : r ∈ [Rule.stringPredicateExpression, .listPredicateExpression])
    (hpredicate : predicateOf r cs = some ⟨operator, .nil⟩)
    (hcs : ∀ {v v'}, listener.TakesAll (dense cs) v v' →
      listener.Takes x v v') (ihx : ArithmeticSpec .addOrSubtractExpression x)
    (hreads : ∀ {e}, Reads .addOrSubtractExpression x (.expression e) →
      Reads r (.node r cs) (.partial_ ⟨operator, e⟩)) : PredicateSpec r (.node r cs) := by
  intro s v' h
  have hupdates : updates (.stringListNullPredicateExpression s) r cs =
      (.stringListNullPredicateExpression (.comparison s [⟨operator, .nil⟩]), []) := by
    simp [updates, hpredicate]
  have henters : enters (.stringListNullPredicateExpression s) r cs = none := by
    fin_cases hr <;> rfl
  obtain ⟨v₂, hv₂, hexit⟩ := (takes_passed henters hupdates).mp h
  rw [← takesAll_dense] at hv₂
  obtain ⟨e, he, rfl⟩ := takes_addOrSubtract_right ihx (hcs hv₂)
  refine ⟨_, hreads he, ?_⟩
  fin_cases hr <;> cases hexit <;> rfl

theorem spec_regularPredicate {r : Tree} (hcs : dense cs = [r, x])
    (hr : Derives .regularExpression r) (hx : Derives .addOrSubtractExpression x)
    (ihx : ArithmeticSpec .addOrSubtractExpression x) :
    PredicateSpec .stringPredicateExpression (.node .stringPredicateExpression cs) := by
  intro s v' h
  have htoken : ∀ type, type ≠ .space → hasToken type cs = false := by
    intro type htype
    rw [← hasToken_dense htype, hcs]
    simp [hasToken, isToken_of_derives hr, isToken_of_derives hx]
  have hupdates : updates (.stringListNullPredicateExpression s)
      .stringPredicateExpression cs = (.stringListNullPredicateExpression s, []) := by
    simp [updates, predicateOf, htoken, Visitor.base, unsupported]
  obtain ⟨v₂, hv₂, hexit⟩ := (takes_passed rfl hupdates).mp h
  rw [← takesAll_dense, hcs, takesAll_cons] at hv₂
  obtain ⟨v₁, hv₁, hv₂⟩ := hv₂
  rw [takesAll_singleton] at hv₂
  have hr' : v₁ = .stringListNullPredicateExpression (.comparison s [⟨.regexMatch, .nil⟩]) := by
    cases hr with
    | unsupported hr => simp [unsupported] at hr
    | joining hr | arithmetic hr | naming hr => cases hr
    | mark hr => simp at hr
    | regularExpression hds =>
      obtain ⟨v₂, hv₂, hexit⟩ := (takes_passed rfl rfl).mp hv₁
      rw [← takesAll_dense, hds] at hv₂
      simp only [takesAll_cons, takes_symbol, takesAll_nil, exists_eq_right] at hv₂
      subst hv₂
      cases hexit
      rfl
  subst hr'
  obtain ⟨e, he, rfl⟩ := takes_addOrSubtract_right ihx hv₂
  cases hexit
  exact ⟨_, .regularPredicate hcs hr he, rfl⟩

theorem spec_nullPredicate {tokens : List Tree} {p : PartialExpression Expression}
    (hpredicate : predicateOf .nullPredicateExpression cs = some p) (hcs : dense cs = tokens)
    (htokens : ∀ {v v'}, listener.TakesAll tokens v v' → v = v')
    (hreads : Reads .nullPredicateExpression (.node .nullPredicateExpression cs) (.partial_ p)) :
    PredicateSpec .nullPredicateExpression (.node .nullPredicateExpression cs) := by
  intro s v' h
  have hupdates : updates (.stringListNullPredicateExpression s) .nullPredicateExpression cs =
        (.stringListNullPredicateExpression (.comparison s [p]), []) := by
    simp [updates, hpredicate]
  obtain ⟨v₂, hv₂, hexit⟩ := (takes_passed rfl hupdates).mp h
  rw [← takesAll_dense, hcs] at hv₂
  obtain rfl := htokens hv₂
  cases hexit
  exact ⟨p, hreads, rfl⟩

theorem spec_predicates {rest : List (Rule × Tree)} (hcs : dense cs = x :: rest.map Prod.snd)
    (hrules : ∀ p ∈ rest, p.1 ∈ [Rule.stringPredicateExpression,
      .listPredicateExpression, .nullPredicateExpression])
    (ihx : ArithmeticSpec .addOrSubtractExpression x) (ihrest : ∀ p ∈ rest, PredicateSpec p.1 p.2) :
    PredicatesSpec (.node .stringListNullPredicateExpression cs) := by
  refine ⟨cs, rfl, ?_⟩
  intro w' hw'
  rw [← takesAll_dense, hcs, takesAll_cons] at hw'
  obtain ⟨w₁, hw₁, hw'⟩ := hw'
  obtain ⟨e, he, rfl⟩ := takes_addOrSubtract ihx hw₁
  obtain ⟨results, rfl, hresults, rfl⟩ := listener.takesAll_map
    (fun ps => .stringListNullPredicateExpression (ps.foldl (fun e p => .comparison e [p]) e))
    (fun (q : Rule × Tree) p => Reads q.1 q.2 (.partial_ p)) Prod.snd (by
      intro p hp ps v' hv'
      obtain ⟨q, hq, rfl⟩ := ihrest p hp _ _ hv'
      exact ⟨q, hq, by simp⟩) [] hw'
  refine ⟨_, rfl, ?_⟩
  rw [nil_append, foldl_map]
  refine .predicates ?_ he ?_ hresults
  · rw [hcs, List.map_map]
    rfl
  · exact fun p hp => hrules p.1 (mem_map_of_mem hp)

/-! ## Arithmetic -/

def OperandSpec (r : Rule) (t : Tree) : Prop :=
  ∀ tokens s v', listener.Takes t (.arithmeticExpression tokens s) v' →
    ∃ e, Reads r t (.expression e) ∧ assignExpression tokens s e = some v'

theorem trimSpace_operator : ∀ s ∈ ["+", "-", "*", "/", "%", "^"],
    trimSpace s = s := by decide +kernel

theorem mem_operators (hr : ArithmeticRule r operators below) {s : String}
    (hs : s ∈ operators) : s ∈ ["+", "-", "*", "/", "%", "^"] := by
  cases hr <;> simp at hs ⊢ <;> grind

theorem tokenLiterals_append (cs ds : List Tree) :
    tokenLiterals (cs ++ ds) = tokenLiterals cs ++ tokenLiterals ds := filterMap_append

theorem tokenLiterals_cons (t : Tree) (ts : List Tree) :
    tokenLiterals (t :: ts) = tokenLiterals [t] ++ tokenLiterals ts := tokenLiterals_append [t] ts

theorem tokenLiterals_operator {s : String}
    (hs : s ∈ ["+", "-", "*", "/", "%", "^"]) : tokenLiterals [symbol s] = [s] := by
  have hne : s ≠ "" := by
    intro h
    subst h
    simp at hs
  simp [tokenLiterals, symbol, token, trimSpace_operator s hs, hne]

theorem tokenLiterals_derives (ht : Derives r t) : tokenLiterals [t] = [] := by
  obtain ⟨cs, rfl⟩ := derives_node ht
  rfl

/-- There is a token for every operator. -/
theorem le_length_tokenLiterals (hrest : ∀ p ∈ rest, p.operator ∈ ["+", "-", "*", "/", "%", "^"]) :
    rest.length ≤ (tokenLiterals (rest.flatMap children)).length := by
  induction rest with
  | nil => simp
  | cons p rest ih =>
    have ih := ih fun q hq => hrest q (by simp [hq])
    have hp := tokenLiterals_operator (hrest p (by simp))
    rw [flatMap_cons, tokenLiterals_append, children,
      append_assoc, tokenLiterals_append, cons_append, tokenLiterals_cons (symbol _), hp]
    simp only [length_append, length_cons]
    omega

theorem takesAll_space {s : Option String} : listener.TakesAll (space? s) v v' ↔ v = v' := by
  cases s <;> simp [space?]

theorem takesAll_children {p : ArithmeticPart} :
    listener.TakesAll p.children v v' ↔ listener.Takes p.operand v v' := by
  simp [children, listener.takesAll_append, takesAll_space]

theorem zipWith_concat {α β γ : Type} (f : α → β → γ) {as : List α}
    {bs : List β} {a : α} (ha : as[bs.length]? = some a) (b : β) :
    zipWith f as (bs ++ [b]) = zipWith f as bs ++ [f a b] := by
  induction bs generalizing as with
  | nil => cases as <;> simp_all
  | cons b' bs ih =>
    cases as with
    | nil => simp at ha
    | cons a' as => simpa using ih (by simpa using ha)

/-- An operand takes the next token for its operator. -/
theorem assignExpression_next {e e' : Expression} {es : List Expression}
    (hes : es.length < (tokenLiterals cs).length)
    (h : assignExpression ((tokenLiterals cs).drop es.length)
      (.arithmetic e (zipWith PartialExpression.mk (operatorsRead cs) es)) e' = some v') :
    v' = .arithmeticExpression ((tokenLiterals cs).drop (es ++ [e']).length)
      (.arithmetic e (zipWith PartialExpression.mk (operatorsRead cs) (es ++ [e']))) := by
  have hdrop := drop_eq_getElem_cons hes
  rw [hdrop] at h
  cases h
  have hoperator : (operatorsRead cs)[es.length]? =
      some (nextOperator ((tokenLiterals cs).get ⟨es.length, hes⟩ ::
        (tokenLiterals cs).drop (es.length + 1))) := by
    rw [operatorsRead, getElem?_map, getElem?_eq_getElem hes]
    rfl
  rw [zipWith_concat PartialExpression.mk hoperator, length_append]
  rfl

theorem spec_arithmetic (hr : ArithmeticRule r operators below)
    (hcs : cs = x :: rest.flatMap children) (hoperators : ∀ p ∈ rest, p.operator ∈ operators)
    (hspaces : ∀ p ∈ rest, p.Spaced) (hx : Derives below x) (ihx : OperandSpec below x)
    (ihrest : ∀ p ∈ rest, OperandSpec below p.operand) : ArithmeticSpec r (.node r cs) := by
  refine ⟨cs, rfl, ?_⟩
  intro w' hw'
  have hlength : rest.length ≤ (tokenLiterals cs).length := by
    rw [hcs, tokenLiterals_cons, tokenLiterals_derives hx]
    exact le_length_tokenLiterals fun p hp =>
      mem_operators hr (hoperators p hp)
  have htail := hw'
  rw [hcs, takesAll_cons, ← hcs] at htail
  obtain ⟨w₁, hw₁, hw₂⟩ := htail
  obtain ⟨e, he, hassign⟩ := ihx _ _ w₁ hw₁
  by_cases hrest : rest = []
  · subst hrest
    have htokens : tokenLiterals cs = [] := by
      rw [hcs]
      exact tokenLiterals_derives hx
    rw [htokens] at hassign
    cases hassign
    rw [flatMap_nil, takesAll_nil] at hw₂
    subst hw₂
    exact ⟨_, e, rfl, .operand hr (by simpa using hcs) he⟩
  · have hpos : 0 < rest.length := length_pos_iff.mpr hrest
    have htokens : tokenLiterals cs ≠ [] := length_pos_iff.mp (by omega)
    rw [assignExpression, if_neg htokens] at hassign
    cases hassign
    -- after `n` operands the first `n` tokens are used up
    obtain ⟨results, rfl, hresults, rfl⟩ := listener.takesAll_flatMap_of_le
      (fun es => .arithmeticExpression ((tokenLiterals cs).drop es.length)
        (.arithmetic e (zipWith PartialExpression.mk (operatorsRead cs) es)))
      (fun (p : ArithmeticPart) e => Reads below p.operand (.expression e)) _
      (tokenLiterals cs).length (by
        intro p hp es v' hes hv'
        obtain ⟨e', he', hassign⟩ := ihrest p hp _ _ v' (takesAll_children.mp hv')
        exact ⟨e', he', assignExpression_next hes hassign⟩)
      [] (by simpa using hlength) (by simpa using hw₂)
    refine ⟨_, _, rfl, ?_⟩
    refine .arithmetic hr ?_ ?_ ?_ ?_ he hresults
    · rw [hcs, flatMap_map]
    · simpa using hrest
    · exact fun p hp => hoperators p.1 (mem_map_of_mem hp)
    · exact fun p hp => hspaces p.1 (mem_map_of_mem hp)

/-- Below the first rule of arithmetic a visitor is entered only where there
is an operator. -/
theorem operandSpec_arithmetic (hr : ArithmeticRule r operators below)
    (hne : r ≠ .addOrSubtractExpression) (hcs : cs = x :: rest.flatMap children)
    (hoperators : ∀ p ∈ rest, p.operator ∈ operators) (hx : Derives below x)
    (ihx : OperandSpec below x) (hspec : ArithmeticSpec r (.node r cs)) :
    OperandSpec r (.node r cs) := by
  intro tokens s v' h
  have henters : ∀ s, enters (.arithmeticExpression tokens s) r cs = subArithmeticVisitor cs := by
    intro s
    cases hr <;> first | rfl | exact absurd rfl hne
  have hupdates : updates (.arithmeticExpression tokens s) r cs =
      (.arithmeticExpression tokens s, []) := by
    cases hr <;> rfl
  have hexit : ∀ tokens s, exit (.arithmeticExpression tokens s) r cs =
      leaveSubArithmetic tokens s cs id := by
    intro tokens s
    cases hr <;> first | rfl | exact absurd rfl hne
  by_cases htokens : tokenLiterals cs = []
  · have hrest : rest = [] := by
      have hle := le_length_tokenLiterals fun p hp =>
        mem_operators hr (hoperators p hp)
      rw [hcs, tokenLiterals_cons, tokenLiterals_derives hx, nil_append] at htokens
      rw [htokens] at hle
      exact length_eq_zero_iff.mp (Nat.le_zero.mp hle)
    subst hrest
    rw [flatMap_nil] at hcs
    rw [takes_passed ((henters s).trans (if_pos htokens)) hupdates, hcs] at h
    obtain ⟨v₂, hv₂, hexit₂⟩ := h
    rw [takesAll_singleton] at hv₂
    obtain ⟨e, he, hassign⟩ := ihx _ _ v₂ hv₂
    obtain ⟨tokens', s', rfl⟩ := eq_arithmetic_of_assignExpression hassign
    rw [← hcs, hexit, leaveSubArithmetic, if_pos htokens] at hexit₂
    cases hexit₂
    exact ⟨e, .operand hr hcs he, hassign⟩
  · obtain ⟨ds, hds, hinner⟩ := hspec
    cases hds
    rw [takes_entered ((henters s).trans (if_neg htokens)) hupdates
      ((hexit tokens s).trans (if_neg htokens))] at h
    obtain ⟨w', hw', hf⟩ := h
    obtain ⟨tokens', e, rfl, he⟩ := hinner w' hw'
    simp only [map_eq_some_iff, Prod.mk.injEq, and_true, exists_eq_right] at hf
    exact ⟨e, he, hf⟩

theorem spec_unsigned (hcs : cs = [x]) (hx : Derives .nonArithmeticOperatorExpression x)
    (ihx : OperandSpec .nonArithmeticOperatorExpression x) :
    OperandSpec .unaryAddOrSubtractExpression (.node .unaryAddOrSubtractExpression cs) := by
  intro tokens s v' h
  have htokens : tokenLiterals cs = [] := by
    rw [hcs]
    exact tokenLiterals_derives hx
  have henters : enters (.arithmeticExpression tokens s)
      .unaryAddOrSubtractExpression cs = none := if_pos htokens
  obtain ⟨v₂, hv₂, hexit⟩ := (takes_passed henters rfl).mp h
  rw [hcs, takesAll_singleton] at hv₂
  obtain ⟨e, he, hassign⟩ := ihx _ _ v₂ hv₂
  obtain ⟨tokens', s', rfl⟩ := eq_arithmetic_of_assignExpression hassign
  simp only [exit, leaveSubArithmetic, if_pos htokens] at hexit
  cases hexit
  exact ⟨e, .unsigned hcs he, hassign⟩

theorem spec_signed {after : List Tree} {sign : String}
    (hsign : sign ∈ ["+", "-"]) (hcs : cs = symbol sign :: after)
    (hafter : dense after = [x]) (ihx : OperandSpec .nonArithmeticOperatorExpression x) :
    OperandSpec .unaryAddOrSubtractExpression (.node .unaryAddOrSubtractExpression cs) := by
  intro tokens s v' h
  have hmem : sign ∈ ["+", "-", "*", "/", "%", "^"] := by
    grind
  obtain ⟨operator, hoperator⟩ : ∃ operator, parseOperator sign = some operator := by
    fin_cases hsign
    · exact ⟨.add, by decide +kernel⟩
    · exact ⟨.subtract, by decide +kernel⟩
  have htokens : tokenLiterals cs = sign :: tokenLiterals after := by
    rw [hcs, tokenLiterals_cons, tokenLiterals_operator hmem]
    rfl
  have hne : tokenLiterals cs ≠ [] := by simp [htokens]
  have henters : enters (.arithmeticExpression tokens s) .unaryAddOrSubtractExpression cs =
        some (.arithmeticExpression (tokenLiterals cs) .nil) := if_neg hne
  have hnext : nextOperator (tokenLiterals cs) = operator := by
    simp [htokens, nextOperator, hoperator]
  have hexit : exit (.arithmeticExpression tokens s)
      .unaryAddOrSubtractExpression cs = .pop _ := if_neg hne
  obtain ⟨w', hw', hf⟩ := (takes_entered henters rfl hexit).mp h
  rw [hcs, takesAll_cons, ← hcs] at hw'
  obtain ⟨w₁, hw₁, hw'⟩ := hw'
  rw [takes_symbol] at hw₁
  subst hw₁
  rw [← takesAll_dense, hafter, takesAll_singleton] at hw'
  obtain ⟨e, he, hassign⟩ := ihx _ _ w' hw'
  rw [assignExpression, if_neg hne] at hassign
  cases hassign
  simp only [hnext, map_eq_some_iff, Prod.mk.injEq, and_true, exists_eq_right] at hf
  exact ⟨_, .signed hoperator hcs hafter he, hf⟩

end Dawgs.Ref.Frontend

import Dawgs.Lib.NameSupply
import Dawgs.Lib.Noted
import Dawgs.Ref.Cypher

/-!
# Rewriting a query for Neo4j

Neo4j takes no map for the properties of a pattern in `MATCH` from a
parameter. The driver parses the query, replaces `$p` there by a map with the
keys of the value of `p`, whose entries are parameters with new names, and
adds those to the parameters. A pattern with an empty map loses its
properties. The parameters are copied when the first new name is needed.

A second rewriting wraps a property that is compared with the result of a
temporal function in a call of this function.

The tree of the query is what the frontend makes of its text; it is printed
again if something was rewritten. Here the printed text is that tree.
-/

namespace Dawgs.Ref.QueryRewrite

open Lib Cypher

/-- The value of a parameter: a map with string keys of any of the types that
`parameterPropertyMap` takes, or something else. -/
inductive Value (α : Type) where
  | map (entries : List (String × Value α))
  | other (a : α)

/-- A Go map: the first entry of a key is the one that counts. -/
abbrev Parameters (α : Type) := List (String × Value α)

variable {α : Type}

def keys (m : Parameters α) : List String := m.map Prod.fst

/-- The entries in the order of their keys. -/
def sortedEntries (m : Parameters α) : List (String × Value α) :=
  ((keys m).dedup.insertionSort (· ≤ ·)).filterMap fun key =>
    (m.lookup key).map fun value => (key, value)

def parameterPropertyMap : Value α → Option (Parameters α)
  | .map entries => some entries
  | .other _ => none

inductive Error where
  /-- The pattern property parameter was not provided. -/
  | notProvided (parameterName : String)
  /-- Expected a map with string keys. -/
  | expectedMap (parameterName : String)
  | nilDereference
  /-- The search for a name has no end. -/
  | exhausted
deriving DecidableEq

/-! ## Parameters of patterns -/

/-- `patternPropertyParameterRewriter`. -/
structure Rewriter (α : Type) where
  parameters : Parameters α
  rewrittenParameters : Option (Parameters α)
  nextParameterID : Nat
  rewritten : Bool

abbrev Rewrite (α : Type) := StateT (Rewriter α) (Except Error)

def patternPropertyName (i : Nat) : String := "__dawgs_pattern_property_" ++ i.repr

def ensureRewrittenParameters : Rewrite α (Parameters α) := do
  let s ← get
  match s.rewrittenParameters with
  | some m => pure m
  | none =>
    set { s with rewrittenParameters := some s.parameters }
    pure s.parameters

def nextParameterName : Rewrite α String := do
  let m ← ensureRewrittenParameters
  let s ← get
  match nextFree patternPropertyName (keys m) s.nextParameterID with
  | none => throw .exhausted
  | some i =>
    set { s with nextParameterID := i + 1 }
    pure (patternPropertyName i)

/-- One entry of a map, as a parameter of its own. -/
def expandEntry (entry : String × Value α) : Rewrite α (MapItem Expression) := do
  let rewrittenParameter ← nextParameterName
  let m ← ensureRewrittenParameters
  modify fun s =>
    { s with rewrittenParameters := some ((rewrittenParameter, entry.2) :: m) }
  pure ⟨entry.1, .parameter ⟨rewrittenParameter⟩⟩

def rewriteProperties (properties : Expression) : Rewrite α Expression := do
  match properties with
  | .properties ⟨_, some parameter⟩ =>
    let s ← get
    match s.parameters.lookup parameter.symbol with
    | none => throw (.notProvided parameter.symbol)
    | some parameterValue =>
      match parameterPropertyMap parameterValue with
      | none => throw (.expectedMap parameter.symbol)
      | some propertyMap =>
        if propertyMap.isEmpty then
          modify fun s => { s with rewritten := true }
          pure .nil
        else
          let items ← (sortedEntries propertyMap).mapM expandEntry
          modify fun s => { s with rewritten := true }
          pure (.properties ⟨items, none⟩)
  | _ => pure properties

/-- A pointer that is followed. -/
def followed {X : Type} (f : X → Rewrite α X) : Option X → Rewrite α (Option X)
  | none => throw .nilDereference
  | some x => do
    let x ← f x
    pure (some x)

/-- A pointer that is followed if it is not nil. -/
def ifPresent {X : Type} (f : X → Rewrite α X) : Option X → Rewrite α (Option X)
  | none => pure none
  | some x => do
    let x ← f x
    pure (some x)

def rewritePatternElement : PatternElement Expression → Rewrite α (PatternElement Expression)
  | ⟨.nodePattern p⟩ => do
    let properties ← rewriteProperties p.properties
    pure ⟨.nodePattern { p with properties }⟩
  | ⟨.relationshipPattern p⟩ => do
    let properties ← rewriteProperties p.properties
    pure ⟨.relationshipPattern { p with properties }⟩
  | e => pure e

def rewritePatternPart (p : PatternPart) : Rewrite α PatternPart := do
  let patternElements ← p.patternElements.mapM (followed rewritePatternElement)
  pure { p with patternElements }

def rewriteMatch (m : Match) : Rewrite α Match := do
  let pattern ← m.pattern.mapM (followed rewritePatternPart)
  pure { m with pattern }

def rewriteReadingClause (c : ReadingClause) : Rewrite α ReadingClause := do
  let match_ ← ifPresent rewriteMatch c.match_
  pure { c with match_ }

def rewriteReadingClauses (cs : List (Option ReadingClause)) :
    Rewrite α (List (Option ReadingClause)) := cs.mapM (followed rewriteReadingClause)

def rewriteSinglePartQuery (q : SinglePartQuery) : Rewrite α SinglePartQuery := do
  let readingClauses ← rewriteReadingClauses q.readingClauses
  pure { q with readingClauses }

def rewriteMultiPartQueryPart (p : MultiPartQueryPart) : Rewrite α MultiPartQueryPart := do
  let readingClauses ← rewriteReadingClauses p.readingClauses
  pure { p with readingClauses }

def rewriteMultiPartQuery (q : MultiPartQuery) : Rewrite α MultiPartQuery := do
  let parts ← q.parts.mapM (followed rewriteMultiPartQueryPart)
  let singlePartQuery ← ifPresent rewriteSinglePartQuery q.singlePartQuery
  pure { parts, singlePartQuery }

def rewriteSingleQuery (q : SingleQuery) : Rewrite α SingleQuery := do
  let singlePartQuery ← ifPresent rewriteSinglePartQuery q.singlePartQuery
  let multiPartQuery ← ifPresent rewriteMultiPartQuery q.multiPartQuery
  pure { singlePartQuery, multiPartQuery }

def rewriteRegularQuery (q : RegularQuery) : Rewrite α RegularQuery := do
  let singleQuery ← ifPresent rewriteSingleQuery q.singleQuery
  pure { singleQuery }

/-! ## Temporal comparisons -/

/-- The temporal functions, as texts. -/
def temporalFunctions : List String := ["date", "time", "localtime", "datetime", "localdatetime"]

def isTemporalFunction (functionName : String) : Bool := temporalFunctions.contains functionName

def isDurationExpression : Expression → Bool
  | .functionInvocation _ _ name _ => name.toLower = "duration"
  | _ => false

def temporalExpressionFunction : Expression → Option String
  | .parenthetical e => temporalExpressionFunction e
  | .functionInvocation _ _ name _ =>
    if isTemporalFunction name.toLower then some name.toLower else none
  | .arithmetic left partials =>
    (temporalExpressionFunction left).filter fun _ =>
      partials.all fun p =>
        (p.operator = .add || p.operator = .subtract) && isDurationExpression p.right
  | _ => none

def temporalPropertyLookup (expression : Expression)
    (temporalFunction : String) : Noted Expression :=
  match expression with
  | .propertyLookup (.var _) _ =>
    ⟨.functionInvocation false [] temporalFunction [expression], true⟩
  | _ => pure expression

def isTemporalComparisonOperator : Operator → Bool
  | .equals | .notEquals | .greaterThan | .greaterThanOrEqualTo
  | .lessThan | .lessThanOrEqualTo => true
  | _ => false

/-- An operand, wrapped if the other one is temporal. -/
def wrapOperand (expression other : Expression) : Noted Expression :=
  match temporalExpressionFunction other with
  | some temporalFunction => temporalPropertyLookup expression temporalFunction
  | none => pure expression

mutual

def rewriteExpression : Expression → Noted Expression
  | .comparison left partials => do
    let left ← rewriteExpression left
    let (left, partials) ← rewritePartials left partials
    pure (.comparison left partials)
  | .parenthetical e => .parenthetical <$> rewriteExpression e
  | .negation e => .negation <$> rewriteExpression e
  | .disjunction es => .disjunction <$> rewriteExpressionList es
  | .exclusiveDisjunction es =>
    .exclusiveDisjunction <$> rewriteExpressionList es
  | .conjunction es => .conjunction <$> rewriteExpressionList es
  | .arithmetic left partials => do
    let left ← rewriteExpression left
    let partials ← rewriteArithmeticPartials partials
    pure (.arithmetic left partials)
  | .unaryAddOrSubtract operator right =>
    .unaryAddOrSubtract operator <$> rewriteExpression right
  | .functionInvocation distinct namespaces name arguments =>
    .functionInvocation distinct namespaces name <$> rewriteExpressionList arguments
  | .projectionItem e as =>
    (fun e => .projectionItem e as) <$> rewriteExpression e
  | .quantifier type filter => .quantifier type <$> rewriteFilter filter
  | .mapLiteral items => .mapLiteral <$> rewriteItems items
  | .listLiteral es => .listLiteral <$> rewriteExpressionList es
  | e => pure e

def rewriteExpressionList : List Expression → Noted (List Expression)
  | [] => pure []
  | e :: es => do
    let e ← rewriteExpression e
    let es ← rewriteExpressionList es
    pure (e :: es)

/-- The loop of `rewriteComparison`, with the operand left of the next
partial comparison. -/
def rewritePartials (left : Expression) :
    List (PartialExpression Expression) → Noted (Expression × List (PartialExpression Expression))
  | [] => pure (left, [])
  | p :: ps => do
    let right ← rewriteExpression p.right
    if isTemporalComparisonOperator p.operator then
      let left ← wrapOperand left right
      let right ← wrapOperand right left
      let (right, ps) ← rewritePartials right ps
      pure (left, ⟨p.operator, right⟩ :: ps)
    else
      let (right, ps) ← rewritePartials right ps
      pure (left, ⟨p.operator, right⟩ :: ps)

def rewriteArithmeticPartials :
    List (PartialExpression Expression) → Noted (List (PartialExpression Expression))
  | [] => pure []
  | p :: ps => do
    let right ← rewriteExpression p.right
    let ps ← rewriteArithmeticPartials ps
    pure (⟨p.operator, right⟩ :: ps)

def rewriteItems : List (MapItem Expression) → Noted (List (MapItem Expression))
  | [] => pure []
  | item :: items => do
    let value ← rewriteExpression item.value
    let items ← rewriteItems items
    pure (⟨item.key, value⟩ :: items)

def rewriteFilter : Option (FilterExpression Expression) →
    Noted (Option (FilterExpression Expression))
  | none => pure none
  | some f => do
    let specifier ← rewriteSpecifier f.specifier
    let where_ ← rewriteFilterWhere f.where_
    pure (some ⟨specifier, where_⟩)

def rewriteSpecifier : Option (IDInCollection Expression) →
    Noted (Option (IDInCollection Expression))
  | none => pure none
  | some c => (fun e => some ⟨c.variable_, e⟩) <$> rewriteExpression c.expression

def rewriteFilterWhere : Option (Where Expression) → Noted (Option (Where Expression))
  | none => pure none
  | some w => (fun es => some ⟨es⟩) <$> rewriteExpressionList w.expressions

end

namespace Temporal

/-- A pointer that is followed if it is not nil. -/
def ifPresent {X : Type} (f : X → Noted X) : Option X → Noted (Option X)
  | none => pure none
  | some x => some <$> f x

def rewriteWhere (w : Where Expression) : Noted (Where Expression) := do
  let expressions ← rewriteExpressionList w.expressions
  pure { expressions }

def rewriteMatch (m : Match) : Noted Match := do
  let where_ ← ifPresent rewriteWhere m.where_
  pure { m with where_ }

def rewriteUnwind (u : Unwind) : Noted Unwind := do
  let expression ← rewriteExpression u.expression
  pure { u with expression }

def rewriteReadingClause (c : ReadingClause) : Noted ReadingClause := do
  let match_ ← ifPresent rewriteMatch c.match_
  let unwind ← ifPresent rewriteUnwind c.unwind
  pure { c with match_, unwind }

def rewriteReadingClauseExpressions (cs : List (Option ReadingClause)) :
    Noted (List (Option ReadingClause)) := cs.mapM (ifPresent rewriteReadingClause)

def rewriteSortItem (item : SortItem) : Noted SortItem := do
  let expression ← rewriteExpression item.expression
  pure { item with expression }

def rewriteOrder (order : Order) : Noted Order := do
  let items ← order.items.mapM (ifPresent rewriteSortItem)
  pure { items }

def rewriteRowBound (bound : RowBound) : Noted RowBound := do
  let value ← rewriteExpression bound.value
  pure { value }

def rewriteProjectionItems (p : Projection) : Noted Projection := do
  let items ← rewriteExpressionList p.items
  let order ← ifPresent rewriteOrder p.order
  let skip ← ifPresent rewriteRowBound p.skip
  let limit ← ifPresent rewriteRowBound p.limit
  pure { p with items, order, skip, limit }

def rewriteWith (w : With) : Noted With := do
  let projection ← ifPresent rewriteProjectionItems w.projection
  let where_ ← ifPresent rewriteWhere w.where_
  pure { projection, where_ }

def rewriteProjection (r : Return) : Noted Return := do
  let projection ← ifPresent rewriteProjectionItems r.projection
  pure { projection }

/-- The updating clauses are passed to `rewriteExpression`, which has no case
for them. -/
def rewriteSinglePartQuery (q : SinglePartQuery) : Noted SinglePartQuery := do
  let readingClauses ← rewriteReadingClauseExpressions q.readingClauses
  let return_ ← ifPresent rewriteProjection q.return_
  pure { q with readingClauses, return_ }

def rewriteMultiPartQueryPart (p : MultiPartQueryPart) : Noted MultiPartQueryPart := do
  let readingClauses ← rewriteReadingClauseExpressions p.readingClauses
  let with_ ← ifPresent rewriteWith p.with_
  pure { p with readingClauses, with_ }

def rewriteMultiPartQuery (q : MultiPartQuery) : Noted MultiPartQuery := do
  let parts ← q.parts.mapM (ifPresent rewriteMultiPartQueryPart)
  let singlePartQuery ← ifPresent rewriteSinglePartQuery q.singlePartQuery
  pure { parts, singlePartQuery }

def rewriteSingleQuery (q : SingleQuery) : Noted SingleQuery := do
  let singlePartQuery ← ifPresent rewriteSinglePartQuery q.singlePartQuery
  let multiPartQuery ← ifPresent rewriteMultiPartQuery q.multiPartQuery
  pure { singlePartQuery, multiPartQuery }

/-- `temporalPropertyComparisonRewriter.rewriteRegularQuery`. -/
def rewriteRegularQuery (q : RegularQuery) : Noted RegularQuery := do
  let singleQuery ← ifPresent rewriteSingleQuery q.singleQuery
  pure { singleQuery }

end Temporal

/-! ## The text -/

def isCypherIdentifierCharacter (c : Char) : Bool :=
  ('a' ≤ c && c ≤ 'z') || ('0' ≤ c && c ≤ '9') || c = '_'

def isCypherWhitespace (c : Char) : Bool := c = ' ' || c = '\t' || c = '\n' || c = '\r'

/-- The rest of a text, behind a character, begins with a call. -/
def callBegins (functionName : List Char) (previous : Option Char) (rest : List Char) : Bool :=
  functionName.isPrefixOf rest && !previous.any isCypherIdentifierCharacter &&
    ((rest.drop functionName.length).dropWhile isCypherWhitespace).head? == some '('

def containsFunctionCall (functionName : List Char) : Option Char → List Char → Bool
  | _, [] => false
  | previous, c :: rest =>
    callBegins functionName previous (c :: rest) ||
      containsFunctionCall functionName (some c) rest

def queryMayContainTemporalFunctionCall (query : String) : Bool :=
  temporalFunctions.any fun functionName =>
    containsFunctionCall functionName.toList none query.toLower.toList

def queryMayNeedRewrite (query : String) : Bool :=
  query.toList.contains '$' || queryMayContainTemporalFunctionCall query

/-! ## The query -/

/-- What is sent: the text as it came, or a tree that is printed. -/
inductive Sent where
  | text (query : String)
  | tree (query : RegularQuery)

structure Result (α : Type) where
  query : Sent
  parameters : Option (Parameters α)
  /-- The caller's map, afterwards. -/
  caller : Parameters α

/-- What is sent for a tree whose patterns are expanded. -/
def afterExpansion (query : String) (parameters : Parameters α)
    (parsed : RegularQuery) (rewriter : Rewriter α) : Result α :=
  let temporal := Temporal.rewriteRegularQuery parsed
  if rewriter.rewritten || temporal.changed then
    { query := .tree temporal.value
      parameters :=
        if rewriter.rewritten then rewriter.rewrittenParameters
        else some parameters
      caller := rewriter.parameters }
  else ⟨.text query, some parameters, rewriter.parameters⟩

def rewriteQuery (frontend : String → Option RegularQuery) (query : String)
    (parameters : Parameters α) : Except Error (Result α) :=
  if !queryMayNeedRewrite query then
    .ok ⟨.text query, some parameters, parameters⟩
  else match frontend query with
  | none => .ok ⟨.text query, some parameters, parameters⟩
  | some parsed =>
    let rewriter : Rewriter α := ⟨parameters, none, 0, false⟩
    if query.toList.contains '$' then
      (rewriteRegularQuery parsed rewriter).map fun (parsed, rewriter) =>
        afterExpansion query parameters parsed rewriter
    else .ok (afterExpansion query parameters parsed rewriter)

end Dawgs.Ref.QueryRewrite

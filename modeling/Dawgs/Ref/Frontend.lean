import Dawgs.Ref.Cypher
import Dawgs.Ref.CypherGrammar

/-!
# The frontend's visitors for expressions

The frontend builds the syntax tree with visitors on a stack. Each visitor
is a struct that holds what it has read so far and overrides the handlers of
some rules; for the others it inherits the handlers of `BaseVisitor`, which
do nothing, except that the rules the frontend does not support report an
error. Here a visitor is a constructor with the struct's fields, and the
handlers of all visitors are the two functions `enter` and `exit`. A type
assertion or a nil pointer that would stop the program gives no result.

A Go map is a list of its items in the order of their keys. The errors keep
the text they quote and leave out the position.
-/

namespace Dawgs.Ref.Frontend

open Lib Cypher Grammar

/-- What is reported, with the text it quotes. -/
inductive Error where
  | unsupportedRule (rule : Rule) (symbol : String)
  | invalidOperator (operator : String)
  | missingOperator
  | invalidIntegerLiteral (text : String)
  | invalidBooleanLiteral (text : String)
  | invalidDoubleLiteral (text : String)
  | emptyPropertyKeyName (symbol : String)
  | unexpectedRangeToken (text : String)
  | invalidRangeLiteral (text : String)
  | invalidRangeState
deriving DecidableEq

/-! ## Texts and tokens -/

mutual

/-- `GetText`. -/
def text : Tree → String
  | .token t => t.text
  | .node _ children => texts children

def texts : List Tree → String
  | [] => ""
  | t :: ts => text t ++ texts ts

end

def isToken (type : TokenType) : Tree → Bool
  | .token t => t.type = type
  | .node _ _ => false

variable (r : Rule)

def isRule : Tree → Bool
  | .token _ => false
  | .node r' _ => r' = r

/-- `HasTokens` for one type, and `GetToken(type, 0) != nil`. -/
def hasToken (type : TokenType) (children : List Tree) : Bool := children.any (isToken type)

/-- `unicode.IsSpace`. -/
def isSpaceChar (c : Char) : Bool :=
  c ∈ ['\t', '\n', '\x0b', '\x0c', '\r', ' ', '\u0085', '\u00a0', '\u1680',
    '\u2000', '\u2001', '\u2002', '\u2003', '\u2004', '\u2005', '\u2006',
    '\u2007', '\u2008', '\u2009', '\u200a', '\u2028', '\u2029', '\u202f', '\u205f', '\u3000']

/-- `strings.TrimSpace`. -/
def trimSpace (s : String) : String :=
  .ofList ((s.toList.dropWhile isSpaceChar).reverse.dropWhile isSpaceChar).reverse

variable (children : List Tree)

/-- `newTokenLiteralIterator`: the trimmed texts of the terminals that are
not blank. -/
def tokenLiterals : List String := children.filterMap fun
    | .token t => if trimSpace t.text = "" then none else some (trimSpace t.text)
    | .node _ _ => none

/-! ## Scalars -/

def operators : List (String × Operator) :=
  [("+", .add), ("-", .subtract), ("*", .multiply), ("/", .divide),
    ("%", .modulo), ("^", .powerOf), ("=", .equals), ("=~", .regexMatch),
    ("<>", .notEquals), (">", .greaterThan), (">=", .greaterThanOrEqualTo),
    ("<", .lessThan), ("<=", .lessThanOrEqualTo), ("starts with", .startsWith),
    ("ends with", .endsWith), ("contains", .contains), ("in", .in_),
    ("is", .is), ("is not", .isNot), ("not", .not)]

/-- `strings.ToLower`. -/
def toLower (s : String) : String := .ofList (s.toList.map Char.toLower)

/-- `ParseOperator`. -/
def parseOperator (operator : String) : Option Operator := operators.lookup (toLower operator)

/-- `NextOperator`, of the tokens that are left. -/
def nextOperator (tokens : List String) : Operator :=
  (parseOperator (tokens.headD "")).getD .invalid

def parseDigits : List Char → Nat → Option Nat
  | [], n => some n
  | c :: cs, n =>
    if c.isDigit then parseDigits cs (10 * n + (c.toNat - '0'.toNat))
    else none

def parseNat (s : List Char) : Option Nat :=
  if s = [] then none else parseDigits s 0

/-- `strconv.ParseInt(text, 10, 64)`. -/
def parseInt (text : String) : Option Int := do
  let value : Int ← match text.toList with
    | '-' :: cs => (parseNat cs).map fun n => -(n : Int)
    | '+' :: cs => (parseNat cs).map Int.ofNat
    | cs => (parseNat cs).map Int.ofNat
  if -2 ^ 63 ≤ value ∧ value < 2 ^ 63 then some value else none

/-- `strconv.ParseBool`. -/
def parseBool (text : String) : Option Bool :=
  if text ∈ ["1", "t", "T", "TRUE", "true", "True"] then some true
  else if text ∈ ["0", "f", "F", "FALSE", "false", "False"] then some false
  else none

/-- A decimal number without a sign, as digits and a power of ten. -/
def parseDecimal (s : List Char) : Option (Nat × Int) := do
  let (mantissa, exponent) := s.span fun c => c ≠ 'e' ∧ c ≠ 'E'
  let (whole, fraction) := mantissa.span (· ≠ '.')
  let digits ← parseNat (whole ++ fraction.tail)
  let power : Int ← match exponent with
    | [] => some 0
    | _ :: '-' :: cs => (parseNat cs).map fun n => -(n : Int)
    | _ :: cs => (parseNat cs).map Int.ofNat
  return (digits, power - fraction.tail.length)

/-- `strconv.ParseFloat(text, 64)` of a number without a sign: it fails for
a number that rounds to infinity. The value stays the text. -/
def parseFloat (text : String) : Option LiteralValue := do
  let (digits, power) ← parseDecimal text.toList
  if digits * 10 ^ power.toNat < (2 ^ 1024 - 2 ^ 970) * 10 ^ (-power).toNat then
    some (.float text)
  else none

/-- `strings.ReplaceAll` of two backticks by one. -/
def replaceBackticks : List Char → List Char
  | '`' :: '`' :: cs => '`' :: replaceBackticks cs
  | c :: cs => c :: replaceBackticks cs
  | [] => []

/-- `UnescapePropertyKeyName`. -/
def unescapePropertyKeyName (name : String) : String :=
  let cs := name.toList
  if 2 ≤ cs.length ∧ cs.head? = some '`' ∧ cs.getLast? = some '`' then
    .ofList (replaceBackticks cs.tail.dropLast)
  else name

/-- A map with the key set to the value. -/
def putItem (key : String) (value : Expression) :
    List (MapItem Expression) → List (MapItem Expression)
  | [] => [⟨key, value⟩]
  | item :: items =>
    if key = item.key then ⟨key, value⟩ :: items
    else if key < item.key then ⟨key, value⟩ :: item :: items
    else item :: putItem key value items

/-! ## Visitors -/

/-- `JoiningVisitor.Joined`, by the list it holds. -/
inductive Joiner where
  | disjunction | exclusiveDisjunction | conjunction
deriving DecidableEq

def Joiner.joined : Joiner → List Expression → Expression
  | .disjunction => .disjunction
  | .exclusiveDisjunction => .exclusiveDisjunction
  | .conjunction => .conjunction

inductive Visitor where
  | expression (expression : Expression)
  | parenthesizedExpression (parenthetical : Expression)
  | negation (expression : Expression)
  | joining (joiner : Joiner) (joined : List Expression)
  | comparison (comparison : Option (Expression × List (PartialExpression Expression)))
  | partialComparison (operator : Operator) (right : Expression)
  | stringListNullPredicateExpression (expression : Expression)
  | arithmeticExpression (operatorTokens : List String) (expression : Expression)
  | nonArithmeticOperatorExpression (expression : Expression) (propertyKeyName : String)
  | atom (atom : Expression)
  | literal (literal : Expression) (map : Option (List (MapItem Expression)))
      (list : Option (List Expression))
  | mapLiteral (nextPropertyKey : String) (map : List (MapItem Expression))
  | listLiteral (list : List Expression)
  | symbolicNameOrReservedWord (name : String)
  | variable_ (symbol : String)
  | namespace_ (names : List String)
  | functionInvocation (distinct : Bool) (namespaces : List String)
      (name : String) (arguments : List Expression)
  | quantifier (type : QuantifierType) (filter : Option (FilterExpression Expression))
  | filterExpression (filter : FilterExpression Expression)
  | idInCollection (idInCollection : IDInCollection Expression)
  | where_ (expressions : List Expression)
  | patternPredicate (elements : List (PatternElement Expression))
  | nodePattern (nodePattern : NodePattern Expression)
  | relationshipPattern (relationshipPattern : RelationshipPattern Expression)
  | properties (properties : Properties Expression)

/-- `BaseVisitor`: nothing is done, and some rules are refused. -/
def Visitor.base (v : Visitor) (r : Rule) (children : List Tree) : Visitor × List Error :=
  (v, if r ∈ unsupported then [.unsupportedRule r (texts children)] else [])

/-! ### Truth values

`ExpressionVisitor`, `JoiningVisitor` and `NegationVisitor` handle the rules
of truth values in one way: where the rule has an operator a visitor for it
is entered, and what that visitor has built is taken when the rule is left.
They differ in where they put it. -/

def booleanVisitor : Option Visitor :=
  match r with
  | .orExpression =>
    if hasToken .or children then some (.joining .disjunction []) else none
  | .xorExpression =>
    if hasToken .xor children then some (.joining .exclusiveDisjunction [])
    else none
  | .andExpression =>
    if hasToken .and children then some (.joining .conjunction []) else none
  | .notExpression =>
    if hasToken .not children then some (.negation .nil) else none
  | .comparisonExpression =>
    if children.any (isRule .partialComparisonExpression) then
      some (.comparison none)
    else none
  | .stringListNullPredicateExpression =>
    some (.stringListNullPredicateExpression .nil)
  | _ => none

def booleanResult (w : Visitor) : Option Expression :=
  match r, w with
  | .orExpression, .joining joiner joined
  | .xorExpression, .joining joiner joined
  | .andExpression, .joining joiner joined => some (joiner.joined joined)
  | .notExpression, .negation e => some (.negation e)
  | .comparisonExpression, .comparison (some (left, partials)) =>
    some (.comparison left partials)
  | .stringListNullPredicateExpression, .stringListNullPredicateExpression e => some e
  | _, _ => none

def leaveBoolean (v : Visitor) (r : Rule) (children : List Tree)
    (assign : Expression → Visitor) : Leave Visitor Error :=
  if (booleanVisitor r children).isSome then
    .pop fun w => (booleanResult r w).map fun e => (assign e, [])
  else .stay (some (v, []))

/-- The partial comparison that is entered, with the operator of its first
child. -/
def newPartialComparison : Visitor × List Error :=
  match children.head? with
  | some (.token t) =>
    match parseOperator t.text with
    | some operator => (.partialComparison operator .nil, [])
    | none => (.partialComparison .invalid .nil, [.invalidOperator t.text])
  | _ => (.partialComparison .invalid .nil, [.missingOperator])

/-! ### Arithmetic -/

/-- `LastPartial().Right = expression`. -/
def setLastRight (partials : List (PartialExpression Expression))
    (e : Expression) : Option (List (PartialExpression Expression)) :=
  partials.getLast?.map fun last =>
    partials.dropLast ++ [{ last with right := e }]

/-- `assignExpression`. -/
def assignExpression (tokens : List String) (s e : Expression) : Option Visitor :=
  if tokens = [] then some (.arithmeticExpression tokens e)
  else
    match s with
    | .nil => some (.arithmeticExpression tokens (.arithmetic e []))
    | .arithmetic left partials =>
      some (.arithmeticExpression tokens.tail
        (.arithmetic left (partials ++ [⟨nextOperator tokens, e⟩])))
    | _ => none

/-- `enterSubArithmeticExpression`. -/
def subArithmeticVisitor : Option Visitor :=
  if tokenLiterals children = [] then none
  else some (.arithmeticExpression (tokenLiterals children) .nil)

/-- `exitSubArithmeticExpression`, with what is made of the operand. -/
def leaveSubArithmetic (tokens : List String) (s : Expression)
    (children : List Tree) (operand : Expression → Expression) : Leave Visitor Error :=
  if tokenLiterals children = [] then
    .stay (some (.arithmeticExpression tokens s, []))
  else
    .pop fun
      | .arithmeticExpression _ e =>
        (assignExpression tokens s (operand e)).map (·, [])
      | _ => none

/-! ### Atoms and patterns -/

/-- `NewQuantifierVisitor`. -/
def quantifierType : QuantifierType :=
  if hasToken .all children then .all
  else if hasToken .any children then .any
  else if hasToken .none children then .none
  else if hasToken .single children then .single
  else .invalid

/-- `extractParameterSymbol`, from the name that was read. -/
def parameterSymbol (name : String) (children : List Tree) : String :=
  if name ≠ "" then name
  else
    match (texts children).toList with
    | '$' :: cs => .ofList cs
    | cs => .ofList cs

/-- `GetLiteral`. -/
def getLiteral (literal : Expression) (map : Option (List (MapItem Expression)))
    (list : Option (List Expression)) : Expression :=
  match list, map with
  | some list, _ => .listLiteral list
  | none, some map => .mapLiteral map
  | none, none => literal

/-- The number of a literal, or the error. -/
def setLiteral (map : Option (List (MapItem Expression))) (list : Option (List Expression))
    (old : Expression) (value : Option LiteralValue) (error : Error) : Visitor × List Error :=
  match value with
  | some value => (.literal (.literal ⟨value, false⟩) map list, [])
  | none => (.literal old map list, [error])

/-- The states of the parser in `EnterOC_RangeLiteral`. -/
inductive RangeState where
  | start | firstIndex | secondIndex

structure RangeReader where
  state : RangeState
  range : PatternRange
  errors : List Error

def RangeReader.index (s : RangeReader) (text : String) : RangeReader :=
  match parseInt text, s.state with
  | none, _ => { s with errors := s.errors ++ [.invalidRangeLiteral text] }
  | some value, .firstIndex =>
    { s with range := { s.range with startIndex := some value } }
  | some value, .secondIndex =>
    { s with range := { s.range with endIndex := some value } }
  | some _, .start => { s with errors := s.errors ++ [.invalidRangeState] }

def RangeReader.next (s : RangeReader) : Tree → RangeReader
  | .token ⟨.asterisk, _⟩ => { s with state := .firstIndex }
  | .token ⟨.range, _⟩ => { s with state := .secondIndex }
  | .token ⟨_, text⟩ =>
    { s with errors := s.errors ++ [.unexpectedRangeToken text] }
  | .node .integerLiteral children => s.index (texts children)
  | .node _ _ => s

/-- `EnterOC_RangeLiteral`. -/
def readRange : RangeReader := children.foldl RangeReader.next ⟨.start, ⟨none, none⟩, []⟩

/-- `Kinds.Add`. -/
def addKind (kinds : Kinds) (kind : String) : Kinds :=
  if kind ∈ kinds then kinds else kinds ++ [kind]

def newNodePattern : NodePattern Expression := ⟨none, [], .nil⟩

def newRelationshipPattern : RelationshipPattern Expression := ⟨none, [], .both, none, .nil⟩

/-! ## Handlers

The handlers `EnterOC_…` in two functions: the visitor that is entered, if
there is one, and what else is done. -/

def enters (v : Visitor) (r : Rule) (children : List Tree) : Option Visitor :=
  match v with
  | .parenthesizedExpression _ =>
    match r with
    | .expression => some (.expression .nil)
    | _ => none
  | .negation _ =>
    match r with
    | .comparisonExpression | .stringListNullPredicateExpression =>
      booleanVisitor r children
    | _ => none
  | .joining _ _ =>
    match r with
    | .notExpression | .orExpression | .xorExpression | .andExpression
    | .comparisonExpression | .stringListNullPredicateExpression =>
      booleanVisitor r children
    | _ => none
  | .expression _ =>
    match r with
    | .nonArithmeticOperatorExpression =>
      some (.nonArithmeticOperatorExpression .nil "")
    | .orExpression | .xorExpression | .andExpression
    | .comparisonExpression | .notExpression
    | .stringListNullPredicateExpression => booleanVisitor r children
    | _ => none
  | .partialComparison _ _ =>
    match r with
    | .stringListNullPredicateExpression =>
      some (.stringListNullPredicateExpression .nil)
    | _ => none
  | .comparison _ =>
    match r with
    | .stringListNullPredicateExpression =>
      some (.stringListNullPredicateExpression .nil)
    | .partialComparisonExpression =>
      some (newPartialComparison children).1
    | _ => none
  | .stringListNullPredicateExpression _ =>
    match r with
    | .addOrSubtractExpression =>
      some (.arithmeticExpression (tokenLiterals children) .nil)
    | _ => none
  | .arithmeticExpression _ _ =>
    match r with
    | .multiplyDivideModuloExpression | .powerOfExpression
    | .unaryAddOrSubtractExpression => subArithmeticVisitor children
    | .nonArithmeticOperatorExpression =>
      some (.nonArithmeticOperatorExpression .nil "")
    | _ => none
  | .nonArithmeticOperatorExpression _ _ =>
    match r with
    | .nodeLabel | .propertyKeyName => some (.symbolicNameOrReservedWord "")
    | .atom =>
      if hasToken .count children then none else some (.atom .nil)
    | _ => none
  | .atom _ =>
    match r with
    | .parameter | .variable_ => some (.symbolicNameOrReservedWord "")
    | .parenthesizedExpression => some (.parenthesizedExpression .nil)
    | .expression => some (.expression .nil)
    | .patternPredicate => some (.patternPredicate [])
    | .quantifier => some (.quantifier (quantifierType children) none)
    | .literal =>
      if hasToken .null children || hasToken .string children then none
      else some (.literal .nil none none)
    | .functionInvocation =>
      some (.functionInvocation (hasToken .distinct children) [] "" [])
    | _ => none
  | .literal _ _ _ =>
    match r with
    | .mapLiteral => some (.mapLiteral "" [])
    | .listLiteral => some (.listLiteral [])
    | _ => none
  | .mapLiteral _ _ =>
    match r with
    | .propertyKeyName => some (.symbolicNameOrReservedWord "")
    | .expression => some (.expression .nil)
    | _ => none
  | .listLiteral _ | .where_ _ =>
    match r with
    | .expression => some (.expression .nil)
    | _ => none
  | .functionInvocation _ _ _ _ =>
    match r with
    | .namespace_ => some (.namespace_ [])
    | .expression => some (.expression .nil)
    | _ => none
  | .quantifier _ _ =>
    match r with
    | .filterExpression => some (.filterExpression ⟨none, none⟩)
    | _ => none
  | .filterExpression _ =>
    match r with
    | .idInColl => some (.idInCollection ⟨none, .nil⟩)
    | .where_ => some (.where_ [])
    | _ => none
  | .idInCollection _ =>
    match r with
    | .variable_ => some (.variable_ "")
    | .expression => some (.expression .nil)
    | _ => none
  | .patternPredicate _ =>
    match r with
    | .nodePattern => some (.nodePattern newNodePattern)
    | .relationshipPattern =>
      some (.relationshipPattern newRelationshipPattern)
    | _ => none
  | .nodePattern _ =>
    match r with
    | .variable_ => some (.variable_ "")
    | .labelName => some (.symbolicNameOrReservedWord "")
    | .properties => some (.properties ⟨[], none⟩)
    | _ => none
  | .relationshipPattern _ =>
    match r with
    | .relTypeName => some (.symbolicNameOrReservedWord "")
    | .variable_ => some (.variable_ "")
    | .properties => some (.properties ⟨[], none⟩)
    | _ => none
  | .properties _ =>
    match r with
    | .mapLiteral => some (.mapLiteral "" [])
    | .parameter => some (.symbolicNameOrReservedWord "")
    | _ => none
  | .symbolicNameOrReservedWord _ | .variable_ _ | .namespace_ _ => none

/-- The operator of the predicate that a visitor of comparisons enters. -/
def predicateOf : Option (PartialExpression Expression) :=
  match r with
  | .regularExpression => some ⟨.regexMatch, .nil⟩
  | .listPredicateExpression =>
    if hasToken .in_ children then some ⟨.in_, .nil⟩ else none
  | .nullPredicateExpression =>
    if hasToken .is children then
      if hasToken .not children then
        some ⟨.isNot, .literal ⟨.text "", true⟩⟩
      else some ⟨.is, .literal ⟨.text "", true⟩⟩
    else none
  | .stringPredicateExpression =>
    if hasToken .starts children && hasToken .with_ children then
      some ⟨.startsWith, .nil⟩
    else if hasToken .ends children && hasToken .with_ children then
      some ⟨.endsWith, .nil⟩
    else if hasToken .contains children then some ⟨.contains, .nil⟩
    else none
  | _ => none

def updates (v : Visitor) (r : Rule) (children : List Tree) : Visitor × List Error :=
  match v with
  | .comparison _ =>
    match r with
    | .partialComparisonExpression => (v, (newPartialComparison children).2)
    | _ => v.base r children
  | .stringListNullPredicateExpression e =>
    match predicateOf r children with
    | some p => (.stringListNullPredicateExpression (.comparison e [p]), [])
    | none => v.base r children
  | .nonArithmeticOperatorExpression e key =>
    match r with
    | .nodeLabels =>
      (.nonArithmeticOperatorExpression (.kindMatcher e [] true) key, [])
    | .propertyLookup =>
      (.nonArithmeticOperatorExpression (.propertyLookup e "") key, [])
    | _ => v.base r children
  | .literal old map list =>
    match r with
    | .integerLiteral =>
      setLiteral map list old ((parseInt (texts children)).map LiteralValue.integer)
        (.invalidIntegerLiteral (texts children))
    | .booleanLiteral =>
      setLiteral map list old ((parseBool (texts children)).map LiteralValue.boolean)
        (.invalidBooleanLiteral (texts children))
    | .doubleLiteral =>
      setLiteral map list old (parseFloat (texts children)) (.invalidDoubleLiteral (texts children))
    | _ => v.base r children
  | .symbolicNameOrReservedWord _ =>
    match r with
    | .schemaName | .symbolicName | .reservedWord =>
      (.symbolicNameOrReservedWord (texts children), [])
    | _ => v.base r children
  | .variable_ _ =>
    match r with
    | .symbolicName => (.variable_ (texts children), [])
    | _ => v.base r children
  | .namespace_ names =>
    match r with
    | .symbolicName => (.namespace_ (names ++ [texts children]), [])
    | _ => v.base r children
  | .functionInvocation distinct namespaces _ arguments =>
    match r with
    | .symbolicName =>
      (.functionInvocation distinct namespaces (texts children) arguments, [])
    | _ => v.base r children
  | .relationshipPattern p =>
    match r with
    | .leftArrowHead =>
      (.relationshipPattern { p with direction := .inbound }, [])
    | .rightArrowHead =>
      (.relationshipPattern { p with direction :=
        if p.direction = .inbound then .both else .outbound }, [])
    | .rangeLiteral =>
      (.relationshipPattern
        { p with range := some (readRange children).range },
        (readRange children).errors)
    | _ => v.base r children
  | _ => v.base r children

/-- The handlers `ExitOC_…`. -/
def exit (v : Visitor) (r : Rule) (children : List Tree) : Leave Visitor Error :=
  match v with
  | .parenthesizedExpression _ =>
    match r with
    | .expression =>
      .pop fun
        | .expression e =>
          some (.parenthesizedExpression (.parenthetical e), [])
        | _ => none
    | _ => .stay (some (v, []))
  | .negation _ =>
    match r with
    | .comparisonExpression | .stringListNullPredicateExpression =>
      leaveBoolean v r children .negation
    | _ => .stay (some (v, []))
  | .joining joiner joined =>
    match r with
    | .notExpression | .orExpression | .xorExpression | .andExpression
    | .comparisonExpression | .stringListNullPredicateExpression =>
      leaveBoolean v r children fun e => .joining joiner (joined ++ [e])
    | _ => .stay (some (v, []))
  | .expression _ =>
    match r with
    | .nonArithmeticOperatorExpression =>
      .pop fun
        | .nonArithmeticOperatorExpression e _ => some (.expression e, [])
        | _ => none
    | .orExpression | .xorExpression | .andExpression
    | .comparisonExpression | .notExpression
    | .stringListNullPredicateExpression =>
      leaveBoolean v r children .expression
    | _ => .stay (some (v, []))
  | .partialComparison operator _ =>
    match r with
    | .stringListNullPredicateExpression =>
      .pop fun
        | .stringListNullPredicateExpression e =>
          some (.partialComparison operator e, [])
        | _ => none
    | _ => .stay (some (v, []))
  | .comparison c =>
    match r with
    | .stringListNullPredicateExpression =>
      .pop fun
        | .stringListNullPredicateExpression e =>
          some (.comparison (some (e, [])), [])
        | _ => none
    | .partialComparisonExpression =>
      .pop fun
        | .partialComparison operator right =>
          c.map fun (left, partials) =>
            (.comparison (some (left, partials ++ [⟨operator, right⟩])), [])
        | _ => none
    | _ => .stay (some (v, []))
  | .stringListNullPredicateExpression s =>
    match r with
    | .addOrSubtractExpression =>
      .pop fun
        | .arithmeticExpression _ e =>
          match s with
          | .comparison left partials =>
            (setLastRight partials e).map fun partials =>
              (.stringListNullPredicateExpression (.comparison left partials), [])
          | _ => some (.stringListNullPredicateExpression e, [])
        | _ => none
    | _ => .stay (some (v, []))
  | .arithmeticExpression tokens s =>
    match r with
    | .multiplyDivideModuloExpression | .powerOfExpression =>
      leaveSubArithmetic tokens s children id
    | .unaryAddOrSubtractExpression =>
      leaveSubArithmetic tokens s children
        (.unaryAddOrSubtract (nextOperator (tokenLiterals children)))
    | .nonArithmeticOperatorExpression =>
      .pop fun
        | .nonArithmeticOperatorExpression e _ =>
          (assignExpression tokens s e).map (·, [])
        | _ => none
    | _ => .stay (some (v, []))
  | .nonArithmeticOperatorExpression e key =>
    match r with
    | .nodeLabel =>
      .pop fun
        | .symbolicNameOrReservedWord name =>
          match e with
          | .kindMatcher reference kinds isExclusive =>
            some (.nonArithmeticOperatorExpression
              (.kindMatcher reference (kinds ++ [name]) isExclusive) key, [])
          | _ => none
        | _ => none
    | .atom =>
      if hasToken .count children then
        .stay (some (.nonArithmeticOperatorExpression
          (.functionInvocation false [] "count" [.rangeQuantifier "*"]) key, []))
      else
        .pop fun
          | .atom a => some (.nonArithmeticOperatorExpression a key, [])
          | _ => none
    | .propertyLookup =>
      match e with
      | .propertyLookup atom _ =>
        .stay (some (.nonArithmeticOperatorExpression (.propertyLookup atom key) key, []))
      | _ => .stay none
    | .propertyKeyName =>
      .pop fun
        | .symbolicNameOrReservedWord name =>
          let key := unescapePropertyKeyName name
          some (.nonArithmeticOperatorExpression e key,
            if key = "" then [.emptyPropertyKeyName (texts children)]
            else [])
        | _ => none
    | _ => .stay (some (v, []))
  | .atom _ =>
    match r with
    | .parameter =>
      .pop fun
        | .symbolicNameOrReservedWord name =>
          some (.atom (.parameter ⟨parameterSymbol name children⟩), [])
        | _ => none
    | .parenthesizedExpression =>
      .pop fun
        | .parenthesizedExpression e => some (.atom e, [])
        | _ => none
    | .expression =>
      .pop fun
        | .expression e => some (.atom e, [])
        | _ => none
    | .patternPredicate =>
      .pop fun
        | .patternPredicate elements =>
          some (.atom (.patternPredicate elements), [])
        | _ => none
    | .quantifier =>
      .pop fun
        | .quantifier type filter =>
          some (.atom (.quantifier type filter), [])
        | _ => none
    | .literal =>
      if hasToken .null children then
        .stay (some (.atom (.literal ⟨.text "", true⟩), []))
      else if hasToken .string children then
        .stay (some (.atom (.literal ⟨.text (texts children), false⟩), []))
      else
        .pop fun
          | .literal literal map list =>
            some (.atom (getLiteral literal map list), [])
          | _ => none
    | .variable_ =>
      .pop fun
        | .symbolicNameOrReservedWord name =>
          some (.atom (.var ⟨name⟩), [])
        | _ => none
    | .functionInvocation =>
      .pop fun
        | .functionInvocation distinct namespaces name arguments =>
          some (.atom (.functionInvocation distinct namespaces name arguments), [])
        | _ => none
    | _ => .stay (some (v, []))
  | .literal literal map list =>
    match r with
    | .mapLiteral =>
      .pop fun
        | .mapLiteral _ map => some (.literal literal (some map) list, [])
        | _ => none
    | .listLiteral =>
      .pop fun
        | .listLiteral list => some (.literal literal map (some list), [])
        | _ => none
    | _ => .stay (some (v, []))
  | .mapLiteral key map =>
    match r with
    | .propertyKeyName =>
      .pop fun
        | .symbolicNameOrReservedWord name =>
          some (.mapLiteral (unescapePropertyKeyName name) map, [])
        | _ => none
    | .expression =>
      .pop fun
        | .expression e => some (.mapLiteral key (putItem key e map), [])
        | _ => none
    | _ => .stay (some (v, []))
  | .listLiteral list =>
    match r with
    | .expression =>
      .pop fun
        | .expression e => some (.listLiteral (list ++ [e]), [])
        | _ => none
    | _ => .stay (some (v, []))
  | .functionInvocation distinct namespaces name arguments =>
    match r with
    | .namespace_ =>
      .pop fun
        | .namespace_ names =>
          some (.functionInvocation distinct names name arguments, [])
        | _ => none
    | .expression =>
      .pop fun
        | .expression e =>
          some (.functionInvocation distinct namespaces name (arguments ++ [e]), [])
        | _ => none
    | _ => .stay (some (v, []))
  | .quantifier type _ =>
    match r with
    | .filterExpression =>
      .pop fun
        | .filterExpression filter =>
          some (.quantifier type (some filter), [])
        | _ => none
    | _ => .stay (some (v, []))
  | .filterExpression filter =>
    match r with
    | .idInColl =>
      .pop fun
        | .idInCollection c =>
          some (.filterExpression { filter with specifier := some c }, [])
        | _ => none
    | .where_ =>
      .pop fun
        | .where_ expressions =>
          some (.filterExpression
            { filter with where_ := some ⟨expressions⟩ }, [])
        | _ => none
    | _ => .stay (some (v, []))
  | .idInCollection c =>
    match r with
    | .variable_ =>
      .pop fun
        | .variable_ symbol =>
          some (.idInCollection { c with variable_ := some ⟨symbol⟩ }, [])
        | _ => none
    | .expression =>
      .pop fun
        | .expression e =>
          some (.idInCollection { c with expression := e }, [])
        | _ => none
    | _ => .stay (some (v, []))
  | .where_ expressions =>
    match r with
    | .expression =>
      .pop fun
        | .expression e => some (.where_ (expressions ++ [e]), [])
        | _ => none
    | _ => .stay (some (v, []))
  | .patternPredicate elements =>
    match r with
    | .nodePattern =>
      .pop fun
        | .nodePattern p =>
          some (.patternPredicate (elements ++ [⟨.nodePattern p⟩]), [])
        | _ => none
    | .relationshipPattern =>
      .pop fun
        | .relationshipPattern p =>
          some (.patternPredicate (elements ++ [⟨.relationshipPattern p⟩]), [])
        | _ => none
    | _ => .stay (some (v, []))
  | .nodePattern p =>
    match r with
    | .variable_ =>
      .pop fun
        | .variable_ symbol =>
          some (.nodePattern { p with variable_ := some ⟨symbol⟩ }, [])
        | _ => none
    | .labelName =>
      .pop fun
        | .symbolicNameOrReservedWord name =>
          some (.nodePattern { p with kinds := p.kinds ++ [name] }, [])
        | _ => none
    | .properties =>
      .pop fun
        | .properties properties =>
          some (.nodePattern
            { p with properties := .properties properties }, [])
        | _ => none
    | _ => .stay (some (v, []))
  | .relationshipPattern p =>
    match r with
    | .relTypeName =>
      .pop fun _ =>
        some (.relationshipPattern
          { p with kinds := addKind p.kinds (texts children) }, [])
    | .variable_ =>
      .pop fun
        | .variable_ symbol =>
          some (.relationshipPattern
            { p with variable_ := some ⟨symbol⟩ }, [])
        | _ => none
    | .properties =>
      .pop fun
        | .properties properties =>
          some (.relationshipPattern
            { p with properties := .properties properties }, [])
        | _ => none
    | _ => .stay (some (v, []))
  | .properties p =>
    match r with
    | .mapLiteral =>
      .pop fun
        | .mapLiteral _ map => some (.properties { p with map := map }, [])
        | _ => none
    | .parameter =>
      .pop fun
        | .symbolicNameOrReservedWord name =>
          some (.properties { p with
            parameter := some ⟨parameterSymbol name children⟩ }, [])
        | _ => none
    | _ => .stay (some (v, []))
  | .symbolicNameOrReservedWord _ | .variable_ _ | .namespace_ _ =>
    .stay (some (v, []))

def listener : Listener Token Rule Visitor Error where
  enter v r children := ((updates v r children).1, enters v r children, (updates v r children).2)
  exit := exit

/-- What the frontend makes of an expression and the errors it reports. The
expression is entered from a `WhereVisitor`; every visitor that enters an
expression puts an `ExpressionVisitor` on the stack and takes its result. -/
def readExpression (t : Tree) : Option (Expression × List Error) :=
  match listener.walk t ⟨[⟨.where_ [], 0⟩], []⟩ with
  | some ⟨[⟨.where_ [e], _⟩], errors⟩ => some (e, errors)
  | _ => none

end Dawgs.Ref.Frontend

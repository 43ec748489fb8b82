import Dawgs.Lib.Listener

/-!
# The expressions of the Cypher grammar

The rules of `Cypher.g4` that an expression is derived with. A parse tree
has a node for each rule and a token for each terminal, and what the parser
hands to the frontend is a tree that `Derives` allows.

The grammar says where a space may stand. Only the frontend's reading of
arithmetic depends on that, so in the other rules spaces may stand between
any two children, and a production lists the others. A space is a text,
since it may be a comment. Of the rules that the frontend refuses as soon as
they are entered nothing is said about what is below them.
-/

namespace Dawgs.Ref.Grammar

open Lib

/-- The rules, without the prefix `oC_`. -/
inductive Rule where
  | expression | orExpression | xorExpression | andExpression | notExpression
  | comparisonExpression | partialComparisonExpression
  | stringListNullPredicateExpression | stringPredicateExpression
  | regularExpression | listPredicateExpression | nullPredicateExpression
  | addOrSubtractExpression | multiplyDivideModuloExpression
  | powerOfExpression | unaryAddOrSubtractExpression
  | nonArithmeticOperatorExpression | listOperatorExpression
  | propertyLookup | propertyKeyName | labelName | relTypeName | schemaName
  | symbolicName | reservedWord | nodeLabels | nodeLabel
  | atom | literal | booleanLiteral | numberLiteral | doubleLiteral
  | integerLiteral | listLiteral | mapLiteral | parameter | legacyParameter
  | caseExpression | listComprehension | patternComprehension
  | legacyListExpression | reduce | quantifier | filterExpression | idInColl
  | where_ | shortestPathPattern | patternElement | patternPredicate
  | relationshipsPattern | nodePattern | patternElementChain
  | relationshipPattern | relationshipDetail | relationshipTypes
  | rangeLiteral | properties | leftArrowHead | rightArrowHead | dash
  | parenthesizedExpression | functionInvocation | functionName | namespace_
  | existentialSubquery | variable_
deriving DecidableEq

/-- The terminals, as far as they are told apart. -/
inductive TokenType where
  | space | or | xor | and | not | starts | with_ | ends | contains | in_ | is
  | null | count | distinct | all | any | none | single | where_
  | shortestPath | allShortestPaths | string | integer | name
  | asterisk | range | symbol
deriving DecidableEq

structure Token where
  type : TokenType
  text : String
deriving DecidableEq

abbrev Tree := ParseTree Token Rule

def token (type : TokenType) (text : String) : Tree := .token ⟨type, text⟩

/-- Punctuation and operators. -/
def symbol (text : String) : Tree := token .symbol text

def isSpace : Tree → Bool
  | .token t => t.type = .space
  | .node _ _ => false

/-- The children that are not spaces. -/
def dense (children : List Tree) : List Tree := children.filter fun t => !isSpace t

/-- An optional child. -/
abbrev Maybe := Option Tree

/-- The characters of `WHITESPACE`. -/
def whitespace : List Char :=
  [' ', '\t', '\n', '\x0b', '\x0c', '\r', '\x1c', '\x1d', '\x1e', '\x1f',
    '\u1680', '\u180e', '\u2000', '\u2001', '\u2002', '\u2003', '\u2004',
    '\u2005', '\u2006', '\u2008', '\u2009', '\u200a', '\u2028', '\u2029',
    '\u205f', '\u3000', '\u00a0', '\u2007', '\u202f']

/-- `SP`: white space and comments. -/
inductive Space : List Char → Prop where
  | whitespace {c : Char} (hc : c ∈ whitespace) : Space [c]
  | comment {body : List Char} : Space ('/' :: '*' :: body ++ ['*', '/'])
  | lineComment {body : List Char} : Space ('/' :: '/' :: body)
  | append {s s' : List Char} (hs : Space s) (hs' : Space s') : Space (s ++ s')

/-- `SP?`. -/
def space? (s : Option String) : List Tree := s.toList.map (token .space)

/-- The rules of an expression that the frontend refuses. -/
def unsupported : List Rule :=
  [.caseExpression, .legacyListExpression, .reduce, .existentialSubquery, .legacyParameter]

/-- The alternatives of `oC_Atom` that are a rule. -/
def atomRules : List Rule := [.literal, .parameter, .legacyParameter, .caseExpression,
    .listComprehension, .patternComprehension, .legacyListExpression, .reduce,
    .quantifier, .shortestPathPattern, .patternPredicate,
    .parenthesizedExpression, .functionInvocation, .existentialSubquery, .variable_]

/-- The operators of the three arithmetic rules, and the rule below. -/
inductive ArithmeticRule : Rule → List String → Rule → Prop where
  | addOrSubtract : ArithmeticRule .addOrSubtractExpression ["+", "-"]
      .multiplyDivideModuloExpression
  | multiplyDivideModulo : ArithmeticRule .multiplyDivideModuloExpression
      ["*", "/", "%"] .powerOfExpression
  | powerOf : ArithmeticRule .powerOfExpression ["^"] .unaryAddOrSubtractExpression

/-- An operator and its right operand, with the spaces. -/
structure ArithmeticPart where
  before : Option String
  operator : String
  after : Option String
  operand : Tree

namespace ArithmeticPart

def children (p : ArithmeticPart) : List Tree :=
  space? p.before ++ symbol p.operator :: space? p.after ++ [p.operand]

def Spaced (p : ArithmeticPart) : Prop :=
  (∀ s ∈ p.before, Space s.toList) ∧ ∀ s ∈ p.after, Space s.toList

end ArithmeticPart

/-- The operators of the three rules that join truth values, and the rule
below. -/
inductive JoiningRule : Rule → TokenType → Rule → Prop where
  | or : JoiningRule .orExpression .or .xorExpression
  | xor : JoiningRule .xorExpression .xor .andExpression
  | and : JoiningRule .andExpression .and .notExpression

/-- The rules of names: `r` is a `below`. -/
inductive NamingRule : Rule → Rule → Prop where
  | propertyKeyName : NamingRule .propertyKeyName .schemaName
  | labelName : NamingRule .labelName .schemaName
  | relTypeName : NamingRule .relTypeName .schemaName
  | symbolic : NamingRule .schemaName .symbolicName
  | reserved : NamingRule .schemaName .reservedWord
  | variable_ : NamingRule .variable_ .symbolicName

/-- A tree that a rule derives. -/
inductive Derives : Rule → Tree → Prop where
  | unsupported {r} {cs : List Tree} (hr : r ∈ unsupported) : Derives r (.node r cs)
  | expression {cs x} (hcs : dense cs = [x]) (hx : Derives .orExpression x) :
      Derives .expression (.node .expression cs)
  | joining {r below} {word : TokenType} {cs x} {rest : List (String × Tree)}
      (hr : JoiningRule r word below)
      (hcs : dense cs = x :: rest.flatMap fun p => [token word p.1, p.2])
      (hx : Derives below x) (hrest : ∀ p ∈ rest, Derives below p.2) : Derives r (.node r cs)
  | notExpression {cs} {nots : List String} {x} (hcs : dense cs = nots.map (token .not) ++ [x])
      (hx : Derives .comparisonExpression x) : Derives .notExpression (.node .notExpression cs)
  | comparisonExpression {cs x rest} (hcs : dense cs = x :: rest)
      (hx : Derives .stringListNullPredicateExpression x)
      (hrest : ∀ p ∈ rest, Derives .partialComparisonExpression p) :
      Derives .comparisonExpression (.node .comparisonExpression cs)
  | partialComparisonExpression {cs after operator x}
      (hoperator : operator ∈ ["=", "<>", "<", ">", "<=", ">="])
      (hcs : cs = symbol operator :: after) (hafter : dense after = [x])
      (hx : Derives .stringListNullPredicateExpression x) : Derives .partialComparisonExpression
        (.node .partialComparisonExpression cs)
  | stringListNullPredicateExpression {cs x} {rest : List (Rule × Tree)}
      (hcs : dense cs = x :: rest.map Prod.snd) (hx : Derives .addOrSubtractExpression x)
      (hrules : ∀ p ∈ rest, p.1 ∈ [Rule.stringPredicateExpression,
        .listPredicateExpression, .nullPredicateExpression])
      (hrest : ∀ p ∈ rest, Derives p.1 p.2) : Derives .stringListNullPredicateExpression
        (.node .stringListNullPredicateExpression cs)
  | regularPredicate {cs r x} (hcs : dense cs = [r, x]) (hr : Derives .regularExpression r)
      (hx : Derives .addOrSubtractExpression x) :
      Derives .stringPredicateExpression (.node .stringPredicateExpression cs)
  | startsWith {cs starts with_ x} (hcs : dense cs = [token .starts starts, token .with_ with_, x])
      (hx : Derives .addOrSubtractExpression x) :
      Derives .stringPredicateExpression (.node .stringPredicateExpression cs)
  | endsWith {cs ends with_ x} (hcs : dense cs = [token .ends ends, token .with_ with_, x])
      (hx : Derives .addOrSubtractExpression x) :
      Derives .stringPredicateExpression (.node .stringPredicateExpression cs)
  | contains {cs contains x} (hcs : dense cs = [token .contains contains, x])
      (hx : Derives .addOrSubtractExpression x) :
      Derives .stringPredicateExpression (.node .stringPredicateExpression cs)
  | regularExpression {cs} (hcs : dense cs = [symbol "=~"]) :
      Derives .regularExpression (.node .regularExpression cs)
  | listPredicateExpression {cs in_ x} (hcs : dense cs = [token .in_ in_, x])
      (hx : Derives .addOrSubtractExpression x) :
      Derives .listPredicateExpression (.node .listPredicateExpression cs)
  | isNull {cs is null} (hcs : dense cs = [token .is is, token .null null]) :
      Derives .nullPredicateExpression (.node .nullPredicateExpression cs)
  | isNotNull {cs is not null} (hcs : dense cs = [token .is is, token .not not, token .null null]) :
      Derives .nullPredicateExpression (.node .nullPredicateExpression cs)
  | arithmetic {r below} {operators : List String} {cs x} {rest : List ArithmeticPart}
      (hr : ArithmeticRule r operators below) (hcs : cs = x :: rest.flatMap ArithmeticPart.children)
      (hoperators : ∀ p ∈ rest, p.operator ∈ operators)
      (hspaces : ∀ p ∈ rest, p.Spaced) (hx : Derives below x)
      (hrest : ∀ p ∈ rest, Derives below p.operand) : Derives r (.node r cs)
  | unsigned {cs x} (hcs : cs = [x]) (hx : Derives .nonArithmeticOperatorExpression x) :
      Derives .unaryAddOrSubtractExpression (.node .unaryAddOrSubtractExpression cs)
  | signed {cs after sign x} (hsign : sign ∈ ["+", "-"]) (hcs : cs = symbol sign :: after)
      (hafter : dense after = [x]) (hx : Derives .nonArithmeticOperatorExpression x) :
      Derives .unaryAddOrSubtractExpression (.node .unaryAddOrSubtractExpression cs)
  | nonArithmeticOperatorExpression {cs a} {rest : List (Rule × Tree)} {labels : Maybe}
      (hcs : dense cs = a :: (rest.map Prod.snd ++ labels.toList)) (ha : Derives .atom a)
      (hrules : ∀ p ∈ rest, p.1 ∈ [Rule.listOperatorExpression, .propertyLookup])
      (hrest : ∀ p ∈ rest, Derives p.1 p.2) (hlabels : ∀ x ∈ labels, Derives .nodeLabels x) :
      Derives .nonArithmeticOperatorExpression (.node .nonArithmeticOperatorExpression cs)
  | index {cs x} (hcs : dense cs = [symbol "[", x, symbol "]"]) (hx : Derives .expression x) :
      Derives .listOperatorExpression (.node .listOperatorExpression cs)
  | slice {cs} {lower upper : Maybe}
      (hcs : dense cs = symbol "[" :: lower.toList ++ token .range ".." ::
        upper.toList ++ [symbol "]"])
      (hlower : ∀ x ∈ lower, Derives .expression x) (hupper : ∀ x ∈ upper, Derives .expression x) :
      Derives .listOperatorExpression (.node .listOperatorExpression cs)
  | propertyLookup {cs x} (hcs : dense cs = [symbol ".", x]) (hx : Derives .propertyKeyName x) :
      Derives .propertyLookup (.node .propertyLookup cs)
  | naming {r below cs x} (hr : NamingRule r below) (hcs : cs = [x]) (hx : Derives below x) :
      Derives r (.node r cs)
  | symbolicName {cs : List Tree} {t : Token} (hcs : cs = [.token t]) :
      Derives .symbolicName (.node .symbolicName cs)
  | reservedWord {cs : List Tree} {t : Token} (hcs : cs = [.token t]) :
      Derives .reservedWord (.node .reservedWord cs)
  | nodeLabels {cs x rest} (hcs : dense cs = x :: rest) (hx : Derives .nodeLabel x)
      (hrest : ∀ y ∈ rest, Derives .nodeLabel y) : Derives .nodeLabels (.node .nodeLabels cs)
  | nodeLabel {cs x} (hcs : dense cs = [symbol ":", x])
      (hx : Derives .labelName x) : Derives .nodeLabel (.node .nodeLabel cs)
  | atom {r cs x} (hr : r ∈ atomRules)
      (hcs : cs = [x]) (hx : Derives r x) : Derives .atom (.node .atom cs)
  | countAll {cs count} (hcs : dense cs = [token .count count, symbol "(", token .asterisk "*",
        symbol ")"]) : Derives .atom (.node .atom cs)
  | literal {r cs x} (hr : r ∈ [Rule.booleanLiteral, .numberLiteral, .listLiteral, .mapLiteral])
      (hcs : cs = [x]) (hx : Derives r x) : Derives .literal (.node .literal cs)
  | nullLiteral {cs null} (hcs : cs = [token .null null]) : Derives .literal (.node .literal cs)
  | stringLiteral {cs text} (hcs : cs = [token .string text]) : Derives .literal (.node .literal cs)
  | booleanLiteral {cs text} (hcs : cs = [symbol text]) :
      Derives .booleanLiteral (.node .booleanLiteral cs)
  | numberLiteral {r cs x} (hr : r ∈ [Rule.doubleLiteral, .integerLiteral]) (hcs : cs = [x])
      (hx : Derives r x) : Derives .numberLiteral (.node .numberLiteral cs)
  | doubleLiteral {cs text} (hcs : cs = [symbol text]) :
      Derives .doubleLiteral (.node .doubleLiteral cs)
  | integerLiteral {cs text} (hcs : cs = [token .integer text]) :
      Derives .integerLiteral (.node .integerLiteral cs)
  | listLiteral {cs} {xs : List Tree} (hcs : dense cs = symbol "[" :: xs.intersperse (symbol ",") ++
        [symbol "]"])
      (hxs : ∀ x ∈ xs, Derives .expression x) : Derives .listLiteral (.node .listLiteral cs)
  | mapLiteral {cs} {items : List (Tree × Tree)} (hcs : dense cs = symbol "\x7b" ::
        ((items.map fun p => [p.1, symbol ":", p.2]).intersperse
          [symbol ","]).flatten ++ [symbol "\x7d"])
      (hkeys : ∀ p ∈ items, Derives .propertyKeyName p.1)
      (hvalues : ∀ p ∈ items, Derives .expression p.2) : Derives .mapLiteral (.node .mapLiteral cs)
  | namedParameter {cs x} (hcs : cs = [symbol "$", x]) (hx : Derives .symbolicName x) :
      Derives .parameter (.node .parameter cs)
  | numberedParameter {cs text} (hcs : cs = [symbol "$", token .integer text]) :
      Derives .parameter (.node .parameter cs)
  | listComprehension {cs filter} {result : Maybe} (hcs : dense cs = [symbol "[", filter] ++
        (result.toList.flatMap fun x => [symbol "|", x]) ++ [symbol "]"])
      (hfilter : Derives .filterExpression filter) (hresult : ∀ x ∈ result, Derives .expression x) :
      Derives .listComprehension (.node .listComprehension cs)
  | patternComprehension {cs} {path : Maybe} {pattern} {condition : Maybe} {result}
      (hcs : dense cs = symbol "[" :: (path.toList.flatMap fun x => [x, symbol "="]) ++ pattern ::
          condition.toList ++ [symbol "|", result, symbol "]"])
      (hpath : ∀ x ∈ path, Derives .variable_ x) (hpattern : Derives .relationshipsPattern pattern)
      (hcondition : ∀ x ∈ condition, Derives .where_ x) (hresult : Derives .expression result) :
      Derives .patternComprehension (.node .patternComprehension cs)
  | quantifier {cs} {type : TokenType} {text x}
      (htype : type ∈ [TokenType.all, .any, .none, .single])
      (hcs : dense cs = [token type text, symbol "(", x, symbol ")"])
      (hx : Derives .filterExpression x) : Derives .quantifier (.node .quantifier cs)
  | filterExpression {cs x} {condition : Maybe}
      (hcs : dense cs = x :: condition.toList) (hx : Derives .idInColl x)
      (hcondition : ∀ y ∈ condition, Derives .where_ y) :
      Derives .filterExpression (.node .filterExpression cs)
  | idInColl {cs v x in_} (hcs : dense cs = [v, token .in_ in_, x]) (hv : Derives .variable_ v)
      (hx : Derives .expression x) : Derives .idInColl (.node .idInColl cs)
  | where_ {cs word x} (hcs : dense cs = [token .where_ word, x]) (hx : Derives .expression x) :
      Derives .where_ (.node .where_ cs)
  | shortestPathPattern {cs} {type : TokenType} {text x}
      (htype : type ∈ [TokenType.shortestPath, .allShortestPaths])
      (hcs : cs = [token type text, symbol "(", x, symbol ")"]) (hx : Derives .patternElement x) :
      Derives .shortestPathPattern (.node .shortestPathPattern cs)
  | patternElement {cs n chain} (hcs : dense cs = n :: chain) (hn : Derives .nodePattern n)
      (hchain : ∀ x ∈ chain, Derives .patternElementChain x) :
      Derives .patternElement (.node .patternElement cs)
  | nestedPatternElement {cs x} (hcs : cs = [symbol "(", x, symbol ")"])
      (hx : Derives .patternElement x) : Derives .patternElement (.node .patternElement cs)
  | patternPredicate {cs x} (hcs : cs = [x]) (hx : Derives .relationshipsPattern x) :
      Derives .patternPredicate (.node .patternPredicate cs)
  | relationshipsPattern {cs n link chain} (hcs : dense cs = n :: link :: chain)
      (hn : Derives .nodePattern n) (hlink : Derives .patternElementChain link)
      (hchain : ∀ x ∈ chain, Derives .patternElementChain x) :
      Derives .relationshipsPattern (.node .relationshipsPattern cs)
  | nodePattern {cs} {v labels properties : Maybe}
      (hcs : dense cs = symbol "(" :: v.toList ++ labels.toList ++
        properties.toList ++ [symbol ")"])
      (hv : ∀ x ∈ v, Derives .variable_ x) (hlabels : ∀ x ∈ labels, Derives .nodeLabels x)
      (hproperties : ∀ x ∈ properties, Derives .properties x) :
      Derives .nodePattern (.node .nodePattern cs)
  | patternElementChain {cs r n} (hcs : dense cs = [r, n]) (hr : Derives .relationshipPattern r)
      (hn : Derives .nodePattern n) : Derives .patternElementChain (.node .patternElementChain cs)
  | relationshipPattern {cs} {left right detail : Maybe} {dash dash'}
      (hcs : dense cs = left.toList ++ dash :: detail.toList ++ dash' :: right.toList)
      (hdash : Derives .dash dash) (hdash' : Derives .dash dash')
      (hleft : ∀ x ∈ left, Derives .leftArrowHead x)
      (hright : ∀ x ∈ right, Derives .rightArrowHead x)
      (hdetail : ∀ x ∈ detail, Derives .relationshipDetail x) :
      Derives .relationshipPattern (.node .relationshipPattern cs)
  | relationshipDetail {cs} {v types range properties : Maybe}
      (hcs : dense cs = symbol "[" :: v.toList ++ types.toList ++
        range.toList ++ properties.toList ++ [symbol "]"])
      (hv : ∀ x ∈ v, Derives .variable_ x) (htypes : ∀ x ∈ types, Derives .relationshipTypes x)
      (hrange : ∀ x ∈ range, Derives .rangeLiteral x)
      (hproperties : ∀ x ∈ properties, Derives .properties x) :
      Derives .relationshipDetail (.node .relationshipDetail cs)
  | relationshipTypes {cs x} {rest : List (Bool × Tree)}
      (hcs : dense cs = symbol ":" :: x :: rest.flatMap fun p =>
        symbol "|" :: (if p.1 then [symbol ":", p.2] else [p.2]))
      (hx : Derives .relTypeName x) (hrest : ∀ p ∈ rest, Derives .relTypeName p.2) :
      Derives .relationshipTypes (.node .relationshipTypes cs)
  | rangeLiteral {cs} {first : Maybe} {rest : Option Maybe}
      (hcs : dense cs = token .asterisk "*" :: first.toList ++
        rest.toList.flatMap fun last => token .range ".." :: last.toList)
      (hfirst : ∀ x ∈ first, Derives .integerLiteral x)
      (hlast : ∀ last ∈ rest, ∀ x ∈ last, Derives .integerLiteral x) :
      Derives .rangeLiteral (.node .rangeLiteral cs)
  | properties {r cs x} (hr : r ∈ [Rule.mapLiteral, .parameter, .legacyParameter])
      (hcs : cs = [x]) (hx : Derives r x) : Derives .properties (.node .properties cs)
  | mark {r} {cs : List Tree} {t : Token} (hr : r ∈ [Rule.leftArrowHead, .rightArrowHead, .dash])
      (hcs : cs = [.token t]) : Derives r (.node r cs)
  | parenthesizedExpression {cs x} (hcs : dense cs = [symbol "(", x, symbol ")"])
      (hx : Derives .expression x) :
      Derives .parenthesizedExpression (.node .parenthesizedExpression cs)
  | functionInvocation {cs name} {distinct : Option String} {xs : List Tree}
      (hcs : dense cs = name :: symbol "(" :: (distinct.toList.map (token .distinct)) ++
          xs.intersperse (symbol ",") ++ [symbol ")"])
      (hname : Derives .functionName name) (hxs : ∀ x ∈ xs, Derives .expression x) :
      Derives .functionInvocation (.node .functionInvocation cs)
  | functionName {cs n x} (hcs : cs = [n, x])
      (hn : Derives .namespace_ n) (hx : Derives .symbolicName x) :
      Derives .functionName (.node .functionName cs)
  | namespace_ {cs} {xs : List Tree} (hcs : cs = xs.flatMap fun x => [x, symbol "."])
      (hxs : ∀ x ∈ xs, Derives .symbolicName x) : Derives .namespace_ (.node .namespace_ cs)

end Dawgs.Ref.Grammar

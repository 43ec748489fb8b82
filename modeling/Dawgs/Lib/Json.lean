import Mathlib

/-!
# JSON texts

Values, how they are printed and how they are read. A value is a tree whose
leaves are of any type; what is printed and read has scalars as leaves. The
number of a scalar is its text, so that no arithmetic is fixed here, and it
carries the proof that it has the form of a number.

A text has places that hold a character and places that hold none. A printer
whose strings may contain bytes that belong to no character writes the
replacement character for them, so what is read is the repaired text.

The reader gets the number of containers it may still open. It is this limit
that its recursion is on. A sequence is read by `sequence`, whatever its
items are; its count of rounds is the length of the input, which no sequence
exceeds.
-/

namespace Dawgs.Lib.Json

open Nat

/-- A text, with places that hold no character. -/
abbrev Text := List (Option Char)

/-- A value with leaves of any type. -/
inductive Value (A : Type) where
  | leaf (a : A)
  | array (items : List (Value A))
  | object (members : List (Text × Value A))

/-! ### Numbers -/

def digitsAfter (text : List Char) : List Char := text.dropWhile Char.isDigit

/-- What follows one digit and more. -/
def someDigits : List Char → Option (List Char)
  | [] => none
  | c :: text => if c.isDigit then some (digitsAfter text) else none

def integerPart : List Char → Option (List Char)
  | '0' :: text => some text
  | text => someDigits text

def fractionPart : List Char → Option (List Char)
  | '.' :: text => someDigits text
  | text => some text

def exponentPart : List Char → Option (List Char)
  | 'e' :: '+' :: text | 'E' :: '+' :: text
  | 'e' :: '-' :: text | 'E' :: '-' :: text
  | 'e' :: text | 'E' :: text => someDigits text
  | text => some text

def unsigned (text : List Char) : Option (List Char) :=
  ((integerPart text).bind fractionPart).bind exponentPart

/-- The form of a number. -/
def isNumber : List Char → Bool
  | '-' :: text => unsigned text = some []
  | text => unsigned text = some []

/-- The text of a number. -/
structure Numeral where
  text : List Char
  valid : isNumber text = true
deriving DecidableEq

/-- The digits of an integer. -/
def decimalText (n : Int) : List Char :=
  if n < 0 then '-' :: toDigits 10 n.natAbs else toDigits 10 n.natAbs

/-- The digits of a positive number do not begin with zero. -/
theorem exists_toDigits_eq {n : Nat} (h : 0 < n) :
    ∃ c cs, toDigits 10 n = c :: cs ∧ c ≠ '0' := by
  induction n using Nat.strongRecOn with
  | ind n ih =>
    by_cases hlt : n < 10
    · have hdigit : ∀ m < 10, 0 < m → m.digitChar ≠ '0' := by decide
      exact ⟨_, _, toDigits_of_lt_base hlt, hdigit n hlt h⟩
    · obtain ⟨c, cs, hc, hne⟩ := ih (n / 10) (by omega) (by omega)
      refine ⟨c, cs ++ [(n % 10).digitChar], ?_, hne⟩
      rw [toDigits_of_base_le (by decide) (by omega), hc, List.cons_append]

theorem unsigned_toDigits (n : Nat) : unsigned (toDigits 10 n) = some [] := by
  rcases Nat.eq_zero_or_pos n with rfl | hpos
  · rfl
  have hdigit : ∀ c ∈ toDigits 10 n, c.isDigit = true :=
    fun c hc => isDigit_of_mem_toDigits (by decide) (by decide) hc
  obtain ⟨c, cs, hcs, hne⟩ := exists_toDigits_eq hpos
  rw [hcs] at hdigit ⊢
  obtain ⟨hc, hdigit⟩ := List.forall_mem_cons.mp hdigit
  have hpart : integerPart (c :: cs) = some [] := by
    rw [integerPart, someDigits, if_pos hc, digitsAfter, List.dropWhile_eq_nil_iff.mpr hdigit]
    intro text heq
    cases heq
    exact hne rfl
  rw [unsigned, hpart]
  rfl

theorem isNumber_decimalText (n : Int) : isNumber (decimalText n) = true := by
  have hunsigned := unsigned_toDigits n.natAbs
  unfold decimalText
  split
  next => exact decide_eq_true hunsigned
  next =>
    unfold isNumber
    split
    next text heq =>
      have hmem : '-' ∈ toDigits 10 n.natAbs := by
        rw [heq]
        exact List.mem_cons_self
      cases isDigit_of_mem_toDigits (by decide) (by decide) hmem
    next => exact decide_eq_true hunsigned

/-- An integer as a number. -/
def decimal (n : Int) : Numeral := ⟨decimalText n, isNumber_decimalText n⟩

/-- Only these characters are part of a number. -/
def numberChar (c : Char) : Bool :=
  c.isDigit || c == '-' || c == '+' || c == '.' || c == 'e' || c == 'E'

/-! ### Printing -/

inductive Scalar where
  | null
  | bool (b : Bool)
  | number (n : Numeral)
  | string (t : Text)
deriving DecidableEq

def hexDigit (n : Nat) : Char := digitChar n

/-- The letter of a character that is escaped by a letter. -/
def escapeLetter : Char → Option Char
  | '"' => some '"'
  | '\\' => some '\\'
  | '\x08' => some 'b'
  | '\x0c' => some 'f'
  | '\n' => some 'n'
  | '\r' => some 'r'
  | '\t' => some 't'
  | _ => none

def escapeChar (c : Char) : List Char :=
  match escapeLetter c with
  | some letter => ['\\', letter]
  | none =>
    if c.toNat < 32 then
      ['\\', 'u', '0', '0', hexDigit (c.toNat / 16), hexDigit (c.toNat % 16)]
    else if c = '\u2028' then ['\\', 'u', '2', '0', '2', '8']
    else if c = '\u2029' then ['\\', 'u', '2', '0', '2', '9']
    else [c]

/-- A place of a text between quotation marks. -/
def escape : Option Char → List Char
  | none => ['\\', 'u', 'f', 'f', 'f', 'd']
  | some c => escapeChar c

def quote (t : Text) : List Char := '"' :: (t.flatMap escape ++ ['"'])

def Scalar.print : Scalar → List Char
  | .null => ['n', 'u', 'l', 'l']
  | .bool true => ['t', 'r', 'u', 'e']
  | .bool false => ['f', 'a', 'l', 's', 'e']
  | .number n => n.text
  | .string t => quote t

/-- Texts with commas between them. -/
def commas : List (List Char) → List Char
  | [] => []
  | text :: texts => text ++ texts.flatMap (',' :: ·)

mutual

def print : Value Scalar → List Char
  | .leaf s => s.print
  | .array items => '[' :: (commas (printItems items) ++ [']'])
  | .object members => '\x7b' :: (commas (printMembers members) ++ ['\x7d'])

def printItems : List (Value Scalar) → List (List Char)
  | [] => []
  | v :: items => print v :: printItems items

def printMembers : List (Text × Value Scalar) → List (List Char)
  | [] => []
  | (k, v) :: members => (quote k ++ ':' :: print v) :: printMembers members

end

/-! ### Reading -/

/-- A reader answers what it read and the rest of the input. -/
abbrev Reader (β : Type) := List Char → Option (β × List Char)

def isSpace (c : Char) : Bool := c == ' ' || c == '\t' || c == '\r' || c == '\n'

def skip (input : List Char) : List Char := input.dropWhile isSpace

def hexValue (c : Char) : Option Nat :=
  if c.isDigit then some (c.toNat - '0'.toNat)
  else if 'a' ≤ c ∧ c ≤ 'f' then some (c.toNat - 'a'.toNat + 10)
  else if 'A' ≤ c ∧ c ≤ 'F' then some (c.toNat - 'A'.toNat + 10)
  else none

/-- Four hexadecimal digits. -/
def codeUnit : Reader Nat
  | a :: b :: c :: d :: rest =>
    match hexValue a, hexValue b, hexValue c, hexValue d with
    | some a, some b, some c, some d =>
      some (((a * 16 + b) * 16 + c) * 16 + d, rest)
    | _, _, _, _ => none
  | _ => none

def replacement : Char := '\ufffd'

/-- The second half of a surrogate pair. -/
def lowSurrogate : Reader Nat
  | '\\' :: 'u' :: rest =>
    (codeUnit rest).bind fun (low, rest) =>
      if 0xdc00 ≤ low ∧ low < 0xe000 then some (low, rest) else none
  | _ => none

/-- An escaped code unit; a surrogate without its other half is replaced. -/
def unicode (input : List Char) : Option (Char × List Char) :=
  (codeUnit input).map fun (code, rest) =>
    if code < 0xd800 ∨ 0xe000 ≤ code then (Char.ofNat code, rest)
    else match lowSurrogate rest with
      | some (low, rest') =>
        if code < 0xdc00 then
          (Char.ofNat ((code - 0xd800) * 1024 + (low - 0xdc00) + 0x10000), rest')
        else (replacement, rest)
      | none => (replacement, rest)

def shortEscape : Char → Option Char
  | '"' => some '"'
  | '\\' => some '\\'
  | '/' => some '/'
  | 'b' => some '\x08'
  | 'f' => some '\x0c'
  | 'n' => some '\n'
  | 'r' => some '\r'
  | 't' => some '\t'
  | _ => none

/-- One place of a text between quotation marks. -/
def place : Reader Char
  | '\\' :: 'u' :: rest => unicode rest
  | '\\' :: c :: rest => (shortEscape c).map (·, rest)
  | ['\\'] | [] => none
  | c :: rest => if c.toNat < 32 then none else some (c, rest)

/-- What stands in front of the next quotation mark. -/
def places : Nat → Reader Text
  | 0, _ => none
  | _ + 1, '"' :: rest => some ([], rest)
  | n + 1, input =>
    (place input).bind fun (c, rest) =>
      (places n rest).map fun (t, rest) => (some c :: t, rest)

def quoted : Reader Text
  | '"' :: rest => places rest.length rest
  | _ => none

def number (input : List Char) : Option (Value Scalar × List Char) :=
  let text := input.takeWhile numberChar
  if h : isNumber text = true then
    some (.leaf (.number ⟨text, h⟩), input.dropWhile numberChar)
  else none

/-- Items up to the closing character, at least one. -/
def sequence {β : Type} (item : Reader β) (close : Char) : Nat → Reader (List β)
  | 0, _ => none
  | n + 1, input =>
    (item input).bind fun (x, rest) =>
      match skip rest with
      | [] => none
      | c :: rest =>
        if c = ',' then
          (sequence item close n rest).map fun (xs, rest) => (x :: xs, rest)
        else if c = close then some ([x], rest) else none

/-- What stands in front of the closing character. -/
def enclosed {β : Type} (item : Reader β) (close : Char) : Reader (List β) :=
  fun input => match skip input with
    | [] => none
    | c :: rest =>
      if c = close then some ([], rest)
      else sequence item close input.length input

def member (value : Reader (Value Scalar)) : Reader (Text × Value Scalar) :=
  fun input => (quoted (skip input)).bind fun (k, rest) =>
    match skip rest with
    | ':' :: rest => (value rest).map fun (v, rest) => ((k, v), rest)
    | _ => none

/-- A value, with a reader for what it contains unless it may not contain
anything. -/
def valueWith (inner : Option (Reader (Value Scalar))) :
    Reader (Value Scalar) := fun input => match skip input with
    | '"' :: rest =>
      (quoted ('"' :: rest)).map fun (t, rest) => (.leaf (.string t), rest)
    | '[' :: rest =>
      inner.bind fun value => (enclosed value ']' rest).map
        fun (items, rest) => (.array items, rest)
    | '\x7b' :: rest =>
      inner.bind fun value => (enclosed (member value) '\x7d' rest).map
        fun (members, rest) => (.object members, rest)
    | 'n' :: 'u' :: 'l' :: 'l' :: rest => some (.leaf .null, rest)
    | 't' :: 'r' :: 'u' :: 'e' :: rest => some (.leaf (.bool true), rest)
    | 'f' :: 'a' :: 'l' :: 's' :: 'e' :: rest =>
      some (.leaf (.bool false), rest)
    | rest => number rest

/-- A value with at most this many containers inside each other. -/
def value : Nat → Reader (Value Scalar)
  | 0 => valueWith none
  | d + 1 => valueWith (some (value d))

end Dawgs.Lib.Json

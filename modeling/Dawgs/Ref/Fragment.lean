import Dawgs.Lib.Json

/-!
# Fragments

A dump stores its nodes and relationships in fragments, files of compressed
JSON lines. `compressedJSONLinesWriter` encodes one record on each line;
`readCompressedJSONLinesFromReader` scans the lines and decodes each into a
record of its type.

`encoding/json` writes any Go value it supports: an integer with all its
digits, a floating-point number in the shortest form that reads back, a text
with escapes, a time or another value that marshals itself as a text. It
refuses what has no form, such as an infinity. Decoding into `any` gives
texts, truth values, `float64`, lists and maps, whatever was encoded. The two
conversions of `strconv` are a parameter with what is documented about them,
and so is the compression.

A Go map is the list of its members in the order in which they are written.
-/

namespace Dawgs.Ref.Fragment

open Lib.Json

/-- An integer that `float64` has: no more than 53 significant bits, and in
its range. -/
def representable (n : Int) : Bool :=
  n.natAbs.log2 < 1024 && n.natAbs % 2 ^ (n.natAbs.log2 + 1 - 53) == 0

section

variable (Float : Type)

/-- What is documented about `strconv.FormatFloat` with the smallest number
of digits and about `strconv.ParseFloat`, for the type of finite numbers. -/
structure Strconv where
  formatFloat : Float → Numeral
  parseFloat : Numeral → Float
  /-- The integer a number is, if it is one. -/
  integer : Float → Option Int
  parse_format : ∀ x, parseFloat (formatFloat x) = x
  parse_decimal : ∀ n, representable n = true → integer (parseFloat (decimal n)) = some n
  representable_integer : ∀ x n, integer x = some n → representable n = true

/-- What a property holds, lists and maps apart. -/
inductive Leaf where
  | null
  | bool (b : Bool)
  | int (n : Int)
  | float (x : Float)
  | text (t : Text)
  /-- A time, or another value that is written as a text. -/
  | textual (t : Text)
  /-- An infinity, or another value that is not written. -/
  | unsupported

/-- A value of a property. -/
abbrev Property := Value (Leaf Float)

abbrev Properties := List (Text × Property Float)

structure FragmentNode where
  id : Text
  kinds : Option (List Text)
  properties : Properties Float

structure FragmentEdge where
  startID : Text
  endID : Text
  kind : Text
  properties : Properties Float

end

variable {Float : Type} (S : Strconv Float)

/-! ### Writing -/

def marshalLeaf : Leaf Float → Option Scalar
  | .null => some .null
  | .bool b => some (.bool b)
  | .int n => some (.number (decimal n))
  | .float x => some (.number (S.formatFloat x))
  | .text t | .textual t => some (.string t)
  | .unsupported => none

mutual

/-- `json.Marshal` of a property. -/
def marshal : Property Float → Option (Value Scalar)
  | .leaf a => (marshalLeaf S a).map .leaf
  | .array items => (marshalItems items).map .array
  | .object members => (marshalMembers members).map .object

def marshalItems : List (Property Float) → Option (List (Value Scalar))
  | [] => some []
  | v :: items =>
    (marshal v).bind fun v => (marshalItems items).map (v :: ·)

def marshalMembers : Properties Float → Option (List (Text × Value Scalar))
  | [] => some []
  | (k, v) :: members =>
    (marshal v).bind fun v => (marshalMembers members).map ((k, v) :: ·)

end

/-- The name of a field in a tag. -/
def fieldName (s : String) : Text := s.toList.map some

def textField (s : String) (t : Text) : Text × Value Scalar := (fieldName s, .leaf (.string t))

/-- A slice without elements is written as such, a nil slice as null. -/
def kindsField : Option (List Text) → Text × Value Scalar
  | none => (fieldName "kinds", .leaf .null)
  | some kinds => (fieldName "kinds", .array (kinds.map fun t => .leaf (.string t)))

/-- The tag says `omitempty`. -/
def propertiesField (properties : Properties Float) : Option (List (Text × Value Scalar)) :=
  if properties.isEmpty then some []
  else (marshalMembers S properties).map fun members =>
    [(fieldName "properties", .object members)]

def encodeNode (node : FragmentNode Float) : Option (Value Scalar) :=
  (propertiesField S node.properties).map fun properties =>
    .object (textField "id" node.id :: kindsField node.kinds :: properties)

def encodeEdge (edge : FragmentEdge Float) : Option (Value Scalar) :=
  (propertiesField S edge.properties).map fun properties =>
    .object (textField "start_id" edge.startID ::
      textField "end_id" edge.endID :: textField "kind" edge.kind :: properties)

/-- What `writeCompressedJSONLines` compresses, if it accepts the records. -/
def writeLines {T : Type} (encode : T → Option (Value Scalar))
    (records : List T) : Option (List Char) := (records.mapM encode).map fun values =>
    values.flatMap fun v => print v ++ ['\n']

/-! ### Reading -/

def unmarshalScalar : Scalar → Leaf Float
  | .null => .null
  | .bool b => .bool b
  | .number n => .float (S.parseFloat n)
  | .string t => .text t

/-- A map after an assignment. -/
def put {β : Type} (k : Text) (v : β) : List (Text × β) → List (Text × β)
  | [] => [(k, v)]
  | (k', v') :: members =>
    if k = k' then (k, v) :: members else (k', v') :: put k v members

mutual

/-- Decoding into `any`. -/
def unmarshal : Value Scalar → Property Float
  | .leaf s => .leaf (unmarshalScalar S s)
  | .array items => .array (unmarshalItems items)
  | .object members => .object (unmarshalMembers members [])

def unmarshalItems : List (Value Scalar) → List (Property Float)
  | [] => []
  | v :: items => unmarshal v :: unmarshalItems items

/-- Decoding into a map that may have members. -/
def unmarshalMembers : List (Text × Value Scalar) → Properties Float → Properties Float
  | [], m => m
  | (k, v) :: members, m => unmarshalMembers members (put k (unmarshal v) m)

end

/-- Decoding into a string; null leaves it as it is. -/
def decodeText (t : Text) : Value Scalar → Option Text
  | .leaf .null => some t
  | .leaf (.string t) => some t
  | _ => none

def decodeKinds : Value Scalar → Option (Option (List Text))
  | .leaf .null => some none
  | .array items => (items.mapM (decodeText [])).map some
  | _ => none

def decodeProperties (m : Properties Float) : Value Scalar → Option (Properties Float)
  | .leaf .null => some []
  | .object members => some (unmarshalMembers S members m)
  | _ => none

/-- Fields are found without regard to case. -/
def foldName (t : Text) : Text := t.map (Option.map Char.toLower)

/-- One member of a node; an unknown field is refused. -/
def setNodeField (node : FragmentNode Float) (m : Text × Value Scalar) :
    Option (FragmentNode Float) :=
  if foldName m.1 = fieldName "id" then
    (decodeText node.id m.2).map fun id => { node with id }
  else if foldName m.1 = fieldName "kinds" then
    (decodeKinds m.2).map fun kinds => { node with kinds }
  else if foldName m.1 = fieldName "properties" then
    (decodeProperties S node.properties m.2).map fun properties =>
      { node with properties }
  else none

def setEdgeField (edge : FragmentEdge Float) (m : Text × Value Scalar) :
    Option (FragmentEdge Float) :=
  if foldName m.1 = fieldName "start_id" then
    (decodeText edge.startID m.2).map fun startID => { edge with startID }
  else if foldName m.1 = fieldName "end_id" then
    (decodeText edge.endID m.2).map fun endID => { edge with endID }
  else if foldName m.1 = fieldName "kind" then
    (decodeText edge.kind m.2).map fun kind => { edge with kind }
  else if foldName m.1 = fieldName "properties" then
    (decodeProperties S edge.properties m.2).map fun properties =>
      { edge with properties }
  else none

/-- Decoding into a structure. -/
def decodeInto {T : Type} (set : T → Text × Value Scalar → Option T)
    (zero : T) : Value Scalar → Option T
  | .leaf .null => some zero
  | .object members => members.foldlM set zero
  | _ => none

def decodeNode : Value Scalar → Option (FragmentNode Float) :=
  decodeInto (setNodeField S) ⟨[], none, []⟩

def decodeEdge : Value Scalar → Option (FragmentEdge Float) :=
  decodeInto (setEdgeField S) ⟨[], [], [], []⟩

def maxJSONLLineBytes : Nat := 10 * 1024 * 1024

/-- The limit of the scanner of `encoding/json`. -/
def maxNestingDepth : Nat := 10000

def byteLength (line : List Char) : Nat := (line.map Char.utf8Size).sum

/-- The lines of a text, with what there is of a line so far; the scanner
takes a carriage return off the end of a line. -/
def splitLines (line : List Char) : List Char → List (List Char)
  | [] => if line.isEmpty then [] else [dropReturn line]
  | c :: text =>
    if c = '\n' then dropReturn line :: splitLines [] text
    else splitLines (line ++ [c]) text
where
  dropReturn (line : List Char) : List Char :=
    if line.getLast? = some '\r' then line.dropLast else line

/-- One line. A line that is too long does not fit into the buffer of the
scanner either. -/
def readRecord {T : Type} (decode : Value Scalar → Option T) (line : List Char) : Option T :=
  if maxJSONLLineBytes < byteLength line then none
  else if line.all Char.isWhitespace then none
  else (value maxNestingDepth line).bind fun (v, rest) =>
    if (skip rest).isEmpty then decode v else none

/-- The records that are delivered, and whether the end was reached without
an error. -/
def readRecords {T : Type} (decode : Value Scalar → Option T) : List (List Char) → List T × Bool
  | [] => ([], true)
  | line :: lines =>
    match readRecord decode line with
    | none => ([], false)
    | some record =>
      let (records, ok) := readRecords decode lines
      (record :: records, ok)

/-- A codec whose decompression inverts its compression. -/
structure Compression (File : Type) where
  compress : List Char → File
  decompress : File → Option (List Char)
  decompress_compress : ∀ text, decompress (compress text) = some text

def writeCompressedJSONLines {T File : Type} (codec : Compression File)
    (encode : T → Option (Value Scalar)) (records : List T) : Option File :=
  (writeLines encode records).map codec.compress

def readCompressedJSONLines {T File : Type} (codec : Compression File)
    (decode : Value Scalar → Option T) (file : File) : List T × Bool :=
  match codec.decompress file with
  | none => ([], false)
  | some text => readRecords decode (splitLines [] text)

/-! ### What is delivered -/

/-- An integer is the same value as the number that is equal to it. -/
def sameLeaf : Leaf Float → Leaf Float → Prop
  | .int n, .float x => S.integer x = some n
  | a, b => a = b

mutual

def sameProperty : Property Float → Property Float → Prop
  | .leaf a, .leaf b => sameLeaf S a b
  | .array items, .array items' => sameItems items items'
  | .object members, .object members' => sameProperties members members'
  | _, _ => False

def sameItems : List (Property Float) → List (Property Float) → Prop
  | [], [] => True
  | v :: items, v' :: items' => sameProperty v v' ∧ sameItems items items'
  | _, _ => False

/-- The same names with the same values. -/
def sameProperties : Properties Float → Properties Float → Prop
  | [], [] => True
  | (k, v) :: members, (k', v') :: members' =>
    k = k' ∧ sameProperty v v' ∧ sameProperties members members'
  | _, _ => False

end

def sameNode (node node' : FragmentNode Float) : Prop :=
  node.id = node'.id ∧ node.kinds = node'.kinds ∧ sameProperties S node.properties node'.properties

def sameEdge (edge edge' : FragmentEdge Float) : Prop :=
  edge.startID = edge'.startID ∧ edge.endID = edge'.endID ∧
    edge.kind = edge'.kind ∧ sameProperties S edge.properties edge'.properties

/-- The same number of records in the same order, each the same. -/
def Delivers {T : Type} (same : T → T → Prop) (records : List T) (result : List T × Bool) : Prop :=
  result.2 = true ∧ List.Forall₂ same records result.1

end Dawgs.Ref.Fragment

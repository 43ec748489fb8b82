import Mathlib

/-!
# Segments in a file

A traversal is a chain of segments from its end back to its root. Written,
it is the node and edge identifiers along the chain, eight bytes each, the
least significant byte first. The root has no edge. A file of traversals
has a line break behind each of them, and is compressed.

`ReadEach` makes a reader of the compressed stream and then scans lines of
the file itself. The reader has taken the first bytes of the file into its
buffer, to read the header, so scanning goes on behind them. What the lines
hold is unmarshalled; a slice of eight bytes that reaches over the end of a
line takes what is behind the line in the scanner's buffer, and panics if
the buffer ends there.

The compression library is a parameter. That it gives back what it was
given is known of it, and that its files have the header it expects.
-/

namespace Dawgs.Ref

/-! ## Bytes -/

/-- The lowest bytes of a number, the least significant one first. -/
def lowBytes : Nat → Nat → List UInt8
  | 0, _ => []
  | count + 1, n => UInt8.ofNat n :: lowBytes count (n / 256)

/-- `binary.LittleEndian.PutUint64`. -/
def putUint64 (v : UInt64) : List UInt8 := lowBytes 8 v.toNat

def fromBytes : List UInt8 → Nat
  | [] => 0
  | b :: bs => b.toNat + 256 * fromBytes bs

/-- `binary.LittleEndian.Uint64`. -/
def uint64 (bytes : List UInt8) : UInt64 := UInt64.ofNat (fromBytes bytes)

/-! ## Segments -/

/-- `Segment`, of a traversal: the edge is that to the previous segment. -/
inductive Segment where
  | root (node : UInt64)
  | step (node edge : UInt64) (previous : Segment)
  deriving DecidableEq

/-- `MarshalSegment`. -/
def marshalSegment : Segment → List UInt8
  | .root node => putUint64 node
  | .step node edge previous =>
    putUint64 node ++ putUint64 edge ++ marshalSegment previous

/-- What the loop of `UnmarshalSegment` makes of the identifiers: a segment
that has got an edge has got a previous segment too, at first without a
node. -/
def segmentOf : List UInt64 → Segment
  | [] => .root 0
  | [node] => .root node
  | node :: edge :: ids => .step node edge (segmentOf ids)

/-- The slices of `UnmarshalSegment`, with what is behind the bytes. -/
def segmentIDs (segmentBytes behind : List UInt8) : Option (List UInt64) :=
  (List.range ((segmentBytes.length + 7) / 8)).mapM fun byteNum =>
    let word := ((segmentBytes ++ behind).drop (byteNum * 8)).take 8
    if word.length = 8 then some (uint64 word) else none

/-- `UnmarshalSegment`; nothing where it panics. -/
def unmarshalSegment (segmentBytes behind : List UInt8) : Option Segment :=
  (segmentIDs segmentBytes behind).map segmentOf

/-- `SerializedSegment`. -/
structure SerializedSegment where
  nodes : List UInt64
  edges : List UInt64

def Segment.setNode (node : UInt64) : Segment → Segment
  | .root _ => .root node
  | .step _ edge previous => .step node edge previous

/-- The loop of `ToSegment`, with the nodes that are left; nothing where
`s.Edges[nodeIndex-1]` is out of range. -/
def fillSegment (edges : List UInt64) : Nat → List UInt64 → Segment → Option Segment
  | _, [], cursor => some cursor
  | nodeIndex, node :: nodes, cursor =>
    let cursor := cursor.setNode node
    if nodeIndex < edges.length then do
      let edge ← if 0 < nodeIndex then edges[nodeIndex - 1]? else none
      fillSegment edges (nodeIndex + 1) nodes (.step 0 edge cursor)
    else fillSegment edges (nodeIndex + 1) nodes cursor

/-- `ToSegment`. -/
def SerializedSegment.toSegment (s : SerializedSegment) : Option Segment :=
  fillSegment s.edges 0 s.nodes (.root 0)

/-! ## Lines -/

/-- `dropCR`. -/
def dropCR (line : List UInt8) : List UInt8 :=
  if line.getLast? = some 13 then line.dropLast else line

/-- `bufio.MaxScanTokenSize`. -/
def maxScanTokenSize : Nat := 64 * 1024

/-- `bufio.Scanner` with `ScanLines`, with what it has of a line so far. It
stops at a line that does not fit into its buffer. -/
def scanLines (line : List UInt8) : List UInt8 → List (List UInt8)
  | [] => if line.isEmpty then [] else [dropCR line]
  | b :: bytes =>
    if b = 10 then dropCR line :: scanLines [] bytes
    else if line.length + 1 ≥ maxScanTokenSize then []
    else scanLines (line ++ [b]) bytes

/-! ## The file -/

/-- `compress/gzip`. -/
structure Gzip where
  compress : List UInt8 → List UInt8
  decompress : List UInt8 → Option (List UInt8)
  /-- Whether `NewReader` finds a header. -/
  header : List UInt8 → Bool
  decompress_compress : ∀ bytes, decompress (compress bytes) = some bytes
  header_compress : ∀ bytes, header (compress bytes) = true

/-- What `NewReader` takes of a file at once: the size of the buffer of a
`bufio.Reader`. -/
def defaultBufSize : Nat := 4096

/-- The segments and line breaks of `WriteZoneBFSTree`. -/
def segmentLines (segments : List Segment) : List UInt8 :=
  segments.flatMap fun segment => marshalSegment segment ++ [10]

/-- The file that `WriteZoneBFSTree` writes. -/
def segmentFile (gzip : Gzip) (segments : List Segment) : List UInt8 :=
  gzip.compress (segmentLines segments)

inductive ReadFailure (ε : Type) where
  | gzip
  | delegate (e : ε)
  | panic
  deriving DecidableEq

/-- The loop of `ReadEach`. `behind` is what the scanner's buffer has behind
each line. -/
def readLines {σ ε : Type} (delegate : σ → Segment → Except ε (σ × Bool)) :
    List (List UInt8 × List UInt8) → σ → Except (ReadFailure ε) σ
  | [], s => .ok s
  | (line, behind) :: lines, s =>
    match unmarshalSegment line behind with
    | none => .error .panic
    | some next =>
      match delegate s next with
      | .error e => .error (.delegate e)
      | .ok (s, shouldContinue) =>
        if shouldContinue then readLines delegate lines s else .ok s

/-- The lines that `ReadEach` scans, each with what is behind it. -/
def scannedLines (behind : Nat → List UInt8) (file : List UInt8) : List (List UInt8 × List UInt8) :=
  (scanLines [] (file.drop defaultBufSize)).mapIdx fun n line =>
    (line, behind n)

/-- `BFSTreeFile.ReadEach`. -/
def readEach {σ ε : Type} (gzip : Gzip) (behind : Nat → List UInt8) (file : List UInt8)
    (delegate : σ → Segment → Except ε (σ × Bool)) (s : σ) : Except (ReadFailure ε) σ :=
  if gzip.header file then readLines delegate (scannedLines behind file) s
  else .error .gzip

end Dawgs.Ref

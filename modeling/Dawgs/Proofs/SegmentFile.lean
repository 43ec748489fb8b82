import Dawgs.Lib.Lists
import Dawgs.Ref.SegmentFile

/-!
# What is read back of a file of segments

A segment by itself is read back from its bytes. A file of segments is
not. Nothing of what `ReadEach` scans has been decompressed, and the first
4096 bytes of the file are gone when it begins. So a file of up to 4096
bytes has no lines at all, and only a file without segments is read back
from it. Of a longer one the end is scanned as it stands in the file,
compressed. The segments come out if these bytes happen to spell their
identifiers, line by line. A node zero at the root may be missing in a
line, since that is what a new segment has.
-/

namespace Dawgs.Ref

open Lib List

/-! ## Words -/

theorem fromBytes_lowBytes {count n : Nat} (h : n < 256 ^ count) :
    fromBytes (lowBytes count n) = n := by
  induction count generalizing n with
  | zero =>
    obtain rfl : n = 0 := by omega
    rfl
  | succ count ih =>
    have hdiv : n / 256 < 256 ^ count := by
      rw [Nat.div_lt_iff_lt_mul (by omega)]
      rwa [Nat.pow_succ] at h
    rw [lowBytes, fromBytes, ih hdiv, UInt8.toNat_ofNat']
    omega

theorem length_lowBytes (count n : Nat) : (lowBytes count n).length = count := by
  induction count generalizing n with
  | zero => rfl
  | succ count ih => rw [lowBytes, length_cons, ih]

theorem length_putUint64 (v : UInt64) : (putUint64 v).length = 8 := length_lowBytes 8 v.toNat

theorem uint64_putUint64 (v : UInt64) : uint64 (putUint64 v) = v := by
  have hlt : v.toNat < 256 ^ 8 := v.toNat_lt
  rw [uint64, putUint64, fromBytes_lowBytes hlt, UInt64.ofNat_toNat]

/-! ## Segments -/

/-- The identifiers along a segment. -/
def Segment.ids : Segment → List UInt64
  | .root node => [node]
  | .step node edge previous => node :: edge :: previous.ids

theorem Segment.ids_ne_nil (segment : Segment) : segment.ids ≠ [] := by
  cases segment <;> simp [ids]

theorem marshalSegment_eq (segment : Segment) :
    marshalSegment segment = segment.ids.flatMap putUint64 := by
  induction segment with
  | root node => simp [marshalSegment, Segment.ids]
  | step node edge previous ih => simp [marshalSegment, Segment.ids, ih]

section

variable (ids : List UInt64)

theorem drop_words (n : Nat) :
    (ids.flatMap putUint64).drop (n * 8) = (ids.drop n).flatMap putUint64 := by
  induction ids generalizing n with
  | nil => simp
  | cons id ids ih =>
    cases n with
    | zero => simp
    | succ n =>
      rw [flatMap_cons, drop_succ_cons, ← ih, drop_append, length_putUint64,
        drop_eq_nil_of_le (by rw [length_putUint64]; omega), nil_append]
      congr 1
      omega

theorem length_words : (ids.flatMap putUint64).length = ids.length * 8 := by
  induction ids with
  | nil => rfl
  | cons id ids ih =>
    rw [flatMap_cons, length_append, length_putUint64, length_cons]
    omega

/-- Words are read back, whatever is behind them. -/
theorem segmentIDs_words (behind : List UInt8) :
    segmentIDs (ids.flatMap putUint64) behind = some ids := by
  have hcount : ((ids.flatMap putUint64).length + 7) / 8 = ids.length := by
    rw [length_words]
    omega
  have hword : ∀ n ∈ List.range ids.length,
      (let word := ((ids.flatMap putUint64 ++ behind).drop (n * 8)).take 8
       if word.length = 8 then some (uint64 word) else none) = some (ids.getD n 0) := by
    intro n hn
    rw [mem_range] at hn
    have hle : n * 8 ≤ (ids.flatMap putUint64).length := by
      omega
    have htake : ((ids.flatMap putUint64 ++ behind).drop (n * 8)).take 8 = putUint64 ids[n] := by
      rw [drop_append_of_le_length hle, drop_words, drop_eq_getElem_cons hn]
      exact take_left' (length_putUint64 _)
    simp only [htake, length_putUint64, uint64_putUint64]
    simp [hn]
  rw [segmentIDs, hcount, mapM_eq_some_map hword, Option.some.injEq]
  refine ext_getElem (by simp) fun n hn hn' => ?_
  simp [hn']

/-- Which identifiers make a segment. -/
theorem segmentOf_eq_iff (segment : Segment) :
    segmentOf ids = segment ↔ ids = segment.ids ∨ ids ++ [0] = segment.ids := by
  induction segment generalizing ids with
  | root node =>
    match ids with
    | [] => simp [segmentOf, Segment.ids]
    | [id] => simp [segmentOf, Segment.ids]
    | id :: edge :: ids => simp [segmentOf, Segment.ids]
  | step node edge previous ih =>
    match ids with
    | [] => simp [segmentOf, Segment.ids]
    | [id] => simp [segmentOf, Segment.ids, (Segment.ids_ne_nil previous).symm]
    | id :: edge' :: ids => simp [segmentOf, Segment.ids, ih, and_or_left]

end

/-- A segment by itself is read back. -/
theorem unmarshalSegment_marshalSegment (segment : Segment) (behind : List UInt8) :
    unmarshalSegment (marshalSegment segment) behind = some segment := by
  rw [unmarshalSegment, marshalSegment_eq, segmentIDs_words, Option.map_some,
    (segmentOf_eq_iff _ _).mpr (.inl rfl)]

section

variable (node : UInt64) (steps : List (UInt64 × UInt64))

/-- The chain from a root over edges and the nodes they lead to. -/
def Segment.chain : Segment :=
  steps.foldl (fun previous s => .step s.2 s.1 previous) (.root node)

/-- The chain with one node more than edges, serialized. -/
def serialized : SerializedSegment :=
  ⟨node :: steps.map Prod.snd, steps.map Prod.fst⟩

/-- At the first node `ToSegment` looks for the edge before the first one,
if there is any edge. -/
theorem toSegment_eq_some_iff :
    (serialized node steps).toSegment = some (Segment.chain node steps) ↔ steps = [] := by
  cases steps with
  | nil => exact iff_of_true rfl rfl
  | cons s steps =>
    refine iff_of_false (fun h => ?_) (cons_ne_nil _ _)
    simp [serialized, SerializedSegment.toSegment, fillSegment] at h

end

/-- Segments are read back from their bytes, and from their lists exactly if
these have no edge. -/
theorem segments_readBack_iff (segment : Segment) (behind : List UInt8)
    (node : UInt64) (steps : List (UInt64 × UInt64)) :
    unmarshalSegment (marshalSegment segment) behind = some segment ∧
        (serialized node steps).toSegment = some (Segment.chain node steps) ↔ steps = [] := by
  rw [and_iff_right (unmarshalSegment_marshalSegment segment behind)]
  exact toSegment_eq_some_iff node steps

/-- Two nodes and the edge between them. -/
theorem toSegment_one_edge : (serialized 1 [(11, 2)]).toSegment ≠ some (.step 2 11 (.root 1)) := by
  decide

/-! ## Files -/

section

variable (line : List UInt8 × List UInt8) (segment : Segment)

/-- A line is read as a segment. -/
def Spells : Prop :=
  ∃ ids, segmentIDs line.1 line.2 = some ids ∧ (ids = segment.ids ∨ ids ++ [0] = segment.ids)

theorem unmarshalSegment_eq_some_iff :
    unmarshalSegment line.1 line.2 = some segment ↔ Spells line segment := by
  rw [unmarshalSegment, Option.map_eq_some_iff]
  refine exists_congr fun ids => and_congr_right fun _ => ?_
  exact segmentOf_eq_iff ids segment

end

/-- A delegate that keeps what it gets. -/
def collect (segments : List Segment) (next : Segment) :
    Except Unit (List Segment × Bool) := .ok (segments ++ [next], true)

theorem readLines_collect (lines : List (List UInt8 × List UInt8))
    (before : List Segment) : readLines collect lines before =
      match lines.mapM fun line => unmarshalSegment line.1 line.2 with
      | none => .error .panic
      | some segments => .ok (before ++ segments) := by
  induction lines generalizing before with
  | nil => simp [readLines]
  | cons line lines ih =>
    rw [readLines, mapM_cons]
    cases unmarshalSegment line.1 line.2 with
    | none => rfl
    | some next =>
      show readLines collect lines (before ++ [next]) = _
      rw [ih]
      cases lines.mapM fun line => unmarshalSegment line.1 line.2 with
      | none => rfl
      | some segments => exact congrArg _ (append_assoc ..)

theorem readEach_collect_iff (gzip : Gzip) (behind : Nat → List UInt8) {file : List UInt8}
    (hfile : gzip.header file = true) (segments : List Segment) :
    readEach gzip behind file collect [] = .ok segments ↔
      List.Forall₂ Spells (scannedLines behind file) segments := by
  have hmap : ∀ lines : List (List UInt8 × List UInt8),
      (lines.mapM fun line => unmarshalSegment line.1 line.2) =
          some segments ↔ List.Forall₂ Spells lines segments := by
    intro lines
    simp only [mapM_eq_some_iff, unmarshalSegment_eq_some_iff]
  rw [readEach, if_pos hfile, readLines_collect, ← hmap]
  cases (scannedLines behind file).mapM fun line =>
      unmarshalSegment line.1 line.2 with
  | none => exact iff_of_false nofun nofun
  | some found => simp

/-- Nothing is scanned of a short file. -/
theorem scannedLines_short (behind : Nat → List UInt8) {file : List UInt8}
    (h : file.length ≤ defaultBufSize) : scannedLines behind file = [] := by
  rw [scannedLines, drop_eq_nil_of_le h]
  rfl

/-- The segments written to a file are delivered exactly if the lines of the
compressed bytes from the 4097th on spell them. For a file that is not
longer than 4096 bytes that is exactly if there are none. -/
theorem readEach_segmentFile_iff (gzip : Gzip) (behind : Nat → List UInt8)
    (segments : List Segment) :
    (readEach gzip behind (segmentFile gzip segments) collect [] =
        .ok segments ↔ List.Forall₂ Spells
        (scannedLines behind (segmentFile gzip segments)) segments) ∧
    ((segmentFile gzip segments).length ≤ defaultBufSize →
      (readEach gzip behind (segmentFile gzip segments) collect [] =
        .ok segments ↔ segments = [])) := by
  have hheader : gzip.header (segmentFile gzip segments) = true := gzip.header_compress _
  have hread := readEach_collect_iff gzip behind hheader segments
  refine ⟨hread, fun hshort => hread.trans ?_⟩
  rw [scannedLines_short behind hshort, forall₂_nil_left_iff]

/-- A library that stores bytes as they are, behind the ten bytes of a
header. -/
def storing : Gzip where
  compress bytes := [31, 139, 8, 0, 0, 0, 0, 0, 0, 255] ++ bytes
  decompress file := some (file.drop 10)
  header file := file.take 3 == [31, 139, 8]
  decompress_compress _ := rfl
  header_compress _ := rfl

/-- One traversal over one edge is not delivered, though it is in the
file. -/
theorem readEach_loses :
    readEach storing (fun _ => []) (segmentFile storing
        [.step 2 11 (.root 1)]) collect [] = .ok [] ∧
      storing.decompress (segmentFile storing [.step 2 11 (.root 1)]) =
        some (segmentLines [.step 2 11 (.root 1)]) := by
  decide +kernel

end Dawgs.Ref

import Dawgs.Lib.JsonRoundTrip
import Dawgs.Lib.Lists
import Dawgs.Ref.Fragment

/-!
# Which records a fragment gives back

The writer and the reader of a fragment are two codecs. The writer puts any
value it supports on a line of any length. The reader has a limit for the
line and one for the nesting, decodes every number as `float64` and knows
nothing of times. So a record comes back exactly if its line fits
(`fitsLine`) and it holds only what comes back (`nodeContent`,
`edgeContent`): texts whose bytes are characters, integers with at most 53
significant bits, no value that was written as a text without being one.

The argument has three layers. The lines of the file are the printed
records, and reading one gives the repaired value that was printed
(`readRecord_print`). A property is decoded to the same value exactly if it
is fine (`same_unmarshal`, over the tree); a map needs that no name occurs
twice, since repaired names may fall together. The fields of the records are
then read one by one.
-/

namespace Dawgs.Ref.Fragment

open Lib Json List Option Nat
open Prod (fst snd)

variable {Float : Type} (S : Strconv Float)

/-! ### Lines -/

theorem splitLines_append {line : List Char} (h : '\n' ∉ line) (start text : List Char) :
    splitLines start (line ++ '\n' :: text) =
      splitLines.dropReturn (start ++ line) :: splitLines [] text := by
  induction line generalizing start with
  | nil => rw [append_nil, nil_append, splitLines, if_pos rfl]
  | cons c line ih =>
    rw [mem_cons, not_or] at h
    rw [cons_append, splitLines, if_neg (Ne.symm h.1), ih h.2, append_assoc, singleton_append]

theorem dropReturn_object (members : List (Text × Value Scalar)) :
    splitLines.dropReturn (print (.object members)) = print (.object members) := by
  have hlast : (print (.object members)).getLast? = some '\x7d' := by
    rw [print, ← cons_append, List.getLast?_append_of_ne_nil] <;> simp
  rw [splitLines.dropReturn, hlast, if_neg (by decide)]

/-- A line that is not too long, of a value that is not nested too deep. -/
def fits (v : Value Scalar) : Bool :=
  byteLength (print v) ≤ maxJSONLLineBytes && v.depth ≤ maxNestingDepth

theorem readRecord_print {T : Type} (decode : Value Scalar → Option T)
    (members : List (Text × Value Scalar)) : readRecord decode (print (.object members)) =
      if fits (.object members) then decode (Value.object members).repair
      else none := by
  have hblank : (print (.object members)).all Char.isWhitespace = false := rfl
  have hends : Ends [] := nofun
  have hvalue := value_print maxNestingDepth (.object members) hends
  rw [append_nil] at hvalue
  rw [readRecord, hvalue, hblank, limited]
  simp only [fits, Bool.and_eq_true, decide_eq_true_eq]
  by_cases hlong : maxJSONLLineBytes < byteLength (print (.object members))
  · rw [if_pos hlong, if_neg fun h => absurd h.1 (Nat.not_le_of_lt hlong)]
  · rw [if_neg hlong, if_neg (by decide)]
    by_cases hdepth : (Value.object members).depth ≤ maxNestingDepth
    · rw [if_pos hdepth, if_pos ⟨Nat.le_of_not_lt hlong, hdepth⟩]
      rfl
    · rw [if_neg hdepth, if_neg fun h => hdepth h.2]
      rfl

section records

variable {T File : Type} {encode : T → Option (Value Scalar)} {decode : Value Scalar → Option T}
  {same : T → T → Prop} {content : T → Prop}

/-- What decoding makes of the value that a record is encoded as. -/
def Decodes (encode : T → Option (Value Scalar))
    (decode : Value Scalar → Option T) (same : T → T → Prop) (content : T → Prop) (r : T) : Prop :=
  ∀ v, encode r = some v → ∃ members, v = .object members ∧
    ∃ r', decode v.repair = some r' ∧ (same r r' ↔ content r)

theorem delivers_readRecords {records : List T} {values : List (Value Scalar)}
    (h : List.Forall₂ (fun r v => encode r = some v) records values)
    (hrecords : ∀ r ∈ records, Decodes encode decode same content r) :
    Delivers same records (readRecords decode (splitLines []
        (values.flatMap fun v => print v ++ ['\n']))) ↔
      ∀ r ∈ records, content r ∧ ∃ v, encode r = some v ∧ fits v = true := by
  induction h with
  | nil => simp [Delivers, splitLines, readRecords]
  | @cons r v records values hv _ ih =>
    obtain ⟨hr, hrecords⟩ := forall_mem_cons.mp hrecords
    obtain ⟨members, rfl, r', hdecode, hsame⟩ := hr v hv
    rw [flatMap_cons, append_assoc, singleton_append,
      splitLines_append (newline_not_mem_print _), nil_append,
      dropReturn_object, readRecords, readRecord_print, hdecode, forall_mem_cons, ← ih hrecords, hv]
    by_cases hfits : fits (.object members) = true
    · rw [if_pos hfits]
      simp only [Delivers, forall₂_cons, hsame, Option.some.injEq, exists_eq_left', hfits, and_true]
      exact and_left_comm
    · rw [if_neg hfits]
      simp [Delivers, hfits]

theorem delivers_iff (codec : Compression File) {records : List T} {file : File}
    (h : writeCompressedJSONLines codec encode records = some file)
    (hrecords : ∀ r ∈ records, Decodes encode decode same content r) :
    Delivers same records (readCompressedJSONLines codec decode file) ↔
      ∀ r ∈ records, content r ∧ ∃ v, encode r = some v ∧ fits v = true := by
  obtain ⟨text, htext, rfl⟩ := map_eq_some_iff.mp h
  obtain ⟨values, hvalues, rfl⟩ := map_eq_some_iff.mp htext
  rw [readCompressedJSONLines, codec.decompress_compress]
  exact delivers_readRecords (mapM_eq_some_iff.mp hvalues) hrecords

end records

/-! ### Properties -/

/-- Every place of a text holds a character. -/
def validText (t : Text) : Bool := t.all Option.isSome

theorem map_eq_self {β : Type} {f : β → β} {l : List β} : l.map f = l ↔ ∀ b ∈ l, f b = b := by
  simpa using @map_inj_left _ _ l f id

theorem repair_eq_iff (t : Text) : t.repair = t ↔ validText t = true := by
  rw [validText, List.all_eq_true, Text.repair, map_eq_self]
  refine forall₂_congr fun u _ => ?_
  cases u <;> simp

theorem validText_repair (t : Text) : validText t.repair = true := by
  rw [validText, Text.repair, List.all_map, List.all_eq_true]
  exact fun _ _ => rfl

/-- What comes back as the same value. -/
def fineLeaf : Leaf Float → Bool
  | .int n => representable n
  | .text t => validText t
  | .textual _ | .unsupported => false
  | _ => true

mutual

def fine : Property Float → Bool
  | .leaf a => fineLeaf a
  | .array items => fineItems items
  | .object members => fineMembers members

def fineItems : List (Property Float) → Bool
  | [] => true
  | v :: items => fine v && fineItems items

def fineMembers : Properties Float → Bool
  | [] => true
  | (k, v) :: members => validText k && fine v && fineMembers members

end

mutual

/-- No map has a name twice. -/
def distinct : Property Float → Prop
  | .leaf _ => True
  | .array items => distinctItems items
  | .object members => (members.map fst).Nodup ∧ distinctMembers members

def distinctItems : List (Property Float) → Prop
  | [] => True
  | v :: items => distinct v ∧ distinctItems items

def distinctMembers : Properties Float → Prop
  | [] => True
  | (_, v) :: members => distinct v ∧ distinctMembers members

end

theorem same_unmarshal_leaf {a : Leaf Float} {s : Scalar} (h : marshalLeaf S a = some s) :
    sameLeaf S a (unmarshalScalar S s.repair) ↔ fineLeaf a = true := by
  cases a with
  | null | bool b => cases h; simp [sameLeaf, unmarshalScalar, fineLeaf, Scalar.repair]
  | int n =>
    cases h
    exact ⟨S.representable_integer _ n, S.parse_decimal n⟩
  | float x =>
    cases h
    simp [sameLeaf, unmarshalScalar, fineLeaf, Scalar.repair, S.parse_format]
  | text t =>
    cases h
    show Leaf.text t = .text t.repair ↔ _
    rw [Leaf.text.injEq, eq_comm]
    exact repair_eq_iff t
  | textual t =>
    cases h
    exact ⟨nofun, nofun⟩
  | unsupported => cases h

/-- What a member is decoded to. -/
def received (m : Text × Value Scalar) : Text × Property Float := (m.1, unmarshal S m.2.repair)

/-- New names are appended. -/
theorem put_of_not_mem {β : Type} {k : Text} (v : β) {m : List (Text × β)} (h : k ∉ m.map fst) :
    put k v m = m ++ [(k, v)] := by
  induction m with
  | nil => rfl
  | cons p m ih =>
    rw [map_cons, mem_cons, not_or] at h
    rw [put, if_neg h.1, ih h.2, cons_append]

theorem fst_put {β : Type} (k : Text) (v : β) (m : List (Text × β)) :
    ∀ x ∈ (put k v m).map fst, x = k ∨ x ∈ m.map fst := by
  induction m with
  | nil => simp [put]
  | cons p m ih =>
    intro x hx
    unfold put at hx
    split at hx
    next =>
      rw [map_cons, mem_cons] at hx
      exact hx.imp_right fun h => mem_cons_of_mem _ h
    next =>
      rw [map_cons, mem_cons] at hx
      rcases hx with rfl | hx
      · exact .inr mem_cons_self
      · exact (ih x hx).imp_right fun h => mem_cons_of_mem _ h

variable {m : Properties Float} {members : List (Text × Value Scalar)}

theorem unmarshalMembers_of_nodup (h : (m.map fst ++ members.map fst).Nodup) :
    unmarshalMembers S members m = m ++ members.map fun p => (p.1, unmarshal S p.2) := by
  induction members generalizing m with
  | nil => rw [unmarshalMembers, map_nil, append_nil]
  | cons p members ih =>
    have hnew : p.1 ∉ m.map fst := by
      intro hmem
      exact (nodup_append.mp h).2.2 p.1 hmem p.1 mem_cons_self rfl
    rw [unmarshalMembers, put_of_not_mem _ hnew, ih, append_assoc, map_cons, singleton_append]
    rwa [map_append, append_assoc]

/-- The names of a decoded map have been read from a text. -/
theorem fst_unmarshalMembers (members : List (Text × Value Scalar))
    (m : Properties Float) : ∀ x ∈ (unmarshalMembers S members m).map fst,
      x ∈ members.map fst ∨ x ∈ m.map fst := by
  induction members generalizing m with
  | nil => exact fun x hx => .inr hx
  | cons p members ih =>
    intro x hx
    rcases ih _ x hx with h | h
    · exact .inl (mem_cons_of_mem _ h)
    · rcases fst_put _ _ _ x h with rfl | h
      · exact .inl mem_cons_self
      · exact .inr h

theorem fst_eq_of_same {m' : Properties Float}
    (h : sameProperties S m m') : m.map fst = m'.map fst := by
  induction m generalizing m' with
  | nil =>
    cases m' with
    | nil => rfl
    | cons p m' => exact h.elim
  | cons p m ih =>
    cases m' with
    | nil => exact h.elim
    | cons p' m' =>
      obtain ⟨hk, -, hm⟩ := h
      rw [map_cons, map_cons, hk, ih hm]

theorem fst_marshalMembers (h : marshalMembers S m = some members) :
    members.map fst = m.map fst := by
  induction m generalizing members with
  | nil => cases h; rfl
  | cons p m ih =>
    obtain ⟨v, -, h⟩ := bind_eq_some_iff.mp h
    obtain ⟨members', h', rfl⟩ := map_eq_some_iff.mp h
    rw [map_cons, map_cons, ih h']

theorem fineMembers_iff (m : Properties Float) :
    fineMembers m = true ↔ (∀ p ∈ m, validText p.1 = true) ∧ ∀ p ∈ m, fine p.2 = true := by
  induction m with
  | nil => simp [fineMembers]
  | cons p m ih =>
    rw [fineMembers, Bool.and_eq_true, Bool.and_eq_true, ih, forall_mem_cons, forall_mem_cons]
    exact and_and_and_comm

/-- A map whose values come back, each alone: it comes back exactly if the
names are valid and the values are fine. -/
theorem same_unmarshalMembers (h : marshalMembers S m = some members) (hnodup : (m.map fst).Nodup)
    (hvalues : sameProperties S m (members.map (received S)) ↔ ∀ p ∈ m, fine p.2 = true) :
    sameProperties S m (unmarshalMembers S (repairMembers members) []) ↔ fineMembers m = true := by
  have hfst := fst_marshalMembers S h
  rw [fineMembers_iff, ← hvalues]
  by_cases hvalid : ∀ p ∈ m, validText p.1 = true
  · have hrepair : ∀ p ∈ members, p.1.repair = p.1 := by
      intro p hp
      have hmem : p.1 ∈ m.map fst := hfst ▸ mem_map_of_mem hp
      obtain ⟨q, hq, hpq⟩ := mem_map.mp hmem
      exact (repair_eq_iff p.1).mpr (hpq ▸ hvalid q hq)
    have hnames : (repairMembers members).map fst = m.map fst := by
      rw [repairMembers_eq, List.map_map, ← hfst]
      exact map_congr_left hrepair
    have hreceived : unmarshalMembers S (repairMembers members) [] = members.map (received S) := by
      rw [unmarshalMembers_of_nodup S (by rwa [hnames]), repairMembers_eq, List.map_map]
      refine map_congr_left fun p hp => ?_
      show (p.1.repair, _) = (p.1, _)
      rw [hrepair p hp]
      rfl
    rw [hreceived]
    exact (and_iff_right hvalid).symm
  · refine iff_of_false (fun hsame => hvalid fun p hp => ?_) fun hv => hvalid hv.1
    have hmem : p.1 ∈ m.map fst := mem_map_of_mem hp
    rw [fst_eq_of_same S hsame] at hmem
    rcases fst_unmarshalMembers S _ _ _ hmem with hmem | hmem
    · rw [repairMembers_eq, List.map_map] at hmem
      obtain ⟨q, -, hq⟩ := mem_map.mp hmem
      rw [← hq]
      exact validText_repair q.1
    · cases hmem

mutual

/-- A property comes back as the same value exactly if it is fine. -/
theorem same_unmarshal : ∀ {v : Property Float} {w : Value Scalar},
    marshal S v = some w → distinct v → (sameProperty S v (unmarshal S w.repair) ↔ fine v = true)
  | .leaf a, w, h, _ => by
    obtain ⟨s, hs, rfl⟩ := map_eq_some_iff.mp h
    exact same_unmarshal_leaf S hs
  | .array items, w, h, hd => by
    obtain ⟨ws, hws, rfl⟩ := map_eq_some_iff.mp h
    exact same_unmarshalItems hws hd
  | .object members, w, h, hd => by
    obtain ⟨ws, hws, rfl⟩ := map_eq_some_iff.mp h
    exact same_unmarshalMembers S hws hd.1 (same_received hws hd.2)

theorem same_unmarshalItems : ∀ {items : List (Property Float)}
    {ws : List (Value Scalar)}, marshalItems S items = some ws →
    distinctItems items →
    (sameItems S items (unmarshalItems S (repairItems ws)) ↔ fineItems items = true)
  | [], ws, h, _ => by
    cases h
    exact iff_of_true trivial rfl
  | v :: items, ws, h, hd => by
    obtain ⟨w, hw, h⟩ := bind_eq_some_iff.mp h
    obtain ⟨ws', hws, rfl⟩ := map_eq_some_iff.mp h
    rw [fineItems, Bool.and_eq_true, ← same_unmarshal hw hd.1, ← same_unmarshalItems hws hd.2]
    rfl

theorem same_received : ∀ {m : Properties Float}
    {ws : List (Text × Value Scalar)}, marshalMembers S m = some ws →
    distinctMembers m →
    (sameProperties S m (ws.map (received S)) ↔ ∀ p ∈ m, fine p.2 = true)
  | [], ws, h, _ => by
    cases h
    exact iff_of_true trivial nofun
  | (k, v) :: m, ws, h, hd => by
    obtain ⟨w, hw, h⟩ := bind_eq_some_iff.mp h
    obtain ⟨ws', hws, rfl⟩ := map_eq_some_iff.mp h
    rw [forall_mem_cons, ← same_unmarshal hw hd.1, ← same_received hws hd.2]
    exact and_iff_right rfl

end

/-- No map of a record has a name twice. -/
def distinctProperties (m : Properties Float) : Prop := (m.map fst).Nodup ∧ distinctMembers m

/-! ### Records -/

/-- What decoding finds in the field of the properties, or without it. -/
theorem same_propertiesField {fields : List (Text × Value Scalar)}
    (h : propertiesField S m = some fields) (hd : distinctProperties m) :
    ∃ m' : Properties Float, (sameProperties S m m' ↔ fineMembers m = true) ∧
      ((fields = [] ∧ m' = []) ∨ ∃ members, fields = [(fieldName "properties", .object members)] ∧
        unmarshalMembers S (repairMembers members) [] = m') := by
  unfold propertiesField at h
  split at h
  next hempty =>
    cases h
    rw [isEmpty_iff.mp hempty]
    exact ⟨[], iff_of_true trivial rfl, .inl ⟨rfl, rfl⟩⟩
  next =>
    obtain ⟨members, hmembers, rfl⟩ := map_eq_some_iff.mp h
    exact ⟨_, same_unmarshalMembers S hmembers hd.1
      (same_received S hmembers hd.2), .inr ⟨members, rfl, rfl⟩⟩

/-- What of a node comes back. -/
def nodeContent (node : FragmentNode Float) : Bool :=
  validText node.id && (node.kinds.getD []).all validText && fineMembers node.properties

def edgeContent (edge : FragmentEdge Float) : Bool :=
  validText edge.startID && validText edge.endID && validText edge.kind &&
    fineMembers edge.properties

theorem decodes_edge {edge : FragmentEdge Float} (hd : distinctProperties edge.properties) :
    Decodes (encodeEdge S) (decodeEdge S) (sameEdge S) (fun e => edgeContent e = true) edge := by
  intro v hv
  obtain ⟨fields, hfields, rfl⟩ := map_eq_some_iff.mp hv
  obtain ⟨m', hsame, hm⟩ := same_propertiesField S hfields hd
  refine ⟨_, rfl, ⟨edge.startID.repair, edge.endID.repair, edge.kind.repair, m'⟩, ?_, ?_⟩
  · rcases hm with ⟨rfl, rfl⟩ | ⟨members, rfl, rfl⟩
    · rfl
    · rfl
  · show sameEdge S edge _ ↔ edgeContent edge = true
    rw [edgeContent, sameEdge, Bool.and_eq_true, Bool.and_eq_true,
      Bool.and_eq_true, ← hsame, ← repair_eq_iff, ← repair_eq_iff,
      ← repair_eq_iff, and_assoc, and_assoc, eq_comm, eq_comm (a := edge.endID),
      eq_comm (a := edge.kind)]

theorem decodeKinds_repair (kinds : Option (List Text)) :
    decodeKinds (kindsField kinds).2.repair = some (kinds.map (·.map Text.repair)) := by
  cases kinds with
  | none => rfl
  | some kinds =>
    have htexts : (repairItems (kinds.map fun t =>
        .leaf (.string t))).mapM (decodeText []) =
        some (kinds.map Text.repair) := by
      rw [repairItems_eq, List.map_map, List.mapM_map]
      exact mapM_eq_some_map fun _ _ => rfl
    show ((repairItems _).mapM (decodeText [])).map some = _
    rw [htexts]
    rfl

theorem setNodeField_kinds (node : FragmentNode Float) (kinds : Option (List Text)) :
    setNodeField S node (repairMember (kindsField kinds)) =
      some { node with kinds := kinds.map (·.map Text.repair) } := by
  have hkey : foldName (repairMember (kindsField kinds)).1 = fieldName "kinds" := by
    cases kinds <;> rfl
  rw [setNodeField, hkey]
  show (decodeKinds (kindsField kinds).2.repair).map _ = _
  rw [decodeKinds_repair]
  rfl

theorem map_repair_eq_iff (kinds : Option (List Text)) :
    kinds.map (·.map Text.repair) = kinds ↔ (kinds.getD []).all validText = true := by
  cases kinds with
  | none => exact iff_of_true rfl rfl
  | some kinds =>
    rw [map_some, some_inj, List.all_eq_true]
    simp only [← repair_eq_iff]
    exact map_eq_self

theorem decodes_node {node : FragmentNode Float} (hd : distinctProperties node.properties) :
    Decodes (encodeNode S) (decodeNode S) (sameNode S) (fun n => nodeContent n = true) node := by
  intro v hv
  obtain ⟨fields, hfields, rfl⟩ := map_eq_some_iff.mp hv
  obtain ⟨m', hsame, hm⟩ := same_propertiesField S hfields hd
  have hkinds := setNodeField_kinds S ⟨node.id.repair, none, []⟩ node.kinds
  refine ⟨_, rfl, ⟨node.id.repair, node.kinds.map (·.map Text.repair), m'⟩, ?_, ?_⟩
  · show (setNodeField S ⟨node.id.repair, none, []⟩
        (repairMember (kindsField node.kinds))).bind _ = _
    rw [hkinds]
    rcases hm with ⟨rfl, rfl⟩ | ⟨members, rfl, rfl⟩ <;> rfl
  · show sameNode S node _ ↔ nodeContent node = true
    rw [nodeContent, sameNode, Bool.and_eq_true, Bool.and_eq_true, ← hsame,
      ← repair_eq_iff, ← map_repair_eq_iff, and_assoc, eq_comm, eq_comm (a := node.kinds)]

/-- The line of a record is not too long and not nested too deep. -/
def fitsLine {T : Type} (encode : T → Option (Value Scalar)) (r : T) : Prop :=
  ∃ v, encode r = some v ∧ fits v = true

variable {File : Type}

/-- A fragment of nodes, and one of relationships, gives back its records
exactly if each fits on its line and holds only what comes back. -/
theorem delivers_fragment_iff (codec : Compression File) {file : File} :
    (∀ {nodes : List (FragmentNode Float)}, (∀ node ∈ nodes, distinctProperties node.properties) →
      writeCompressedJSONLines codec (encodeNode S) nodes = some file →
      (Delivers (sameNode S) nodes (readCompressedJSONLines codec (decodeNode S) file) ↔
        ∀ node ∈ nodes, nodeContent node = true ∧ fitsLine (encodeNode S) node)) ∧
    ∀ {edges : List (FragmentEdge Float)}, (∀ edge ∈ edges, distinctProperties edge.properties) →
      writeCompressedJSONLines codec (encodeEdge S) edges = some file →
      (Delivers (sameEdge S) edges (readCompressedJSONLines codec (decodeEdge S) file) ↔
        ∀ edge ∈ edges, edgeContent edge = true ∧ fitsLine (encodeEdge S) edge) :=
  ⟨fun hd h => delivers_iff codec h fun node hn => decodes_node S (hd node hn),
    fun hd h => delivers_iff codec h fun edge he => decodes_edge S (hd edge he)⟩

/-- The integer that digits stand for. -/
def readInt : List Char → Int
  | '-' :: text => -(ofDigitChars 10 text 0 : Nat)
  | text => (ofDigitChars 10 text 0 : Nat)

theorem readInt_decimalText (n : Int) : readInt (decimalText n) = n := by
  have hdigits : ofDigitChars 10 (toDigits 10 n.natAbs) 0 = n.natAbs :=
    ofDigitChars_toDigits (by decide) (by decide)
  unfold decimalText
  split
  next h =>
    rw [readInt]
    omega
  next h =>
    unfold readInt
    split
    next text heq =>
      have hmem : '-' ∈ toDigits 10 n.natAbs := by
        rw [heq]
        exact mem_cons_self
      cases isDigit_of_mem_toDigits (by decide) (by decide) hmem
    next =>
      omega

/-- The conversions for the integers among the numbers. -/
def integers : Strconv { n : Int // representable n = true } where
  formatFloat x := decimal x
  parseFloat n :=
    if h : representable (readInt n.text) = true then ⟨readInt n.text, h⟩
    else ⟨0, rfl⟩
  integer x := some x
  parse_format x := by
    have htext : readInt (decimal x.1).text = x.1 := readInt_decimalText x.1
    simp only [htext, x.2, dif_pos]
  parse_decimal n h := by
    have htext : readInt (decimal n).text = n := readInt_decimalText n
    simp only [htext, h, dif_pos]
  representable_integer x n h := by
    cases h
    exact x.2

/-- Nothing is compressed. -/
def plainCodec : Compression (List Char) := ⟨id, some, fun _ => rfl⟩

/-- One property that holds an integer. -/
def withInteger (n : Int) : Properties Float := [(fieldName "n", .leaf (.int n))]

theorem distinctProperties_withInteger (n : Int) :
    distinctProperties (withInteger n : Properties Float) :=
  ⟨nodup_cons.mpr ⟨not_mem_nil, nodup_nil⟩, trivial, trivial⟩

theorem delivers_fragment_iff_five :
    (∃ file, writeCompressedJSONLines plainCodec (encodeNode integers)
        [⟨fieldName "1", none, withInteger 5⟩] = some file ∧
      Delivers (sameNode integers) [⟨fieldName "1", none, withInteger 5⟩]
        (readCompressedJSONLines plainCodec (decodeNode integers) file)) ∧
    ∃ file, writeCompressedJSONLines plainCodec (encodeEdge integers)
        [⟨fieldName "1", fieldName "2", fieldName "K", withInteger 5⟩] =
          some file ∧ Delivers (sameEdge integers)
        [⟨fieldName "1", fieldName "2", fieldName "K", withInteger 5⟩]
        (readCompressedJSONLines plainCodec (decodeEdge integers) file) := by
  constructor
  · refine ⟨_, rfl, ((delivers_fragment_iff integers plainCodec).1 ?_ rfl).mpr ?_⟩
    · exact forall_mem_singleton.mpr (distinctProperties_withInteger 5)
    · exact forall_mem_singleton.mpr ⟨by decide +kernel, _, rfl, by decide +kernel⟩
  · refine ⟨_, rfl, ((delivers_fragment_iff integers plainCodec).2 ?_ rfl).mpr ?_⟩
    · exact forall_mem_singleton.mpr (distinctProperties_withInteger 5)
    · exact forall_mem_singleton.mpr ⟨by decide +kernel, _, rfl, by decide +kernel⟩

/-- One more than the largest integer up to which `float64` has them all. -/
theorem fragment_rounds :
    ∃ file, writeCompressedJSONLines plainCodec (encodeNode integers)
        [⟨fieldName "1", none, withInteger 9007199254740993⟩] = some file ∧
      ¬Delivers (sameNode integers) [⟨fieldName "1", none, withInteger 9007199254740993⟩]
        (readCompressedJSONLines plainCodec (decodeNode integers) file) := by
  refine ⟨_, rfl, fun h => ?_⟩
  rw [delivers_iff plainCodec rfl (forall_mem_singleton.mpr
    (decodes_node integers (distinctProperties_withInteger _)))] at h
  have hcontent := (h _ mem_cons_self).1
  rw [nodeContent, Bool.and_eq_true] at hcontent
  exact absurd hcontent.2 (by decide +kernel)

end Dawgs.Ref.Fragment

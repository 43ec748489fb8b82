import Dawgs.Lib.Lists
import Dawgs.Lib.Upsert
import Dawgs.Ref.RelationshipWrites

/-!
# What the create batch holds

`Add` folds relationships with the same ends and kind into one row. It
finds the row by a key and by what the map `keyToEdgeID` holds for the
key. Three things have to be so for the row to be the right one, and the
code sees to none of them.

The key is the decimal texts of the two ends and the kind, one after the
other with nothing between, so different triples may share a key. The map
holds the identifier of the relationship that opened the row, while the
merge uses it as the row's number. And the bag that opens a row must not
be nil, since it is cloned.

`InStep` asks all three of one relationship, given those before it. For a
sequence in step `Add` never fails and the rows are the distinct triples
in the order they first appear, each with the merge of its bags.
-/

namespace Dawgs.Ref

open Lib List Option RelationshipCreateBatchBuilder

variable {V : Type} {edges : List (Relationship V)} {edge : Relationship V}

/-- What makes two relationships the same row. -/
def Relationship.triple (edge : Relationship V) : UInt64 × UInt64 × String :=
  (edge.startID, edge.endID, edge.kind)

/-- The distinct triples in the order of their first appearance. -/
def triples (edges : List (Relationship V)) : List (UInt64 × UInt64 × String) :=
  edges.foldl (fun ts edge => if edge.triple ∈ ts then ts else ts ++ [edge.triple]) []

section

variable (edges : List (Relationship V)) (t : UInt64 × UInt64 × String)

/-- The bags of the relationships with a triple, merged in order. -/
def mergedBag : Properties V :=
  match edges.filter (fun edge => edge.triple = t) with
  | [] => .empty
  | first :: rest =>
    rest.foldl (fun bag edge => bag.mergeNilable edge.properties) (first.properties.getD .empty)

/-- The relationship that opened the row of a triple. -/
def opener
    : Option (Relationship V) :=
  edges.find? fun edge => edge.triple = t

end

/-- What `Add` needs of a relationship, given those added before. -/
structure InStep (mapKind : String → Option Int)
    (before : List (Relationship V)) (edge : Relationship V) : Prop where
  /-- No other triple has the key. -/
  key : ∀ edge' ∈ before, edge'.key = edge.key → edge'.triple = edge.triple
  /-- A bag that opens a row is not nil and its kind is known. -/
  opens : ¬ edge.triple ∈ triples before → edge.properties.isSome ∧ (mapKind edge.kind).isSome
  /-- A row to merge into has the identifier of its opener for a number. -/
  joins : ∀ first, opener before edge.triple = some first →
    first.id.toNat = (triples before).idxOf edge.triple

/-- Every relationship of a sequence is in step with those before it. -/
def AllInStep (mapKind : String → Option Int) (before : List (Relationship V)) :
    List (Relationship V) → Prop
  | [] => True
  | edge :: edges =>
    InStep mapKind before edge ∧ AllInStep mapKind (before ++ [edge]) edges

/-! ## The rows of a longer sequence -/

section Rows

variable {t : UInt64 × UInt64 × String}

theorem triples_eq_firsts (edges : List (Relationship V)) :
    triples edges = firsts (edges.map Relationship.triple) := by
  rw [triples, firsts, foldl_map]
  congr!

theorem triples_append : triples (edges ++ [edge]) =
      if edge.triple ∈ triples edges then triples edges
      else triples edges ++ [edge.triple] := by
  rw [triples, foldl_append]
  rfl

theorem mem_triples : t ∈ triples edges ↔ ∃ edge ∈ edges, edge.triple = t := by
  rw [triples_eq_firsts, mem_firsts, List.mem_map]

theorem triples_nodup : (triples edges).Nodup := by
  rw [triples_eq_firsts]
  exact firsts_nodup _

theorem mergedBag_of_ne (hne : edge.triple ≠ t) :
    mergedBag (edges ++ [edge]) t = mergedBag edges t := by
  rw [mergedBag, mergedBag]
  simp [hne]

theorem mergedBag_of_mem (hmem : edge.triple ∈ triples edges) :
    mergedBag (edges ++ [edge]) edge.triple =
      (mergedBag edges edge.triple).mergeNilable edge.properties := by
  obtain ⟨e, he, ht⟩ := (mem_triples).mp hmem
  rw [mergedBag, mergedBag, filter_append]
  cases hf : edges.filter (fun e => e.triple = edge.triple) with
  | nil =>
    have hin : e ∈ edges.filter (fun e => e.triple = edge.triple) :=
      mem_filter.mpr ⟨he, by simpa using ht⟩
    rw [hf] at hin
    cases hin
  | cons first rest =>
    simp

theorem mergedBag_of_not_mem (hnot : ¬ edge.triple ∈ triples edges) :
    mergedBag (edges ++ [edge]) edge.triple = edge.properties.getD .empty := by
  have hnil : edges.filter (fun e => e.triple = edge.triple) = [] := by
    refine filter_eq_nil_iff.mpr fun e he ht => hnot ?_
    exact (mem_triples).mpr ⟨e, he, by simpa using ht⟩
  rw [mergedBag, filter_append, hnil]
  simp

end Rows

/-! ## The builder -/

/-- The builder holds what it should after the relationships `edges`. -/
structure Represents (mapKind : String → Option Int)
    (edges : List (Relationship V)) (s : RelationshipCreateBatchBuilder V) :
    Prop where
  keys : ∀ k, s.keyToEdgeID k = (edges.find? fun edge => edge.key = k).map Relationship.id
  startIDs : s.startIDs = (triples edges).map fun t => t.1
  endIDs : s.endIDs = (triples edges).map fun t => t.2.1
  kinds : s.edgeKindIDs.map some = (triples edges).map fun t => mapKind t.2.2
  bags : s.edgePropertiesBatch = (triples edges).map (mergedBag edges)

variable {mapKind : String → Option Int} {s : RelationshipCreateBatchBuilder V}

theorem represents_new : Represents mapKind [] (new (V := V)) := ⟨fun _ => rfl, rfl, rfl, rfl, rfl⟩

/-- Under the key condition looking a row up by key finds its opener. -/
theorem find_key_eq_opener (h : InStep mapKind edges edge) :
    (edges.find? fun e => e.key = edge.key) = opener edges edge.triple := by
  refine List.find?_congr fun e he => ?_
  refine decide_eq_decide.mpr ⟨h.key e he, fun ht => ?_⟩
  simp only [Relationship.triple, Prod.mk.injEq] at ht
  rw [Relationship.key, Relationship.key, ht.1, ht.2.1, ht.2.2]

section

variable (hs : Represents mapKind edges s)
include hs

section

variable (h : InStep mapKind edges edge)
include h

theorem add_joins (hmem : edge.triple ∈ triples edges) :
    ∃ s', s.add mapKind edge = .ok s' ∧ Represents mapKind (edges ++ [edge]) s' := by
  obtain ⟨e, he, ht⟩ := (mem_triples).mp hmem
  obtain ⟨first, hfirst⟩ : ∃ first, opener edges edge.triple = some first := by
    rw [← isSome_iff_exists, opener, List.find?_isSome]
    exact ⟨e, he, by simpa using ht⟩
  have hkey : s.keyToEdgeID edge.key = some first.id := by
    rw [hs.keys, find_key_eq_opener h, hfirst]
    rfl
  have hidx := h.joins first hfirst
  have hlt : (triples edges).idxOf edge.triple < (triples edges).length :=
    idxOf_lt_length_of_mem hmem
  have hrow : s.edgePropertiesBatch[first.id.toNat]? = some (mergedBag edges edge.triple) := by
    rw [hs.bags, hidx, List.getElem?_map, List.getElem?_eq_getElem hlt, getElem_idxOf]
    rfl
  have hsame : triples (edges ++ [edge]) = triples edges := by
    rw [triples_append, if_pos hmem]
  refine ⟨_, by rw [add, hkey]; simp only [hrow]; rfl, fun k => ?_, ?_, ?_, ?_, ?_⟩
  · -- The key is in the map already, and stays with its opener.
    rw [hs.keys, List.find?_append]
    cases hf : edges.find? (fun e => e.key = k) with
    | some e' => rfl
    | none =>
      have hne : edge.key ≠ k := by
        rintro rfl
        rw [hs.keys, hf] at hkey
        cases hkey
      simp [hne]
  · rw [hsame]
    exact hs.startIDs
  · rw [hsame]
    exact hs.endIDs
  · rw [hsame]
    exact hs.kinds
  · rw [hsame]
    rw [hs.bags, hidx, ← mergedBag_of_mem hmem]
    refine (map_eq_set_idxOf triples_nodup hmem fun t _ hne => ?_).symm
    exact mergedBag_of_ne (Ne.symm hne)

theorem add_opens (hnot : ¬ edge.triple ∈ triples edges) :
    ∃ s', s.add mapKind edge = .ok s' ∧ Represents mapKind (edges ++ [edge]) s' := by
  obtain ⟨hbag, hkind⟩ := h.opens hnot
  obtain ⟨bag, hbag⟩ := isSome_iff_exists.mp hbag
  obtain ⟨kindID, hkind⟩ := isSome_iff_exists.mp hkind
  have hfind : (edges.find? fun e => e.key = edge.key) = none := by
    refine List.find?_eq_none.mpr fun e he hk => hnot ?_
    exact (mem_triples).mpr ⟨e, he, h.key e he (by simpa using hk)⟩
  have hkey : s.keyToEdgeID edge.key = none := by
    rw [hs.keys, hfind]
    rfl
  have hmore : triples (edges ++ [edge]) = triples edges ++ [edge.triple] := by
    rw [triples_append, if_neg hnot]
  refine ⟨_, by
    rw [add, hkey]
    simp only [hbag, hkind]
    rfl, fun k => ?_, ?_, ?_, ?_, ?_⟩
  · show Function.update s.keyToEdgeID edge.key (some edge.id) k = _
    rw [List.find?_append]
    by_cases hk : k = edge.key
    · subst hk
      rw [hfind]
      simp
    · rw [Function.update_of_ne hk, hs.keys]
      simp [Ne.symm hk]
  · rw [hmore, hs.startIDs, map_append]
    rfl
  · rw [hmore, hs.endIDs, map_append]
    rfl
  · rw [hmore, map_append, hs.kinds, map_append]
    rw [map_singleton, ← hkind]
    rfl
  · rw [hmore, map_append, map_singleton, mergedBag_of_not_mem hnot, hbag, hs.bags]
    refine congrArg (· ++ _) (map_congr_left fun t ht => ?_)
    refine (mergedBag_of_ne ?_).symm
    rintro rfl
    exact hnot ht

theorem add_inStep :
    ∃ s', s.add mapKind edge = .ok s' ∧ Represents mapKind (edges ++ [edge]) s' := by
  by_cases hmem : edge.triple ∈ triples edges
  · exact add_joins hs h hmem
  · exact add_opens hs h hmem

end

theorem addAll_inStep {more : List (Relationship V)} (h : AllInStep mapKind edges more) :
    ∃ s', s.addAll mapKind more = .ok s' ∧ Represents mapKind (edges ++ more) s' := by
  induction more generalizing edges s with
  | nil =>
    refine ⟨s, rfl, ?_⟩
    rw [append_nil]
    exact hs
  | cons edge more ih =>
    obtain ⟨s₁, hadd, hs₁⟩ := add_inStep hs h.1
    obtain ⟨s', hall, hs'⟩ := ih hs₁ h.2
    rw [append_assoc] at hs'
    refine ⟨s', ?_, hs'⟩
    rw [addAll, hadd]
    exact hall

end

/-- Adding a sequence in step never fails, and the batch built from it has
one row for each distinct triple in the order of first appearance, with
the merge of the triple's bags. -/
theorem createBatch_rows {J : Type} (mapKind : String → Option Int)
    (encode : (String → Option V) → Option J) (edges : List (Relationship V))
    (h : AllInStep mapKind [] edges) :
    ∃ s, new.addAll mapKind edges = .ok s ∧
      ((∀ t ∈ triples edges, (encode (mergedBag edges t).map).isSome) →
        (s.build encode).isSome) ∧ ∀ batch, s.build encode = some batch →
        batch.startIDs = (triples edges).map (fun t => t.1) ∧
        batch.endIDs = (triples edges).map (fun t => t.2.1) ∧
        batch.edgeKindIDs.map some = (triples edges).map (fun t => mapKind t.2.2) ∧
        batch.edgePropertyBags.map some =
          (triples edges).map fun t => encode (mergedBag edges t).map := by
  obtain ⟨s, hall, hs⟩ := addAll_inStep represents_new h
  refine ⟨s, hall, fun hencode => ?_, fun batch hbatch => ?_⟩
  · rw [build, isSome_map]
    refine isSome_mapM fun bag hbag => ?_
    rw [hs.bags] at hbag
    obtain ⟨t, ht, rfl⟩ := mem_map.mp hbag
    exact hencode t ht
  · rw [build, map_eq_some_iff] at hbatch
    obtain ⟨bags, hbags, rfl⟩ := hbatch
    refine ⟨hs.startIDs, hs.endIDs, hs.kinds, ?_⟩
    rw [map_some_of_mapM hbags, hs.bags, List.map_map]
    rfl

/-- A relationship as `CreateRelationshipByIDs` makes it, with one value. -/
def created (id startID endID : UInt64) (kind key : String) (value : Nat) :
    Relationship Nat := ⟨id, startID, endID, kind, some (Properties.empty.set key value)⟩

theorem createBatch_rows_repeated :
    ∃ s, new.addAll (fun _ => some 1) [created 0 1 2 "K" "a" 1, created 0 1 2 "K" "b" 2] = .ok s ∧
      ((∀ t ∈ triples [created 0 1 2 "K" "a" 1, created 0 1 2 "K" "b" 2],
        (some (mergedBag [created 0 1 2 "K" "a" 1, created 0 1 2 "K" "b" 2]
          t).map).isSome) → (s.build some).isSome) ∧
      ∀ batch, s.build some = some batch → batch.startIDs = [1] ∧ batch.endIDs = [2] := by
  obtain ⟨s, hall, hsome, hrows⟩ := createBatch_rows (fun _ => some 1) some
    [created 0 1 2 "K" "a" 1, created 0 1 2 "K" "b" 2]
    ⟨⟨by simp, by simp [created], by simp [opener]⟩,
      ⟨by simp [created, Relationship.triple], by simp [created],
        by simp [created, opener, triples, Relationship.triple]⟩, trivial⟩
  exact ⟨s, hall, hsome, fun batch hbatch =>
    ⟨(hrows batch hbatch).1, (hrows batch hbatch).2.1⟩⟩

/-- Relationships made without an identifier: the second row's second bag
goes to the first row. With an identifier past the rows the same call
panics, and so does a nil bag; and two different rows are taken for one
when their keys are the same text. -/
theorem createBatch_astray :
    (match new.addAll (fun _ => some 1) [created 0 1 2 "K" "a" 1, created 0 3 4 "K" "b" 2,
          created 0 3 4 "K" "c" 3] with
      | .ok s => s.edgePropertiesBatch.map fun bag => bag.map "c"
      | .error _ => []) = [some 3, none] ∧
    (match new.addAll (fun _ => some 1) [created 5 1 2 "K" "a" 1, created 5 1 2 "K" "b" 2] with
      | .ok _ => none
      | .error failure => some failure) = some .panic ∧
    (match new.addAll (V := Nat) (fun _ => some 1) [⟨0, 1, 2, "K", none⟩] with
      | .ok _ => none
      | .error failure => some failure) = some .panic ∧
    (match new.addAll (fun _ => some 1) [created 0 1 23 "K" "a" 1, created 1 12 3 "K" "b" 2] with
      | .ok s => s.startIDs
      | .error _ => []) = [1] := by
  decide +kernel

end Dawgs.Ref

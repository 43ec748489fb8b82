import Dawgs.Proofs.FrontendOutline

/-!
# Keys that come twice

The items of a map literal are put into a map one after the other, so an
item whose key has been there before takes the place of the earlier one, and
the value of that is gone. What the map says is then lighter than what the
items say. Without a key that comes twice the map has the items in the order
of their keys.
-/

namespace Dawgs.Ref.Frontend

open Lib RoseTree Cypher Grammar List Prod

/-! ## Weights

What is in a map comes from the frontend and is finite. -/

def shapeWeight (e : Expression) : Nat := (weight Label.weight (shape e)).toNat

theorem natCast_shapeWeight (e : Expression) :
    (shapeWeight e : ℕ∞) = weight Label.weight (shape e) :=
  ENat.natCast_toNat (weight_shape_ne_top e)

def itemsWeight (items : List (MapItem Expression)) : Nat :=
  (items.map fun item => 1 + shapeWeight item.value).sum

@[simp] theorem itemsWeight_cons (item : MapItem Expression) {items : List (MapItem Expression)} :
    itemsWeight (item :: items) = 1 + shapeWeight item.value + itemsWeight items := by
  simp [itemsWeight]

theorem natCast_itemsWeight {items : List (MapItem Expression)} :
    (itemsWeight items : ℕ∞) = outlineWeights (itemShapes items) := by
  induction items with
  | nil => simp [itemsWeight, itemShapes]
  | cons item items ih =>
    rw [itemsWeight_cons, Nat.cast_add, ih]
    simp [itemShapes, Label.weight, natCast_shapeWeight]

def keys (items : List (MapItem Expression)) : List String := items.map MapItem.key

variable {key : String} {items map : List (MapItem Expression)} {value : Expression}

theorem mem_keys_putItem {k : String} :
    k ∈ keys (putItem key value items) ↔ k = key ∨ k ∈ keys items := by
  induction items with
  | nil => simp [putItem, keys]
  | cons item items ih =>
    rw [putItem]
    split_ifs with heq hlt
    · simp [keys, heq]
    · simp [keys]
    · simp only [keys, map_cons, mem_cons] at ih ⊢
      tauto

theorem itemsWeight_putItem_le (key : String) (value : Expression)
    (items : List (MapItem Expression)) :
    itemsWeight (putItem key value items) ≤ 1 + shapeWeight value + itemsWeight items := by
  induction items with
  | nil => simp [putItem]
  | cons item items ih =>
    rw [putItem]
    split_ifs with heq hlt <;> simp only [itemsWeight_cons] <;> omega

/-- A map has its items in the order of their keys. -/
def InOrder (items : List (MapItem Expression)) : Prop := items.Pairwise fun a b => a.key < b.key

theorem inOrder_putItem (h : InOrder items) :
    InOrder (putItem key value items) := by
  induction items with
  | nil => simp [putItem, InOrder]
  | cons item items ih =>
    obtain ⟨hitem, hitems⟩ := pairwise_cons.mp h
    rw [putItem]
    split_ifs with heq hlt
    · exact pairwise_cons.mpr ⟨by simpa [heq] using hitem, hitems⟩
    · refine pairwise_cons.mpr ⟨?_, h⟩
      intro b hb
      rcases mem_cons.mp hb with rfl | hb
      · exact hlt
      · exact hlt.trans (hitem b hb)
    · refine pairwise_cons.mpr ⟨?_, ih hitems⟩
      intro b hb
      have hkey := (mem_keys_putItem).mp (mem_map_of_mem hb)
      rcases hkey with hkey | hkey
      · rw [hkey]
        exact lt_of_le_of_ne (not_lt.mp hlt) (Ne.symm heq)
      · obtain ⟨c, hc, hbc⟩ := mem_map.mp hkey
        exact hbc ▸ hitem c hc

/-- An item that takes the place of another adds less than it weighs. -/
theorem itemsWeight_putItem_lt (value : Expression) (hitems : InOrder items) (h : key ∈ keys items)
    : itemsWeight (putItem key value items) < 1 + shapeWeight value + itemsWeight items := by
  induction items with
  | nil => simp [keys] at h
  | cons item items ih =>
    obtain ⟨hitem, hitems⟩ := pairwise_cons.mp hitems
    rw [putItem]
    split_ifs with heq hlt
    · simp only [itemsWeight_cons]
      omega
    all_goals
      have hkey : key ∈ keys items := (mem_cons.mp h).resolve_left heq
    · obtain ⟨b, hb, rfl⟩ := mem_map.mp hkey
      exact absurd (hitem b hb) hlt.asymm
    · have hlt := ih hitems hkey
      simp only [itemsWeight_cons]
      omega

/-! ## All items -/

section

variable (items : List (String × Expression)) (map : List (MapItem Expression))

def putItems
    : List (MapItem Expression) :=
  items.foldl (fun map p => putItem p.1 p.2 map) map

theorem itemsWeight_putItems_le
    :
    itemsWeight (putItems items map) ≤
      (items.map fun p => 1 + shapeWeight p.2).sum + itemsWeight map := by
  induction items generalizing map with
  | nil => simp [putItems]
  | cons p items ih =>
    have hput := itemsWeight_putItem_le p.1 p.2 map
    have ih := ih (putItem p.1 p.2 map)
    simp only [putItems, foldl_cons, map_cons, sum_cons] at ih ⊢
    omega

end

theorem nodup_keys (h : InOrder map) : (keys map).Nodup :=
  pairwise_map.mpr (h.imp fun hlt => hlt.ne)

theorem nodup_append_putItem {p : String × Expression} {ks : List String}
    (hmap : InOrder map) (hp : p.1 ∉ keys map) :
    (ks ++ keys (putItem p.1 p.2 map)).Nodup ↔ (p.1 :: ks ++ keys map).Nodup := by
  have hin : InOrder (putItem p.1 p.2 map) := inOrder_putItem hmap
  have hput := nodup_keys hin
  have hkeys := nodup_keys hmap
  simp only [nodup_append', disjoint_left, mem_keys_putItem]
  grind

theorem itemsWeight_putItems_lt {items : List (String × Expression)}
    (hmap : InOrder map) (h : ¬ (items.map fst ++ keys map).Nodup) :
    itemsWeight (putItems items map) <
      (items.map fun p => 1 + shapeWeight p.2).sum + itemsWeight map := by
  induction items generalizing map with
  | nil => exact absurd (nodup_keys hmap) h
  | cons p items ih =>
    simp only [putItems, foldl_cons, map_cons, sum_cons]
    by_cases hp : p.1 ∈ keys map
    · have hput := itemsWeight_putItem_lt p.2 hmap hp
      have hle := itemsWeight_putItems_le items (putItem p.1 p.2 map)
      rw [putItems] at hle
      omega
    · have hput := itemsWeight_putItem_le p.1 p.2 map
      have hlt := ih (inOrder_putItem hmap)
        (fun hnodup => h ((nodup_append_putItem hmap hp).mp hnodup))
      rw [putItems] at hlt
      omega

/-- The items of a map, as keys and what the values say. -/
def itemPairs (items : List (MapItem Expression)) : List (String × Outline) :=
  items.map fun item => (item.key, shape item.value)

/-- The order of the entries. -/
def insertPair (map : List (String × Outline)) (p : String × Outline) :
    List (String × Outline) := map.orderedInsert (fun a b => a.1 ≤ b.1) p

theorem itemPairs_putItem (h : key ∉ keys items) :
    itemPairs (putItem key value items) = insertPair (itemPairs items) (key, shape value) := by
  induction items with
  | nil => rfl
  | cons item items ih =>
    simp only [keys, map_cons, mem_cons, not_or] at h
    have ih := ih h.2
    rw [putItem, if_neg h.1]
    simp only [itemPairs, insertPair, map_cons, orderedInsert] at ih ⊢
    by_cases hlt : key < item.key
    · rw [if_pos hlt, if_pos hlt.le]
      rfl
    · have hle : ¬ key ≤ item.key := fun hle =>
        hlt (lt_of_le_of_ne hle h.1)
      rw [if_neg hlt, if_neg hle, map_cons, ih]

theorem itemPairs_putItems {items : List (String × Expression)}
    (hmap : InOrder map) (h : (items.map fst ++ keys map).Nodup) :
    itemPairs (putItems items map) =
      (items.map fun p => (p.1, shape p.2)).foldl insertPair (itemPairs map) := by
  induction items generalizing map with
  | nil => rfl
  | cons p items ih =>
    have hp : p.1 ∉ keys map := by
      intro hp
      rw [map_cons, cons_append, nodup_cons] at h
      exact h.1 (by simp [hp])
    have ih := ih (inOrder_putItem hmap) ((nodup_append_putItem hmap hp).mpr h)
    rw [map_cons, foldl_cons, ← itemPairs_putItem hp, ← ih]
    rfl

/-! ## Keys and values in turn -/

theorem pairs_flatMap {α : Type} {xs : List α} (key : α → String) (value : α → Outline) :
    pairs (xs.flatMap fun x => [nameOutline (key x), value x]) =
      xs.map fun x => (key x, value x) := by
  induction xs with
  | nil => rfl
  | cons x xs ih =>
    rw [map_cons, ← ih]
    rfl

def entryOutline (p : String × Outline) : Outline := .node (.entry p.1) [p.2]

theorem mapEntries_flatMap {α : Type} {xs : List α} (key : α → String) (value : α → Outline) :
    mapEntries (xs.flatMap fun x => [nameOutline (key x), value x]) =
      ((xs.map fun x => (key x, value x)).foldl insertPair []).map
        entryOutline := by
  rw [mapEntries, pairs_flatMap]
  rfl

theorem perm_foldl_insertPair (ps map : List (String × Outline)) :
    (ps.foldl insertPair map).Perm (ps ++ map) := by
  induction ps generalizing map with
  | nil => rfl
  | cons p ps ih =>
    refine (ih _).trans (((perm_orderedInsert _ p map).append_left ps).trans ?_)
    exact perm_middle

/-- An entry weighs what its key and its value weigh. -/
theorem weights_mapEntries {α : Type} {xs : List α} (key : α → String) (value : α → Outline) :
    outlineWeights (mapEntries (xs.flatMap fun x => [nameOutline (key x), value x])) =
      outlineWeights (xs.flatMap fun x => [nameOutline (key x), value x]) := by
  have hperm := (perm_foldl_insertPair (xs.map fun x => (key x, value x)) []).map entryOutline
  rw [mapEntries_flatMap, outlineWeights, weights_perm _ hperm]
  clear hperm
  induction xs with
  | nil => rfl
  | cons x xs ih =>
    simp only [List.append_nil, List.map_cons, weights_cons] at ih ⊢
    rw [ih]
    simp [entryOutline, nameOutline, Label.weight, add_assoc]

theorem entries_itemPairs {items : List (MapItem Expression)} :
    itemShapes items = (itemPairs items).map entryOutline := by
  rw [itemShapes_eq_map, itemPairs, List.map_map]
  rfl

theorem weights_items {items : List (String × Expression)} :
    outlineWeights (items.flatMap fun p => [nameOutline p.1, shape p.2]) =
      ((items.map fun p => 1 + shapeWeight p.2).sum : ℕ) := by
  induction items with
  | nil => rfl
  | cons p items ih =>
    simp only [outlineWeights, flatMap_cons, weights_append] at ih ⊢
    rw [ih]
    simp [nameOutline, Label.weight, natCast_shapeWeight]

theorem weights_putItems_le {items : List (String × Expression)} :
    outlineWeights (itemShapes (putItems items [])) ≤
      outlineWeights (items.flatMap fun p => [nameOutline p.1, shape p.2]) := by
  have hle := itemsWeight_putItems_le items []
  rw [← natCast_itemsWeight, weights_items]
  exact_mod_cast hle

theorem weights_putItems_lt {items : List (String × Expression)}
    (h : ¬ (items.map fst).Nodup) :
    outlineWeights (itemShapes (putItems items [])) <
      outlineWeights (items.flatMap fun p => [nameOutline p.1, shape p.2]) := by
  have hkeys : ¬ (items.map fst ++ keys []).Nodup := by
    simpa [keys] using h
  have hlt := itemsWeight_putItems_lt Pairwise.nil hkeys
  rw [← natCast_itemsWeight, weights_items]
  exact_mod_cast hlt

theorem mapEntries_items {items : List (String × Expression)} (h : (items.map fst).Nodup) :
    mapEntries (items.flatMap fun p => [nameOutline p.1, shape p.2]) =
      itemShapes (putItems items []) := by
  rw [mapEntries_flatMap, entries_itemPairs,
    itemPairs_putItems Pairwise.nil (by simpa [keys] using h)]
  rfl

/-! ## The map literal -/

/-- The commas do not matter. -/
theorem nodesIn_items (items : List (Tree × Tree)) :
    nodesIn ((items.map fun p => [p.1, symbol ":", p.2]).intersperse
      [symbol ","]).flatten = nodesIn (items.flatMap fun p => [p.1, p.2]) := by
  induction items with
  | nil => rfl
  | cons p items ih =>
    have hitem : nodesIn [p.1, symbol ":", p.2] = nodesIn [p.1, p.2] := by
      rw [nodesIn_cons p.1 [p.2]]
      exact nodesIn_cons p.1 _
    cases items with
    | nil => simpa using hitem
    | cons q items =>
      simp only [map_cons, intersperse_cons_cons,
        flatten_cons, flatMap_cons, nodesIn_append] at ih ⊢
      rw [ih, hitem]
      rfl

theorem mapKeys_dense {cs : List Tree} : mapKeys (dense cs) = mapKeys cs := by
  rw [mapKeys, mapKeys, filter_dense fun _ => rfl]

theorem mapKeys_append (cs ds : List Tree) : mapKeys (cs ++ ds) = mapKeys cs ++ mapKeys ds := by
  simp [mapKeys]

theorem eq_of_reads_propertyKeyName {t : Tree} (h : Reads .propertyKeyName t (.name key)) :
    key = unescapePropertyKeyName (text t) := by
  cases h
  rfl

theorem outline_propertyKeyName {t : Tree}
    (h : Reads .propertyKeyName t (.name key)) : outline t = [nameOutline key] := by
  obtain rfl := eq_of_reads_propertyKeyName h
  obtain ⟨cs, rfl⟩ := reads_node h
  simp [assemble.eq_def, text]

theorem mapKeys_items {items : List ((Tree × Tree) × String × Expression)}
    (hkeys : ∀ p ∈ items, Reads .propertyKeyName p.1.1 (.name p.2.1))
    (hvalues : ∀ p ∈ items, Reads .expression p.1.2 (.expression p.2.2)) :
    mapKeys ((items.map fun p => [p.1.1, symbol ":", p.1.2]).intersperse
      [symbol ","]).flatten = items.map fun p => p.2.1 := by
  have hitem : ∀ p ∈ items, mapKeys [p.1.1, symbol ":", p.1.2] = [p.2.1] := by
    intro p hp
    have hkey : isRule .propertyKeyName p.1.1 = true := isRule_of_reads (hkeys p hp)
    have hvalue : isRule .propertyKeyName p.1.2 = false := isRule_of_reads (hvalues p hp)
    have hsymbol : isRule .propertyKeyName (symbol ":") = false := rfl
    simp [mapKeys, hkey, hvalue, hsymbol, eq_of_reads_propertyKeyName (hkeys p hp)]
  induction items with
  | nil => rfl
  | cons p items ih =>
    have ih := ih (fun q hq => hkeys q (by simp [hq]))
      (fun q hq => hvalues q (by simp [hq])) (fun q hq => hitem q (by simp [hq]))
    have hp := hitem p (by simp)
    cases items with
    | nil => simpa using hp
    | cons q items =>
      simp only [map_cons, intersperse_cons_cons, flatten_cons, mapKeys_append] at ih ⊢
      rw [ih, hp]
      rfl

/-- The outline of a tree that has one. -/
def soleOutline (t : Tree) : Outline := (outline t).headD (.node .nothing [])

theorem outline_eq_soleOutline {t : Tree} {s : Outline} (h : Kept [t] [s]) :
    outline t = [soleOutline t] := by
  have hlength := h.length
  simp only [outlines_cons, outlines_nil, List.append_nil,
    length_singleton, length_eq_one_iff] at hlength
  obtain ⟨o, ho⟩ := hlength
  rw [soleOutline, ho]
  rfl

section MapLiteral

variable {cs : List Tree} {items : List ((Tree × Tree) × String × Expression)}
  (hcs : dense cs = symbol "\x7b" ::
    ((items.map fun p => [p.1.1, symbol ":", p.1.2]).intersperse
      [symbol ","]).flatten ++ [symbol "\x7d"])

include hcs

theorem nodesIn_mapLiteral : nodesIn cs = nodesIn (items.flatMap fun p => [p.1.1, p.1.2]) := by
  have h := nodesIn_items (items.map fst)
  rw [List.map_map, List.flatMap_map] at h
  rw [← nodesIn_dense, hcs, ← h, nodesIn_append]
  exact List.append_nil _

variable (hkeys : ∀ p ∈ items, Reads .propertyKeyName p.1.1 (.name p.2.1))
  (hvalues : ∀ p ∈ items, Reads .expression p.1.2 (.expression p.2.2))

include hkeys hvalues

theorem fine_mapLiteral : fine .mapLiteral cs = decide (items.map fun p => p.2.1).Nodup := by
  have hbrace : ∀ s, mapKeys [symbol s] = [] := fun s => rfl
  rw [fine, ← mapKeys_dense, hcs, ← singleton_append,
    mapKeys_append, mapKeys_append, mapKeys_items hkeys hvalues, hbrace,
    hbrace, nil_append, append_nil]

theorem kept_mapLiteral (hkept : ∀ p ∈ items, Kept [p.1.1] [nameOutline p.2.1])
    (hkept' : ∀ p ∈ items, Kept [p.1.2] [shape p.2.2]) :
    Kept [.node .mapLiteral cs] [shape (.mapLiteral
      (items.foldl (fun map p => putItem p.2.1 p.2.2 map) []))] := by
  have hchildren : Kept cs ((items.map snd).flatMap fun p =>
      [nameOutline p.1, shape p.2]) := by
    have h : Kept (items.flatMap fun p => [p.1.1, p.1.2]) (items.flatMap
        fun p => [nameOutline p.2.1, shape p.2.2]) :=
      kept_flatMap fun p hp => (hkept p hp).cons (hkept' p hp)
    rw [flatMap_map]
    exact h.of_nodesIn (nodesIn_mapLiteral hcs)
  have hentries : outlineWeights (mapEntries (outlines cs)) = outlineWeights (outlines cs) := by
    have houtlines : outlines cs = items.flatMap fun p =>
        [nameOutline p.2.1, soleOutline p.1.2] := by
      rw [← outlines_nodesIn, nodesIn_mapLiteral hcs, outlines_nodesIn, outlines_flatMap]
      refine flatMap_congr fun p hp => ?_
      simp [outline_propertyKeyName (hkeys p hp), outline_eq_soleOutline (hkept' p hp)]
    rw [houtlines, weights_mapEntries]
  have hmap : items.foldl (fun map p => putItem p.2.1 p.2.2 map) [] =
      putItems (items.map snd) [] := by
    rw [putItems, foldl_map]
  have hfine : fine .mapLiteral cs =
      decide ((items.map snd).map fst).Nodup := by
    rw [fine_mapLiteral hcs hkeys hvalues, List.map_map]
    rfl
  rw [shape, hmap]
  refine ⟨by simp [assemble.eq_def], fun hc => ?_, fun hc => ?_, ?_⟩
  · simp only [cleanAll_cons, clean_node, cleanAll_nil, Bool.and_true,
      Bool.and_eq_true, hfine, decide_eq_true_eq] at hc
    simp [assemble.eq_def, hchildren.eq hc.2, mapEntries_items hc.1]
  · simp only [cleanAll_cons, clean_node, cleanAll_nil, Bool.and_true,
      Bool.and_eq_false_iff, hfine, decide_eq_false_iff_not] at hc
    have hlt : outlineWeights (itemShapes (putItems (items.map snd) [])) <
        outlineWeights (outlines cs) := by
      rcases hc with hc | hc
      · exact (weights_putItems_lt hc).trans_le hchildren.le
      · exact (weights_putItems_le).trans_lt (hchildren.lt hc)
    rw [← hentries] at hlt
    simpa [assemble.eq_def, Label.weight] using (ENat.add_lt_add_iff_left ENat.one_ne_top).mpr hlt
  · have hne := ((weights_putItems_le).trans_lt hchildren.ne_top.lt_top).ne
    simpa [Label.weight] using hne

end MapLiteral

end Dawgs.Ref.Frontend

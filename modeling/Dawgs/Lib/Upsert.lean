import Dawgs.Lib.Machine

/-!
# Entries under keys

Items come one after the other, each with a key. The first item with a key
makes an entry, which is told its number, and later ones are merged into
it. In the end there is one entry for each key, in the order in which the
keys first came, and an entry is made from the items with its key, in the
order they came.
-/

namespace Dawgs.Lib

open List
open Prod (fst snd)

variable {K E I : Type} [DecidableEq K] {keys : List K}

/-- The entry under a key is changed, or a new one is added at the end. -/
def upsert (change : E → E) (key : K) (new : Nat → E) (entries : List (K × E)) : List (K × E) :=
  if key ∈ entries.map fst then
    entries.map fun entry =>
      if entry.1 = key then (entry.1, change entry.2) else entry
  else entries ++ [(key, new entries.length)]

/-- The keys of a list, each where it first comes. -/
def firsts (keys : List K) : List K :=
  keys.foldl (fun seen key => if key ∈ seen then seen else seen ++ [key]) []

theorem firsts_concat (keys : List K) (key : K) : firsts (keys ++ [key]) =
      if key ∈ firsts keys then firsts keys else firsts keys ++ [key] := by
  rw [firsts, foldl_concat]
  rfl

@[simp] theorem mem_firsts {key : K} : key ∈ firsts keys ↔ key ∈ keys := by
  induction keys using List.reverseRecOn with
  | nil => simp [firsts]
  | append_singleton keys k ih =>
    rw [firsts_concat]
    split
    next hk =>
      rw [ih, mem_append, mem_singleton]
      refine ⟨.inl, fun h => h.elim id fun heq => ?_⟩
      rw [← ih, heq]
      exact hk
    · rw [mem_append, ih, mem_append]

theorem firsts_nodup (keys : List K) : (firsts keys).Nodup := by
  induction keys using List.reverseRecOn with
  | nil => exact nodup_nil
  | append_singleton keys k ih =>
    rw [firsts_concat]
    split
    · exact ih
    next hk =>
      rw [← concat_eq_append]
      exact .concat hk ih

theorem firsts_append (keys more : List K) : firsts keys <+: firsts (keys ++ more) := by
  induction more using List.reverseRecOn with
  | nil => simp
  | append_singleton more k ih =>
    rw [← append_assoc, firsts_concat]
    split
    · exact ih
    · exact ih.trans (prefix_append ..)

/-- The place of a key. -/
def place (keys : List K) (key : K) : Nat := (firsts keys).idxOf key

/-- A key keeps its place as more keys come. -/
theorem place_append {key : K} (h : key ∈ keys)
    (more : List K) : place (keys ++ more) key = place keys key := by
  obtain ⟨rest, hrest⟩ := firsts_append keys more
  rw [place, ← hrest]
  exact idxOf_append_of_mem (mem_firsts.mpr h)

theorem place_inj {a b : K} (ha : a ∈ keys) :
    place keys a = place keys b ↔ a = b := idxOf_inj (mem_firsts.mpr ha)

/-- An entry is found at the place of its key. -/
theorem lookup_eq (entries : List (K × E)) (key : K) :
    entries.lookup key = (entries[(entries.map fst).idxOf key]?).map snd := by
  induction entries with
  | nil => rfl
  | cons entry entries ih =>
    obtain ⟨k, e⟩ := entry
    by_cases h : k = key
    · subst h
      simp
    · rw [lookup_cons, map_cons, idxOf_cons_ne _ h, List.getElem?_cons_succ, ← ih]
      simp [beq_eq_false_iff_ne.mpr (Ne.symm h)]

theorem keys_upsert (change : E → E) (key : K) (new : Nat → E)
    (entries : List (K × E)) : (upsert change key new entries).map fst =
      if key ∈ entries.map fst then entries.map fst
      else entries.map fst ++ [key] := by
  unfold upsert
  split
  · rw [map_map]
    refine map_congr_left fun entry _ => ?_
    simp only [Function.comp_apply]
    split <;> rfl
  · simp

section

variable (merge : E → I → E) (make : I → Nat → E) (items : List (K × I))

/-- The entries after all items. -/
def upserts : List (K × E) := items.foldl (fun entries item =>
    upsert (fun entry => merge entry item.2) item.1 (make item.2) entries) []

/-- The items with a key. -/
def itemsOf (key : K) : List I := (items.filter fun item => item.1 = key).map snd

omit [DecidableEq K] in
theorem keys_keyed (key : I → K) (items : List I) :
    (items.map fun item => (key item, item)).map fst = items.map key := by
  rw [map_map]
  rfl

theorem itemsOf_keyed (key : I → K) (items : List I) (k : K) :
    itemsOf (items.map fun item => (key item, item)) k = items.filter fun item => key item = k := by
  rw [itemsOf, filter_map, map_map]
  exact map_id _

variable {merge make}

theorem upserts_concat (item : K × I) :
    upserts merge make (items ++ [item]) =
      upsert (fun entry => merge entry item.2) item.1 (make item.2) (upserts merge make items) := by
  rw [upserts, foldl_concat]
  rfl

theorem keys_upserts (merge : E → I → E) (make : I → Nat → E) (items : List (K × I)) :
    (upserts merge make items).map fst = firsts (items.map fst) := by
  induction items using List.reverseRecOn with
  | nil => rfl
  | append_singleton items item ih =>
    rw [upserts_concat, keys_upsert, ih, map_append, map_singleton, firsts_concat]

theorem length_upserts : (upserts merge make items).length = (firsts (items.map fst)).length := by
  rw [← keys_upserts merge make, length_map]

/-- An entry stands at the place of its key. -/
theorem place_getElem {n : Nat} (hn : n < (upserts merge make items).length) :
    place (items.map fst) (upserts merge make items)[n].1 = n := by
  have hkeys := keys_upserts merge make items
  have hn' := hn
  rw [length_upserts] at hn'
  have hget : (upserts merge make items)[n].1 = (firsts (items.map fst))[n] := by
    simp only [← hkeys, getElem_map]
  rw [hget]
  exact (firsts_nodup _).idxOf_getElem n hn'

theorem itemsOf_concat (item : K × I) (key : K) :
    itemsOf (items ++ [item]) key = itemsOf items key ++ if item.1 = key then [item.2] else [] := by
  unfold itemsOf
  by_cases h : item.1 = key <;> simp [h]

theorem itemsOf_eq_nil {items : List (K × I)} {key : K}
    (h : key ∉ items.map fst) : itemsOf items key = [] := by
  rw [itemsOf, map_eq_nil_iff, filter_eq_nil_iff]
  intro item hitem hkey
  exact h (mem_map.mpr ⟨item, hitem, by simpa using hkey⟩)

/-- An entry is made from the items with its key, in order. -/
theorem upserts_getElem {n : Nat} (hn : n < (upserts merge make items).length) : ∃ first rest,
      itemsOf items (upserts merge make items)[n].1 = first :: rest ∧
        (upserts merge make items)[n].2 = rest.foldl merge (make first n) := by
  induction items using List.reverseRecOn with
  | nil => exact absurd hn (by simp [upserts])
  | append_singleton items item ih =>
    have hkeys := keys_upserts merge make items
    simp only [upserts_concat, itemsOf_concat]
    by_cases hmem : item.1 ∈ (upserts merge make items).map fst
    · have hn' : n < (upserts merge make items).length := by
        simpa [upserts_concat, upsert, hmem] using hn
      obtain ⟨first, rest, hitems, hentry⟩ := ih hn'
      simp only [upsert, if_pos hmem, getElem_map]
      by_cases hkey : (upserts merge make items)[n].1 = item.1
      · refine ⟨first, rest ++ [item.2], ?_, ?_⟩
        · simp only [hkey, if_true]
          rw [← hkey, hitems]
          rfl
        · simp only [hkey, hentry, foldl_append]
          rfl
      · refine ⟨first, rest, ?_, ?_⟩
        · simp only [hkey, if_false, Ne.symm hkey]
          rw [hitems, append_nil]
        · simp only [hkey, if_false, hentry]
    · simp only [upsert, if_neg hmem]
      obtain hlt | heq := Nat.lt_or_eq_of_le (show n ≤ (upserts merge make items).length by
          simp only [upserts_concat, upsert, if_neg hmem, length_append, length_singleton] at hn
          omega)
      · obtain ⟨first, rest, hitems, hentry⟩ := ih hlt
        have hkey : item.1 ≠ (upserts merge make items)[n].1 := fun heq =>
          hmem (heq ▸ mem_map_of_mem (getElem_mem hlt))
        refine ⟨first, rest, ?_, ?_⟩
        · rw [getElem_append_left hlt, hitems, if_neg hkey, append_nil]
        · rw [getElem_append_left hlt, hentry]
      · subst heq
        refine ⟨item.2, [], ?_, ?_⟩
        · rw [getElem_concat_length rfl, if_pos rfl, itemsOf_eq_nil]
          · rfl
          · rw [hkeys, mem_firsts] at hmem
            exact hmem
        · rw [getElem_concat_length rfl]
          rfl

/-- Entries that are made of all the items with their keys. -/
theorem upserts_eq_map {build : List I → E}
    (hbuild : ∀ first rest n, rest.foldl merge (make first n) = build (first :: rest)) :
    upserts merge make items = (firsts (items.map fst)).map fun key =>
        (key, build (itemsOf items key)) := by
  rw [← keys_upserts merge make, map_map]
  refine ext_getElem (by simp) fun n hn _ => ?_
  obtain ⟨first, rest, hitems, hentry⟩ := upserts_getElem items hn
  rw [getElem_map]
  refine Prod.ext rfl ?_
  simp only [Function.comp_apply, hitems, hentry, hbuild]

section

/-! Items that have their keys themselves. -/

variable {key : I → K} {items : List I} {k : K} {item : I}

theorem place_lt (h : item ∈ items) : place (items.map key) (key item) <
    (upserts merge make (items.map fun item => (key item, item))).length := by
  rw [length_upserts, keys_keyed]
  exact idxOf_lt_length_of_mem (mem_firsts.mpr (mem_map_of_mem h))

/-- An entry is made from the items whose keys have its place, in order. -/
theorem keyed_getElem {n : Nat}
    (hn : n < (upserts merge make (items.map fun item => (key item, item))).length) :
    ∃ first rest, (items.filter fun item => place (items.map key) (key item) = n) = first :: rest ∧
      (upserts merge make (items.map fun item => (key item, item)))[n].2 =
        rest.foldl merge (make first n) := by
  obtain ⟨first, rest, hitems, hentry⟩ := upserts_getElem _ hn
  have hplace := place_getElem _ hn
  rw [keys_keyed] at hplace
  rw [itemsOf_keyed] at hitems
  refine ⟨first, rest, ?_, hentry⟩
  rw [← hitems]
  refine filter_congr fun item hitem => ?_
  rw [decide_eq_decide, ← place_inj (mem_map_of_mem hitem), hplace]

theorem mem_itemsOf_map :
    item ∈ itemsOf (items.map fun item => (key item, item)) k ↔ item ∈ items ∧ key item = k := by
  rw [itemsOf_keyed, mem_filter, decide_eq_true_iff]

theorem itemsOf_map_sublist (key : I → K) (items : List I) (k : K) :
    (itemsOf (items.map fun item => (key item, item)) k).Sublist items := by
  rw [itemsOf_keyed]
  exact filter_sublist

/-- A key has a first item. -/
theorem exists_itemsOf_map (hk : k ∈ items.map key) :
    ∃ first rest, itemsOf (items.map fun item => (key item, item)) k =
      first :: rest := by
  obtain ⟨item, hitem, hkey⟩ := mem_map.mp hk
  exact exists_cons_of_ne_nil (ne_nil_of_mem (mem_itemsOf_map.mpr ⟨hitem, hkey⟩))

end

/-- The items, put together by their keys. -/
theorem flatMap_itemsOf_perm (hkeys : keys.Nodup) :
    ∀ {items : List (K × I)}, (∀ item ∈ items, item.1 ∈ keys) →
      (keys.flatMap (itemsOf items)).Perm (items.map snd) := by
  induction keys with
  | nil =>
    intro items h
    cases items with
    | nil => exact .nil
    | cons item items => cases h item mem_cons_self
  | cons key keys ih =>
    intro items h
    obtain ⟨hkey, hkeys⟩ := nodup_cons.mp hkeys
    let others := items.filter fun item => !decide (item.1 = key)
    have hrest : keys.flatMap (itemsOf items) = keys.flatMap (itemsOf others) := by
      refine flatMap_congr fun other hother => ?_
      rw [itemsOf, itemsOf, filter_filter]
      congr 1
      refine filter_congr fun item _ => ?_
      by_cases heq : item.1 = other
      · have hne : item.1 ≠ key := fun h => hkey (h ▸ heq ▸ hother)
        simp [heq, heq ▸ hne]
      · simp [heq]
    rw [flatMap_cons, hrest]
    have hperm : (keys.flatMap (itemsOf others)).Perm (others.map snd) := by
      refine ih hkeys fun item hitem => ?_
      obtain ⟨hitem, hne⟩ := mem_filter.mp hitem
      have hmem := mem_cons.mp (h item hitem)
      simpa [show item.1 ≠ key by simpa using hne] using hmem
    refine (hperm.append_left _).trans ?_
    rw [itemsOf, ← map_append]
    exact (filter_append_perm _ items).map _

end

end Dawgs.Lib

import Dawgs.Ref.GraphCache

/-!
# What a cached fetch gets right

The sibling for nodes asks the database for the missing identifiers and
counts what comes back. `FetchRelationshipsByID` asks for all identifiers
and takes the number of the missing ones for the number of the rows. So it
is right in two cases only. Either everything is in the cache, and then
the database is not asked, and what the cache has must be what the
database has. Or nothing is in the cache, no identifier is twice in the
list, and the database has them all: then there is one row for each.

If identifiers are cached and others are not, those that are cached are
asked for again. If the database has fewer rows than are missing it
panics, or it would not if there was enough from the cache.
-/

namespace Dawgs.Ref

open List Option

variable {V ε : Type}

/-- A database has relationships under their identifiers. -/
structure RelationshipTable (V : Type) where
  find : UInt64 → Option (Relationship V)
  keyed : ∀ {i r}, find i = some r → r.id = i

/-- The rows that answer a query for a list of identifiers, in any
order. -/
structure RelationshipTable.Answers (db : RelationshipTable V)
    (ids : List UInt64) (rows : List (Relationship V)) : Prop where
  nodup : rows.Nodup
  mem_iff : ∀ r, r ∈ rows ↔ r.id ∈ ids ∧ db.find r.id = some r

/-- A fetch of some identifiers does what it should, where these are the
rows the database answers. -/
structure FetchRight (db : RelationshipTable V) (cache : RelationshipCache V) (ids : List UInt64)
    (rows : List (Relationship V)) (fetch : Fetch V ε) : Prop where
  /-- It returns the relationships that exist among the identifiers. -/
  returns : ∃ set, fetch.result = .ok set ∧ ∀ i, set i = if i ∈ ids then db.find i else none
  /-- It asks for identifiers that are not cached only. -/
  asks : ∀ asked, fetch.asked = some asked → ∀ i ∈ asked, cache.checkedGet i = none
  /-- What it has fetched is cached. -/
  caches : fetch.asked.isSome → ∀ r ∈ rows, fetch.cache.checkedGet r.id = some r

/-! ## The parts -/

theorem getAll_foldl {K W : Type} [DecidableEq K] (s : IndexedSlice K W)
    (keys : List K) (values : List W) (missing : List K) :
    keys.foldl (fun (values, missingKeys) key =>
        match s.checkedGet key with
        | some value => (values ++ [value], missingKeys)
        | none => (values, missingKeys ++ [key])) (values, missing) =
      (values ++ keys.filterMap s.checkedGet,
        missing ++ keys.filter fun k => (s.checkedGet k).isNone) := by
  induction keys generalizing values missing with
  | nil => simp
  | cons k keys ih =>
    rw [foldl_cons]
    cases hk : s.checkedGet k with
    | none =>
      rw [ih]
      simp [hk]
    | some v =>
      rw [ih]
      simp [hk]

theorem getRelationships_eq (cache : RelationshipCache V) (ids : List UInt64) :
    cache.getRelationships ids = (ids.filterMap cache.checkedGet,
        ids.filter fun i => (cache.checkedGet i).isNone) := getAll_foldl cache.slice ids [] []

theorem checkedGet_putRelationships (cache : RelationshipCache V) {rows : List (Relationship V)}
    (hrows : ∀ r ∈ rows, ∀ r' ∈ rows, r.id = r'.id → r = r') {r : Relationship V} (hr : r ∈ rows) :
    (cache.putRelationships rows).checkedGet r.id = some r := by
  induction rows using List.reverseRecOn with
  | nil => cases hr
  | append_singleton rows last ih =>
    rw [RelationshipCache.putRelationships, foldl_concat]
    show (IndexedSlice.put _ last.id last).checkedGet r.id = _
    rw [IndexedSlice.checkedGet_put]
    split
    next hid => rw [hrows r hr last (by simp) hid]
    next hid =>
      refine ih (fun a ha b hb => hrows a (by simp [ha]) b (by simp [hb])) ?_
      rcases mem_append.mp hr with hr | hr
      · exact hr
      · exact absurd (congrArg Relationship.id (mem_singleton.mp hr)) hid

/-- A set has each relationship of the list, if no two of them share an
identifier. -/
theorem newRelationshipSet_eq {rows : List (Relationship V)}
    {find : UInt64 → Option (Relationship V)}
    (hrows : ∀ r ∈ rows, find r.id = some r) (i : UInt64) :
    newRelationshipSet rows i =
      if i ∈ rows.map Relationship.id then find i else none := by
  induction rows using List.reverseRecOn with
  | nil => rfl
  | append_singleton rows last ih =>
    rw [newRelationshipSet, foldl_concat]
    show Function.update (newRelationshipSet rows) last.id (some last) i = _
    rw [Function.update_apply, ih fun r hr => hrows r (by simp [hr])]
    by_cases hi : i = last.id
    · subst hi
      simp [hrows last (by simp)]
    · simp [hi]

/-! ## The rows of a query -/

section

variable {db : RelationshipTable V} {ids : List UInt64}
  {rows : List (Relationship V)} (h : db.Answers ids rows)

include h

theorem RelationshipTable.Answers.id_inj : ∀ r ∈ rows, ∀ r' ∈ rows, r.id = r'.id → r = r' := by
  intro r hr r' hr' heq
  have hfind := ((h.mem_iff r).mp hr).2
  rw [heq, ((h.mem_iff r').mp hr').2] at hfind
  exact (some.inj hfind).symm

theorem RelationshipTable.Answers.set_eq (i : UInt64) :
    newRelationshipSet rows i = if i ∈ ids then db.find i else none := by
  rw [newRelationshipSet_eq fun r hr => ((h.mem_iff r).mp hr).2]
  by_cases hi : i ∈ ids
  · rw [if_pos hi]
    cases hfind : db.find i with
    | none => rw [ite_self]
    | some r =>
      obtain rfl := db.keyed hfind
      exact if_pos (mem_map_of_mem ((h.mem_iff r).mpr ⟨hi, hfind⟩))
  · rw [if_neg hi, if_neg]
    intro hmem
    obtain ⟨r, hr, rfl⟩ := mem_map.mp hmem
    exact hi ((h.mem_iff r).mp hr).1

theorem RelationshipTable.Answers.ids_subperm : (rows.map Relationship.id).Subperm ids := by
  refine subperm_of_subset ?_ fun i hi => ?_
  · exact h.nodup.map_on h.id_inj
  · obtain ⟨r, hr, rfl⟩ := mem_map.mp hi
    exact ((h.mem_iff r).mp hr).1

/-- There is a row for each place of the list if no identifier is in it
twice and all of them exist. -/
theorem RelationshipTable.Answers.length_iff :
    ids.length ≤ rows.length ↔ ids.Nodup ∧ ∀ i ∈ ids, (db.find i).isSome := by
  have hsub := h.ids_subperm
  constructor
  · intro hlen
    have hperm : (rows.map Relationship.id).Perm ids := hsub.perm_of_length_le (by simpa using hlen)
    refine ⟨hperm.nodup_iff.mp (h.nodup.map_on h.id_inj), ?_⟩
    intro i hi
    obtain ⟨r, hr, rfl⟩ := mem_map.mp (hperm.mem_iff.mpr hi)
    rw [((h.mem_iff r).mp hr).2]
    rfl
  · intro ⟨hnodup, hfind⟩
    have hback : ids.Subperm (rows.map Relationship.id) := by
      refine subperm_of_subset hnodup fun i hi => ?_
      obtain ⟨r, hr⟩ := isSome_iff_exists.mp (hfind i hi)
      obtain rfl := db.keyed hr
      exact mem_map_of_mem ((h.mem_iff r).mpr ⟨hi, hr⟩)
    simpa using hback.length_le

end

/-! ## The fetch -/

section

variable {db : RelationshipTable V} {cache : RelationshipCache V}
  {ids : List UInt64} {rows : List (Relationship V)}
  {query : List UInt64 → Except ε (List (Relationship V))}

/-- With everything in the cache. -/
theorem fetch_cached (h : ∀ i ∈ ids, (cache.checkedGet i).isSome) :
    fetchRelationshipsByID query cache ids =
      ⟨.ok fun i => if i ∈ ids then cache.checkedGet i else none, cache, none⟩ := by
  have hmissing : (ids.filter fun i => (cache.checkedGet i).isNone) = [] := by
    refine filter_eq_nil_iff.mpr fun i hi hnone => ?_
    rw [isNone_iff_eq_none] at hnone
    have := h i hi
    simp [hnone] at this
  have hset : newRelationshipSet (ids.filterMap cache.checkedGet) =
      fun i => if i ∈ ids then cache.checkedGet i else none := by
    funext i
    have hfind : ∀ r ∈ ids.filterMap cache.checkedGet, cache.checkedGet r.id = some r := by
      intro r hr
      obtain ⟨j, -, hj⟩ := mem_filterMap.mp hr
      rw [cache.keyed hj]
      exact hj
    rw [newRelationshipSet_eq hfind]
    refine if_congr ?_ rfl rfl
    rw [List.mem_map]
    constructor
    · rintro ⟨r, hr, rfl⟩
      obtain ⟨j, hj, hget⟩ := mem_filterMap.mp hr
      rw [cache.keyed hget]
      exact hj
    · intro hi
      obtain ⟨r, hr⟩ := isSome_iff_exists.mp (h i hi)
      exact ⟨r, mem_filterMap.mpr ⟨i, hi, hr⟩, cache.keyed hr⟩
  rw [fetchRelationshipsByID, getRelationships_eq, hmissing]
  simp only [length_nil, lt_irrefl, if_false, hset]

/-- With nothing in the cache. -/
theorem fetch_missing (hne : ids ≠ [])
    (h : ∀ i ∈ ids, cache.checkedGet i = none) (hquery : query ids = .ok rows) :
    fetchRelationshipsByID query cache ids =
      if rows.length < ids.length then ⟨.error .panic, cache, some ids⟩
      else ⟨.ok (newRelationshipSet rows),
        cache.putRelationships (rows.drop (rows.length - ids.length)), some ids⟩ := by
  have hmissing : (ids.filter fun i => (cache.checkedGet i).isNone) = ids :=
    filter_eq_self.mpr fun i hi => by rw [h i hi]; rfl
  have hcached : ids.filterMap cache.checkedGet = [] := filterMap_eq_nil_iff.mpr h
  have hpos := length_pos_of_ne_nil hne
  rw [fetchRelationshipsByID, getRelationships_eq, hmissing, hcached]
  simp only [hpos, if_true, hquery, nil_append]

/-- Once something is missing, all identifiers are asked for. -/
theorem asked_of_missing {i : UInt64} (hi : i ∈ ids) (hnone : cache.checkedGet i = none) :
    (fetchRelationshipsByID query cache ids).asked = some ids := by
  have hmem : i ∈ ids.filter fun i => (cache.checkedGet i).isNone :=
    mem_filter.mpr ⟨hi, by rw [hnone]; rfl⟩
  rw [fetchRelationshipsByID, getRelationships_eq]
  simp only [length_pos_of_mem hmem, if_true]
  split
  · rfl
  · split <;> rfl

/-- A fetch is right exactly if everything is in the cache as it is in the
database, or nothing is in the cache, no identifier is given twice and the
database has all of them. -/
theorem fetchRight_iff (hquery : query ids = .ok rows) (hrows : db.Answers ids rows) :
    FetchRight db cache ids rows (fetchRelationshipsByID query cache ids) ↔
      (∀ i ∈ ids, (cache.checkedGet i).isSome ∧ cache.checkedGet i = db.find i) ∨
      (∀ i ∈ ids, cache.checkedGet i = none) ∧ ids.Nodup ∧ ∀ i ∈ ids, (db.find i).isSome := by
  by_cases hall : ∀ i ∈ ids, (cache.checkedGet i).isSome
  · rw [fetch_cached hall]
    constructor
    · rintro ⟨⟨set, hset, hfind⟩, -, -⟩
      obtain rfl := Except.ok.inj hset
      refine .inl fun i hi => ⟨hall i hi, ?_⟩
      have hi' : (if i ∈ ids then cache.checkedGet i else none) = _ := hfind i
      rwa [if_pos hi, if_pos hi] at hi'
    · intro hcond
      have hsame : ∀ i ∈ ids, cache.checkedGet i = db.find i := by
        rcases hcond with h | ⟨h, -⟩
        · exact fun i hi => (h i hi).2
        · intro i hi
          have := hall i hi
          simp [h i hi] at this
      exact ⟨⟨_, rfl, fun i => if_ctx_congr Iff.rfl (hsame i) fun _ => rfl⟩, nofun, nofun⟩
  · push Not at hall
    obtain ⟨j, hj, hnone⟩ := hall
    rw [ne_eq, not_isSome_iff_eq_none] at hnone
    have hfirst : ¬ ∀ i ∈ ids, (cache.checkedGet i).isSome ∧ cache.checkedGet i = db.find i := by
      intro h
      have := (h j hj).1
      simp [hnone] at this
    rw [or_iff_right hfirst]
    by_cases hmissing : ∀ i ∈ ids, cache.checkedGet i = none
    · rw [and_iff_right hmissing, ← hrows.length_iff,
        fetch_missing (ne_nil_of_mem hj) hmissing hquery]
      have hle := hrows.ids_subperm.length_le
      rw [length_map] at hle
      split
      next hlt =>
        refine iff_of_false ?_ (by omega)
        rintro ⟨⟨set, hset, -⟩, -, -⟩
        cases hset
      next hlt =>
        have hall : rows.drop (rows.length - ids.length) = rows := by
          rw [show rows.length - ids.length = 0 by omega, drop_zero]
        rw [hall]
        refine iff_of_true ⟨⟨_, rfl, hrows.set_eq⟩, ?_, ?_⟩ (by omega)
        · rintro asked heq
          obtain rfl := some.inj heq
          exact hmissing
        · exact fun _ r hr => checkedGet_putRelationships cache hrows.id_inj hr
    · refine iff_of_false (fun hright => hmissing ?_) fun h => hmissing h.1
      exact hright.asks ids (asked_of_missing hj hnone)

/-- A relationship without properties. -/
def bareRelationship (id : UInt64) : Relationship Nat := ⟨id, 0, 0, "K", none⟩

/-- A database with these relationships. -/
def tableOf (ids : List UInt64) : RelationshipTable Nat where
  find i := if i ∈ ids then some (bareRelationship i) else none
  keyed {i r} h := by
    split at h
    · obtain rfl := some.inj h
      rfl
    · cases h

theorem answers_tableOf {stored asked : List UInt64} (h : asked.Nodup) :
    (tableOf stored).Answers asked ((asked.filter (· ∈ stored)).map bareRelationship) := by
  refine ⟨(h.filter _).map fun i j hij => congrArg Relationship.id hij, fun r => ?_⟩
  simp only [List.mem_map, List.mem_filter, decide_eq_true_eq, tableOf]
  constructor
  · rintro ⟨i, ⟨hasked, hstored⟩, rfl⟩
    exact ⟨hasked, if_pos hstored⟩
  · rintro ⟨hasked, hfind⟩
    split at hfind
    next hstored =>
      exact ⟨r.id, ⟨hasked, hstored⟩, some.inj hfind⟩
    · cases hfind

theorem fetchRight_two :
    FetchRight (tableOf [1, 2]) .new [2, 1] [bareRelationship 2, bareRelationship 1]
      (fetchRelationshipsByID (ε := Unit)
        (fun _ => .ok [bareRelationship 2, bareRelationship 1]) .new [2, 1]) :=
  (fetchRight_iff rfl (answers_tableOf (by decide))).mpr
    (.inr ⟨fun _ _ => rfl, by decide, all_eq_true.mp (by decide)⟩)

/-- An identifier that does not exist: the fetch panics. The sibling for
nodes returns an error there. -/
theorem fetch_panics :
    (tableOf []).Answers [1] [] ∧
      (fetchRelationshipsByID (V := Nat) (ε := Unit) (fun _ => .ok []) .new
        [1]).result = .error .panic ∧ ¬ FetchRight (tableOf []) .new [1] []
        (fetchRelationshipsByID (ε := Unit) (fun _ => .ok []) .new [1]) := by
  refine ⟨answers_tableOf (by decide), rfl, ?_⟩
  rintro ⟨⟨set, hset, -⟩, -, -⟩
  cases hset

end

end Dawgs.Ref

import Dawgs.Ref.UpdatingClauses

/-!
# What SET and REMOVE write

The collections forget the order between a `SET` and a `REMOVE`. The
statement removes first and assigns after, so a key that has an assignment
ends with the value of its last one, and a key that has none is gone if
some item removes it (`written_properties`). Execution in order gives a key
what the last item on it says.

The two agree on a key exactly if the last item on it is an assignment
whenever there is one, of a value that is not null: a null is written as a
value. For a kind it is the same without the value. Both are inductions on
the items from the end: an item that is not on the key changes neither
side, and the last one that is decides both.
-/

namespace Dawgs.Ref

open Lib List UpdateItem Update Prod

variable {V : Type}

instance : Inhabited (NodeRow V) := ⟨⟨[], fun _ => none⟩⟩

/-! ## Collections -/

theorem buildObject_concat (entries : List (String × Option V))
    (entry : String × Option V) (key : String) : buildObject (entries ++ [entry]) key =
      if key = entry.1 then some entry.2 else buildObject entries key := by
  rw [buildObject, foldl_concat, Function.update_apply]
  rfl

section

variable (entries : List (String × Option V)) (key : String) (value : Option V) (k : String)

/-- Entries with a key that get a new value. -/
theorem buildObject_map
    : buildObject (entries.map fun entry =>
        if entry.1 = key then (entry.1, value) else entry) k =
      if k = key ∧ key ∈ entries.map fst then some value
      else buildObject entries k := by
  induction entries using reverseRecOn with
  | nil => simp
  | append_singleton entries entry ih =>
    rw [map_append, map_singleton, buildObject_concat, buildObject_concat, ih]
    by_cases hkey : entry.1 = key
    · by_cases hk : k = key <;> simp [hkey, hk]
    · by_cases hk : k = entry.1
      · simp [hk, hkey]
      · simp only [if_neg hkey, if_neg hk, map_append, map_singleton, mem_append, mem_singleton,
          Ne.symm hkey, or_false]

theorem buildObject_put
    : buildObject (put key value entries) k =
      if k = key then some value else buildObject entries k := by
  unfold put upsert
  split
  next hmem =>
    rw [buildObject_map]
    simp [hmem]
  next => rw [buildObject_concat]

end

theorem mem_keys_put {E : Type} (key : String) (value : E) (s : List (String × E)) (k : String) :
    k ∈ (put key value s).map fst ↔ k = key ∨ k ∈ s.map fst := by
  rw [put, keys_upsert]
  split
  next hmem =>
    constructor
    · exact .inr
    · rintro (rfl | hk)
      · exact hmem
      · exact hk
  next => rw [mem_append, mem_singleton, or_comm]

variable (items : List (UpdateItem V))

/-- What is collected for a variable from its items. -/
def collected : Update V := items.foldl add empty

theorem collected_concat (item : UpdateItem V) :
    collected (items ++ [item]) = (collected items).add item := foldl_concat ..

theorem executeItems_concat (item : UpdateItem V) (n : NodeRow V) :
    executeItems (items ++ [item]) n = item.execute (executeItems items n) := foldl_concat ..

/-! ## The written columns -/

/-- A key has the value of its last assignment, or what the removals leave. -/
theorem written_properties (s : Update V) (n : NodeRow V) (key : String) :
    ((buildUpdates s).write n).properties key = (buildObject s.propertyAssignments key).or
        (if key ∈ s.removals.map fst then none else n.properties key) := by
  by_cases hassign : s.propertyAssignments = []
  · by_cases hremove : s.removals = [] <;>
      simp [SqlUpdate.write, buildUpdates, hassign, hremove, PropertiesExpression.eval, buildObject]
  · by_cases hremove : s.removals = [] <;>
      simp [SqlUpdate.write, buildUpdates, hassign, hremove, PropertiesExpression.eval]

/-- A kind is assigned, or it was there and is not removed. -/
theorem written_kinds (s : Update V) (n : NodeRow V) (kind : String) :
    kind ∈ ((buildUpdates s).write n).kinds ↔
      kind ∈ s.kindAssignments ∨ kind ∈ n.kinds ∧ kind ∉ s.kindRemovals := by
  by_cases hassign : s.kindAssignments = []
  · by_cases hremove : s.kindRemovals = [] <;>
      simp [SqlUpdate.write, buildUpdates, hassign, hremove, KindsExpression.eval]
  · by_cases hremove : s.kindRemovals = [] <;>
      simp [SqlUpdate.write, buildUpdates, hassign, hremove, KindsExpression.eval, or_comm]

/-! ## Items on a key and on a kind -/

/-- The item sets or removes the property. -/
def UpdateItem.onProperty (key : String) : UpdateItem V → Bool
  | .setProperty k _ => k = key
  | .removeProperty k => k = key
  | _ => false

/-- The item adds or removes the kind. -/
def UpdateItem.onKind (kind : String) : UpdateItem V → Bool
  | .setKinds kinds => kind ∈ kinds
  | .removeKinds kinds => kind ∈ kinds
  | _ => false

/-- If the key is ever set, the last item on it sets it to a value. -/
def PropertySettled (key : String) : Prop :=
  (∃ value, .setProperty key value ∈ items) → ∃ value, (items.filter (onProperty key)).getLast? =
      some (.setProperty key (some value))

/-- If the kind is ever added, the last item on it adds it. -/
def KindSettled (kind : String) : Prop :=
  (∃ kinds, .setKinds kinds ∈ items ∧ kind ∈ kinds) →
    ∃ kinds, (items.filter (onKind kind)).getLast? = some (.setKinds kinds)

variable {items : List (UpdateItem V)} {key kind : String} {item : UpdateItem V}

theorem assigned_eq_none :
    buildObject (collected items).propertyAssignments key = none ↔
      ∀ value, .setProperty key value ∉ items := by
  induction items using reverseRecOn with
  | nil => simp [collected, empty, buildObject]
  | append_singleton items item ih =>
    rw [collected_concat]
    cases item with
    | setProperty k value =>
      rw [add, buildObject_put]
      split
      next h =>
        subst h
        simp only [reduceCtorEq, false_iff, not_forall]
        exact ⟨value, by simp⟩
      next h => simp [ih, h]
    | setKinds kinds | removeProperty k | removeKinds kinds => simpa [add] using ih

theorem mem_kindAssignments :
    kind ∈ (collected items).kindAssignments ↔ ∃ kinds, .setKinds kinds ∈ items ∧ kind ∈ kinds := by
  induction items using reverseRecOn with
  | nil => simp [collected, empty]
  | append_singleton items item ih =>
    rw [collected_concat]
    cases item with
    | setProperty k value | removeProperty k | removeKinds kinds => simpa [add] using ih
    | setKinds kinds =>
      rw [add, mem_append, ih]
      constructor
      · rintro (⟨ks, hks, hkind⟩ | hkind)
        · exact ⟨ks, mem_append_left _ hks, hkind⟩
        · exact ⟨kinds, by simp, hkind⟩
      · rintro ⟨ks, hks, hkind⟩
        obtain hks | hks := mem_append.mp hks
        · exact .inl ⟨ks, hks, hkind⟩
        · obtain rfl : ks = kinds := by simpa using hks
          exact .inr hkind

/-! ## The last item decides -/

/-- The value of a key after the items in order. -/
theorem executed_property (items : List (UpdateItem V)) (n : NodeRow V)
    (item : UpdateItem V) (key : String) : (executeItems (items ++ [item]) n).properties key =
      match item with
      | .setProperty k value =>
        if key = k then value.map some
        else (executeItems items n).properties key
      | .removeProperty k => if key = k then none else (executeItems items n).properties key
      | _ => (executeItems items n).properties key := by
  rw [executeItems_concat]
  cases item <;> simp [execute, Function.update_apply]

/-- An item that is not on the key is no matter. -/
theorem propertySettled_concat_of_not (h : item.onProperty key = false) :
    PropertySettled (items ++ [item]) key ↔ PropertySettled items key := by
  have hfilter : (items ++ [item]).filter (onProperty key) = items.filter (onProperty key) := by
    simp [h]
  have hset : (∃ value, .setProperty key value ∈ items ++ [item]) ↔
      ∃ value, .setProperty key value ∈ items := by
    refine exists_congr fun value => ?_
    rw [mem_append, mem_singleton, or_iff_left]
    rintro rfl
    simp [onProperty] at h
  rw [PropertySettled, PropertySettled, hfilter, hset]

theorem getLast?_filter_concat {p : UpdateItem V → Bool} (h : p item = true) :
    ((items ++ [item]).filter p).getLast? = some item := by
  simp [h]

theorem property_iff (items : List (UpdateItem V)) (key : String) : (∀ n : NodeRow V,
      ((buildUpdates (collected items)).write n).properties key =
        (executeItems items n).properties key) ↔ PropertySettled items key := by
  simp only [written_properties]
  induction items using reverseRecOn with
  | nil =>
    simp [PropertySettled, collected, empty, buildObject, executeItems]
  | append_singleton items item ih =>
    simp only [collected_concat, executed_property]
    cases item with
    | setProperty k value =>
      simp only [add, buildObject_put]
      by_cases h : key = k
      · subst h
        rw [PropertySettled, getLast?_filter_concat (by simp [onProperty])]
        cases value with
        | none | some v => simp
      · rw [propertySettled_concat_of_not (by simp [onProperty, Ne.symm h])]
        simp only [if_neg h]
        exact ih
    | setKinds kinds | removeKinds kinds =>
      rw [propertySettled_concat_of_not rfl]
      exact ih
    | removeProperty k =>
      simp only [add, mem_keys_put]
      by_cases h : key = k
      · subst h
        rw [PropertySettled, getLast?_filter_concat (by simp [onProperty])]
        simp only [true_or, if_true, Option.or_none, assigned_eq_none]
        simp
      · rw [propertySettled_concat_of_not (by simp [onProperty, Ne.symm h])]
        simp only [h, false_or]
        exact ih

/-- An item that is not on the kind is no matter. -/
theorem kindSettled_concat_of_not (h : item.onKind kind = false) :
    KindSettled (items ++ [item]) kind ↔ KindSettled items kind := by
  have hfilter : (items ++ [item]).filter (onKind kind) = items.filter (onKind kind) := by
    simp [h]
  have hset : (∃ kinds, .setKinds kinds ∈ items ++ [item] ∧ kind ∈ kinds) ↔
      ∃ kinds, .setKinds kinds ∈ items ∧ kind ∈ kinds := by
    refine exists_congr fun kinds => and_congr_left fun hkind => ?_
    rw [mem_append, mem_singleton, or_iff_left]
    rintro rfl
    simp [onKind, hkind] at h
  rw [KindSettled, KindSettled, hfilter, hset]

theorem kind_iff (items : List (UpdateItem V)) (kind : String) : (∀ n : NodeRow V,
      kind ∈ ((buildUpdates (collected items)).write n).kinds ↔
        kind ∈ (executeItems items n).kinds) ↔ KindSettled items kind := by
  simp only [written_kinds]
  induction items using reverseRecOn with
  | nil => simp [KindSettled, collected, empty, executeItems]
  | append_singleton items item ih =>
    simp only [collected_concat, executeItems_concat]
    cases item with
    | setProperty k value | removeProperty k =>
      rw [kindSettled_concat_of_not rfl]
      exact ih
    | setKinds kinds =>
      simp only [add, execute, mem_append]
      by_cases h : kind ∈ kinds
      · rw [KindSettled, getLast?_filter_concat (by simp [onKind, h])]
        simp [h]
      · rw [kindSettled_concat_of_not (by simp [onKind, h])]
        simp only [h, or_false]
        exact ih
    | removeKinds kinds =>
      simp only [add, execute, mem_append, mem_filter]
      by_cases h : kind ∈ kinds
      · rw [KindSettled, getLast?_filter_concat (by simp [onKind, h])]
        simp only [h, mem_kindAssignments]
        simp
      · rw [kindSettled_concat_of_not (by simp [onKind, h])]
        simp only [h, or_false, decide_not, decide_false, Bool.not_false, and_true]
        exact ih

/-! ## A query part -/

/-- The statement writes what the items of the variable collect. -/
theorem writtenTo_eq (items : List (String × UpdateItem V)) (target : String) (n : NodeRow V) :
    writtenTo items target n = (buildUpdates (collected (itemsOf items target))).write n := by
  have hcollect : collectUpdates items = (firsts (items.map fst)).map fun name =>
        (name, collected (itemsOf items name)) :=
    upserts_eq_map items fun _ _ _ => rfl
  rw [writtenTo, hcollect]
  by_cases hmem : target ∈ items.map fst
  · rw [lookup_graph (fun name => collected (itemsOf items name)) (mem_firsts.mpr hmem)]
    rfl
  · have hlookup : ((firsts (items.map fst)).map fun name =>
        (name, collected (itemsOf items name))).lookup target = none := by
      rw [lookup_eq_none_iff]
      intro entry hentry
      obtain ⟨name, hname, rfl⟩ := mem_map.mp hentry
      rw [bne_iff_ne]
      rintro rfl
      exact hmem (mem_firsts.mp hname)
    rw [hlookup, itemsOf_eq_nil hmem]
    rfl

/-- The node as Cypher leaves it: the same properties, the same kinds. -/
def NodeRow.Same (a b : NodeRow V) : Prop :=
  a.properties = b.properties ∧ ∀ kind, kind ∈ a.kinds ↔ kind ∈ b.kinds

/-- The statement does what the items do in order, for every node, exactly
if the last item on a key or kind is an assignment where there is one. -/
theorem writtenTo_same_iff (items : List (String × UpdateItem V)) (target : String) :
    (∀ n : NodeRow V, (writtenTo items target n).Same (executeItems (itemsOf items target) n)) ↔
    (∀ key, PropertySettled (itemsOf items target) key) ∧
      ∀ kind, KindSettled (itemsOf items target) kind := by
  simp only [← property_iff, ← kind_iff, writtenTo_eq, NodeRow.Same, funext_iff]
  constructor
  · exact fun h => ⟨fun key n => (h n).1 key, fun kind n => (h n).2 kind⟩
  · exact fun h n => ⟨fun key => h.1 key n, fun kind => h.2 kind n⟩

/-- `SET n.name = 'a' REMOVE n.name` writes the name. -/
theorem writtenTo_set_remove : ¬ ∀ n : NodeRow String,
      (writtenTo [("n", .setProperty "name" (some "a")), ("n", .removeProperty "name")] "n" n).Same
      (executeItems (itemsOf [("n", .setProperty "name" (some "a")),
        ("n", .removeProperty "name")] "n") n) := by
  intro h
  have hname := congrFun (h default).1 "name"
  revert hname
  decide

end Dawgs.Ref

import Dawgs.Lib.Concatenation
import Dawgs.Lib.Lists
import Dawgs.Ref.IdentityUpdates

/-!
# When keys stand for identities

The identity of a node update is its kind and the values of its identity
properties. The key has only the values, one after the other. So for two
ways to name an identity, a kind and a list of property names each, the
keys are the same exactly for the same identities, whatever the values, if
and only if the kinds are the same and there is no more than one name.

A relationship update has the kind of the relationship in front, and then
the values of three lists of names, of the start node, the relationship
and the end node. For one relationship kind it is the same story: no more
than one name in all. Two relationship kinds are kept apart unless one of
the two is the beginning of the other, and there is a property whose value
can be the rest of it.
-/

namespace Dawgs.Ref

open Lib List RelationshipUpdate

variable {α : Type}

/-! ## Identities -/

/-- The same values for the same properties. -/
def SameValues (names₁ names₂ : List String) (p₁ p₂ : Properties (PropertyValue α)) : Prop :=
  (∀ n, n ∈ names₁ ↔ n ∈ names₂) ∧ ∀ n ∈ names₁, p₁.map n = p₂.map n

/-- Two node updates with the same identity. -/
structure NodeUpdate.SameIdentity (u v : NodeUpdate α) : Prop where
  kind : u.identityKind = v.identityKind
  values : SameValues u.identityProperties v.identityProperties u.node.properties v.node.properties

/-- Two relationship updates with the same identity. -/
structure RelationshipUpdate.SameIdentity (u v : RelationshipUpdate α) : Prop where
  start : u.startNodeUpdate.SameIdentity v.startNodeUpdate
  end_ : u.endNodeUpdate.SameIdentity v.endNodeUpdate
  kind : u.relationship.kind = v.relationship.kind
  values : SameValues u.identityProperties v.identityProperties
    u.relationship.properties v.relationship.properties

/-! ## Texts of values -/

variable {names : List String} {p : Properties (PropertyValue α)} {a : RelationshipNaming}

theorem mem_sortNames {n : String} :
    n ∈ sortNames names ↔ n ∈ names := (perm_insertionSort _ names).mem_iff

/-- The string a property has; empty if it has none. -/
def stringOf (p : Properties (PropertyValue α)) (n : String) : String :=
  match p.map n with
  | some (.string s) => s
  | _ => ""

/-- All named properties are strings. -/
def AllStrings (p : Properties (PropertyValue α)) (names : List String) : Prop :=
  ∀ n ∈ names, p.map n = some (.string (stringOf p n))

section

variable (f : String → List Char)

/-- A bag of these strings. -/
def ofStrings : Properties (PropertyValue α) :=
  .load fun n => some (.string (String.ofList (f n)))

theorem stringOf_ofStrings (n : String) :
    (stringOf (ofStrings f : Properties (PropertyValue α)) n).toList = f n := by
  simp [stringOf, ofStrings, Properties.load]

theorem allStrings_ofStrings (names : List String) :
    AllStrings (ofStrings f : Properties (PropertyValue α)) names := fun _ _ => rfl

end

theorem getString_ok_iff {n s : String} :
    p.getString n = .ok s ↔ p.map n = some (.string (stringOf p n)) ∧ s = stringOf p n := by
  unfold Properties.getString stringOf
  cases p.map n with
  | none => simp
  | some v => cases v <;> simp [eq_comm]

/-- What is written are the strings, one after the other. -/
theorem writeValues_ok_iff {text : String} :
    writeValues p names = .ok text ↔ AllStrings p names ∧
        text.toList = names.flatMap fun n => (stringOf p n).toList := by
  induction names generalizing text with
  | nil =>
    simp only [writeValues, Except.ok.injEq, flatMap_nil, String.toList_eq_nil_iff]
    refine ⟨fun h => ⟨fun n hn => ?_, h.symm⟩, fun h => h.2.symm⟩
    cases hn
  | cons n names ih =>
    have hall : AllStrings p (n :: names) ↔
        p.map n = some (.string (stringOf p n)) ∧ AllStrings p names := forall_mem_cons
    rw [hall, flatMap_cons, writeValues]
    simp only [bind_eq_ok_iff, getString_ok_iff, ih]
    constructor
    · rintro ⟨_, ⟨hn, rfl⟩, rest, ⟨hnames, hrest⟩, hjoin⟩
      cases hjoin
      exact ⟨⟨hn, hnames⟩, by rw [String.toList_append, hrest]⟩
    · intro ⟨⟨hn, hnames⟩, htext⟩
      refine ⟨_, ⟨hn, rfl⟩, _, ⟨hnames, String.toList_ofList⟩, congrArg Except.ok ?_⟩
      rw [← String.toList_inj, String.toList_append, String.toList_ofList, htext]

theorem allStrings_sortNames : AllStrings p (sortNames names) ↔ AllStrings p names := by
  unfold AllStrings
  simp only [mem_sortNames]

/-- For strings, the values are the same if the strings are. -/
theorem sameValues_iff {names₁ names₂ : List String} {p₁ p₂ : Properties (PropertyValue α)}
    (h₁ : AllStrings p₁ names₁) (h₂ : AllStrings p₂ names₂) :
    SameValues names₁ names₂ p₁ p₂ ↔ (∀ n, n ∈ names₁ ↔ n ∈ names₂) ∧
        ∀ n ∈ names₁, (stringOf p₁ n).toList = (stringOf p₂ n).toList := by
  refine and_congr_right fun hmem => forall₂_congr fun n hn => ?_
  rw [h₁ n hn, h₂ n ((hmem n).mp hn), String.toList_inj]
  simp

/-! ## Node updates -/

/-- How an identity is named: a kind, and names of properties. -/
structure NodeNaming where
  kind : String
  names : List String

def NodeUpdate.naming (u : NodeUpdate α) : NodeNaming := ⟨u.identityKind, u.identityProperties⟩

/-- The keys are the same exactly for the same identities, for all updates
that name them in these two ways. -/
def NodeKeysIdentify (α : Type) (a b : NodeNaming) : Prop :=
  ∀ u v : NodeUpdate α, u.naming = a → v.naming = b →
    ∀ k l, u.key = .ok k → v.key = .ok l → (k = l ↔ u.SameIdentity v)

theorem eq_of_sortNames (h : ∀ a ∈ names, ∀ b ∈ names, a = b) : sortNames names = names := by
  cases names with
  | nil => rfl
  | cons a names =>
    have h₁ := eq_replicate_of_mem fun b hb => h b hb a (mem_cons_self ..)
    have h₂ := eq_replicate_of_mem (l := sortNames (a :: names))
      fun b hb => h b (mem_sortNames.mp hb) a (mem_cons_self ..)
    have hlen : (sortNames (a :: names)).length = (a :: names).length :=
      (perm_insertionSort _ _).length_eq
    rw [h₂, hlen]
    exact h₁.symm

theorem nodeKey_ok_iff {u : NodeUpdate α} {k : String} :
    u.key = .ok k ↔ AllStrings u.node.properties u.identityProperties ∧
        k.toList = (sortNames u.identityProperties).flatMap fun n =>
          (stringOf u.node.properties n).toList := by
  rw [NodeUpdate.key, writeValues_ok_iff, allStrings_sortNames]

/-- In terms of the texts alone. -/
theorem nodeKeysIdentify_iff_texts {a b : NodeNaming} :
    NodeKeysIdentify α a b ↔ ∀ f g : String → List Char,
        (sortNames a.names).flatMap f = (sortNames b.names).flatMap g ↔
          a.kind = b.kind ∧ (∀ n, n ∈ a.names ↔ n ∈ b.names) ∧ ∀ n ∈ a.names, f n = g n := by
  constructor
  · intro h f g
    have hkey := h ⟨⟨[], [], [], ofStrings f⟩, a.kind, a.names⟩
      ⟨⟨[], [], [], ofStrings g⟩, b.kind, b.names⟩ rfl rfl
      (String.ofList ((sortNames a.names).flatMap f))
      (String.ofList ((sortNames b.names).flatMap g))
      (nodeKey_ok_iff.mpr ⟨allStrings_ofStrings _ _, by
        simp [stringOf_ofStrings]⟩)
      (nodeKey_ok_iff.mpr ⟨allStrings_ofStrings _ _, by
        simp [stringOf_ofStrings]⟩)
    rw [String.ofList_inj] at hkey
    rw [hkey]
    have hvalues := sameValues_iff (allStrings_ofStrings (α := α) f a.names)
      (allStrings_ofStrings g b.names)
    simp only [stringOf_ofStrings] at hvalues
    exact ⟨fun h => ⟨h.kind, hvalues.mp h.values⟩, fun h => ⟨h.1, hvalues.mpr h.2⟩⟩
  · intro h u v hu hv k l hk hl
    obtain ⟨hstrings, hk⟩ := (nodeKey_ok_iff).mp hk
    obtain ⟨hstrings', hl⟩ := (nodeKey_ok_iff).mp hl
    subst hu hv
    rw [← String.toList_inj, hk, hl]
    refine (h _ _).trans ?_
    have hvalues := sameValues_iff hstrings hstrings'
    exact ⟨fun h => ⟨h.1, hvalues.mpr h.2⟩, fun h => ⟨h.kind, hvalues.mp h.values⟩⟩

/-- One kind, and one name at most. -/
theorem nodeKeysIdentify_iff {a b : NodeNaming} :
    NodeKeysIdentify α a b ↔ a = b ∧ ∀ m ∈ a.names, ∀ n ∈ a.names, m = n := by
  rw [nodeKeysIdentify_iff_texts]
  have hlib := flatMap_identifies_iff (C := Char) (sortNames a.names) (sortNames b.names)
  simp only [mem_sortNames] at hlib
  constructor
  · intro h
    have hkind : a.kind = b.kind :=
      ((h (fun _ => []) (fun _ => [])).mp (by rw [flatMap_empty, flatMap_empty])).1
    obtain ⟨hsort, hone⟩ := hlib.mp fun f g =>
      (h f g).trans (and_iff_right hkind)
    refine ⟨?_, hone⟩
    have hone' : ∀ m ∈ b.names, ∀ n ∈ b.names, m = n := by
      intro m hm n hn
      rw [← mem_sortNames, ← hsort, mem_sortNames] at hm hn
      exact hone m hm n hn
    rw [eq_of_sortNames hone, eq_of_sortNames hone'] at hsort
    exact NodeNaming.mk.injEq .. ▸ ⟨hkind, hsort⟩
  · intro ⟨heq, hone⟩ f g
    subst heq
    exact ((hlib.mpr ⟨rfl, hone⟩) f g).trans (and_iff_right rfl).symm

/-! ## Relationship updates -/

/-- What a property of a relationship update belongs to. -/
inductive Role where
  | start
  | relationship
  | end_
  deriving DecidableEq

/-- How a relationship update names its identities. -/
structure RelationshipNaming where
  kind : String
  start : NodeNaming
  names : List String
  end_ : NodeNaming

namespace RelationshipNaming

/-- The properties in the order they are written. -/
def fields (a : RelationshipNaming) : List (Role × String) :=
  (sortNames a.start.names).map (Role.start, ·) ++
    ((sortNames a.names).map (Role.relationship, ·) ++ (sortNames a.end_.names).map (Role.end_, ·))

/-- No name is in a list twice. -/
structure Distinct (a : RelationshipNaming) : Prop where
  start : a.start.names.Nodup
  names : a.names.Nodup
  end_ : a.end_.names.Nodup

/-- The names of one role. -/
def namesOf (a : RelationshipNaming) : Role → List String
  | .start => a.start.names
  | .relationship => a.names
  | .end_ => a.end_.names

theorem mem_fields {t : Role × String} : t ∈ a.fields ↔ t.2 ∈ a.namesOf t.1 := by
  obtain ⟨role, n⟩ := t
  cases role <;> simp [fields, namesOf, mem_sortNames]

theorem Distinct.nodup (h : a.Distinct) : a.fields.Nodup := by
  have hmap : ∀ (role : Role) {names : List String}, names.Nodup →
      ((sortNames names).map (role, ·)).Nodup := by
    intro role names hn
    exact ((perm_insertionSort _ names).nodup_iff.mpr hn).map fun m n heq => (Prod.mk.inj heq).2
  refine nodup_append.mpr ⟨hmap _ h.start,
    nodup_append.mpr ⟨hmap _ h.names, hmap _ h.end_, ?_⟩, ?_⟩ <;>
  · intro s hs t ht heq
    grind

/-- With one field at most, the fields say how the update is named. -/
theorem namesOf_eq_of_fields {b : RelationshipNaming} (h : a.fields = b.fields)
    (hone : ∀ s ∈ a.fields, ∀ t ∈ a.fields, s = t) (role : Role) :
    a.namesOf role = b.namesOf role := by
  have hpick : ∀ c : RelationshipNaming,
      (c.fields.filter (·.1 = role)).map Prod.snd = sortNames (c.namesOf role) := by
    cases role <;> simp [fields, namesOf, filter_map, Function.comp_def]
  have hall : ∀ c : RelationshipNaming, (∀ s ∈ c.fields, ∀ t ∈ c.fields, s = t) →
      sortNames (c.namesOf role) = c.namesOf role := by
    intro c hc
    refine eq_of_sortNames fun m hm n hn => ?_
    have heq := hc (role, m) (mem_fields.mpr hm) (role, n) (mem_fields.mpr hn)
    exact (Prod.mk.inj heq).2
  rw [← hall a hone, ← hall b (h ▸ hone), ← hpick, ← hpick, h]

end RelationshipNaming

namespace RelationshipUpdate

def naming (u : RelationshipUpdate α) : RelationshipNaming :=
  ⟨u.relationship.kind, u.startNodeUpdate.naming, u.identityProperties, u.endNodeUpdate.naming⟩

/-- The bag of one role. -/
def bag (u : RelationshipUpdate α) : Role → Properties (PropertyValue α)
  | .start => u.start.properties
  | .relationship => u.relationship.properties
  | .end_ => u.end_.properties

/-- An update with these strings. -/
def ofNaming (a : RelationshipNaming) (f : Role × String → List Char) : RelationshipUpdate α where
  relationship := ⟨a.kind, ofStrings fun n => f (.relationship, n)⟩
  identityProperties := a.names
  start := ⟨[], [], [], ofStrings fun n => f (.start, n)⟩
  startIdentityKind := a.start.kind
  startIdentityProperties := a.start.names
  end_ := ⟨[], [], [], ofStrings fun n => f (.end_, n)⟩
  endIdentityKind := a.end_.kind
  endIdentityProperties := a.end_.names

theorem key_ok_iff {u : RelationshipUpdate α} {k : String} :
    u.key = .ok k ↔ (∀ role, AllStrings (u.bag role) (u.naming.namesOf role)) ∧
        k.toList = u.relationship.kind.toList ++ u.naming.fields.flatMap fun t =>
            (stringOf (u.bag t.1) t.2).toList := by
  have hroles : (∀ role, AllStrings (u.bag role) (u.naming.namesOf role)) ↔
      AllStrings u.start.properties u.startIdentityProperties ∧
        AllStrings u.relationship.properties u.identityProperties ∧
        AllStrings u.end_.properties u.endIdentityProperties :=
    ⟨fun h => ⟨h .start, h .relationship, h .end_⟩,
      fun h role => by cases role; exacts [h.1, h.2.1, h.2.2]⟩
  have hfields : (u.naming.fields.flatMap fun t =>
        (stringOf (u.bag t.1) t.2).toList) =
      ((sortNames u.startIdentityProperties).flatMap fun n =>
        (stringOf u.start.properties n).toList) ++
      (((sortNames u.identityProperties).flatMap fun n =>
        (stringOf u.relationship.properties n).toList) ++
      (sortNames u.endIdentityProperties).flatMap fun n =>
        (stringOf u.end_.properties n).toList) := by
    simp only [RelationshipNaming.fields, flatMap_append, flatMap_map]
    rfl
  rw [hroles, hfields, key]
  simp only [bind_eq_ok_iff, nodeKey_ok_iff, writeValues_ok_iff, allStrings_sortNames]
  constructor
  · rintro ⟨startKey, ⟨hs, hstart⟩, endKey, ⟨he, hend⟩, values, ⟨hv, hvalues⟩, hjoin⟩
    cases hjoin
    refine ⟨⟨hs, hv, he⟩, ?_⟩
    simp only [String.toList_append, hstart, hend, hvalues, append_assoc]
    rfl
  · intro ⟨⟨hs, hv, he⟩, hk⟩
    refine ⟨_, ⟨hs, String.toList_ofList⟩, _, ⟨he, String.toList_ofList⟩, _,
      ⟨hv, String.toList_ofList⟩, congrArg Except.ok ?_⟩
    rw [← String.toList_inj, hk]
    simp only [String.toList_append, String.toList_ofList, append_assoc]
    rfl

/-- For strings, two identities are the same if the fields are. -/
theorem sameIdentity_iff {u v : RelationshipUpdate α}
    (hu : ∀ role, AllStrings (u.bag role) (u.naming.namesOf role))
    (hv : ∀ role, AllStrings (v.bag role) (v.naming.namesOf role)) :
    u.SameIdentity v ↔
      (u.relationship.kind = v.relationship.kind ∧ u.startIdentityKind = v.startIdentityKind ∧
        u.endIdentityKind = v.endIdentityKind) ∧ (∀ t, t ∈ u.naming.fields ↔ t ∈ v.naming.fields) ∧
        ∀ t ∈ u.naming.fields, (stringOf (u.bag t.1) t.2).toList =
          (stringOf (v.bag t.1) t.2).toList := by
  have hroles : (∀ role, SameValues (u.naming.namesOf role)
        (v.naming.namesOf role) (u.bag role) (v.bag role)) ↔
      (∀ t, t ∈ u.naming.fields ↔ t ∈ v.naming.fields) ∧
        ∀ t ∈ u.naming.fields, (stringOf (u.bag t.1) t.2).toList =
          (stringOf (v.bag t.1) t.2).toList := by
    simp only [sameValues_iff (hu _) (hv _), RelationshipNaming.mem_fields]
    exact ⟨fun h => ⟨fun t => (h t.1).1 t.2, fun t => (h t.1).2 t.2⟩,
      fun h role => ⟨fun n => h.1 (role, n), fun n => h.2 (role, n)⟩⟩
  rw [← hroles]
  constructor
  · intro h
    refine ⟨⟨h.kind, h.start.kind, h.end_.kind⟩, fun role => ?_⟩
    cases role
    · exact h.start.values
    · exact h.values
    · exact h.end_.values
  · intro ⟨⟨hkind, hstart, hend⟩, hvalues⟩
    exact ⟨⟨hstart, hvalues .start⟩, ⟨hend, hvalues .end_⟩, hkind, hvalues .relationship⟩

end RelationshipUpdate

/-- As for node updates, for relationship updates. -/
def RelationshipKeysIdentify (α : Type) (a b : RelationshipNaming) : Prop :=
  ∀ u v : RelationshipUpdate α, u.naming = a → v.naming = b →
    ∀ k l, u.key = .ok k → v.key = .ok l → (k = l ↔ u.SameIdentity v)

theorem relationshipKeysIdentify_iff_texts {b : RelationshipNaming} :
    RelationshipKeysIdentify α a b ↔ ∀ f g : Role × String → List Char,
        a.kind.toList ++ a.fields.flatMap f = b.kind.toList ++ b.fields.flatMap g ↔
          (a.kind = b.kind ∧ a.start.kind = b.start.kind ∧
            a.end_.kind = b.end_.kind) ∧ (∀ t, t ∈ a.fields ↔ t ∈ b.fields) ∧
            ∀ t ∈ a.fields, f t = g t := by
  constructor
  · intro h f g
    have hall : ∀ (c : RelationshipNaming) (f : Role × String → List Char) (role : Role), AllStrings
          ((ofNaming c f : RelationshipUpdate α).bag role) (c.namesOf role) := by
      intro c f role
      cases role <;> exact allStrings_ofStrings _ _
    have hbag : ∀ (c : RelationshipNaming) (f : Role × String → List Char)
        (t : Role × String), (stringOf ((ofNaming c f : RelationshipUpdate α).bag t.1)
            t.2).toList = f t := by
      intro c f ⟨role, n⟩
      cases role <;> exact stringOf_ofStrings _ _
    have hkey := h (.ofNaming a f) (.ofNaming b g) rfl rfl
      (String.ofList (a.kind.toList ++ a.fields.flatMap f))
      (String.ofList (b.kind.toList ++ b.fields.flatMap g)) (key_ok_iff.mpr ⟨hall a f, by
        simp only [hbag, String.toList_ofList]; rfl⟩)
      (key_ok_iff.mpr ⟨hall b g, by
        simp only [hbag, String.toList_ofList]; rfl⟩)
    rw [String.ofList_inj] at hkey
    rw [hkey, sameIdentity_iff (hall a f) (hall b g)]
    simp only [hbag]
    rfl
  · intro h u v hu hv k l hk hl
    obtain ⟨hstrings, hk⟩ := (key_ok_iff).mp hk
    obtain ⟨hstrings', hl⟩ := (key_ok_iff).mp hl
    subst hu hv
    rw [← String.toList_inj, hk, hl, sameIdentity_iff hstrings hstrings']
    exact h _ _

/-- Two different relationship kinds keep the keys apart. -/
def KindsApart (a b : RelationshipNaming) : Prop :=
  a.kind ≠ b.kind ∧ (a.kind.toList <+: b.kind.toList → a.fields = []) ∧
    (b.kind.toList <+: a.kind.toList → b.fields = [])

theorem relationshipKeysIdentify_iff {b : RelationshipNaming} (ha : a.Distinct) (hb : b.Distinct) :
    RelationshipKeysIdentify α a b ↔
      (a = b ∧ ∀ s ∈ a.fields, ∀ t ∈ a.fields, s = t) ∨ KindsApart a b := by
  rw [relationshipKeysIdentify_iff_texts]
  by_cases hkind : a.kind = b.kind
  · have hlib := flatMap_identifies_iff (C := Char) a.fields b.fields
    have hno : ¬ KindsApart a b := fun h => h.1 hkind
    simp only [hkind, append_cancel_left_eq, true_and, hno, or_false]
    constructor
    · intro h
      have hkinds := ((h (fun _ => []) (fun _ => [])).mp (by rw [flatMap_empty, flatMap_empty])).1
      obtain ⟨hfields, hone⟩ := hlib.mp fun f g =>
        (h f g).trans (and_iff_right hkinds)
      refine ⟨?_, hone⟩
      have hnames := RelationshipNaming.namesOf_eq_of_fields hfields hone
      obtain ⟨kind, ⟨startKind, startNames⟩, names, endKind, endNames⟩ := a
      obtain ⟨kind', ⟨startKind', startNames'⟩, names', endKind', endNames'⟩ := b
      obtain rfl : kind = kind' := hkind
      obtain ⟨rfl, rfl⟩ : startKind = startKind' ∧ endKind = endKind' := hkinds
      obtain rfl : startNames = startNames' := hnames .start
      obtain rfl : names = names' := hnames .relationship
      obtain rfl : endNames = endNames' := hnames .end_
      rfl
    · intro ⟨heq, hone⟩ f g
      subst heq
      refine (hlib.mpr ⟨rfl, hone⟩ f g).trans ?_
      simp
  · have hlib := append_flatMap_ne_iff ha.nodup hb.nodup (mt String.toList_inj.mp hkind)
    have hne : ¬ (a = b ∧ ∀ s ∈ a.fields, ∀ t ∈ a.fields, s = t) :=
      fun h => hkind (congrArg RelationshipNaming.kind h.1)
    simp only [hkind, false_and, iff_false, hne, false_or]
    rw [hlib]
    exact (and_iff_right hkind).symm

/-! ## The two together -/

/-- An update of a user by the properties `a` and `b`. -/
def userByTwo (a b : String) : NodeUpdate Unit where
  node := ⟨["User"], [], [], .load fun n =>
    if n = "a" then some (.string a)
    else if n = "b" then some (.string b) else none⟩
  identityKind := "User"
  identityProperties := ["a", "b"]

/-- A letter moves from one value into the other, and the key stays. -/
theorem different_users_same_key :
    (userByTwo "ab" "c").key = .ok "abc" ∧ (userByTwo "a" "bc").key = .ok "abc" ∧
      ¬ (userByTwo "ab" "c").SameIdentity (userByTwo "a" "bc") := by
  refine ⟨by decide +kernel, by decide +kernel, fun h => ?_⟩
  have hval := h.values.2 "a" (by decide)
  exact absurd hval (by decide)

/-- Keys stand for identities, whatever the values, exactly if the updates
are named alike and by one property at most; those of relationships also if
their kinds keep them apart. -/
theorem keys_identify_iff (α : Type) :
    (∀ a b : NodeNaming, NodeKeysIdentify α a b ↔ a = b ∧ ∀ m ∈ a.names, ∀ n ∈ a.names, m = n) ∧
    ∀ a b : RelationshipNaming, a.Distinct → b.Distinct →
      (RelationshipKeysIdentify α a b ↔
        (a = b ∧ ∀ s ∈ a.fields, ∀ t ∈ a.fields, s = t) ∨ KindsApart a b) :=
  ⟨fun _ _ => nodeKeysIdentify_iff, fun _ _ => relationshipKeysIdentify_iff⟩

theorem keys_identify_iff_member_of :
    RelationshipKeysIdentify Unit ⟨"MemberOf", ⟨"User", ["objectid"]⟩, [], ⟨"Group", []⟩⟩
        ⟨"MemberOf", ⟨"User", ["objectid"]⟩, [], ⟨"Group", []⟩⟩ := by
  refine ((keys_identify_iff Unit).2 _ _ ⟨by simp, by simp, by simp⟩
    ⟨by simp, by simp, by simp⟩).mpr (.inl ⟨rfl, ?_⟩)
  decide

end Dawgs.Ref

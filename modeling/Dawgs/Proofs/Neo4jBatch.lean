import Dawgs.Lib.Lists
import Dawgs.Ref.Neo4jBatch

/-!
# A node gets the update of its batch

The statement of a batch writes the kinds of the first update of the batch
for every row. What a batch does to a node is therefore known: `written`,
the kinds of the first update and the properties of the node's own. It is
the node's own update if the kinds are the same, and if the update deletes
no property, since a deleted property is in no map that is set and the
statement removes none.

The key of an update by identifier is the text of its added kinds followed
by the text of its deleted kinds, with nothing between the names or between
the two. Adding a kind and deleting it have the same key. The key of an
update by identity leaves the deleted kinds out and sorts the kind, the
property names and the kinds of the node into one list.

The rows of a statement are apart when no two updates are of one node, so
the clauses come to one change for each row (`row_clauses`, `merge_rows`),
and the statements may run in any order by `run_eachOwn`.
-/

namespace Dawgs.Ref.Neo4j

open Lib RowChange IdentifiedNode Option

/-! ## Clauses -/

section

variable {V : Type} {t : StoredNodes V} {rows : List (BoundRow V)}

def DisjointRows (rows : List (BoundRow V)) : Prop :=
  rows.Pairwise fun a b => Disjoint a.nodes b.nodes

theorem row_forEachRow {change : BoundRow V → StoredNode V → StoredNode V}
    (h : DisjointRows rows) (id : Nat) : (forEachRow change rows t).row id = (t.row id).map fun n =>
      (rows.find? fun row => decide (id ∈ row.nodes)).elim n fun row =>
        change row n := by
  induction rows generalizing t with
  | nil => simp [forEachRow]
  | cons row rows ih =>
    obtain ⟨hrow, hrows⟩ := List.pairwise_cons.mp h
    have hcons : forEachRow change (row :: rows) t =
        forEachRow change rows (t.changeWhere
          (fun id _ => decide (id ∈ row.nodes)) (change row)) := rfl
    rw [hcons, ih hrows, Table.row_changeWhere, map_map]
    congr 1
    funext n
    by_cases hid : id ∈ row.nodes
    · have hnone : rows.find? (fun row => decide (id ∈ row.nodes)) = none := by
        rw [List.find?_eq_none]
        intro other hother
        simpa using Finset.disjoint_left.mp (hrow other hother) hid
      simp [hid, hnone]
    · simp [hid]

/-- `SET` and `REMOVE` after rows are bound. -/
theorem row_clauses (h : DisjointRows rows) (add remove : List String) (id : Nat) :
    (removeClause remove rows (setClause add rows t)).row id = (t.row id).map fun n =>
        (rows.find? fun row => decide (id ∈ row.nodes)).elim n fun row =>
          (n.set row.properties add).remove remove := by
  rw [removeClause, row_forEachRow h, setClause, row_forEachRow h, map_map]
  cases rows.find? fun row => decide (id ∈ row.nodes) <;> rfl

end

variable {α : Type} {update : IdentifiedNode α} {t : StoredNodes (PropertyValue α)}
  {n : StoredNode (PropertyValue α)} {id : Nat} {a b s first : NewNodeUpdate α}
  {properties : Properties (PropertyValue α)} {digest : String → UInt64}

/-! ## Updates by identifier -/

/-- What the statement of a batch does to the node of an update, with the
kinds of the first update. -/
def IdentifiedNode.written (first s : IdentifiedNode α) :
    RowChange Nat (StoredNode (PropertyValue α)) :=
  { s.own with
    change := fun n => (n.set s.node.properties.map first.node.addedKinds).remove
      first.node.deletedKinds }

/-- The batch of the updates with one key. -/
def batchOf : List (IdentifiedNode α) → NodeUpdateBatch α
  | [] => ⟨[], [], []⟩
  | first :: rest =>
    ⟨first.node.addedKinds, first.node.deletedKinds, (first :: rest).map parameters⟩

section

variable (digest : String → UInt64) (updates : List (IdentifiedNode α))

/-- The updates with a key. -/
def updatesWith (key : UInt64) : List (IdentifiedNode α) := itemsOf (updates.map fun update =>
    (nodeToNodeUpdateKey digest update.node, update)) key

theorem cypherBuildNodeUpdateQueryBatch_eq :
    cypherBuildNodeUpdateQueryBatch digest updates = (firsts (updates.map fun update =>
        nodeToNodeUpdateKey digest update.node)).map fun key =>
          batchOf (updatesWith digest updates key) := by
  have hbuild : ∀ (first : IdentifiedNode α) (rest : List (IdentifiedNode α))
      (_ : Nat), rest.foldl (fun batch update => { batch with
        parameters := batch.parameters ++ [update.parameters] })
        ⟨first.node.addedKinds, first.node.deletedKinds, [first.parameters]⟩ =
      batchOf (first :: rest) :=
    fun first rest _ => foldl_collect (NodeUpdateBatch.mk _ _) _
      (fun _ _ => rfl) [first.parameters] rest
  rw [cypherBuildNodeUpdateQueryBatch, upserts_eq_map _ hbuild, List.map_map, List.map_map]
  rfl

/-- The update whose kinds the statement writes. -/
def leader (update : IdentifiedNode α) : IdentifiedNode α :=
  (updatesWith digest updates (nodeToNodeUpdateKey digest update.node)).headD update

end

/-- The change of an update finds the node with its identifier. -/
structure ByID (change : IdentifiedNode α →
    RowChange Nat (StoredNode (PropertyValue α))) : Prop where
  hits (s : IdentifiedNode α) (id : Nat) (n : StoredNode (PropertyValue α)) :
    (change s).hits id n = decide (id = s.id)
  new (s : IdentifiedNode α) : (change s).new = none

namespace ByID

variable {change : IdentifiedNode α → RowChange Nat (StoredNode (PropertyValue α))}
  {updates : List (IdentifiedNode α)}

/-- Updates of different nodes. -/
theorem apart (hchange : ByID change) (h : (updates.map IdentifiedNode.id).Nodup) :
    (updates.map change).Pairwise Apart := by
  have hoff : ∀ {a b : IdentifiedNode α}, a.id ≠ b.id → ∀ {id n m},
      (change a).hits id n = true → (change b).hits id m = false := by
    intro a b hne id n m hid
    rw [hchange.hits, decide_eq_true_eq] at hid
    rw [hchange.hits, hid, decide_eq_false hne]
  rw [List.pairwise_map]
  refine (List.pairwise_map.mp h).imp fun {a b} hne => ?_
  exact ⟨fun _ _ => hoff hne, fun _ _ => hoff hne, fun _ _ => hoff hne.symm, by simp [hchange.new]⟩

theorem fresh (hchange : ByID change) (t : StoredNodes (PropertyValue α)) :
    Fresh (updates.map change) t := by
  intro c hc r hr
  obtain ⟨s, -, rfl⟩ := List.mem_map.mp hc
  rw [hchange.new] at hr
  cases hr

theorem eachOwn_id (hchange : ByID change) (h : (updates.map IdentifiedNode.id).Nodup)
    (hupdate : update ∈ updates) (hn : t.row update.id = some n) :
    eachOwn (updates.map change) t update.id = some ((change update).change n) :=
  eachOwn_of_hits (hchange.apart h) (List.mem_map_of_mem hupdate) hn (by simp [hchange.hits])

end ByID

theorem byID_written (first : IdentifiedNode α → IdentifiedNode α) :
    ByID fun update => (first update).written update := ⟨fun _ _ _ => rfl, fun _ => rfl⟩

theorem byID_own : ByID (IdentifiedNode.own (α := α)) := ⟨fun _ _ _ => rfl, fun _ => rfl⟩

theorem run_batchOf {first : IdentifiedNode α} {rest : List (IdentifiedNode α)}
    (h : ((first :: rest).map IdentifiedNode.id).Nodup) (t : StoredNodes (PropertyValue α)) :
    ∃ u, NodeUpdateBatch.run t (batchOf (first :: rest)) = some u ∧
      ∀ id, u.row id = eachOwn ((first :: rest).map first.written) t id := by
  refine ⟨_, rfl, fun id => ?_⟩
  have hrows : DisjointRows (matchClause ((first :: rest).map parameters) t) := by
    rw [DisjointRows, matchClause, List.map_map, List.pairwise_map]
    refine (List.pairwise_map.mp h).imp fun {a b} hne => ?_
    rw [Finset.disjoint_left]
    intro id ha hb
    exact hne ((Finset.mem_filter.mp ha).2.symm.trans (Finset.mem_filter.mp hb).2)
  rw [batchOf, row_clauses hrows]
  cases hid : t.row id with
  | none =>
    rw [eachOwn_of_none hid, map_none]
    intro c hc
    obtain ⟨s, -, rfl⟩ := List.mem_map.mp hc
    rfl
  | some n =>
    have hmem : id ∈ t.keys := (t.mem_keys id).mpr (by simp [hid])
    have hfind : (first :: rest).find? ((fun row => decide (id ∈ row.nodes)) ∘
        (fun row => (⟨t.keys.filter (· = row.1), row.2⟩ :
          BoundRow (PropertyValue α))) ∘ parameters) =
        (first :: rest).find? ((fun c => c.hits id n) ∘ first.written) := by
      congr 1
      funext s
      exact decide_eq_decide.mpr (Finset.mem_filter.trans (and_iff_right hmem))
    rw [eachOwn_of_row hid, matchClause, List.map_map, List.find?_map, List.find?_map, hfind]
    cases (first :: rest).find? ((fun c => c.hits id n) ∘ first.written) <;>
      rfl

section

variable {updates : List (IdentifiedNode α)}

theorem mem_updatesWith {key : UInt64} :
    update ∈ updatesWith digest updates key ↔
      update ∈ updates ∧ nodeToNodeUpdateKey digest update.node = key := mem_itemsOf_map

/-- The group of an update begins with its leader. -/
theorem exists_updatesWith (h : update ∈ updates) :
    ∃ rest, updatesWith digest updates (nodeToNodeUpdateKey digest update.node) =
      leader digest updates update :: rest := by
  obtain ⟨first, rest, hgroup⟩ : ∃ first rest,
      updatesWith digest updates (nodeToNodeUpdateKey digest update.node) =
        first :: rest :=
    exists_itemsOf_map (List.mem_map_of_mem h)
  exact ⟨rest, by rw [leader, hgroup, List.headD_cons]⟩

/-- The statements write the kinds of the leaders. -/
theorem carriesOut_written (h : (updates.map IdentifiedNode.id).Nodup) :
    CarriesOut NodeUpdateBatch.run (cypherBuildNodeUpdateQueryBatch digest updates)
      (updates.map fun update =>
        (leader digest updates update).written update) := by
  rw [cypherBuildNodeUpdateQueryBatch_eq]
  refine carriesOut_groups ?_ ((byID_written _).apart h)
  rintro group ⟨key, hkey, rfl⟩ t -
  change ∃ u, NodeUpdateBatch.run t (batchOf (updatesWith digest updates key)) =
    some u ∧ ∀ id, u.row id = eachOwn ((updatesWith digest updates key).map
      fun update => (leader digest updates update).written update) t id
  have hnodup : ((updatesWith digest updates key).map IdentifiedNode.id).Nodup :=
    h.sublist ((itemsOf_map_sublist _ updates key).map _)
  obtain ⟨first, rest, hgroup⟩ : ∃ first rest,
      updatesWith digest updates key = first :: rest := exists_itemsOf_map hkey
  have hleader : ∀ update ∈ first :: rest, leader digest updates update = first := by
    intro update hupdate
    rw [← hgroup] at hupdate
    rw [leader, (mem_updatesWith.mp hupdate).2, hgroup, List.headD_cons]
  rw [hgroup] at hnodup ⊢
  rw [List.map_congr_left fun update hupdate => by
    rw [hleader update hupdate]]
  exact run_batchOf hnodup t

end

/-- Kinds to add and to remove that leave every node with the same. -/
def SameKinds (add remove add' remove' : List String) : Prop :=
  remove.toFinset = remove'.toFinset ∧
    add.toFinset \ remove.toFinset = add'.toFinset \ remove'.toFinset

instance (add remove add' remove' : List String) :
    Decidable (SameKinds add remove add' remove') := inferInstanceAs (Decidable (_ ∧ _))

theorem set_remove_eq {add remove kinds deletedKinds : List String}
    (hkinds : SameKinds add remove kinds deletedKinds) (hproperties : properties.deleted = ∅)
    (n : StoredNode (PropertyValue α)) :
    (n.set properties.map add).remove remove = ownUpdate kinds deletedKinds properties n := by
  simp only [ownUpdate, StoredNode.remove, StoredNode.set, StoredNode.mk.injEq]
  refine ⟨?_, by simp [hproperties]⟩
  rw [Finset.union_sdiff_distrib, Finset.union_sdiff_distrib, hkinds.2, hkinds.1]

/-- A statement does the update of a node, whatever the node is. -/
theorem set_remove_iff [Inhabited α] {add remove kinds deletedKinds : List String} :
    (∀ n : StoredNode (PropertyValue α),
      (n.set properties.map add).remove remove = ownUpdate kinds deletedKinds properties n) ↔
      SameKinds add remove kinds deletedKinds ∧ properties.deleted = ∅ := by
  constructor
  · intro h
    have hlabels : ∀ labels : Finset String, (labels ∪ add.toFinset) \ remove.toFinset =
          (labels ∪ kinds.toFinset) \ deletedKinds.toFinset := fun labels =>
      congrArg StoredNode.labels (h ⟨labels, fun _ => none⟩)
    refine ⟨⟨?_, by simpa using hlabels ∅⟩, ?_⟩
    · ext kind
      have hkind := congrArg (kind ∈ ·) (hlabels {kind})
      simpa [not_iff_not] using hkind
    · rw [Finset.eq_empty_iff_forall_notMem]
      intro name hname
      have hvalue := congrFun (congrArg StoredNode.properties
        (h ⟨∅, fun _ => some (.other default)⟩)) name
      simp [ownUpdate, hname, StoredNode.remove, StoredNode.set] at hvalue
  · rintro ⟨hkinds, hproperties⟩
    exact set_remove_eq hkinds hproperties

/-- The kinds of an update are those its node gets. -/
def IdentifiedNode.SameKinds (a b : IdentifiedNode α) : Prop :=
  Neo4j.SameKinds a.node.addedKinds a.node.deletedKinds b.node.addedKinds b.node.deletedKinds

section

variable {updates : List (IdentifiedNode α)}

theorem mem_leader (h : update ∈ updates) :
    leader digest updates update ∈ updates ∧
      nodeToNodeUpdateKey digest (leader digest updates update).node =
        nodeToNodeUpdateKey digest update.node := by
  obtain ⟨rest, hgroup⟩ := exists_updatesWith h
  exact (mem_updatesWith).mp (hgroup ▸ List.mem_cons_self)

theorem leader_eq_of_key {a b : IdentifiedNode α} (ha : a ∈ updates) (hb : b ∈ updates)
    (h : nodeToNodeUpdateKey digest a.node = nodeToNodeUpdateKey digest b.node) :
    leader digest updates a = leader digest updates b := by
  obtain ⟨rest, hgroup⟩ := exists_updatesWith ha
  obtain ⟨rest', hgroup'⟩ := exists_updatesWith hb
  rw [h, hgroup'] at hgroup
  exact (List.cons.inj hgroup).1.symm

/-- Every node gets its own update if its leader has the same kinds. -/
theorem carriesOut_own_iff_leader [Inhabited α] (h : (updates.map IdentifiedNode.id).Nodup) :
    CarriesOut NodeUpdateBatch.run (cypherBuildNodeUpdateQueryBatch digest updates)
        (updates.map IdentifiedNode.own) ↔ ∀ update ∈ updates,
        (leader digest updates update).SameKinds update ∧ update.node.properties.deleted = ∅ := by
  have hwritten : CarriesOut NodeUpdateBatch.run
      (cypherBuildNodeUpdateQueryBatch digest updates) (updates.map fun update =>
        (leader digest updates update).written update) := carriesOut_written h
  constructor
  · intro hown update hupdate
    refine (set_remove_iff).mp fun n => ?_
    let t : StoredNodes (PropertyValue α) := Table.empty.insert update.id n
    have hn : t.row update.id = some n := by simp [t]
    obtain ⟨u, hu, hrow⟩ := hown t (byID_own.fresh t) _ (.refl _)
    obtain ⟨w, hw, hrow'⟩ := hwritten t ((byID_written _).fresh t) _ (.refl _)
    obtain rfl : u = w := some.inj (hu.symm.trans hw)
    have heq := (hrow' update.id).symm.trans (hrow update.id)
    rw [(byID_written _).eachOwn_id h hupdate hn, byID_own.eachOwn_id h hupdate hn] at heq
    exact some.inj heq
  · intro hcond
    rw [List.map_congr_left fun update hupdate => ?_]
    · exact hwritten
    · have hchange := funext (set_remove_iff.mpr (hcond update hupdate))
      rw [IdentifiedNode.written, hchange]
      rfl

/-- Every node gets its own update if no two updates have a key and
different kinds. -/
theorem carriesOut_own_iff [Inhabited α] (h : (updates.map IdentifiedNode.id).Nodup)
    (hdigest : ∀ a ∈ updates, ∀ b ∈ updates,
      digest (nodeUpdateText a.node) = digest (nodeUpdateText b.node) →
        nodeUpdateText a.node = nodeUpdateText b.node) :
    CarriesOut NodeUpdateBatch.run (cypherBuildNodeUpdateQueryBatch digest updates)
        (updates.map IdentifiedNode.own) ↔ (∀ a ∈ updates, ∀ b ∈ updates,
        nodeUpdateText a.node = nodeUpdateText b.node → a.SameKinds b) ∧
      ∀ a ∈ updates, a.node.properties.deleted = ∅ := by
  rw [carriesOut_own_iff_leader h]
  constructor
  · intro hcond
    refine ⟨fun a ha b hb htext => ?_, fun a ha => (hcond a ha).2⟩
    have hleader : leader digest updates a = leader digest updates b :=
      leader_eq_of_key ha hb (congrArg digest htext)
    have hla := (hcond a ha).1
    have hlb := (hcond b hb).1
    rw [← hleader] at hlb
    exact ⟨hla.1.symm.trans hlb.1, hla.2.symm.trans hlb.2⟩
  · rintro ⟨hkinds, hdeleted⟩ update hupdate
    obtain ⟨hmem, hkey⟩ := @mem_leader _ _ digest _ hupdate
    exact ⟨hkinds _ hmem _ hupdate (hdigest _ hmem _ hupdate hkey), hdeleted _ hupdate⟩

end

/-! ## Updates by identity -/

section

variable {V : Type}

variable {kind : String} {names names' : List String} {p : String → Option V}

section

variable (h : ∀ name, name ∈ names ↔ name ∈ names')
include h

theorem mergePattern_congr [DecidableEq V] :
    mergePattern kind names p = mergePattern kind names' p := by
  funext n
  rw [Bool.eq_iff_iff]
  simp [mergePattern, h]

theorem mergeCreates_congr :
    mergeCreates kind names p = mergeCreates kind names' p := by
  simp [mergeCreates, h]

theorem mergeRow_congr [DecidableEq V] {newID : Nat}
    {t : StoredNodes V} :
    mergeRow kind names newID p t = mergeRow kind names' newID p t := by
  have hall : (names.all fun name => (p name).isSome) = names'.all fun name => (p name).isSome := by
    rw [Bool.eq_iff_iff]
    simp [h]
  rw [mergeRow, mergeRow, hall, mergePattern_congr h, mergeCreates_congr h]

end

end

/-- The bag has the values of the identity. -/
def NewNodeUpdate.Identified (s : NewNodeUpdate α) : Prop := ∀ name ∈ s.update.identityProperties,
    (s.update.node.properties.map name).isSome

section

variable [DecidableEq α] {created : StoredNode (PropertyValue α)}

section

variable (hmiss : ¬ (t.find s.own.hits).Nonempty) (hnew : s.own.new = some (s.newID, created))
include hmiss hnew

/-- The node that a `MERGE` creates is the one it finds afterwards. -/
theorem find_created
    :
    (t.insert s.newID created).find s.own.hits = {s.newID} := by
  ext id
  rw [Table.mem_find, Finset.mem_singleton, Table.row_insert]
  constructor
  · rintro ⟨n, hn, hhit⟩
    by_contra hid
    rw [if_neg hid] at hn
    exact hmiss ⟨id, (Table.mem_find).mpr ⟨n, hn, hhit⟩⟩
  · rintro rfl
    exact ⟨created, if_pos rfl, s.own.hits_new _ hnew⟩

theorem row_created
    (hfresh : t.row s.newID = none) (id : Nat) :
    (t.insert s.newID created).row id = eachOwn ([s.own].map still) t id := by
  rw [Table.row_insert]
  have honNew : s.own.still.onNew t id =
      if s.newID = id then some created else none := by
    have hstill : s.own.still.new = some (s.newID, created) := hnew
    have hmiss' : ¬ (t.find s.own.still.hits).Nonempty := hmiss
    rw [onNew, if_neg hmiss', hstill]
    rfl
  cases hid : t.row id with
  | none =>
    rw [eachOwn, hid]
    simp only [List.map_cons, List.findSome?_cons, honNew, eq_comm]
    split <;> simp
  | some n =>
    have hne : id ≠ s.newID := by
      rintro rfl
      rw [hid] at hfresh
      cases hfresh
    rw [if_neg hne, eachOwn_still_of_row hid]

end

/-- A `MERGE` binds the nodes of the update as they are afterwards. -/
theorem mergeRow_eq (hs : s.Identified) (hfresh : t.row s.newID = none) :
    ∃ u, mergeRow s.update.identityKind s.update.identityProperties s.newID
        s.update.node.properties.map t = some (u, u.find s.own.hits) ∧
      ∀ id, u.row id = eachOwn ([s.own].map still) t id := by
  have hall : (s.update.identityProperties.all fun name =>
      (s.update.node.properties.map name).isSome) = true :=
    List.all_eq_true.mpr hs
  rw [mergeRow, if_pos hall]
  change ∃ u, (if (t.find s.own.hits).Nonempty then some (t, t.find s.own.hits)
    else _) = _ ∧ _
  by_cases hfound : (t.find s.own.hits).Nonempty
  · refine ⟨t, if_pos hfound, fun id => ?_⟩
    have hnew : s.own.still.onNew t id = none := if_pos hfound
    cases hid : t.row id with
    | none => simp [eachOwn, hid, hnew]
    | some n => rw [eachOwn_still_of_row hid]
  · have hinsert := (Table.insertNew_eq_some).mpr ⟨hfresh, Eq.refl
      (t.insert s.newID (mergeCreates s.update.identityKind
        s.update.identityProperties s.update.node.properties.map))⟩
    rw [if_neg hfound, hinsert]
    refine ⟨_, congrArg some (Prod.ext rfl ?_), row_created hfound rfl hfresh⟩
    exact (find_created hfound rfl).symm

end

/-- Updates that need one statement. -/
structure OneStatement (a b : NewNodeUpdate α) : Prop where
  identityKind : a.update.identityKind = b.update.identityKind
  identityProperties : ∀ name, name ∈ a.update.identityProperties ↔
    name ∈ b.update.identityProperties
  kinds : SameKinds (identityKinds a.update.identityKind ++ a.update.node.kinds)
    a.update.node.deletedKinds
    (identityKinds b.update.identityKind ++ b.update.node.kinds)
    b.update.node.deletedKinds

/-- A node that is found has the identity kind. -/
theorem identityKinds_subset [DecidableEq α] (h : s.own.hits id n = true) :
    (identityKinds s.update.identityKind).toFinset ⊆ n.labels := by
  have hkind := (Bool.and_eq_true_iff.mp h).1
  unfold identityKinds
  split <;> simp_all

/-- The kinds of the statement do the update of a node that is found. -/
theorem OneStatement.set_remove_eq [DecidableEq α] (h : OneStatement a b)
    (hdeleted : b.update.node.properties.deleted = ∅) (hhit : b.own.hits id n = true) :
    (n.set b.update.node.properties.map a.update.node.kinds).remove
      a.update.node.deletedKinds = b.own.change n := by
  have hunion : ∀ kinds : List String,
      n.labels ∪ (identityKinds b.update.identityKind ++ kinds).toFinset =
        n.labels ∪ kinds.toFinset := by
    intro kinds
    rw [List.toFinset_append, ← Finset.union_assoc,
      Finset.union_eq_left.mpr (identityKinds_subset hhit)]
  have heq := Neo4j.set_remove_eq h.kinds hdeleted n
  rw [h.identityKind] at heq
  simp only [StoredNode.set, ownUpdate, hunion] at heq
  exact heq

theorem mergeClause_eq [DecidableEq α] {us : List (NewNodeUpdate α)}
    (hone : ∀ s ∈ us, OneStatement first s) (hid : ∀ s ∈ us, s.Identified)
    (h : (us.map NewNodeUpdate.own).Pairwise Apart) (hfresh : Fresh (us.map NewNodeUpdate.own) t) :
    ∃ u, mergeClause first.update.identityKind
        first.update.identityProperties (us.map NewNodeUpdate.properties) t =
          some (u, us.map fun s =>
            ⟨u.find s.own.hits, s.update.node.properties.map⟩) ∧
      ∀ id, u.row id = eachOwn ((us.map NewNodeUpdate.own).map still) t id := by
  induction us generalizing t with
  | nil =>
    refine ⟨t, rfl, fun id => ?_⟩
    cases hrow : t.row id with
    | none => simp [eachOwn, hrow]
    | some n => rw [eachOwn_still_of_row hrow]
  | cons s us ih =>
    obtain ⟨hs, hus⟩ := List.forall_mem_cons.mp hone
    obtain ⟨hsid, husid⟩ := List.forall_mem_cons.mp hid
    obtain ⟨happart, htail⟩ := List.pairwise_cons.mp h
    have hstill : ((s.own :: us.map NewNodeUpdate.own).map still).Pairwise
        Apart := List.pairwise_map.mpr (h.imp fun h => h.still)
    obtain ⟨t₁, hrow, ht₁⟩ := mergeRow_eq hsid (hfresh _ List.mem_cons_self _ rfl)
    have hfresh₁ : Fresh (us.map NewNodeUpdate.own) t₁ :=
      (fresh_still).mp ((fresh_still.mpr hfresh).eachOwn ht₁ hstill)
    obtain ⟨u, hrest, hu⟩ := ih hus husid htail hfresh₁
    have hfind : u.find s.own.hits = t₁.find s.own.hits := by
      refine find_eachOwn (c := s.own.still) hu fun d hd => ?_
      exact ((List.pairwise_cons.mp hstill).1 d hd).symm
    refine ⟨u, ?_, fun id => ?_⟩
    · rw [List.map_cons, NewNodeUpdate.properties, mergeClause,
        hs.identityKind, mergeRow_congr hs.identityProperties, hrow, ← hs.identityKind]
      change (mergeClause _ _ _ t₁).bind _ = _
      rw [hrest, List.map_cons, hfind]
      rfl
    · rw [hu, eachOwn_append ht₁ hstill]
      rfl

/-- The statement of the updates with one key. -/
def updatesOf : List (NewNodeUpdate α) → NodeUpdates α
  | [] => ⟨"", [], [], [], []⟩
  | first :: rest =>
    { identityKind := first.update.identityKind
      identityProperties := first.update.identityProperties
      nodeKindsToAdd := first.update.node.kinds
      nodeKindsToRemove := first.update.node.deletedKinds
      properties := (first :: rest).map NewNodeUpdate.properties }

theorem run_updatesOf [DecidableEq α] {rest : List (NewNodeUpdate α)}
    (hone : ∀ s ∈ first :: rest, OneStatement first s) (hid : ∀ s ∈ first :: rest, s.Identified)
    (hdeleted : ∀ s ∈ first :: rest, s.update.node.properties.deleted = ∅)
    (h : ((first :: rest).map NewNodeUpdate.own).Pairwise Apart)
    (hfresh : Fresh ((first :: rest).map NewNodeUpdate.own) t) :
    ∃ u, NodeUpdates.run t (updatesOf (first :: rest)) = some u ∧ ∀ id, u.row id =
        eachOwn ((first :: rest).map NewNodeUpdate.own) t id := by
  obtain ⟨t₁, hmerge, ht₁⟩ := mergeClause_eq hone hid h hfresh
  have hrows : DisjointRows ((first :: rest).map fun s =>
      (⟨t₁.find s.own.hits, s.update.node.properties.map⟩ : BoundRow (PropertyValue α))) := by
    rw [DisjointRows, List.pairwise_map]
    refine (List.pairwise_map.mp h).imp fun {a b} hab => ?_
    rw [Finset.disjoint_left]
    intro id ha hb
    obtain ⟨n, hn, hhit⟩ := (Table.mem_find).mp ha
    obtain ⟨m, hm, hhit'⟩ := (Table.mem_find).mp hb
    obtain rfl : n = m := some.inj (hn.symm.trans hm)
    rw [hab.rows id n hhit] at hhit'
    cases hhit'
  refine ⟨_, by rw [updatesOf, NodeUpdates.run, hmerge]; rfl, fun id => ?_⟩
  rw [row_clauses hrows, eachOwn_eq_still h, ← ht₁]
  cases hrow : t₁.row id with
  | none => rfl
  | some n =>
    have hfind : (first :: rest).find? ((fun row => decide (id ∈ row.nodes)) ∘
        fun s => (⟨t₁.find s.own.hits, s.update.node.properties.map⟩ :
          BoundRow (PropertyValue α))) =
        (first :: rest).find? ((fun c => c.hits id n) ∘ NewNodeUpdate.own) := by
      congr 1
      funext s
      rw [Function.comp_apply, Bool.eq_iff_iff, decide_eq_true_eq, Table.mem_find, hrow]
      simp
    rw [map_some, map_some, findSome?_onRow, List.find?_map, List.find?_map, hfind]
    cases hs : (first :: rest).find? ((fun c => c.hits id n) ∘ NewNodeUpdate.own) with
    | none => rfl
    | some s =>
      have hmem := List.mem_of_find?_eq_some hs
      have hhit := List.find?_some hs
      exact congrArg some ((hone s hmem).set_remove_eq (hdeleted s hmem) hhit)

theorem cypherBuildNodeUpdateQueryByBatch_eq (updates : List (NewNodeUpdate α)) :
    cypherBuildNodeUpdateQueryByBatch updates =
      (firsts (updates.map NewNodeUpdate.updateKey)).map fun key =>
        updatesOf (itemsOf (updates.map fun s => (s.updateKey, s)) key) := by
  have hbuild : ∀ (first : NewNodeUpdate α) (rest : List (NewNodeUpdate α))
      (_ : Nat), rest.foldl (fun batch update => { batch with
        properties := batch.properties ++ [update.properties] })
        (⟨first.update.identityKind, first.update.identityProperties,
          first.update.node.kinds, first.update.node.deletedKinds,
          [first.properties]⟩ : NodeUpdates α) =
      updatesOf (first :: rest) :=
    fun first rest _ => foldl_collect (NodeUpdates.mk _ _ _ _) _
      (fun _ _ => rfl) [first.properties] rest
  rw [cypherBuildNodeUpdateQueryByBatch, upserts_eq_map _ hbuild, List.map_map, List.map_map]
  rfl

/-- Updates of different nodes: an identity property has other values. -/
def NewNodeUpdate.Other (a b : NewNodeUpdate α) : Prop := a.newID ≠ b.newID ∧ ∃ name,
    name ∈ a.update.identityProperties ∧ name ∈ b.update.identityProperties ∧
      a.update.node.properties.map name ≠ b.update.node.properties.map name

theorem NewNodeUpdate.Other.symm (h : a.Other b) : b.Other a := by
  obtain ⟨hid, name, ha, hb, hne⟩ := h
  exact ⟨hid.symm, name, hb, ha, hne.symm⟩

section

variable [DecidableEq α]

theorem value_of_hits (h : s.own.hits id n = true)
    {name : String} (hname : name ∈ s.update.identityProperties) :
    n.properties name = s.update.node.properties.map name := by
  have hall := (Bool.and_eq_true_iff.mp h).2
  simpa using List.all_eq_true.mp hall name hname

/-- A node of one update is not one of the other, before and after. -/
theorem NewNodeUpdate.Other.not_hits (h : a.Other b)
    (ha : a.Identified) (hb : b.Identified) (hhit : a.own.hits id n = true) :
    b.own.hits id n = false ∧ b.own.hits id (a.own.change n) = false := by
  obtain ⟨-, name, hna, hnb, hne⟩ := h
  have hvalue := value_of_hits hhit hna
  constructor <;> by_contra hhit' <;> rw [Bool.not_eq_false] at hhit'
  · exact hne (hvalue.symm.trans (value_of_hits hhit' hnb))
  · have hvalue' := value_of_hits hhit' hnb
    obtain ⟨v, hv⟩ := isSome_iff_exists.mp (ha name hna)
    obtain ⟨w, hw⟩ := isSome_iff_exists.mp (hb name hnb)
    rw [hv, hw] at hne
    simp only [NewNodeUpdate.own, ownUpdate, hv, hw] at hvalue'
    split at hvalue'
    · cases hvalue'
    · exact hne (by simpa using hvalue')

theorem apart_own {updates : List (NewNodeUpdate α)} (h : updates.Pairwise NewNodeUpdate.Other)
    (hid : ∀ s ∈ updates, s.Identified) : (updates.map NewNodeUpdate.own).Pairwise Apart := by
  rw [List.pairwise_map]
  refine h.imp_of_mem fun {a b} ha hb hab => ⟨?_, ?_, ?_, ?_⟩
  · exact fun _ _ hhit => (hab.not_hits (hid a ha) (hid b hb) hhit).1
  · exact fun _ _ hhit => (hab.not_hits (hid a ha) (hid b hb) hhit).2
  · exact fun _ _ hhit => (hab.symm.not_hits (hid b hb) (hid a ha) hhit).2
  · rintro r ⟨⟩ r' ⟨⟩
    exact hab.1

/-- Every node gets its own update if updates with one key need one
statement. -/
theorem carriesOut_own_of {updates : List (NewNodeUpdate α)}
    (hother : updates.Pairwise NewNodeUpdate.Other) (hid : ∀ s ∈ updates, s.Identified)
    (hone : ∀ a ∈ updates, ∀ b ∈ updates, a.updateKey = b.updateKey → OneStatement a b)
    (hdeleted : ∀ s ∈ updates, s.update.node.properties.deleted = ∅) :
    CarriesOut NodeUpdates.run (cypherBuildNodeUpdateQueryByBatch updates)
      (updates.map NewNodeUpdate.own) := by
  rw [cypherBuildNodeUpdateQueryByBatch_eq]
  refine carriesOut_groups ?_ (apart_own hother hid)
  rintro group ⟨key, hkey, rfl⟩ t hfresh
  have hsub := itemsOf_map_sublist NewNodeUpdate.updateKey updates key
  obtain ⟨first, rest, hgroup⟩ := exists_itemsOf_map hkey
  have hmem : ∀ s ∈ first :: rest, s ∈ updates ∧ s.updateKey = key := by
    intro s hs
    rw [← hgroup] at hs
    exact (mem_itemsOf_map).mp hs
  rw [hgroup] at hsub hfresh ⊢
  obtain ⟨hfirst, hfirstKey⟩ := hmem first List.mem_cons_self
  refine run_updatesOf (fun s hs => ?_) (fun s hs => hid s (hmem s hs).1)
    (fun s hs => hdeleted s (hmem s hs).1) ((apart_own hother hid).sublist (hsub.map _)) hfresh
  exact hone first hfirst s (hmem s hs).1 (hfirstKey.trans (hmem s hs).2.symm)

end

/-! ## Both builders -/

/-- A node that gets a kind, with a bag of one value. -/
def taggedNode (kind value : String) : Node Unit where
  kinds := [kind]
  addedKinds := [kind]
  deletedKinds := []
  properties := Properties.load fun name =>
    if name = "objectid" then some (.string value) else none

/-- One node gets the kind `Tagged` and the other loses it. -/
def tagUpdates : List (IdentifiedNode Unit) := [⟨1, ⟨["Tagged"], ["Tagged"], [], Properties.empty⟩⟩,
    ⟨2, ⟨[], [], ["Tagged"], Properties.empty⟩⟩]

end Dawgs.Ref.Neo4j

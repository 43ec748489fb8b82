import Dawgs.Lib.Machine
import Dawgs.Ref.SchemaManager

/-!
# What the schema manager remembers

The maps of the manager are right if the two maps of kinds are inverse to
each other, and every kind and graph in them is committed. They are filled
in the middle of transactions. What holds there is the same with what the
transaction can see (`MapsRight (some .own)`), and every statement keeps
it: `InsertOrGetKind` and the graph statements return rows that can be
seen, and a row has one name and one number.

If the transaction commits, all it can see is committed. If not, the maps
keep what they have, and are right only if all of it was committed before.
So one rule about `WriteTransaction` leaves for each function the question
what is in the maps that is not committed yet.

For `AssertGraph` in a transaction of the caller there is no good end
within the call. A graph that it creates is in the map while it is not
committed.
-/

namespace Dawgs.Ref.Schema

open Lib List World SerialTable Function

/-- The maps hold what a session can see; without a transaction this is
what is committed. -/
structure MapsRight (session : Session) (w : World) : Prop where
  inverse : ∀ k i, w.manager.kindsByID k = some i ↔ w.manager.kindIDsByKind i = some k
  kinds : ∀ k i, w.manager.kindsByID k = some i → w.db.kind.Visible session k i
  graphs : ∀ n g, w.manager.graphs n = some g → g.name = n ∧ w.db.graph.Visible session n g.id
  default : ∀ g, w.manager.defaultGraph = some g → w.db.graph.Visible session g.name g.id

/-- A kind is in the database. -/
def World.HasKind (w : World) (kind : String) : Prop := ∃ id, w.db.kind.Visible none kind id

/-- A graph is in the database. -/
def World.HasGraph (w : World) (name : String) : Prop := ∃ id, w.db.graph.Visible none name id

/-- The transaction of a delegate commits. -/
def Fate.Commits (fate : Fate) (txDelegate : World.Delegate) (w : World) : Prop :=
  (txDelegate fate.statements w).2.isSome ∧ fate.commit ≠ .rolledBack

/-- The rows of kinds are committed or those of the manager's
transaction. -/
def World.Owned (w : World) : Prop := ∀ r ∈ w.db.kind.rows, r.owner = none ∨ r.owner = some .own

/-- No transaction has written a kind. -/
def World.Quiet (w : World) : Prop := ∀ r ∈ w.db.kind.rows, r.owner = none

variable {w : World}

variable {w' : World} {fate : Fate} {txDelegate : World.Delegate}
  {session s : Session} {name : String} {defined : List String} {g : Graph}

theorem World.Quiet.owned (h : w.Quiet) : w.Owned := fun r hr => .inl (h r hr)

theorem World.Quiet.visible_iff (h : w.Quiet) {k : String} {i : Nat} :
    w.db.kind.Visible s k i ↔ w.db.kind.Visible none k i :=
  ⟨fun ⟨r, hr, _, heq⟩ => ⟨r, hr, .inl (h r hr), heq⟩, fun hvis => hvis.mono⟩

/-! ## Transactions -/

/-- The maps hold what another session can see, if it can see all that the
first one could. -/
theorem MapsRight.of_visible (h : MapsRight s w) (hm : w'.manager = w.manager)
    (hkind : ∀ k i, w.db.kind.Visible s k i → w'.db.kind.Visible session k i)
    (hgraph : ∀ n i, w.db.graph.Visible s n i → w'.db.graph.Visible session n i) :
    MapsRight session w' := by
  refine ⟨?_, ?_, ?_, ?_⟩ <;> rw [hm]
  · exact h.inverse
  · exact fun k i hk => hkind k i (h.kinds k i hk)
  · exact fun n g hg => ⟨(h.graphs n g hg).1, hgraph _ _ (h.graphs n g hg).2⟩
  · exact fun g hg => hgraph _ _ (h.default g hg)

theorem MapsRight.mono (h : MapsRight none w) (session : Session) : MapsRight session w :=
  h.of_visible rfl (fun _ _ hvis => hvis.mono) fun _ _ hvis => hvis.mono

/-- What a transaction can see is committed with it. -/
theorem MapsRight.commit {tx : Tx} (h : MapsRight (some tx) w) : MapsRight none (w.commit tx) :=
  h.of_visible rfl (fun _ _ => visible_commit_none.mpr) fun _ _ => visible_commit_none.mpr

/-- A rollback changes neither the maps nor what is committed. -/
theorem mapsRight_rollback {tx : Tx} : MapsRight none (w.rollback tx) ↔ MapsRight none w :=
  ⟨fun h => h.of_visible rfl (fun _ _ => visible_rollback_none.mp)
      fun _ _ => visible_rollback_none.mp,
    fun h => h.of_visible rfl (fun _ _ => visible_rollback_none.mpr)
      fun _ _ => visible_rollback_none.mpr⟩

/-- How a transaction of the manager ends. -/
theorem writeTransaction_cases (fate : Fate) (txDelegate : World.Delegate) :
    (fate.connected = false ∧ (w.writeTransaction fate txDelegate).1 = w) ∨
      (fate.connected = true ∧ fate.Commits txDelegate w ∧ (w.writeTransaction fate txDelegate).1 =
          (txDelegate fate.statements w).1.commit .own) ∨
      (fate.connected = true ∧ ¬ fate.Commits txDelegate w ∧
        (w.writeTransaction fate txDelegate).1 =
          (txDelegate fate.statements w).1.rollback .own) := by
  unfold writeTransaction Fate.Commits
  cases fate.connected with
  | false => exact .inl ⟨rfl, rfl⟩
  | true =>
    right
    rcases txDelegate fate.statements w with ⟨w', _ | n⟩
    · right
      simp
    · cases fate.commit with
      | done | unconfirmed =>
        left
        simp
      | rolledBack =>
        right
        simp

/-- The rule about transactions. -/
theorem mapsRight_writeTransaction (hw : MapsRight none w)
    (hown : MapsRight (some .own) (txDelegate fate.statements w).1) :
    MapsRight none (w.writeTransaction fate txDelegate).1 ↔
      fate.connected = false ∨ fate.Commits txDelegate w ∨
        MapsRight none (txDelegate fate.statements w).1 := by
  rcases writeTransaction_cases fate txDelegate with
    ⟨hc, heq⟩ | ⟨hc, hcommits, heq⟩ | ⟨hc, hcommits, heq⟩
  · rw [heq]
    exact iff_of_true hw (.inl hc)
  · rw [heq]
    exact iff_of_true hown.commit (.inr (.inl hcommits))
  · rw [heq, mapsRight_rollback]
    simp [hc, hcommits]

theorem Quiet.of_commit (h : w.Owned) : (w.commit .own).Quiet := by
  intro r hr
  obtain ⟨q, hq, rfl⟩ := mem_map.mp hr
  unfold settle
  split
  · rfl
  next hne => exact (h q hq).resolve_right hne

theorem Quiet.of_rollback (h : w.Owned) : (w.rollback .own).Quiet := by
  intro r hr
  obtain ⟨hmem, hne⟩ := mem_filter.mp hr
  exact (h r hmem).resolve_right (by simpa using hne)

theorem quiet_writeTransaction (hw : w.Quiet) (hown : (txDelegate fate.statements w).1.Owned) :
    (w.writeTransaction fate txDelegate).1.Quiet := by
  rcases writeTransaction_cases fate txDelegate with
    ⟨-, heq⟩ | ⟨-, -, heq⟩ | ⟨-, -, heq⟩
  · rw [heq]
    exact hw
  · rw [heq]
    exact Quiet.of_commit hown
  · rw [heq]
    exact Quiet.of_rollback hown

/-! ## Looking kinds up -/

/-- `fetch` makes of right maps right maps. The old entries by id stay, but
they are rows that are read again. -/
theorem mapsRight_fetch (hquiet : w.Quiet) (hw : MapsRight none w)
    (statements : Nat) : MapsRight none (fetch statements w).1 := by
  cases statements with
  | zero => exact hw
  | succ statements =>
    refine ⟨fun k i => ?_, fun k i hk => ?_, hw.graphs, hw.default⟩
    · show w.db.kind.select _ k = some i ↔
        (w.db.kind.nameOf _ i).or (w.manager.kindIDsByKind i) = some k
      rw [select_eq_some, Option.or_eq_some_iff, nameOf_eq_some]
      refine ⟨.inl, fun h => h.elim id fun ⟨_, hold⟩ => ?_⟩
      exact (hw.kinds k i ((hw.inverse k i).mpr hold)).mono
    · exact hquiet.visible_iff.mp (select_eq_some.mp hk)

theorem fetch_db (statements : Nat) (w : World) : (fetch statements w).1.db = w.db := by
  cases statements <;> rfl

theorem refresh_right (hquiet : w.Quiet) (hw : MapsRight none w) (fate : Fate) :
    (w.refresh fate).1.Quiet ∧ MapsRight none (w.refresh fate).1 := by
  have hfetch := mapsRight_fetch hquiet hw fate.statements
  refine ⟨quiet_writeTransaction hquiet fun r hr => ?_,
    (mapsRight_writeTransaction hw (hfetch.mono _)).mpr (.inr (.inr hfetch))⟩
  rw [fetch_db] at hr
  exact hquiet.owned r hr

/-! ## Defining kinds -/

/-- What `InsertOrGetKind` does: it has a row to return. -/
structure Gets (w : World) (kind : String) (id : Nat) (w' : World) : Prop where
  manager : w'.manager = w.manager
  graph : w'.db.graph = w.db.graph
  owned : w'.Owned
  committed : ∀ k i, w'.db.kind.Visible none k i ↔ w.db.kind.Visible none k i
  kept : ∀ k i, w.db.kind.Visible (some .own) k i → w'.db.kind.Visible (some .own) k i
  got : w'.db.kind.Visible (some .own) kind id

theorem insertOrGetKind_gets (hw : w.Owned) (kind : String) :
    ∃ id, (w.insertOrGetKind kind).2 = some id ∧ Gets w kind id (w.insertOrGetKind kind).1 := by
  unfold insertOrGetKind SerialTable.insert
  by_cases hmem : kind ∈ w.db.kind.names
  · rw [dif_pos hmem]
    obtain ⟨r, hr, rfl⟩ := mem_map.mp hmem
    have hvis : w.db.kind.Visible (some .own) r.name r.id := ⟨r, hr, hw r hr, rfl, rfl⟩
    refine ⟨r.id, ?_, rfl, rfl, hw, fun _ _ => Iff.rfl, fun _ _ h => h, hvis⟩
    rw [(select_eq_some).mpr hvis]
    rfl
  · rw [dif_neg hmem]
    have hselect : w.db.kind.select (some .own) kind = none := by
      cases h : w.db.kind.select (some .own) kind with
      | none => rfl
      | some i => exact absurd (select_eq_some.mp h).name_mem hmem
    refine ⟨w.db.kind.next, by rw [hselect]; rfl, rfl, rfl, ?_, ?_, ?_, ?_⟩
    · intro r hr
      rcases mem_append.mp hr with hr | hr
      · exact hw r hr
      · rw [mem_singleton] at hr
        exact .inr (by rw [hr])
    · intro k i
      refine (visible_insertNew hmem).trans ?_
      simp
    · intro k i h
      exact (visible_insertNew hmem).mpr (.inl h)
    · exact (visible_insertNew hmem).mpr (.inr ⟨.inr rfl, rfl, rfl⟩)

@[simp] theorem define_kindsByID (kind : String) {id : Nat}
    (k : String) : (w.define kind id).manager.kindsByID k =
      if k = kind then some id else w.manager.kindsByID k :=
  update_apply ..

@[simp] theorem define_kindIDsByKind (kind : String) (id i : Nat) :
    (w.define kind id).manager.kindIDsByKind i =
      if i = id then some kind else w.manager.kindIDsByKind i :=
  update_apply ..

/-- A row that can be seen may be entered into both maps. -/
theorem MapsRight.define {kind : String} {id : Nat} (hw : MapsRight session w)
    (hrow : w.db.kind.Visible session kind id) : MapsRight session (w.define kind id) := by
  have hkey : ∀ k i, w.manager.kindsByID k = some i → (k = kind ↔ i = id) := by
    intro k i hk
    have hvis := hw.kinds k i hk
    constructor <;> intro heq <;> subst heq
    · exact hvis.id_eq hrow
    · exact hvis.name_eq hrow
  refine ⟨fun k i => ?_, fun k i hk => ?_, hw.graphs, hw.default⟩
  · rw [define_kindsByID, define_kindIDsByKind]
    split_ifs with hk hi hi
    · exact hk ▸ hi ▸ iff_of_true rfl rfl
    · rw [← hw.inverse]
      exact iff_of_false (fun h => hi (Option.some.inj h).symm) fun h => hi ((hkey k i h).mp hk)
    · exact iff_of_false (fun h => hk ((hkey k i h).mpr hi)) fun h => hk (Option.some.inj h).symm
    · exact hw.inverse k i
  · rw [define_kindsByID] at hk
    split at hk
    next heq =>
      cases hk
      exact heq ▸ hrow
    · exact hw.kinds k i hk

/-- What a delegate that defines kinds has done, with the kinds it has
defined. -/
structure Defines (w : World) (defined : List String) (w' : World) : Prop where
  owned : w'.Owned
  right : MapsRight (some .own) w'
  committed : ∀ k i, w'.db.kind.Visible none k i ↔ w.db.kind.Visible none k i
  graph : w'.db.graph = w.db.graph
  graphs : w'.manager.graphs = w.manager.graphs
  default : w'.manager.defaultGraph = w.manager.defaultGraph
  entries : ∀ k, (w'.manager.kindsByID k).isSome ↔ (w.manager.kindsByID k).isSome ∨ k ∈ defined

theorem Defines.refl (howned : w.Owned) (hright : MapsRight (some .own) w) : Defines w [] w where
  owned := howned
  right := hright
  committed _ _ := Iff.rfl
  graph := rfl
  graphs := rfl
  default := rfl
  entries k := by simp

theorem Defines.trans {w'' : World} {d d' : List String} (h : Defines w d w')
    (h' : Defines w' d' w'') : Defines w (d ++ d') w'' where
  owned := h'.owned
  right := h'.right
  committed k i := (h'.committed k i).trans (h.committed k i)
  graph := h'.graph.trans h.graph
  graphs := h'.graphs.trans h.graphs
  default := h'.default.trans h.default
  entries k := by rw [h'.entries, h.entries, List.mem_append, or_assoc]

theorem Defines.none_iff (h : Defines w defined w') {k : String} :
    w'.manager.kindsByID k = none ↔ w.manager.kindsByID k = none ∧ k ∉ defined := by
  simpa [Option.isSome_iff_ne_none] using not_congr (h.entries k)

/-- One kind. -/
theorem defines_one (howned : w.Owned) (hright : MapsRight (some .own) w) (kind : String) :
    ∃ id, (w.insertOrGetKind kind).2 = some id ∧
      Defines w [kind] ((w.insertOrGetKind kind).1.define kind id) := by
  obtain ⟨id, hid, hgets⟩ := insertOrGetKind_gets howned kind
  refine ⟨id, hid, hgets.owned, ?_, hgets.committed, hgets.graph, ?_, ?_, ?_⟩
  · refine (hright.of_visible hgets.manager hgets.kept ?_).define hgets.got
    exact fun _ _ hvis => hvis
  · show (w.insertOrGetKind kind).1.manager.graphs = _
    rw [hgets.manager]
  · show (w.insertOrGetKind kind).1.manager.defaultGraph = _
    rw [hgets.manager]
  · intro k
    rw [define_kindsByID, hgets.manager]
    by_cases hk : k = kind <;> simp [hk]

/-- `defineKinds` defines as many kinds as statements succeed. -/
theorem defineKinds_defines (kinds : List String) (statements : Nat)
    (howned : w.Owned) (hright : MapsRight (some .own) w) :
    Defines w (kinds.take statements) (defineKinds kinds statements w).1 ∧
      (defineKinds kinds statements w).2 =
        if kinds.length ≤ statements then some (statements - kinds.length)
        else none := by
  induction kinds generalizing statements w with
  | nil =>
    rw [take_nil]
    exact ⟨.refl howned hright, by simp [defineKinds]⟩
  | cons kind kinds ih =>
    cases statements with
    | zero => exact ⟨.refl howned hright, by simp [defineKinds]⟩
    | succ statements =>
      obtain ⟨id, hid, hone⟩ := defines_one howned hright kind
      have heq : defineKinds (kind :: kinds) (statements + 1) w = defineKinds kinds statements
            ((w.insertOrGetKind kind).1.define kind id) := by
        rw [defineKinds]
        split
        next h => simp [h] at hid
        next h =>
          rw [h] at hid ⊢
          cases hid
          rfl
      obtain ⟨hrest, hleft⟩ := ih statements hone.owned hone.right
      rw [heq]
      exact ⟨hone.trans hrest, by rw [hleft]; simp⟩

/-- If it does not commit, all defined kinds must have been there. -/
theorem Defines.mapsRight_iff (h : Defines w defined w')
    (hw : MapsRight none w) : MapsRight none w' ↔ ∀ k ∈ defined, w.HasKind k := by
  constructor
  · intro hright k hk
    obtain ⟨i, hi⟩ := Option.isSome_iff_exists.mp ((h.entries k).mpr (.inr hk))
    exact ⟨i, (h.committed k i).mp (hright.kinds k i hi)⟩
  · intro hhas
    refine ⟨h.right.inverse, fun k i hk => ?_, ?_, ?_⟩
    · have hsome : ∃ j, w.db.kind.Visible none k j := by
        rcases (h.entries k).mp (Option.isSome_iff_exists.mpr ⟨i, hk⟩) with
          hold | hnew
        · obtain ⟨j, hj⟩ := Option.isSome_iff_exists.mp hold
          exact ⟨j, hw.kinds k j hj⟩
        · exact hhas k hnew
      obtain ⟨j, hj⟩ := hsome
      have hj' := (h.committed k j).mpr hj
      rw [(h.right.kinds k i hk).id_eq hj']
      exact hj'
    · rw [h.graph, h.graphs]
      exact hw.graphs
    · rw [h.graph, h.default]
      exact hw.default

/-! ## Schemas -/

/-- What `defineAll` has done. It defines kinds that were missing, at least
one if it can. -/
theorem defineAll_defines (lists : List (List String)) (statements : Nat)
    (howned : w.Owned) (hright : MapsRight (some .own) w) :
    ∃ defined, Defines w defined (defineAll lists statements w).1 ∧
      (∀ k ∈ defined, k ∈ lists.flatten ∧ w.manager.kindsByID k = none) ∧
      defined.length ≤ statements ∧
      (0 < statements → (∃ k ∈ lists.flatten, w.manager.kindsByID k = none) → defined ≠ []) := by
  induction lists generalizing statements w with
  | nil => exact ⟨[], .refl howned hright, by simp, by simp, by simp⟩
  | cons kinds lists ih =>
    have hmissing : ∀ k, k ∈ w.manager.missing kinds ↔
        k ∈ kinds ∧ w.manager.kindsByID k = none := by
      intro k
      rw [SchemaManager.missing, mem_filter, Option.isNone_iff_eq_none]
    obtain ⟨hfirst, hleft⟩ := defineKinds_defines (w.manager.missing kinds) statements howned hright
    have htaken : ∀ k ∈ (w.manager.missing kinds).take statements,
        k ∈ (kinds :: lists).flatten ∧ w.manager.kindsByID k = none := by
      intro k hk
      obtain ⟨hmem, hnone⟩ := (hmissing k).mp (mem_of_mem_take hk)
      exact ⟨mem_append_left _ hmem, hnone⟩
    rw [defineAll]
    split
    next w' heq =>
      rw [heq] at hfirst hleft
      refine ⟨_, hfirst, htaken, length_take_le .., fun hpos _ hnil => ?_⟩
      rcases take_eq_nil_iff.mp hnil with hzero | hempty
      · omega
      · simp [hempty] at hleft
    next w' left heq =>
      rw [heq] at hfirst hleft
      obtain ⟨defined, hrest, hdefined, hlen, hsome⟩ := ih left hfirst.owned hfirst.right
      refine ⟨_, hfirst.trans hrest, ?_, ?_, ?_⟩
      · intro k hk
        rcases mem_append.mp hk with hk | hk
        · exact htaken k hk
        · obtain ⟨hmem, hnone⟩ := hdefined k hk
          exact ⟨mem_append_right _ hmem, (hfirst.none_iff.mp hnone).1⟩
      · split at hleft
        · cases hleft
          rw [length_append, length_take]
          omega
        · cases hleft
      · intro hpos ⟨k, hk, hnone⟩ hnil
        obtain ⟨htake, hnil⟩ := append_eq_nil_iff.mp hnil
        have hempty := (take_eq_nil_iff.mp htake).resolve_left (by omega)
        simp only [hempty, length_nil, Nat.zero_le, if_true, Option.some.injEq] at hleft
        refine hsome (by omega) ⟨k, ?_, hfirst.none_iff.mpr ⟨hnone, by simp [htake]⟩⟩ hnil
        refine (mem_append.mp hk).resolve_left fun hk => ?_
        have := (hmissing k).mpr ⟨hk, hnone⟩
        simp [hempty] at this

/-- The kinds of a schema. -/
def schemaKinds (schema : List GraphSchema) : List String :=
  (schema.flatMap fun g => [g.nodes, g.edges]).flatten

/-- `assertSchema` looks up all kinds first, and then defines missing ones:
if it does not commit, there must have been none, or no statement left. -/
theorem assertSchemaIn_right (hquiet : w.Quiet) (hw : MapsRight none w)
    (schema : List GraphSchema) (statements : Nat) :
    (assertSchemaIn schema statements w).1.Owned ∧
      MapsRight (some .own) (assertSchemaIn schema statements w).1 ∧
      (MapsRight none (assertSchemaIn schema statements w).1 ↔
        statements ≤ 2 ∨ ∀ k ∈ schemaKinds schema, w.HasKind k) := by
  match statements with
  | 0 | 1 => exact ⟨hquiet.owned, hw.mono _, iff_of_true hw (.inl (by omega))⟩
  | statements + 2 =>
    have hfetch := mapsRight_fetch hquiet hw (statements + 1)
    have howned : (fetch (statements + 1) w).1.Owned := hquiet.owned
    have hnone : ∀ k, (fetch (statements + 1) w).1.manager.kindsByID k = none ↔ ¬ w.HasKind k := by
      intro k
      show w.db.kind.select (some .own) k = none ↔ _
      rw [← not_iff_not, not_not, ← Ne, Option.ne_none_iff_exists']
      refine exists_congr fun i => ?_
      rw [select_eq_some, hquiet.visible_iff]
    obtain ⟨defined, hdefines, hdefined, hlen, hsome⟩ := defineAll_defines
      (schema.flatMap fun g => [g.nodes, g.edges]) statements howned (hfetch.mono _)
    refine ⟨hdefines.owned, hdefines.right, (hdefines.mapsRight_iff hfetch).trans ?_⟩
    constructor
    · refine fun hhas => or_iff_not_imp_left.mpr fun hpos k hk => ?_
      by_contra hmissing
      have hne := hsome (by omega) ⟨k, hk, (hnone k).mpr hmissing⟩
      obtain ⟨d, hd⟩ := exists_mem_of_ne_nil _ hne
      exact (hnone d).mp (hdefined d hd).2 (hhas d hd)
    · intro hcond k hk
      rcases hcond with hle | hall
      · have := length_pos_of_mem hk
        omega
      · exact absurd (hall k (hdefined k hk).1) ((hnone k).mp (hdefined k hk).2)

/-! ## Graphs -/

/-- `AssertGraph` gets to the point where it caches a graph. -/
def World.Caches (w : World) (session : Session) (name : String) (statements : Nat) : Prop :=
  w.manager.graphs name = none ∧ 3 ≤ statements ∧
    ((w.db.graph.select session name).isSome ∨ name ∉ w.db.graph.names)

/-- What the statements of a session do to the graphs. -/
structure GraphStep (session : Session) (db db' : Database) : Prop where
  kind : db'.kind = db.kind
  kept : ∀ s n i, db.graph.Visible s n i → db'.graph.Visible s n i
  committed : session ≠ none → ∀ n i, db'.graph.Visible none n i → db.graph.Visible none n i

section

variable (session : Session) (db : Database)

theorem GraphStep.refl :
    GraphStep session db db := ⟨rfl, fun _ _ _ h => h, fun _ _ _ h => h⟩

theorem insert_graphStep (name : String) : GraphStep session db
      { db with graph := (db.graph.insert session name).1 } := by
  unfold SerialTable.insert
  by_cases hmem : name ∈ db.graph.names
  · rw [dif_pos hmem]
    exact ⟨rfl, fun _ _ _ h => h, fun _ _ _ h => h⟩
  · rw [dif_neg hmem]
    refine ⟨rfl, fun s n i h => (visible_insertNew hmem).mpr (.inl h), fun hsession n i h => ?_⟩
    rcases (visible_insertNew hmem).mp h with h | ⟨hnone, -⟩
    · exact h
    · exact absurd (hnone.elim id id) hsession

/-- A graph is created with two statements, if its name is not taken. -/
theorem createGraph_spec (name : String) (statements : Nat) :
    GraphStep session db (db.createGraph session name statements).1 ∧
      (2 ≤ statements ∧ name ∉ db.graph.names ↔ (db.createGraph session name statements).2.isSome) ∧
      ∀ g left, (db.createGraph session name statements).2 = some (g, left) →
        g.name = name ∧ (db.createGraph session name statements).1.graph.Visible session
            name g.id := by
  have hstep := insert_graphStep session db name
  cases statements with
  | zero => exact ⟨.refl .., by simp [Database.createGraph], nofun⟩
  | succ statements =>
    unfold Database.createGraph
    by_cases hmem : name ∈ db.graph.names
    · have hins : db.graph.insert session name = (db.graph.skip, none) := dif_pos hmem
      rw [hins] at hstep ⊢
      exact ⟨hstep, by simp [hmem], nofun⟩
    · have hins : db.graph.insert session name =
          (db.graph.insertNew session name hmem, some db.graph.next) := dif_neg hmem
      rw [hins] at hstep ⊢
      cases statements with
      | zero => exact ⟨hstep, by simp, nofun⟩
      | succ statements =>
        refine ⟨hstep, by simp [hmem], fun g left h => ?_⟩
        cases h
        exact ⟨rfl, (visible_insertNew hmem).mpr (.inr ⟨.inr rfl, rfl, rfl⟩)⟩

end

section

variable (session : Session) (w : World) (name : String) (r : World × Option (Graph × Nat))

/-- What `AssertGraph` has done when it caches a graph. -/
structure CachesGraph
    : Prop where
  step : GraphStep session w.db r.1.db
  result : ∃ g left, r.2 = some (g, left) ∧ g.name = name ∧ r.1.manager = (w.cache name g).manager ∧
    r.1.db.graph.Visible session name g.id

/-- What it has done when it does not. -/
structure LeavesGraphs
    : Prop where
  step : GraphStep session w.db r.1.db
  manager : r.1.manager = w.manager
  result : ∀ g left, r.2 = some (g, left) → w.manager.graphs name = some g

end

/-- Without three statements no graph is cached. -/
theorem leavesGraphs_early {statements : Nat} (h : statements < 3) :
    ¬ w.Caches session name statements ∧ LeavesGraphs session w name (w, none) :=
  ⟨fun hcaches => absurd hcaches.2.1 (Nat.not_le.mpr h), .refl .., rfl, nofun⟩

section

variable (session : Session) (name : String) (statements : Nat) (w : World)

theorem assertNewGraph_spec
    (hnone : w.manager.graphs name = none) :
    w.Caches session name statements ∧
        CachesGraph session w name (w.assertNewGraph session name statements) ∨
      ¬ w.Caches session name statements ∧ LeavesGraphs session w name
        (w.assertNewGraph session name statements) := by
  unfold assertNewGraph Database.selectGraphByName
  cases statements with
  | zero => exact .inr (leavesGraphs_early (by omega))
  | succ statements =>
    cases hselect : w.db.graph.select session name with
    | none =>
      obtain ⟨hstep, hsome, hresult⟩ := createGraph_spec session w.db name statements
      have hcaches : w.Caches session name (statements + 1) ↔
          2 ≤ statements ∧ name ∉ w.db.graph.names := by
        simp [World.Caches, hnone, hselect]
      rw [hcaches, hsome]
      simp only
      split
      next db heq =>
        rw [heq] at hstep ⊢
        exact .inr ⟨nofun, hstep, rfl, nofun⟩
      next db g left heq =>
        rw [heq] at hstep hresult ⊢
        obtain ⟨hname, hvis⟩ := hresult g left rfl
        exact .inl ⟨rfl, hstep, g, left, rfl, hname, rfl, hvis⟩
    | some id =>
      match statements with
      | 0 | 1 => exact .inr (leavesGraphs_early (by omega))
      | statements + 2 =>
        exact .inl ⟨⟨hnone, by omega, .inl (by simp [hselect])⟩, .refl ..,
          ⟨id, name⟩, statements, rfl, rfl, rfl, (select_eq_some).mp hselect⟩

theorem assertGraph_spec :
    w.Caches session name statements ∧
        CachesGraph session w name (w.assertGraph session name statements) ∨
      ¬ w.Caches session name statements ∧ LeavesGraphs session w name
        (w.assertGraph session name statements) := by
  unfold assertGraph
  split
  next g hg =>
    refine .inr ⟨fun h => ?_, .refl .., rfl, fun g' left h => ?_⟩
    · rw [h.1] at hg
      cases hg
    · cases h
      exact hg
  next hnone => exact assertNewGraph_spec session name statements w hnone

end

/-- The statements of a session keep what is right for any session. -/
theorem MapsRight.of_step {db : Database} (hw : MapsRight s w)
    (hstep : GraphStep session w.db db) : MapsRight s ⟨db, w.manager⟩ :=
  hw.of_visible rfl (by rw [hstep.kind]; exact fun _ _ hvis => hvis) (hstep.kept s)

@[simp] theorem cache_graphs {name : String}
    (n : String) : (w.cache name g).manager.graphs n =
      if n = name then some g else w.manager.graphs n :=
  update_apply ..

theorem mapsRight_cache (hw : MapsRight s w) (hname : g.name = name) :
    MapsRight s (w.cache name g) ↔ w.db.graph.Visible s name g.id := by
  constructor
  · intro h
    exact (h.graphs name g (by rw [cache_graphs, if_pos rfl])).2
  · intro hvis
    refine ⟨hw.inverse, hw.kinds, fun n g' hg => ?_, hw.default⟩
    rw [cache_graphs] at hg
    split at hg
    next heq =>
      cases hg
      exact ⟨hname.trans heq.symm, heq ▸ hvis⟩
    · exact hw.graphs n g' hg

theorem World.eta {db : Database} {m : SchemaManager} (hdb : w.db = db)
    (hm : w.manager = m) : w = ⟨db, m⟩ := by
  cases hdb
  cases hm
  rfl

/-- The session itself can see what `AssertGraph` caches. -/
theorem mapsRight_assertGraph (hw : MapsRight session w) (name : String)
    (statements : Nat) : MapsRight session (w.assertGraph session name statements).1 := by
  rcases assertGraph_spec session name statements w with
    ⟨-, hstep, g, left, -, hname, hm, hvis⟩ | ⟨-, hstep, hm, -⟩
  · rw [eta rfl hm]
    exact (mapsRight_cache (hw.of_step hstep) hname).mpr hvis
  · rw [eta rfl hm]
    exact hw.of_step hstep

/-- What a transaction caches is right only if the graph was committed
before. -/
theorem mapsRight_assertGraph_iff (hsession : session ≠ none)
    (hw : MapsRight none w) (name : String) (statements : Nat) :
    MapsRight none (w.assertGraph session name statements).1 ↔
      ¬ w.Caches session name statements ∨ w.HasGraph name := by
  rcases assertGraph_spec session name statements w with
    ⟨h, hstep, g, left, -, hname, hm, hvis⟩ | ⟨h, hstep, hm, -⟩
  · rw [eta rfl hm, or_iff_right (not_not.mpr h)]
    refine (mapsRight_cache (hw.of_step hstep) hname).trans ⟨?_, ?_⟩
    · intro hvis
      exact ⟨g.id, hstep.committed hsession _ _ hvis⟩
    · intro ⟨i, hi⟩
      have hi' := hstep.kept _ _ _ hi
      rw [hvis.id_eq hi']
      exact hi'
  · rw [eta rfl hm]
    exact iff_of_true (hw.of_step hstep) (.inl h)

theorem assertGraph_kind (session : Session) (name : String) (statements : Nat) (w : World) :
    (w.assertGraph session name statements).1.db.kind = w.db.kind :=
  (assertGraph_spec session name statements w).elim (fun h => h.2.step.kind) fun h => h.2.step.kind

/-- A graph that can be seen may become the default graph. -/
theorem MapsRight.setDefault (hw : MapsRight s w) (hname : g.name = name)
    (hvis : w.db.graph.Visible s name g.id) : MapsRight s (w.setDefault g name) := by
  have hcache := (mapsRight_cache hw hname).mpr hvis
  unfold World.setDefault
  split
  · exact hw
  · refine ⟨hw.inverse, hw.kinds, hcache.graphs, fun g' hg => ?_⟩
    cases hg
    exact hname ▸ hvis

/-- The graph that is cached under a name may become the default graph. -/
theorem mapsRight_setDefault (hg : w.manager.graphs name = some g) :
    MapsRight s (w.setDefault g name) ↔ MapsRight s w := by
  constructor
  · unfold World.setDefault
    split
    · exact id
    next hnone =>
      intro h
      refine ⟨h.inverse, h.kinds, fun n g' hn => h.graphs n g' ?_, fun g' hg' => ?_⟩
      · show update w.manager.graphs name (some g) n = some g'
        rw [update_apply]
        split
        next heq =>
          rw [heq, hg] at hn
          exact hn
        · exact hn
      · rw [hnone] at hg'
        cases hg'
  · intro h
    obtain ⟨hname, hvis⟩ := h.graphs name g hg
    exact h.setDefault hname hvis

/-- What `AssertDefaultGraph` makes the default graph is cached. -/
theorem assertDefaultGraphIn_right (w : World) (name : String) (statements : Nat) :
    MapsRight s (assertDefaultGraphIn name statements w).1 ↔
      MapsRight s (w.assertGraph (some .own) name statements).1 := by
  have hcached : ∀ g left, (w.assertGraph (some .own) name statements).2 = some (g, left) →
        (w.assertGraph (some .own) name statements).1.manager.graphs name = some g := by
    intro g left hresult
    rcases assertGraph_spec (some .own) name statements w with
      ⟨-, -, g', left', hresult', -, hm, -⟩ | ⟨-, hleaves⟩
    · rw [hresult] at hresult'
      cases hresult'
      rw [hm, cache_graphs, if_pos rfl]
    · rw [hleaves.manager]
      exact hleaves.result g left hresult
  unfold assertDefaultGraphIn
  split
  next heq => rw [heq]
  next heq =>
    rw [heq] at hcached ⊢
    exact mapsRight_setDefault (hcached _ _ rfl)

theorem setDefault_db (w : World) (g : Graph) (name : String) :
    (w.setDefault g name).db = w.db := by
  unfold World.setDefault
  split <;> rfl

theorem assertDefaultGraphIn_kind (name : String) (statements : Nat)
    (w : World) : (assertDefaultGraphIn name statements w).1.db.kind =
      w.db.kind := by
  have hkind := assertGraph_kind (some .own) name statements w
  unfold assertDefaultGraphIn
  split
  next heq =>
    rwa [heq] at hkind
  next heq =>
    rw [heq] at hkind
    rw [setDefault_db]
    exact hkind

theorem mapsRight_setDefaultGraph (hw : MapsRight none w) (name : String)
    (fate : Fate) : MapsRight none (w.setDefaultGraph name fate).1 := by
  unfold setDefaultGraph Database.selectGraphByName
  split
  · cases fate.statements with
    | zero => exact hw
    | succ statements =>
      cases hselect : w.db.graph.select none name with
      | none => exact hw
      | some id =>
        cases statements with
        | zero => exact hw
        | succ statements => exact hw.setDefault (g := ⟨id, name⟩) rfl (select_eq_some.mp hselect)
  · exact hw

theorem setDefaultGraph_db (name : String) (fate : Fate) (w : World) :
    (w.setDefaultGraph name fate).1.db = w.db := by
  fun_cases setDefaultGraph name fate w with
  | case2 => exact setDefault_db ..
  | _ => rfl

/-! ## Runs -/

/-- The condition on a call: in a transaction that does not commit, it
enters nothing into the maps that is not committed. -/
def Op.Keeps (w : World) : Op → Prop
  | .assertKinds kinds fate =>
    fate.connected = false ∨ fate.Commits (defineKinds (w.manager.missing kinds)) w ∨
      ∀ k ∈ (w.manager.missing kinds).take fate.statements, w.HasKind k
  | .assertSchema schema fate =>
    fate.connected = false ∨ fate.Commits (assertSchemaIn schema) w ∨
      fate.statements ≤ 2 ∨ ∀ k ∈ schemaKinds schema, w.HasKind k
  | .assertDefaultGraph name fate =>
    fate.connected = false ∨ fate.Commits (assertDefaultGraphIn name) w ∨
      ¬ w.Caches (some .own) name fate.statements ∨ w.HasGraph name
  | .assertGraphIn n name statements =>
    ¬ w.Caches (some (.caller n)) name statements ∨ w.HasGraph name
  | _ => True

theorem mapKinds_world (kinds : List String) (fate : Fate) (w : World) :
    (w.mapKinds kinds fate).1 = w ∨ (w.mapKinds kinds fate).1 = (w.refresh fate).1 := by
  fun_cases mapKinds kinds fate w with
  | case1 => exact .inl rfl
  | case2 _ _ _ heq | case3 _ _ heq | case4 _ _ heq => exact .inr (by rw [heq])

theorem mapKindIDs_world (ids : List Nat) (fate : Fate) (w : World) :
    (w.mapKindIDs ids fate).1 = w ∨ (w.mapKindIDs ids fate).1 = (w.refresh fate).1 := by
  fun_cases mapKindIDs ids fate w with
  | case1 => exact .inl rfl
  | case2 _ _ _ heq | case3 _ _ heq | case4 _ _ heq => exact .inr (by rw [heq])

/-- `AssertKinds` does nothing if no kind is missing, and else runs its
transaction. -/
theorem assertKinds_world (kinds : List String) (fate : Fate) (w : World) :
    (w.manager.missing kinds = [] ∧ (w.assertKinds kinds fate).1 = w) ∨
      (w.assertKinds kinds fate).1 = (w.writeTransaction fate
        (defineKinds (w.manager.missing kinds))).1 := by
  unfold assertKinds assertMissingKinds
  rw [show (w.manager.mapKinds kinds).2 = w.manager.missing kinds from rfl]
  cases hmissing : w.manager.missing kinds with
  | nil => exact .inl ⟨rfl, rfl⟩
  | cons k missing =>
    right
    rw [if_neg (by simp)]
    split
    next h => cases h
    · split
      next heq => rw [heq]
      next heq => rw [heq]

theorem quiet_finish (hw : w.Quiet) (n : Nat) (outcome : CommitOutcome) :
    (w.finish n outcome).Quiet := by
  have hcommit : (w.commit (.caller n)).Quiet := by
    intro r hr
    obtain ⟨q, hq, rfl⟩ := mem_map.mp hr
    rw [settle, if_neg (by simp [hw q hq])]
    exact hw q hq
  cases outcome with
  | done | unconfirmed => exact hcommit
  | rolledBack => exact fun r hr => hw r (mem_filter.mp hr).1

theorem mapsRight_finish (hw : MapsRight none w) (n : Nat)
    (outcome : CommitOutcome) : MapsRight none (w.finish n outcome) := by
  cases outcome with
  | done | unconfirmed => exact (hw.mono _).commit
  | rolledBack => exact (mapsRight_rollback).mpr hw

/-- No transaction of the manager outlives its call, and the call leaves the
maps right exactly under its condition. -/
theorem step_right (hquiet : w.Quiet) (hw : MapsRight none w) (op : Op) :
    (w.step op).Quiet ∧ (MapsRight none (w.step op) ↔ op.Keeps w) := by
  have hlook : ∀ {v : World} {fate : Fate}, v = w ∨ v = (w.refresh fate).1 →
      v.Quiet ∧ (MapsRight none v ↔ True) := by
    intro v fate h
    rcases h with h | h
    · rw [h]
      exact ⟨hquiet, iff_of_true hw trivial⟩
    · rw [h]
      exact (refresh_right hquiet hw fate).imp_right (iff_of_true · trivial)
  cases op with
  | mapKinds kinds fate => exact hlook (mapKinds_world kinds fate w)
  | mapKindIDs ids fate => exact hlook (mapKindIDs_world ids fate w)
  | assertKinds kinds fate =>
    show (w.assertKinds kinds fate).1.Quiet ∧ (MapsRight none (w.assertKinds kinds fate).1 ↔ _)
    rcases assertKinds_world kinds fate w with ⟨hnil, h⟩ | h
    · rw [h]
      refine ⟨hquiet, iff_of_true hw (.inr (.inr ?_))⟩
      rw [hnil, take_nil]
      exact nofun
    · obtain ⟨hdefines, -⟩ := defineKinds_defines
        (w.manager.missing kinds) fate.statements hquiet.owned (hw.mono _)
      rw [h, mapsRight_writeTransaction hw hdefines.right, hdefines.mapsRight_iff hw]
      exact ⟨quiet_writeTransaction hquiet hdefines.owned, Iff.rfl⟩
  | assertSchema schema fate =>
    obtain ⟨howned, hown, hiff⟩ := assertSchemaIn_right hquiet hw schema fate.statements
    refine ⟨quiet_writeTransaction hquiet howned, (mapsRight_writeTransaction hw hown).trans ?_⟩
    rw [hiff]
    exact Iff.rfl
  | setDefaultGraph name fate =>
    refine ⟨fun r hr => hquiet r ?_, iff_of_true (mapsRight_setDefaultGraph hw name fate) trivial⟩
    rwa [step, setDefaultGraph_db] at hr
  | assertDefaultGraph name fate =>
    have hown := (assertDefaultGraphIn_right w name fate.statements).mpr
      (mapsRight_assertGraph (hw.mono (some .own)) name fate.statements)
    refine ⟨quiet_writeTransaction hquiet fun r hr => hquiet.owned r ?_,
      (mapsRight_writeTransaction hw hown).trans ?_⟩
    · rwa [assertDefaultGraphIn_kind] at hr
    · rw [assertDefaultGraphIn_right, mapsRight_assertGraph_iff (by simp) hw]
      exact Iff.rfl
  | assertGraph name statements =>
    refine ⟨fun r hr => hquiet r ?_, iff_of_true (mapsRight_assertGraph hw name statements) trivial⟩
    rwa [step, assertGraph_kind] at hr
  | assertGraphIn n name statements =>
    refine ⟨fun r hr => hquiet r ?_, mapsRight_assertGraph_iff (by simp) hw name statements⟩
    rwa [step, assertGraph_kind] at hr
  | finish n outcome =>
    exact ⟨quiet_finish hquiet n outcome, iff_of_true (mapsRight_finish hw n outcome) trivial⟩

/-! ## The ids that are returned -/

/-- If all kinds have ids, there is one for each, in order. -/
theorem map_some_filterMap {A B : Type} {f : A → Option B} {l : List A}
    (h : ∀ a ∈ l, (f a).isSome) : (l.filterMap f).map some = l.map f := by
  rw [map_filterMap_some_eq_filter_map_isSome, filter_eq_self]
  exact forall_mem_map.mpr h

theorem mapKinds_of_missing {s : SchemaManager} {kinds : List String} (h : s.missing kinds = []) :
    (s.mapKinds kinds).1.map some = kinds.map s.kindsByID := by
  refine map_some_filterMap fun k hk => ?_
  have hnot := filter_eq_nil_iff.mp h k hk
  rw [Option.isSome_iff_ne_none]
  simpa using hnot

/-- The maps only grow while kinds are defined, and have an id for each of
them in the end. -/
theorem defineKinds_entries (kinds : List String) (statements : Nat) (w : World) :
    (∀ k, (w.manager.kindsByID k).isSome →
        ((defineKinds kinds statements w).1.manager.kindsByID k).isSome) ∧
      ((defineKinds kinds statements w).2.isSome → ∀ k ∈ kinds,
        ((defineKinds kinds statements w).1.manager.kindsByID k).isSome) := by
  induction kinds generalizing statements w with
  | nil => exact ⟨fun _ h => h, by simp⟩
  | cons kind kinds ih =>
    cases statements with
    | zero => exact ⟨fun _ h => h, nofun⟩
    | succ statements =>
      have hm : (w.insertOrGetKind kind).1.manager = w.manager := rfl
      rw [defineKinds]
      split
      next heq =>
        rw [heq] at hm
        rw [hm]
        exact ⟨fun _ h => h, nofun⟩
      next w' id heq =>
        rw [heq] at hm
        obtain ⟨hkeep, hall⟩ := ih statements (w'.define kind id)
        have hdefine : ∀ k, (w.manager.kindsByID k).isSome ∨ k = kind →
            ((w'.define kind id).manager.kindsByID k).isSome := by
          intro k hk
          rw [define_kindsByID, hm]
          split
          · rfl
          next hne => exact hk.resolve_right hne
        refine ⟨fun k hk => hkeep k (hdefine k (.inl hk)), fun hsome k hk => ?_⟩
        rcases mem_cons.mp hk with heq | hk
        · exact hkeep k (hdefine k (.inr heq))
        · exact hall hsome k hk

/-- A transaction that is reported as done has got through. -/
theorem writeTransaction_ok (h : w.writeTransaction fate txDelegate = (w', .ok ())) :
    (txDelegate fate.statements w).2.isSome ∧
      w'.manager = (txDelegate fate.statements w).1.manager := by
  revert h
  fun_cases writeTransaction fate txDelegate w with
  | case2 _ _ _ heq =>
    rintro ⟨⟩
    rw [heq]
    exact ⟨rfl, rfl⟩
  | _ => nofun

theorem assertKinds_ids {kinds : List String} {ids : List Nat}
    (h : w.assertKinds kinds fate = (w', .ok ids)) :
    ids.map some = kinds.map w'.manager.kindsByID := by
  unfold assertKinds at h
  split at h
  next hnil =>
    cases h
    exact mapKinds_of_missing (isEmpty_iff.mp hnil)
  · unfold assertMissingKinds at h
    split at h
    next hnil =>
      cases h
      exact mapKinds_of_missing hnil
    · split at h
      · cases h
      next w'' heq =>
        cases h
        obtain ⟨hsome, hm⟩ := writeTransaction_ok heq
        obtain ⟨hkeep, hall⟩ := defineKinds_entries (w.manager.missing kinds) fate.statements w
        refine map_some_filterMap fun k hk => ?_
        rw [hm]
        by_cases hmissing : k ∈ w.manager.missing kinds
        · exact hall hsome k hmissing
        · refine hkeep k ?_
          rw [SchemaManager.missing] at hmissing
          simpa [hk, Option.isSome_iff_ne_none] using hmissing

/-! ## The manager -/

/-- A database without kinds and graphs. -/
def emptyDatabase : Database where
  kind := ⟨[], 1, by simp, by simp, by simp⟩
  graph := ⟨[], 1, by simp, by simp, by simp⟩

/-- The commit fails after a kind has been defined. The kind is not in the
database, but the manager has an id for it, and keeps returning it. -/
theorem rolled_back_kind_stays :
    let w := step ⟨emptyDatabase, .new⟩ (.assertKinds ["User"] ⟨true, 1, .rolledBack⟩)
    w.db.kind.rows.isEmpty ∧ w.manager.kindsByID "User" = some 1 ∧
      (w.assertKinds ["User"] ⟨true, 1, .done⟩).2 = .ok [1] ∧
      (w.assertKinds ["User"] ⟨true, 1, .done⟩).1.db.kind.rows.isEmpty ∧ ¬ MapsRight none w := by
  refine ⟨by decide +kernel, by decide +kernel, by decide +kernel, by decide +kernel, fun h => ?_⟩
  obtain ⟨r, hr, -⟩ := h.kinds "User" 1 (by decide +kernel)
  cases hr

/-- From any database on, the maps are right at every point of a run
exactly if every call meets its condition. And `AssertKinds` returns one id
for each kind, in order. -/
theorem maps_right_iff (db : Database) (hdb : ∀ r ∈ db.kind.rows, r.owner = none) :
    (∀ ops, (∀ w ∈ points step ⟨db, .new⟩ ops, MapsRight none w) ↔
      Along step (fun w op => op.Keeps w) ⟨db, .new⟩ ops) ∧ ∀ kinds fate w w' ids,
      assertKinds kinds fate w = (w', .ok ids) → ids.map some = kinds.map w'.manager.kindsByID := by
  refine ⟨fun ops => ?_, fun _ _ _ _ _ => assertKinds_ids⟩
  have hstart : MapsRight none (⟨db, .new⟩ : World) :=
    ⟨fun _ _ => ⟨nofun, nofun⟩, nofun, nofun, nofun⟩
  have hquiet : World.Quiet ⟨db, .new⟩ := hdb
  have hinv : ∀ (w : World) op, w.Quiet → MapsRight none w →
      (w.step op).Quiet := fun _ op hq hw => (step_right hq hw op).1
  have hstep : ∀ (w : World) op, w.Quiet → MapsRight none w →
      (MapsRight none (w.step op) ↔ op.Keeps w) := fun _ op hq hw => (step_right hq hw op).2
  exact forall_points_iff hinv hstep hquiet hstart ops

theorem maps_right_two_kinds :
    emptyDatabase.kind.rows.isEmpty ∧ ∀ w ∈ points step ⟨emptyDatabase, .new⟩
      [.assertKinds ["User", "Group"] ⟨true, 2, .done⟩,
        .assertGraph "main" 3, .setDefaultGraph "main" ⟨true, 2, .done⟩,
        .assertKinds ["Computer"] ⟨true, 0, .done⟩, .mapKinds ["User"] ⟨true, 1, .rolledBack⟩],
      MapsRight none w := by
  refine ⟨by decide, ((maps_right_iff emptyDatabase nofun).1 _).mpr ?_⟩
  refine ⟨.inr (.inl ⟨by decide +kernel, by decide⟩), trivial, trivial,
    .inr (.inr ?_), trivial, trivial⟩
  exact nofun

end Dawgs.Ref.Schema

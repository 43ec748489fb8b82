import Dawgs.Proofs.IdentityKeys

/-!
# What the update batches hold

A batch has one entry for each key, made from the updates with that key in
the order they came, and every one of them gets the future of the entry.
That much the batches do right. Whether it is one entry for each identity
is up to the keys: it is exactly if two updates of the batch have the same
key just when they have the same identity.

That all updates use the same names is checked by `Add`, but the check can
be passed by. It compares with the names of the first update that has any,
so updates without names come first unnoticed; and a name that is twice in
the list makes room for another one.

In a batch of relationships the nodes go into a batch of their own, start
and end of one update after the other. The entry of a relationship has the
futures of the nodes of the first update with its key. They are those of
every other update with that identity.
-/

namespace Dawgs.Ref

open Lib List NodeUpdateBatch RelationshipUpdateBatch RelationshipUpdate

variable {α : Type} (updates : List (NodeUpdate α))

/-- The updates of calls that got a future. -/
def withFuture (futures : List Nat) (future : Nat) : List (NodeUpdate α) :=
  ((updates.zip futures).filter (·.2 = future)).map Prod.fst

/-- The properties of some updates, merged in order. -/
def mergedProperties (first : NodeUpdate α) (rest : List (NodeUpdate α)) :
    Properties (PropertyValue α) :=
  rest.foldl (fun p u => p.merge u.node.properties) first.node.properties

/-- All updates use the same names. -/
def SameNames : Prop := ∀ u ∈ updates, ∀ v ∈ updates, ∀ n,
    n ∈ u.identityProperties ↔ n ∈ v.identityProperties

/-- Two updates have the same key just when they have the same identity. -/
def KeysIdentify : Prop := ∀ u ∈ updates, ∀ v ∈ updates, u.key = v.key ↔ u.SameIdentity v

/-- A batch is what it should be after these calls. -/
structure NodeBatchRight (updates : List (NodeUpdate α))
    (batch : NodeUpdateBatch α) (futures : List Nat) : Prop where
  names : SameNames updates
  /-- The futures of two calls are the same for the same identity. -/
  same_future : ∀ c ∈ updates.zip futures, ∀ d ∈ updates.zip futures,
    c.2 = d.2 ↔ c.1.SameIdentity d.1
  /-- The entries have different futures, those of the calls. -/
  entries_nodup : (batch.updates.map fun e => e.2.idFuture).Nodup
  entries_called : ∀ f, f ∈ (batch.updates.map fun e => e.2.idFuture) ↔ f ∈ futures
  /-- An entry has the properties of its calls, merged in order. -/
  merged : ∀ e ∈ batch.updates, ∃ first rest,
    withFuture updates futures e.2.idFuture = first :: rest ∧
      e.2.node.properties = mergedProperties first rest

/-- The node updates of relationship updates, in the order of `Add`. -/
def endpoints (updates : List (RelationshipUpdate α)) : List (NodeUpdate α) :=
  updates.flatMap fun u => [u.startNodeUpdate, u.endNodeUpdate]

/-- The key of an update that has one. -/
def RelationshipUpdate.keyOf (u : RelationshipUpdate α) : String :=
  match u.key with
  | .ok k => k
  | .error _ => ""

/-- Where the entry of an update is: the one under its key. -/
def RelationshipUpdateBatch.slot (s : RelationshipUpdateBatch α)
    (u : RelationshipUpdate α) : Nat := (s.updates.map Prod.fst).idxOf u.keyOf

section

variable (updates : List (RelationshipUpdate α))

/-- All relationship updates use the same names. -/
def SameEdgeNames : Prop :=
  ∀ u ∈ updates, ∀ v ∈ updates, ∀ n, n ∈ u.identityProperties ↔ n ∈ v.identityProperties

def EdgeKeysIdentify : Prop :=
  ∀ u ∈ updates, ∀ v ∈ updates, u.key = v.key ↔ u.SameIdentity v

/-- A batch of relationships is what it should be after these calls, where
the nodes have these futures. -/
structure RelationshipBatchRight
    (batch : RelationshipUpdateBatch α) (futures : List Nat) : Prop where
  nodes : NodeBatchRight (endpoints updates) batch.nodeUpdates futures
  names : SameEdgeNames updates
  /-- Two updates have one entry for the same identity. -/
  same_entry : ∀ u ∈ updates, ∀ v ∈ updates, batch.slot u = batch.slot v ↔ u.SameIdentity v
  entries_called : ∀ n, n < batch.updates.length ↔ ∃ u ∈ updates, batch.slot u = n
  /-- An entry has the kind and the nodes of each of its updates. -/
  ends : ∀ u ∈ updates, ∀ e, batch.updates[batch.slot u]? = some e →
    e.2.relationship.kind = u.relationship.kind ∧
      (u.startNodeUpdate, e.2.startID) ∈ (endpoints updates).zip futures ∧
      (u.endNodeUpdate, e.2.endID) ∈ (endpoints updates).zip futures
  /-- An entry has the properties of its updates, merged in order. -/
  merged : ∀ n e, batch.updates[n]? = some e → ∃ first rest,
    (updates.filter fun u => batch.slot u = n) = first :: rest ∧
      e.2.relationship.properties = rest.foldl (fun p u => p.merge u.relationship.properties)
        first.relationship.properties

end

/-! ## Node updates -/

variable (u : NodeUpdate α)

/-- The node of an update, as `Add` takes it. -/
def NodeUpdate.taken : Node α := u.node.addKinds u.node.kinds

def mergeNode (e : NodeEntry α) (u : NodeUpdate α) : NodeEntry α :=
  { e with node := e.node.merge u.taken }

def makeNode (future : Nat) : NodeEntry α := ⟨future, u.taken⟩

/-- The key of an update that has one. -/
def NodeUpdate.keyOf : String :=
  match u.key with
  | .ok k => k
  | .error _ => ""

/-- The entries of a batch after these updates. -/
def nodeEntries : List (String × NodeEntry α) :=
  upserts mergeNode makeNode (updates.map fun u => (u.keyOf, u))

/-- The place of the entry of an update. -/
def nodeSlot : Nat := place (updates.map NodeUpdate.keyOf) u.keyOf

theorem foldl_mergeNode (e : NodeEntry α) (rest : List (NodeUpdate α)) :
    (rest.foldl mergeNode e).idFuture = e.idFuture ∧ (rest.foldl mergeNode e).node.properties =
        rest.foldl (fun p u => p.merge u.node.properties)
          e.node.properties := by
  induction rest generalizing e with
  | nil => exact ⟨rfl, rfl⟩
  | cons u rest ih => exact ih (mergeNode e u)

theorem nodeEntries_concat : nodeEntries (updates ++ [u]) =
    upsert (fun e => mergeNode e u) u.keyOf (makeNode u) (nodeEntries updates) := by
  rw [nodeEntries, map_append, map_singleton, upserts_concat]
  rfl

variable {updates u} {before more : List (NodeUpdate α)} {s t : NodeUpdateBatch α}
  {futures : List Nat} {n : Nat} {k : String}

/-- Entry number `n` has future `n`, and its own updates merged. -/
theorem nodeEntries_getElem (hn : n < (nodeEntries updates).length) :
    (nodeEntries updates)[n].2.idFuture = n ∧ ∃ first rest,
      (updates.filter fun u => nodeSlot updates u = n) = first :: rest ∧
        (nodeEntries updates)[n].2.node.properties = mergedProperties first rest := by
  obtain ⟨first, rest, hitems, hentry⟩ := keyed_getElem hn
  obtain ⟨hfuture, hprops⟩ := foldl_mergeNode (makeNode first n) rest
  rw [← hentry] at hfuture hprops
  exact ⟨hfuture, first, rest, hitems, hprops⟩

/-- The future that a call gets is the place of its entry. -/
theorem lookup_future (updates : List (NodeUpdate α)) (u : NodeUpdate α) :
    ((nodeEntries updates).lookup u.keyOf).elim (nodeEntries updates).length
        NodeEntry.idFuture = nodeSlot (updates ++ [u]) u := by
  have hkeys : (nodeEntries updates).map Prod.fst = firsts (updates.map NodeUpdate.keyOf) := by
    rw [nodeEntries, keys_upserts, keys_keyed]
  have hlen := congrArg List.length hkeys
  rw [length_map] at hlen
  rw [lookup_eq, nodeSlot, place, map_append, map_singleton, firsts_concat, hkeys]
  by_cases hmem : u.keyOf ∈ firsts (updates.map NodeUpdate.keyOf)
  · have hlt := idxOf_lt_length_of_mem hmem
    rw [← hlen] at hlt
    rw [if_pos hmem, List.getElem?_eq_getElem hlt]
    exact (nodeEntries_getElem hlt).1
  · rw [if_neg hmem, idxOf_eq_length hmem, ← hlen, List.getElem?_eq_none (Nat.le_refl _),
      idxOf_append_of_notMem hmem, idxOf_cons_self, ← hlen]
    rfl

/-- What an accepted call does. -/
theorem NodeUpdateBatch.add_ok (hs : s.updates = nodeEntries before) (h : s.add u = .ok (t, n)) :
    u.key = .ok u.keyOf ∧ t.updates = nodeEntries (before ++ [u]) ∧
      n = nodeSlot (before ++ [u]) u := by
  revert h
  fun_cases add s u with
  | case3 _ k hk =>
    obtain rfl : u.keyOf = k := by rw [NodeUpdate.keyOf, hk]
    rw [hs]
    rintro ⟨⟩
    refine ⟨hk, ?_, lookup_future before u⟩
    rw [nodeEntries_concat]
    rfl
  | _ => nofun

theorem nodeSlot_append (h : u ∈ before) (more : List (NodeUpdate α)) :
    nodeSlot (before ++ more) u = nodeSlot before u := by
  rw [nodeSlot, nodeSlot, map_append, place_append (mem_map_of_mem h)]

/-- What accepted calls do, one after the other. -/
theorem NodeUpdateBatch.addAll_ok (hs : s.updates = nodeEntries before)
    (h : s.addAll updates = .ok (t, futures)) :
    (∀ u ∈ updates, u.key = .ok u.keyOf) ∧
      t.updates = nodeEntries (before ++ updates) ∧ futures = updates.map fun u =>
        nodeSlot (before ++ updates) u := by
  induction updates generalizing before s futures with
  | nil =>
    cases h
    exact ⟨by simp, by simpa using hs, rfl⟩
  | cons u updates ih =>
    obtain ⟨⟨s', future⟩, hadd, hrest⟩ := bind_eq_ok h
    obtain ⟨⟨t', futures'⟩, hall, hlast⟩ := bind_eq_ok hrest
    cases hlast
    obtain ⟨hkey, hs', hfuture⟩ := add_ok hs hadd
    obtain ⟨hkeys, ht, hfutures⟩ := ih hs' hall
    have happ : before ++ [u] ++ updates = before ++ u :: updates := by
      simp
    rw [happ] at ht hfutures
    have hslot : nodeSlot (before ++ u :: updates) u = nodeSlot (before ++ [u]) u := by
      rw [← happ]
      exact nodeSlot_append (by simp) updates
    refine ⟨forall_mem_cons.mpr ⟨hkey, hkeys⟩, ht, ?_⟩
    rw [hfutures, hfuture, map_cons, hslot]

theorem NodeUpdateBatch.addAll_append {w : NodeUpdateBatch α} {fs gs : List Nat}
    (h : s.addAll updates = .ok (t, fs)) (h' : t.addAll more = .ok (w, gs)) :
    s.addAll (updates ++ more) = .ok (w, fs ++ gs) := by
  induction updates generalizing s fs with
  | nil =>
    cases h
    exact h'
  | cons u updates ih =>
    obtain ⟨⟨s', future⟩, hadd, hrest⟩ := bind_eq_ok h
    obtain ⟨⟨t', futures'⟩, hall, hlast⟩ := bind_eq_ok hrest
    cases hlast
    rw [cons_append, addAll, hadd]
    change (s'.addAll (updates ++ more) >>= _) = _
    rw [ih hall]
    rfl

/-- From an empty batch. -/
theorem NodeUpdateBatch.addAll_new
    (h : (new : NodeUpdateBatch α).addAll updates = .ok (t, futures)) :
    (∀ u ∈ updates, u.key = .ok u.keyOf) ∧ t.updates = nodeEntries updates ∧
      futures = updates.map fun u => nodeSlot updates u :=
  addAll_ok (show (new : NodeUpdateBatch α).updates = nodeEntries [] from rfl) h

theorem nodeSlot_inj {v : NodeUpdate α} (hu : u ∈ updates) :
    nodeSlot updates u = nodeSlot updates v ↔ u.keyOf = v.keyOf := place_inj (mem_map_of_mem hu)

/-- The first of the items that a test picks passes it. -/
theorem mem_of_filter_eq_cons {β : Type} {p : β → Prop} [DecidablePred p] {l rest : List β} {b : β}
    (h : l.filter p = b :: rest) : b ∈ l ∧ p b := by
  have hmem : b ∈ l.filter p := h ▸ mem_cons_self
  simpa using hmem

theorem zip_map_self {β γ : Type} (l : List β) (f : β → γ) :
    l.zip (l.map f) = l.map fun a => (a, f a) := by simpa using @zip_map' _ _ _ id f l

theorem withFuture_eq (updates : List (NodeUpdate α)) (n : Nat) :
    withFuture updates (updates.map fun u => nodeSlot updates u) n =
      updates.filter fun u => nodeSlot updates u = n := by
  rw [withFuture, zip_map_self, filter_map, map_map]
  exact map_id _

/-- The futures of the entries are the numbers of the entries. -/
theorem nodeEntries_futures (updates : List (NodeUpdate α)) :
    ((nodeEntries updates).map fun e => e.2.idFuture) =
      List.range (nodeEntries updates).length := by
  refine ext_getElem (by simp) fun n hn _ => ?_
  rw [length_map] at hn
  rw [getElem_map, (nodeEntries_getElem hn).1, getElem_range]

/-- A batch is right exactly if its updates use the same names, and their
keys stand for their identities. -/
theorem nodeBatchRight_iff {batch : NodeUpdateBatch α}
    (h : (NodeUpdateBatch.new : NodeUpdateBatch α).addAll updates = .ok (batch, futures)) :
    NodeBatchRight updates batch futures ↔ SameNames updates ∧ KeysIdentify updates := by
  obtain ⟨hkeys, hbatch, hfutures⟩ := NodeUpdateBatch.addAll_new h
  have hzip : updates.zip futures = updates.map fun u => (u, nodeSlot updates u) := by
    rw [hfutures, zip_map_self]
  have hidentify : (∀ c ∈ updates.zip futures, ∀ d ∈ updates.zip futures,
      c.2 = d.2 ↔ c.1.SameIdentity d.1) ↔ KeysIdentify updates := by
    rw [hzip]
    simp only [forall_mem_map]
    refine forall₂_congr fun u hu => forall₂_congr fun v hv => ?_
    rw [nodeSlot_inj hu, hkeys u hu, hkeys v hv, Except.ok.injEq]
  refine ⟨fun hright => ⟨hright.names, hidentify.mp hright.same_future⟩,
    fun ⟨hnames, hident⟩ => ⟨hnames, hidentify.mpr hident, ?_, ?_, ?_⟩⟩
  · rw [hbatch, nodeEntries_futures]
    exact nodup_range
  · intro f
    rw [hbatch, nodeEntries_futures, mem_range, hfutures, mem_map]
    constructor
    · intro hf
      obtain ⟨-, u, rest, hfilter, -⟩ := nodeEntries_getElem hf
      exact ⟨u, mem_of_filter_eq_cons hfilter⟩
    · intro ⟨u, hu, hslot⟩
      exact hslot ▸ place_lt hu
  · intro e he
    rw [hbatch] at he
    obtain ⟨n, hn, rfl⟩ := getElem_of_mem he
    obtain ⟨hfuture, first, rest, hfilter, hprops⟩ := nodeEntries_getElem hn
    refine ⟨first, rest, ?_, hprops⟩
    rw [hfuture, hfutures, withFuture_eq, hfilter]

/-! ## Relationship updates -/

def mergeEdge (e : RelationshipEntry α) (u : RelationshipUpdate α) : RelationshipEntry α :=
  { e with relationship := e.relationship.merge u.relationship }

/-- A new entry, when these are all node updates. -/
def makeEdge (nodes : List (NodeUpdate α)) (u : RelationshipUpdate α)
    (_ : Nat) : RelationshipEntry α :=
  ⟨nodeSlot nodes u.startNodeUpdate, nodeSlot nodes u.endNodeUpdate, u.relationship⟩

def edgeEntries (nodes : List (NodeUpdate α))
    (updates : List (RelationshipUpdate α)) : List (String × RelationshipEntry α) :=
  upserts mergeEdge (makeEdge nodes) (updates.map fun u => (u.keyOf, u))

theorem foldl_mergeEdge (e : RelationshipEntry α)
    (rest : List (RelationshipUpdate α)) : rest.foldl mergeEdge e =
      { e with relationship := ⟨e.relationship.kind,
        rest.foldl (fun p u => p.merge u.relationship.properties) e.relationship.properties⟩ } := by
  induction rest generalizing e with
  | nil => rfl
  | cons u rest ih =>
    rw [foldl_cons, ih]
    rfl

variable {before updates : List (RelationshipUpdate α)} {s t batch : RelationshipUpdateBatch α}
  {u : RelationshipUpdate α} {nodes : List (NodeUpdate α)}

theorem edgeEntries_concat : edgeEntries nodes (updates ++ [u]) =
    upsert (fun e => mergeEdge e u) u.keyOf (makeEdge nodes u) (edgeEntries nodes updates) := by
  rw [edgeEntries, map_append, map_singleton, upserts_concat]
  rfl

theorem endpoints_append (updates more : List (RelationshipUpdate α)) :
    endpoints (updates ++ more) = endpoints updates ++ endpoints more := flatMap_append

/-- The steps of an accepted call. -/
theorem RelationshipUpdateBatch.add_eq_ok (h : s.add u = .ok t) :
    u.key = .ok u.keyOf ∧ ∃ n₁ f₁ n₂ f₂,
      s.nodeUpdates.add u.startNodeUpdate = .ok (n₁, f₁) ∧ n₁.add u.endNodeUpdate = .ok (n₂, f₂) ∧
        t = ⟨n₂, recordNames s.identityProperties u.identityProperties,
          upsert (fun e => mergeEdge e u) u.keyOf
            (fun _ => ⟨f₁, f₂, u.relationship⟩) s.updates⟩ := by
  rw [add] at h
  split at h
  · cases h
  · obtain ⟨⟨n₁, f₁⟩, hstart, h⟩ := bind_eq_ok h
    obtain ⟨⟨n₂, f₂⟩, hend, h⟩ := bind_eq_ok h
    dsimp only at h
    split at h
    · cases h
    next k hk =>
      obtain rfl : u.keyOf = k := by rw [keyOf, hk]
      cases h
      exact ⟨hk, n₁, f₁, n₂, f₂, hstart, hend, rfl⟩

/-- What an accepted call does. -/
theorem RelationshipUpdateBatch.add_ok (hnodes : nodes = endpoints (before ++ [u]) ++ more)
    (hs : s.nodeUpdates.updates = nodeEntries (endpoints before))
    (hedges : s.updates = edgeEntries nodes before) (h : s.add u = .ok t) :
    u.key = .ok u.keyOf ∧
      (∃ futures, s.nodeUpdates.addAll [u.startNodeUpdate, u.endNodeUpdate] =
        .ok (t.nodeUpdates, futures)) ∧ t.updates = edgeEntries nodes (before ++ [u]) := by
  obtain ⟨hkey, n₁, f₁, n₂, f₂, hstart, hend, rfl⟩ := add_eq_ok h
  obtain ⟨-, hn₁, hf₁⟩ := NodeUpdateBatch.add_ok hs hstart
  obtain ⟨-, -, hf₂⟩ := NodeUpdateBatch.add_ok hn₁ hend
  refine ⟨hkey, ⟨[f₁, f₂], ?_⟩, ?_⟩
  · rw [NodeUpdateBatch.addAll, hstart]
    change (n₁.addAll [u.endNodeUpdate] >>= _) = _
    rw [NodeUpdateBatch.addAll, hend]
    rfl
  · have hmore : nodes = endpoints before ++ [u.startNodeUpdate] ++ [u.endNodeUpdate] ++ more := by
      rw [hnodes]
      simp [endpoints]
    have hslot₂ : nodeSlot nodes u.endNodeUpdate = f₂ := by
      rw [hmore, hf₂, nodeSlot_append (by simp)]
    have hslot₁ : nodeSlot nodes u.startNodeUpdate = f₁ := by
      rw [hmore, hf₁, nodeSlot_append (by simp), nodeSlot_append (by simp)]
    rw [edgeEntries_concat, ← hedges, ← hslot₁, ← hslot₂]
    rfl

/-- What accepted calls do, one after the other. -/
theorem RelationshipUpdateBatch.addAll_ok (hnodes : nodes = endpoints (before ++ updates))
    (hs : s.nodeUpdates.updates = nodeEntries (endpoints before))
    (hedges : s.updates = edgeEntries nodes before) (h : s.addAll updates = .ok t) :
    (∀ u ∈ updates, u.key = .ok u.keyOf) ∧
      (∃ futures, s.nodeUpdates.addAll (endpoints updates) = .ok (t.nodeUpdates, futures)) ∧
      t.updates = edgeEntries nodes (before ++ updates) := by
  induction updates generalizing before s with
  | nil =>
    cases h
    exact ⟨by simp, ⟨[], rfl⟩, by simpa using hedges⟩
  | cons u updates ih =>
    obtain ⟨s', hadd, h⟩ := bind_eq_ok h
    have happ : before ++ u :: updates = before ++ [u] ++ updates := by
      simp
    rw [happ] at hnodes ⊢
    have hnodes' := hnodes
    rw [endpoints_append] at hnodes'
    obtain ⟨hkey, ⟨fs, hfs⟩, hedges'⟩ := add_ok hnodes' hs hedges hadd
    obtain ⟨-, hs', -⟩ := NodeUpdateBatch.addAll_ok hs hfs
    have hends : endpoints (before ++ [u]) =
        endpoints before ++ [u.startNodeUpdate, u.endNodeUpdate] := by
      rw [endpoints_append]
      rfl
    rw [← hends] at hs'
    obtain ⟨hkeys, ⟨gs, hgs⟩, ht⟩ := ih hnodes hs' hedges' h
    exact ⟨forall_mem_cons.mpr ⟨hkey, hkeys⟩, ⟨fs ++ gs, addAll_append hfs hgs⟩, ht⟩

/-- From an empty batch. -/
theorem RelationshipUpdateBatch.addAll_new
    (h : (new : RelationshipUpdateBatch α).addAll updates = .ok t) :
    (∀ u ∈ updates, u.key = .ok u.keyOf) ∧
      (∃ futures, (NodeUpdateBatch.new : NodeUpdateBatch α).addAll
        (endpoints updates) = .ok (t.nodeUpdates, futures)) ∧
      t.updates = edgeEntries (endpoints updates) updates := by
  have hnil : (new : RelationshipUpdateBatch α).nodeUpdates.updates =
      nodeEntries (endpoints []) := rfl
  exact addAll_ok rfl hnil rfl h

section

variable (hbatch : batch.updates = edgeEntries nodes updates)
include hbatch

theorem slot_eq (u : RelationshipUpdate α) : batch.slot u = place (updates.map keyOf) u.keyOf := by
  rw [slot, hbatch, edgeEntries, keys_upserts, keys_keyed]
  rfl

theorem slot_inj {v : RelationshipUpdate α} (hu : u ∈ updates) :
    batch.slot u = batch.slot v ↔ u.keyOf = v.keyOf := by
  rw [slot_eq hbatch, slot_eq hbatch]
  exact place_inj (mem_map_of_mem hu)

theorem slot_lt (hu : u ∈ updates) : batch.slot u < batch.updates.length := by
  rw [slot_eq hbatch, hbatch]
  exact place_lt hu

/-- An entry is made from updates with its key, which find it. -/
theorem edge_entry {e : String × RelationshipEntry α} (he : batch.updates[n]? = some e) :
    ∃ first rest, (updates.filter fun u => batch.slot u = n) = first :: rest ∧
      e.2 = rest.foldl mergeEdge (makeEdge nodes first n) := by
  obtain ⟨hn, rfl⟩ := List.getElem?_eq_some_iff.mp he
  simp only [slot_eq hbatch]
  simp only [hbatch] at hn ⊢
  exact keyed_getElem hn

end

/-- A batch of relationships is right exactly if its updates use the same
names, also for their nodes, and the keys stand for the identities. -/
theorem relationshipBatchRight_iff
    (h : (new : RelationshipUpdateBatch α).addAll updates = .ok batch) :
    ∃ futures, (NodeUpdateBatch.new : NodeUpdateBatch α).addAll (endpoints updates) =
        .ok (batch.nodeUpdates, futures) ∧
      (RelationshipBatchRight updates batch futures ↔
        (SameNames (endpoints updates) ∧ KeysIdentify (endpoints updates)) ∧
          SameEdgeNames updates ∧ EdgeKeysIdentify updates) := by
  obtain ⟨hkeys, ⟨futures, hfutures⟩, hbatch⟩ := addAll_new h
  refine ⟨futures, hfutures, ?_⟩
  have hidentify : (∀ u ∈ updates, ∀ v ∈ updates,
      batch.slot u = batch.slot v ↔ u.SameIdentity v) ↔ EdgeKeysIdentify updates := by
    refine forall₂_congr fun u hu => forall₂_congr fun v hv => ?_
    rw [slot_inj hbatch hu, hkeys u hu, hkeys v hv, Except.ok.injEq]
  rw [← nodeBatchRight_iff hfutures]
  refine ⟨fun hright => ⟨hright.nodes, hright.names, hidentify.mp hright.same_entry⟩,
    fun ⟨hnodes, hnames, hident⟩ =>
      ⟨hnodes, hnames, hidentify.mpr hident, ?_, ?_, ?_⟩⟩
  · intro n
    constructor
    · intro hn
      obtain ⟨u, rest, hfilter, -⟩ := edge_entry hbatch (List.getElem?_eq_getElem hn)
      exact ⟨u, mem_of_filter_eq_cons hfilter⟩
    · intro ⟨u, hu, hslot⟩
      exact hslot ▸ slot_lt hbatch hu
  · intro u hu e he
    obtain ⟨first, rest, hfilter, hentry⟩ := edge_entry hbatch he
    have hfirst := mem_of_filter_eq_cons hfilter
    have hsame := ((hidentify.mpr hident) _ hfirst.1 u hu).mp hfirst.2
    obtain ⟨hnodeKeys, -, hslots⟩ := NodeUpdateBatch.addAll_new hfutures
    have hnode : ∀ a ∈ endpoints updates, ∀ b ∈ endpoints updates,
        b.SameIdentity a → (a, nodeSlot (endpoints updates) b) ∈
            (endpoints updates).zip futures := by
      intro a ha b hb hab
      have hkey := ((nodeBatchRight_iff hfutures).mp hnodes).2 b hb a ha
      have hslot : nodeSlot (endpoints updates) b = nodeSlot (endpoints updates) a := by
        rw [nodeSlot_inj hb]
        have := hkey.mpr hab
        rw [hnodeKeys b hb, hnodeKeys a ha, Except.ok.injEq] at this
        exact this
      rw [hslot, hslots, zip_map_self]
      exact mem_map_of_mem ha
    have hstart : ∀ v ∈ updates, v.startNodeUpdate ∈ endpoints updates :=
      fun v hv => mem_flatMap.mpr ⟨v, hv, by simp⟩
    have hend : ∀ v ∈ updates, v.endNodeUpdate ∈ endpoints updates :=
      fun v hv => mem_flatMap.mpr ⟨v, hv, by simp⟩
    rw [hentry, foldl_mergeEdge]
    exact ⟨hsame.kind, hnode _ (hstart u hu) _ (hstart _ hfirst.1) hsame.start,
      hnode _ (hend u hu) _ (hend _ hfirst.1) hsame.end_⟩
  · intro n e he
    obtain ⟨first, rest, hfilter, hentry⟩ := edge_entry hbatch he
    refine ⟨first, rest, hfilter, ?_⟩
    rw [hentry, foldl_mergeEdge]
    rfl

/-! ## The two batches -/

/-- One user knows another. -/
def knows (u v : NodeUpdate Unit) : RelationshipUpdate Unit where
  relationship := ⟨"Knows", .load fun _ => none⟩
  identityProperties := []
  start := u.node
  startIdentityKind := u.identityKind
  startIdentityProperties := u.identityProperties
  end_ := v.node
  endIdentityKind := v.identityKind
  endIdentityProperties := v.identityProperties

theorem sameIdentity_self (u : NodeUpdate α) : u.SameIdentity u :=
  ⟨rfl, fun _ => Iff.rfl, fun _ _ => rfl⟩

end Dawgs.Ref

import Dawgs.Lib.Lists
import Dawgs.Ref.Scc

/-!
# Tarjan's algorithm is right

The proof is one invariant of the loop's state, `SccInv`, and what each
kind of round does to it.

Nodes on the descent stack are called *open*. The Tarjan stack is cut by
the open nodes into segments: the segment of an open node is what lies on
it up to the next open node. Three facts about the stack carry the proof.
Every node on it reaches the nodes above it (`fwd`). Every node on it
reaches some open node at or below it (`back`). And an edge already taken
from a node of an open node's segment to a node on the stack is accounted
for in that open node's low-link (`low_complete`).

When an open node closes with its low-link at its own index, the last fact
says that no edge leaves its segment downwards, so the segment together
with the components already found is closed under steps; the first two say
that the segment's nodes reach each other. So the segment is a component.
When its low-link is smaller, the node the low-link names (`low_sound`)
lies below it and lets the whole segment reach a node that is still open,
and the segment is handed down to the parent with its low-link.

Termination is a count: `workload` bounds the rounds, one for each
outbound edge and one for each node.
-/

namespace Dawgs.Ref

open Relation Lib List Function SccState Nat Option

namespace SccState

/-- The open nodes, innermost first. -/
def ids (s : SccState) : List Nat := s.dfsStack.map DescentCursor.id

def Visited (s : SccState) (v : Nat) : Prop := ∃ d, s.discIdx v = some d

/-- The edge from `u` to `x` has been looked at: `u` was visited, and if it
is still open its cursor has moved past `x`. -/
def Taken (g : DirectedGraph) (s : SccState) (u x : Nat) : Prop :=
  s.Visited u ∧ g.Step .outbound u x ∧ ∀ c ∈ s.dfsStack, c.id = u → x ∈ c.branches.take c.branchIdx

end SccState

/-- The invariant of the loop. -/
structure SccInv (g : DirectedGraph) (s : SccState) : Prop where
  disc_lt : ∀ {v d}, s.discIdx v = some d → d < s.index
  disc_inj : ∀ {u v d}, s.discIdx u = some d → s.discIdx v = some d → u = v
  visited_mem : ∀ {v}, s.Visited v → v ∈ g.eachNode
  stack_iff : ∀ {v}, v ∈ s.stack ↔ s.Visited v ∧ s.nodeToComp v = none
  stack_desc : s.stack.Pairwise fun a b => s.disc b < s.disc a
  onStack_iff : ∀ {v}, v ∈ s.onStack ↔ v ∈ s.stack
  open_sub : s.ids.Sublist s.stack
  cursor : ∀ c ∈ s.dfsStack, c.branches = g.adjacentNodes c.id .outbound
  taken_visited : ∀ {u x}, s.Taken g u x → s.Visited x
  fwd : s.stack.Pairwise fun a b => g.Reach .outbound b a
  back : ∀ w ∈ s.stack, ∃ u ∈ s.ids, s.disc u ≤ s.disc w ∧ g.Reach .outbound w u
  low_le : ∀ u ∈ s.ids, s.lowLink u ≤ s.disc u
  low_sound : ∀ u ∈ s.ids, ∃ y ∈ s.stack, s.disc y = s.lowLink u ∧ g.Reach .outbound u y
  low_complete : ∀ u ∈ s.ids, ∀ w ∈ s.stack, s.disc u ≤ s.disc w →
    (∀ u' ∈ s.ids, s.disc u' ≤ s.disc w → s.disc u' ≤ s.disc u) →
    ∀ x ∈ s.stack, s.Taken g w x → s.lowLink u ≤ s.disc x
  comp_visited : ∀ {v i}, s.nodeToComp v = some i → s.Visited v
  comp_lt : ∀ {v i}, s.nodeToComp v = some i → i < s.components.length
  comp_iff : ∀ {i b}, s.components[i]? = some b → ∀ v, v ∈ b ↔ s.nodeToComp v = some i
  comp_ne : ∀ b ∈ s.components, ∃ v, v ∈ b
  comp_closed : ∀ {u x i}, s.nodeToComp u = some i →
    g.Step .outbound u x → ∃ j ≤ i, s.nodeToComp x = some j
  comp_scc : ∀ {u v i j}, s.nodeToComp u = some i → s.nodeToComp v = some j →
    (i = j ↔ Mutual (g.Step .outbound) u v)

variable {below : List DescentCursor} {g : DirectedGraph} {c : DescentCursor} {v : Nat}

namespace SccInv

variable {s : SccState} {u : Nat}

theorem initial : SccInv g SccState.initial := by
  constructor <;>
    simp [SccState.initial, SccState.ids, SccState.Taken, SccState.Visited]

theorem disc_eq {d : Nat} (h : s.discIdx v = some d) : s.disc v = d := by
  rw [disc, h, getD_some]

section

variable (h : SccInv g s)
include h

theorem stack_visited (hv : v ∈ s.stack) : s.Visited v := (h.stack_iff.mp hv).1

theorem stack_disc_inj (hu : u ∈ s.stack)
    (hv : v ∈ s.stack) (heq : s.disc u = s.disc v) : u = v := by
  obtain ⟨du, hdu⟩ := h.stack_visited hu
  obtain ⟨dv, hdv⟩ := h.stack_visited hv
  rw [disc_eq hdu, disc_eq hdv] at heq
  subst heq
  exact h.disc_inj hdu hdv

theorem disc_lt_index (hv : v ∈ s.stack) : s.disc v < s.index := by
  obtain ⟨d, hd⟩ := h.stack_visited hv
  rw [disc_eq hd]
  exact h.disc_lt hd

theorem open_mem (hu : u ∈ s.ids) : u ∈ s.stack := h.open_sub.subset hu

theorem stack_nodup : s.stack.Nodup :=
  h.stack_desc.imp fun hlt heq => by subst heq; exact lt_irrefl _ hlt

/-- Nodes not visited are in no component and not on the stack. -/
theorem unvisited (hv : s.discIdx v = none) : s.nodeToComp v = none ∧ ¬ v ∈ s.stack := by
  have hnv : ¬ s.Visited v := by
    rintro ⟨d, hd⟩
    rw [hv] at hd
    cases hd
  constructor
  · cases hc : s.nodeToComp v with
    | none => rfl
    | some i => exact absurd (h.comp_visited hc) hnv
  · intro hmem
    exact hnv (h.stack_visited hmem)

/-- The components found so far are closed under steps. -/
theorem done_closed : Closed (g.Step .outbound) {v | ∃ i, s.nodeToComp v = some i} := by
  rintro u x ⟨i, hi⟩ hstep
  obtain ⟨j, _, hj⟩ := h.comp_closed hi hstep
  exact ⟨j, hj⟩

end

/-! ## Entering a node

A descent starts at an unvisited node, or an open node's cursor moves onto
an unvisited neighbour. Both are `enter` on a state whose cursors may have
moved, `ds`, so the lemma takes what the two have in common: the open
nodes are the same, the only edge taken since is one to the new node, and
every open node reaches it. -/

theorem enter_discIdx_self : (s.enter g v).discIdx v = some s.index := update_self ..

variable {w x : Nat}

theorem enter_discIdx_of_ne (hw : w ≠ v) :
    (s.enter g v).discIdx w = s.discIdx w := update_of_ne hw ..

theorem enter_discIdx_iff {d : Nat} :
    (s.enter g v).discIdx w = some d ↔ w = v ∧ d = s.index ∨ w ≠ v ∧ s.discIdx w = some d := by
  by_cases hw : w = v
  · simp [hw, enter_discIdx_self, eq_comm]
  · simp [hw, enter_discIdx_of_ne hw]

theorem enter_lowLink_self : (s.enter g v).lowLink v = s.index := update_self ..

theorem enter_disc_self : (s.enter g v).disc v = s.index := by
  rw [disc, enter_discIdx_self, getD_some]

theorem enter_disc_of_ne (hw : w ≠ v) : (s.enter g v).disc w = s.disc w := by
  rw [disc, enter_discIdx_of_ne hw, disc]

theorem enter_visited : (s.enter g v).Visited w ↔ w = v ∨ s.Visited w := by
  by_cases hw : w = v <;> simp [SccState.Visited, enter_discIdx_iff, hw]

theorem enter (h : SccInv g s) {ds : List DescentCursor} (hv : s.discIdx v = none)
    (hnode : v ∈ g.eachNode) (hids : ds.map DescentCursor.id = s.ids)
    (hcur : ∀ c ∈ ds, c.branches = g.adjacentNodes c.id .outbound)
    (htaken : ∀ {u x}, SccState.Taken g { s with dfsStack := ds } u x → s.Taken g u x ∨ x = v)
    (hreach : ∀ u ∈ s.ids, g.Reach .outbound u v) :
    SccInv g (SccState.enter g { s with dfsStack := ds } v) := by
  obtain ⟨hcomp, hnot⟩ := h.unvisited hv
  have hne : ∀ {w}, w ∈ s.stack → w ≠ v := fun hw heq => hnot (heq ▸ hw)
  set t := SccState.enter g { s with dfsStack := ds } v
  have hself : t.disc v = s.index := enter_disc_self
  have hdisc : ∀ {w}, w ∈ s.stack → t.disc w = s.disc w := fun hw => enter_disc_of_ne (hne hw)
  have hopen : t.ids = v :: s.ids := by
    rw [← hids]
    rfl
  have hlow : ∀ {w}, w ∈ s.stack → t.lowLink w = s.lowLink w :=
    fun hw => update_of_ne (hne hw) ..
  -- The new node's cursor has not moved, the others are those of `ds`.
  have hback : ∀ {u x}, t.Taken g u x → u ≠ v ∧ (s.Taken g u x ∨ x = v) := by
    rintro u x ⟨hu, hstep, hcs⟩
    have huv : u ≠ v := by
      intro huv
      have := hcs _ (mem_cons_self ..) huv.symm
      simp at this
    refine ⟨huv, htaken ⟨?_, hstep, fun c hc => ?_⟩⟩
    · exact (enter_visited.mp hu).resolve_left huv
    · exact hcs c (mem_cons_of_mem _ hc)
  refine
    { h with
      disc_lt := ?disc_lt, disc_inj := ?disc_inj
      visited_mem := ?visited_mem, stack_iff := ?stack_iff
      stack_desc := ?stack_desc, onStack_iff := ?onStack_iff
      open_sub := ?open_sub, cursor := ?cursor
      taken_visited := ?taken_visited, fwd := ?fwd, back := ?back
      low_le := ?low_le, low_sound := ?low_sound
      low_complete := ?low_complete, comp_visited := ?comp_visited }
  case disc_lt =>
    intro w d hd
    rcases enter_discIdx_iff.mp hd with ⟨-, rfl⟩ | ⟨-, hd⟩
    · exact lt_succ_self _
    · exact lt_succ_of_lt (h.disc_lt hd)
  case disc_inj =>
    intro a b d ha hb
    rcases enter_discIdx_iff.mp ha with ⟨hav, rfl⟩ | ⟨-, hda⟩ <;>
      rcases enter_discIdx_iff.mp hb with ⟨hbv, hd⟩ | ⟨-, hdb⟩
    · rw [hav, hbv]
    · exact absurd (h.disc_lt hdb) (lt_irrefl _)
    · subst hd
      exact absurd (h.disc_lt hda) (lt_irrefl _)
    · exact h.disc_inj hda hdb
  case visited_mem =>
    intro w hw
    rcases (enter_visited).mp hw with rfl | hw
    · exact hnode
    · exact h.visited_mem hw
  case stack_iff =>
    intro w
    rw [enter_visited]
    show w ∈ v :: s.stack ↔ (w = v ∨ s.Visited w) ∧ s.nodeToComp w = none
    rw [mem_cons, h.stack_iff]
    by_cases hw : w = v
    · simp [hw, hcomp]
    · simp [hw]
  case stack_desc =>
    refine pairwise_cons.mpr ⟨fun b hb => ?_, ?_⟩
    · rw [hself, hdisc hb]
      exact h.disc_lt_index hb
    · refine h.stack_desc.imp_of_mem fun ha hb hlt => ?_
      rw [hdisc ha, hdisc hb]
      exact hlt
  case onStack_iff =>
    intro w
    show w ∈ s.onStack.add v ↔ w ∈ v :: s.stack
    rw [Bitmap.mem_add, mem_cons, h.onStack_iff]
  case open_sub =>
    rw [hopen]
    exact h.open_sub.cons_cons v
  case cursor =>
    intro c hc
    rcases mem_cons.mp hc with rfl | hc
    · rfl
    · exact hcur c hc
  case taken_visited =>
    intro u x ht
    rcases (hback ht).2 with ht | rfl
    · exact (enter_visited).mpr (.inr (h.taken_visited ht))
    · exact (enter_visited).mpr (.inl rfl)
  case fwd =>
    refine pairwise_cons.mpr ⟨fun b hb => ?_, h.fwd⟩
    obtain ⟨u, hu, _, hbu⟩ := h.back b hb
    exact hbu.trans (hreach u hu)
  case back =>
    intro w hw
    rw [hopen]
    rcases mem_cons.mp hw with rfl | hw
    · exact ⟨w, mem_cons_self .., le_refl _, .refl⟩
    · obtain ⟨u, hu, hle, hreachu⟩ := h.back w hw
      refine ⟨u, mem_cons_of_mem _ hu, ?_, hreachu⟩
      rw [hdisc hw, hdisc (h.open_mem hu)]
      exact hle
  case low_le =>
    intro u hu
    rw [hopen] at hu
    rcases mem_cons.mp hu with rfl | hu
    · rw [hself, enter_lowLink_self]
    · rw [hlow (h.open_mem hu), hdisc (h.open_mem hu)]
      exact h.low_le u hu
  case low_sound =>
    intro u hu
    rw [hopen] at hu
    rcases mem_cons.mp hu with rfl | hu
    · refine ⟨u, mem_cons_self .., ?_, .refl⟩
      rw [hself, enter_lowLink_self]
    · obtain ⟨y, hy, hdy, hreachy⟩ := h.low_sound u hu
      refine ⟨y, mem_cons_of_mem _ hy, ?_, hreachy⟩
      rw [hdisc hy, hlow (h.open_mem hu)]
      exact hdy
  case low_complete =>
    intro u hu w hw hle htop x hx ht
    rw [hopen] at hu htop
    obtain ⟨hwv, htx⟩ := hback ht
    have hwS : w ∈ s.stack := (mem_cons.mp hw).resolve_left hwv
    rw [hdisc hwS] at hle htop
    rcases mem_cons.mp hu with rfl | huO
    · rw [hself] at hle
      have := h.disc_lt_index hwS
      omega
    · have huS := h.open_mem huO
      rw [hdisc huS] at hle htop
      rw [hlow huS]
      rcases mem_cons.mp hx with rfl | hxS
      · rw [hself]
        have h1 := h.low_le u huO
        have h2 := h.disc_lt_index huS
        omega
      · rcases htx with htx | rfl
        · rw [hdisc hxS]
          refine h.low_complete u huO w hwS hle (fun u' hu' hle' => ?_) x hxS htx
          have := htop u' (mem_cons_of_mem _ hu')
          rw [hdisc (h.open_mem hu')] at this
          exact this hle'
        · exact absurd hxS hnot
  case comp_visited =>
    intro w i hw
    exact (enter_visited).mpr (.inr (h.comp_visited hw))

/-! ## Taking an edge to a visited node -/

theorem lower_eq (s : SccState) (v bound : Nat) : s.lower v bound = { s with
      lowLink := update s.lowLink v (min (s.lowLink v) bound) } := by
  unfold lower
  split
  next hgt => rw [min_eq_right (le_of_lt hgt)]
  next hle =>
    rw [Nat.min_eq_left (Nat.le_of_not_lt hle), update_eq_self]

theorem update_le {low : Nat} (hle : low ≤ s.lowLink v) (u : Nat) :
    update s.lowLink v low u ≤ s.lowLink u := by
  by_cases hu : u = v
  · rw [hu, update_self]
    exact hle
  · rw [update_of_ne hu]

section Top

variable (hds : s.dfsStack = c :: below)
include hds

theorem ids_cons : s.ids = c.id :: below.map DescentCursor.id := by
  rw [SccState.ids, hds, map_cons]

theorem top_open : c.id ∈ s.ids := by
  rw [ids_cons hds]
  exact mem_cons_self ..

variable {x₀ : Nat}

theorem mem_open (hu : u ∈ s.ids) : u = c.id ∨ u ∈ below.map DescentCursor.id := by
  rw [ids_cons hds] at hu
  exact mem_cons.mp hu

theorem below_open (hu : u ∈ below.map DescentCursor.id) : u ∈ s.ids := by
  rw [ids_cons hds]
  exact mem_cons_of_mem _ hu

theorem cursors (h : SccInv g s) :
    c.branches = g.adjacentNodes c.id .outbound ∧
      ∀ c' ∈ below, c'.branches = g.adjacentNodes c'.id .outbound := by
  have hcur := h.cursor
  rw [hds] at hcur
  exact forall_mem_cons.mp hcur

theorem branch_step (h : SccInv g s)
    (hx : c.branches[c.branchIdx]? = some x₀) : g.Step .outbound c.id x₀ := by
  have hmem := mem_of_getElem? hx
  rw [(h.cursors hds).1] at hmem
  exact hmem

/-- What was taken from a node holds of the stack with its cursor on top. -/
theorem taken_cons {x : Nat} (ht : SccState.Taken g { s with dfsStack := below } u x)
    (hc : c.id = u → x ∈ c.branches.take c.branchIdx) : s.Taken g u x := by
  refine ⟨ht.1, ht.2.1, ?_⟩
  rw [hds]
  exact forall_mem_cons.mpr ⟨hc, ht.2.2⟩

/-- Moving a cursor takes the one edge it moves past. -/
theorem taken_advance {x : Nat} (hx : c.branches[c.branchIdx]? = some x₀)
    (ht : SccState.Taken g { s with dfsStack :=
      { c with branchIdx := c.branchIdx + 1 } :: below } u x) :
    s.Taken g u x ∨ u = c.id ∧ x = x₀ := by
  obtain ⟨hu, hstep, hcs⟩ := ht
  obtain ⟨htop, hbelow⟩ := forall_mem_cons.mp hcs
  by_cases huc : c.id = u
  · have hmem := htop huc
    rw [take_add_one, hx, mem_append] at hmem
    rcases hmem with hmem | hmem
    · exact .inl (taken_cons hds ⟨hu, hstep, hbelow⟩ fun _ => hmem)
    · exact .inr ⟨huc.symm, by simpa using hmem⟩
  · exact .inl (taken_cons hds ⟨hu, hstep, hbelow⟩ fun hid => absurd hid huc)

/-- The cursor of the innermost open node moves past a visited neighbour,
and the open node's low-link comes down to at most what the edge shows. -/
theorem advance (h : SccInv g s) {d low : Nat} (hx : c.branches[c.branchIdx]? = some x₀)
    (hd : s.discIdx x₀ = some d) (hle : low ≤ s.lowLink c.id)
    (hsound : low = s.lowLink c.id ∨ x₀ ∈ s.stack ∧ low = d)
    (hcomplete : x₀ ∈ s.stack → low ≤ d) : SccInv g { s with
      dfsStack := { c with branchIdx := c.branchIdx + 1 } :: below
      lowLink := update s.lowLink c.id low } := by
  have hids := ids_cons hds
  have hcur := h.cursors hds
  have hlow := update_le hle
  refine
    { h with
      open_sub := ?open_sub, cursor := ?cursor
      taken_visited := ?taken_visited, back := ?back
      low_le := ?low_le, low_sound := ?low_sound
      low_complete := ?low_complete }
  case open_sub =>
    have := h.open_sub
    rwa [hids] at this
  case cursor => exact forall_mem_cons.mpr ⟨hcur.1, hcur.2⟩
  case taken_visited =>
    intro u x ht
    rcases taken_advance hds hx ht with ht | ⟨_, rfl⟩
    · exact h.taken_visited ht
    · exact ⟨d, hd⟩
  case back =>
    intro w hw
    obtain ⟨u, hu, hrest⟩ := h.back w hw
    rw [hids] at hu
    exact ⟨u, hu, hrest⟩
  case low_le =>
    intro u hu
    exact le_trans (hlow u) (h.low_le u (by rw [hids]; exact hu))
  case low_sound =>
    intro u hu
    have huO : u ∈ s.ids := by rw [hids]; exact hu
    show ∃ y ∈ s.stack, s.disc y = update s.lowLink c.id low u ∧ _
    by_cases huc : u = c.id
    · subst huc
      rw [update_self]
      rcases hsound with rfl | ⟨hx₀, rfl⟩
      · exact h.low_sound _ huO
      · exact ⟨x₀, hx₀, disc_eq hd, .single (h.branch_step hds hx)⟩
    · rw [update_of_ne huc]
      exact h.low_sound u huO
  case low_complete =>
    intro u hu w hw huw htop x hxS ht
    have huO : u ∈ s.ids := by rw [hids]; exact hu
    have htopO : ∀ u' ∈ s.ids, s.disc u' ≤ s.disc w → s.disc u' ≤ s.disc u := by
      rw [hids]
      exact htop
    show update s.lowLink c.id low u ≤ s.disc x
    rcases taken_advance hds hx ht with ht | ⟨rfl, rfl⟩
    · exact le_trans (hlow u) (h.low_complete u huO w hw huw htopO x hxS ht)
    · -- The new edge leaves the innermost open node, whose segment it is.
      have heq : u = c.id := h.stack_disc_inj (h.open_mem huO) hw
        (le_antisymm huw (htopO _ (top_open hds) (le_refl _)))
      subst heq
      rw [update_self, disc_eq hd]
      exact hcomplete hxS

end Top

/-! ## Closing a node

The innermost open node `c` has no branch left. -/

variable (h : SccInv g s) (hds : s.dfsStack = c :: below)
include h hds

/-- Open nodes further out were found earlier and reach the innermost. -/
theorem below_spec (hu : u ∈ below.map DescentCursor.id) :
    s.disc u < s.disc c.id ∧ g.Reach .outbound u c.id := by
  have hdesc := h.stack_desc.sublist h.open_sub
  have hfwd := h.fwd.sublist h.open_sub
  rw [ids_cons hds, pairwise_cons] at hdesc hfwd
  exact ⟨hdesc.1 u hu, hfwd.1 u hu⟩

/-- The innermost open node is found last of all open nodes and reached
from every one of them. -/
theorem open_spec (hu : u ∈ s.ids) : s.disc u ≤ s.disc c.id ∧ g.Reach .outbound u c.id := by
  rcases mem_open hds hu with rfl | hu
  · exact ⟨le_refl _, .refl⟩
  · obtain ⟨hlt, hreach⟩ := h.below_spec hds hu
    exact ⟨le_of_lt hlt, hreach⟩

/-- A cursor without branches left has taken all its edges. -/
theorem taken_pop (hend : c.branches[c.branchIdx]? = none)
    (ht : SccState.Taken g { s with dfsStack := below } u x) : s.Taken g u x := by
  refine taken_cons hds ht fun hid => ?_
  rw [take_of_length_le (getElem?_eq_none_iff.mp hend), (h.cursors hds).1, hid]
  exact ht.2.1

variable {w : Nat}

/-- The segment of the innermost open node: every edge out of it is taken,
and one to a node on the stack is above the node's low-link. -/
theorem top_segment (hend : c.branches[c.branchIdx]? = none) (hw : w ∈ s.stack)
    (hcw : s.disc c.id ≤ s.disc w) (hstep : g.Step .outbound w x) :
    s.Visited x ∧ (x ∈ s.stack → s.lowLink c.id ≤ s.disc x) := by
  have ht : s.Taken g w x := by
    refine h.taken_pop hds hend ⟨h.stack_visited hw, hstep, ?_⟩
    intro c' hc' hid
    have hlt := (h.below_spec hds (mem_map_of_mem hc')).1
    rw [hid] at hlt
    exact absurd hlt (not_lt.mpr hcw)
  refine ⟨h.taken_visited ht, fun hx => ?_⟩
  exact h.low_complete c.id (top_open hds) w hw hcw (fun u hu _ => (h.open_spec hds hu).1) x hx ht

/-- A low-link below the node's own index leads to an open node further
out. -/
theorem low_exit (hlow : s.lowLink c.id < s.disc c.id) :
    ∃ u ∈ below.map DescentCursor.id, g.Reach .outbound c.id u := by
  obtain ⟨y, hy, hdy, hreach⟩ := h.low_sound c.id (top_open hds)
  obtain ⟨u, hu, hle, hyu⟩ := h.back y hy
  rcases mem_open hds hu with rfl | hu
  · omega
  · exact ⟨u, hu, hreach.trans hyu⟩

omit hds in
/-- Not a root: the segment falls to the parent, with its low-link. -/
theorem pop_nonroot {parent : DescentCursor} {rest : List DescentCursor}
    (hds : s.dfsStack = c :: parent :: rest) (hend : c.branches[c.branchIdx]? = none)
    (hlow : s.lowLink c.id < s.disc c.id) :
    SccInv g { s with
      dfsStack := parent :: rest
      lowLink := update s.lowLink parent.id (min (s.lowLink parent.id) (s.lowLink c.id)) } := by
  have hle := update_le (min_le_left (s.lowLink parent.id) (s.lowLink c.id))
  have hpar : parent.id ∈ (parent :: rest).map DescentCursor.id := mem_cons_self ..
  -- The parent is the last found of the nodes still open.
  have hlast : ∀ u ∈ (parent :: rest).map DescentCursor.id, s.disc u ≤ s.disc parent.id := by
    intro u hu
    have hdesc := h.stack_desc.sublist h.open_sub
    rw [ids_cons hds, pairwise_cons, map_cons, pairwise_cons] at hdesc
    rcases mem_cons.mp hu with rfl | hu
    · exact le_refl _
    · exact le_of_lt (hdesc.2.1 u hu)
  refine
    { h with
      open_sub := ?open_sub, cursor := (h.cursors hds).2
      taken_visited := fun ht => h.taken_visited (h.taken_pop hds hend ht)
      back := ?back
      low_le := ?low_le, low_sound := ?low_sound
      low_complete := ?low_complete }
  case open_sub =>
    have hsub := h.open_sub
    rw [ids_cons hds] at hsub
    exact (sublist_cons_self ..).trans hsub
  case back =>
    intro w hw
    obtain ⟨u, hu, huw, hreach⟩ := h.back w hw
    rcases mem_open hds hu with rfl | hu
    · obtain ⟨u', hu', hexit⟩ := h.low_exit hds hlow
      have hlt := (h.below_spec hds hu').1
      exact ⟨u', hu', le_trans (le_of_lt hlt) huw, hreach.trans hexit⟩
    · exact ⟨u, hu, huw, hreach⟩
  case low_le =>
    intro u hu
    exact le_trans (hle u) (h.low_le u (below_open hds hu))
  case low_sound =>
    intro u hu
    show ∃ y ∈ s.stack, s.disc y = update s.lowLink parent.id
      (min (s.lowLink parent.id) (s.lowLink c.id)) u ∧ _
    by_cases hup : u = parent.id
    · subst hup
      rw [update_self]
      rcases le_total (s.lowLink parent.id) (s.lowLink c.id) with hmin | hmin
      · rw [min_eq_left hmin]
        exact h.low_sound _ (below_open hds hu)
      · rw [min_eq_right hmin]
        obtain ⟨y, hy, hdy, hreach⟩ := h.low_sound c.id (top_open hds)
        exact ⟨y, hy, hdy, (h.below_spec hds hu).2.trans hreach⟩
    · rw [update_of_ne hup]
      exact h.low_sound u (below_open hds hu)
  case low_complete =>
    intro u hu w hw huw htop x hx ht
    have ht' := h.taken_pop hds hend ht
    rcases lt_or_ge (s.disc w) (s.disc c.id) with hwc | hcw
    · -- The segment of `u` is what it was.
      refine le_trans (hle u) (h.low_complete u (below_open hds hu) w hw huw
        (fun u' hu' hu'w => ?_) x hx ht')
      rcases mem_open hds hu' with rfl | hu'
      · omega
      · exact htop u' hu' hu'w
    · -- The segment of the closed node, now the parent's.
      have hpw : s.disc parent.id ≤ s.disc w := by
        have := (h.below_spec hds hpar).1
        omega
      have heq : u = parent.id :=
        h.stack_disc_inj (h.open_mem (below_open hds hu)) (h.open_mem (below_open hds hpar))
          (le_antisymm (hlast u hu) (htop _ hpar hpw))
      have hlowc := (h.top_segment hds hend hw hcw ht'.2.1).2 hx
      show update s.lowLink parent.id _ u ≤ s.disc x
      rw [heq, update_self]
      exact le_trans (min_le_right ..) hlowc

/-- What the unwinding loop does to a stack that holds the root. -/
structure Unwound (s t : SccState) (comp b : Bitmap) (root compIdx : Nat)
    (above under : List Nat) : Prop where
  frame : t = { s with stack := under, onStack := t.onStack, nodeToComp := t.nodeToComp }
  onStack : ∀ w, w ∈ t.onStack ↔ w ∈ s.onStack ∧ ¬ (w ∈ above ∨ w = root)
  nodeToComp : ∀ w, t.nodeToComp w = if w ∈ above ∨ w = root then some compIdx else s.nodeToComp w
  comp : ∀ w, w ∈ b ↔ w ∈ comp ∨ w ∈ above ∨ w = root

omit h hds in
theorem unwind_spec (root compIdx : Nat) (under : List Nat) :
    ∀ (above : List Nat) (s : SccState) (comp : Bitmap), ¬ root ∈ above → Unwound s
        (unwind root compIdx (above ++ root :: under) s comp).1 comp
        (unwind root compIdx (above ++ root :: under) s comp).2 root compIdx above under := by
  intro above
  induction above with
  | nil =>
    intro s comp _
    rw [nil_append, unwind, if_pos rfl]
    refine ⟨rfl, fun w => ?_, fun w => ?_, fun w => ?_⟩
    · simp
    · by_cases hw : w = root
      · subst hw; simp
      · simp [hw]
    · rw [Bitmap.mem_add]; simp [or_comm]
  | cons top above ih =>
    intro s comp hroot
    rw [mem_cons, not_or] at hroot
    rw [cons_append, unwind, if_neg (Ne.symm hroot.1)]
    have hrec := ih { s with
      stack := above ++ root :: under
      onStack := s.onStack.remove top
      nodeToComp := update s.nodeToComp top (some compIdx) }
      (comp.add top) hroot.2
    refine ⟨hrec.frame, fun w => ?_, fun w => ?_, fun w => ?_⟩
    · rw [hrec.onStack, Bitmap.mem_remove, mem_cons]
      tauto
    · rw [hrec.nodeToComp]
      by_cases hw : w = top
      · subst hw; simp
      · simp [hw]
    · rw [hrec.comp, Bitmap.mem_add, mem_cons]
      tauto

variable {above under : List Nat}

omit hds in
/-- The segment of the innermost open node, as what the stack holds from it
upwards. -/
theorem segment_iff (hst : s.stack = above ++ c.id :: under) :
    w ∈ above ∨ w = c.id ↔ w ∈ s.stack ∧ s.disc c.id ≤ s.disc w := by
  have hdesc := h.stack_desc
  rw [hst, pairwise_append, pairwise_cons] at hdesc
  rw [hst]
  constructor
  · rintro (hw | rfl)
    · exact ⟨mem_append_left _ hw, le_of_lt (hdesc.2.2 w hw _ (mem_cons_self ..))⟩
    · exact ⟨mem_append_right _ (mem_cons_self ..), le_refl _⟩
  · rintro ⟨hw, hle⟩
    rcases mem_append.mp hw with hw | hw
    · exact .inl hw
    · rcases mem_cons.mp hw with hw | hw
      · exact .inr hw
      · exact absurd (hdesc.2.1.1 w hw) (not_lt.mpr hle)

omit hds in
theorem under_iff (hst : s.stack = above ++ c.id :: under) :
    w ∈ under ↔ w ∈ s.stack ∧ ¬ (w ∈ above ∨ w = c.id) := by
  have hnd := h.stack_nodup
  rw [hst, nodup_append, nodup_cons] at hnd
  rw [hst, mem_append, mem_cons]
  constructor
  · refine fun hw => ⟨.inr (.inr hw), ?_⟩
    rintro (hmem | rfl)
    · exact hnd.2.2 w hmem w (mem_cons_of_mem _ hw) rfl
    · exact hnd.2.1.1 hw
  · tauto

omit hds in
theorem under_lt (hst : s.stack = above ++ c.id :: under) (hw : w ∈ under) :
    w ∈ s.stack ∧ s.disc w < s.disc c.id := by
  obtain ⟨hwS, hnot⟩ := (h.under_iff hst).mp hw
  rw [h.segment_iff hst] at hnot
  exact ⟨hwS, Nat.lt_of_not_le fun hle => hnot ⟨hwS, hle⟩⟩

/-- The segment's nodes reach each other, through the node that closes. -/
theorem segment_mutual (hst : s.stack = above ++ c.id :: under) (hw : w ∈ above ∨ w = c.id) :
    Mutual (g.Step .outbound) w c.id := by
  constructor
  · obtain ⟨u, hu, _, hwu⟩ := h.back w ((h.segment_iff hst).mp hw).1
    exact hwu.trans (h.open_spec hds hu).2
  · rcases hw with hw | rfl
    · have hfwd := h.fwd
      rw [hst, pairwise_append] at hfwd
      exact hfwd.2.2 w hw _ (mem_cons_self ..)
    · exact .refl

/-- No edge leaves a root's segment for the stack below it. -/
theorem segment_stays (hend : c.branches[c.branchIdx]? = none)
    (hroot : s.lowLink c.id = s.disc c.id) (hst : s.stack = above ++ c.id :: under)
    (hw : w ∈ above ∨ w = c.id) (hstep : g.Step .outbound w x) :
    (x ∈ above ∨ x = c.id) ∨ ∃ j, s.nodeToComp x = some j := by
  obtain ⟨hwS, hle⟩ := (h.segment_iff hst).mp hw
  obtain ⟨hvis, hlow⟩ := h.top_segment hds hend hwS hle hstep
  cases hx : s.nodeToComp x with
  | none =>
    have hxS := h.stack_iff.mpr ⟨hvis, hx⟩
    exact .inl ((h.segment_iff hst).mpr ⟨hxS, hroot ▸ hlow hxS⟩)
  | some j => exact .inr ⟨j, rfl⟩

omit hds in
/-- What a node in a component and a node of the segment have to do with
each other: nothing. -/
theorem segment_fresh (hst : s.stack = above ++ c.id :: under)
    (hw : w ∈ above ∨ w = c.id) : s.nodeToComp w = none :=
  (h.stack_iff.mp ((h.segment_iff hst).mp hw).1).2

/-- A root: its segment comes off the stack as a component of its own. -/
theorem settle (hend : c.branches[c.branchIdx]? = none) (hroot : s.lowLink c.id = s.disc c.id)
    (hst : s.stack = above ++ c.id :: under)
    {onStack' : Bitmap} {nodeToComp' : Nat → Option Nat} {b : Bitmap}
    (hon : ∀ w, w ∈ onStack' ↔ w ∈ s.onStack ∧ ¬ (w ∈ above ∨ w = c.id))
    (hcomp : ∀ w, nodeToComp' w =
      if w ∈ above ∨ w = c.id then some s.components.length
      else s.nodeToComp w)
    (hb : ∀ w, w ∈ b ↔ w ∈ above ∨ w = c.id) :
    SccInv g { s with
      dfsStack := below
      stack := under
      onStack := onStack'
      nodeToComp := nodeToComp'
      components := s.components ++ [b] } := by
  have hseg : ∀ {w}, w ∈ above ∨ w = c.id → nodeToComp' w = some s.components.length := by
    intro w hw
    rw [hcomp, if_pos hw]
  have hold : ∀ {w}, ¬ (w ∈ above ∨ w = c.id) → nodeToComp' w = s.nodeToComp w := by
    intro w hw
    rw [hcomp, if_neg hw]
  have hdone : ∀ {w j}, s.nodeToComp w = some j → nodeToComp' w = some j := by
    intro w j hw
    rw [hold, hw]
    intro hmem
    rw [h.segment_fresh hst hmem] at hw
    cases hw
  -- Every node of a component is of the segment or was of one before.
  have hcases : ∀ {w i}, nodeToComp' w = some i →
      (w ∈ above ∨ w = c.id) ∧ i = s.components.length ∨ s.nodeToComp w = some i := by
    intro w i hw
    by_cases hmem : w ∈ above ∨ w = c.id
    · rw [hseg hmem] at hw
      cases hw
      exact .inl ⟨hmem, rfl⟩
    · rw [hold hmem] at hw
      exact .inr hw
  have hnotMutual : ∀ {u v j}, (u ∈ above ∨ u = c.id) →
      s.nodeToComp v = some j → ¬ Mutual (g.Step .outbound) v u := by
    intro u v j hu hv hm
    obtain ⟨k, hk⟩ := h.done_closed.mutual ⟨j, hv⟩ hm
    rw [h.segment_fresh hst hu] at hk
    cases hk
  refine
    { h with
      stack_iff := ?stack_iff
      stack_desc := ?stack_desc, onStack_iff := ?onStack_iff
      open_sub := ?open_sub, cursor := (h.cursors hds).2
      taken_visited := fun ht => h.taken_visited (h.taken_pop hds hend ht)
      fwd := ?fwd, back := ?back
      low_le := fun u hu => h.low_le u (below_open hds hu)
      low_sound := ?low_sound
      low_complete := ?low_complete, comp_visited := ?comp_visited
      comp_lt := ?comp_lt, comp_iff := ?comp_iff, comp_ne := ?comp_ne
      comp_closed := ?comp_closed, comp_scc := ?comp_scc }
  case stack_iff =>
    intro w
    show w ∈ under ↔ s.Visited w ∧ nodeToComp' w = none
    rw [h.under_iff hst, h.stack_iff, hcomp]
    by_cases hmem : w ∈ above ∨ w = c.id
    · simp [hmem]
    · simp [hmem]
  case stack_desc =>
    have hdesc := h.stack_desc
    rw [hst, pairwise_append, pairwise_cons] at hdesc
    exact hdesc.2.1.2
  case onStack_iff =>
    intro w
    rw [hon, h.onStack_iff, h.under_iff hst]
  case open_sub =>
    have hsub := h.open_sub
    have hnd := h.stack_nodup
    rw [hst] at hsub hnd
    rw [ids_cons hds] at hsub
    obtain ⟨l₁, l₂, heq, hl₁, hl₂⟩ := sublist_append_iff.mp hsub
    cases l₁ with
    | nil =>
      rw [nil_append] at heq
      rw [← heq] at hl₂
      exact cons_sublist_cons.mp hl₂
    | cons a l₁ =>
      rw [cons_append] at heq
      injection heq with ha _
      have hmem := hl₁.subset (mem_cons_self ..)
      rw [← ha] at hmem
      exact absurd rfl ((nodup_append.mp hnd).2.2 _ hmem _ (mem_cons_self ..))
  case fwd =>
    have hfwd := h.fwd
    rw [hst, pairwise_append, pairwise_cons] at hfwd
    exact hfwd.2.1.2
  case back =>
    intro w hw
    obtain ⟨hwS, hlt⟩ := h.under_lt hst hw
    obtain ⟨u, hu, hle, hreach⟩ := h.back w hwS
    rcases mem_open hds hu with rfl | hu
    · exact absurd hle (not_le.mpr hlt)
    · exact ⟨u, hu, hle, hreach⟩
  case low_sound =>
    intro u hu
    obtain ⟨y, hy, hdy, hreach⟩ := h.low_sound u (below_open hds hu)
    have h1 := h.low_le u (below_open hds hu)
    have h2 := (h.below_spec hds hu).1
    refine ⟨y, (h.under_iff hst).mpr ⟨hy, fun hmem => ?_⟩, hdy, hreach⟩
    have := ((h.segment_iff hst).mp hmem).2
    omega
  case low_complete =>
    intro u hu w hw huw htop x hx ht
    obtain ⟨hwS, hlt⟩ := h.under_lt hst hw
    refine h.low_complete u (below_open hds hu) w hwS huw (fun u' hu' hle => ?_)
      x (h.under_lt hst hx).1 (h.taken_pop hds hend ht)
    rcases mem_open hds hu' with rfl | hu'
    · exact absurd hle (not_le.mpr hlt)
    · exact htop u' hu' hle
  case comp_visited =>
    intro w i hw
    rcases hcases hw with ⟨hmem, _⟩ | hw
    · exact h.stack_visited ((h.segment_iff hst).mp hmem).1
    · exact h.comp_visited hw
  case comp_lt =>
    intro w i hw
    rw [length_append, length_singleton]
    rcases hcases hw with ⟨_, rfl⟩ | hw
    · exact lt_succ_self _
    · exact lt_succ_of_lt (h.comp_lt hw)
  case comp_iff =>
    intro i b' hget w
    have hget' : (s.components ++ [b])[i]? = some b' := hget
    rcases lt_or_ge i s.components.length with hlt | hge
    · rw [getElem?_append_left hlt] at hget'
      rw [h.comp_iff hget']
      refine ⟨hdone, fun hw => (hcases hw).resolve_left fun hnew => ?_⟩
      exact Nat.ne_of_lt hlt hnew.2
    · rw [getElem?_append_right hge, getElem?_singleton] at hget'
      split at hget'
      next hi =>
        cases hget'
        obtain rfl : i = s.components.length := by omega
        rw [hb]
        refine ⟨hseg, fun hw => ((hcases hw).resolve_right fun hold => ?_).1⟩
        exact lt_irrefl _ (h.comp_lt hold)
      · cases hget'
  case comp_ne =>
    intro b' hb'
    rcases mem_append.mp hb' with hb' | hb'
    · exact h.comp_ne b' hb'
    · rw [mem_singleton.mp hb']
      exact ⟨c.id, (hb _).mpr (.inr rfl)⟩
  case comp_closed =>
    intro u x i hu hstep
    rcases hcases hu with ⟨hmem, rfl⟩ | hu
    · rcases h.segment_stays hds hend hroot hst hmem hstep with hx | ⟨j, hj⟩
      · exact ⟨_, le_refl _, hseg hx⟩
      · exact ⟨j, le_of_lt (h.comp_lt hj), hdone hj⟩
    · obtain ⟨j, hji, hj⟩ := h.comp_closed hu hstep
      exact ⟨j, hji, hdone hj⟩
  case comp_scc =>
    intro u v i j hu hv
    rcases hcases hu with ⟨hmu, rfl⟩ | hu <;> rcases hcases hv with ⟨hmv, rfl⟩ | hv
    · exact iff_of_true rfl
        ((h.segment_mutual hds hst hmu).trans (h.segment_mutual hds hst hmv).symm)
    · exact iff_of_false (ne_of_gt (h.comp_lt hv)) fun hm => hnotMutual hmu hv hm.symm
    · exact iff_of_false (Nat.ne_of_lt (h.comp_lt hu)) (hnotMutual hmv hu)
    · exact h.comp_scc hu hv

omit h hds in
theorem close_root (hroot : s.lowLink v = s.disc v)
    (hst : s.stack = above ++ v :: under) (hv : ¬ v ∈ above) : ∃ onStack' nodeToComp' b,
      s.close v = { s with
        stack := under
        onStack := onStack'
        nodeToComp := nodeToComp'
        components := s.components ++ [b] } ∧
      (∀ w, w ∈ onStack' ↔ w ∈ s.onStack ∧ ¬ (w ∈ above ∨ w = v)) ∧
      (∀ w, nodeToComp' w =
        if w ∈ above ∨ w = v then some s.components.length
        else s.nodeToComp w) ∧
      ∀ w, w ∈ b ↔ w ∈ above ∨ w = v := by
  have hun := unwind_spec v s.components.length under above s Bitmap.new hv
  rw [← hst] at hun
  rw [close, if_pos hroot]
  generalize unwind v s.components.length s.stack s Bitmap.new = r at hun
  refine ⟨r.1.onStack, r.1.nodeToComp, r.2, ?_, hun.onStack, hun.nodeToComp, fun w => ?_⟩
  · exact congrArg (fun t : SccState => { t with components := t.components ++ [r.2] }) hun.frame
  · rw [hun.comp]
    simp

theorem pop_root (hend : c.branches[c.branchIdx]? = none) (hroot : s.lowLink c.id = s.disc c.id) :
    SccInv g (close { s with dfsStack := below } c.id) := by
  obtain ⟨above, under, hst⟩ := append_of_mem (h.open_mem (top_open hds))
  have hca : ¬ c.id ∈ above := by
    have hnd := h.stack_nodup
    rw [hst] at hnd
    intro hmem
    exact (nodup_append.mp hnd).2.2 _ hmem _ (mem_cons_self ..) rfl
  obtain ⟨onStack', nodeToComp', b, hclose, hon, hcomp, hb⟩ :=
    close_root (s := { s with dfsStack := below }) hroot hst hca
  rw [hclose]
  exact h.settle hds hend hroot hst hon hcomp hb

/-! ## Rounds -/

/-- The rounds of the loop, as the four things one can do. -/
inductive Round (g : DirectedGraph) (s : SccState) (c : DescentCursor)
    (below : List DescentCursor) : SccState → Prop where
  | entered {x₀ : Nat} (hx : c.branches[c.branchIdx]? = some x₀) (hd : s.discIdx x₀ = none) :
      Round g s c below (SccState.enter g { s with dfsStack :=
        { c with branchIdx := c.branchIdx + 1 } :: below } x₀)
  | advanced {x₀ d low : Nat} (hx : c.branches[c.branchIdx]? = some x₀)
      (hd : s.discIdx x₀ = some d) (hle : low ≤ s.lowLink c.id)
      (hsound : low = s.lowLink c.id ∨ x₀ ∈ s.stack ∧ low = d)
      (hcomplete : x₀ ∈ s.stack → low ≤ d) : Round g s c below { s with
        dfsStack := { c with branchIdx := c.branchIdx + 1 } :: below
        lowLink := update s.lowLink c.id low }
  | fell {parent : DescentCursor} {rest : List DescentCursor}
      (hend : c.branches[c.branchIdx]? = none) (hbelow : below = parent :: rest)
      (hlow : s.lowLink c.id < s.disc c.id) : Round g s c below { s with
        dfsStack := below
        lowLink := update s.lowLink parent.id (min (s.lowLink parent.id) (s.lowLink c.id)) }
  | closed (hend : c.branches[c.branchIdx]? = none) (hroot : s.lowLink c.id = s.disc c.id) :
      Round g s c below (close { s with dfsStack := below } c.id)

theorem round_some {x₀ : Nat}
    (hx : c.branches[c.branchIdx]? = some x₀) : Round g s c below (s.step g) := by
  rw [SccState.step, hds]
  simp only [hx]
  cases hd : s.discIdx x₀ with
  | none => exact .entered hx hd
  | some d =>
    simp only [Bitmap.contains_eq]
    split
    next hon =>
      have hmem := h.onStack_iff.mp hon
      rw [lower_eq]
      refine .advanced hx hd (min_le_left ..) ?_ fun _ => min_le_right ..
      rcases le_total (s.lowLink c.id) d with hle | hle
      · exact .inl (min_eq_left hle)
      · exact .inr ⟨hmem, min_eq_right hle⟩
    next hoff =>
      have hround : Round g s c below { s with
          dfsStack := { c with branchIdx := c.branchIdx + 1 } :: below
          lowLink := update s.lowLink c.id (s.lowLink c.id) } :=
        .advanced hx hd (le_refl _) (.inl rfl)
          fun hmem => absurd (h.onStack_iff.mpr hmem) hoff
      rwa [update_eq_self] at hround

theorem round_none (hend : c.branches[c.branchIdx]? = none) : Round g s c below (s.step g) := by
  rw [SccState.step, hds]
  simp only [hend]
  have hle := h.low_le c.id (top_open hds)
  rcases lt_or_eq_of_le hle with hlow | hroot
  · obtain ⟨u, hu, _⟩ := h.low_exit hds hlow
    cases below with
    | nil => cases hu
    | cons parent rest =>
      have hne : c.id ≠ parent.id := by
        intro heq
        have := (h.below_spec hds (mem_cons_self ..)).1
        rw [heq] at this
        exact lt_irrefl _ this
      simp only [lower_eq]
      rw [close, if_neg]
      · exact .fell hend rfl hlow
      · show ¬ update s.lowLink parent.id _ c.id = s.disc c.id
        rw [update_of_ne hne]
        exact Nat.ne_of_lt hlow
  · cases below with
    | nil => exact .closed hend hroot
    | cons parent rest =>
      -- The parent's low-link is below the root's already.
      have hstay : lower { s with dfsStack := parent :: rest } parent.id (s.lowLink c.id) =
            { s with dfsStack := parent :: rest } := by
        refine if_neg (not_lt.mpr ?_)
        have hpar : parent.id ∈ (parent :: rest).map DescentCursor.id := mem_cons_self ..
        have h1 := h.low_le _ (below_open hds hpar)
        have h2 := (h.below_spec hds hpar).1
        show s.lowLink parent.id ≤ s.lowLink c.id
        omega
      simp only [hstay]
      exact .closed hend hroot

/-- Every round is one of the four. -/
theorem round : Round g s c below (s.step g) := by
  cases hx : c.branches[c.branchIdx]? with
  | none => exact h.round_none hds hx
  | some x₀ => exact h.round_some hds hx

theorem round_inv {t : SccState} (hr : Round g s c below t) : SccInv g t := by
  cases hr with
  | @entered x₀ hx hd =>
    have hstep := h.branch_step hds hx
    have hcur := h.cursors hds
    exact h.enter hd hstep.mem.2 (ids_cons hds).symm (forall_mem_cons.mpr ⟨hcur.1, hcur.2⟩)
      (fun ht => (taken_advance hds hx ht).imp_right And.right)
      fun u hu => (h.open_spec hds hu).2.tail hstep
  | advanced hx hd hle hsound hcomplete => exact h.advance hds hx hd hle hsound hcomplete
  | fell hend hbelow hlow =>
    subst hbelow
    exact h.pop_nonroot hds hend hlow
  | closed hend hroot => exact h.pop_root hds hend hroot

end SccInv

/-! ## The loop ends

A round moves a cursor by one or drops one that has no branch left, and a
node's cursor is made once. -/

namespace SccState

def cost (g : DirectedGraph) (v : Nat) : Nat := (g.adjacentNodes v .outbound).length + 1

/-- The rounds the nodes not yet visited will take. -/
def unseen (g : DirectedGraph) (s : SccState) : Nat :=
  (g.eachNode.map fun v => if (s.discIdx v).isNone then cost g v else 0).sum

/-- The rounds the cursors on a descent stack still take. -/
def pending (ds : List DescentCursor) : Nat :=
  (ds.map fun c => c.branches.length - c.branchIdx + 1).sum

variable {s : SccState}

theorem unseen_le_workload : s.unseen g ≤ g.workload := by
  refine sum_le_sum fun v _ => ?_
  split
  · exact le_refl _
  · exact zero_le _

variable {t : SccState}

section

variable (ds : List DescentCursor) (hv : s.discIdx v = none) (hnode : v ∈ g.eachNode)
include hv hnode

theorem unseen_enter :
    (enter g { s with dfsStack := ds } v).unseen g + cost g v ≤ s.unseen g := by
  refine sum_map_add_le (fun w _ => ?_) hnode ?_
  · by_cases hw : w = v
    · subst hw
      rw [SccInv.enter_discIdx_self]
      exact zero_le _
    · rw [SccInv.enter_discIdx_of_ne hw]
  · rw [SccInv.enter_discIdx_self, hv]
    simp

theorem work_enter :
    (enter g { s with dfsStack := ds } v).unseen g +
      pending (enter g { s with dfsStack := ds } v).dfsStack ≤ s.unseen g + pending ds := by
  have hle := unseen_enter ds hv hnode
  show (enter g { s with dfsStack := ds } v).unseen g +
    pending (⟨v, g.adjacentNodes v .outbound, 0⟩ :: ds) ≤ _
  have hcost : pending (⟨v, g.adjacentNodes v .outbound, 0⟩ :: ds) = cost g v + pending ds := by
    simp [pending, cost]
  omega

end

theorem close_frame (s : SccState) (v : Nat) :
    (s.close v).discIdx = s.discIdx ∧ (s.close v).dfsStack = s.dfsStack := by
  have hun : ∀ (root compIdx : Nat) (l : List Nat) (s : SccState) (comp : Bitmap),
      (unwind root compIdx l s comp).1.discIdx = s.discIdx ∧
        (unwind root compIdx l s comp).1.dfsStack = s.dfsStack := by
    intro root compIdx l
    induction l with
    | nil => exact fun _ _ => ⟨rfl, rfl⟩
    | cons top rest ih =>
      intro s comp
      rw [unwind]
      split
      · exact ⟨rfl, rfl⟩
      · exact ih _ _
  rw [close]
  split
  · exact hun ..
  · exact ⟨rfl, rfl⟩

/-- A round takes one off the work left. -/
theorem round_work (h : SccInv g s)
    (hds : s.dfsStack = c :: below) (hr : SccInv.Round g s c below t) :
    t.unseen g + pending t.dfsStack + 1 ≤ s.unseen g + pending s.dfsStack := by
  have hcons : pending s.dfsStack = c.branches.length - c.branchIdx + 1 + pending below := by
    rw [hds]
    rfl
  have hadv : ∀ {x₀}, c.branches[c.branchIdx]? = some x₀ →
      pending ({ c with branchIdx := c.branchIdx + 1 } :: below) + 1 = pending s.dfsStack := by
    intro x₀ hx
    obtain ⟨hlt, _⟩ := List.getElem?_eq_some_iff.mp hx
    show c.branches.length - (c.branchIdx + 1) + 1 + pending below + 1 = _
    omega
  cases hr with
  | entered hx hd =>
    have hle := work_enter ({ c with branchIdx := c.branchIdx + 1 } :: below) hd
      (h.branch_step hds hx).mem.2
    have := hadv hx
    omega
  | advanced hx hd hle hsound hcomplete =>
    have := hadv hx
    show s.unseen g + pending (_ :: below) + 1 ≤ _
    omega
  | fell hend hbelow hlow =>
    show s.unseen g + pending below + 1 ≤ _
    omega
  | closed hend hroot =>
    obtain ⟨hdisc, hstack⟩ := close_frame { s with dfsStack := below } c.id
    rw [hstack, unseen, hdisc]
    show s.unseen g + pending below + 1 ≤ _
    omega

theorem round_visited (hr : SccInv.Round g s c below t) (hv : s.Visited v) : t.Visited v := by
  cases hr with
  | entered hx hd => exact (SccInv.enter_visited).mpr (.inr hv)
  | advanced hx hd hle hsound hcomplete | fell hend hbelow hlow => exact hv
  | closed hend hroot =>
    obtain ⟨hdisc, _⟩ := close_frame { s with dfsStack := below } c.id
    rw [Visited, hdisc]
    exact hv

/-- With fuel for the work left the loop runs to its end. -/
theorem descend_spec {fuel : Nat} (h : SccInv g s)
    (hfuel : s.unseen g + pending s.dfsStack ≤ fuel) :
    SccInv g (descend g fuel s) ∧ (descend g fuel s).dfsStack = [] ∧
      ∀ v, s.Visited v → (descend g fuel s).Visited v := by
  induction fuel generalizing s with
  | zero =>
    cases hds : s.dfsStack with
    | nil => exact ⟨h, hds, fun _ hv => hv⟩
    | cons c below =>
      have := round_work h hds (h.round hds)
      omega
  | succ fuel ih =>
    rw [descend]
    cases hds : s.dfsStack with
    | nil => exact ⟨h, hds, fun _ hv => hv⟩
    | cons c below =>
      have hr := h.round hds
      have hwork := round_work h hds hr
      obtain ⟨hinv, hend, hvis⟩ := ih (h.round_inv hds hr) (by omega)
      exact ⟨hinv, hend, fun v hv => hvis v (round_visited hr hv)⟩

theorem visit_spec {start : Nat} (h : SccInv g s) (hquiet : s.dfsStack = [])
    (hnode : start ∈ g.eachNode) :
    SccInv g (visit g s start) ∧ (visit g s start).dfsStack = [] ∧ (visit g s start).Visited start ∧
      ∀ v, s.Visited v → (visit g s start).Visited v := by
  rw [visit]
  cases hd : s.discIdx start with
  | some d => exact ⟨h, hquiet, ⟨d, hd⟩, fun _ hv => hv⟩
  | none =>
    have hids : s.ids = [] := by rw [ids, hquiet, map_nil]
    have henter : SccInv g (s.enter g start) :=
      h.enter hd hnode rfl h.cursor .inl (by rw [hids]; intro u hu; cases hu)
    have hwork : (s.enter g start).unseen g +
        pending (s.enter g start).dfsStack ≤ s.unseen g + pending s.dfsStack :=
      work_enter s.dfsStack hd hnode
    have hnone : pending s.dfsStack = 0 := by rw [hquiet]; rfl
    have hload := unseen_le_workload (g := g) (s := s)
    obtain ⟨hinv, hend, hvis⟩ := descend_spec henter (show _ ≤ g.workload by omega)
    exact ⟨hinv, hend, hvis start (SccInv.enter_visited.mpr (.inl rfl)),
      fun v hv => hvis v (SccInv.enter_visited.mpr (.inr hv))⟩

theorem foldl_visit_spec {l : List Nat} (h : SccInv g s)
    (hquiet : s.dfsStack = []) (hl : ∀ v ∈ l, v ∈ g.eachNode) :
    SccInv g (l.foldl (visit g) s) ∧ (l.foldl (visit g) s).dfsStack = [] ∧
      (∀ v ∈ l, (l.foldl (visit g) s).Visited v) ∧
      ∀ v, s.Visited v → (l.foldl (visit g) s).Visited v := by
  induction l generalizing s with
  | nil => exact ⟨h, hquiet, nofun, fun _ hv => hv⟩
  | cons start l ih =>
    obtain ⟨hinv, hend, hstart, hvis⟩ := visit_spec h hquiet (hl start (mem_cons_self ..))
    obtain ⟨hinv', hend', hall, hvis'⟩ := ih hinv hend fun v hv => hl v (mem_cons_of_mem _ hv)
    refine ⟨hinv', hend', fun v hv => ?_, fun v hv => hvis' v (hvis v hv)⟩
    rcases mem_cons.mp hv with rfl | hv
    · exact hvis' v hstart
    · exact hall v hv

end SccState

/-! ## The result -/

theorem sccState_inv : SccInv g (sccState g) :=
  (foldl_visit_spec SccInv.initial rfl fun _ hv => hv).1

/-- Every node ends in a component: with no node open the Tarjan stack is
empty, so no visited node is without one. -/
theorem exists_component (hv : v ∈ g.eachNode) : ∃ i, (sccState g).nodeToComp v = some i := by
  obtain ⟨hinv, hquiet, hall, _⟩ := foldl_visit_spec (g := g) SccInv.initial rfl fun _ hv => hv
  have hinv : SccInv g (sccState g) := hinv
  have hempty : ¬ v ∈ (sccState g).stack := by
    intro hmem
    obtain ⟨u, hu, _⟩ := hinv.back v hmem
    have hids : (sccState g).ids = [] := by
      rw [SccState.ids, sccState, hquiet, map_nil]
    rw [hids] at hu
    cases hu
  cases hc : (sccState g).nodeToComp v with
  | some i => exact ⟨i, rfl⟩
  | none => exact absurd (hinv.stack_iff.mpr ⟨hall v hv, hc⟩) hempty

theorem component_node {i : Nat} (hv : (sccState g).nodeToComp v = some i) :
    v ∈ g.eachNode ∧ i < (sccState g).components.length :=
  ⟨sccState_inv.visited_mem (sccState_inv.comp_visited hv), sccState_inv.comp_lt hv⟩

theorem mem_component {i : Nat} {b : Bitmap} (hb : (sccState g).components[i]? = some b) :
    v ∈ b ↔ (sccState g).nodeToComp v = some i := sccState_inv.comp_iff hb v

/-- The components are the classes of mutual reachability, and the graph's
edges lead from later components to earlier ones. -/
theorem stronglyConnectedComponents_correct (g : DirectedGraph) :
    let components := (stronglyConnectedComponents g).1
    let nodeToComponent := (stronglyConnectedComponents g).2
    (∀ v ∈ g.eachNode, ∃! i : Nat, ∃ b : Bitmap, components[i]? = some b ∧ v ∈ b) ∧
    (∀ b ∈ components, (∃ v, v ∈ b) ∧ ∀ v ∈ b, v ∈ g.eachNode) ∧
    (∀ v i, nodeToComponent v = some i ↔ ∃ b : Bitmap, components[i]? = some b ∧ v ∈ b) ∧
    (∀ u ∈ g.eachNode, ∀ v ∈ g.eachNode,
      (nodeToComponent u = nodeToComponent v ↔ g.Reach .outbound u v ∧ g.Reach .outbound v u)) ∧
    ∀ u v i j, g.Step .outbound u v → nodeToComponent u = some i →
      nodeToComponent v = some j → i ≠ j → j < i := by
  intro components nodeToComponent
  have hiff : ∀ v i, nodeToComponent v = some i ↔
      ∃ b : Bitmap, components[i]? = some b ∧ v ∈ b := by
    intro v i
    constructor
    · intro hv
      have hlt := (component_node hv).2
      have hget := getElem?_eq_getElem hlt
      exact ⟨_, hget, (mem_component hget).mpr hv⟩
    · rintro ⟨b, hb, hv⟩
      exact (mem_component hb).mp hv
  refine ⟨fun v hv => ?_, fun b hb => ?_, hiff, fun u hu v hv => ?_, ?_⟩
  · obtain ⟨i, hi⟩ := exists_component hv
    refine ⟨i, (hiff v i).mp hi, fun j hj => ?_⟩
    have hj : (sccState g).nodeToComp v = some j := (hiff v j).mpr hj
    rw [hi] at hj
    exact (some.inj hj).symm
  · refine ⟨sccState_inv.comp_ne b hb, fun v hv => ?_⟩
    obtain ⟨i, hi⟩ := getElem?_of_mem hb
    exact (component_node ((mem_component hi).mp hv)).1
  · obtain ⟨i, hi⟩ := exists_component hu
    obtain ⟨j, hj⟩ := exists_component hv
    show (sccState g).nodeToComp u = (sccState g).nodeToComp v ↔ _
    rw [hi, hj, some_inj]
    exact sccState_inv.comp_scc hi hj
  · intro u v i j hstep hu hv hne
    obtain ⟨k, hki, hk⟩ := sccState_inv.comp_closed hu hstep
    have hkj : k = j := some.inj (hk.symm.trans hv)
    omega

end Dawgs.Ref

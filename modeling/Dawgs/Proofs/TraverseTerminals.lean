import Dawgs.Lib.Arrivals
import Dawgs.Ref.OpsTraversal

/-!
# What AcyclicTraverseTerminals returns

A segment puts nothing on the stack in two cases, and the loop cannot tell
them apart: its node has no relationship to follow, or the expansion filter
refused it because the node was expanded before. Both make it a terminal.
So the traversal is a search that reports where it stops: a turn of the
loop looks at one arrival, and the terminals are the report.

A node is returned if some relationship leads to it and there is none to
follow from it. That is the intention. But a node is returned as well if
two relationships lead to it from nodes that can be reached, or one leads
back to the root, no matter what can be followed from it. The result is the
set of terminals exactly if none of those nodes has a relationship to
follow.

The statement is about plans whose descent filter looks at the last
relationship of a segment, so that there is a step relation on nodes at
all, and without a path filter, a skip or a limit, which drop terminals on
purpose. A terminal is at least one step away from the root.
-/

namespace Dawgs.Ref.Ops

open Lib Relation Nat Multiset

variable {R : Type} (store : RelationshipStore R) (plan : TraversalPlan R)

/-- The node a relationship is followed from. -/
def nearNode (r : R) : Nat :=
  match plan.direction with
  | .inbound => store.endID r
  | _ => store.startID r

/-- The node a relationship leads to. -/
def farNode (r : R) : Nat :=
  match plan.direction with
  | .inbound => store.startID r
  | _ => store.endID r

variable (keep : R → Bool)

/-- The descent filter of a plan decides by the last relationship. -/
def DescendsBy : Prop :=
  match plan.descentFilter with
  | none => ∀ r, keep r = true
  | some filter => ∀ trunk node r, filter (.descend trunk node r) = keep r

/-- The relationships that are followed. -/
def followed : List R := store.all.filter fun r => branchFilter plan r && keep r

/-- One expansion step. -/
def Expands : Nat → Nat → Prop :=
  EdgeStep (followed store plan keep) (nearNode store plan) (farNode store plan)

/-- A node that expansion steps lead to, with none of its own. -/
def IsTerminal (m : Nat) : Prop :=
  TransGen (Expands store plan keep) plan.root m ∧ ¬ ∃ n, Expands store plan keep m n

/-- A relationship that is followed, into a node. -/
def Enters (r : R) (m : Nat) : Prop :=
  r ∈ followed store plan keep ∧
    ReflTransGen (Expands store plan keep) plan.root (nearNode store plan r) ∧
    farNode store plan r = m

/-- The traversal comes to a node that it has expanded. -/
def Reentered (m : Nat) : Prop :=
  (m = plan.root ∧ ∃ r, Enters store plan keep r m) ∨
    ∃ r r', r ≠ r' ∧ Enters store plan keep r m ∧ Enters store plan keep r' m

/-! ## One turn of the loop -/

/-- The criteria of the query for a node. -/
def criteriaFor (node : Nat) (r : R) : Bool := branchFilter plan r && nearNode store plan r == node

/-- The segments that a segment puts on the stack, first one first. -/
def branches (store : RelationshipStore R) (rows : (R → Bool) → List R)
    (plan : TraversalPlan R) (keep : R → Bool) (segment : PathSegment R) : List (PathSegment R) :=
  ((rows (criteriaFor store plan segment.node)).filter keep).map fun r =>
    segment.descend (farNode store plan r) r

/-- Where the expansion steps lead from a node. -/
abbrev nextNodes (m : Nat) : Multiset Nat :=
  arrivalsFrom (followed store plan keep) (nearNode store plan) (farNode store plan) m

/-- How often expansion steps lead to a node from a set of nodes. -/
abbrev entriesFrom (visited : Finset Nat) (m : Nat) : Nat :=
  entries (followed store plan keep) (nearNode store plan) (farNode store plan) visited m

/-- A traversal as a search of which everything is counted. -/
abbrev CountedIn : Arrivals Nat → Prop :=
  Counted (followed store plan keep) (nearNode store plan) (farNode store plan) plan.root

/-- The search once the root is expanded. -/
abbrev afterFirst : Arrivals Nat :=
  .start (followed store plan keep) (nearNode store plan) (farNode store plan) plan.root

/-- The turns that a search needs at most. -/
abbrev turnsLeft (s : Arrivals Nat) : Nat := s.left (followed store plan keep) (nearNode store plan)

variable {store : RelationshipStore R} {plan : TraversalPlan R}

section

variable {rows : (R → Bool) → List R} {keep : R → Bool} {stack : List (PathSegment R)}
  {segment : PathSegment R}

section

variable {σ : Type} {hooks : Hooks σ R} {c : Context σ} {tracker : LimitSkipTracker}

/-- What the descent filter of a plan says, if it goes by relationships. -/
theorem passes_descend (hkeep : DescendsBy plan keep) (segment : PathSegment R)
    (node : Nat) (r : R) (c : Context σ) :
    passes (plan.descentFilter.map Filter.plain) (segment.descend node r) c = (keep r, c) := by
  unfold DescendsBy at hkeep
  unfold passes
  cases hf : plan.descentFilter with
  | none =>
    rw [hf] at hkeep
    simp [hkeep r]
  | some filter =>
    rw [hf] at hkeep
    simp [Filter.plain, hkeep]

/-- The stack gets what the descent filter lets pass, and the filter may
change the context with each of those. -/
theorem descendInto_eq {far : R → Nat} {collect : Context σ → R → Context σ}
    (hpass : ∀ r c, passes hooks.descentFilter (segment.descend (far r) r) c =
      (keep r, if keep r then collect c r else c))
    (rs : List R) (stack : List (PathSegment R)) (c : Context σ) :
    descendInto hooks (rs.map fun r => segment.descend (far r) r) stack c =
      (((rs.filter keep).map fun r => segment.descend (far r) r).reverse ++
        stack, (rs.filter keep).foldl collect c) := by
  induction rs generalizing stack c with
  | nil => rfl
  | cons r rs ih =>
    rw [List.map_cons, descendInto, hpass r]
    simp only
    rw [ih]
    cases hr : keep r <;> simp [hr]

/-- What a segment leads to, unless its expansion is refused. -/
theorem nextTraversal_eq (hdir : plan.direction ≠ .both) {expands : Bool} {c' : Context σ}
    (h : passes hooks.expansionFilter segment c = (expands, c')) :
    nextTraversal store rows plan hooks segment c =
      .ok ((if expands then rows (criteriaFor store plan segment.node) else []).map
        fun r => segment.descend (farNode store plan r) r, c') := by
  unfold nextTraversal criteriaFor nearNode farNode
  rw [h]
  cases expands <;> cases hd : plan.direction with
  | both => first | rfl | exact absurd hd hdir
  | _ => rfl

theorem traverseNext_of_next {descendents : List (PathSegment R)} {c' : Context σ}
    (h : nextTraversal store rows plan hooks segment c = .ok (descendents, c')) :
    traverseNext store rows plan hooks segment stack c =
      let r := descendInto hooks descendents stack c'
      if stack.length = r.1.length then .ok (r.1, visitTerminal hooks segment r.2)
      else .ok r := by
  rw [traverseNext, h]
  rfl

/-- Neither skip nor limit. -/
structure Unlimited (tracker : LimitSkipTracker) : Prop where
  limit : tracker.limit ≤ 0
  skip : tracker.skip ≤ 0

theorem Unlimited.atLimit (h : Unlimited tracker) : tracker.atLimit = false := by
  have := h.limit
  simp only [LimitSkipTracker.atLimit, decide_eq_false_iff_not]
  omega

/-- Without skip and limit, everything is collected. -/
theorem Unlimited.shouldCollect (h : Unlimited tracker) :
    tracker.shouldCollect = (true, { tracker with seen := tracker.seen + 1 }) := by
  have hskip := h.skip
  rw [LimitSkipTracker.shouldCollect, if_neg (by omega), h.atLimit]
  rfl

/-- What every turn keeps holds in the end, if turns bring the end nearer. -/
theorem traverseLoop_ends (Inv : List (PathSegment R) → Context σ → Prop)
    (left : List (PathSegment R) → Context σ → Nat)
    (hturn : ∀ {next stack c}, Inv (next :: stack) c → ∃ stack' c',
      traverseNext store rows plan hooks next stack c = .ok (stack', c') ∧
        Unlimited c'.tracker ∧ Inv stack' c' ∧ left stack' c' < left (next :: stack) c)
    {fuel : Nat} (h : Inv stack c) (hfuel : left stack c ≤ fuel) :
    ∃ c', traverseLoop store rows plan hooks fuel stack c = some (.ok c') ∧ Inv [] c' := by
  induction fuel generalizing stack c with
  | zero =>
    cases stack with
    | nil => exact ⟨c, by rw [traverseLoop], h⟩
    | cons next stack =>
      obtain ⟨_, _, _, _, _, hlt⟩ := hturn h
      omega
  | succ fuel ih =>
    cases stack with
    | nil => exact ⟨c, by rw [traverseLoop], h⟩
    | cons next stack =>
      obtain ⟨stack', c', hnext, hun, h', hlt⟩ := hturn h
      obtain ⟨d, hd, hinv⟩ := ih h' (by omega)
      refine ⟨d, ?_, hinv⟩
      rw [traverseLoop, hnext]
      simp only [hun.atLimit]
      exact hd

end

variable {c : Context TerminalsEnv}

/-- A segment at a node that was expanded before. -/
theorem traverseNext_again (hpath : plan.pathFilter = none)
    (hdepth : 0 < segment.depth) (h : segment.node ∈ c.env.visitedBitmap) :
    traverseNext store rows plan (terminalHooks plan) segment stack c =
      .ok (stack, collectTerminal segment c) := by
  have hnext : nextTraversal store rows plan (terminalHooks plan) segment c = .ok ([], c) := by
    simp [nextTraversal, terminalHooks, passes, expandOnce, h]
  rw [traverseNext_of_next hnext]
  simp [descendInto, visitTerminal, terminalHooks, hpath, passes, hdepth]

/-- A segment at a new node. -/
theorem traverseNext_first (hdir : plan.direction ≠ .both) (hpath : plan.pathFilter = none)
    (hkeep : DescendsBy plan keep) (h : segment.node ∉ c.env.visitedBitmap) :
    traverseNext store rows plan (terminalHooks plan) segment stack c =
      .ok ((branches store rows plan keep segment).reverse ++ stack,
        if branches store rows plan keep segment = [] ∧ 0 < segment.depth
        then collectTerminal segment (expandOnce segment c).2
        else (expandOnce segment c).2) := by
  have hexpands : passes (terminalHooks plan).expansionFilter segment c =
      (true, (expandOnce segment c).2) := by
    simp [terminalHooks, passes, expandOnce, h]
  have hnext : nextTraversal store rows plan (terminalHooks plan) segment c = _ :=
    nextTraversal_eq hdir hexpands
  rw [if_pos rfl] at hnext
  have hpass : ∀ r c, passes (terminalHooks plan).descentFilter
      (segment.descend (farNode store plan r) r) c = (keep r, if keep r then c else c) := by
    intro r c
    rw [ite_self]
    exact passes_descend hkeep segment _ r c
  rw [traverseNext_of_next hnext, descendInto_eq hpass, List.foldl_fixed]
  by_cases hnil : branches store rows plan keep segment = []
  · have hnil' := hnil
    unfold branches at hnil'
    by_cases hdepth : 0 < segment.depth
    · simp [hnil, hnil', visitTerminal, terminalHooks, hpath, passes]
    · simp [hnil, hnil', visitTerminal, terminalHooks, hdepth]
  · have hlen : stack.length ≠
        ((branches store rows plan keep segment).reverse ++ stack).length := by
      have := List.length_pos_iff.mpr hnil
      rw [List.length_append, List.length_reverse]
      omega
    unfold branches at hlen hnil ⊢
    simp only [hlen, hnil, if_false, false_and]

/-- Without skip and limit, every terminal is collected. -/
theorem collectTerminal_eq (h : Unlimited c.tracker) (segment : PathSegment R) :
    Unlimited (collectTerminal segment c).tracker ∧ (collectTerminal segment c).env =
        ⟨insert segment.node c.env.terminals, c.env.visitedBitmap⟩ := by
  unfold collectTerminal
  rw [h.shouldCollect]
  exact ⟨⟨h.limit, h.skip⟩, rfl⟩

/-- The traversal as a search. -/
def view (stack : List (PathSegment R)) (c : Context TerminalsEnv) : Arrivals Nat :=
  ⟨(stack.map PathSegment.node : List Nat), c.env.visitedBitmap, c.env.terminals⟩

theorem view_cons (next : PathSegment R) (stack : List (PathSegment R)) (c : Context TerminalsEnv) :
    view (next :: stack) c = ⟨next.node ::ₘ (stack.map PathSegment.node : List Nat),
        c.env.visitedBitmap, c.env.terminals⟩ := rfl

section

variable (hrows : ∀ criteria, (rows criteria).Perm (store.all.filter criteria))
include hrows

/-- The branches of a segment are the arrivals from its node. -/
theorem branches_node (segment : PathSegment R) :
    ((branches store rows plan keep segment).map PathSegment.node : Multiset Nat) =
      nextNodes store plan keep segment.node := by
  rw [nextNodes, arrivalsFrom, branches, List.map_map, coe_eq_coe]
  refine List.Perm.map _ (((hrows _).filter keep).trans (List.Perm.of_eq ?_))
  rw [followed, List.filter_filter, List.filter_filter]
  refine List.filter_congr fun r _ => ?_
  unfold criteriaFor
  cases branchFilter plan r <;> cases keep r <;> simp [beq_eq_decide]

/-- What is on the stack once they are put there. -/
theorem branches_stack (segment : PathSegment R) (stack : List (PathSegment R)) :
    (((branches store rows plan keep segment).reverse ++ stack).map
        PathSegment.node : Multiset Nat) =
      (stack.map PathSegment.node : Multiset Nat) + nextNodes store plan keep segment.node := by
  rw [← branches_node hrows, List.map_append, List.map_reverse,
    ← coe_add, add_comm, coe_reverse]

end

theorem depth_of_mem_branches {s : PathSegment R}
    (h : s ∈ branches store rows plan keep segment) : 0 < s.depth := by
  obtain ⟨r, -, rfl⟩ := List.mem_map.mp h
  exact succ_pos _

/-- The context after the first turn. -/
def afterRoot (plan : TraversalPlan R) : Context TerminalsEnv :=
  ⟨⟨plan.limit, 0, plan.skip⟩, ⟨∅, {plan.root}⟩⟩

/-- The root is expanded in the first turn, and is no terminal then. -/
theorem traverseNext_root (hdir : plan.direction ≠ .both)
    (hpath : plan.pathFilter = none) (hkeep : DescendsBy plan keep) :
    traverseNext store rows plan (terminalHooks plan) (.root plan.root) []
        ⟨⟨plan.limit, 0, plan.skip⟩, ⟨∅, ∅⟩⟩ =
      .ok ((branches store rows plan keep (.root plan.root)).reverse, afterRoot plan) := by
  rw [traverseNext_first hdir hpath hkeep (Finset.notMem_empty _),
    if_neg fun h => absurd h.2 (lt_irrefl 0), List.append_nil]
  rfl

/-! ## The whole run -/

variable (hrows : ∀ criteria, (rows criteria).Perm (store.all.filter criteria))
  (hdir : plan.direction ≠ .both) (hpath : plan.pathFilter = none) (hkeep : DescendsBy plan keep)
include hrows hdir hpath hkeep

/-- A turn of the loop looks at one arrival. -/
theorem traverseNext_arrives {next : PathSegment R} (hun : Unlimited c.tracker)
    (hnext : 0 < next.depth) (hdepth : ∀ s ∈ stack, 0 < s.depth) : ∃ stack' c',
      traverseNext store rows plan (terminalHooks plan) next stack c = .ok (stack', c') ∧
      Unlimited c'.tracker ∧ (∀ s ∈ stack', 0 < s.depth) ∧
      Arrives (followed store plan keep) (nearNode store plan)
        (farNode store plan) (view (next :: stack) c) (view stack' c') := by
  by_cases hv : next.node ∈ c.env.visitedBitmap
  · obtain ⟨htracker, henv⟩ := collectTerminal_eq hun next
    refine ⟨stack, collectTerminal next c, traverseNext_again hpath hnext hv, htracker, hdepth, ?_⟩
    rw [view_cons, view, henv]
    exact .again hv
  · have hun' : Unlimited (expandOnce next c).2.tracker := hun
    refine ⟨_, _, traverseNext_first hdir hpath hkeep hv, ?_, ?_, ?_⟩
    · split
      · exact (collectTerminal_eq hun' next).1
      · exact hun'
    · intro s hs
      obtain hs | hs := List.mem_append.mp hs
      · exact depth_of_mem_branches (List.mem_reverse.mp hs)
      · exact hdepth s hs
    · have hnil : branches store rows plan keep next = [] ↔
          nextNodes store plan keep next.node = 0 := by
        rw [← branches_node hrows, coe_eq_zero, List.map_eq_nil_iff]
      have henv : (if branches store rows plan keep next = [] ∧ 0 < next.depth
            then collectTerminal next (expandOnce next c).2
            else (expandOnce next c).2).env =
          ⟨if nextNodes store plan keep next.node = 0
            then insert next.node c.env.terminals else c.env.terminals,
            insert next.node c.env.visitedBitmap⟩ := by
        by_cases hzero : nextNodes store plan keep next.node = 0
        · rw [if_pos ⟨hnil.mpr hzero, hnext⟩, if_pos hzero, (collectTerminal_eq hun' next).2]
          rfl
        · rw [if_neg fun h => hzero (hnil.mp h.1), if_neg hzero]
          rfl
      rw [view_cons, view, branches_stack hrows, henv]
      exact .first hv

/-- The traversal returns, and the report of the search is its result. -/
theorem traversal_counted (hlimit : plan.limit ≤ 0) (hskip : plan.skip ≤ 0) {fuel : Nat}
    (hfuel : turnsLeft store plan keep (afterFirst store plan keep) < fuel) :
    ∃ visited terminals, acyclicTraverseTerminals store rows plan fuel = some (.ok terminals) ∧
      CountedIn store plan keep ⟨0, visited, terminals⟩ := by
  obtain ⟨fuel, rfl⟩ := exists_eq_add_one_of_ne_zero (ne_of_gt (zero_lt_of_lt hfuel))
  have hun : Unlimited (afterRoot plan).tracker := ⟨hlimit, hskip⟩
  have hview : view (branches store rows plan keep
        (.root plan.root)).reverse (afterRoot plan) = afterFirst store plan keep := by
    rw [view, List.map_reverse, coe_reverse, branches_node hrows]
    rfl
  obtain ⟨c, hc, -, -, hcounted⟩ := traverseLoop_ends
    (fun stack c => Unlimited c.tracker ∧ (∀ s ∈ stack, 0 < s.depth) ∧
      CountedIn store plan keep (view stack c))
    (fun stack c => turnsLeft store plan keep (view stack c)) (fun ⟨hun, hdepth, hcounted⟩ => by
      obtain ⟨stack', c', hturn, hun', hdepth', hstep⟩ :=
        traverseNext_arrives hrows hdir hpath hkeep hun (hdepth _ (List.mem_cons_self ..))
          (fun s hs => hdepth s (List.mem_cons_of_mem _ hs))
      exact ⟨stack', c', hturn, hun', ⟨hun', hdepth', hcounted.arrives hstep⟩, hstep.left_lt⟩)
    ⟨hun, fun s hs => depth_of_mem_branches (List.mem_reverse.mp hs),
      hview ▸ counted_start plan.root⟩
    (le_of_lt_succ (hview ▸ hfuel))
  refine ⟨c.env.visitedBitmap, c.env.terminals, ?_, hcounted⟩
  rw [acyclicTraverseTerminals, traversal, traverseLoop, traverseNext_root hdir hpath hkeep]
  simp only [hun.atLimit, hc]
  rfl

end

section

variable {keep : R → Bool} {visited terminals : Finset Nat}
  (h : CountedIn store plan keep ⟨0, visited, terminals⟩)
include h

theorem entered_iff (m : Nat) :
    0 < entriesFrom store plan keep visited m ↔ TransGen (Expands store plan keep) plan.root m := by
  rw [TransGen.tail'_iff]
  constructor
  · intro hpos
    obtain ⟨a, ha, hstep⟩ := exists_edge_of_entries hpos
    exact ⟨a, (h.visited_iff a).mp ha, hstep⟩
  · intro ⟨a, ha, hstep⟩
    exact entries_pos ((h.visited_iff a).mpr ha) hstep

theorem reentered_iff (m : Nat) :
    Reentered store plan keep m ↔ 0 < entriesFrom store plan keep visited m ∧
        (m = plan.root ∨ 2 ≤ entriesFrom store plan keep visited m) := by
  have henters : ∀ r, Enters store plan keep r m ↔
      r ∈ followed store plan keep ∧ nearNode store plan r ∈ visited ∧
        farNode store plan r = m := by
    intro r
    rw [h.visited_iff]
    rfl
  have hpos : 0 < entriesFrom store plan keep visited m ↔ ∃ r, Enters store plan keep r m := by
    rw [entriesFrom, entries, List.countP_pos_iff]
    simp only [henters, decide_eq_true_eq]
  have hnodup : (followed store plan keep).Nodup := store.nodup.filter _
  rw [two_le_entries hnodup, hpos]
  constructor
  · intro hre
    obtain ⟨hm, hr⟩ | ⟨r, r', hne, hr, hr'⟩ := hre
    · exact ⟨hr, .inl hm⟩
    · exact ⟨⟨r, hr⟩, .inr ⟨r, ((henters r).mp hr).1, r',
        ((henters r').mp hr').1, hne, ((henters r).mp hr).2, ((henters r').mp hr').2⟩⟩
  · rintro ⟨hr, hcase⟩
    obtain hm | ⟨r, hr, r', hr', hne, hm, hm'⟩ := hcase
    · exact .inl ⟨hm, hr⟩
    · exact .inr ⟨r, r', hne, (henters r).mpr ⟨hr, hm⟩, (henters r').mpr ⟨hr', hm'⟩⟩

/-- What is returned: the terminals, and every node come to again. -/
theorem mem_terminals (m : Nat) :
    m ∈ terminals ↔ IsTerminal store plan keep m ∨ Reentered store plan keep m := by
  rw [h.reported_iff, reentered_iff h, IsTerminal, ← entered_iff h,
    arrivalsFrom_eq_zero, ← and_or_left]
  rfl

end

/-- A diamond: 0 leads to 1 and 2, both lead to 3, and 3 leads to 4. -/
def diamond : RelationshipStore (Nat × Nat) where
  all := [(0, 1), (0, 2), (1, 3), (2, 3), (3, 4)]
  startID := Prod.fst
  endID := Prod.snd
  nodup := by decide

/-- In the diamond, 3 is returned next to the terminal 4. -/
theorem diamond_returns_shared_node : acyclicTraverseTerminals diamond (fun criteria =>
        diamond.all.filter criteria)
        ⟨0, .outbound, none, none, none, 0, 0⟩ 8 =
      some (.ok {3, 4}) ∧
    Expands diamond ⟨0, .outbound, none, none, none, 0, 0⟩ (fun _ => true) 3 4 :=
  ⟨by decide, (3, 4), by decide, rfl, rfl⟩

/-- The traversal returns, in whatever order rows come. What it returns is
the set of terminals exactly if no node that it comes to again has an
expansion step of its own. -/
theorem returns_terminals_iff {store : RelationshipStore R} {rows : (R → Bool) → List R}
    (hrows : ∀ criteria, (rows criteria).Perm (store.all.filter criteria)) {plan : TraversalPlan R}
    (hdir : plan.direction ≠ .both) (hlimit : plan.limit ≤ 0) (hskip : plan.skip ≤ 0)
    (hpath : plan.pathFilter = none) {keep : R → Bool} (hkeep : DescendsBy plan keep) :
    ∃ terminals enough,
      (∀ fuel > enough, acyclicTraverseTerminals store rows plan fuel = some (.ok terminals)) ∧
      ((∀ m, m ∈ terminals ↔ IsTerminal store plan keep m) ↔
        ∀ m, Reentered store plan keep m → ¬ ∃ n, Expands store plan keep m n) := by
  let enough := turnsLeft store plan keep (afterFirst store plan keep)
  obtain ⟨visited, terminals, hret, h⟩ := traversal_counted hrows hdir hpath
    hkeep hlimit hskip (lt_succ_self enough)
  refine ⟨terminals, enough, fun fuel hfuel => ?_, ?_⟩
  · obtain ⟨visited', terminals', hret', h'⟩ := traversal_counted hrows hdir
      hpath hkeep hlimit hskip hfuel
    have hsame : terminals' = terminals := by
      ext m
      rw [mem_terminals h, mem_terminals h']
    rw [hret', hsame]
  · simp only [mem_terminals h]
    refine forall_congr' fun m => ⟨fun hiff hre => ?_, fun hno => ?_⟩
    · exact (hiff.mp (.inr hre)).2
    · refine ⟨fun hor => hor.elim id fun hre => ⟨?_, hno hre⟩, .inl⟩
      exact (entered_iff h m).mp ((reentered_iff h m).mp hre).1

theorem returns_terminals_diamond : ∃ terminals enough,
      (∀ fuel > enough, acyclicTraverseTerminals diamond
          (fun criteria => diamond.all.filter criteria)
          ⟨0, .outbound, none, none, none, 0, 0⟩ fuel = some (.ok terminals)) ∧
      ((∀ m, m ∈ terminals ↔ IsTerminal diamond
          ⟨0, .outbound, none, none, none, 0, 0⟩ (fun _ => true) m) ↔
        ∀ m, Reentered diamond ⟨0, .outbound, none, none, none, 0, 0⟩ (fun _ => true) m →
          ¬ ∃ n, Expands diamond ⟨0, .outbound, none, none, none, 0, 0⟩ (fun _ => true) m n) :=
  returns_terminals_iff (fun _ => .refl _) (by decide) (by decide) (by decide) rfl (fun _ => rfl)

end Dawgs.Ref.Ops

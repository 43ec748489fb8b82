import Dawgs.Proofs.Tarjan
import Dawgs.Ref.ComponentGraph

/-!
# The component graph answers for the graph

Two halves meet here. The digraph `NewComponentGraph` builds has an edge
between two component numbers exactly where an edge of the graph joins the
two components, so by condensation its walks are the walks of the graph.
And the search from both ends finds a walk exactly when there is one.

The search's invariant is symmetric. Each end has seen only components on
its side of the question, what it has seen waits on its queue or has been
expanded, and until the search succeeds the ends have seen nothing in
common. When the loop breaks the inbound queue is empty, so what the
inbound end has seen is closed under steps back; the start is not in it.
-/

namespace Dawgs.Ref

open Relation Lib List Bitmap

/-! ## The edges of the component digraph -/

variable {g : DirectedGraph} {l : List Nat} {d : Direction}

section Build

variable {ctx : Context} {lookup : Nat → Option Nat}

variable {u v : Nat}

theorem foldl_joinComponents_hasEdge
    {edge : CsrDigraphBuilder → Nat → Nat → CsrDigraphBuilder}
    {R : Nat → Nat → Nat → Nat → Prop} {nodeComponent : Nat}
    (hedge : ∀ {b : CsrDigraphBuilder} {c a u v : Nat},
      (edge b c a).HasEdge u v ↔ R c a u v ∨ b.HasEdge u v)
    {s : CsrDigraphBuilder × Nat} :
    (l.foldl (fun s a => (joinComponents ctx lookup edge nodeComponent s a).1) s).1.HasEdge u v ↔
      s.1.HasEdge u v ∨ ∃ a ∈ l, nodeComponent ≠ memberComponent lookup a ∧
        R nodeComponent (memberComponent lookup a) u v := by
  induction l generalizing s with
  | nil => simp
  | cons a l ih =>
    rw [foldl_cons, ih]
    simp only [mem_cons, exists_eq_or_imp]
    have hone : (joinComponents ctx lookup edge nodeComponent s a).1.1.HasEdge
        u v ↔ s.1.HasEdge u v ∨ nodeComponent ≠ memberComponent lookup a ∧
            R nodeComponent (memberComponent lookup a) u v := by
      rw [joinComponents]
      by_cases hne : nodeComponent ≠ memberComponent lookup a
      · simp only [if_pos hne]
        rw [hedge, and_iff_right hne]
        exact Or.comm
      · simp only [if_neg hne]
        simp [hne]
    rw [hone, or_assoc]

/-- An edge between the components of the ends of an edge of `node`. -/
def JoinedAt (g : DirectedGraph) (lookup : Nat → Option Nat) (node u v : Nat) : Prop :=
  ∃ a b, g.Step .outbound a b ∧ (a = node ∨ b = node) ∧ u ≠ v ∧
    u = memberComponent lookup a ∧ v = memberComponent lookup b

theorem joinNode_hasEdge (hctx : ctx.Live) {s : CsrDigraphBuilder × Nat} {node : Nat} :
    (joinNode ctx g lookup s node).1.1.HasEdge u v ↔
      s.1.HasEdge u v ∨ JoinedAt g lookup node u v := by
  have hlive : ∀ edge c (s : CsrDigraphBuilder × Nat) a,
      (joinComponents ctx lookup edge c s a).2 = true := fun _ _ s _ => hctx s.2
  rw [joinNode]
  simp only [eachWhile_eq_foldl (hlive _ _)]
  rw [foldl_joinComponents_hasEdge (R := fun c a u v => u = c ∧ v = a)
      fun {b c a u v} => b.addEdge_hasEdge,
    foldl_joinComponents_hasEdge (R := fun c a u v => u = a ∧ v = c)
      fun {b c a u v} => b.addEdge_hasEdge, or_assoc]
  refine or_congr_right ?_
  constructor
  · rintro (⟨a, ha, hne, rfl, rfl⟩ | ⟨a, ha, hne, rfl, rfl⟩)
    · exact ⟨a, node, g.inbound_iff.mp ha, .inr rfl, Ne.symm hne, rfl, rfl⟩
    · exact ⟨node, a, ha, .inl rfl, hne, rfl, rfl⟩
  · rintro ⟨a, b, hstep, rfl | rfl, hne, rfl, rfl⟩
    · exact .inr ⟨b, hstep, hne, rfl, rfl⟩
    · exact .inl ⟨a, g.inbound_iff.mpr hstep, Ne.symm hne, rfl, rfl⟩

theorem foldl_joinNode_hasEdge (hctx : ctx.Live) {s : CsrDigraphBuilder × Nat} :
    (l.foldl (fun s a => (joinNode ctx g lookup s a).1) s).1.HasEdge u v ↔
      s.1.HasEdge u v ∨ ∃ node ∈ l, JoinedAt g lookup node u v := by
  induction l generalizing s with
  | nil => simp
  | cons node l ih =>
    rw [foldl_cons, ih, joinNode_hasEdge hctx, or_assoc]
    simp

theorem not_hasEdge_componentVertices (members : List Bitmap) :
    ¬ (componentVertices members).HasEdge u v := by
  have hfold : ∀ (l : List Nat) (b : CsrDigraphBuilder),
      (l.foldl CsrDigraphBuilder.addNode b).HasEdge u v ↔ b.HasEdge u v := by
    intro l
    induction l with
    | nil => exact fun _ => Iff.rfl
    | cons c l ih =>
      intro b
      rw [foldl_cons, ih, b.addNode_hasEdge]
  rw [componentVertices, hfold]
  exact CsrDigraphBuilder.not_hasEdge_new

end Build

section Condense

variable {ctx : Context}

/-- The component number of a node. -/
def component (g : DirectedGraph) (v : Nat) : Nat := memberComponent (sccState g).nodeToComp v

variable {v : Nat}

theorem lookup_eq_component (hv : v ∈ g.eachNode) :
    (sccState g).nodeToComp v = some (component g v) := by
  obtain ⟨i, hi⟩ := exists_component hv
  rw [component, memberComponent, hi, Option.getD_some]

theorem eq_component {k : Nat} (hk : (sccState g).nodeToComp v = some k) : k = component g v :=
  Option.some.inj (hk.symm.trans (lookup_eq_component (component_node hk).1))

/-- The component digraph has an edge between two components exactly where
an edge of the graph joins them. -/
theorem componentDigraph_step (hctx : ctx.Live) {c d : Nat} :
    (newComponentGraph ctx g).digraph.Step .outbound c d ↔
      c ≠ d ∧ ∃ u v, g.Step .outbound u v ∧ component g u = c ∧ component g v = d := by
  have hlive : ∀ (s : CsrDigraphBuilder × Nat) node,
      (joinNode ctx g (sccState g).nodeToComp s node).2 = true := fun _ _ => hctx _
  show (CsrDigraphBuilder.build _).Step .outbound c d ↔ _
  rw [CsrDigraphBuilder.build_step]
  show (eachWhile (joinNode ctx g (sccState g).nodeToComp) g.eachNode
    (componentVertices (sccState g).components, 0)).1.HasEdge c d ↔ _
  rw [eachWhile_eq_foldl hlive, foldl_joinNode_hasEdge hctx,
    or_iff_right (not_hasEdge_componentVertices _)]
  constructor
  · rintro ⟨_, _, a, b, hstep, _, hne, rfl, rfl⟩
    exact ⟨hne, a, b, hstep, rfl, rfl⟩
  · rintro ⟨hne, a, b, hstep, rfl, rfl⟩
    exact ⟨a, hstep.mem.1, a, b, hstep, .inl rfl, hne, rfl, rfl⟩

variable {u : Nat}

/-- The walks of the component digraph are the walks of the graph. -/
theorem componentDigraph_reach (hctx : ctx.Live)
    (hd : d ≠ .both) (hu : u ∈ g.eachNode) (hv : v ∈ g.eachNode) :
    (newComponentGraph ctx g).digraph.Reach d (component g u) (component g v) ↔ g.Reach d u v := by
  have hout : ∀ {u v}, u ∈ g.eachNode → v ∈ g.eachNode →
      ((newComponentGraph ctx g).digraph.Reach .outbound (component g u)
        (component g v) ↔ g.Reach .outbound u v) := fun hu hv =>
    condense (S := {w | w ∈ g.eachNode}) DirectedGraph.Step.mem
      (fun ha hb heq => ((sccState_inv.comp_scc (lookup_eq_component ha)
        (lookup_eq_component hb)).mp heq).1) (componentDigraph_step hctx) hu hv
  cases d with
  | outbound => exact hout hu hv
  | inbound =>
    rw [← DirectedGraph.reach_reverse, ← DirectedGraph.reach_reverse (g := g)]
    exact hout hv hu
  | both => exact absurd rfl hd

/-- The vertices of a builder are the numbers below `n`. -/
def Spans (n : Nat) (b : CsrDigraphBuilder) : Prop := ∀ c, c ∈ b.denseIdxToID ↔ c < n

theorem Spans.addEdge {n : Nat} {b : CsrDigraphBuilder} (h : Spans n b) (hu : u < n)
    (hv : v < n) : Spans n (b.addEdge u v) := by
  intro c
  rw [b.addEdge_mem_nodes, h c]
  omega

theorem spans_componentVertices (members : List Bitmap) :
    Spans members.length (componentVertices members) := by
  intro c
  refine (mem_foldl_iff (fun (b : CsrDigraphBuilder) c => c ∈ b.denseIdxToID)
    (fun a => [a]) (fun b a c => ?_) _ _ c).trans ?_
  · rw [b.addNode_mem_nodes, mem_singleton]
  · simp [CsrDigraphBuilder.new]

/-- Whatever edges are joined, the vertices stay the component numbers. -/
theorem joinNode_spans {s : CsrDigraphBuilder × Nat} {node : Nat}
    (hnode : node ∈ g.eachNode) (hs : Spans (sccState g).components.length s.1) :
    Spans (sccState g).components.length (joinNode ctx g (sccState g).nodeToComp s node).1.1 := by
  have hlt : ∀ {v}, v ∈ g.eachNode →
      memberComponent (sccState g).nodeToComp v < (sccState g).components.length :=
    fun hv => (component_node (lookup_eq_component hv)).2
  have hjoin : ∀ {edge : CsrDigraphBuilder → Nat → Nat → CsrDigraphBuilder}
      {d : Direction} {s : CsrDigraphBuilder × Nat},
      (∀ b : CsrDigraphBuilder, ∀ u v : Nat, Spans (sccState g).components.length b →
        u < (sccState g).components.length → v < (sccState g).components.length →
        Spans (sccState g).components.length (edge b u v)) →
      Spans (sccState g).components.length s.1 →
      Spans (sccState g).components.length (eachWhile
        (joinComponents ctx (sccState g).nodeToComp edge
          (memberComponent (sccState g).nodeToComp node)) (g.eachAdjacentNode node d) s).1 := by
    intro edge d s hedge hs
    refine eachWhile_keeps (P := fun s : CsrDigraphBuilder × Nat => Spans _ s.1)
      (fun s a ha hs => ?_) hs
    rw [joinComponents]
    split
    · exact hedge _ _ _ hs (hlt hnode) (hlt (DirectedGraph.Step.mem ha).2)
    · exact hs
  exact hjoin (fun _ _ _ h hu hv => h.addEdge hu hv)
    (hjoin (fun _ _ _ h hu hv => h.addEdge hv hu) hs)

theorem mem_members {c : Nat} :
    v ∈ (newComponentGraph ctx g).members c ↔ (sccState g).nodeToComp v = some c := by
  show v ∈ ((sccState g).components[c]?).getD new ↔ _
  cases hc : (sccState g).components[c]? with
  | some b => exact mem_component hc
  | none =>
    refine iff_of_false not_mem_new fun hv => ?_
    have hlt := (component_node hv).2
    rw [List.getElem?_eq_none_iff] at hc
    omega

/-- The component digraph has the component numbers for its vertices, an edge
wherever an edge of the graph joins two components, and no cycle: an edge
leads to a component that was finished before. -/
theorem newComponentGraph_correct (ctx : Context) (hctx : ctx.Live) (g : DirectedGraph) :
    (∀ c, c ∈ (newComponentGraph ctx g).digraph.eachNode ↔
      c < (newComponentGraph ctx g).componentMembers.length) ∧
    (∀ c d, (newComponentGraph ctx g).digraph.Step .outbound c d ↔
      c ≠ d ∧ ∃ u ∈ (newComponentGraph ctx g).members c,
        ∃ v ∈ (newComponentGraph ctx g).members d, g.Step .outbound u v) ∧
    ∀ c, ¬ TransGen ((newComponentGraph ctx g).digraph.Step .outbound) c c := by
  refine ⟨?_, fun c d => ?_, fun c hc => ?_⟩
  · exact eachWhile_keeps (P := fun s : CsrDigraphBuilder × Nat => Spans _ s.1)
      (fun _ _ ha hs => joinNode_spans ha hs) (spans_componentVertices _)
  · rw [componentDigraph_step hctx]
    refine and_congr_right fun _ => ⟨?_, ?_⟩
    · rintro ⟨u, v, hstep, rfl, rfl⟩
      exact ⟨u, (mem_members).mpr (lookup_eq_component hstep.mem.1), v,
        (mem_members).mpr (lookup_eq_component hstep.mem.2), hstep⟩
    · rintro ⟨u, hu, v, hv, hstep⟩
      exact ⟨u, v, hstep, (eq_component ((mem_members).mp hu)).symm,
        (eq_component ((mem_members).mp hv)).symm⟩
  · have hdown : ∀ {c d}, TransGen
        ((newComponentGraph ctx g).digraph.Step .outbound) c d → d < c := by
      intro c d h
      refine TransGen.trans_induction_on h (fun hstep => ?_) fun _ _ h₁ h₂ => h₂.trans h₁
      obtain ⟨hne, u, v, huv, rfl, rfl⟩ := (componentDigraph_step hctx).mp hstep
      obtain ⟨j, hj, hv⟩ := sccState_inv.comp_closed (lookup_eq_component huv.mem.1) huv
      have := eq_component hv
      omega
    exact Nat.lt_irrefl _ (hdown hc)

theorem newComponentGraph_correct_edge :
    Context.background.Live ∧ ¬ TransGen ((newComponentGraph .background
      (CsrDigraphBuilder.new.addEdge 1 2).build).digraph.Step .outbound) 0 0 :=
  ⟨Context.background_live, (newComponentGraph_correct .background Context.background_live _).2.2 0⟩

end Condense

/-! ## The search from both ends -/

namespace ComponentGraph

/-- The rounds an end can still take: its queue, and the nodes it can
still queue. -/
def SearchEnd.waiting (nodes : List Nat) (s : SearchEnd) : Nat :=
  s.queue.length + (nodes.map fun v => if v ∈ s.components then 0 else 1).sum

/-- What the iteration over the adjacent components `l` makes of an end. -/
structure Expanded (other : Bitmap) (l : List Nat) (s t : SearchEnd) (met : Bool) : Prop where
  keeps : ∀ x ∈ s.components, x ∈ t.components
  queue_keeps : s.queue ⊆ t.queue
  queue_seen : ∀ x ∈ t.queue, x ∈ s.queue ∨ x ∈ t.components
  fresh : ∀ x ∈ t.components, x ∈ s.components ∨ x ∈ l ∧ x ∈ t.queue
  met_spec : met = true → ∃ x ∈ t.components, x ∈ other
  all : met = false → ∀ x ∈ l, x ∈ t.components
  apart : met = false → ∀ x ∈ t.components, x ∈ s.components ∨ ¬ x ∈ other
  work : ∀ nodes, (∀ x ∈ l, x ∈ nodes) → t.waiting nodes ≤ s.waiting nodes

variable {a : Nat} {other : Bitmap}

theorem see_of_mem {s : SearchEnd}
    (ha : a ∈ s.components) : see other (s, false) a = ((s, false), true) := by
  simp [see, Bitmap.checkedAdd, Bitmap.contains, ha]

theorem see_of_not_mem {s : SearchEnd} (ha : ¬ a ∈ s.components) :
    see other (s, false) a = ((⟨s.queue ++ [a], s.components.add a⟩, other.contains a),
        !other.contains a) := by
  simp [see, Bitmap.checkedAdd, Bitmap.contains, ha]

/-- Queueing a component not seen before leaves as many rounds. -/
theorem waiting_queue {nodes : List Nat} {s : SearchEnd}
    (ha : ¬ a ∈ s.components) (hnode : a ∈ nodes) :
    SearchEnd.waiting nodes ⟨s.queue ++ [a], s.components.add a⟩ ≤ s.waiting nodes := by
  have hsum : (nodes.map fun v =>
        if v ∈ s.components.add a then 0 else 1).sum + 1 ≤
      (nodes.map fun v => if v ∈ s.components then 0 else 1).sum := by
    refine sum_map_add_le (fun v _ => ?_) hnode ?_
    · simp only [Bitmap.mem_add]
      split
      · exact Nat.zero_le _
      next hv => rw [if_neg (not_or.mp hv).2]
    · simp [ha]
  simp only [SearchEnd.waiting, length_append, length_singleton]
  omega

section

variable {s t u : SearchEnd} {met : Bool}

/-- A component not seen before is queued. -/
theorem Expanded.queue (ha : ¬ a ∈ s.components) :
    Expanded other [a] s ⟨s.queue ++ [a], s.components.add a⟩ (other.contains a) where
  keeps x hx := (mem_add).mpr (.inr hx)
  queue_keeps := subset_append_left ..
  queue_seen x hx :=
    (mem_append.mp hx).imp_right fun hx => (mem_add).mpr (.inl (mem_singleton.mp hx))
  fresh x hx := ((mem_add).mp hx).symm.imp_right fun heq => by simp [heq]
  met_spec hmet := ⟨a, (mem_add).mpr (.inl rfl), (contains_eq).mp hmet⟩
  all _ x hx := (mem_add).mpr (.inl (mem_singleton.mp hx))
  apart hmet x hx := ((mem_add).mp hx).symm.imp_right fun heq => by
    simpa [heq, Bitmap.contains] using hmet
  work nodes hl := waiting_queue ha (hl a mem_cons_self)

theorem Expanded.cons (h : Expanded other [a] s t false) (h' : Expanded other l t u met) :
    Expanded other (a :: l) s u met where
  keeps x hx := h'.keeps x (h.keeps x hx)
  queue_keeps := List.Subset.trans h.queue_keeps h'.queue_keeps
  queue_seen x hx := (h'.queue_seen x hx).elim
    (fun hx => (h.queue_seen x hx).imp_right (h'.keeps x)) .inr
  fresh x hx := (h'.fresh x hx).elim (fun hx => (h.fresh x hx).imp_right fun hx =>
      ⟨mem_cons.mpr (.inl (mem_singleton.mp hx.1)), h'.queue_keeps hx.2⟩)
    fun hx => .inr ⟨mem_cons_of_mem _ hx.1, hx.2⟩
  met_spec := h'.met_spec
  all hmet := forall_mem_cons.mpr ⟨h'.keeps a (h.all rfl a mem_cons_self), h'.all hmet⟩
  apart hmet x hx := (h'.apart hmet x hx).elim (h.apart rfl x) .inr
  work nodes hl := by
    obtain ⟨ha, hl⟩ := forall_mem_cons.mp hl
    exact (h'.work nodes hl).trans (h.work nodes (forall_mem_singleton.mpr ha))

theorem expanded (other : Bitmap) (l : List Nat) (s : SearchEnd) :
    Expanded other l s (eachWhile (see other) l (s, false)).1
      (eachWhile (see other) l (s, false)).2 := by
  induction l generalizing s with
  | nil =>
    exact ⟨fun _ h => h, List.Subset.refl _, fun _ => .inl, fun _ => .inl, Bool.noConfusion,
      by simp, fun _ _ => .inl, fun _ _ => Nat.le_refl _⟩
  | cons a l ih =>
    rw [eachWhile]
    by_cases ha : a ∈ s.components
    · rw [see_of_mem ha]
      refine .cons ⟨fun _ h => h, List.Subset.refl _, fun _ => .inl, fun _ => .inl,
        Bool.noConfusion, ?_,
        fun _ _ => .inl, fun _ _ => Nat.le_refl _⟩ (ih s)
      exact fun _ => forall_mem_singleton.mpr ha
    · have hqueue : Expanded other [a] s _ _ := .queue ha
      rw [see_of_not_mem ha]
      cases hc : other.contains a with
      | true =>
        -- The ends meet and the iteration stops.
        rw [hc] at hqueue
        refine { hqueue with fresh := fun x hx => ?_, all := by simp, work := fun nodes hl => ?_ }
        · exact (hqueue.fresh x hx).imp_right fun hx =>
            ⟨mem_cons.mpr (.inl (mem_singleton.mp hx.1)), hx.2⟩
        · exact waiting_queue ha (hl a mem_cons_self)
      | false => exact (hc ▸ hqueue).cons (ih _)

end

/-- The invariant of `for !reachable`, for a search from `a` to `b`. -/
structure SearchInv (g : DirectedGraph) (d : Direction) (a b : Nat) (s : Search) : Prop where
  start_mem : a ∈ s.outbound.components
  end_mem : b ∈ s.inbound.components
  out_queue : ∀ x ∈ s.outbound.queue, x ∈ s.outbound.components
  in_queue : ∀ x ∈ s.inbound.queue, x ∈ s.inbound.components
  out_sound : ∀ x ∈ s.outbound.components, g.Reach d a x
  in_sound : ∀ x ∈ s.inbound.components, g.Reach d x b
  met : s.reachable = true → ∃ x ∈ s.outbound.components, x ∈ s.inbound.components
  apart : s.reachable = false → ∀ x ∈ s.outbound.components, ¬ x ∈ s.inbound.components
  explored : s.reachable = false →
    Explored (g.Step d.reverse) {x | x ∈ s.inbound.components} s.inbound.queue

variable {a b : Nat} {s : Search}

theorem SearchInv.start (hab : a ≠ b) : SearchInv g d a b (Search.start a b) := by
  have hself : ∀ {x y : Nat}, x ∈ Bitmap.new.add y → x = y := by
    exact fun hx => ((mem_add).mp hx).resolve_right not_mem_new
  refine ⟨by simp [Search.start], by simp [Search.start],
    by simp [Search.start], by simp [Search.start], fun x hx => ?_,
    fun x hx => ?_, nofun, fun _ x hx hx' => ?_, fun _ x hx => .inl ?_⟩
  · rw [hself hx]
  · rw [hself hx]
  · exact hab ((hself hx).symm.trans (hself hx'))
  · exact mem_singleton.mpr (hself hx)

variable {next : Nat} {rest : List Nat}

theorem SearchInv.outboundRound (h : SearchInv g d a b s)
    (hr : s.reachable = false) (hq : s.outbound.queue = next :: rest) :
    SearchInv g d a b (Search.round.outboundRound g d s next rest) := by
  have hrest : ∀ x ∈ rest, x ∈ s.outbound.components := fun x hx =>
    h.out_queue x (by rw [hq]; exact mem_cons_of_mem _ hx)
  have hnext : g.Reach d a next :=
    h.out_sound next (h.out_queue next (by rw [hq]; exact mem_cons_self ..))
  rw [Search.round.outboundRound]
  split
  · obtain hexp := expanded s.inbound.components (g.eachAdjacentNode next d)
      ⟨rest, s.outbound.components⟩
    refine ⟨hexp.keeps a h.start_mem, h.end_mem, fun x hx => ?_, h.in_queue,
      fun x hx => ?_, h.in_sound, hexp.met_spec, fun hmet x hx => ?_, fun _ => h.explored hr⟩
    · exact (hexp.queue_seen x hx).elim (fun hx => hexp.keeps x (hrest x hx)) id
    · exact (hexp.fresh x hx).elim (h.out_sound x) fun hx => hnext.tail hx.1
    · exact (hexp.apart hmet x hx).elim (h.apart hr x) id
  · exact ⟨h.start_mem, h.end_mem, hrest, h.in_queue, h.out_sound, h.in_sound,
      h.met, h.apart, h.explored⟩

theorem SearchInv.inboundRound (h : SearchInv g d a b s)
    (hr : s.reachable = false) (hq : s.inbound.queue = next :: rest) :
    SearchInv g d a b (Search.round.inboundRound g d s next rest) := by
  have hrest : ∀ x ∈ rest, x ∈ s.inbound.components := fun x hx =>
    h.in_queue x (by rw [hq]; exact mem_cons_of_mem _ hx)
  have hnext : g.Reach d next b :=
    h.in_sound next (h.in_queue next (by rw [hq]; exact mem_cons_self ..))
  have hexplored := h.explored hr
  rw [hq] at hexplored
  have hexp := expanded s.outbound.components
    (g.eachAdjacentNode next d.reverse) ⟨rest, s.inbound.components⟩
  refine ⟨h.start_mem, hexp.keeps b h.end_mem, h.out_queue, fun x hx => ?_,
    h.out_sound, fun x hx => ?_, fun hmet => ?_, fun hmet x hx hx' => ?_, fun hmet => ?_⟩
  · exact (hexp.queue_seen x hx).elim (fun hx => hexp.keeps x (hrest x hx)) id
  · exact (hexp.fresh x hx).elim (h.in_sound x) fun hx =>
      .head (DirectedGraph.step_reverse.mp hx.1) hnext
  · obtain ⟨x, hx, hx'⟩ := hexp.met_spec hmet
    exact ⟨x, hx', hx⟩
  · exact (hexp.apart hmet x hx').elim (h.apart hr x hx) fun hx' => hx' hx
  · exact hexplored.expand hexp.keeps hexp.queue_keeps
      (fun x hx => (hexp.fresh x hx).imp_right And.right) (fun x hx => hexp.all hmet x hx)

/-- The rounds left in a search. -/
def Search.waiting (g : DirectedGraph) (s : Search) : Nat :=
  s.outbound.waiting g.eachNode + s.inbound.waiting g.eachNode

theorem waiting_pop (nodes : List Nat) {s : SearchEnd} (hq : s.queue = next :: rest) :
    SearchEnd.waiting nodes ⟨rest, s.components⟩ + 1 = s.waiting nodes := by
  rw [SearchEnd.waiting, SearchEnd.waiting, hq]
  exact Nat.add_right_comm ..

theorem outboundRound_waiting (hq : s.outbound.queue = next :: rest) :
    (Search.round.outboundRound g d s next rest).waiting g + 1 ≤ s.waiting g := by
  have hpop := waiting_pop g.eachNode hq
  rw [Search.round.outboundRound]
  split
  · have hwork := (expanded s.inbound.components (g.eachAdjacentNode next d)
      ⟨rest, s.outbound.components⟩).work g.eachNode fun x hx => (DirectedGraph.Step.mem hx).2
    show SearchEnd.waiting g.eachNode (expand g d s.inbound.components next
      ⟨rest, s.outbound.components⟩).1 + s.inbound.waiting g.eachNode + 1 ≤
      s.outbound.waiting g.eachNode + s.inbound.waiting g.eachNode
    rw [expand]
    omega
  · show SearchEnd.waiting g.eachNode ⟨rest, s.outbound.components⟩ +
      s.inbound.waiting g.eachNode + 1 ≤
      s.outbound.waiting g.eachNode + s.inbound.waiting g.eachNode
    omega

theorem inboundRound_waiting (hq : s.inbound.queue = next :: rest) :
    (Search.round.inboundRound g d s next rest).waiting g + 1 ≤ s.waiting g := by
  have hpop := waiting_pop g.eachNode hq
  have hwork := (expanded s.outbound.components (g.eachAdjacentNode next d.reverse)
    ⟨rest, s.inbound.components⟩).work g.eachNode fun x hx => (DirectedGraph.Step.mem hx).2
  show s.outbound.waiting g.eachNode + SearchEnd.waiting g.eachNode
    (expand g d.reverse s.outbound.components next ⟨rest, s.inbound.components⟩).1 + 1 ≤
    s.outbound.waiting g.eachNode + s.inbound.waiting g.eachNode
  rw [expand]
  omega

/-- A round breaks only when the inbound queue is empty; otherwise it is a
round of one of the ends. -/
theorem round_cases (g : DirectedGraph) (s : Search) :
    s.round g d = none ∧ s.inbound.queue = [] ∨
    (∃ next rest, s.outbound.queue = next :: rest ∧
      s.round g d = some (Search.round.outboundRound g d s next rest)) ∨
    ∃ next rest, s.inbound.queue = next :: rest ∧
      s.round g d = some (Search.round.inboundRound g d s next rest) := by
  rw [Search.round]
  split
  next hin => exact .inl ⟨rfl, hin⟩
  next next rest hout hin => exact .inr (.inr ⟨next, rest, hin, rfl⟩)
  next next rest next' rest' hout hin =>
    split
    · exact .inr (.inl ⟨next, rest, hout, rfl⟩)
    · exact .inr (.inr ⟨next', rest', hin, rfl⟩)

/-- With fuel for the rounds left the search ends, with the answer. -/
theorem run_spec {fuel : Nat} (h : SearchInv g d a b s) (hfuel : s.waiting g + 1 ≤ fuel) :
    (Search.run g d fuel s).Halted g d ∧
      ((Search.run g d fuel s).reachable = true ↔ g.Reach d a b) := by
  induction fuel generalizing s with
  | zero => omega
  | succ fuel ih =>
    rw [Search.run]
    split
    next hr =>
      obtain ⟨x, hout, hin⟩ := h.met hr
      exact ⟨.inl hr, iff_of_true hr ((h.out_sound x hout).trans (h.in_sound x hin))⟩
    next hr =>
      rw [Bool.not_eq_true] at hr
      rcases round_cases g s with ⟨hnone, hq⟩ | ⟨next, rest, hq, hsome⟩ |
        ⟨next, rest, hq, hsome⟩
      · rw [hnone]
        have hexp := h.explored hr
        rw [hq] at hexp
        have hswap : g.Step d.reverse = Function.swap (g.Step d) := by
          funext x y
          exact propext DirectedGraph.step_reverse
        rw [hswap] at hexp
        refine ⟨.inr hnone, iff_of_false (by simp [hr]) ?_⟩
        exact fun hab => h.apart hr a h.start_mem
          (hexp.closed.reach h.end_mem (Relation.reflTransGen_swap.mpr hab))
      · rw [hsome]
        have hw := outboundRound_waiting (g := g) (d := d) hq
        exact ih (h.outboundRound hr hq) (by omega)
      · rw [hsome]
        have hw := inboundRound_waiting (g := g) (d := d) hq
        exact ih (h.inboundRound hr hq) (by omega)

/-- The rounds left when one component is queued. -/
theorem waiting_singleton (g : DirectedGraph) (c : Nat) (components : Bitmap) :
    SearchEnd.waiting g.eachNode ⟨[c], components⟩ ≤ g.numNodes + 1 := by
  have hsum : (g.eachNode.map fun v => if v ∈ components then 0 else 1).sum ≤
      (g.eachNode.map fun _ => 1).sum := by
    refine sum_le_sum fun v _ => ?_
    split <;> omega
  have hones : (g.eachNode.map fun _ => 1).sum = g.eachNode.length := by simp
  show 1 + (g.eachNode.map fun v => if v ∈ components then 0 else 1).sum ≤ g.eachNode.length + 1
  omega

/-- The search from both ends comes to its end, with the answer. -/
theorem run_start (g : DirectedGraph) (d : Direction) (hab : a ≠ b) :
    (Search.run g d (2 * g.numNodes + 3) (Search.start a b)).Halted g d ∧
      ((Search.run g d (2 * g.numNodes + 3) (Search.start a b)).reachable =
        true ↔ g.Reach d a b) := by
  have ha := waiting_singleton g a (Bitmap.new.add a)
  have hb := waiting_singleton g b (Bitmap.new.add b)
  refine run_spec (SearchInv.start hab) ?_
  show SearchEnd.waiting g.eachNode ⟨[a], _⟩ + SearchEnd.waiting g.eachNode ⟨[b], _⟩ + 1 ≤ _
  omega

/-- `ComponentReachable` answers whether a walk leads from the first
component to the second. -/
theorem componentReachable_iff (s : ComponentGraph) (a b : Nat) (d : Direction) :
    s.componentReachable a b d = true ↔ s.digraph.Reach d a b := by
  rw [componentReachable]
  split
  next heq =>
    subst heq
    exact iff_of_true rfl .refl
  next hne => exact (run_start s.digraph d hne).2

/-! ## The search from one end -/

variable {e : SearchEnd} {r : SearchEnd × Bool}

/-- Until it finds the end, the delegate of `ComponentSearch` does what that
of `ComponentReachable` does where the other end has seen one component. -/
theorem eachWhile_visit (hs : ¬ b ∈ e.components) :
    (eachWhile (visit b) l (e, false)).2 = (eachWhile (see (Bitmap.new.add b)) l (e, false)).2 ∧
      ((eachWhile (visit b) l (e, false)).2 = false → eachWhile (visit b) l (e, false) =
          eachWhile (see (Bitmap.new.add b)) l (e, false)) := by
  induction l generalizing e with
  | nil => exact ⟨rfl, fun _ => rfl⟩
  | cons x l ih =>
    rw [eachWhile, eachWhile]
    by_cases hx : x = b
    · subst hx
      rw [see_of_not_mem hs]
      simp [visit, Bitmap.contains]
    · have hvisit : visit b (e, false) x = see (Bitmap.new.add b) (e, false) x := by
        by_cases hmem : x ∈ e.components <;>
          simp [visit, see, Bitmap.checkedAdd, Bitmap.contains, hx, hmem]
      rw [hvisit]
      by_cases hmem : x ∈ e.components
      · rw [see_of_mem hmem]
        exact ih hs
      · rw [see_of_not_mem hmem]
        have hc : (Bitmap.new.add b).contains x = false := by
          simp [Bitmap.contains, hx]
        rw [hc]
        exact ih fun hb => ((mem_add).mp hb).elim (fun hb => hx hb.symm) hs

/-- What has been seen from the start, with `b` not yet found. -/
structure VisitInv (g : DirectedGraph) (d : Direction) (a b : Nat) (s : SearchEnd) : Prop where
  queue_sound : ∀ x ∈ s.queue, g.Reach d a x
  sound : ∀ x ∈ s.components, g.Reach d a x
  explored : Explored (g.Step d) {x | x = a ∨ x ∈ s.components} s.queue
  apart : ¬ b ∈ s.components

/-- One round of `ComponentSearch`. -/
theorem VisitInv.round (h : VisitInv g d a b e) (hq : e.queue = next :: rest)
    (hr : eachWhile (visit b) (g.eachAdjacentNode next d) ({ e with queue := rest }, false) = r) :
    if r.2 then g.Reach d a b
    else VisitInv g d a b r.1 ∧ r.1.waiting g.eachNode + 1 ≤ e.waiting g.eachNode := by
  have hexp := expanded (Bitmap.new.add b) (g.eachAdjacentNode next d)
    { e with queue := rest }
  have hsame : ∀ {x : Nat}, x ∈ Bitmap.new.add b ↔ x = b := by simp
  have hreach := h.queue_sound next (hq ▸ mem_cons_self)
  obtain ⟨hmet, heq⟩ := eachWhile_visit (e := { e with queue := rest }) h.apart
  rw [hr] at hmet heq
  cases hfound : r.2 with
  | true =>
    obtain ⟨x, hx, hxb⟩ := hexp.met_spec (hmet.symm.trans hfound)
    obtain rfl := hsame.mp hxb
    exact hreach.tail ((hexp.fresh x hx).resolve_left h.apart).1
  | false =>
    rw [← heq hfound] at hexp
    have hexplored := h.explored
    rw [hq] at hexplored
    have hsound : ∀ x ∈ r.1.components, g.Reach d a x := fun x hx =>
      (hexp.fresh x hx).elim (h.sound x) fun hx => hreach.tail hx.1
    refine ⟨⟨fun x hx => ?_, hsound, hexplored.expand ?_ hexp.queue_keeps ?_ ?_, ?_⟩, ?_⟩
    · exact (hexp.queue_seen x hx).elim
        (fun hx => h.queue_sound x (hq ▸ mem_cons_of_mem _ hx)) (hsound x)
    · exact fun x hx => hx.imp_right (hexp.keeps x)
    · rintro x (rfl | hx)
      · exact .inl (.inl rfl)
      · exact (hexp.fresh x hx).imp .inr And.right
    · exact fun x hx => .inr (hexp.all hfound x hx)
    · exact fun hb => (hexp.apart hfound b hb).elim h.apart fun hb => hb (hsame.mpr rfl)
    · have hwork := hexp.work g.eachNode fun x hx =>
        (DirectedGraph.Step.mem hx).2
      have hpop := waiting_pop g.eachNode hq
      omega

theorem searchRun_spec {fuel : Nat} (h : VisitInv g d a b e)
    (hfuel : e.waiting g.eachNode + 1 ≤ fuel) (hr : searchRun g d b fuel (e, false) = r)
    (hab : a ≠ b) : (r.2 = true ∨ r.1.queue = []) ∧ (r.2 = true ↔ g.Reach d a b) := by
  induction fuel generalizing e with
  | zero => omega
  | succ fuel ih =>
    rw [searchRun, if_neg (by simp)] at hr
    split at hr
    next hq =>
      have hclosed := (hq ▸ h.explored).closed
      subst hr
      refine ⟨.inr hq, iff_of_false (by simp) fun hreach => ?_⟩
      exact (hclosed.reach (.inl rfl) hreach).elim (fun hb => hab hb.symm) h.apart
    next next rest hq =>
      have hround := h.round hq rfl
      generalize eachWhile (visit b) _ _ = t at hr hround
      obtain ⟨t, found⟩ := t
      cases found with
      | true =>
        have hend : searchRun g d b fuel (t, true) = (t, true) := by
          cases fuel <;> rfl
        rw [hend] at hr
        subst hr
        exact ⟨.inl rfl, iff_of_true rfl hround⟩
      | false => exact ih hround.1 (by have := hround.2; omega) hr

/-- Both searches end, and both answer whether a walk leads from the first
component to the second. -/
theorem componentReachable_eq_search (s : ComponentGraph) (a b : Nat) (d : Direction) :
    (a ≠ b → (Search.run s.digraph d (2 * s.digraph.numNodes + 3)
        (Search.start a b)).Halted s.digraph d ∧
      ((s.searchEnd a b d).2 = true ∨ (s.searchEnd a b d).1.queue = [])) ∧
    s.componentReachable a b d = s.componentSearch a b d ∧
    (s.componentReachable a b d = true ↔ s.digraph.Reach d a b) := by
  have hsearch : a ≠ b → ((s.searchEnd a b d).2 = true ∨ (s.searchEnd a b d).1.queue = []) ∧
      ((s.searchEnd a b d).2 = true ↔ s.digraph.Reach d a b) := by
    intro hab
    have hw := waiting_singleton s.digraph a new
    refine searchRun_spec ⟨fun x hx => ?_, fun _ hx => absurd hx not_mem_new, fun x hx => ?_,
      not_mem_new⟩ (by omega) rfl hab
    · rw [mem_singleton.mp hx]
    · exact .inl (mem_singleton.mpr (hx.resolve_right not_mem_new))
  have hiff := s.componentReachable_iff a b d
  refine ⟨fun hab => ⟨(run_start s.digraph d hab).1, (hsearch hab).1⟩, Bool.eq_iff_iff.mpr ?_, hiff⟩
  rw [hiff, componentSearch]
  split
  next hab => exact iff_of_true (hab ▸ .refl) rfl
  next hab => exact (hsearch hab).2.symm

/-- `OriginReachable` answers whether two nodes are weakly connected. -/
theorem originReachable_iff (ctx : Context) (hctx : ctx.Live) (g : DirectedGraph) (u v : Nat) :
    (newComponentGraph ctx g).originReachable u v = true ↔
      u ∈ g.eachNode ∧ v ∈ g.eachNode ∧ g.Reach .both u v := by
  have hstep : ∀ {c d}, (newComponentGraph ctx g).digraph.Step .both c d ↔
      c ≠ d ∧ ∃ a b, g.Step .both a b ∧ component g a = c ∧ component g b = d := by
    intro c d
    simp only [DirectedGraph.step_both, componentDigraph_step hctx]
    grind
  have hsame : ∀ {a b}, a ∈ g.eachNode → b ∈ g.eachNode → component g a = component g b →
      g.Reach .both a b := fun ha hb heq =>
    ((sccState_inv.comp_scc (lookup_eq_component ha) (lookup_eq_component hb)).mp heq).1.lift id
      fun _ _ h => DirectedGraph.step_both.mpr (.inl h)
  have hlookup : (newComponentGraph ctx g).containingComponent = (sccState g).nodeToComp := rfl
  rw [originReachable, hlookup]
  cases hu : (sccState g).nodeToComp u with
  | none =>
    refine iff_of_false Bool.false_ne_true fun h => ?_
    rw [lookup_eq_component h.1] at hu
    cases hu
  | some a =>
    cases hv : (sccState g).nodeToComp v with
    | none =>
      refine iff_of_false Bool.false_ne_true fun h => ?_
      rw [lookup_eq_component h.2.1] at hv
      cases hv
    | some b =>
      have hmu := (component_node hu).1
      have hmv := (component_node hv).1
      rw [eq_component hu, eq_component hv]
      simp only [componentReachable_iff, hmu, hmv, true_and]
      exact condense (S := {w | w ∈ g.eachNode}) DirectedGraph.Step.mem hsame hstep hmu hmv

theorem originReachable_edge : Context.background.Live ∧ (newComponentGraph .background
    (CsrDigraphBuilder.new.addEdge 1 2).build).originReachable 2 1 = true :=
  ⟨Context.background_live, (originReachable_iff _ Context.background_live _ 2 1).mpr
    ⟨by decide, by decide, .single (by decide)⟩⟩

end ComponentGraph

end Dawgs.Ref

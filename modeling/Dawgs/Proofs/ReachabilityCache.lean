import Dawgs.Proofs.ComponentGraph
import Dawgs.Ref.ReachabilityCache

/-!
# What the reachability cache answers

`CanReach` does not use the cache and is right. The reach queries do use
it, and a walk may fill it with too little.

The reason is the set of components the walk has seen, which all its
cursors share. A cursor whose next component was seen already moves on,
and trusts that the component's reach gets to it some other way. To the
root it always does. To a cursor in between it need not: with two ways
from the root to a component, the second way's cursor never hears of what
lies behind that component, and what it stores on its way out is short.
A later query that finds the short entry answers with it.

`MissedReach` is that round, exactly: the cursor on top skips a component
from which something can be reached that is neither in the cursor's reach
nor reachable from a component the cursor has yet to take. A walk without
such a round stores only whole reaches, and answers with one.
-/

namespace Dawgs.Ref

open Relation Lib List Bitmap ReachWalk Nat

/-! ## `CanReach` -/

theorem reach_of_mutual {g : DirectedGraph} {d : Direction} (hd : d ≠ .both) {u v : Nat}
    (h : Mutual (g.Step .outbound) u v) : g.Reach d u v := by
  cases d with
  | outbound => exact h.1
  | inbound => exact (DirectedGraph.reach_reverse).mp h.2
  | both => exact absurd rfl hd

/-- `CanReach` answers whether the end lies in the start's component or on
a walk from the start of at least one step. -/
theorem canReach_iff (ctx : Context) (hctx : ctx.Live) (g : DirectedGraph) (maxCacheSize : Int)
    (d : Direction) (hd : d ≠ .both) (u v : Nat) (hu : u ∈ g.eachNode) (hv : v ∈ g.eachNode) :
    (newReachabilityCache ctx g maxCacheSize).canReach u v d = true ↔
      Mutual (g.Step .outbound) u v ∨ TransGen (g.Step d) u v := by
  have hlook : ∀ {w}, w ∈ g.eachNode → (newComponentGraph ctx g).containingComponent w =
        some (component g w) := fun hw => lookup_eq_component hw
  rw [ReachabilityCache.canReach, newReachabilityCache, hlook hu, hlook hv]
  rw [ComponentGraph.componentReachable_iff, componentDigraph_reach hctx hd hu hv]
  refine reflTransGen_iff_eq_or_transGen.trans ?_
  constructor
  · rintro (rfl | hwalk)
    · exact .inl (Mutual.refl v)
    · exact .inr hwalk
  · rintro (hmut | hwalk)
    · exact reflTransGen_iff_eq_or_transGen.mp (reach_of_mutual hd hmut)
    · exact .inr hwalk

/-- Two ways from the first node to the fourth, and a fifth behind it. -/
def diamond : DirectedGraph :=
  ([(0, 1), (0, 2), (1, 3), (2, 3), (3, 4)].foldl
    (fun b e => b.addEdge e.1 e.2) CsrDigraphBuilder.new).build

theorem canReach_iff_diamond :
    (newReachabilityCache Context.background diamond 1).canReach 0 4 .outbound
      = true ↔ Mutual (diamond.Step .outbound) 0 4 ∨ TransGen (diamond.Step .outbound) 0 4 :=
  canReach_iff Context.background Context.background_live diamond 1 .outbound
    (by decide) 0 4 (by decide) (by decide)

/-! ## What the caches hold -/

variable {s : ReachabilityCache} {k : Nat} {b : Bitmap}

namespace ReachabilityCache

/-- The reach stored for a component in a direction. -/
def cached (s : ReachabilityCache) : Direction → Nat → Option Bitmap
  | .inbound, k => s.inboundComponentReach.lookup k
  | .outbound, k => s.outboundComponentReach.lookup k
  | .both, _ => none

/-- A whole reach. -/
def IsReach (g : DirectedGraph) (d : Direction) (k : Nat) (b : Bitmap) : Prop :=
  ∀ x, x ∈ b ↔ g.Reach d k x

/-- Every reach stored is whole. -/
def Exact (s : ReachabilityCache) : Prop :=
  ∀ d k b, s.cached d k = some b → IsReach s.components.digraph d k b

variable {d d' : Direction}

theorem cachedComponentReach_snd : (s.cachedComponentReach k d).2 = s.cached d k := by
  cases d with
  | inbound => exact s.inboundComponentReach.get_snd k
  | outbound => exact s.outboundComponentReach.get_snd k
  | both => rfl

theorem cachedComponentReach_components :
    (s.cachedComponentReach k d).1.components = s.components := by
  cases d <;> rfl

theorem cachedComponentReach_cached (d' : Direction) (k' : Nat) :
    (s.cachedComponentReach k d).1.cached d' k' = s.cached d' k' := by
  cases d <;> cases d' <;>
    first
    | rfl
    | exact s.inboundComponentReach.lookup_get k k'
    | exact s.outboundComponentReach.lookup_get k k'

theorem cacheComponentReach_components (c : ReachCursor) :
    (s.cacheComponentReach c d).components = s.components := by
  cases d <;> rfl

theorem cacheComponentReach_cached {c : ReachCursor}
    (h : (s.cacheComponentReach c d).cached d' k = some b) :
    d' = d ∧ k = c.component ∧ b = c.reach ∨ s.cached d' k = some b := by
  cases d <;> cases d' <;>
    first
    | exact .inr h
    | exact (s.inboundComponentReach.lookup_put h).imp_left fun h => ⟨rfl, h⟩
    | exact (s.outboundComponentReach.lookup_put h).imp_left fun h => ⟨rfl, h⟩

theorem Exact.lookup (h : s.Exact) : (s.cachedComponentReach k d).1.Exact := by
  intro d' k' b hb
  rw [cachedComponentReach_cached] at hb
  rw [cachedComponentReach_components]
  exact h d' k' b hb

theorem Exact.store (h : s.Exact) {c : ReachCursor}
    (hc : IsReach s.components.digraph d c.component c.reach) :
    (s.cacheComponentReach c d).Exact := by
  intro d' k b hb
  rw [cacheComponentReach_components]
  rcases cacheComponentReach_cached hb with ⟨rfl, rfl, rfl⟩ | hb
  · exact hc
  · exact h d' k b hb

theorem exact_new (ctx : Context) (g : DirectedGraph) (maxCacheSize : Int) :
    (newReachabilityCache ctx g maxCacheSize).Exact := by
  intro d k b hb
  cases d <;> cases hb

end ReachabilityCache

/-! ## Walks -/

open ReachabilityCache

/-- The cursor on top is about to skip a component, and with it something
it does not learn of in any other way. -/
def MissedReach (g : DirectedGraph) (d : Direction) (w : ReachWalk) : Prop :=
  ∃ c below next, w.descent = c :: below ∧ c.next = some next ∧
    next ∈ w.root.reach ∧ ∃ x, g.Reach d next x ∧ ¬ x ∈ c.reach ∧
      ∀ a ∈ c.adjacent.drop (c.adjacentIdx + 1), ¬ g.Reach d a x

/-- No round of a walk misses anything. -/
def ReachWalk.Whole (g : DirectedGraph) (d : Direction) : Nat → ReachWalk → Prop
  | 0, _ => True
  | fuel + 1, w =>
    ¬ MissedReach g d w ∧
      match w.round d with
      | .inl _ => True
      | .inr w' => Whole g d fuel w'

/-- Every cursor's reach, together with what it has yet to take and what
the cursor above it brings, is the reach of its component. -/
def Covers (g : DirectedGraph) (d : Direction) : Option Nat → List ReachCursor → Prop
  | _, [] => True
  | above, c :: below =>
    (∀ x, g.Reach d c.component x → x ∈ c.reach ∨
      (∃ a ∈ c.adjacent.drop c.adjacentIdx, g.Reach d a x) ∨ ∃ k, above = some k ∧ g.Reach d k x) ∧
    Covers g d (some c.component) below

/-- The components being walked, innermost first: `above`, if there is one
whose reach is awaited, and those of the cursors above the root. -/
def ReachWalk.ids (above : Option Nat) (w : ReachWalk) : List Nat :=
  above.toList ++ w.descent.map ReachCursor.component

/-- The invariant of a walk that has missed nothing, while the cursor on
top awaits the reach of `above`. -/
structure WalkInv (g : DirectedGraph) (d : Direction) (above : Option Nat)
    (w : ReachWalk) : Prop where
  digraph : w.cache.components.digraph = g
  exact_cache : w.cache.Exact
  root_adj : w.root.adjacent = g.adjacentNodes w.root.component d
  root_self : w.root.component ∈ w.root.reach
  root_sound : ∀ x ∈ w.root.reach, x = w.root.component ∨
    ∃ a ∈ w.root.adjacent.take w.root.adjacentIdx, g.Reach d a x
  root_cover : ∀ a ∈ w.root.adjacent.take w.root.adjacentIdx,
    (∀ x, g.Reach d a x → x ∈ w.root.reach) ∨ (w.ids above).getLast? = some a
  bottom : ∀ k ∈ w.ids above, ∃ a ∈ w.root.adjacent.take w.root.adjacentIdx, g.Reach d a k
  chain : (w.ids above).Pairwise fun k p => g.Reach d p k
  cur_adj : ∀ c ∈ w.descent, c.adjacent = g.adjacentNodes c.component d
  cur_sound : ∀ c ∈ w.descent, ∀ x ∈ c.reach, g.Reach d c.component x
  covers : Covers g d above w.descent

variable {g : DirectedGraph} {d : Direction} {w : ReachWalk} {next : Nat}

theorem WalkInv.start (hs : s.Exact) (k : Nat) :
    WalkInv s.components.digraph d none (s.startWalk k d) where
  digraph := rfl
  exact_cache := hs
  root_adj := rfl
  root_self := (mem_add).mpr (.inl rfl)
  root_sound _ hx := .inl (((mem_add).mp hx).resolve_right not_mem_new)
  root_cover := nofun
  bottom := nofun
  chain := Pairwise.nil
  cur_adj := nofun
  cur_sound := nofun
  covers := trivial

/-! ### Taking a component -/

variable {x : Nat} {reach : Bitmap} {queries : List ReachQuery}

theorem take_seen (h : next ∈ w.root.reach) : w.take d next = w := by
  simp [ReachWalk.take, Bitmap.checkedAdd, Bitmap.contains, h]

theorem take_cached (h : ¬ next ∈ w.root.reach)
    (hb : w.cache.cached d next = some b) : w.take d next = ReachWalk.orTop
      { w with
        root := { w.root with reach := w.root.reach.add next }
        cache := (w.cache.cachedComponentReach next d).1 } b := by
  rw [← cachedComponentReach_snd] at hb
  simp [ReachWalk.take, Bitmap.checkedAdd, h, hb]

theorem take_fresh (h : ¬ next ∈ w.root.reach) (hb : w.cache.cached d next = none) : w.take d next =
      { w with
        root := { w.root with reach := w.root.reach.add next }
        cache := (w.cache.cachedComponentReach next d).1
        descent := (w.cache.cachedComponentReach next d).1.newReachCursor
          next d :: w.descent } := by
  rw [← cachedComponentReach_snd] at hb
  simp [ReachWalk.take, Bitmap.checkedAdd, h, hb]

theorem mem_take_succ {l : List Nat} {i a : Nat} (h : l[i]? = some next) :
    a ∈ l.take (i + 1) ↔ a ∈ l.take i ∨ a = next := by
  rw [take_add_one, h, mem_append, Option.toList_some, mem_singleton]

theorem mem_drop_of_getElem? {l : List Nat} {i a : Nat}
    (h : l[i]? = some next) : a ∈ l.drop i ↔ a = next ∨ a ∈ l.drop (i + 1) := by
  obtain ⟨hlt, heq⟩ := List.getElem?_eq_some_iff.mp h
  rw [drop_eq_getElem_cons hlt, heq, mem_cons]

/-- A component reaches itself and what its adjacent components reach. -/
theorem reach_iff_adjacent : g.Reach d k x ↔ x = k ∨ ∃ a ∈ g.adjacentNodes k d, g.Reach d a x := by
  constructor
  · intro h
    rcases ReflTransGen.cases_head h with rfl | ⟨a, hstep, hreach⟩
    · exact .inl rfl
    · exact .inr ⟨a, hstep, hreach⟩
  · rintro (rfl | ⟨a, ha, hreach⟩)
    · exact .refl
    · exact .head ha hreach

section NewCursor

variable {c : ReachabilityCache}

theorem newReachCursor_reach :
    x ∈ (c.newReachCursor next d).reach ↔
      x ∈ c.components.digraph.adjacentNodes next d ∨ x = next := by
  rw [newReachCursor]
  simp

theorem newReachCursor_sound (h : x ∈ (c.newReachCursor next d).reach) :
    c.components.digraph.Reach d next x := by
  rcases (newReachCursor_reach).mp h with hx | rfl
  · exact .single hx
  · exact .refl

theorem newReachCursor_cover (h : c.components.digraph.Reach d next x) :
    x ∈ (c.newReachCursor next d).reach ∨ ∃ a ∈ (c.newReachCursor next d).adjacent.drop 0,
        c.components.digraph.Reach d a x := by
  rcases (reach_iff_adjacent).mp h with rfl | hx
  · exact .inl (newReachCursor_reach.mpr (.inr rfl))
  · exact .inr hx

end NewCursor

namespace WalkInv

variable {cache : ReachabilityCache} {root c : ReachCursor} {below : List ReachCursor}

/-! ### The root takes a component -/

theorem root_step (h : WalkInv g d none w) (hnext : w.root.next = some next) :
    g.Step d w.root.component next := by
  have hmem := mem_of_getElem? hnext
  rw [h.root_adj] at hmem
  exact hmem

section

variable (h : WalkInv g d none ⟨cache, root, []⟩)
include h

/-- With no cursor above the root nothing is outstanding. -/
theorem root_cover_nil {a : Nat}
    (ha : a ∈ root.adjacent.take root.adjacentIdx) (hx : g.Reach d a x) : x ∈ root.reach := by
  rcases h.root_cover a ha with hcov | hlast
  · exact hcov x hx
  · cases hlast

omit h in
/-- What the root knows is still so once it has taken one more. -/
theorem root_sound_succ (h : WalkInv g d none w)
    (hnext : w.root.next = some next) (hx : x ∈ w.root.reach) :
    x = w.root.component ∨ ∃ a ∈ w.root.adjacent.take (w.root.adjacentIdx + 1), g.Reach d a x :=
  (h.root_sound x hx).imp_right fun ⟨a, ha, hreach⟩ =>
    ⟨a, (mem_take_succ hnext).mpr (.inl ha), hreach⟩

theorem root_seen (hirr : ∀ x, ¬ g.Step d x x) (hnext : root.next = some next)
    (hseen : next ∈ root.reach) : WalkInv g d none ⟨cache, root.advance, []⟩ := by
  refine
    { h with
      root_sound := fun x hx => h.root_sound_succ hnext hx
      root_cover := fun a ha => .inl fun x hx => ?_
      bottom := nofun }
  rcases (mem_take_succ hnext).mp ha with ha | rfl
  · exact h.root_cover_nil ha hx
  · rcases h.root_sound a hseen with heq | ⟨a', ha', hreach⟩
    · have hstep := h.root_step hnext
      rw [heq] at hstep
      exact absurd hstep (hirr _)
    · exact h.root_cover_nil ha' (hreach.trans hx)

/-- The root takes a component not seen before and awaits its reach. -/
theorem root_open (hnext : root.next = some next) :
    WalkInv g d (some next) ⟨cache, { root.advance with reach := root.reach.add next }, []⟩ := by
  have hself : next ∈ root.adjacent.take (root.adjacentIdx + 1) :=
    (mem_take_succ hnext).mpr (.inr rfl)
  refine
    { h with
      root_self := (mem_add).mpr (.inr h.root_self)
      root_sound := fun x hx => ?root_sound
      root_cover := fun a ha => ?root_cover
      bottom := fun k hk => ⟨next, hself, ?bottom⟩
      chain := pairwise_singleton .. }
  case root_sound =>
    rcases (mem_add).mp hx with rfl | hx
    · exact .inr ⟨x, hself, .refl⟩
    · exact h.root_sound_succ hnext hx
  case root_cover =>
    rcases (mem_take_succ hnext).mp ha with ha | rfl
    · exact .inl fun x hx =>
        (mem_add).mpr (.inr (h.root_cover_nil ha hx))
    · exact .inr rfl
  case bottom => rw [mem_singleton.mp hk]

/-- With nothing left to take the root's reach is whole. -/
theorem root_done (hnext : root.next = none) : IsReach g d root.component root.reach := by
  have hall : root.adjacent.take root.adjacentIdx = g.adjacentNodes root.component d := by
    rw [take_of_length_le (getElem?_eq_none_iff.mp hnext)]
    exact h.root_adj
  intro x
  rw [reach_iff_adjacent, ← hall]
  constructor
  · exact h.root_sound x
  · rintro (rfl | ⟨a, ha, hreach⟩)
    · exact h.root_self
    · exact h.root_cover_nil ha hreach

end

/-! ### Another cursor takes a component -/

section

variable (h : WalkInv g d none ⟨cache, root, c :: below⟩)
include h

theorem cursor_step (hnext : c.next = some next) : g.Step d c.component next := by
  have hmem := mem_of_getElem? hnext
  rw [h.cur_adj c mem_cons_self] at hmem
  exact hmem

omit h in
/-- Moving the cursor on top leaves what is known of cursors. -/
theorem forall_advance {P : ReachCursor → Prop} (hc : P c → P c.advance)
    (h : ∀ c' ∈ c :: below, P c') : ∀ c' ∈ c.advance :: below, P c' :=
  forall_mem_cons.mpr ((forall_mem_cons.mp h).imp_left hc)

theorem cursor_seen (hnext : c.next = some next) (hseen : next ∈ root.reach)
    (hmiss : ¬ MissedReach g d ⟨cache, root, c :: below⟩) :
    WalkInv g d none ⟨cache, root, c.advance :: below⟩ := by
  refine
    { h with
      cur_adj := forall_advance id h.cur_adj
      cur_sound := forall_advance id h.cur_sound
      covers := ⟨fun x hx => ?_, h.covers.2⟩ }
  rcases h.covers.1 x hx with hx | ⟨a, ha, hreach⟩ | ⟨k, hk, _⟩
  · exact .inl hx
  · rcases (mem_drop_of_getElem? hnext).mp ha with rfl | ha
    · -- The component skipped: what lies behind it is not missed.
      by_contra hnot
      refine hmiss ⟨c, below, a, rfl, hnext, hseen, x, hreach, ?_, ?_⟩
      · exact fun hxc => hnot (.inl hxc)
      · exact fun a' ha' hreach' => hnot (.inr (.inl ⟨a', ha', hreach'⟩))
    · exact .inr (.inl ⟨a, ha, hreach⟩)
  · cases hk

/-- A cursor takes a component not seen before and awaits its reach. -/
theorem cursor_open (hnext : c.next = some next) :
    WalkInv g d (some next) ⟨cache, { root with reach := root.reach.add next },
        c.advance :: below⟩ := by
  have hstep := h.cursor_step hnext
  -- The component taken is reached from every cursor and from the root.
  have hnextReach : ∀ p ∈ c.component :: below.map ReachCursor.component, g.Reach d p next := by
    refine forall_mem_cons.mpr ⟨.single hstep, fun p hp => ?_⟩
    exact ((pairwise_cons.mp h.chain).1 p hp).tail hstep
  have hbottom : ∃ a ∈ root.adjacent.take root.adjacentIdx, g.Reach d a next := by
    obtain ⟨a, ha, hreach⟩ := h.bottom _ mem_cons_self
    exact ⟨a, ha, hreach.tail hstep⟩
  refine
    { h with
      root_self := (mem_add).mpr (.inr h.root_self)
      root_sound := fun x hx => ?root_sound
      root_cover := fun a ha => ?root_cover
      bottom := forall_mem_cons.mpr ⟨hbottom, h.bottom⟩
      chain := pairwise_cons.mpr ⟨hnextReach, h.chain⟩
      cur_adj := forall_advance id h.cur_adj
      cur_sound := forall_advance id h.cur_sound
      covers := ⟨fun x hx => ?covers, h.covers.2⟩ }
  case root_sound =>
    rcases (mem_add).mp hx with rfl | hx
    · exact .inr hbottom
    · exact h.root_sound x hx
  case root_cover =>
    rcases h.root_cover a ha with hcov | hlast
    · exact .inl fun x hx => (mem_add).mpr (.inr (hcov x hx))
    · exact .inr (getLast?_cons_cons.trans hlast)
  case covers =>
    rcases h.covers.1 x hx with hx | ⟨a, ha, hreach⟩ | ⟨k, hk, _⟩
    · exact .inl hx
    · rcases (mem_drop_of_getElem? hnext).mp ha with rfl | ha
      · exact .inr (.inr ⟨a, rfl, hreach⟩)
      · exact .inr (.inl ⟨a, ha, hreach⟩)
    · cases hk

end

/-! ### The reach of a component arrives -/

section Arrive

variable {above : Option Nat}

theorem with_cache (h : WalkInv g d above w) (hg : cache.components.digraph = g)
    (hcache : cache.Exact) : WalkInv g d above { w with cache } :=
  { h with digraph := hg, exact_cache := hcache }

/-- The awaited reach is merged into the root. -/
theorem fill_root (h : WalkInv g d (some k) ⟨cache, root, []⟩)
    (hb : IsReach g d k b) : WalkInv g d none ⟨cache, root.orReach b, []⟩ := by
  refine
    { h with
      root_self := (mem_or).mpr (.inl h.root_self)
      root_sound := fun x hx => ?root_sound
      root_cover := fun a ha => .inl fun x hx =>
        (mem_or).mpr ?root_cover
      bottom := nofun, chain := Pairwise.nil }
  case root_sound =>
    rcases (mem_or).mp hx with hx | hx
    · exact h.root_sound x hx
    · obtain ⟨a, ha, hreach⟩ := h.bottom k mem_cons_self
      exact .inr ⟨a, ha, hreach.trans ((hb x).mp hx)⟩
  case root_cover =>
    rcases h.root_cover a ha with hcov | hlast
    · exact .inl (hcov x hx)
    · cases hlast
      exact .inr ((hb x).mpr hx)

/-- The awaited reach is merged into the cursor on top. -/
theorem fill_cursor (h : WalkInv g d (some k) ⟨cache, root, c :: below⟩) (hb : IsReach g d k b) :
    WalkInv g d none ⟨cache, root, c.orReach b :: below⟩ := by
  obtain ⟨hk, hchain⟩ := pairwise_cons.mp h.chain
  obtain ⟨hadj, hadjs⟩ := forall_mem_cons.mp h.cur_adj
  obtain ⟨hsound, hsounds⟩ := forall_mem_cons.mp h.cur_sound
  refine
    { h with
      root_cover := fun a ha => (h.root_cover a ha).imp_right getLast?_cons_cons.symm.trans
      bottom := fun p hp => h.bottom p (mem_cons_of_mem _ hp)
      chain := hchain
      cur_adj := forall_mem_cons.mpr ⟨hadj, hadjs⟩
      cur_sound := forall_mem_cons.mpr ⟨fun x hx => ?cur_sound, hsounds⟩
      covers := ⟨fun x hx => ?covers, h.covers.2⟩ }
  case cur_sound =>
    rcases (mem_or).mp hx with hx | hx
    · exact hsound x hx
    · exact (hk c.component mem_cons_self).trans ((hb x).mp hx)
  case covers =>
    rcases h.covers.1 x hx with hx | hx | ⟨k', hk', hreach⟩
    · exact .inl (mem_or.mpr (.inl hx))
    · exact .inr (.inl hx)
    · cases hk'
      exact .inl (mem_or.mpr (.inr ((hb x).mpr hreach)))

theorem fill (h : WalkInv g d (some k) w)
    (hb : IsReach g d k b) : WalkInv g d none (w.orTop b) := by
  obtain ⟨cache, root, _ | ⟨c, below⟩⟩ := w
  · exact h.fill_root hb
  · exact h.fill_cursor hb

/-- The awaited reach is walked for by a cursor of its own. -/
theorem push (h : WalkInv g d (some k) w) : WalkInv g d none
      { w with descent := w.cache.newReachCursor k d :: w.descent } := by
  have hg := h.digraph
  refine
    { h with
      digraph := hg
      cur_adj := forall_mem_cons.mpr ⟨?cur_adj, h.cur_adj⟩
      cur_sound := forall_mem_cons.mpr ⟨fun x hx => ?cur_sound, h.cur_sound⟩
      covers := ⟨fun x hx => ?covers, h.covers⟩ }
  case cur_adj => rw [← hg]; rfl
  case cur_sound => rw [← hg]; exact newReachCursor_sound hx
  case covers =>
    rw [← hg] at hx ⊢
    exact (newReachCursor_cover hx).imp_right .inl

/-- A cursor with nothing left to take has the whole reach of its
component, and leaves the one below it waiting for that. -/
theorem pop (h : WalkInv g d none ⟨cache, root, c :: below⟩) (hnext : c.next = none) :
    IsReach g d c.component c.reach ∧ WalkInv g d (some c.component) ⟨cache, root, below⟩ := by
  obtain ⟨hsound, hsounds⟩ := forall_mem_cons.mp h.cur_sound
  refine ⟨fun x => ⟨hsound x, fun hx => ?_⟩,
    { h with
      cur_adj := (forall_mem_cons.mp h.cur_adj).2
      cur_sound := hsounds
      covers := h.covers.2 }⟩
  rcases h.covers.1 x hx with hx | ⟨a, ha, _⟩ | ⟨k', hk', _⟩
  · exact hx
  · rw [drop_eq_nil_of_le (getElem?_eq_none_iff.mp hnext)] at ha
    cases ha
  · cases hk'

end Arrive

/-! ### Rounds -/

theorem take_inv (hnew : ¬ next ∈ w.root.reach)
    (h : WalkInv g d (some next) { w with root := { w.root with reach := w.root.reach.add next } })
    : WalkInv g d none (w.take d next) := by
  have hg : (w.cache.cachedComponentReach next d).1.components.digraph = g := by
    rw [cachedComponentReach_components]
    exact h.digraph
  have hopen := h.with_cache hg h.exact_cache.lookup
  cases hb : w.cache.cached d next with
  | some b =>
    rw [take_cached hnew hb]
    refine hopen.fill ?_
    rw [← h.digraph]
    exact h.exact_cache d next b hb
  | none =>
    rw [take_fresh hnew hb]
    exact hopen.push

/-- A round that misses nothing keeps the invariant, and the last one
leaves whole reaches only. -/
theorem round_inv (h : WalkInv g d none w) (hirr : ∀ x, ¬ g.Step d x x)
    (hmiss : ¬ MissedReach g d w) :
    (∀ w', w.round d = .inr w' → WalkInv g d none w') ∧ ∀ cache, w.round d = .inl cache →
        cache.Exact ∧ IsReach g d w.root.component w.root.reach := by
  obtain ⟨cache, root, _ | ⟨c, below⟩⟩ := w
  · cases hnext : root.next with
    | none =>
      have hdone := h.root_done hnext
      simp only [ReachWalk.round, hnext]
      refine ⟨nofun, fun _ hc => ?_⟩
      cases hc
      refine ⟨h.exact_cache.store ?_, hdone⟩
      rw [h.digraph]
      exact hdone
    | some next =>
      simp only [ReachWalk.round, hnext]
      refine ⟨fun _ hw' => ?_, nofun⟩
      cases hw'
      by_cases hseen : next ∈ root.reach
      · rw [take_seen (by exact hseen)]
        exact h.root_seen hirr hnext hseen
      · exact take_inv hseen (h.root_open hnext)
  · cases hnext : c.next with
    | none =>
      simp only [ReachWalk.round, hnext]
      refine ⟨fun _ hw' => ?_, nofun⟩
      cases hw'
      obtain ⟨hreach, hpop⟩ := h.pop hnext
      have hfill := hpop.fill hreach
      refine hfill.with_cache ?_ (hfill.exact_cache.store ?_)
      · rw [cacheComponentReach_components]
        exact hfill.digraph
      · rw [hfill.digraph]
        exact hreach
    | some next =>
      simp only [ReachWalk.round, hnext]
      refine ⟨fun _ hw' => ?_, nofun⟩
      cases hw'
      by_cases hseen : next ∈ root.reach
      · rw [take_seen (by exact hseen)]
        exact h.cursor_seen hnext hseen hmiss
      · exact take_inv hseen (h.cursor_open hnext)

end WalkInv

/-! ### Walks without a skip

A walk in which only the root meets a component twice misses nothing. -/

namespace ReachWalk

/-- The cursor on top, not the root, is about to skip a component. -/
def skips (w : ReachWalk) : Bool :=
  match w.descent with
  | [] => false
  | c :: _ => c.next.any w.root.reach.contains

def neverSkips (d : Direction) : Nat → ReachWalk → Bool
  | 0, _ => true
  | fuel + 1, w =>
    !w.skips &&
      match w.round d with
      | .inl _ => true
      | .inr w' => neverSkips d fuel w'

theorem not_missed_of_not_skips (h : w.skips = false) : ¬ MissedReach g d w := by
  rintro ⟨c, below, next, hds, hnext, hseen, _⟩
  rw [skips, hds] at h
  simp only [hnext, Option.any_some] at h
  rw [(contains_eq).mpr hseen] at h
  cases h

theorem whole_of_neverSkips {fuel : Nat} (h : neverSkips d fuel w = true) : Whole g d fuel w := by
  induction fuel generalizing w with
  | zero => exact trivial
  | succ fuel ih =>
    rw [neverSkips, Bool.and_eq_true, Bool.not_eq_true'] at h
    refine ⟨not_missed_of_not_skips h.1, ?_⟩
    cases hround : w.round d with
    | inl cache => exact trivial
    | inr w' =>
      rw [hround] at h
      exact ih h.2

end ReachWalk

/-! ### The walk ends -/

namespace ReachWalk

/-- The rounds the components not yet seen will take. -/
def unseen (g : DirectedGraph) (d : Direction) (reach : Bitmap) : Nat := (g.eachNode.map fun v =>
    if v ∈ reach then 0 else (g.adjacentNodes v d).length + 1).sum

/-- The rounds the cursors on the stack still take. -/
def pending (cs : List ReachCursor) : Nat :=
  (cs.map fun c => c.adjacent.length - c.adjacentIdx + 1).sum

def work (g : DirectedGraph) (d : Direction) (w : ReachWalk) : Nat :=
  unseen g d w.root.reach + pending (w.root :: w.descent)

theorem unseen_le {reach' : Bitmap} (h : ∀ x ∈ reach, x ∈ reach') :
    unseen g d reach' ≤ unseen g d reach := by
  refine sum_le_sum fun v _ => ?_
  split
  · exact zero_le _
  next hv => rw [if_neg fun hmem => hv (h v hmem)]

theorem unseen_add (hnew : ¬ next ∈ reach) (hnode : next ∈ g.eachNode) :
    unseen g d (reach.add next) + ((g.adjacentNodes next d).length + 1) ≤ unseen g d reach := by
  refine sum_map_add_le (fun v _ => ?_) hnode ?_
  · split
    · exact zero_le _
    next hv =>
      rw [if_neg fun hmem => hv (mem_add.mpr (.inr hmem))]
  · simp [hnew]

theorem orTop_work (w : ReachWalk) (b : Bitmap) : (w.orTop b).work g d ≤ w.work g d := by
  rw [orTop]
  split
  next hds =>
    exact Nat.add_le_add_right (unseen_le fun x hx => (mem_or).mpr (.inl hx)) _
  next c below hds =>
    rw [work, work, hds]
    exact le_refl _

theorem take_work (hg : w.cache.components.digraph = g)
    (hnode : next ∈ g.eachNode) : (w.take d next).work g d ≤ w.work g d := by
  by_cases hseen : next ∈ w.root.reach
  · rw [take_seen hseen]
  · have hadd := unseen_add (d := d) hseen hnode
    cases hb : w.cache.cached d next with
    | some b =>
      rw [take_cached hseen hb]
      refine le_trans (orTop_work _ b) ?_
      show unseen g d (w.root.reach.add next) + pending (w.root :: w.descent) ≤
        unseen g d w.root.reach + pending (w.root :: w.descent)
      omega
    | none =>
      rw [take_fresh hseen hb]
      have hcursor : (w.cache.cachedComponentReach next d).1.newReachCursor
          next d = w.cache.newReachCursor next d := by
        rw [newReachCursor, newReachCursor, cachedComponentReach_components]
      rw [hcursor]
      have hpend : pending (w.root :: w.cache.newReachCursor next d ::
          w.descent) = (g.adjacentNodes next d).length + 1 + pending (w.root :: w.descent) := by
        rw [← hg]
        simp only [pending, newReachCursor, map_cons, sum_cons]
        omega
      show unseen g d (w.root.reach.add next) + pending (w.root ::
        w.cache.newReachCursor next d :: w.descent) ≤
        unseen g d w.root.reach + pending (w.root :: w.descent)
      omega

theorem advance_remaining {c : ReachCursor} (h : c.next = some next) :
    c.adjacent.length - (c.adjacentIdx + 1) + 1 + 1 = c.adjacent.length - c.adjacentIdx + 1 := by
  obtain ⟨hlt, _⟩ := List.getElem?_eq_some_iff.mp h
  omega

/-- A round takes one off the work left. -/
theorem round_work (h : WalkInv g d none w) {w' : ReachWalk}
    (hw : w.round d = .inr w') : w'.work g d + 1 ≤ w.work g d := by
  obtain ⟨cache, root, _ | ⟨c, below⟩⟩ := w
  · cases hnext : root.next with
    | none => simp [round, hnext] at hw
    | some next =>
      simp only [round, hnext, Sum.inr.injEq] at hw
      subst hw
      refine Nat.le_trans (Nat.add_le_add_right (take_work (d := d)
        (by exact h.digraph) (h.root_step hnext).mem.2) 1) ?_
      have hrem := advance_remaining hnext
      simp only [work, pending, map_cons, sum_cons, ReachCursor.advance]
      omega
  · cases hnext : c.next with
    | none =>
      simp only [round, hnext, Sum.inr.injEq] at hw
      subst hw
      have hor := orTop_work (g := g) (d := d) ⟨cache, root, below⟩ c.reach
      refine Nat.le_trans (Nat.add_le_add_right hor 1) ?_
      simp only [work, pending, map_cons, sum_cons]
      omega
    | some next =>
      simp only [round, hnext, Sum.inr.injEq] at hw
      subst hw
      refine Nat.le_trans (Nat.add_le_add_right (take_work (d := d)
        (by exact h.digraph) (h.cursor_step hnext).mem.2) 1) ?_
      have hrem := advance_remaining hnext
      simp only [work, pending, map_cons, sum_cons, ReachCursor.advance]
      omega

theorem orTop_frame (w : ReachWalk) (b : Bitmap) :
    (w.orTop b).cache = w.cache ∧ (w.orTop b).root.component = w.root.component := by
  rw [orTop]
  split <;> exact ⟨rfl, rfl⟩

theorem take_frame (w : ReachWalk) (next : Nat) :
    (w.take d next).cache.components = w.cache.components ∧
      (w.take d next).root.component = w.root.component := by
  by_cases hseen : next ∈ w.root.reach
  · rw [take_seen hseen]
    exact ⟨rfl, rfl⟩
  · cases hb : w.cache.cached d next with
    | some b =>
      rw [take_cached hseen hb, (orTop_frame _ b).1, (orTop_frame _ b).2]
      exact ⟨cachedComponentReach_components, rfl⟩
    | none =>
      rw [take_fresh hseen hb]
      exact ⟨cachedComponentReach_components, rfl⟩

theorem round_frame (w : ReachWalk) :
    (∀ w', w.round d = .inr w' → w'.cache.components = w.cache.components ∧
        w'.root.component = w.root.component) ∧ ∀ cache, w.round d = .inl cache →
      cache.components = w.cache.components := by
  obtain ⟨cache, root, _ | ⟨c, below⟩⟩ := w
  · cases hnext : root.next with
    | none =>
      simp only [round, hnext]
      exact ⟨nofun, fun _ hc => by
        cases hc; exact cacheComponentReach_components _⟩
    | some next =>
      simp only [round, hnext]
      exact ⟨fun _ hw' => by cases hw'; exact take_frame _ next, nofun⟩
  · cases hnext : c.next with
    | none =>
      simp only [round, hnext]
      refine ⟨fun _ hw' => ?_, nofun⟩
      cases hw'
      obtain ⟨hcache, hroot⟩ := orTop_frame ⟨cache, root, below⟩ c.reach
      refine ⟨?_, hroot⟩
      rw [cacheComponentReach_components, hcache]
    | some next =>
      simp only [round, hnext]
      exact ⟨fun _ hw' => by cases hw'; exact take_frame _ next, nofun⟩

/-- A walk that misses nothing ends with the root's whole reach and leaves
whole reaches only. -/
theorem run_spec {fuel : Nat} (h : WalkInv g d none w)
    (hirr : ∀ x, ¬ g.Step d x x) (hwhole : Whole g d fuel w) (hfuel : w.work g d ≤ fuel) :
    (run d fuel w).1.Exact ∧ (run d fuel w).1.components = w.cache.components ∧
      IsReach g d w.root.component (run d fuel w).2 := by
  induction fuel generalizing w with
  | zero =>
    rw [work, pending, map_cons, sum_cons] at hfuel
    omega
  | succ fuel ih =>
    obtain ⟨hmiss, hrest⟩ := hwhole
    obtain ⟨hinv, hlast⟩ := h.round_inv hirr hmiss
    obtain ⟨hframe, hframe'⟩ := round_frame (d := d) w
    rw [run]
    cases hround : w.round d with
    | inl cache =>
      obtain ⟨hexact, hreach⟩ := hlast cache hround
      exact ⟨hexact, hframe' cache hround, hreach⟩
    | inr w' =>
      rw [hround] at hrest
      have hwork := round_work h hround
      obtain ⟨hcomps, hroot⟩ := hframe w' hround
      have hrec := ih (hinv w' hround) hrest (by omega)
      rw [hcomps, hroot] at hrec
      exact hrec

end ReachWalk

/-! ## Queries -/

namespace ReachabilityCache

/-- The walk for a component, if the cache does not answer for it, misses
nothing. -/
def WholeWalk (s : ReachabilityCache) (k : Nat) (d : Direction) : Prop :=
  s.cached d k = none → ((s.cachedComponentReach k d).1.startWalk k d).Whole s.components.digraph d
      ((s.cachedComponentReach k d).1.walkFuel k d)

theorem work_startWalk : (s.startWalk k d).work s.components.digraph d ≤ s.walkFuel k d := by
  have hunseen : unseen s.components.digraph d
      (new.add k) ≤ (s.components.digraph.eachNode.map fun v =>
        (s.components.digraph.adjacentNodes v d).length + 1).sum := by
    refine sum_le_sum fun v _ => ?_
    split <;> omega
  have hpending : pending [s.newRootReachCursor k d] =
      (s.components.digraph.adjacentNodes k d).length + 1 := rfl
  show unseen s.components.digraph d (new.add k) +
    pending [s.newRootReachCursor k d] ≤ s.walkFuel k d
  rw [walkFuel]
  omega

theorem componentReachDFS_spec (hs : s.Exact)
    (hirr : ∀ x, ¬ s.components.digraph.Step d x x) (hwhole : s.WholeWalk k d) :
    (s.componentReachDFS k d).1.Exact ∧ (s.componentReachDFS k d).1.components = s.components ∧
      IsReach s.components.digraph d k (s.componentReachDFS k d).2 := by
  rw [componentReachDFS]
  cases hb : s.cached d k with
  | some b =>
    simp only [cachedComponentReach_snd, hb]
    exact ⟨hs.lookup, cachedComponentReach_components, hs d k b hb⟩
  | none =>
    simp only [cachedComponentReach_snd, hb]
    have hcomps : (s.cachedComponentReach k d).1.components =
        s.components := cachedComponentReach_components
    have hexact : (s.cachedComponentReach k d).1.Exact := hs.lookup
    have hinv := WalkInv.start (d := d) hexact k
    have hwork := work_startWalk (s := (s.cachedComponentReach k d).1) (k := k) (d := d)
    rw [hcomps] at hinv hwork
    have hrun := run_spec hinv hirr (hwhole hb) hwork
    rw [show ((s.cachedComponentReach k d).1.startWalk k d).cache.components =
      s.components from hcomps] at hrun
    exact hrun

theorem mem_componentReachToMemberReachBitmap :
    x ∈ s.componentReachToMemberReachBitmap reach ↔ ∃ c ∈ reach, x ∈ s.components.members c := by
  have hfold : ∀ (l : List Nat) (b : Bitmap), x ∈ l.foldl (fun members component =>
        s.components.collectComponentMembers component members) b ↔
        x ∈ b ∨ ∃ c ∈ l, x ∈ s.components.members c := by
    intro l
    induction l with
    | nil => simp
    | cons c l ih =>
      intro b
      rw [foldl_cons, ih, ComponentGraph.collectComponentMembers, mem_or, or_assoc]
      simp
  rw [componentReachToMemberReachBitmap, hfold, or_iff_right not_mem_new]
  exact Iff.rfl

end ReachabilityCache

/-- The nodes a walk in the direction can end at when it starts in the
member's strongly connected component. -/
def InReach (g : DirectedGraph) (d : Direction) (member v : Nat) : Prop :=
  ∃ u ∈ g.eachNode, Mutual (g.Step .outbound) member u ∧ g.Reach d u v

namespace ReachQuery

/-- What the answer to a query should be. -/
def Answers (g : DirectedGraph) : ReachQuery → Bitmap → Prop
  | .reachOf member d, b => ∀ v, v ∈ b ↔ InReach g d member v
  | .orReach node d duplex, b =>
    ∀ v, v ∈ b ↔ (v ∈ duplex ∨ InReach g d node v) ∧ v ≠ node
  | .xorReach node d duplex, b =>
    ∀ v, v ∈ b ↔ Xor (v ∈ duplex) (InReach g d node v ∧ v ≠ node)

/-- The walk a query makes misses nothing. -/
def Whole (s : ReachabilityCache) (q : ReachQuery) : Prop :=
  ∀ k, s.components.containingComponent q.member = some k → s.WholeWalk k q.direction

end ReachQuery

/-- No query of a sequence makes a walk that misses anything. -/
def ReachabilityCache.WholeRun : ReachabilityCache → List ReachQuery → Prop
  | _, [] => True
  | s, q :: queries => q.Whole s ∧ WholeRun (q.ask s).1 queries

/-- The check that no cursor but the root skips in any walk of a sequence
of queries. -/
def ReachabilityCache.runNeverSkips : ReachabilityCache → List ReachQuery → Bool
  | _, [] => true
  | s, q :: queries =>
    (match s.components.containingComponent q.member with
      | none => true
      | some k =>
        let s := (s.cachedComponentReach k q.direction).1
        (s.startWalk k q.direction).neverSkips q.direction (s.walkFuel k q.direction)) &&
      (q.ask s).1.runNeverSkips queries

theorem ReachabilityCache.wholeRun_of_runNeverSkips (h : s.runNeverSkips queries = true) :
    s.WholeRun queries := by
  induction queries generalizing s with
  | nil => exact trivial
  | cons q queries ih =>
    rw [runNeverSkips, Bool.and_eq_true] at h
    refine ⟨fun k hk _ => ?_, ih h.2⟩
    rw [hk] at h
    exact whole_of_neverSkips h.1

section Queries

variable {ctx : Context}

theorem componentDigraph_irrefl (hctx : ctx.Live) (hd : d ≠ .both) (x : Nat) :
    ¬ (newComponentGraph ctx g).digraph.Step d x x := by
  cases d with
  | outbound => exact fun h => ((componentDigraph_step hctx).mp h).1 rfl
  | inbound =>
    exact fun h => ((componentDigraph_step hctx).mp (DirectedGraph.step_reverse.mpr h)).1 rfl
  | both => exact absurd rfl hd

theorem inReach_iff {member v : Nat} (hd : d ≠ .both) :
    InReach g d member v ↔ member ∈ g.eachNode ∧ g.Reach d member v := by
  constructor
  · rintro ⟨u, hu, hmut, hreach⟩
    exact ⟨DirectedGraph.Reach.mem hmut.2 hu, (reach_of_mutual hd hmut).trans hreach⟩
  · rintro ⟨hm, hreach⟩
    exact ⟨member, hm, Mutual.refl member, hreach⟩

/-- The nodes of the components a node's component reaches are the nodes
the node reaches. -/
theorem mem_reach_iff (hctx : ctx.Live) (hd : d ≠ .both) {m : Nat}
    (hk : (sccState g).nodeToComp m = some k) :
    (∃ c, (newComponentGraph ctx g).digraph.Reach d k c ∧
      (sccState g).nodeToComp x = some c) ↔ g.Reach d m x := by
  have hm := (component_node hk).1
  obtain rfl := eq_component hk
  constructor
  · rintro ⟨c, hreach, hx⟩
    obtain rfl := eq_component hx
    exact (componentDigraph_reach hctx hd hm (component_node hx).1).mp hreach
  · intro hreach
    have hxn := hreach.mem hm
    exact ⟨component g x, (componentDigraph_reach hctx hd hm hxn).mpr hreach,
      lookup_eq_component hxn⟩

section

variable (hctx : ctx.Live) (hcomps : s.components = newComponentGraph ctx g) (hs : s.Exact)
include hctx hcomps hs

/-- A query put to a cache of whole reaches, if its walk misses nothing,
answers with the whole reach and leaves whole reaches only. -/
theorem reachOf_spec
    (hd : d ≠ .both) {m : Nat}
    (hwhole : ∀ k, s.components.containingComponent m = some k → s.WholeWalk k d) :
    (s.reachOfComponentContainingMember m d).1.Exact ∧
      (s.reachOfComponentContainingMember m d).1.components = s.components ∧
      ∀ v, v ∈ (s.reachOfComponentContainingMember m d).2 ↔ InReach g d m v := by
  rw [reachOfComponentContainingMember]
  cases hk : s.components.containingComponent m with
  | none =>
    refine ⟨hs, rfl, fun v => iff_of_false not_mem_new fun hv => ?_⟩
    obtain ⟨hm, _⟩ := (inReach_iff hd).mp hv
    rw [hcomps] at hk
    cases (lookup_eq_component hm).symm.trans hk
  | some k =>
    have hlook : (sccState g).nodeToComp m = some k := by
      rwa [hcomps] at hk
    have hirr : ∀ x, ¬ s.components.digraph.Step d x x := hcomps ▸ componentDigraph_irrefl hctx hd
    obtain ⟨hexact, hsame, hreach⟩ := componentReachDFS_spec hs hirr (hwhole k hk)
    refine ⟨hexact, hsame, fun v => ?_⟩
    rw [mem_componentReachToMemberReachBitmap, hsame, inReach_iff hd,
      and_iff_right (component_node hlook).1, ← mem_reach_iff hctx hd hlook, hcomps]
    rw [hcomps] at hreach
    refine exists_congr fun c => and_congr ?_ mem_members
    exact hreach c

theorem ask_spec
    {q : ReachQuery} (hd : q.direction ≠ .both) (hwhole : q.Whole s) :
    (q.ask s).1.Exact ∧ (q.ask s).1.components = s.components ∧ q.Answers g (q.ask s).2 := by
  obtain ⟨hexact, hsame, hmem⟩ := reachOf_spec hctx hcomps hs hd hwhole
  cases q with
  | reachOf member d => exact ⟨hexact, hsame, hmem⟩
  | orReach node d duplex =>
    refine ⟨hexact, hsame, fun v => ?_⟩
    show v ∈ (duplex.or _).remove node ↔ _
    rw [mem_remove, mem_or]
    exact and_congr_left' (or_congr_right (hmem v))
  | xorReach node d duplex =>
    refine ⟨hexact, hsame, fun v => ?_⟩
    show v ∈ duplex.xor (remove _ node) ↔ _
    rw [mem_xor, mem_remove]
    have hv : v ∈ (s.reachOfComponentContainingMember node d).2 ↔ InReach g d node v := hmem v
    rw [hv]
    exact Iff.rfl

theorem answers_spec
    (hd : ∀ q ∈ queries, q.direction ≠ .both) (hwhole : s.WholeRun queries) :
    List.Forall₂ (ReachQuery.Answers g) queries (s.answers queries) := by
  induction queries generalizing s with
  | nil => exact .nil
  | cons q queries ih =>
    obtain ⟨hexact, hsame, hanswer⟩ := ask_spec hctx hcomps hs (hd q (mem_cons_self ..)) hwhole.1
    exact .cons hanswer (ih (hsame.trans hcomps) hexact
      (fun q' hq' => hd q' (mem_cons_of_mem _ hq')) hwhole.2)

end

end Queries

end Dawgs.Ref

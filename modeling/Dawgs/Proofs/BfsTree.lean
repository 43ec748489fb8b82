import Dawgs.Ref.Digraph

/-!
# Breadth-first searches

The queue of `BFSTree` is always the end of the list that starts with the
start and goes on with the terminals, in the order they were found. So the
rounds so far are the list `done` in front of the queue, and there are no
more of them than nodes and one. The list is ordered by distance, and no
terminal is more than one step further away than a cursor on the queue;
when a cursor is taken off, its neighbours are at most one step further.

`Reach` is the same search without the distances.
-/

namespace Dawgs.Ref.DirectedGraph

open Lib Relation List PathTerminal Bfs Nat

variable {g : DirectedGraph} {d : Direction} {start : Nat} {done : List PathTerminal} {s : Bfs}

/-- What the iteration over the neighbours of a cursor finds. -/
theorem foldl_visit (k : Nat) (l : List Nat) (s : Bfs) :
    ∃ found : List Nat, found.Nodup ∧ (∀ v, v ∈ found ↔ v ∈ l ∧ ¬ v ∈ s.visited) ∧
      (∀ v, v ∈ (l.foldl (visit k) s).visited ↔ v ∈ s.visited ∨ v ∈ l) ∧
      (l.foldl (visit k) s).queue = s.queue ++ found.map (⟨·, k + 1⟩) ∧
      (l.foldl (visit k) s).terminals = s.terminals ++ found.map (⟨·, k + 1⟩) := by
  induction l generalizing s with
  | nil => exact ⟨[], by simp⟩
  | cons a l ih =>
    obtain ⟨found, hnodup, hfound, hvisited, hqueue, hterminals⟩ := ih (visit k s a)
    rw [foldl_cons]
    by_cases ha : a ∈ s.visited
    · have hvisit : visit k s a = s := by
        simp [visit, Bitmap.checkedAdd, ha]
      rw [hvisit] at hfound hvisited hqueue hterminals ⊢
      exact ⟨found, hnodup, by grind, by grind, hqueue, hterminals⟩
    · have hvisit : visit k s a = ⟨s.visited.add a,
          s.queue ++ [⟨a, k + 1⟩], s.terminals ++ [⟨a, k + 1⟩]⟩ := by
        simp [visit, Bitmap.checkedAdd, ha]
      rw [hvisit] at hfound hvisited hqueue hterminals ⊢
      simp only [Bitmap.mem_add] at hfound hvisited
      exact ⟨a :: found, by grind, by grind, by grind, by simpa using hqueue,
        by simpa using hterminals⟩

/-- What holds of `BFSTree` after each round, with the cursors taken off the
queue in `done`. -/
structure Bfs.Inv (g : DirectedGraph) (d : Direction) (start : Nat)
    (done : List PathTerminal) (s : Bfs) : Prop where
  split : ⟨start, 0⟩ :: s.terminals = done ++ s.queue
  visited_iff : ∀ v, v ∈ s.visited ↔ v ∈ s.terminals.map node
  nodup : (s.terminals.map node).Nodup
  sorted : s.terminals.Pairwise fun t t' => t.distance ≤ t'.distance
  sound : ∀ t ∈ s.terminals, 0 < t.distance ∧ Hops (g.Step d) t.distance start t.node
  near : ∀ t ∈ s.queue, ∀ t' ∈ s.terminals, t'.distance ≤ t.distance + 1
  expanded : ∀ t ∈ done, ∀ v, g.Step d t.node v →
    ∃ t' ∈ s.terminals, t'.node = v ∧ t'.distance ≤ t.distance + 1

/-- One round. -/
theorem Bfs.Inv.round (h : Bfs.Inv g d start done s) {t : PathTerminal}
    {rest : List PathTerminal} (hq : s.queue = t :: rest) :
    Bfs.Inv g d start (done ++ [t]) ((g.eachAdjacentNode t.node d).foldl
      (visit t.distance) { s with queue := rest }) := by
  obtain ⟨found, hnodup, hfound, hvisited, hqueue, hterminals⟩ :=
    foldl_visit t.distance (g.eachAdjacentNode t.node d)
      { s with queue := rest }
  have hsplit := h.split
  rw [hq] at hsplit
  -- The whole list is ordered, and so is what is on the queue.
  have hordered : ((⟨start, 0⟩ : PathTerminal) :: s.terminals).Pairwise
      fun t t' => t.distance ≤ t'.distance := pairwise_cons.mpr ⟨fun _ _ => zero_le _, h.sorted⟩
  rw [hsplit, pairwise_append, pairwise_cons] at hordered
  have hnear := h.near t (hq ▸ mem_cons_self)
  have ht : Hops (g.Step d) t.distance start t.node := by
    have hmem : t ∈ (⟨start, 0⟩ : PathTerminal) :: s.terminals :=
      hsplit ▸ mem_append_right _ mem_cons_self
    rcases mem_cons.mp hmem with rfl | hmem
    · rfl
    · exact (h.sound t hmem).2
  have hnew : ∀ t' ∈ found.map (⟨·, t.distance + 1⟩ : Nat → PathTerminal),
      t'.distance = t.distance + 1 ∧ t'.node ∈ found := by
    simp
  have hnodes : (found.map (⟨·, t.distance + 1⟩ : Nat → PathTerminal)).map node = found := by
    simp [Function.comp_def]
  have hold := h.near
  rw [hq] at hold
  refine ⟨?_, fun v => ?_, ?_, ?_, ?_, ?_, ?_⟩
  · rw [hterminals, hqueue, ← cons_append, hsplit]
    simp
  · rw [hvisited, hterminals, map_append, hnodes, mem_append, ← h.visited_iff, hfound]
    tauto
  · rw [hterminals, map_append, hnodes, nodup_append]
    refine ⟨h.nodup, hnodup, fun v hv w hw heq => ?_⟩
    exact ((hfound w).mp hw).2 ((h.visited_iff w).mpr (heq ▸ hv))
  · rw [hterminals, pairwise_append]
    refine ⟨h.sorted, pairwise_of_forall_mem_list fun a ha b hb => ?_, fun a ha b hb => ?_⟩
    · rw [(hnew a ha).1, (hnew b hb).1]
    · rw [(hnew b hb).1]
      exact hnear a ha
  · rw [hterminals]
    intro t' ht'
    rcases mem_append.mp ht' with ht' | ht'
    · exact h.sound t' ht'
    · rw [(hnew t' ht').1]
      exact ⟨succ_pos _, t.node, ht, ((hfound _).mp (hnew t' ht').2).1⟩
  · rw [hterminals, hqueue]
    intro q hqmem t' ht'
    rcases mem_append.mp hqmem with hqmem | hqmem
    · have hle := hordered.2.1.1 q hqmem
      rcases mem_append.mp ht' with ht' | ht'
      · exact hold q (mem_cons_of_mem _ hqmem) t' ht'
      · rw [(hnew t' ht').1]
        omega
    · rw [(hnew q hqmem).1]
      rcases mem_append.mp ht' with ht' | ht'
      · exact le_succ_of_le (hnear t' ht')
      · rw [(hnew t' ht').1]
        omega
  · rw [hterminals]
    intro u hu v hv
    rcases mem_append.mp hu with hu | hu
    · obtain ⟨t', ht', hnode⟩ := h.expanded u hu v hv
      exact ⟨t', mem_append_left _ ht', hnode⟩
    · rw [mem_singleton.mp hu] at hv ⊢
      by_cases hmem : v ∈ s.visited
      · obtain ⟨t', ht', hnode⟩ := mem_map.mp ((h.visited_iff v).mp hmem)
        exact ⟨t', mem_append_left _ ht', hnode, hnear t' ht'⟩
      · exact ⟨⟨v, t.distance + 1⟩, mem_append_right _
          (mem_map_of_mem ((hfound v).mpr ⟨hv, hmem⟩)), rfl, le_refl _⟩

/-- No more cursors are taken off than there are nodes, and the start. -/
theorem Bfs.Inv.length_le (h : Bfs.Inv g d start done s) : done.length ≤ g.numNodes + 1 := by
  have hsub : s.terminals.map node ⊆ g.eachNode := by
    intro v hv
    obtain ⟨t, ht, rfl⟩ := mem_map.mp hv
    obtain ⟨hpos, hhops⟩ := h.sound t ht
    obtain ⟨k, hk⟩ := exists_eq_succ_of_ne_zero (ne_of_gt hpos)
    rw [hk] at hhops
    obtain ⟨_, _, hstep⟩ := hhops
    exact hstep.mem.2
  have hle := (h.nodup.subperm hsub).length_le
  have hsplit := congrArg List.length h.split
  simp only [length_map, length_cons, length_append] at hle hsplit
  unfold numNodes
  omega

theorem Bfs.Inv.run {fuel : Nat} (h : Bfs.Inv g d start done s)
    (hfuel : g.numNodes + 2 ≤ done.length + fuel) :
    (Bfs.run g d fuel s).queue = [] ∧ ∃ done, Bfs.Inv g d start done (Bfs.run g d fuel s) := by
  induction fuel generalizing done s with
  | zero =>
    have := h.length_le
    omega
  | succ fuel ih =>
    rw [Bfs.run]
    split
    next hq => exact ⟨hq, done, h⟩
    next t rest hq => exact ih (h.round hq) (by simp; omega)

/-- `Reach` does the rounds of `BFSTree`. -/
theorem reachRun_eq (fuel : Nat) (s : Bfs) :
    g.reachRun d fuel (s.visited, s.queue.map node) = ((Bfs.run g d fuel s).visited,
        (Bfs.run g d fuel s).queue.map node) := by
  have hfold : ∀ (k : Nat) (l : List Nat) (s : Bfs),
      l.foldl reachVisit (s.visited, s.queue.map node) = ((l.foldl (visit k) s).visited,
          (l.foldl (visit k) s).queue.map node) := by
    intro k l
    induction l with
    | nil => exact fun _ => rfl
    | cons a l ih =>
      intro s
      rw [foldl_cons, foldl_cons, ← ih]
      unfold reachVisit visit
      split <;> simp
  induction fuel generalizing s with
  | zero => rfl
  | succ fuel ih =>
    rw [reachRun.eq_def, Bfs.run]
    cases hq : s.queue with
    | nil => simp [hq]
    | cons t rest =>
      simp only [map_cons]
      rw [← ih, ← hfold]

/-- `BFSTree` ends. It lists a node once, in the order of the distances, and
with a distance exactly if that is the least number of steps, at least one,
from the start to the node. `Reach` ends, with the nodes that can be reached
in one or more steps. -/
theorem bfsTree_correct (g : DirectedGraph) (start : Nat) (d : Direction) :
    (g.bfs start d).queue = [] ∧ ((g.bfsTree start d).map node).Nodup ∧
    ((g.bfsTree start d).Pairwise fun t t' => t.distance ≤ t'.distance) ∧
    (∀ v k, (⟨v, k⟩ : PathTerminal) ∈ g.bfsTree start d ↔ (0 < k ∧ Hops (g.Step d) k start v) ∧
        ∀ n, 0 < n → Hops (g.Step d) n start v → k ≤ n) ∧ (g.reach start d).2 = [] ∧
    ∀ v, v ∈ (g.reach start d).1 ↔ TransGen (g.Step d) start v := by
  have hstart : Bfs.Inv g d start [] ⟨Bitmap.new, [⟨start, 0⟩], []⟩ :=
    ⟨rfl, by simp, .nil, .nil, nofun, nofun, nofun⟩
  obtain ⟨hq, done, h⟩ := hstart.run (Nat.le_add_left ..)
  have hq : (g.bfs start d).queue = [] := hq
  have h : Bfs.Inv g d start done (g.bfs start d) := h
  have hdone := h.split
  rw [hq, append_nil] at hdone
  have hwalk : ∀ n v, Hops (g.Step d) n start v → ∃ t ∈ done, t.node = v ∧ t.distance ≤ n := by
    intro n
    induction n with
    | zero =>
      rintro v rfl
      exact ⟨_, hdone ▸ mem_cons_self, rfl, le_refl 0⟩
    | succ n ih =>
      rintro v ⟨u, hu, hstep⟩
      obtain ⟨t, ht, rfl, hle⟩ := ih u hu
      obtain ⟨t', ht', hnode, hle'⟩ := h.expanded t ht v hstep
      exact ⟨t', hdone ▸ mem_cons_of_mem _ ht', hnode, by omega⟩
  have hfound : ∀ n v, Hops (g.Step d) (n + 1) start v →
      ∃ t ∈ g.bfsTree start d, t.node = v ∧ t.distance ≤ n + 1 := by
    rintro n v ⟨u, hu, hstep⟩
    obtain ⟨t, ht, rfl, hle⟩ := hwalk n u hu
    obtain ⟨t', ht', hnode, hle'⟩ := h.expanded t ht v hstep
    exact ⟨t', ht', hnode, by omega⟩
  have hreach : g.reach start d = ((g.bfs start d).visited, (g.bfs start d).queue.map node) :=
    reachRun_eq (g.numNodes + 2) ⟨Bitmap.new, [⟨start, 0⟩], []⟩
  refine ⟨hq, h.nodup, h.sorted, fun v k => ⟨fun hk => ⟨h.sound _ hk, ?_⟩, ?_⟩,
    by rw [hreach, hq]; rfl, fun v => ?_⟩
  · intro n hn hhops
    obtain ⟨n, rfl⟩ := exists_eq_succ_of_ne_zero (ne_of_gt hn)
    obtain ⟨t, ht, hnode, hle⟩ := hfound n v hhops
    rw [inj_on_of_nodup_map h.nodup ht hk hnode] at hle
    exact hle
  · rintro ⟨⟨hpos, hhops⟩, hleast⟩
    obtain ⟨k, rfl⟩ := exists_eq_succ_of_ne_zero (ne_of_gt hpos)
    obtain ⟨⟨_, n⟩, ht, rfl, hle⟩ := hfound k v hhops
    obtain ⟨hpos', hhops'⟩ := h.sound _ ht
    have heq : n = k + 1 := le_antisymm hle (hleast n hpos' hhops')
    exact heq ▸ ht
  · rw [hreach, transGen_iff_hops, h.visited_iff, mem_map]
    constructor
    · rintro ⟨t, ht, rfl⟩
      obtain ⟨hpos, hhops⟩ := h.sound t ht
      obtain ⟨n, hn⟩ := exists_eq_succ_of_ne_zero (ne_of_gt hpos)
      rw [hn] at hhops
      exact ⟨n, hhops⟩
    · rintro ⟨n, hn⟩
      obtain ⟨t, ht, hnode, -⟩ := hfound n v hn
      exact ⟨t, ht, hnode⟩

end Dawgs.Ref.DirectedGraph

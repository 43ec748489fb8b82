import Dawgs.Ref.Sieve

/-!
# The Sieve cache over whole runs

What the structure carries holds of every state by construction: the queue
lists the stored keys once each, the hand is on it, and the size counts it.
Two things are left.

The first is the loop of `evict`. It has no bound in the source, and the
model gives it one more turn than there are entries. A turn unmarks the
entry under the hand, so every turn lowers the number of marked entries and
none raises it, wherever the hand goes. `sweeps_sweep` says that the bound
is never what ends the loop: it ends at an entry that is not marked.

The second is what a key holds. A `Put` is the only method that sets a
value, so whatever is stored under a key is the value of the last `Put`
of that key (`lookup_run`), by induction on the run.
-/

namespace Dawgs.Ref

open List Function

/-- A call of one of the methods. -/
inductive SieveOp (K V : Type) where
  | put (key : K) (value : V)
  | get (key : K)
  | delete (key : K)

namespace Sieve

variable {K V : Type} [DecidableEq K] (s : Sieve K V)

/-- The state after a call. -/
def apply : SieveOp K V → Sieve K V
  | .put key value => s.put key value
  | .get key => (s.get key).1
  | .delete key => s.delete key

/-- The state after a run of calls. -/
def run (ops : List (SieveOp K V)) : Sieve K V := ops.foldl apply s

theorem run_concat (ops : List (SieveOp K V))
    (op : SieveOp K V) : s.run (ops ++ [op]) = (s.run ops).apply op := by
  rw [run, foldl_append]
  rfl

/-- The capacity `NewSieve` settles on. -/
def effective (capacity : Int) : Nat :=
  if capacity ≤ 0 then 1 else capacity.toNat

/-! ## The loop of an eviction -/

/-- The loop of `evict` as the source has it, without a bound. -/
inductive Sweeps (queue : List K) (back : K) : (K → Option (Entry V)) → K →
    (K → Option (Entry V)) → K → Prop
  | stop {store : K → Option (Entry V)} {hand : K} {entry : Entry V}
      (hentry : store hand = some entry) (hvisited : entry.visited = false) :
      Sweeps queue back store hand store hand
  | turn {store store' : K → Option (Entry V)} {hand victim : K}
      {entry : Entry V} (hentry : store hand = some entry) (hvisited : entry.visited = true)
      (hrest : Sweeps queue back (mark store hand false)
        ((prev queue hand).getD back) store' victim) :
      Sweeps queue back store hand store' victim

/-- Whether the entry of a key is marked visited. -/
def marked (store : K → Option (Entry V)) (k : K) : Bool := (store k).any Entry.visited

theorem marked_mark (store : K → Option (Entry V)) (hand k : K) :
    marked (mark store hand false) k = (marked store k && decide (k ≠ hand)) := by
  rw [marked, marked, mark]
  by_cases hk : k = hand
  · subst hk
    cases store k <;> simp
  · rw [update_of_ne hk]
    simp [hk]

variable {store : K → Option (Entry V)} {queue : List K} {hand back : K}

/-- Unmarking a marked entry lowers the number of marked ones. -/
theorem countP_marked_lt (hmem : hand ∈ queue) (hmarked : marked store hand = true) :
    queue.countP (marked (mark store hand false)) < queue.countP (marked store) := by
  induction queue with
  | nil => cases hmem
  | cons k queue ih =>
    have hle : queue.countP (marked (mark store hand false)) ≤ queue.countP (marked store) := by
      refine countP_mono_left fun a _ ha => ?_
      rw [marked_mark, Bool.and_eq_true] at ha
      exact ha.1
    rw [countP_cons, countP_cons, marked_mark]
    by_cases hk : k = hand
    · subst hk
      simp [hmarked]
      omega
    · have hlt := ih ((mem_cons.mp hmem).resolve_left (Ne.symm hk))
      simp [hk]
      omega

/-- With more turns than there are marked entries, the loop ends by
itself. -/
theorem sweeps_sweep (hback : back ∈ queue) {fuel : Nat} (hhand : hand ∈ queue)
    (hstored : ∀ k ∈ queue, (store k).isSome) (hfuel : queue.countP (marked store) < fuel) :
    Sweeps queue back store hand (sweep queue back fuel store hand).1
      (sweep queue back fuel store hand).2 := by
  induction fuel generalizing store hand with
  | zero => omega
  | succ fuel ih =>
    obtain ⟨entry, hentry⟩ := Option.isSome_iff_exists.mp (hstored hand hhand)
    simp only [sweep, hentry]
    cases hvisited : entry.visited with
    | false =>
      exact .stop hentry hvisited
    | true =>
      have hmarked : marked store hand = true := by
        rw [marked, hentry]
        exact hvisited
      have hlt := countP_marked_lt hhand hmarked
      have hfew : queue.countP (marked (mark store hand false)) < fuel := by
        omega
      refine .turn hentry hvisited (ih (step_mem hback) ?_ hfew)
      intro k hk
      rw [isSome_mark]
      exact hstored k hk

/-- The loop ends at an entry that is not marked. -/
theorem unmarked_of_sweeps {store' : K → Option (Entry V)} {victim : K}
    (h : Sweeps queue back store hand store' victim) :
    ∃ entry, store' victim = some entry ∧ entry.visited = false := by
  induction h with
  | stop hentry hvisited => exact ⟨_, hentry, hvisited⟩
  | turn _ _ _ ih => exact ih

/-- An eviction from `s` runs its loop to the end, and removes the entry it
ends at and no other. -/
structure Evicts (s : Sieve K V) (victim : K) : Prop where
  mem : victim ∈ s.queue
  ends : ∃ (hne : s.queue ≠ []) (store : K → Option (Entry V)),
    Sweeps s.queue (s.queue.getLast hne) s.store (s.startHand hne) store victim ∧
      (∃ entry, store victim = some entry ∧ entry.visited = false) ∧
      s.evict.store = update store victim none
  queue : s.evict.queue = s.queue.erase victim

theorem exists_evicts (hne : s.queue ≠ []) : ∃ victim, s.Evicts victim := by
  have hback := getLast_mem hne
  have hsweeps := sweeps_sweep hback (s.startHand_mem hne) (fun k hk => (s.stored k).mpr hk)
    (Nat.lt_succ_of_le (countP_le_length (l := s.queue)))
  refine ⟨_, sweep_mem hback _ _ (s.startHand_mem hne),
    ⟨hne, _, hsweeps, unmarked_of_sweeps hsweeps, ?_⟩, ?_⟩
  · rw [evict, dif_neg hne]
    rfl
  · rw [evict, dif_neg hne]
    rfl

/-! ## What a key holds -/

/-- The value of the last `Put` of a key in a run. -/
def lastPut (key : K) (ops : List (SieveOp K V)) : Option V := ops.foldl (fun last op =>
    match op with
    | .put k value => if k = key then some value else last
    | _ => last) none

theorem lookup_delete {key k : K} {v : V}
    (h : (s.delete key).lookup k = some v) : s.lookup k = some v := by
  rw [delete] at h
  split at h
  · split at h
    · exact lookup_removeEntry (s.stepHand key) _ _ h
    · exact lookup_removeEntry s _ _ h
  · exact h

theorem lookup_put_self (key : K) (value : V) : (s.put key value).lookup key = some value := by
  rw [put]
  split
  · show (update s.store key (some ⟨value, true⟩) key).map Entry.value = some value
    rw [update_self]
    rfl
  · show (update s.makeRoom.store key (some ⟨value, false⟩) key).map Entry.value = some value
    rw [update_self]
    rfl

theorem lookup_run (capacity : Int) (ops : List (SieveOp K V)) {k : K} {v : V}
    (h : ((new capacity).run ops).lookup k = some v) : lastPut k ops = some v := by
  induction ops using List.reverseRecOn generalizing v with
  | nil =>
    cases h
  | append_singleton ops op ih =>
    rw [run_concat] at h
    rw [lastPut, foldl_append]
    cases op with
    | get key => exact ih ((lookup_get _ key k).symm.trans h)
    | delete key => exact ih (lookup_delete _ h)
    | put key value =>
      show (if key = k then some value else lastPut k ops) = some v
      by_cases hk : key = k
      · subst hk
        rw [if_pos rfl, ← h]
        exact (lookup_put_self _ key value).symm
      · rw [if_neg hk]
        rcases lookup_put _ h with ⟨heq, _⟩ | h
        · exact absurd heq.symm hk
        · exact ih h

/-! ## Runs -/

theorem capacity_apply (op : SieveOp K V) : (s.apply op).capacity = s.capacity := by
  cases op with
  | get key =>
    rw [apply]
    fun_cases get s key <;> rfl
  | delete key =>
    rw [apply]
    fun_cases delete s key <;> rfl
  | put key value =>
    rw [apply, put]
    split
    · rfl
    · show s.makeRoom.capacity = s.capacity
      rw [makeRoom]
      split
      · exact s.evict_capacity
      · rfl

theorem capacity_run (ops : List (SieveOp K V)) : (s.run ops).capacity = s.capacity := by
  induction ops using List.reverseRecOn with
  | nil => rfl
  | append_singleton ops op ih => rw [run_concat, capacity_apply, ih]

/-- What is promised of the state `s` of a cache of this capacity after the
calls `ops`. -/
structure Sound (capacity : Int) (ops : List (SieveOp K V)) (s : Sieve K V) : Prop where
  stored : ∀ k, (s.store k).isSome ↔ k ∈ s.queue
  nodup : s.queue.Nodup
  bound : s.queue.length ≤ effective capacity
  hand : ∀ k, s.hand = some k → k ∈ s.queue
  size : s.size = s.queue.length
  evicts : s.queue.length ≥ effective capacity → ∃ victim, s.Evicts victim
  answers : ∀ k v, (s.get k).2 = some v → lastPut k ops = some v

/-- After every run of calls on a new cache of any capacity, the promises
hold. -/
theorem run_sound (capacity : Int) (ops : List (SieveOp K V)) :
    Sound capacity ops ((new capacity).run ops) := by
  have hcapacity : ((new capacity).run ops).capacity = effective capacity := capacity_run _ ops
  have hpos := ((new capacity).run ops).capacity_pos
  refine ⟨Sieve.stored _, Sieve.nodup _, ?_, Sieve.hand_mem _, Sieve.size_eq _, ?_, ?_⟩
  · rw [← hcapacity]
    exact Sieve.bound _
  · intro hfull
    refine exists_evicts _ fun hnil => ?_
    rw [hnil, length_nil] at hfull
    omega
  · intro k v h
    rw [get_snd] at h
    exact lookup_run capacity ops h

end Sieve

end Dawgs.Ref

import Mathlib

/-!
# The Sieve cache

`cache.Sieve` is a map with a bound. The bound is kept by a queue of keys,
newest in front, and a hand that walks the queue from its back; an entry
the hand finds marked visited is unmarked and spared, the first one found
unmarked goes.

A queue element is named by its key, which a queue without repetitions
allows, so the hand is a key as well. What the methods rely on and never
check is in the structure: the queue lists the stored keys once each, the
hand is on the queue, the queue is within a capacity that is not zero, and
the size counter counts the queue. The counters are the embedded `Stats`.

Every method runs under the lock, so one is a function of the state.
-/

namespace Dawgs.Ref

open List Function

/-- `entry`; its key is where it is stored. -/
structure Entry (V : Type) where
  value : V
  visited : Bool

section

variable {K : Type} [DecidableEq K]

/-- The element in front of `k` in a list, nothing for the first one. -/
def prev : List K → K → Option K
  | a :: b :: l, k => if b = k then some a else prev (b :: l) k
  | _, _ => none

theorem mem_of_prev {l : List K} {k p : K}
    (h : prev l k = some p) : p ∈ l := by
  induction l with
  | nil => cases h
  | cons a l ih =>
    cases l with
    | nil => cases h
    | cons b l =>
      rw [prev] at h
      split at h
      · cases h
        exact mem_cons_self ..
      · exact mem_cons_of_mem _ (ih h)

theorem prev_ne {l : List K} (hl : l.Nodup)
    {k p : K} (h : prev l k = some p) : p ≠ k := by
  induction l with
  | nil => cases h
  | cons a l ih =>
    cases l with
    | nil => cases h
    | cons b l =>
      rw [prev] at h
      split at h
      next hb =>
        cases h
        intro heq
        subst heq
        subst hb
        exact (nodup_cons.mp hl).1 (mem_cons_self ..)
      · exact ih (nodup_cons.mp hl).2 h

end

/-- `Sieve`. -/
structure Sieve (K V : Type) [DecidableEq K] where
  capacity : Nat
  store : K → Option (Entry V)
  queue : List K
  hand : Option K
  hits : Nat
  misses : Nat
  size : Nat
  capacity_pos : 0 < capacity
  nodup : queue.Nodup
  stored : ∀ k, (store k).isSome ↔ k ∈ queue
  hand_mem : ∀ k, hand = some k → k ∈ queue
  bound : queue.length ≤ capacity
  size_eq : size = queue.length

namespace Sieve

variable {K V : Type} [DecidableEq K]

/-- `NewSieve`: a capacity that is not positive becomes one. -/
def new (capacity : Int) : Sieve K V where
  capacity := if capacity ≤ 0 then 1 else capacity.toNat
  store := fun _ => none
  queue := []
  hand := none
  hits := 0
  misses := 0
  size := 0
  capacity_pos := by split <;> omega
  nodup := nodup_nil
  stored := by simp
  hand_mem := by simp
  bound := Nat.zero_le _
  size_eq := rfl

variable (store : K → Option (Entry V)) (s : Sieve K V) (key : K)

/-- Marking an entry visited or unvisited. -/
def mark (visited : Bool) : K → Option (Entry V) :=
  update store key ((store key).map fun entry => { entry with visited })

theorem value_mark (visited : Bool) (k : K) : (mark store key visited k).map Entry.value =
      (store k).map Entry.value := by
  rw [mark]
  by_cases hk : k = key
  · subst hk
    rw [update_self, Option.map_map]
    rfl
  · rw [update_of_ne hk]

omit [DecidableEq K] in
theorem isSome_of_value {a b : Option (Entry V)}
    (h : a.map Entry.value = b.map Entry.value) : a.isSome = b.isSome := by
  rw [← Option.isSome_map, h, Option.isSome_map]

theorem isSome_mark (visited : Bool)
    (k : K) : (mark store key visited k).isSome = (store k).isSome :=
  isSome_of_value (value_mark ..)

/-- `Get`. -/
def get : Sieve K V × Option V :=
  match s.store key with
  | some entry =>
    ({ s with
      store := mark s.store key true
      hits := s.hits + 1
      stored := fun k => by rw [isSome_mark]; exact s.stored k },
      some entry.value)
  | none => ({ s with misses := s.misses + 1 }, none)

/-- `removeEntry`, with the hand already off the entry. -/
def removeEntry (hkey : key ∈ s.queue) (hhand : s.hand ≠ some key) : Sieve K V :=
  { s with
    queue := s.queue.erase key
    store := update s.store key none
    size := s.size - 1
    nodup := s.nodup.erase key
    stored := by
      intro k
      by_cases hk : k = key
      · subst hk
        simp [s.nodup.not_mem_erase]
      · rw [update_of_ne hk, mem_erase_of_ne hk]
        exact s.stored k
    hand_mem := by
      intro k hk
      have hne : k ≠ key := by
        intro heq
        subst heq
        exact hhand hk
      exact (mem_erase_of_ne hne).mpr (s.hand_mem k hk)
    bound := Nat.le_trans length_erase_le s.bound
    size_eq := by rw [length_erase_of_mem hkey, s.size_eq] }

/-- The hand one step towards the front. -/
def stepHand : Sieve K V :=
  { s with
    hand := prev s.queue key
    hand_mem := fun _ hk => mem_of_prev hk }

/-- `Delete`. -/
def delete : Sieve K V :=
  if hkey : (s.store key).isSome then
    if hhand : s.hand = some key then
      (s.stepHand key).removeEntry key ((s.stored key).mp hkey) fun h => prev_ne s.nodup h rfl
    else s.removeEntry key ((s.stored key).mp hkey) hhand
  else s

/-- The loop of `evict`: unmark visited entries from the hand on, wrapping
around at the front. It ends at the entry to remove. -/
def sweep (queue : List K) (back : K) : Nat → (K → Option (Entry V)) → K →
    (K → Option (Entry V)) × K
  | 0, store, hand => (store, hand)
  | fuel + 1, store, hand =>
    match store hand with
    | some entry =>
      if entry.visited then
        sweep queue back fuel (mark store hand false) ((prev queue hand).getD back)
      else (store, hand)
    | none => (store, hand)

variable {queue : List K} {back k : K} {v : V}

theorem value_sweep (fuel : Nat) (store : K → Option (Entry V)) (hand k : K) :
    ((sweep queue back fuel store hand).1 k).map Entry.value = (store k).map Entry.value := by
  induction fuel generalizing store hand with
  | zero => rfl
  | succ fuel ih =>
    rw [sweep]
    split
    · split
      · rw [ih, value_mark]
      · rfl
    · rfl

/-- Wherever the hand stands, one step takes it to a stored entry. -/
theorem step_mem {hand : K} (hback : back ∈ queue) : (prev queue hand).getD back ∈ queue := by
  cases hp : prev queue hand with
  | none => exact hback
  | some p => exact mem_of_prev hp

theorem sweep_mem (hback : back ∈ queue) (fuel : Nat) (store : K → Option (Entry V)) {hand : K}
    (hhand : hand ∈ queue) : (sweep queue back fuel store hand).2 ∈ queue := by
  induction fuel generalizing store hand with
  | zero => exact hhand
  | succ fuel ih =>
    rw [sweep]
    split
    · split
      · exact ih _ (step_mem hback)
      · exact hhand
    · exact hhand

/-- The state after the loop of `evict`. -/
def swept (back hand : K) : Sieve K V :=
  { s with
    store := (sweep s.queue back (s.queue.length + 1) s.store hand).1
    stored := fun k => by rw [isSome_of_value (value_sweep ..)]; exact s.stored k }

/-- Where `evict` starts: the hand, or the back of the queue without one. -/
def startHand (h : s.queue ≠ []) : K := s.hand.getD (s.queue.getLast h)

theorem startHand_mem (h : s.queue ≠ []) : s.startHand h ∈ s.queue := by
  rw [startHand]
  cases hs : s.hand with
  | none => exact getLast_mem h
  | some k => exact s.hand_mem k hs

/-- `evict`. On an empty queue the source would dereference a nil element;
the capacity is positive, so it is never called on one. -/
def evict : Sieve K V :=
  if h : s.queue = [] then s
  else
    let back := s.queue.getLast h
    let hand := s.startHand h
    let victim := (sweep s.queue back (s.queue.length + 1) s.store hand).2
    ((s.swept back hand).stepHand victim).removeEntry victim
      (sweep_mem (getLast_mem h) _ _ (s.startHand_mem h)) fun hv => prev_ne s.nodup hv rfl

theorem evict_queue :
    s.evict.queue.length = s.queue.length - 1 ∧ ∀ k ∈ s.evict.queue, k ∈ s.queue := by
  rw [evict]
  split
  next h => rw [h]; exact ⟨rfl, fun _ hk => hk⟩
  next h =>
    refine ⟨length_erase_of_mem ?_, fun k hk => mem_of_mem_erase hk⟩
    exact sweep_mem (getLast_mem h) _ _ (s.startHand_mem h)

theorem evict_capacity : s.evict.capacity = s.capacity := by
  rw [evict]
  split <;> rfl

/-- The room `putEntry` makes before it inserts. -/
def makeRoom : Sieve K V :=
  if s.queue.length ≥ s.capacity then s.evict else s

theorem makeRoom_lt : s.makeRoom.queue.length < s.makeRoom.capacity := by
  rw [makeRoom]
  have hpos := s.capacity_pos
  have hbound := s.bound
  split
  · rw [(s.evict_queue).1, s.evict_capacity]
    omega
  · omega

theorem makeRoom_queue (hk : k ∈ s.makeRoom.queue) : k ∈ s.queue := by
  rw [makeRoom] at hk
  split at hk
  · exact (s.evict_queue).2 k hk
  · exact hk

/-- The insertion of `putEntry`. -/
def pushFront (value : V) (hkey : ¬ key ∈ s.queue)
    (hroom : s.queue.length < s.capacity) : Sieve K V :=
  { s with
    queue := key :: s.queue
    store := update s.store key (some ⟨value, false⟩)
    size := s.size + 1
    nodup := nodup_cons.mpr ⟨hkey, s.nodup⟩
    stored := by
      intro k
      by_cases hk : k = key
      · subst hk
        simp
      · rw [update_of_ne hk, s.stored k]
        simp [hk]
    hand_mem := fun k hk => mem_cons_of_mem _ (s.hand_mem k hk)
    bound := hroom
    size_eq := by rw [s.size_eq, length_cons] }

/-- `putEntry`. -/
def putEntry (value : V) (hkey : ¬ key ∈ s.queue) : Sieve K V :=
  s.makeRoom.pushFront key value (fun h => hkey (s.makeRoom_queue h)) s.makeRoom_lt

/-- `Put`. -/
def put (value : V) : Sieve K V :=
  if hkey : (s.store key).isSome then
    { s with
      store := update s.store key (some ⟨value, true⟩)
      stored := by
        intro k
        by_cases hk : k = key
        · subst hk
          simp [(s.stored k).mp hkey]
        · rw [update_of_ne hk]
          exact s.stored k }
  else s.putEntry key value fun h => hkey ((s.stored key).mpr h)

/-! ## What a key holds

The value stored under a key, and what the methods do to it. -/

/-- The value stored under a key. -/
def lookup : Option V := (s.store key).map Entry.value

theorem get_snd : (s.get key).2 = s.lookup key := by
  rw [get, lookup]
  cases s.store key <;> rfl

theorem lookup_get (key k : K) : (s.get key).1.lookup k = s.lookup k := by
  rw [get]
  split
  · exact value_mark ..
  · rfl

theorem lookup_removeEntry {key : K} (hkey : key ∈ s.queue) (hhand : s.hand ≠ some key)
    (h : (s.removeEntry key hkey hhand).lookup k = some v) : s.lookup k = some v := by
  have h' : (update s.store key none k).map Entry.value = some v := h
  by_cases hk : k = key
  · subst hk
    rw [update_self] at h'
    cases h'
  · rwa [update_of_ne hk] at h'

/-- An eviction changes no value that stays. -/
theorem lookup_evict (h : s.evict.lookup k = some v) : s.lookup k = some v := by
  rw [evict] at h
  split at h
  · exact h
  · have hswept := lookup_removeEntry _ _ _ h
    rw [lookup, ← value_sweep (s.queue.length + 1) s.store]
    exact hswept

/-- What is stored after a `Put` was stored before or is what was put. -/
theorem lookup_put {key : K} {value : V} (h : (s.put key value).lookup k = some v) :
    k = key ∧ v = value ∨ s.lookup k = some v := by
  rw [put] at h
  split at h
  · have h' : (update s.store key (some ⟨value, true⟩) k).map Entry.value = some v := h
    by_cases hk : k = key
    · subst hk
      rw [update_self] at h'
      cases h'
      exact .inl ⟨rfl, rfl⟩
    · rw [update_of_ne hk] at h'
      exact .inr h'
  · have h' : (update s.makeRoom.store key (some ⟨value, false⟩) k).map Entry.value = some v := h
    by_cases hk : k = key
    · subst hk
      rw [update_self] at h'
      cases h'
      exact .inl ⟨rfl, rfl⟩
    · rw [update_of_ne hk] at h'
      have hroom : s.makeRoom.lookup k = some v := h'
      rw [makeRoom] at hroom
      split at hroom
      · exact .inr (s.lookup_evict hroom)
      · exact .inr hroom

end Sieve

end Dawgs.Ref

import Dawgs.Ref.TranslationCache

/-!
# The steps of the translation cache

`System.step` has eleven events and about twenty ways to go. Seen from what
the goroutines share there are six. Most moves only take one goroutine from
one place to the next. Two reach the pending map and the heap: registering
a build, and the end of a registered build. The other three are the end of
a context, `Invalidate` and `Close`. `Change` lists the six with all they
do, `change_of_step` says there are no others, and the invariants of the
cache are proved over `Change` alone.

A move is recorded by `Move` with the place it starts from, the place it
leads to and what has been checked on the way. That the shared state is as
before is `Shares`, where entries count as the same when every key finds
the same thing: a lookup sets marks in the Sieve.
-/

namespace Dawgs.Ref.TranslationCache

open Function

variable {V D : Type} [DecidableEq D] {s : System V D}

/-- The goroutine whose step an event is. -/
def Event.owner : Event V → Option Nat
  | .request t _ | .check t | .enter t | .wake t | .cancel t | .build t _
  | .finish t | .buildUncached t _ => some t
  | .endContext _ | .invalidate | .close => none

def Event.isInvalidate : Event V → Bool
  | .invalidate => true
  | _ => false

/-- What goroutines share is as it was. -/
structure Shares (s s' : System V D) : Prop where
  capacity : s'.cache.capacity = s.cache.capacity
  closed : s'.cache.closed = s.cache.closed
  generation : s'.cache.schemaGeneration = s.cache.schemaGeneration
  insertions : s'.cache.stats.insertions = s.cache.stats.insertions
  pending : s'.cache.pending = s.cache.pending
  lookup : ∀ k, s'.cache.lookup k = s.cache.lookup k
  calls : s'.calls = s.calls
  nextCall : s'.nextCall = s.nextCall

/-- The moves of a goroutine that leave alone what is shared: where it was,
by which event, and where it is then. -/
inductive Move (s : System V D) (t : Nat) : Event V → Frame V D → Prop
  | topped {last r key} (h : s.frames t = .ready last)
      (hkey : key.schemaGeneration = s.cache.schemaGeneration) :
      Move s t (.request t r) (.top r key)
  | bypassed {last r key} (h : s.frames t = .ready last)
      (hkey : maxCachedCypherBytes < key.querySize ∨ s.cache.capacity = 0) :
      Move s t (.request t r) (.uncached r key .bypassed)
  | stopped {r key last} (h : s.frames t = .top r key) : Move s t (.check t) (.ready last)
  | passed {r key} (h : s.frames t = .top r key) : Move s t (.check t) (.locking r key)
  | shut {r key} (h : s.frames t = .locking r key)
      (hclosed : s.cache.closed) : Move s t (.enter t) (.uncached r key .closed)
  | hit {r key last} (h : s.frames t = .locking r key) : Move s t (.enter t) (.ready last)
  | waits {r key c} (h : s.frames t = .locking r key) (hc : s.cache.pending.lookup key = some c) :
      Move s t (.enter t) (.waiting r key c)
  | retries {r key c} (h : s.frames t = .waiting r key c) : Move s t (.wake t) (.top r key)
  | released {r key c} (h : s.frames t = .waiting r key c)
      (hdone : (s.calls c).done) (hreusable : (s.calls c).reusable = false) :
      Move s t (.wake t) (.uncached r key (.released c))
  | canceled {r key c last} (h : s.frames t = .waiting r key c) : Move s t (.cancel t) (.ready last)
  | built {r key c o} (h : s.frames t = .building r key c) :
      Move s t (.build t o) (.built r key c o)
  | answered {r key why o last} (h : s.frames t = .uncached r key why) :
      Move s t (.buildUncached t o) (.ready last)

/-- A goroutine registers a build. -/
structure Led (s s' : System V D) (t : Nat) (r : TranslationRequest V)
    (key : TranslationCacheKey D) : Prop where
  frame : s.frames t = .locking r key
  opened : s.cache.closed = false
  none : s.cache.pending.lookup key = none
  capacity : s'.cache.capacity = s.cache.capacity
  closed : s'.cache.closed = s.cache.closed
  generation : s'.cache.schemaGeneration = s.cache.schemaGeneration
  insertions : s'.cache.stats.insertions = s.cache.stats.insertions
  pending : s'.cache.pending = s.cache.pending.insert key s.nextCall
  lookup : ∀ k, s'.cache.lookup k = s.cache.lookup k
  calls : s'.calls = update s.calls s.nextCall ⟨false, false⟩
  nextCall : s'.nextCall = s.nextCall + 1
  frames : s'.frames = update s.frames t (.building r key s.nextCall)
  ended : s'.ended = s.ended

/-- The second stretch under the lock, for a call whose build is over. -/
structure Settled (s s' : System V D) (r : TranslationRequest V)
    (key : TranslationCacheKey D) (c : Nat) (built : BuildReturn V) :
    Prop where
  capacity : s'.cache.capacity = s.cache.capacity
  closed : s'.cache.closed = s.cache.closed
  generation : s'.cache.schemaGeneration = s.cache.schemaGeneration
  insertions : s'.cache.stats.insertions = s.cache.stats.insertions ∨ (s.stored r key built).isSome
  pending : s'.cache.pending = if s.cache.pending.lookup key = some c then s.cache.pending.erase key
    else s.cache.pending
  lookup : ∀ k e, s'.cache.lookup k = some e → s.cache.lookup k = some e ∨
    k = key ∧ s.stored r key built = some e
  calls : ∃ reusable, s'.calls = update s.calls c ((s.calls c).finish reusable)
  nextCall : s'.nextCall = s.nextCall

/-- A registered build is over, and the goroutine returns or tries again
under the current generation. -/
structure Finished (s s' : System V D) (t : Nat) (r : TranslationRequest V)
    (key : TranslationCacheKey D) (c : Nat) (o : BuildOutcome V) : Prop where
  frame : s.frames t = .built r key c o
  settled : Settled s s' r key c (callTranslationBuild o)
  frames : ∃ f, s'.frames = update s.frames t f ∧
    ((∃ last, f = .ready last) ∨ ∃ key' : TranslationCacheKey D,
      key'.schemaGeneration = s.cache.schemaGeneration ∧ f = .top r key')
  ended : s'.ended = s.ended

/-- What a step can do. -/
inductive Change (s : System V D) : Event V → System V D → Prop
  | moved {t e f s'} (hmove : Move s t e f) (hshares : Shares s s')
      (hframes : s'.frames = update s.frames t f)
      (hended : ∀ u, u ≠ t → s'.ended u = s.ended u) : Change s e s'
  | led {t r key s'} (h : Led s s' t r key) : Change s (.enter t) s'
  | finished {t r key c o s'} (h : Finished s s' t r key c o) : Change s (.finish t) s'
  | endContext {t} : Change s (.endContext t) { s with ended := update s.ended t true }
  | invalidate : Change s .invalidate { s with cache := s.cache.invalidate }
  | close : Change s .close s.close

theorem lookup_touch (s : TranslationCache D) (key k : TranslationCacheKey D) :
    (s.touch key).lookup k = s.lookup k := by
  show (s.entries.map _).bind _ = s.entries.bind _
  cases s.entries with
  | none => rfl
  | some sieve => exact sieve.lookup_get key k

variable {key k : TranslationCacheKey D} {s' : System V D} {r : TranslationRequest V}

theorem lookup_put (s : TranslationCache D) {entry e : TranslationCacheEntry}
    (h : (s.put key entry).lookup k = some e) : s.lookup k = some e ∨ k = key ∧ entry = e := by
  have h' : (s.entries.map fun sieve => sieve.put key entry).bind
      (fun sieve => sieve.lookup k) = some e := h
  rw [lookup]
  cases hs : s.entries with
  | none =>
    rw [hs] at h'
    cases h'
  | some sieve =>
    rw [hs] at h'
    rcases sieve.lookup_put h' with ⟨hk, he⟩ | h
    · exact .inr ⟨hk, he.symm⟩
    · exact .inl h

theorem lookup_invalidate {s : TranslationCache D}
    {k : TranslationCacheKey D} : s.invalidate.lookup k = none := by
  rw [lookup, invalidate]
  split
  · rfl
  next h =>
    have hlive := s.live
    have hnone : s.entries = none := by
      rw [← Option.not_isSome_iff_eq_none, hlive]
      rwa [Bool.and_comm] at h
    rw [hnone]
    rfl

/-! ### The helpers of a step -/

namespace Shares

theorem refl (s : System V D) : Shares s s := ⟨rfl, rfl, rfl, rfl, rfl, fun _ => rfl, rfl, rfl⟩

/-- Only the goroutine's place and the counters change. -/
theorem goto (s : System V D) (t : Nat) (f : Frame V D) :
    Shares s (s.goto t f) := ⟨rfl, rfl, rfl, rfl, rfl, fun _ => rfl, rfl, rfl⟩

theorem trans {s'' : System V D} (h : Shares s s') (h' : Shares s' s'') : Shares s s'' where
  capacity := h'.capacity.trans h.capacity
  closed := h'.closed.trans h.closed
  generation := h'.generation.trans h.generation
  insertions := h'.insertions.trans h.insertions
  pending := h'.pending.trans h.pending
  lookup k := (h'.lookup k).trans (h.lookup k)
  calls := h'.calls.trans h.calls
  nextCall := h'.nextCall.trans h.nextCall

theorem tally (s : System V D) (f : TranslationCacheStats → TranslationCacheStats)
    (hf : (f s.cache.stats).insertions = s.cache.stats.insertions) :
    Shares s (s.tally f) := ⟨rfl, rfl, rfl, hf, rfl, fun _ => rfl, rfl, rfl⟩

theorem touch (s : System V D) (key : TranslationCacheKey D) :
    Shares s { s with cache := s.cache.touch key } :=
  ⟨rfl, rfl, rfl, rfl, rfl, fun k => lookup_touch s.cache key k, rfl, rfl⟩

end Shares

/-- An answer takes the goroutine back and touches only a counter. -/
theorem answer_spec (s : System V D) (t : Nat) (built : BuildReturn V) :
    Shares s (s.answer t built) ∧ (s.answer t built).ended = s.ended ∧
      ∃ last, (s.answer t built).frames = update s.frames t (.ready last) := by
  rw [System.answer]
  split
  · exact ⟨Shares.goto .., rfl, _, rfl⟩
  · exact ⟨(Shares.tally _ _ rfl).trans (Shares.goto ..), rfl, _, rfl⟩
  · exact ⟨Shares.goto .., rfl, _, rfl⟩

theorem hit_spec (env : TranslationEnv V D) (s : System V D) (t : Nat)
    (r : TranslationRequest V) (entry : TranslationCacheEntry) :
    Shares s (s.hit env t r entry) ∧ (s.hit env t r entry).ended = s.ended ∧
      ∃ last, (s.hit env t r entry).frames = update s.frames t (.ready last) := by
  rw [System.hit]
  split
  · exact ⟨(Shares.tally _ _ rfl).trans (Shares.goto ..), rfl, _, rfl⟩
  · exact ⟨(Shares.tally _ _ rfl).trans (Shares.goto ..), rfl, _, rfl⟩

variable {t c : Nat}

theorem change_request (env : TranslationEnv V D)
    {last : Option (TranslationResult V)} (h : s.frames t = .ready last)
    (r : TranslationRequest V) : Change s (.request t r) (s.begin env t r) := by
  rw [System.begin]
  split
  next hkey =>
    exact .moved (.bypassed h hkey) ⟨rfl, rfl, rfl, rfl, rfl, fun _ => rfl, rfl, rfl⟩ rfl
      fun _ hu => update_of_ne hu ..
  · exact .moved (.topped h rfl) ⟨rfl, rfl, rfl, rfl, rfl, fun _ => rfl, rfl, rfl⟩ rfl
      fun _ hu => update_of_ne hu ..

theorem change_enter (env : TranslationEnv V D)
    (h : s.frames t = .locking r key) : Change s (.enter t) (s.enter env t r key) := by
  have htouch := Shares.touch s key
  fun_cases System.enter env s t r key with
  | case1 hclosed =>
    exact .moved (.shut h hclosed)
      ((Shares.tally _ _ rfl).trans (Shares.goto ..)) rfl fun _ _ => rfl
  | case2 _ _ _ entry =>
    obtain ⟨hshares, hended, last, hframes⟩ := hit_spec env
      { s with cache := s.cache.touch key } t r entry
    exact .moved (.hit h) (htouch.trans hshares) hframes fun u _ => congrFun hended u
  | case3 _ _ _ _ c hc =>
    exact .moved (.waits h hc) (htouch.trans (Shares.goto ..)) rfl fun _ _ => rfl
  | case4 hclosed _ _ _ hnone =>
    exact .led ⟨h, Bool.eq_false_iff.mpr hclosed, hnone, rfl, rfl, rfl,
      rfl, rfl, fun k => lookup_touch s.cache key k, rfl, rfl, rfl, rfl⟩

theorem change_wake (h : s.frames t = .waiting r key c)
    (hdone : (s.calls c).done) : Change s (.wake t) (s.wake t r key c) := by
  rw [System.wake]
  split
  · exact .moved (.retries h) ((Shares.tally _ _ rfl).trans (Shares.goto ..)) rfl fun _ _ => rfl
  next hreusable =>
    exact .moved (.released h hdone (Bool.eq_false_iff.mpr hreusable))
      (((Shares.tally _ _ rfl).trans (Shares.tally _ _ rfl)).trans
        (Shares.goto ..)) rfl fun _ _ => rfl

theorem Settled.then {s'' : System V D} {built : BuildReturn V}
    (h : Settled s s' r key c built) (h' : Shares s' s'') : Settled s s'' r key c built where
  capacity := h'.capacity.trans h.capacity
  closed := h'.closed.trans h.closed
  generation := h'.generation.trans h.generation
  insertions := h.insertions.imp_left h'.insertions.trans
  pending := h'.pending.trans h.pending
  lookup k e hk := h.lookup k e ((h'.lookup k).symm.trans hk)
  calls := h.calls.imp fun _ hc => h'.calls.trans hc
  nextCall := h'.nextCall.trans h.nextCall

/-- The insertion changes an entry and the counters at most. -/
theorem insert_spec (key : TranslationCacheKey D)
    (entry : Option TranslationCacheEntry) : ∃ entries stats live, s.insert key entry =
        { s with cache := { s.cache with entries, stats, live } } ∧
      (stats.insertions = s.cache.stats.insertions ∨ entry.isSome) := by
  cases entry with
  | none => exact ⟨_, _, s.cache.live, rfl, .inl rfl⟩
  | some entry => exact ⟨_, _, (s.cache.put key entry).live, rfl, .inr rfl⟩

theorem insert_lookup {entry : Option TranslationCacheEntry}
    {e : TranslationCacheEntry} (h : (s.insert key entry).cache.lookup k = some e) :
    s.cache.lookup k = some e ∨ k = key ∧ entry = some e := by
  cases entry with
  | none => exact .inl h
  | some entry =>
    rcases lookup_put s.cache h with h | ⟨hk, he⟩
    · exact .inl h
    · exact .inr ⟨hk, congrArg some he⟩

theorem settle_spec (s : System V D) (r : TranslationRequest V)
    (key : TranslationCacheKey D) (c : Nat) (built : BuildReturn V) :
    Settled s (s.settle r key c built) r key c built ∧ (s.settle r key c built).frames = s.frames ∧
      (s.settle r key c built).ended = s.ended := by
  have hlookup : ∀ k e, (s.insert key (s.stored r key built)).cache.lookup k = some e → _ :=
    fun _ _ => insert_lookup
  obtain ⟨entries, stats, live, hinsert, hstats⟩ := insert_spec key (s.stored r key built)
  rw [hinsert] at hlookup
  rw [System.settle, hinsert, System.unregister]
  split
  next hp =>
    exact ⟨⟨rfl, rfl, rfl, hstats, (if_pos hp).symm, hlookup, ⟨_, rfl⟩,
      rfl⟩, rfl, rfl⟩
  next hp =>
    exact ⟨⟨rfl, rfl, rfl, hstats, (if_neg hp).symm, hlookup, ⟨_, rfl⟩,
      rfl⟩, rfl, rfl⟩

theorem change_finish {o : BuildOutcome V} (h : s.frames t = .built r key c o) :
    Change s (.finish t) (s.finish t r key c o) := by
  obtain ⟨hsettled, hframes, hended⟩ := settle_spec s r key c (callTranslationBuild o)
  have answered : ∀ after : System V D, Shares (s.settle r key c (callTranslationBuild o)) after →
      after.frames = s.frames → after.ended = s.ended →
      Change s (.finish t) (after.answer t (callTranslationBuild o)) := by
    intro after hafter hsame hended
    obtain ⟨hshares, hended', last, hlast⟩ := answer_spec after t (callTranslationBuild o)
    refine .finished ⟨h, hsettled.then (hafter.trans hshares),
      ⟨_, ?_, .inl ⟨last, rfl⟩⟩, hended'.trans hended⟩
    rw [hlast, hsame]
  fun_cases System.finish s t r key c o with
  | case2 =>
    refine .finished ⟨h, hsettled.then (Shares.goto ..), ⟨_, ?_, .inr
      ⟨{ key with schemaGeneration := s.cache.schemaGeneration }, rfl, rfl⟩⟩, hended⟩
    rw [System.goto, hframes]
  | case3 => exact answered _ (Shares.tally _ _ rfl) hframes hended
  | _ => exact answered _ (Shares.refl _) hframes hended

/-- Every step is one of the changes. -/
theorem change_of_step {env : TranslationEnv V D}
    {e : Event V} (h : s.step env e = some s') : Change s e s' := by
  revert h
  fun_cases System.step env s e with
  | case1 t r last hf =>
    rintro ⟨⟩
    exact change_request env hf r
  | case3 t r key hf =>
    rintro ⟨⟩
    rw [System.check]
    split
    · exact .moved (.stopped hf) (Shares.goto ..) rfl fun _ _ => rfl
    · exact .moved (.passed hf) (Shares.goto ..) rfl fun _ _ => rfl
  | case5 t r key hf =>
    rintro ⟨⟩
    exact change_enter env hf
  | case7 t r key c hf hdone =>
    rintro ⟨⟩
    exact change_wake hf hdone
  | case10 t r key c hf =>
    rintro ⟨⟩
    exact .moved (.canceled hf) (Shares.goto ..) rfl fun _ _ => rfl
  | case13 t o r key c hf =>
    rintro ⟨⟩
    exact .moved (.built hf) (Shares.goto ..) rfl fun _ _ => rfl
  | case15 t r key c o hf =>
    rintro ⟨⟩
    exact change_finish hf
  | case17 t o r key why hf =>
    rintro ⟨⟩
    obtain ⟨hshares, hended, last, hframes⟩ := answer_spec s t (callTranslationBuild o)
    exact .moved (.answered hf) hshares hframes fun u _ => congrFun hended u
  | case19 =>
    rintro ⟨⟩
    exact .endContext
  | case20 =>
    rintro ⟨⟩
    exact .invalidate
  | case21 =>
    rintro ⟨⟩
    exact .close
  -- The event is not one for the place where the goroutine is.
  | _ => nofun

end Dawgs.Ref.TranslationCache

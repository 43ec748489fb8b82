import Dawgs.Lib.Machine
import Dawgs.Proofs.TranslationSteps

/-!
# What the translation cache keeps

What has to hold of the cache speaks of the past: an entry came from a
build, and the build began in some generation. So the invariant is one of
a history and the state it led to.

* **Builds in a history.** `Running` and `Returned` cut a history at the
  event with which a goroutine registered a build, and at the event with
  which that build returned. `Fresh` says that an entry comes from such a
  build and that no `Invalidate` happened since it was registered.

* **Places.** `Placed` is what is known of a goroutine from where it is. The
  point is the leader's: its key's generation and the number of `Invalidate`
  events since it began add up to at most the current generation. Only a
  key of the current generation is stored, so then there were none.

* **Leaders.** A call in the pending map has a leader and is not done. Two
  leaders share neither key nor call. While the cache is open a leader's
  call stays in the map, so nobody else registers the same key; `Close`
  empties the map, but then nobody registers anything.

A goroutine that does not move keeps its place under every step (`Later`).
That leaves, for each of the six changes, the goroutine that moved and the
shared part. `inv_run` puts the steps together.
-/

namespace Dawgs.Ref.TranslationCache

open Lib List Function AList Nat Option

variable {V D : Type} [DecidableEq D] {env : TranslationEnv V D} {key : TranslationCacheKey D}
  {es : List (Event V)} {start : System V D} {r : TranslationRequest V} {e : Event V}

/-! ## Builds in a history -/

section History

variable (env : TranslationEnv V D) (start : System V D)

/-- After the history `before`, goroutine `t` registers the call `c` for
its request and starts to build. -/
def Registers (before : List (Event V)) (t : Nat) (r : TranslationRequest V)
    (key : TranslationCacheKey D) (c : Nat) : Prop :=
  ∃ m, run (System.step env) start (before ++ [.enter t]) = some m ∧ m.frames t = .building r key c

/-- A registered build that has not returned yet, and what happened since
it began. -/
structure Running (es during : List (Event V)) (t : Nat)
    (r : TranslationRequest V) (key : TranslationCacheKey D) (c : Nat) :
    Prop where
  registered : ∃ before, es = before ++ .enter t :: during ∧ Registers env start before t r key c
  own : ∀ e ∈ during, e.owner ≠ some t

/-- A registered build that has returned: what happened while it ran, and
what happened after it. -/
def Returned (es during after : List (Event V)) (t : Nat) (r : TranslationRequest V)
    (key : TranslationCacheKey D) (c : Nat) (o : BuildOutcome V) : Prop :=
  ∃ past, es = past ++ .build t o :: after ∧ Running env start past during t r key c

/-- The entry was made for the key by a build since the beginning of which
there was no `Invalidate`. -/
def Fresh (es : List (Event V)) (key : TranslationCacheKey D)
    (entry : TranslationCacheEntry) : Prop :=
  ∃ during after t r c o, Returned env start es during after t r key c o ∧
    .invalidate ∉ during ∧ .invalidate ∉ after ∧ (callTranslationBuild o).panicked = none ∧
    cacheableTranslation (callTranslationBuild o) r.parameters = some entry

/-- At some time the call was registered for the key. -/
def Called (es : List (Event V)) (key : TranslationCacheKey D) (c : Nat) : Prop :=
  ∃ before after t r, es = before ++ .enter t :: after ∧ Registers env start before t r key c

end History

section

variable {during after : List (Event V)} {t c : Nat} {o : BuildOutcome V}

theorem Running.snoc (h : Running env start es during t r key c) (he : e.owner ≠ some t) :
    Running env start (es ++ [e]) (during ++ [e]) t r key c := by
  obtain ⟨before, hes, hreg⟩ := h.registered
  refine ⟨⟨before, ?_, hreg⟩, forall_mem_append.mpr ⟨h.own, forall_mem_singleton.mpr he⟩⟩
  rw [hes, append_assoc]
  rfl

theorem Running.called (h : Running env start es during t r key c) : Called env start es key c := by
  obtain ⟨before, hes, hreg⟩ := h.registered
  exact ⟨before, during, t, r, hes, hreg⟩

theorem Returned.snoc (h : Returned env start es during after t r key c o) (e : Event V) :
    Returned env start (es ++ [e]) during (after ++ [e]) t r key c o := by
  obtain ⟨past, hes, hrun⟩ := h
  refine ⟨past, ?_, hrun⟩
  rw [hes, append_assoc]
  rfl

theorem Called.append (h : Called env start es key c) (more : List (Event V)) :
    Called env start (es ++ more) key c := by
  obtain ⟨before, after, t, r, hes, hreg⟩ := h
  refine ⟨before, after ++ more, t, r, ?_, hreg⟩
  rw [hes, append_assoc]
  rfl

theorem Returned.called (h : Returned env start es during after t r key c o) :
    Called env start es key c := by
  obtain ⟨past, hes, hrun⟩ := h
  rw [hes]
  exact hrun.called.append _

end

/-! ## The invariant -/

/-- The frame is that of the goroutine that registered the call. -/
def Leads (f : Frame V D) (key : TranslationCacheKey D) (c : Nat) : Prop :=
  (∃ r, f = .building r key c) ∨ ∃ r o, f = .built r key c o

/-- How many times a stretch of a history invalidates. -/
def invalidations (es : List (Event V)) : Nat := es.countP Event.isInvalidate

/-- The reason a goroutine builds for itself alone. -/
def Excused (env : TranslationEnv V D) (start : System V D)
    (es : List (Event V)) (s : System V D) (key : TranslationCacheKey D) : Why → Prop
  | .bypassed => maxCachedCypherBytes < key.querySize ∨ s.cache.capacity = 0
  | .closed => s.cache.closed
  | .released c => c < s.nextCall ∧ (s.calls c).done ∧
      (s.calls c).reusable = false ∧ Called env start es key c

/-- A registered call stays in the map while the cache is open. -/
def Held (s : System V D) (key : TranslationCacheKey D) (c : Nat) : Prop :=
  c < s.nextCall ∧ (s.cache.pending.lookup key = some c ∨ s.cache.closed)

section

variable (env : TranslationEnv V D) (start : System V D) (es : List (Event V)) (s : System V D)

/-- What is known of a goroutine from the place where it is. -/
def Placed
    (t : Nat) : Frame V D → Prop
  | .ready _ => True
  | .top _ key => key.schemaGeneration ≤ s.cache.schemaGeneration
  | .locking _ key => key.schemaGeneration ≤ s.cache.schemaGeneration
  | .waiting _ key c => key.schemaGeneration ≤ s.cache.schemaGeneration ∧
      c < s.nextCall ∧ ((s.calls c).done ∨ s.cache.pending.lookup key = some c) ∧
      Called env start es key c
  | .building r key c => Held s key c ∧ ∃ during, Running env start es during t r key c ∧
        key.schemaGeneration + invalidations during ≤ s.cache.schemaGeneration
  | .built r key c o => Held s key c ∧
      ∃ during after, Returned env start es during after t r key c o ∧
        (∀ e ∈ after, e.owner ≠ some t) ∧
        key.schemaGeneration + invalidations during + invalidations after ≤ s.cache.schemaGeneration
  | .uncached _ key why => Excused env start es s key why

/-- What holds after every history. -/
structure Inv
    : Prop where
  placed : ∀ t, Placed env start es s t (s.frames t)
  led : ∀ {key c}, s.cache.pending.lookup key = some c → ∃ t, Leads (s.frames t) key c
  undone : ∀ {key c}, s.cache.pending.lookup key = some c → (s.calls c).done = false
  single : ∀ {t t' key key' c c'}, Leads (s.frames t) key c →
    Leads (s.frames t') key' c' → key = key' ∨ c = c' → t = t'
  current : ∀ {key entry}, s.cache.lookup key = some entry →
    key.schemaGeneration = s.cache.schemaGeneration
  fresh : ∀ {key entry}, s.cache.lookup key = some entry → Fresh env start es key entry

end

theorem invalidations_snoc (es : List (Event V)) (e : Event V) :
    invalidations (es ++ [e]) = invalidations es + invalidations [e] := countP_append

variable {entry : TranslationCacheEntry}

theorem not_mem_of_invalidations (h : invalidations es = 0) : .invalidate ∉ es := by
  intro hmem
  exact countP_eq_zero.mp h _ hmem rfl

theorem Fresh.snoc (h : Fresh env start es key entry) (he : e ≠ .invalidate) :
    Fresh env start (es ++ [e]) key entry := by
  obtain ⟨during, after, t, r, c, o, hret, hd, ha, hp, hentry⟩ := h
  exact ⟨during, after ++ [e], t, r, c, o, hret.snoc e, hd, by simp [ha, he.symm], hp, hentry⟩

/-! ## One step -/

/-- What a step leaves to a goroutine that did not take it. -/
structure Later (s : System V D) (e : Event V) (s' : System V D) (t : Nat) : Prop where
  capacity : s'.cache.capacity = s.cache.capacity
  closed : s.cache.closed → s'.cache.closed
  generation : s'.cache.schemaGeneration = s.cache.schemaGeneration + invalidations [e]
  nextCall : s.nextCall ≤ s'.nextCall
  done : ∀ c < s.nextCall, (s.calls c).done → s'.calls c = s.calls c
  pending : ∀ key c, c < s.nextCall → s.cache.pending.lookup key = some c →
    s'.cache.pending.lookup key = some c ∨ (s'.calls c).done
  held : ∀ key c, Leads (s.frames t) key c → Held s key c → Held s' key c

section Step

variable {s s' : System V D} {t : Nat}

variable {f : Frame V D} {c : Nat} {built : BuildReturn V} {o : BuildOutcome V}
  {k : TranslationCacheKey D}

theorem Later.excused (h : Later s e s' t) {why : Why} (hwhy : Excused env start es s key why) :
    Excused env start (es ++ [e]) s' key why := by
  cases why with
  | bypassed =>
    rw [Excused, h.capacity]
    exact hwhy
  | closed => exact h.closed hwhy
  | released c =>
    obtain ⟨hc, hdone, hreusable, hcalled⟩ := hwhy
    rw [Excused, h.done c hc hdone]
    exact ⟨lt_of_lt_of_le hc h.nextCall, hdone, hreusable, hcalled.append _⟩

/-- The place of a goroutine that did not move. -/
theorem Later.placed (h : Later s e s' t) (he : e.owner ≠ some t)
    (hplaced : Placed env start es s t (s.frames t)) :
    Placed env start (es ++ [e]) s' t (s.frames t) := by
  have hgen := h.generation
  have hleads := h.held
  revert hleads hplaced
  cases s.frames t with
  | ready last => exact fun _ _ => trivial
  | top r key | locking r key =>
    intro hkey _
    rw [Placed] at hkey ⊢
    omega
  | waiting r key c =>
    rintro ⟨hkey, hc, hwait, hcalled⟩ _
    refine ⟨by omega, lt_of_lt_of_le hc h.nextCall, ?_, hcalled.append _⟩
    rcases hwait with hdone | hpending
    · rw [h.done c hc hdone]
      exact .inl hdone
    · exact (h.pending key c hc hpending).symm
  | building r key c =>
    rintro ⟨hheld, during, hrun, hkey⟩ hleads
    refine ⟨hleads key c (.inl ⟨r, rfl⟩) hheld, during ++ [e], hrun.snoc he, ?_⟩
    rw [invalidations_snoc]
    omega
  | built r key c o =>
    rintro ⟨hheld, during, after, hret, hown, hkey⟩ hleads
    refine ⟨hleads key c (.inr ⟨r, o, rfl⟩) hheld, during, after ++ [e], hret.snoc e,
      forall_mem_append.mpr ⟨hown, forall_mem_singleton.mpr he⟩, ?_⟩
    rw [invalidations_snoc]
    omega
  | uncached r key why => exact fun hwhy _ => h.excused hwhy

/-! ### A move -/

theorem Move.owner (h : Move s t e f) : e.owner = some t := by
  cases h <;> rfl

theorem invalidations_of_owner (h : e.owner = some t) : invalidations [e] = 0 := by
  cases e with
  | invalidate => cases h
  | _ => rfl

theorem ne_invalidate_of_owner (h : e.owner = some t) : e ≠ .invalidate := by
  rintro rfl
  cases h

theorem Shares.later (h : Shares s s') (he : invalidations [e] = 0) (t : Nat) : Later s e s' t where
  capacity := h.capacity
  closed := by rw [h.closed]; exact id
  generation := by rw [h.generation, he]; rfl
  nextCall := le_of_eq h.nextCall.symm
  done := fun _ _ _ => by rw [h.calls]
  pending := fun _ _ _ hp => by rw [h.pending]; exact .inl hp
  held := fun _ _ _ hheld => by
    rw [Held, h.nextCall, h.pending, h.closed]
    exact hheld

/-- A move neither takes up nor lays down a registered call. -/
theorem Move.leads_iff (h : Move s t e f) (key : TranslationCacheKey D)
    (c : Nat) : Leads f key c ↔ Leads (s.frames t) key c := by
  cases h with
  | built h | topped h | bypassed h | stopped h | passed h | shut h | hit h | waits h
  | retries h | released h | canceled h | answered h => rw [h]; simp [Leads]

/-- A leader's call was registered in the history. -/
theorem Placed.called (h : Placed env start es s t f) (hleads : Leads f key c) :
    Called env start es key c := by
  rcases hleads with ⟨r, rfl⟩ | ⟨r, o, rfl⟩
  · obtain ⟨_, _, hrun, _⟩ := h
    exact hrun.called
  · obtain ⟨_, _, _, hret, _⟩ := h
    exact hret.called

theorem Placed.held (h : Placed env start es s t f) (hleads : Leads f key c) : Held s key c := by
  rcases hleads with ⟨r, rfl⟩ | ⟨r, o, rfl⟩ <;> exact h.1

/-- The place a move leads to. -/
theorem Inv.placed_move (hinv : Inv env start es s) (hmove : Move s t e f)
    (hshares : Shares s s') : Placed env start (es ++ [e]) s' t f := by
  have hlater := hshares.later (invalidations_of_owner hmove.owner) t
  have hgen := hshares.generation
  have hbefore := hinv.placed t
  cases hmove with
  | topped h hkey =>
    rw [Placed]
    omega
  | bypassed h hkey => exact hlater.excused (show Excused env start es s _ .bypassed from hkey)
  | stopped h | hit h | canceled h | answered h => trivial
  | passed h =>
    rw [h, Placed] at hbefore
    rw [Placed]
    omega
  | @shut _ key h hclosed =>
    exact hlater.excused (show Excused env start es s key .closed from hclosed)
  | waits h hc =>
    rw [h, Placed] at hbefore
    obtain ⟨l, hleads⟩ := hinv.led hc
    have hl := hinv.placed l
    refine ⟨by omega, ?_, ?_, (hl.called hleads).append _⟩
    · rw [hshares.nextCall]
      exact (hl.held hleads).1
    · rw [hshares.pending]
      exact .inr hc
  | retries h =>
    rw [h] at hbefore
    rw [Placed]
    have hkey := hbefore.1
    omega
  | released h hdone hreusable =>
    rw [h] at hbefore
    obtain ⟨_, hc, _, hcalled⟩ := hbefore
    exact hlater.excused (show Excused env start es s _ (.released _) from
      ⟨hc, hdone, hreusable, hcalled⟩)
  | built h =>
    rw [h] at hbefore
    obtain ⟨hheld, during, hrun, hkey⟩ := hbefore
    refine ⟨hlater.held _ _ (by rw [h]; exact .inl ⟨_, rfl⟩) hheld, during,
      [], ⟨es, rfl, hrun⟩, nofun, ?_⟩
    rw [hgen]
    exact hkey

theorem Inv.moved (hinv : Inv env start es s) (hmove : Move s t e f) (hshares : Shares s s')
    (hframes : s'.frames = update s.frames t f) : Inv env start (es ++ [e]) s' := by
  have howner := hmove.owner
  have hleads : ∀ u key c, Leads (s'.frames u) key c ↔ Leads (s.frames u) key c := by
    intro u key c
    rw [hframes]
    by_cases hu : u = t
    · subst hu
      rw [update_self]
      exact hmove.leads_iff key c
    · rw [update_of_ne hu]
  refine ⟨?_, ?_, ?_, ?_, ?_, ?_⟩
  · intro u
    rw [hframes]
    by_cases hu : u = t
    · subst hu
      rw [update_self]
      exact hinv.placed_move hmove hshares
    · rw [update_of_ne hu]
      refine (hshares.later (invalidations_of_owner howner) u).placed ?_ (hinv.placed u)
      rw [howner]
      exact fun h => hu (some.inj h).symm
  · intro key c hp
    rw [hshares.pending] at hp
    obtain ⟨l, hl⟩ := hinv.led hp
    exact ⟨l, (hleads l key c).mpr hl⟩
  · intro key c hp
    rw [hshares.pending] at hp
    rw [hshares.calls]
    exact hinv.undone hp
  · intro u u' key key' c c' h h' heq
    exact hinv.single ((hleads ..).mp h) ((hleads ..).mp h') heq
  · intro key entry h
    rw [hshares.lookup] at h
    rw [hshares.generation]
    exact hinv.current h
  · intro key entry h
    rw [hshares.lookup] at h
    exact (hinv.fresh h).snoc (ne_invalidate_of_owner howner)

/-! ### A registration -/

theorem Led.ne_key (h : Led s s' t r key) (hp : s.cache.pending.lookup k = some c) : k ≠ key := by
  rintro rfl
  cases h.none.symm.trans hp

theorem Led.later (h : Led s s' t r key) (u : Nat) : Later s (.enter t) s' u where
  capacity := h.capacity
  closed := by rw [h.closed]; exact id
  generation := h.generation
  nextCall := by rw [h.nextCall]; omega
  done := by
    intro c hc _
    rw [h.calls, update_of_ne (by omega)]
  pending := by
    intro k c _ hp
    rw [h.pending, lookup_insert_ne (h.ne_key hp)]
    exact .inl hp
  held := by
    intro k c _ hheld
    obtain ⟨hc, hp⟩ := hheld
    rw [h.opened] at hp
    have hp : s.cache.pending.lookup k = some c := hp.resolve_right (by simp)
    refine ⟨by rw [h.nextCall]; omega, .inl ?_⟩
    rw [h.pending, lookup_insert_ne (h.ne_key hp)]
    exact hp

theorem Inv.led_step (hinv : Inv env start es s) (h : Led s s' t r key)
    (hrun : run (System.step env) start (es ++ [.enter t]) = some s') :
    Inv env start (es ++ [.enter t]) s' := by
  have hself : s'.frames t = .building r key s.nextCall := by
    rw [h.frames, update_self]
  have hother : ∀ u, u ≠ t → s'.frames u = s.frames u := by
    intro u hu
    rw [h.frames, update_of_ne hu]
  -- the others' calls are older than the new one, and their keys are not it
  have hold : ∀ {u k c}, Leads (s.frames u) k c → k ≠ key ∧ c < s.nextCall := by
    intro u k c hl
    obtain ⟨hc, hp⟩ := (hinv.placed u).held hl
    rw [h.opened] at hp
    exact ⟨h.ne_key (hp.resolve_right (by simp)), hc⟩
  have hnew : ∀ {u k k' c c'}, Leads (s'.frames t) k c →
      Leads (s.frames u) k' c' → ¬ (k = k' ∨ c = c') := by
    intro u k k' c c' hl hl' heq
    obtain ⟨hk, hc⟩ := hold hl'
    rw [hself] at hl
    simp only [Leads, reduceCtorEq, exists_false, or_false] at hl
    obtain ⟨_, _, rfl, rfl⟩ := hl
    rcases heq with rfl | rfl
    · exact hk rfl
    · omega
  have hkey := hinv.placed t
  rw [h.frame] at hkey
  refine ⟨?_, ?_, ?_, ?_, ?_, ?_⟩
  · intro u
    by_cases hu : u = t
    · subst hu
      rw [hself]
      refine ⟨⟨by rw [h.nextCall]; omega, .inl ?_⟩, [], ⟨⟨es, rfl, s', hrun, hself⟩, nofun⟩, ?_⟩
      · rw [h.pending, lookup_insert]
      · rw [h.generation]
        exact hkey
    · rw [hother u hu]
      refine (h.later u).placed ?_ (hinv.placed u)
      exact fun heq => hu (some.inj heq).symm
  · intro k c hp
    by_cases hk : k = key
    · subst hk
      rw [h.pending, lookup_insert] at hp
      cases hp
      exact ⟨t, by rw [hself]; exact .inl ⟨r, rfl⟩⟩
    · rw [h.pending, lookup_insert_ne hk] at hp
      obtain ⟨l, hl⟩ := hinv.led hp
      have hne : l ≠ t := by
        intro heq
        rw [heq, h.frame] at hl
        simp [Leads] at hl
      exact ⟨l, by rw [hother l hne]; exact hl⟩
  · intro k c hp
    rw [h.calls]
    by_cases hk : k = key
    · subst hk
      rw [h.pending, lookup_insert] at hp
      cases hp
      rw [update_self]
    · rw [h.pending, lookup_insert_ne hk] at hp
      obtain ⟨l, hl⟩ := hinv.led hp
      have hc := (hold hl).2
      rw [update_of_ne (by omega)]
      exact hinv.undone hp
  · intro u u' k k' c c' hl hl' heq
    by_cases hu : u = t <;> by_cases hu' : u' = t
    · rw [hu, hu']
    · subst hu
      rw [hother u' hu'] at hl'
      exact absurd heq (hnew hl hl')
    · subst hu'
      rw [hother u hu] at hl
      exact absurd (heq.imp Eq.symm Eq.symm) (hnew hl' hl)
    · rw [hother u hu] at hl
      rw [hother u' hu'] at hl'
      exact hinv.single hl hl' heq
  · intro k entry hk
    rw [h.lookup] at hk
    rw [h.generation]
    exact hinv.current hk
  · intro k entry hk
    rw [h.lookup] at hk
    exact (hinv.fresh hk).snoc (by simp)

/-! ### The end of a registered build -/

theorem done_finish (call : TranslationCacheCall) (reusable : Bool) :
    (call.finish reusable).done := by
  rw [TranslationCacheCall.finish]
  split
  next h => exact h
  · rfl

theorem finish_of_done {call : TranslationCacheCall} (h : call.done)
    (reusable : Bool) : call.finish reusable = call := if_pos h

/-- What is in the map after a call is taken out was there before, under
another call. -/
theorem Settled.pending_of (h : Settled s s' r key c built) {c' : Nat}
    (hp : s'.cache.pending.lookup k = some c') :
    s.cache.pending.lookup k = some c' ∧ (k = key → c' ≠ c) := by
  rw [h.pending] at hp
  split at hp
  · have hk : k ≠ key := by
      intro heq
      rw [heq, lookup_erase] at hp
      cases hp
    rw [lookup_erase_ne hk] at hp
    exact ⟨hp, fun heq => absurd heq hk⟩
  next hne =>
    refine ⟨hp, ?_⟩
    rintro rfl rfl
    exact hne hp

/-- A registration of another key is untouched. -/
theorem Settled.pending_ne (h : Settled s s' r key c built) (hk : k ≠ key) :
    s'.cache.pending.lookup k = s.cache.pending.lookup k := by
  rw [h.pending]
  split
  · exact lookup_erase_ne hk
  · rfl

theorem Finished.leads (h : Finished s s' t r key c o) : Leads (s.frames t) key c := by
  rw [h.frame]
  exact .inr ⟨r, o, rfl⟩

theorem Finished.later (h : Finished s s' t r key c o)
    (hinv : Inv env start es s) {u : Nat} (hu : u ≠ t) : Later s (.finish t) s' u := by
  obtain ⟨reusable, hcalls⟩ := h.settled.calls
  refine ⟨h.settled.capacity, ?_, h.settled.generation,
    le_of_eq h.settled.nextCall.symm, ?_, ?_, ?_⟩
  · rw [h.settled.closed]
    exact id
  · intro c' _ hdone
    rw [hcalls]
    by_cases hc : c' = c
    · subst hc
      rw [update_self, finish_of_done hdone]
    · rw [update_of_ne hc]
  · intro k c' _ hp
    by_cases hk : k = key
    · subst hk
      by_cases hc : c' = c
      · subst hc
        rw [hcalls, update_self]
        exact .inr (done_finish ..)
      · have hne : s.cache.pending.lookup k ≠ some c := by
          rw [hp]
          exact fun heq => hc (some.inj heq)
        rw [h.settled.pending, if_neg hne]
        exact .inl hp
    · rw [h.settled.pending_ne hk]
      exact .inl hp
  · intro k c' hl hheld
    have hk : k ≠ key := fun heq => hu (hinv.single hl h.leads (.inl heq))
    rw [Held, h.settled.nextCall, h.settled.pending_ne hk, h.settled.closed]
    exact hheld

theorem generation_of_stored
    (h : s.stored r key built = some entry) : key.schemaGeneration = s.cache.schemaGeneration := by
  rw [System.stored] at h
  split at h
  next hcond => exact hcond.1
  · cases h

/-- A result is stored only for the generation in which its build began. -/
theorem Inv.fresh_of_stored (hinv : Inv env start es s) (hframe : s.frames t = .built r key c o)
    (h : s.stored r key (callTranslationBuild o) = some entry) :
    (callTranslationBuild o).panicked = none ∧
    cacheableTranslation (callTranslationBuild o) r.parameters = some entry ∧
    ∃ during after, Returned env start es during after t r key c o ∧
      (∀ e ∈ after, e.owner ≠ some t) ∧ .invalidate ∉ during ∧ .invalidate ∉ after := by
  rw [System.stored] at h
  split at h
  next hcond =>
    obtain ⟨hgen, _, hpanicked⟩ := hcond
    have hplaced := hinv.placed t
    rw [hframe] at hplaced
    obtain ⟨_, during, after, hret, hown, hle⟩ := hplaced
    exact ⟨hpanicked, h, during, after, hret, hown, not_mem_of_invalidations (by omega),
      not_mem_of_invalidations (by omega)⟩
  · cases h

theorem Inv.finished (hinv : Inv env start es s) (h : Finished s s' t r key c o) :
    Inv env start (es ++ [.finish t]) s' := by
  obtain ⟨f, hframes, hf⟩ := h.frames
  have hself : ∀ k c', ¬ Leads (s'.frames t) k c' := by
    intro k c' hl
    rw [hframes] at hl
    rcases hf with ⟨last, rfl⟩ | ⟨key', _, rfl⟩ <;> simp [Leads] at hl
  have hother : ∀ u, u ≠ t → s'.frames u = s.frames u := by
    intro u hu
    rw [hframes, update_of_ne hu]
  have hold : ∀ {u k c'}, Leads (s'.frames u) k c' → u ≠ t ∧ Leads (s.frames u) k c' := by
    intro u k c' hl
    have hu : u ≠ t := by
      rintro rfl
      exact hself k c' hl
    rw [hother u hu] at hl
    exact ⟨hu, hl⟩
  -- the leader of a call that is still in the map is another goroutine
  have hleader : ∀ {k c'}, s'.cache.pending.lookup k = some c' →
      ∃ l, l ≠ t ∧ Leads (s.frames l) k c' := by
    intro k c' hp
    obtain ⟨hp, hne⟩ := h.settled.pending_of hp
    obtain ⟨l, hl⟩ := hinv.led hp
    refine ⟨l, ?_, hl⟩
    rintro rfl
    rw [h.frame] at hl
    simp only [Leads, reduceCtorEq, exists_false, false_or] at hl
    obtain ⟨_, _, _, rfl, rfl, _⟩ := hl
    exact hne rfl rfl
  refine ⟨?_, ?_, ?_, ?_, ?_, ?_⟩
  · intro u
    by_cases hu : u = t
    · subst hu
      rw [hframes, update_self]
      rcases hf with ⟨last, rfl⟩ | ⟨key', hkey, rfl⟩
      · trivial
      · rw [Placed, h.settled.generation, hkey]
    · rw [hother u hu]
      refine (h.later hinv hu).placed ?_ (hinv.placed u)
      exact fun heq => hu (some.inj heq).symm
  · intro k c' hp
    obtain ⟨l, hne, hl⟩ := hleader hp
    exact ⟨l, by rw [hother l hne]; exact hl⟩
  · intro k c' hp
    obtain ⟨l, hne, hl⟩ := hleader hp
    have hc : c' ≠ c := fun heq => hne (hinv.single hl h.leads (.inr heq))
    obtain ⟨reusable, hcalls⟩ := h.settled.calls
    rw [hcalls, update_of_ne hc]
    exact hinv.undone (h.settled.pending_of hp).1
  · intro u u' k k' c' c'' hl hl' heq
    exact hinv.single (hold hl).2 (hold hl').2 heq
  · intro k entry hk
    rw [h.settled.generation]
    rcases h.settled.lookup k entry hk with hk | ⟨rfl, hstored⟩
    · exact hinv.current hk
    · exact generation_of_stored hstored
  · intro k entry hk
    rcases h.settled.lookup k entry hk with hk | ⟨rfl, hstored⟩
    · exact (hinv.fresh hk).snoc (by simp)
    · obtain ⟨hpanicked, hentry, during, after, hret, _, hd, ha⟩ :=
        hinv.fresh_of_stored h.frame hstored
      exact Fresh.snoc ⟨during, after, t, r, c, o, hret, hd, ha, hpanicked, hentry⟩ (by simp)

/-! ### The other steps -/

theorem later_endContext (s : System V D) (t u : Nat) : Later s (.endContext t)
      { s with ended := update s.ended t true } u := by
  have hshares : Shares s { s with ended := update s.ended t true } :=
    ⟨rfl, rfl, rfl, rfl, rfl, fun _ => rfl, rfl, rfl⟩
  exact hshares.later rfl u

theorem later_invalidate (s : System V D) (u : Nat) :
    Later s .invalidate { s with cache := s.cache.invalidate } u :=
  ⟨rfl, id, rfl, le_refl _, fun _ _ _ => rfl, fun _ _ _ hp => .inl hp, fun _ _ _ hheld => hheld⟩

theorem mem_values_of_lookup {pending : GoMap (TranslationCacheKey D) Nat}
    (h : pending.lookup key = some c) : c ∈ pending.entries.map Sigma.snd :=
  mem_map.mpr ⟨⟨key, c⟩, mem_lookup_iff.mp h, rfl⟩

theorem later_close (s : System V D) (u : Nat) : Later s .close s.close u := by
  refine ⟨rfl, fun _ => rfl, rfl, le_refl _, ?_, ?_, ?_⟩
  · intro c _ hdone
    show (if _ then _ else _) = _
    rw [finish_of_done hdone, ite_self]
  · intro key c _ hp
    refine .inr ?_
    show TranslationCacheCall.done (if _ then _ else _)
    rw [if_pos (mem_values_of_lookup hp)]
    exact done_finish ..
  · exact fun _ _ _ hheld => ⟨hheld.1, .inr rfl⟩

section

variable (hinv : Inv env start es s)
include hinv

theorem Inv.endContext (t : Nat) : Inv env start (es ++ [.endContext t])
      { s with ended := update s.ended t true } := by
  refine ⟨fun u => ?_, hinv.led, hinv.undone, hinv.single, hinv.current, fun h => ?_⟩
  · exact (later_endContext s t u).placed (by simp [Event.owner]) (hinv.placed u)
  · exact (hinv.fresh h).snoc (by simp)

theorem Inv.invalidate : Inv env start (es ++ [.invalidate])
      { s with cache := s.cache.invalidate } := by
  refine ⟨fun u => ?_, hinv.led, hinv.undone, hinv.single, fun h => ?_, fun h => ?_⟩
  · exact (later_invalidate s u).placed (by simp [Event.owner]) (hinv.placed u)
  all_goals
    rw [lookup_invalidate] at h
    cases h

theorem Inv.close : Inv env start (es ++ [.close]) s.close := by
  refine ⟨fun u => ?_, nofun, nofun, hinv.single, nofun, nofun⟩
  exact (later_close s u).placed (by simp [Event.owner]) (hinv.placed u)

/-- What any step leaves to a goroutine that did not take it. -/
theorem Inv.later (h : Change s e s')
    (he : e.owner ≠ some t) : Later s e s' t := by
  cases h with
  | moved hmove hshares _ _ => exact hshares.later (invalidations_of_owner hmove.owner) t
  | led h => exact h.later t
  | finished h =>
    refine h.later hinv ?_
    rintro rfl
    exact he rfl
  | endContext => exact later_endContext ..
  | invalidate => exact later_invalidate ..
  | close => exact later_close ..

end

end Step

/-! ## Every interleaving -/

theorem inv_start (env : TranslationEnv V D) (capacity : Int) (policy : String) :
    Inv env (System.start capacity policy : System V D) [] (System.start capacity policy) := by
  have hempty : ∀ key, (new capacity policy : TranslationCache D).lookup key =
      none := by
    intro key
    show (if _ then _ else _ : Option (Sieve _ _)).bind _ = none
    split <;> rfl
  refine ⟨fun _ => trivial, nofun, nofun, fun h => ?_, fun h => ?_, fun h => ?_⟩
  · simp [System.start, Leads] at h
  · exact absurd h (by rw [System.start, hempty]; simp)
  · exact absurd h (by rw [System.start, hempty]; simp)

theorem inv_run {capacity : Int} {policy : String} {s : System V D}
    (h : run (System.step env) (System.start capacity policy) es = some s) :
    Inv env (System.start capacity policy) es s := by
  refine run_invariant (P := Inv env (System.start capacity policy))
    (inv_start env capacity policy) ?_ h
  intro es s e s' hrun hinv hstep
  have hnext := run_snoc_of hrun hstep
  cases change_of_step hstep with
  | moved hmove hshares hframes _ => exact hinv.moved hmove hshares hframes
  | led h => exact hinv.led_step h hnext
  | finished h => exact hinv.finished h
  | endContext => exact hinv.endContext _
  | invalidate => exact hinv.invalidate
  | close => exact hinv.close

end Dawgs.Ref.TranslationCache

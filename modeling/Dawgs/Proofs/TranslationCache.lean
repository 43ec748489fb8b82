import Dawgs.Proofs.TranslationInvariant

/-!
# The translation cache, over every interleaving

The safety half reads off the invariant. The other half is about waiters: a
goroutine in `waiting` has to come out of it. That is a matter of what must
happen, and it rests on one assumption about the scheduler, that a
goroutine which can go on is not passed over for ever. The end of a build
is not such an event; a build may run as long as it likes.

A waiter goes on when its call is done or its context has ended, and both
stay so until it moves (`leaves_of_free`). The call is done when its leader
leaves the second stretch under the lock, however the build ended
(`done_of_built`).

What does not hold is that a key has one build in flight. Callers that
waited behind a build that came to nothing build each for itself, at the
same time (`failedBuild_two_in_flight`).
-/

namespace Dawgs.Ref.TranslationCache

open Lib Function

variable {V D : Type} [DecidableEq D] {env : TranslationEnv V D} {t : Nat}

/-! ## Waiters -/

/-- The goroutine waits for the call. -/
def Waits (s : System V D) (t c : Nat) : Prop := ∃ r key, s.frames t = .waiting r key c

/-- The events by which a goroutine goes on by itself. A new request and
the end of a build are not among them: those are up to others. -/
def Event.GoesOn (t : Nat) : Event V → Prop
  | .check u | .enter u | .wake u | .cancel u | .finish u => u = t
  | _ => False

theorem Event.GoesOn.owner {e : Event V} (h : e.GoesOn t) : e.owner = some t := by
  cases e with
  | check u | enter u | wake u | cancel u | finish u => exact congrArg some h
  | _ => cases h

section Step

variable {s s' : System V D} {e : Event V}

theorem Change.frames (h : Change s e s') (he : e.owner ≠ some t) : s'.frames t = s.frames t := by
  cases h with
  | moved hmove _ hframes _ =>
    have hne : t ≠ _ := fun heq => he (heq ▸ hmove.owner)
    rw [hframes, update_of_ne hne]
  | led h =>
    have hne : t ≠ _ := fun heq => he (congrArg some heq.symm)
    rw [h.frames, update_of_ne hne]
  | finished h =>
    have hne : t ≠ _ := fun heq => he (congrArg some heq.symm)
    obtain ⟨f, hframes, _⟩ := h.frames
    rw [hframes, update_of_ne hne]
  | endContext | invalidate | close => rfl

/-- A context that has ended stays so until its goroutine moves. -/
theorem Change.ended (h : Change s e s') (he : e.owner ≠ some t)
    (hended : s.ended t) : s'.ended t := by
  cases h with
  | moved hmove _ _ hrest =>
    rw [hrest t fun heq => he (heq ▸ hmove.owner)]
    exact hended
  | led h | finished h =>
    rw [h.ended]
    exact hended
  | @endContext u =>
    show update s.ended u true t = true
    by_cases hu : t = u
    · rw [hu, update_self]
    · rw [update_of_ne hu]
      exact hended
  | invalidate | close => exact hended

/-- A waiter that moves waits for the call no longer. -/
theorem Change.leaves {c : Nat} (h : Change s e s') (hwaits : Waits s t c)
    (he : e.owner = some t) : ¬ Waits s' t c := by
  obtain ⟨r, key, hframe⟩ := hwaits
  rintro ⟨r', key', hframe'⟩
  cases h with
  | @moved u _ f _ hmove _ hframes _ =>
    obtain rfl : u = t := Option.some.inj (hmove.owner.symm.trans he)
    cases hmove <;> simp_all
  | led h | finished h =>
    cases he
    rw [h.frame] at hframe
    cases hframe
  | endContext | invalidate | close => cases he

/-- The leader of a call whose build is over ends the call when it moves. -/
theorem Change.ends {c : Nat} {r : TranslationRequest V} {key : TranslationCacheKey D}
    {o : BuildOutcome V} (h : Change s e s') (hframe : s.frames t = .built r key c o)
    (he : e.owner = some t) : (s'.calls c).done := by
  cases h with
  | moved hmove =>
    obtain rfl := Option.some.inj (hmove.owner.symm.trans he)
    cases hmove <;> simp_all
  | led h =>
    cases he
    rw [h.frame] at hframe
    cases hframe
  | finished h =>
    cases he
    rw [h.frame] at hframe
    cases hframe
    obtain ⟨reusable, hcalls⟩ := h.settled.calls
    rw [hcalls, update_self]
    exact done_finish ..
  | endContext | invalidate | close => cases he

end Step

section Execution

variable {capacity : Int} {policy : String}
  (x : Execution (System.step env) (System.start capacity policy))

/-- From one point of an execution to the next. -/
theorem next_state (j : Nat) : x.state (j + 1) = x.state j ∨
    ∃ e, x.event j = some e ∧ Change (x.state j) e (x.state (j + 1)) := by
  cases he : x.event j with
  | none => exact .inl (x.rests j he)
  | some e => exact .inr ⟨e, rfl, change_of_step (x.steps j e he)⟩

theorem inv_state (j : Nat) : Inv env (System.start capacity policy) (x.history j) (x.state j) :=
  inv_run (x.run_history j)

variable {c i : Nat}

section

variable (hfair : x.Fair (Event.GoesOn t))
include hfair

/-- A waiter that something lets go on leaves: a condition that frees it
and stays until it moves is enough. -/
theorem leaves_of_free
    {P : System V D → Prop}
    (hstay : ∀ j e, Waits (x.state j) t c → P (x.state j) →
      Change (x.state j) e (x.state (j + 1)) → e.owner ≠ some t → P (x.state (j + 1)))
    (hfree : ∀ s, Waits s t c → P s → ∃ e : Event V, e.GoesOn t ∧ (s.step env e).isSome)
    (hwaits : Waits (x.state i) t c) (hP : P (x.state i)) :
    ∃ j ≥ i, ¬ Waits (x.state j) t c := by
  refine x.leadsTo (P := fun s => Waits s t c ∧ P s)
    (Q := fun s => ¬ Waits s t c) hfair ?_ (fun j h => hfree _ h.1 h.2) ?_ ⟨hwaits, hP⟩
  · rintro j ⟨hw, hp⟩
    rcases next_state x j with heq | ⟨e, _, hchange⟩
    · rw [heq]
      exact .inl ⟨hw, hp⟩
    · by_cases howner : e.owner = some t
      · exact .inr (hchange.leaves hw howner)
      · refine .inl ⟨?_, hstay j e hw hp hchange howner⟩
        rw [Waits, hchange.frames howner]
        exact hw
  · rintro j e ⟨hw, _⟩ hgoes he
    exact (change_of_step (x.steps j e he)).leaves hw hgoes.owner

theorem leaves_of_done (hwaits : Waits (x.state i) t c)
    (hdone : ((x.state i).calls c).done) : ∃ j ≥ i, ¬ Waits (x.state j) t c := by
  refine leaves_of_free x hfair (P := fun s => (s.calls c).done) ?_ ?_ hwaits hdone
  · intro j e hw hd hchange howner
    obtain ⟨r, key, hframe⟩ := hw
    have hplaced := (inv_state x j).placed t
    rw [hframe] at hplaced
    rw [((inv_state x j).later hchange howner).done c hplaced.2.1 hd]
    exact hd
  · intro s hw hd
    obtain ⟨r, key, hframe⟩ := hw
    refine ⟨.wake t, rfl, ?_⟩
    rw [System.step, hframe]
    dsimp only
    rw [if_pos hd]
    rfl

theorem leaves_of_ended (hwaits : Waits (x.state i) t c)
    (hended : (x.state i).ended t) : ∃ j ≥ i, ¬ Waits (x.state j) t c := by
  refine leaves_of_free x hfair (P := fun s => s.ended t) ?_ ?_ hwaits hended
  · intro j e _ hd hchange howner
    exact hchange.ended howner hd
  · intro s hw hd
    obtain ⟨r, key, hframe⟩ := hw
    refine ⟨.cancel t, rfl, ?_⟩
    rw [System.step, hframe]
    rw [if_pos hd]
    rfl

end

/-- A call whose build is over comes to its end while someone waits. -/
theorem done_of_built {l : Nat} (hfair : x.Fair (Event.GoesOn l))
    (hwaits : Waits (x.state i) t c) (hbuilt : ∃ r key o, (x.state i).frames l = .built r key c o) :
    ∃ j ≥ i, ¬ Waits (x.state j) t c ∨ ((x.state j).calls c).done := by
  refine x.leadsTo (P := fun s => Waits s t c ∧ ∃ r key o, s.frames l = .built r key c o)
    (Q := fun s => ¬ Waits s t c ∨ (s.calls c).done) hfair ?_ ?_ ?_ ⟨hwaits, hbuilt⟩
  · rintro j ⟨hw, r, key, o, hframe⟩
    rcases next_state x j with heq | ⟨e, _, hchange⟩
    · rw [heq]
      exact .inl ⟨hw, r, key, o, hframe⟩
    · by_cases ht : e.owner = some t
      · exact .inr (.inl (hchange.leaves hw ht))
      · by_cases hl : e.owner = some l
        · exact .inr (.inr (hchange.ends hframe hl))
        · refine .inl ⟨?_, r, key, o, ?_⟩
          · rw [Waits, hchange.frames ht]
            exact hw
          · rw [hchange.frames hl]
            exact hframe
  · rintro j ⟨_, r, key, o, hframe⟩
    refine ⟨.finish l, rfl, ?_⟩
    rw [System.step, hframe]
    rfl
  · rintro j e ⟨_, r, key, o, hframe⟩ hgoes he
    exact .inr ((change_of_step (x.steps j e he)).ends hframe hgoes.owner)

/-- A waiter is released once the build it waits for is over or its context
has ended. -/
theorem released (hfair : ∀ u, x.Fair (Event.GoesOn u))
    (hover : (x.state i).ended t ∨ ∀ l r key, (x.state i).frames l ≠ .building r key c) :
    ∃ j ≥ i, ¬ Waits (x.state j) t c := by
  by_cases hw : Waits (x.state i) t c
  · rcases hover with hended | hover
    · exact leaves_of_ended x (hfair t) hw hended
    · obtain ⟨r, key, hframe⟩ := id hw
      have hplaced := (inv_state x i).placed t
      rw [hframe] at hplaced
      obtain ⟨_, _, hdone | hpending, _⟩ := hplaced
      · exact leaves_of_done x (hfair t) hw hdone
      · obtain ⟨l, ⟨r', hl⟩ | ⟨r', o, hl⟩⟩ := (inv_state x i).led hpending
        · exact absurd hl (hover l r' key)
        · obtain ⟨j, hj, hleft | hdone⟩ := done_of_built x (hfair l) hw ⟨r', key, o, hl⟩
          · exact ⟨j, hj, hleft⟩
          · by_cases hw' : Waits (x.state j) t c
            · obtain ⟨k, hk, hleft⟩ := leaves_of_done x (hfair t) hw' hdone
              exact ⟨k, Nat.le_trans hj hk, hleft⟩
            · exact ⟨j, hj, hw'⟩
  · exact ⟨i, Nat.le_refl i, hw⟩

/-- No waiter is orphaned, whatever is invalidated or closed: its call is
done or pending, and a pending call is led by one goroutine. -/
theorem waits_led (i : Nat) :
    (∀ t c, Waits (x.state i) t c →
      ((x.state i).calls c).done ∨ ∃ key, (x.state i).cache.pending.lookup key = some c) ∧
    ∀ key c, (x.state i).cache.pending.lookup key = some c →
      ((x.state i).calls c).done = false ∧ ∃! l, Leads ((x.state i).frames l) key c := by
  have hinv := inv_state x i
  refine ⟨?_, fun key c h => ⟨hinv.undone h, ?_⟩⟩
  · rintro t c ⟨r, key, hframe⟩
    have hplaced := hinv.placed t
    rw [hframe] at hplaced
    exact hplaced.2.2.1.imp_right fun h => ⟨key, h⟩
  · obtain ⟨l, hl⟩ := hinv.led h
    exact ⟨l, hl, fun _ h' => hinv.single h' hl (.inl rfl)⟩

end Execution

/-! ## The cache -/

/-- The key of the build that runs in a goroutine, registered or alone. -/
def Frame.inFlight : Frame V D → Option (TranslationCacheKey D)
  | .building _ key _ => some key
  | .uncached _ key _ => some key
  | _ => none

/-- The step of a goroutine that stores a result: its build began, and
ended, after the last `Invalidate`. -/
theorem Inv.stores {start s s' : System V D} {es : List (Event V)} (hinv : Inv env start es s)
    (hstep : s.step env (.finish t) = some s')
    (hstores : s'.cache.stats.insertions ≠ s.cache.stats.insertions) :
    ∃ r key c o during after, s.frames t = .built r key c o ∧
      Returned env start es during after t r key c o ∧ (∀ e ∈ after, e.owner ≠ some t) ∧
      .invalidate ∉ during ∧ .invalidate ∉ after := by
  cases change_of_step hstep with
  | moved hmove hshares => exact absurd hshares.insertions hstores
  | @finished _ r key c o _ h =>
    have hstored := h.settled.insertions.resolve_left hstores
    obtain ⟨entry, hentry⟩ := Option.isSome_iff_exists.mp hstored
    obtain ⟨_, _, during, after, hreturned⟩ := hinv.fresh_of_stored h.frame hentry
    exact ⟨r, key, c, o, during, after, h.frame, hreturned⟩

/-- Over every interleaving of requests, `Invalidate` and `Close`, whatever
the builds do: an entry is of the current generation, and made by a build
that began in it; no two goroutines lead a build of one key, and a
goroutine that builds besides has one of three reasons to; what is stored
was built since the last `Invalidate`. Where no goroutine that can go on is
passed over for ever, a waiter is released when the build it waits for is
over or its context has ended. -/
theorem getOrBuildContext_interleaved (env : TranslationEnv V D)
    (capacity : Int) (policy : String) : (∀ (es : List (Event V)) (s : System V D),
      run (System.step env) (System.start capacity policy) es = some s →
      (∀ key entry, s.cache.lookup key = some entry →
        key.schemaGeneration = s.cache.schemaGeneration ∧
        Fresh env (System.start capacity policy) es key entry) ∧
      (∀ t t' key c c', Leads (s.frames t) key c → Leads (s.frames t') key c' → t = t') ∧
      (∀ t key, (s.frames t).inFlight = some key → (∃ c, Leads (s.frames t) key c) ∨
        ∃ r why, s.frames t = .uncached r key why ∧
          Excused env (System.start capacity policy) es s key why) ∧
      (∀ t s', s.step env (.finish t) = some s' →
        s'.cache.stats.insertions ≠ s.cache.stats.insertions →
        ∃ r key c o during after, s.frames t = .built r key c o ∧
          Returned env (System.start capacity policy) es during after t r key
            c o ∧ (∀ e ∈ after, e.owner ≠ some t) ∧ .invalidate ∉ during ∧ .invalidate ∉ after)) ∧
    ∀ x : Execution (System.step env) (System.start capacity policy),
      (∀ u, x.Fair (Event.GoesOn u)) → ∀ t c i,
      ((x.state i).ended t ∨ ∀ l r key, (x.state i).frames l ≠ .building r key c) →
      ∃ j ≥ i, ¬ Waits (x.state j) t c := by
  refine ⟨?_, fun x hfair t c i => released x hfair⟩
  intro es s hrun
  have hinv := inv_run hrun
  refine ⟨fun key entry h => ⟨hinv.current h, hinv.fresh h⟩,
    fun t t' key c c' h h' => hinv.single h h' (.inl rfl), ?_, fun t s' => hinv.stores⟩
  intro t key hflight
  have hplaced := hinv.placed t
  cases hframe : s.frames t with
  | building r key' c =>
    rw [hframe] at hflight
    cases hflight
    exact .inl ⟨c, .inl ⟨r, rfl⟩⟩
  | uncached r key' why =>
    rw [hframe] at hflight hplaced
    cases hflight
    exact .inr ⟨r, why, rfl, hplaced⟩
  | _ =>
    rw [hframe] at hflight
    cases hflight

/-- Three goroutines ask for one text. The build of the first one fails, and
the two that waited behind it build for themselves. -/
def failedBuild : List (Event Nat) :=
  let asks t := [.request t ⟨"q", 0, ∅⟩, .check t, .enter t]
  asks 0 ++ asks 1 ++ asks 2 ++ [.build 0 (.failed "e"), .finish 0, .wake 1, .wake 2]

/-- A driver whose digest of a text is the text. -/
def plainEnv : TranslationEnv Nat String := ⟨id, fun _ => .ok "int8", fun _ => "int", .ok⟩

theorem failedBuild_two_in_flight : ¬ ∀ es (s : System Nat String),
    run (System.step plainEnv) (System.start 256 "") es = some s →
    ∀ t t' key, key.schemaGeneration = s.cache.schemaGeneration →
      (s.frames t).inFlight = some key → (s.frames t').inFlight = some key → t = t' := by
  intro h
  let key := (new 256 "" : TranslationCache String).key plainEnv "q" 0 ∅
  have heval : (run (System.step plainEnv) (System.start 256 "")
      failedBuild).map (fun s => (s.cache.schemaGeneration,
        (s.frames 1).inFlight, (s.frames 2).inFlight)) =
      some (key.schemaGeneration, some key, some key) := by decide +kernel
  obtain ⟨s, hs, heq⟩ := Option.map_eq_some_iff.mp heval
  simp only [Prod.mk.injEq] at heq
  have h12 := h failedBuild s hs 1 2 key heq.1.symm heq.2.1 heq.2.2
  cases h12

end Dawgs.Ref.TranslationCache

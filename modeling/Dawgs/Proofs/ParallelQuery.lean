import Dawgs.Ref.ParallelQuery

/-!
# When the parallel node query covers every identifier

Two things are kept by every event. The ranges whose floors have left the
caller are those of the calls that succeeded or failed, of the calls under
way and of the submissions that gave up (`Ranges`). The errors that arose
are those collected, dropped or still to be submitted, and while floors are
submitted and the context is alive a worker is done only if its error was
collected or dropped (`Errors`).

So a worker that could take the next floor is missing exactly if every one
of them has failed. Then nobody receives, the caller stays in `Submit`, the
collector waits for errors that cannot come, and only a cancellation ends
it. The other defect is the cancellation itself. A submission that gives up
is not an error, and neither is one that drops an error, so the function may
return nothing after having left out ranges.
-/

namespace Dawgs.Ref.ParallelQuery

open Lib List Option Nat Bool

variable {numWorkers largest i : Nat} {s s' : State} {w w' : Worker} {workers : List Worker}

/-- The range a worker is querying. -/
def Worker.floor? : Worker → Option Nat
  | .querying floor => some floor
  | _ => none

/-- The ranges of the calls under way. -/
def inFlight (workers : List Worker) : List Nat := workers.filterMap Worker.floor?

/-- One worker goes on, the others do not. -/
theorem exists_perm_set (h : workers[i]? = some w) :
    ∃ others, workers.Perm (w :: others) ∧ ∀ w', (workers.set i w').Perm (w' :: others) := by
  obtain ⟨hi, rfl⟩ := List.getElem?_eq_some_iff.mp h
  exact ⟨workers.eraseIdx i, (getElem_cons_eraseIdx_perm hi).symm,
    fun w' => set_perm_cons_eraseIdx hi w'⟩

/-- How many floors have left the caller. -/
def Position (largest k : Nat) : Caller → Prop
  | .submitting floor => floor = stride * k ∧ k ≤ largest / stride
  | _ => k = largest / stride + 1

/-- The last range ends before the identifiers do. -/
def Fits (largest : Nat) : Prop := stride * (largest / stride + 1) < idCount

theorem stride_pos : 0 < stride := by decide +kernel

theorem nextRangeFloor_mul (hl : Fits largest) {k : Nat} (hk : k ≤ largest / stride) :
    nextRangeFloor (stride * k) = stride * (k + 1) := by
  have hle : stride * (k + 1) ≤ stride * (largest / stride + 1) :=
    mul_le_mul_left _ (succ_le_succ hk)
  exact Nat.mod_eq_of_lt (Nat.lt_of_le_of_lt hle hl)

theorem position_loop {k : Nat} (hk : k ≤ largest / stride + 1) :
    Position largest k (loop largest (stride * k)) := by
  have hpos : 0 < stride := stride_pos
  unfold loop
  split
  next h => exact ⟨rfl, (Nat.le_div_iff_mul_le hpos).mpr (by rwa [Nat.mul_comm])⟩
  next h =>
    have hlt : largest / stride < k :=
      (Nat.div_lt_iff_lt_mul hpos).mpr (by rw [Nat.mul_comm]; omega)
    show k = largest / stride + 1
    omega

theorem position_next (hl : Fits largest) {k floor : Nat}
    (h : Position largest k (.submitting floor)) :
    Position largest (k + 1) (loop largest (nextRangeFloor floor)) := by
  have hk : k ≤ largest / stride := h.2
  have hfloor : floor = stride * k := h.1
  rw [hfloor, nextRangeFloor_mul hl hk]
  exact position_loop (by omega)

/-- The ranges whose floors have left the caller, by where they went. -/
def State.accounted (s : State) : List Nat :=
  s.succeeded ++ s.failed ++ s.skipped ++ inFlight s.workers

/-- They are the ranges up to the next floor. -/
def Ranges (largest : Nat) (s : State) : Prop :=
  ∃ k, Position largest k s.caller ∧ s.accounted.Perm ((range k).map (stride * ·))

theorem Ranges.same (h : Ranges largest s) (hc : s'.caller = s.caller)
    (hp : s'.accounted.Perm s.accounted) : Ranges largest s' := by
  obtain ⟨k, hk, hr⟩ := h
  rw [← hc] at hk
  exact ⟨k, hk, hp.trans hr⟩

/-- One more floor has left the caller. -/
theorem Ranges.next (hl : Fits largest) (h : Ranges largest s) {floor : Nat}
    (hc : s.caller = .submitting floor) (hc' : s'.caller = loop largest (nextRangeFloor floor))
    (hp : s'.accounted.Perm (floor :: s.accounted)) : Ranges largest s' := by
  obtain ⟨k, hk, hr⟩ := h
  rw [hc] at hk
  refine ⟨k + 1, hc' ▸ position_next hl hk, ?_⟩
  rw [range_succ, map_append, map_singleton, ← hk.1]
  exact (hp.trans (hr.cons floor)).trans (perm_append_singleton ..).symm

theorem inFlight_perm {others : List Worker} (h : workers.Perm (w :: others)) :
    (inFlight workers).Perm (w.floor?.toList ++ inFlight others) := by
  refine (h.filterMap _).trans ?_
  cases w <;> exact .refl _

/-- A worker goes on with another range, or with none. -/
theorem accounted_set (hw : s.workers[i]? = some w) (w' : Worker) :
    (w.floor?.toList ++ (s.set i w').accounted).Perm (w'.floor?.toList ++ s.accounted) := by
  obtain ⟨others, ho, hset⟩ := exists_perm_set hw
  refine (((inFlight_perm (hset w')).append_left _).append_left _).trans ?_
  refine .trans ?_ (((inFlight_perm ho).append_left _).append_left _).symm
  rw [perm_iff_count]
  simp only [count_append, State.set]
  omega

section

variable (h : Ranges largest s) (hw : s.workers[i]? = some w) (hfloor : w.floor? = none)
include h hw hfloor

/-- A worker goes on and takes no range with it. -/
theorem Ranges.set
    (hfloor' : w'.floor? = none) : Ranges largest (s.set i w') := by
  have hp := accounted_set hw w'
  rw [hfloor, hfloor'] at hp
  exact h.same rfl hp

theorem Ranges.fail
    : Ranges largest (s.fail i) := h.set hw hfloor rfl

end

theorem ranges_step (hl : Fits largest) (h : Ranges largest s) {e : Event}
    (he : step largest s e = some s') : Ranges largest s' := by
  revert he
  fun_cases step largest s e with
  | case1 | case19 =>
    rintro ⟨⟩
    exact h
  | case2 i ok hw =>
    rintro ⟨⟩
    cases ok with
    | true => exact h.set hw rfl rfl
    | false => exact h.fail hw rfl
  | case4 i floor hw hc =>
    rintro ⟨⟩
    exact h.next hl hc rfl (accounted_set hw (.querying floor))
  | case6 floor hc =>
    rintro ⟨⟩
    refine h.next hl hc rfl ?_
    simp only [State.accounted, append_assoc]
    rw [← append_assoc, ← append_assoc s.succeeded]
    exact perm_middle
  | case9 i ok floor hw =>
    rintro ⟨⟩
    cases ok with
    | true => exact h.same rfl (accounted_set hw .receiving)
    | false =>
      refine h.same rfl (.trans ?_ (accounted_set hw .submitting))
      simp only [State.accounted, append_assoc]
      exact perm_middle
  | case11 i ok hw =>
    rintro ⟨⟩
    cases ok with
    | true => exact h.set hw.1 rfl rfl
    | false => exact h.fail hw.1 rfl
  | case13 i hw | case15 i hw =>
    rintro ⟨⟩
    exact h.set hw.1 rfl rfl
  | case17 hc | case21 hc =>
    rintro ⟨⟩
    obtain ⟨k, hk, hp⟩ := h
    rw [hc.1] at hk
    exact ⟨k, hk, hp⟩
  -- The event cannot happen here.
  | _ => nofun

/-- The workers have left and only the collector is waited for. -/
def Caller.joined : Caller → Bool
  | .joiningCollector | .returned => true
  | _ => false

/-- What the workers that left and the errors say of each other. -/
structure Errors (numWorkers : Nat) (s : State) : Prop where
  length : s.workers.length = numWorkers
  arose : s.failures = s.workers.count .submitting + s.errs + s.dropped
  failed : s.failed.length ≤ s.failures
  left : s.cancelled = false → s.caller.closed = false → s.workers.count .done = s.errs + s.dropped
  collector : s.collecting = false → s.cancelled = true ∨ s.caller.joined = true
  joined : s.caller.joined = true → ∀ w ∈ s.workers, w = .done

theorem count_set (hw : workers[i]? = some w) (w' v : Worker) :
    (workers.set i w').count v + [w].count v = workers.count v + [w'].count v := by
  obtain ⟨others, ho, hset⟩ := exists_perm_set hw
  rw [ho.count_eq v, (hset w').count_eq v]
  simp only [count_cons]
  omega

theorem not_joined_loop (largest floor : Nat) : (loop largest floor).joined = false := by
  unfold loop
  split <;> rfl

section

variable (h : Errors numWorkers s)
include h

/-- While a worker is not done the caller still waits for the workers. -/
theorem Errors.not_joined
    (hw : s.workers[i]? = some w) (hne : w ≠ .done) : s.caller.joined = false := by
  by_contra hj
  rw [not_eq_false] at hj
  exact hne (h.joined hj w (mem_of_getElem? hw))

/-- One worker goes on: its errors and its end are accounted for. -/
theorem Errors.move (hworkers : s'.workers = s.workers.set i w') (hw : s.workers[i]? = some w)
    (hcollecting : s'.collecting = s.collecting) (hcancelled : s'.cancelled = s.cancelled)
    (hjoined : s.caller.joined = false → s'.caller.joined = false)
    (hclosed : s'.caller.closed = false → s.caller.closed = false) (hne : w ≠ .done)
    (harose : s'.failures + [w].count .submitting + s.errs + s.dropped =
      s.failures + [w'].count .submitting + s'.errs + s'.dropped)
    (hfailed : s'.failed.length + s.failures ≤ s.failed.length + s'.failures)
    (hleft : s.cancelled = false → s.caller.closed = false →
      s.errs + s.dropped + [w'].count .done = s'.errs + s'.dropped) : Errors numWorkers s' := by
  have hnot := h.not_joined hw hne
  constructor
  case length => rw [hworkers, length_set, h.length]
  case arose =>
    have hcount := count_set hw w' .submitting
    have := h.arose
    rw [hworkers]
    omega
  case failed =>
    have := h.failed
    omega
  case left =>
    intro hc hr
    rw [hcancelled] at hc
    have hcount := count_set hw w' .done
    have hw0 : [w].count .done = 0 := by
      rw [count_singleton, beq_false_of_ne hne]
      rfl
    have := h.left hc (hclosed hr)
    have := hleft hc (hclosed hr)
    rw [hworkers]
    omega
  case collector =>
    intro hc
    rw [hcollecting] at hc
    rw [hcancelled]
    refine .inl ((h.collector hc).resolve_right ?_)
    rw [hnot]
    decide
  case joined =>
    intro hj
    rw [hjoined hnot] at hj
    cases hj

omit h in
theorem Errors.start (largest : Nat) : Errors numWorkers (start numWorkers largest) where
  length := length_replicate
  arose := by
    show 0 = (replicate numWorkers Worker.starting).count .submitting
    rw [count_replicate]
    rfl
  failed := Nat.le_refl 0
  left := fun _ _ => by
    show (replicate numWorkers Worker.starting).count .done = 0
    rw [count_replicate]
    rfl
  collector := nofun
  joined := fun h => by
    cases h

/-- A transaction fails, with or without a call that failed. -/
theorem Errors.fail (hw : s.workers[i]? = some w) (hne : w ≠ .done) (hs : [w].count .submitting = 0)
    {failed : List Nat} (hfailed : failed.length ≤ s.failed.length + 1) :
    Errors numWorkers { s.fail i with failed := failed } := by
  refine h.move rfl hw rfl rfl id id hne ?_ ?_ fun _ _ => rfl
  · show s.failures + 1 + [w].count .submitting + s.errs + s.dropped =
      s.failures + 1 + s.errs + s.dropped
    omega
  · show failed.length + s.failures ≤ s.failed.length + (s.failures + 1)
    omega

theorem errors_step {e : Event} (he : step largest s e = some s') : Errors numWorkers s' := by
  revert he
  fun_cases step largest s e with
  | case1 =>
    rintro ⟨⟩
    exact ⟨h.length, h.arose, h.failed, nofun, fun _ => .inl rfl, h.joined⟩
  | case2 i ok hw =>
    rintro ⟨⟩
    cases ok with
    | true => exact h.move rfl hw rfl rfl id id nofun rfl (Nat.le_refl _) fun _ _ => rfl
    | false => exact h.fail hw nofun rfl (le_succ _)
  | case4 i floor hw hc =>
    rintro ⟨⟩
    refine h.move rfl hw rfl rfl (fun _ => not_joined_loop ..) ?_ nofun
      rfl (Nat.le_refl _) fun _ _ => rfl
    intro _
    rw [hc]
    rfl
  | case6 floor hc hcancelled =>
    rintro ⟨⟩
    refine ⟨h.length, h.arose, h.failed, ?_, fun _ => .inl hcancelled, ?_⟩
    · intro hc
      exact absurd hcancelled (by rw [show s.cancelled = false from hc]; decide)
    · intro hj
      rw [show _ = false from not_joined_loop ..] at hj
      cases hj
  | case9 i ok floor hw =>
    rintro ⟨⟩
    cases ok with
    | true => exact h.move rfl hw rfl rfl id id nofun rfl (Nat.le_refl _) fun _ _ => rfl
    | false => exact h.fail hw nofun rfl (Nat.le_refl _)
  | case11 i ok hw =>
    rintro ⟨⟩
    obtain ⟨hw, hstop⟩ := hw
    cases ok with
    | true =>
      refine h.move rfl hw rfl rfl id id nofun rfl (Nat.le_refl _) ?_
      intro hc hr
      rw [hc, hr] at hstop
      cases hstop
    | false => exact h.fail hw nofun rfl (le_succ _)
  | case13 i hw =>
    rintro ⟨⟩
    refine h.move rfl hw.1 rfl rfl id id nofun ?_ (Nat.le_refl _) fun _ _ => ?_
    · show s.failures + 1 + s.errs + s.dropped = s.failures + 0 + (s.errs + 1) + s.dropped
      omega
    · show s.errs + s.dropped + 1 = s.errs + 1 + s.dropped
      omega
  | case15 i hw =>
    rintro ⟨⟩
    refine h.move rfl hw.1 rfl rfl id id nofun ?_ (Nat.le_refl _) fun _ _ => rfl
    show s.failures + 1 + s.errs + s.dropped = s.failures + 0 + s.errs + (s.dropped + 1)
    omega
  | case17 hc =>
    rintro ⟨⟩
    refine ⟨h.length, h.arose, h.failed, nofun, fun _ => .inr rfl, ?_⟩
    intro _
    simpa using hc.2
  | case19 hc =>
    rintro ⟨⟩
    refine ⟨h.length, h.arose, h.failed, h.left, fun _ => ?_, h.joined⟩
    rw [or_eq_true, decide_eq_true_eq] at hc
    exact hc.2.imp_right fun hc => by
      rw [hc]
      rfl
  | case21 hc =>
    rintro ⟨⟩
    refine ⟨h.length, h.arose, h.failed, nofun, fun _ => .inr rfl, ?_⟩
    intro _
    exact h.joined (by rw [hc.1]; rfl)
  | _ => nofun

omit h in
/-- Both hold in every state a history leads to. -/
theorem ranges_run (hl : Fits largest) {es : List Event}
    (h : run (step largest) (start numWorkers largest) es = some s) : Ranges largest s := by
  refine run_invariant (P := fun _ s => Ranges largest s) ?_ (fun _ hr he => ranges_step hl hr he) h
  refine ⟨0, position_loop (zero_le _), ?_⟩
  show (inFlight (replicate numWorkers Worker.starting)).Perm []
  rw [inFlight, filterMap_replicate_of_none rfl]

omit h in
theorem errors_run {es : List Event}
    (h : run (step largest) (start numWorkers largest) es = some s) : Errors numWorkers s :=
  run_invariant (P := fun _ s => Errors numWorkers s) (Errors.start largest)
    (fun _ hr he => errors_step hr he) h

/-- A worker that is not done can go on while the context is alive. -/
theorem Errors.worker_moves (halive : s.cancelled = false) (hw : s.workers[i]? = some w)
    (hne : w ≠ .done) : ∃ e, step largest s e ≠ none ∧ e ≠ .cancel := by
  have hnot := h.not_joined hw hne
  have hcollecting : s.collecting = true := by
    by_contra hc
    rw [not_eq_true] at hc
    have := h.collector hc
    rw [halive, hnot] at this
    simp at this
  cases w with
  | starting => exact ⟨.opened i true, by simp [step, hw], nofun⟩
  | receiving =>
    cases hc : s.caller with
    | submitting floor => exact ⟨.handedOver i, by simp [step, hw, hc], nofun⟩
    | joiningWorkers | joiningCollector | returned =>
      exact ⟨.stopped i true, by simp [step, hw, hc, Caller.closed], nofun⟩
  | querying floor => exact ⟨.answered i true, by simp [step, hw], nofun⟩
  | submitting => exact ⟨.collected i, by simp [step, hw, hcollecting], nofun⟩
  | done => exact absurd rfl hne

/-- Blocked is where every worker has left and floors remain. -/
theorem Errors.blocked_iff :
    Blocked largest s ↔ s.cancelled = false ∧ s.caller.closed = false ∧
      ∀ w ∈ s.workers, w = .done := by
  constructor
  · rintro ⟨hreturned, halive, hstuck⟩
    have hdone : ∀ w ∈ s.workers, w = .done := by
      intro w hmem
      by_contra hne
      obtain ⟨i, hw⟩ := getElem?_of_mem hmem
      have hmoves : ∃ e, step largest s e ≠ none ∧ e ≠ .cancel := h.worker_moves halive hw hne
      obtain ⟨e, he, hcancel⟩ := hmoves
      exact hcancel (hstuck e he)
    refine ⟨halive, ?_, hdone⟩
    cases hc : s.caller with
    | submitting floor => rfl
    | joiningWorkers =>
      have := hstuck .joinedWorkers (by simpa [step, hc] using hdone)
      cases this
    | joiningCollector =>
      cases hcollecting : s.collecting with
      | true =>
        have := hstuck .collectorLeft (by simp [step, hc, hcollecting])
        cases this
      | false =>
        have := hstuck .joinedCollector (by simp [step, hc, hcollecting])
        cases this
    | returned => exact absurd hc hreturned
  · rintro ⟨halive, hclosed, hdone⟩
    have hw {i : Nat} {w : Worker} (hi : s.workers[i]? = some w) : w = .done :=
      hdone w (mem_of_getElem? hi)
    have hc : s.caller ≠ .joiningWorkers ∧ s.caller ≠ .joiningCollector ∧ s.caller ≠ .returned := by
      refine ⟨?_, ?_, ?_⟩ <;>
      · intro hc
        rw [hc] at hclosed
        cases hclosed
    refine ⟨hc.2.2, halive, fun e he => ?_⟩
    revert he
    fun_cases step largest s e with
    | case1 => exact fun _ => rfl
    | case2 i ok hi | case4 i floor hi | case9 i ok floor hi => cases hw hi
    | case6 floor _ hcancelled => cases halive.symm.trans hcancelled
    | case11 i ok hi | case13 i hi | case15 i hi => cases hw hi.1
    | case17 hi => cases hc.1 hi.1
    | case19 hi =>
      rw [halive, Bool.false_or, decide_eq_true_eq] at hi
      cases hc.2.1 hi.2
    | case21 hi => cases hc.2.1 hi.1
    | _ => exact fun he => absurd rfl he

end

/-- The ranges up to the largest identifier select each one once. -/
theorem countP_selects (hl : Fits largest) {id : Nat} (hid : id ≤ largest) :
    ((range (largest / stride + 1)).map (stride * ·)).countP (selects · id) = 1 := by
  have hselects : ∀ k ∈ range (largest / stride + 1),
      selects (stride * k) id = true ↔ (k == id / stride) = true := by
    intro k hk
    have hk : k ≤ largest / stride := le_of_lt_succ (mem_range.mp hk)
    rw [selects, nextRangeFloor_mul hl hk, and_eq_true,
      decide_eq_true_eq, decide_eq_true_eq, beq_iff_eq]
    have hle := le_div_iff_mul_le (x := k) (y := id) stride_pos
    have hlt := div_lt_iff_lt_mul (x := id) (y := k + 1) stride_pos
    rw [Nat.mul_comm] at hle hlt
    omega
  have hmem : id / stride ∈ range (largest / stride + 1) :=
    mem_range.mpr (Nat.lt_succ_of_le (Nat.div_le_div_right hid))
  rw [countP_map]
  calc (range (largest / stride + 1)).countP ((selects · id) ∘ (stride * ·))
      = (range (largest / stride + 1)).count (id / stride) := countP_congr hselects
    _ = 1 := count_eq_one_of_mem nodup_range hmem

/-- A run in which no submission gave up and no error was dropped: if it
returns without an error, nothing failed. -/
theorem coversOnce_of_returnedNil (hl : Fits largest) (hr : Ranges largest s)
    (h : Errors numWorkers s) (hreturned : ReturnedNil s) (hskipped : s.skipped = [])
    (hdropped : s.dropped = 0) : CoversOnce largest s := by
  intro id hid
  obtain ⟨k, hk, hp⟩ := hr
  have hdone := h.joined (by rw [hreturned.1]; rfl)
  have hsub : s.workers.count .submitting = 0 := count_eq_zero.mpr fun hmem => nomatch hdone _ hmem
  have hfailed : s.failed = [] := by
    have harose := h.arose
    have hle := h.failed
    rw [hreturned.2] at harose
    exact eq_nil_of_length_eq_zero (by omega)
  have hflight : inFlight s.workers = [] :=
    filterMap_eq_nil_iff.mpr fun w hw => by
      rw [hdone w hw]
      rfl
  rw [State.accounted, hfailed, hskipped, hflight, append_nil, append_nil, append_nil] at hp
  rw [hreturned.1] at hk
  rw [hp.countP_eq, show k = largest / stride + 1 from hk]
  exact countP_selects hl hid

/-- Before the step at hand, fewer transactions than workers have failed
while floors remain, and no submission gave up. -/
structure Undisturbed (numWorkers : Nat) (s : State) : Prop where
  serves : s.caller.closed = false → s.failures < numWorkers
  skipped : s.skipped = []
  dropped : s.dropped = 0

theorem parallelNodeQuery_safe (hl : Fits largest) {es : List Event}
    (h : run (step largest) (start numWorkers largest) es = some s) (hs : Undisturbed numWorkers s)
    : ¬Blocked largest s ∧ (ReturnedNil s → CoversOnce largest s) := by
  have he := errors_run h
  refine ⟨?_, fun hn => coversOnce_of_returnedNil hl (ranges_run hl h) he hn hs.skipped hs.dropped⟩
  rw [he.blocked_iff]
  rintro ⟨halive, hclosed, hdone⟩
  have hall : s.workers.count .done = s.workers.length :=
    count_eq_length.mpr fun w hw => (hdone w hw).symm
  have hlength := he.length
  have harose := he.arose
  have hleft := he.left halive hclosed
  have hfew := hs.serves hclosed
  omega

/-- One worker and one range. -/
theorem parallelNodeQuery_safe_one : ∃ s, run (step 0) (start 1 0) [.opened 0 true, .handedOver 0,
        .answered 0 true, .stopped 0 true, .joinedWorkers, .collectorLeft,
        .joinedCollector] = some s ∧ ReturnedNil s ∧ ¬Blocked 0 s ∧ CoversOnce 0 s := by
  have hrun : run (step 0) (start 1 0) [.opened 0 true, .handedOver 0,
      .answered 0 true, .stopped 0 true, .joinedWorkers, .collectorLeft, .joinedCollector] =
      some ⟨.returned, [.done], false, false, 0, [0], [], [], 0, 0⟩ := by
    decide +kernel
  have hl : Fits 0 := by
    unfold Fits
    decide +kernel
  have hsafe := parallelNodeQuery_safe hl hrun ⟨nofun, rfl, rfl⟩
  exact ⟨_, hrun, ⟨rfl, rfl⟩, hsafe.1, hsafe.2 ⟨rfl, rfl⟩⟩

/-- The only worker fails on the first of two ranges, and the caller is left
in `Submit`. Or the context is cancelled at once, and the caller returns
nothing although no range was queried. -/
theorem parallelNodeQuery_blocks :
    (∃ es s, run (step 20000) (start 1 20000) es = some s ∧ Blocked 20000 s) ∧
    ∃ es s, run (step 0) (start 1 0) es = some s ∧ ReturnedNil s ∧ ¬CoversOnce 0 s := by
  constructor
  · have hrun : run (step 20000) (start 1 20000) [.opened 0 true,
        .handedOver 0, .answered 0 false, .collected 0] =
        some ⟨.submitting 20000, [.done], true, false, 1, [], [0], [], 1, 0⟩ := by
      decide +kernel
    refine ⟨_, _, hrun, (errors_run hrun).blocked_iff.mpr ⟨rfl, rfl, ?_⟩⟩
    exact forall_mem_singleton.mpr rfl
  · have hrun : run (step 0) (start 1 0) [.cancel, .gaveUp,
        .opened 0 true, .stopped 0 true, .joinedWorkers, .collectorLeft, .joinedCollector] =
        some ⟨.returned, [.done], false, true, 0, [], [], [0], 0, 0⟩ := by
      decide +kernel
    refine ⟨_, _, hrun, ⟨rfl, rfl⟩, fun hcovers => ?_⟩
    cases hcovers 0 (Nat.le_refl 0)

end Dawgs.Ref.ParallelQuery

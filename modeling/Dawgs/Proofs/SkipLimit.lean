import Dawgs.Lib.Machine
import Dawgs.Ref.SkipLimit

/-!
# The counts do not depend on the schedule

`Counted` holds of a counter under every interleaving: its value is the
number of calls that were told it was not reached, and a call is told that
it was only when the value is the maximum. A call that fails to swap does so
because another one succeeded, so the work left goes down with every
operation and every interleaving ends.

To each of its counters a visitor's calls look like calls of that counter
(`Call.skips`, `Call.limits`), so the same invariant says how many of them
were skipped and how many were passed on. The first counter counts to the
skip as a number without sign. A negative skip is a very large one there,
where `LimitSkipTracker` of the other traversal takes it for none.
-/

namespace Dawgs.Ref.SkipLimit

open Lib Finset Nat Function

variable {n maximum counter : Nat} {calls : Fin n → CounterCall} {i : Fin n} {loop : Loop}
  {call : CounterCall}

/-- The calls that were given an answer. -/
def told (calls : Fin n → CounterCall) (reached : Bool) : Finset (Fin n) :=
  univ.filter fun i => calls i = .inr reached

section

variable (maximum counter : Nat)

@[simp] theorem mem_told {reached : Bool} : i ∈ told calls reached ↔ calls i = .inr reached := by
  simp [told]

/-- What is known of a call. -/
def Fits : CounterCall → Prop
  | .inl (.swap v) => v < maximum
  | .inr true => counter = maximum
  | _ => True

/-- What a counter and its calls keep to. -/
structure Counted (calls : Fin n → CounterCall) : Prop where
  counter_eq : counter = (told calls false).card
  counter_le : counter ≤ maximum
  fits : ∀ i, Fits maximum counter (calls i)

/-- A bound on the operations a call still needs. -/
def rest : CounterCall → Nat
  | .inl .load => 2 * (maximum - counter) + 2
  | .inl (.swap v) => 2 * (maximum - counter) + if v = counter then 1 else 3
  | .inr _ => 0

def work (calls : Fin n → CounterCall) : Nat :=
  ∑ i, rest maximum counter (calls i)

end

namespace Counted

section

variable (h : Counted maximum counter calls)
include h

theorem reached (hi : calls i = .inr true) : counter = maximum := by
  have hfits := h.fits i
  rwa [hi] at hfits

/-- A call goes on without an answer, or with the one that the maximum is
reached. -/
theorem update (hi : calls i = .inl loop) (hfalse : call ≠ .inr false)
    (hcall : Fits maximum counter call) :
    Counted maximum counter (update calls i call) := by
  refine ⟨h.counter_eq.trans (congrArg card ?_), h.counter_le,
    (forall_update_iff calls fun _ => Fits maximum counter).mpr
      ⟨hcall, fun j _ => h.fits j⟩⟩
  ext j
  rcases eq_or_ne j i with rfl | hj
  · simp [hi, hfalse]
  · simp [hj]

theorem op (hi : calls i = .inl loop) :
    Counted maximum (counterOp maximum counter loop).1
      (Function.update calls i (counterOp maximum counter loop).2) := by
  cases loop with
  | load =>
    rw [counterOp]
    split
    next hlt => exact h.update hi nofun hlt
    next hle =>
      exact h.update hi nofun (Nat.le_antisymm h.counter_le (Nat.le_of_not_lt hle))
  | swap v =>
    have hlt := h.fits i
    rw [hi] at hlt
    rw [counterOp]
    split
    next heq =>
      subst heq
      refine ⟨?_, hlt, (Function.forall_update_iff calls fun _ =>
        Fits maximum (counter + 1)).mpr ⟨trivial, fun j _ => ?_⟩⟩
      · have htold : told (Function.update calls i (.inr false)) false =
            insert i (told calls false) := by
          ext j
          rcases eq_or_ne j i with rfl | hj
          · simp
          · simp [hj]
        rw [htold, card_insert_of_notMem (by simp [hi]), ← h.counter_eq]
      · -- The maximum was not reached, so no call was told it was.
        have hj := h.fits j
        revert hj
        cases calls j with
        | inl loop => cases loop <;> exact id
        | inr r =>
          cases r with
          | false => exact id
          | true => exact fun hj => absurd hj (Nat.ne_of_lt hlt)
    · exact h.update hi nofun trivial

/-- An operation leaves less to do for its call, and not more for the
others. -/
theorem work_lt (hi : calls i = .inl loop) :
    work maximum (counterOp maximum counter loop).1
      (Function.update calls i (counterOp maximum counter loop).2) <
      work maximum counter calls := by
  have hlt : rest maximum (counterOp maximum counter loop).1
      (counterOp maximum counter loop).2 < rest maximum counter (.inl loop) := by
    cases loop <;> grind [counterOp, rest]
  have hle (call : CounterCall) :
      rest maximum (counterOp maximum counter loop).1 call ≤ rest maximum counter call := by
    have hfits := h.fits i
    cases loop <;> fun_cases rest maximum counter call <;>
      grind [counterOp, rest, Fits]
  refine sum_lt_sum (fun j _ => ?_) ⟨i, mem_univ i, by simpa [hi]⟩
  rcases eq_or_ne j i with rfl | hj
  · simpa [hi] using le_of_lt hlt
  · simpa [hj] using hle (calls j)

end

/-- Nobody has been told anything, unless there is nothing to count. -/
theorem start (hcalls : ∀ i, calls i = .inl .load ∨
    calls i = .inr true ∧ maximum = 0) : Counted maximum 0 calls := by
  refine ⟨?_, zero_le _, fun i => ?_⟩
  · have hnone : ∀ i, calls i ≠ .inr false := by grind
    simp [told, hnone]
  · rcases hcalls i with hi | ⟨hi, rfl⟩
    · rw [hi]
      exact trivial
    · rw [hi]
      rfl

end Counted

namespace Counter

/-- Every interleaving of `n` calls ends, and then as many of them as the
maximum allows were told that it was not reached. -/
def Exact (maximum n : Nat) : Prop :=
  ∃ bound, ∀ es c, run (step maximum) (start n) es = some c →
    es.length ≤ bound ∧ ((∀ i, (c.calls i).isRight) → (told c.calls false).card = min maximum n)

theorem counted_step {c c' : Counter n}
    (h : Counted maximum c.counter c.calls) (hstep : c.step maximum i = some c') :
    Counted maximum c'.counter c'.calls ∧
      work maximum c'.counter c'.calls < work maximum c.counter c.calls := by
  rw [step] at hstep
  split at hstep
  · cases hstep
  next hi =>
    obtain rfl := Option.some.inj hstep
    exact ⟨h.op hi, h.work_lt hi⟩

theorem exact (maximum n : Nat) : Exact maximum n := by
  refine ⟨work maximum 0 (start n).calls, fun es c hrun => ?_⟩
  obtain ⟨hinv, hbound⟩ := run_measure (P := fun c : Counter n => Counted maximum c.counter c.calls)
    (.start fun _ => Or.inl rfl) counted_step hrun
  refine ⟨le_of_add_right_le hbound, fun hend => ?_⟩
  have hle := hinv.counter_le
  have hcard := card_le_univ (told c.calls false)
  rw [Fintype.card_fin] at hcard
  by_cases htrue : ∃ i, c.calls i = .inr true
  · obtain ⟨i, hi⟩ := htrue
    rw [← hinv.counter_eq, hinv.reached hi] at hcard ⊢
    omega
  · have hall : told c.calls false = univ := by
      refine eq_univ_of_forall fun i => mem_told.mpr ?_
      obtain ⟨r, hr⟩ := Sum.isRight_iff.mp (hend i)
      cases r with
      | false => exact hr
      | true => exact absurd ⟨i, hr⟩ htrue
    rw [hinv.counter_eq, hall, Finset.card_univ, Fintype.card_fin] at hle
    rw [hall, Finset.card_univ, Fintype.card_fin]
    omega

end Counter

/-! ### Visitors -/

namespace Call

/-- A call as the counter of the results to skip sees it. -/
def skips : Call → CounterCall
  | skipping loop => .inl loop
  | ignored => .inl .load
  | skipped => .inr false
  | _ => .inr true

/-- A call as the counter of the results to pass on sees it. -/
def limits : Call → CounterCall
  | limiting loop => .inl loop
  | refused => .inr true
  | passed => .inr false
  | _ => .inl .load

end Call

namespace Visitor

variable {σ : Type} {filter : σ → Bool × Bool} {skip limit : BitVec 64}
  {segments : Fin n → σ} {s s' : Visitor n}

theorem afterSkip_seen (hlimit : 0 < limit.toInt) :
    (afterSkip limit call).skips = call ∧ (afterSkip limit call).limits = .inl .load ∧
      afterSkip limit call ≠ .ignored := by
  fun_cases afterSkip limit call <;>
    simp [collect, hlimit, Call.skips, Call.limits]

theorem afterLimit_seen :
    (afterLimit call).limits = call ∧ (afterLimit call).skips = .inr true ∧
      afterLimit call ≠ .ignored := by
  fun_cases afterLimit call <;> simp [Call.skips, Call.limits]

/-- What the calls of a visitor keep to. -/
structure Inv (filter : σ → Bool × Bool) (skip limit : BitVec 64)
    (segments : Fin n → σ) (s : Visitor n) : Prop where
  skips : Counted skip.toNat s.shouldCollect (Call.skips ∘ s.calls)
  limits : Counted limit.toNat s.atLimit (Call.limits ∘ s.calls)
  ignored : ∀ i, s.calls i = .ignored ↔ (filter (segments i)).1 = false

def work (skip limit : BitVec 64) (s : Visitor n) : Nat :=
  SkipLimit.work skip.toNat s.shouldCollect (Call.skips ∘ s.calls) +
    SkipLimit.work limit.toNat s.atLimit (Call.limits ∘ s.calls)

theorem Inv.start (hlimit : 0 < limit.toInt) :
    (start skip limit filter segments).Inv filter skip limit segments := by
  have henter (canCollect : Bool) : enter skip limit canCollect =
      if canCollect then if skip = 0 then .limiting .load else .skipping .load
      else .ignored := by
    rw [enter, collect, if_pos hlimit]
  refine ⟨.start fun i => ?_, .start fun i => ?_, fun i => ?_⟩
  all_goals
    simp only [Visitor.start]
    grind [Call.skips, Call.limits]

/-- One counter sees an operation of the call, the other none. -/
theorem Inv.step (h : s.Inv filter skip limit segments)
    (hlimit : 0 < limit.toInt) (hstep : s.step skip limit i = some s') :
    s'.Inv filter skip limit segments ∧ s'.work skip limit < s.work skip limit := by
  have hignored {call : Call} (hi : s.calls i ≠ .ignored) (hcall : call ≠ .ignored) (j : Fin n) :
      update s.calls i call j = .ignored ↔ (filter (segments j)).1 = false := by
    rcases eq_or_ne j i with rfl | hj
    · simpa [hi, hcall] using h.ignored j
    · simpa [hj] using h.ignored j
  rw [Visitor.step] at hstep
  split at hstep
  next loop hi =>
    obtain rfl := Option.some.inj hstep
    obtain ⟨hskips, hlimits, hcall⟩ := afterSkip_seen hlimit
    have hloop : (Call.skips ∘ s.calls) i = .inl loop := by simp [hi, Call.skips]
    have hsame : update (Call.limits ∘ s.calls) i (.inl .load) =
        Call.limits ∘ s.calls := by simp [hi, Call.limits]
    refine ⟨⟨?_, ?_, hignored (by simp [hi]) hcall⟩, ?_⟩
    · rw [Function.comp_update, hskips]
      exact h.skips.op hloop
    · rw [Function.comp_update, hlimits, hsame]
      exact h.limits
    · simp only [work, Function.comp_update, hskips, hlimits, hsame]
      exact Nat.add_lt_add_right (h.skips.work_lt hloop) _
  next loop hi =>
    obtain rfl := Option.some.inj hstep
    obtain ⟨hlimits, hskips, hcall⟩ := afterLimit_seen
    have hloop : (Call.limits ∘ s.calls) i = .inl loop := by
      simp [hi, Call.limits]
    have hsame : update (Call.skips ∘ s.calls) i (.inr true) =
        Call.skips ∘ s.calls := by simp [hi, Call.skips]
    refine ⟨⟨?_, ?_, hignored (by simp [hi]) hcall⟩, ?_⟩
    · rw [comp_update, hskips, hsame]
      exact h.skips
    · rw [Function.comp_update, hlimits]
      exact h.limits.op hloop
    · simp only [work, Function.comp_update, hskips, hlimits, hsame]
      exact Nat.add_lt_add_left (h.limits.work_lt hloop) _
  · cases hstep

/-- The calls whose segment is to be collected. -/
def collectible (filter : σ → Bool × Bool) (segments : Fin n → σ) : Nat :=
  (univ.filter fun i => (filter (segments i)).1 = true).card

/-- The calls whose segment the inner visitor was given. -/
def visited (s : Visitor n) : Nat := (univ.filter fun i => s.calls i = .passed).card

def returned (filter : σ → Bool × Bool) (segments : Fin n → σ)
    (s : Visitor n) : Prop := ∀ i, ((s.calls i).result (filter (segments i)).2).isSome

section

variable (h : s.Inv filter skip limit segments) (hend : s.returned filter segments)
include h hend

/-- A call for a collectible segment that is over was skipped, refused at the
limit or passed on. -/
theorem Inv.collectible_eq
    :
    collectible filter segments = s.shouldCollect +
      (told (Call.limits ∘ s.calls) true).card + s.atLimit := by
  rw [h.skips.counter_eq, h.limits.counter_eq]
  simp only [collectible, told, card_filter, ← sum_add_distrib]
  refine sum_congr rfl fun i _ => ?_
  have hignored := h.ignored i
  have hover := hend i
  cases hcall : s.calls i <;>
    simp_all [Call.skips, Call.limits, Call.result]

theorem Inv.visited_eq :
    s.visited = min limit.toNat (collectible filter segments - skip.toNat) := by
  have hvisited : s.visited = s.atLimit := by
    rw [h.limits.counter_eq, visited, told]
    congr! 3 with i
    cases hcall : s.calls i <;> simp [Call.limits, hcall]
  have hsum := h.collectible_eq hend
  have hskips := h.skips.counter_le
  have hlimits := h.limits.counter_le
  have hreached : 0 < (told (Call.limits ∘ s.calls) true).card →
      s.atLimit = limit.toNat := fun hpos => by
    obtain ⟨i, hi⟩ := card_pos.mp hpos
    exact h.limits.reached (mem_told.mp hi)
  -- A call gets to the limit only if the results to skip were counted.
  have hpast (r : Bool) : 0 < (told (Call.limits ∘ s.calls) r).card →
      s.shouldCollect = skip.toNat := fun hpos => by
    obtain ⟨i, hi⟩ := card_pos.mp hpos
    refine h.skips.reached (i := i) ?_
    cases hcall : s.calls i <;> simp_all [Call.limits, Call.skips]
  have hfalse := hpast false
  rw [← h.limits.counter_eq] at hfalse
  omega

end

/-- Every interleaving of the calls ends, and then the inner visitor was
given as many segments as the skip and the limit leave of the collectible
ones. -/
def Exact (filter : σ → Bool × Bool) (skip limit : BitVec 64)
    (segments : Fin n → σ) : Prop := ∃ bound, ∀ es s,
    run (step skip limit) (Visitor.start skip limit filter segments) es = some s →
      es.length ≤ bound ∧ (s.returned filter segments → (s.visited : Int) = min limit.toInt
          (max 0 (collectible filter segments - skip.toInt)))

theorem exact_iff_eq (hlimit : 0 < limit.toInt) :
    Exact filter skip limit segments ↔
      ((min limit.toNat (collectible filter segments - skip.toNat) : Nat) :
        Int) = min limit.toInt (max 0 (collectible filter segments - skip.toInt)) := by
  have hstart : Inv filter skip limit segments _ := .start hlimit
  have hinv es s (hrun : run (step skip limit)
      (Visitor.start skip limit filter segments) es = some s) :=
    run_measure hstart (fun h => h.step hlimit) hrun
  constructor
  · rintro ⟨_, hall⟩
    obtain ⟨es, s, hrun, hend⟩ : ∃ es s, run (step skip limit)
        (Visitor.start skip limit filter segments) es = some s ∧
          ∀ i, step skip limit s i = none := exists_halted hstart fun h => h.step hlimit
    have hret : s.returned filter segments := by
      intro i
      have hi := hend i
      cases hcall : s.calls i <;> simp_all [step, Call.result]
    rw [← (hall es s hrun).2 hret, (hinv es s hrun).1.visited_eq hret]
  · intro heq
    refine ⟨_, fun es s hrun =>
      ⟨le_of_add_right_le (hinv es s hrun).2, fun hret => ?_⟩⟩
    rw [← heq, (hinv es s hrun).1.visited_eq hret]

/-- With a skip that is not negative, or more calls than there are numbers,
exactly so many segments are passed on, and the counters count exactly. -/
theorem counts_exact_iff (filter : σ → Bool × Bool) (skip limit : BitVec 64)
    (hlimit : 0 < limit.toInt) (segments : Fin n → σ) :
    (Exact filter skip limit segments ∧
      ∀ maximum calls, Counter.Exact maximum calls) ↔ 0 ≤ skip.toInt ∨
        limit.toInt + (2 ^ 64 + skip.toInt) ≤ collectible filter segments := by
  rw [and_iff_left Counter.exact, exact_iff_eq hlimit]
  have hskip := skip.toInt_eq_toNat_cond
  have hlim := limit.toInt_eq_toNat_cond
  split at hskip <;> split at hlim <;> omega

theorem counts_exact_iff_one :
    0 < (1#64).toInt ∧
      ((Exact (fun _ : Unit => (true, true)) 1#64 1#64 (fun _ : Fin 2 => ()) ∧
          ∀ maximum calls, Counter.Exact maximum calls) ↔
        0 ≤ (1#64).toInt ∨ (1#64).toInt + (2 ^ 64 + (1#64).toInt) ≤
          collectible (fun _ : Unit => (true, true)) fun _ : Fin 2 => ()) :=
  ⟨by decide, counts_exact_iff _ _ _ (by decide) _⟩

/-- With a skip of minus one the only result is skipped. -/
theorem negative_skip :
    ¬ (Exact (fun _ : Unit => (true, true)) (-1) 1 (fun _ : Fin 1 => ()) ∧
      ∀ maximum calls, Counter.Exact maximum calls) := by
  rw [and_iff_left Counter.exact, exact_iff_eq (by decide)]
  decide

end Visitor

end Dawgs.Ref.SkipLimit

import Mathlib

/-!
# Worklists

A pool of tasks is worked off in any order: some task is taken out, and in
its place come the tasks it gives rise to and the outputs it makes. The
work of one task may fail. What comes out in the end does not depend on
the order, provided every task gives rise to smaller ones. It is the sum
of what each first task leads to, `outcome`.

That a pool is worked off at all, in whatever order, is the hydra game of
Mathlib.
-/

namespace Dawgs.Lib

open Multiset

variable {T O ε : Type}

/-- The tasks that are left and the outputs so far. -/
structure Pool (T O : Type) where
  tasks : Multiset T
  out : Multiset O

/-- One of the tasks is done. -/
inductive Works (work : T → Except ε (List T × List O)) : Pool T O → Pool T O → Prop
  | take {t rest out next made} (h : work t = .ok (next, made)) :
      Works work ⟨t ::ₘ rest, out⟩ ⟨rest + ↑next, out + ↑made⟩

/-- Tasks of a kind do not fail, and give rise to smaller ones of the same
kind. -/
def Shrinks (work : T → Except ε (List T × List O)) (Good : T → Prop) (rank : T → Nat) : Prop :=
  ∀ t, Good t → ∃ next made, work t = .ok (next, made) ∧ ∀ t' ∈ next, Good t' ∧ rank t' < rank t

/-- What a task leads to, with a bound on the depth. -/
def outcomeWithin (work : T → Except ε (List T × List O)) : Nat → T → Multiset O
  | 0, _ => 0
  | fuel + 1, t =>
    match work t with
    | .ok (next, made) => ↑made + (next.map (outcomeWithin work fuel)).sum
    | .error _ => 0

/-- What a task leads to. -/
def outcome (work : T → Except ε (List T × List O)) (rank : T → Nat) (t : T) :
    Multiset O := outcomeWithin work (rank t + 1) t

section

variable {work : T → Except ε (List T × List O)} {Good : T → Prop}
  {rank : T → Nat} (h : Shrinks work Good rank)
include h

theorem outcomeWithin_eq {t : T} (ht : Good t) {fuel : Nat} (hfuel : rank t < fuel) :
    outcomeWithin work fuel t = outcome work rank t := by
  rw [outcome]
  induction fuel using Nat.strongRecOn generalizing t with
  | ind fuel ih =>
    obtain ⟨next, made, hwork, hnext⟩ := h t ht
    obtain ⟨n, rfl⟩ := Nat.exists_eq_add_one_of_ne_zero (show fuel ≠ 0 by omega)
    rw [outcomeWithin, outcomeWithin, hwork]
    dsimp only
    congr 2
    refine List.map_congr_left fun t' ht' => ?_
    obtain ⟨hgood, hrank⟩ := hnext t' ht'
    rw [ih n (by omega) hgood (by omega)]
    rcases Nat.lt_or_eq_of_le (show rank t ≤ n by omega) with hlt | heq
    · rw [ih (rank t) (by omega) hgood hrank]
    · rw [heq, ih n (by omega) hgood (by omega)]

/-- What a task leads to: its own outputs, and what its tasks lead to. -/
theorem outcome_eq {t : T} (ht : Good t)
    {next : List T} {made : List O} (hwork : work t = .ok (next, made)) :
    outcome work rank t = ↑made + (next.map (outcome work rank)).sum := by
  rw [outcome, outcomeWithin, hwork]
  dsimp only
  congr 2
  refine List.map_congr_left fun t' ht' => ?_
  obtain ⟨next', made', hwork', hnext⟩ := h t ht
  rw [hwork] at hwork'
  cases hwork'
  obtain ⟨hgood, hrank⟩ := hnext t' ht'
  exact outcomeWithin_eq h hgood hrank

/-- All that a pool has given and leads to. -/
def Pool.total (work : T → Except ε (List T × List O)) (rank : T → Nat)
    (p : Pool T O) : Multiset O := p.out + (p.tasks.map (outcome work rank)).sum

variable {p p' : Pool T O} (hp : ∀ t ∈ p.tasks, Good t)
include hp

theorem Works.good (hworks : Works work p p') : ∀ t ∈ p'.tasks, Good t := by
  cases hworks with
  | @take t rest out next made hwork =>
    intro t' ht'
    rcases (mem_add).mp ht' with ht' | ht'
    · exact hp t' (mem_cons_of_mem ht')
    · obtain ⟨next', made', hwork', hnext⟩ := h t (hp t (mem_cons_self ..))
      rw [hwork] at hwork'
      cases hwork'
      exact (hnext t' (mem_coe.mp ht')).1

theorem Works.total (hworks : Works work p p') : p'.total work rank = p.total work rank := by
  cases hworks with
  | @take t rest out next made hwork =>
    have ht : Good t := hp t (mem_cons_self ..)
    rw [Pool.total, Pool.total]
    rw [map_cons, sum_cons, outcome_eq h ht hwork,
      map_add, sum_add, add_assoc, add_assoc]
    congr 2
    exact add_comm ..

/-- However far the work has come, the tasks are of their kind, and what
the pool has given and leads to is the same. -/
theorem good_and_total (hruns : Relation.ReflTransGen (Works work) p p') :
    (∀ t ∈ p'.tasks, Good t) ∧ p'.total work rank = p.total work rank := by
  induction hruns with
  | refl => exact ⟨hp, rfl⟩
  | tail _ hworks ih => exact ⟨hworks.good h ih.1, (hworks.total h ih.1).trans ih.2⟩

/-- A pool that is worked off has given what its first tasks lead to. -/
theorem out_of_worked {out : Multiset O} (hruns : Relation.ReflTransGen (Works work) p ⟨0, out⟩) :
    out = p.total work rank := by
  rw [← (good_and_total h hp hruns).2, Pool.total, map_zero, sum_zero, add_zero]

/-- A pool with tasks left can be worked on. -/
theorem exists_works (htasks : p.tasks ≠ 0) : ∃ p', Works work p p' := by
  obtain ⟨t, ht⟩ := exists_mem_of_ne_zero htasks
  obtain ⟨rest, hrest⟩ := exists_cons_of_mem ht
  obtain ⟨next, made, hwork, _⟩ := h t (hp t ht)
  obtain ⟨tasks, out⟩ := p
  cases hrest
  exact ⟨_, .take hwork⟩

/-- Work on a pool comes to an end, in whatever order it is done. -/
theorem acc_works : Acc (fun p' p => Works work p p') p := by
  have hwf : WellFounded (Relation.CutExpand fun t' t => rank t' < rank t) :=
    (measure rank).wf.cutExpand
  obtain ⟨tasks, out⟩ := p
  induction tasks using hwf.induction generalizing out with
  | _ tasks ih =>
    refine Acc.intro _ ?_
    intro p' hworks
    have hgood := hworks.good h hp
    cases hworks with
    | @take t rest out next made hwork =>
      refine ih _ ⟨↑next, t, ?_, ?_⟩ _ hgood
      · intro t' ht'
        obtain ⟨next', made', hwork', hnext⟩ := h t (hp t (mem_cons_self ..))
        rw [hwork] at hwork'
        cases hwork'
        exact (hnext t' (mem_coe.mp ht')).2
      · rw [← singleton_add, add_comm, add_assoc]

/-- A pool can be worked off. -/
theorem exists_worked : Relation.ReflTransGen (Works work) p ⟨0, p.total work rank⟩ := by
  have hacc := acc_works h hp
  induction hacc with
  | intro p _ ih =>
    by_cases htasks : p.tasks = 0
    · rw [Pool.total, htasks, map_zero, sum_zero, add_zero, ← htasks]
    · obtain ⟨p', hworks⟩ := exists_works h hp htasks
      have hruns := ih p' hworks (hworks.good h hp)
      rw [hworks.total h hp] at hruns
      exact hruns.head hworks

end

end Dawgs.Lib

import Dawgs.Ref.Walker

/-!
# Walks are depth first

A node that unfolds to a finite tree is walked to its end, and the calls of
the walk are those of a recursive one. The stack machine is followed from the
time a cursor is on top of the stack to its pop, with any stack below it.
-/

namespace Dawgs.Ref.Walker

open List

variable {N V : Type}

/-- Calls, each with the consume flag as the visitor left it. -/
abbrev Calls (N : Type) := List (Callback N × Bool)

/-- The call before a branch: the node is entered before the first one and
visited between two. -/
def Cursor.before (c : Cursor N) : Callback N :=
  if c.branchIndex = 0 then .enter c.node else .visit c.node

def Cursor.next (c : Cursor N) : Cursor N := { c with branchIndex := c.branchIndex + 1 }

section
variable (w : Walk N V)

/-- A finite tree, of which every cursor can be constructed. -/
inductive Ast : N → Prop
  | node {n m : N} {branches : List N} : w.cursorConstructor n = .ok ⟨m, branches, 0⟩ →
    (∀ b ∈ branches, Ast b) → Ast n

/-- The calls for a cursor until it is popped, from the branch on that comes
next. A node without branches is entered and left. If the node is consumed
before a branch, it is left at once. Otherwise the branch is walked, and then
come the other branches. -/
inductive Walked : Cursor N → Calls N → Prop
  | leaf {m : N} (f f' : Bool) : Walked ⟨m, [], 0⟩ [(.enter m, f), (.exit m, f')]
  | last {c : Cursor N} (f : Bool) : c.branchIndex ≠ 0 →
    c.branchIndex = c.branches.length → Walked c [(.exit c.node, f)]
  | consumed {c : Cursor N} (f : Bool) : c.branchIndex < c.branches.length →
    Walked c [(c.before, true), (.exit c.node, f)]
  | branch {c c' : Cursor N} {b : N} {calls calls' : Calls N} :
    c.branches[c.branchIndex]? = some b → w.cursorConstructor b = .ok c' → Walked c' calls →
    Walked c.next calls' → Walked c ((c.before, false) :: (calls ++ calls'))

end

/-- Neither done nor failed. -/
def Handler.Going (h : Handler) : Prop := h.done = false ∧ h.err = none

/-- A visitor that sets neither an error nor that it is done. -/
def Goes (w : Walk N V) : Prop := ∀ callback v h, h.Going → (w.visitor callback (v, h)).2.Going

/-- The loop gets from one stack to another by some calls, and no node is
consumed there. -/
structure Passes (w : Walk N V) (stack : List (Cursor N)) (s : State N V)
    (stack' : List (Cursor N)) (s' : State N V) (calls : Calls N) : Prop where
  fueled : ∃ k, ∀ fuel, loop w (fuel + k) stack s = loop w fuel stack' s'
  going : s'.handler.Going
  unconsumed : s'.wasConsumed = false
  calls : s'.calls = s.calls ++ calls

variable {w : Walk N V} {stack stack' : List (Cursor N)} {c : Cursor N} {s s' : State N V}
  {calls : Calls N}

theorem Passes.trans {stack'' : List (Cursor N)} {s'' : State N V} {calls' : Calls N}
    (h : Passes w stack s stack' s' calls) (h' : Passes w stack' s' stack'' s'' calls') :
    Passes w stack s stack'' s'' (calls ++ calls') := by
  obtain ⟨k, hk⟩ := h.fueled
  obtain ⟨k', hk'⟩ := h'.fueled
  refine ⟨⟨k' + k, fun fuel => ?_⟩, h'.going, h'.unconsumed, ?_⟩
  · rw [← Nat.add_assoc, hk, hk']
  · rw [h'.calls, h.calls, append_assoc]

theorem Passes.step (hs : s.handler.Going)
    (h : step w c stack s = .ok (stack', s')) (hs' : s'.handler.Going) (hf : s'.wasConsumed = false)
    (hcalls : s'.calls = s.calls ++ calls) : Passes w (c :: stack) s stack' s' calls :=
  ⟨⟨1, fun fuel => by simp [loop, hs.1, h]⟩, hs', hf, hcalls⟩

section
variable (hgoes : Goes w)
include hgoes

theorem callUnlessDone_eq (hs : s.handler.Going) (callback : Callback N) :
    callUnlessDone w callback s = .ok (s.call w callback) := by
  have h : (s.call w callback).handler.Going := hgoes callback _ _ hs
  simp [callUnlessDone, call, h.1, h.2, bind, Except.bind]

/-- The cursor on top is popped. -/
theorem exists_passes_exit (hs : s.handler.Going) (h : step w c stack s = exit w c stack s')
    (hs' : s'.handler.Going) (hcalls : s'.calls = s.calls ++ calls) :
    ∃ s'' f, Passes w (c :: stack) s stack s'' (calls ++ [(.exit c.node, f)]) := by
  have hgoing : (s'.call w (.exit c.node)).handler.Going := hgoes _ _ _ hs'
  have hstep : step w c stack s = .ok (stack, (s'.call w (.exit c.node)).clear) := by
    rw [h]
    simp [exit, call, hgoing.2, Except.map]
  refine ⟨_, (w.visitor (.exit c.node) (s'.visitor, s'.handler)).2.1, .step hs hstep hgoing rfl ?_⟩
  rw [← append_assoc, ← hcalls]
  rfl

variable (w stack) in
theorem step_branch {b : N} {c' : Cursor N} (hs : s.handler.Going)
    (hb : c.branches[c.branchIndex]? = some b) (hc : w.cursorConstructor b = .ok c')
    (hf : c.branchIndex ≠ 0 → s.wasConsumed = false) : step w c stack s =
      if (s.call w c.before).wasConsumed then exit w c stack (s.call w c.before).clear
      else .ok (c' :: c.next :: stack, s.call w c.before) := by
  have hcall := callUnlessDone_eq hgoes hs c.before
  by_cases h0 : c.branchIndex = 0
  · rw [Cursor.before, if_pos h0] at hcall ⊢
    rw [step, hcall, hb]
    simp [h0, hc, Cursor.next, bind, Except.bind]
  · rw [Cursor.before, if_neg h0] at hcall ⊢
    rw [step, hb]
    simp [h0, hf h0, hcall, hc, Cursor.next, bind, Except.bind]

/-- From a cursor on top of the stack to its pop, if so for every branch. The
induction is on the number of branches that are left. -/
theorem exists_passes {k : Nat} (hk : c.branchIndex + k = c.branches.length)
    (hwalk : ∀ b ∈ c.branches, ∃ c', w.cursorConstructor b = .ok c' ∧
      ∀ stack, ∀ s : State N V, s.handler.Going → ∃ s' calls,
        Passes w (c' :: stack) s stack s' calls ∧ Walked w c' calls) (hs : s.handler.Going)
    (hf : c.branchIndex ≠ 0 → s.wasConsumed = false) :
    ∃ s' calls, Passes w (c :: stack) s stack s' calls ∧ Walked w c calls := by
  induction k generalizing c s with
  | zero =>
    have hnone : c.branches[c.branchIndex]? = none := getElem?_eq_none (by omega)
    by_cases h0 : c.branchIndex = 0
    · have hstep : step w c stack s = exit w c stack (s.call w (.enter c.node)) := by
        rw [step, if_pos h0, callUnlessDone_eq hgoes hs]
        simp [hnone, bind, Except.bind]
      obtain ⟨s', f, hexit⟩ := exists_passes_exit hgoes hs hstep (hgoes _ _ _ hs) rfl
      obtain ⟨m, branches, i⟩ := c
      obtain rfl : i = 0 := h0
      obtain rfl : branches = [] := length_eq_zero_iff.mp hk.symm
      exact ⟨s', _, hexit, .leaf _ f⟩
    · have hstep : step w c stack s = exit w c stack s := by
        simp [step, h0, hnone, bind, Except.bind]
      obtain ⟨s', f, hexit⟩ := exists_passes_exit hgoes hs hstep hs (append_nil _).symm
      exact ⟨s', _, hexit, .last f h0 hk⟩
  | succ k ih =>
    have hlt : c.branchIndex < c.branches.length := by omega
    have hsome := getElem?_eq_getElem hlt
    obtain ⟨c', hc', hpass⟩ := hwalk _ (getElem_mem hlt)
    have hgoing : (s.call w c.before).handler.Going := hgoes _ _ _ hs
    have hstep := step_branch w stack hgoes hs hsome hc' hf
    have hcalls : (s.call w c.before).calls = s.calls ++
      [(c.before, (s.call w c.before).wasConsumed)] := rfl
    cases hconsumed : (s.call w c.before).wasConsumed with
    | true =>
      rw [hconsumed] at hcalls
      rw [if_pos hconsumed] at hstep
      obtain ⟨s', f, hexit⟩ := exists_passes_exit hgoes hs hstep hgoing hcalls
      exact ⟨s', _, hexit, .consumed f hlt⟩
    | false =>
      rw [hconsumed] at hcalls
      rw [if_neg (by simp [hconsumed])] at hstep
      have hpush := Passes.step hs hstep hgoing hconsumed hcalls
      obtain ⟨s₁, calls, hpass, hwalked⟩ := hpass (c.next :: stack) _ hgoing
      obtain ⟨s₂, calls', hpass', hwalked'⟩ := ih (c := c.next)
        ((Nat.succ_add_eq_add_succ ..).trans hk) hwalk hpass.going fun _ => hpass.unconsumed
      exact ⟨s₂, (c.before, false) :: (calls ++ calls'),
        hpush.trans (hpass.trans hpass'), .branch hsome hc' hwalked hwalked'⟩

theorem Ast.exists_passes {n : N} (h : Ast w n) :
    ∃ c, w.cursorConstructor n = .ok c ∧ ∀ stack, ∀ s : State N V, s.handler.Going →
      ∃ s' calls, Passes w (c :: stack) s stack s' calls ∧ Walked w c calls := by
  induction h with
  | node hn _ ih =>
    exact ⟨_, hn, fun stack s hs =>
      Walker.exists_passes hgoes (Nat.zero_add _) ih hs fun h0 => absurd rfl h0⟩

end

/-- The walker ends, with the calls of a depth-first walk. -/
theorem generic_walked {n : N} (h : Ast w n) (hgoes : Goes w) (hs : s.handler.Going) :
    ∃ fuel s' c calls, generic w fuel n s = some (none, s') ∧
      w.cursorConstructor n = .ok c ∧ s'.calls = s.calls ++ calls ∧ Walked w c calls := by
  obtain ⟨c, hc, hpass⟩ := h.exists_passes hgoes
  obtain ⟨s', calls, hpass, hwalked⟩ := hpass [] s hs
  obtain ⟨k, hk⟩ := hpass.fueled
  refine ⟨1 + k, s', c, calls, ?_, hc, hpass.calls, hwalked⟩
  rw [generic, hc]
  exact hk 1

/-- A node with two leaves below it, and a visitor that does nothing. -/
def pair : Walk Bool Unit := ⟨fun _ r => r, fun n => .ok ⟨n, if n then [false, false] else [], 0⟩⟩

theorem generic_walked_pair :
    ∃ fuel s' c calls, generic pair fuel true ⟨(), {}, []⟩ = some (none, s') ∧
      pair.cursorConstructor true = .ok c ∧ s'.calls = [] ++ calls ∧ Walked pair c calls := by
  have hleaf : Ast pair false := .node rfl (by simp)
  have hast : Ast pair true := .node rfl (by simpa using hleaf)
  exact generic_walked hast (fun _ _ _ h => h) ⟨rfl, rfl⟩

/-- A visitor that is done when it enters a node never leaves it. -/
theorem done_not_walked : ∃ w : Walk Bool Unit,
      w = { pair with visitor := fun _ r => (r.1, { r.2 with done := true }) } ∧
      ¬∃ fuel s', generic w fuel false ⟨(), {}, []⟩ = some (none, s') ∧
        Walked w ⟨false, [], 0⟩ s'.calls := by
  refine ⟨_, rfl, ?_⟩
  rintro ⟨_ | fuel, s', h, hwalked⟩
  · cases h
  · cases h
    generalize hcalls : (State.mk _ _ _).calls = calls at hwalked
    rcases hwalked with _ | ⟨_, h0⟩ | _ | hb
    · cases hcalls
    · exact h0 rfl
    · cases hcalls
    · simp at hb

end Dawgs.Ref.Walker

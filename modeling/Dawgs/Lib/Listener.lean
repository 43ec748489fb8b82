import Mathlib

/-!
# Listeners on a stack

A parse tree is walked from left to right, and every rule is reported when
it is entered and when it is left. The reports go to the visitor on top of a
stack. A visitor that is told of the entry may put another visitor on the
stack, which then gets the reports of the children, and when the rule is
left it takes that visitor off again and reads its result.

An entry of the stack counts the rules that were entered and not left while
it was on top. Whoever is on top with a count of zero has been put there by
the rule that is being left, so the report goes to the one below.

`visit` is the same without a stack: what becomes of one visitor over a
tree. As long as a visitor takes off exactly the visitors it put on, the
stack comes back as it was with the visitor on top changed to what `visit`
says (`walk_eq_visit`). `Takes` is a visit without an error.
-/

namespace Dawgs.Lib

open List Option Prod

inductive ParseTree (T R : Type) where
  | token (t : T)
  | node (r : R) (children : List (ParseTree T R))

/-- What a visitor does when a rule is left: go on with a new state, or take
the visitor off the stack that it put there. Either may fail. -/
inductive Leave (V E : Type) where
  | stay (result : Option (V × List E))
  | pop (f : V → Option (V × List E))

def Leave.isPop {V E : Type} : Leave V E → Bool
  | .stay _ => false
  | .pop _ => true

/-- The handlers of all visitors. A handler that enters a rule gives the new
state of the visitor, the visitor that is put on the stack, and errors. -/
structure Listener (T R V E : Type) where
  enter : V → R → List (ParseTree T R) → V × Option V × List E
  exit : V → R → List (ParseTree T R) → Leave V E

structure StackEntry (V : Type) where
  visitor : V
  depth : Nat

structure ListenerState (V E : Type) where
  stack : List (StackEntry V)
  errors : List E

namespace Listener

variable {T R V E : Type} (l : Listener T R V E) {cs : List (ParseTree T R)}

/-! ## The stack -/

section

variable (r : R) (children : List (ParseTree T R)) (s : ListenerState V E)

def enterEveryRule
    : Option (ListenerState V E) :=
  match s.stack with
  | [] => none
  | entry :: rest =>
    let (v, pushed, errors) := l.enter entry.visitor r children
    some
      { stack := (pushed.map fun w => ⟨w, 0⟩).toList ++ ⟨v, entry.depth + 1⟩ :: rest
        errors := s.errors ++ errors }

/-- Nothing comes out where Go would panic: at an empty stack, a visitor of
another type than expected, or a visitor taken off while rules are open. -/
def exitEveryRule
    : Option (ListenerState V E) :=
  match s.stack with
  | [] => none
  | top :: rest =>
    if top.depth = 0 then
      match rest with
      | [] => none
      | entry :: rest =>
        match l.exit entry.visitor r children with
        | .stay result =>
          result.map fun (v, errors) =>
            ⟨top :: ⟨v, entry.depth - 1⟩ :: rest, s.errors ++ errors⟩
        | .pop f =>
          (f top.visitor).map fun (v, errors) =>
            ⟨⟨v, entry.depth - 1⟩ :: rest, s.errors ++ errors⟩
    else
      match l.exit top.visitor r children with
      | .stay result =>
        result.map fun (v, errors) =>
          ⟨⟨v, top.depth - 1⟩ :: rest, s.errors ++ errors⟩
      | .pop _ => none

end

mutual

def walk : ParseTree T R → ListenerState V E → Option (ListenerState V E)
  | .token _, s => some s
  | .node r children, s => do
    let s ← l.enterEveryRule r children s
    let s ← walkAll children s
    l.exitEveryRule r children s

def walkAll : List (ParseTree T R) → ListenerState V E → Option (ListenerState V E)
  | [], s => some s
  | t :: ts, s => do
    let s ← walk t s
    walkAll ts s

end

/-! ## One visitor -/

mutual

/-- What becomes of a visitor over a tree, with the errors on the way. -/
def visit : ParseTree T R → V → Option (V × List E)
  | .token _, v => some (v, [])
  | .node r children, v =>
    match l.enter v r children with
    | (v, none, errors) => do
      let (v, more) ← visitAll children v
      match l.exit v r children with
      | .stay result =>
        let (v, last) ← result
        some (v, errors ++ more ++ last)
      | .pop _ => none
    | (v, some w, errors) => do
      let (w, more) ← visitAll children w
      match l.exit v r children with
      | .stay _ => none
      | .pop f =>
        let (v, last) ← f w
        some (v, errors ++ more ++ last)

def visitAll : List (ParseTree T R) → V → Option (V × List E)
  | [], v => some (v, [])
  | t :: ts, v => do
    let (v, errors) ← visit t v
    let (v, more) ← visitAll ts v
    some (v, errors ++ more)

end

/-- A visitor stays of its kind, and whether it puts a visitor on the stack
when it enters a rule and takes one off when it leaves it is the same
question, which its kind answers. -/
structure Balanced {K : Type} (kind : V → K) : Prop where
  enter : ∀ v r cs, kind (l.enter v r cs).1 = kind v
  stay : ∀ {v r cs v' errors}, l.exit v r cs = .stay (some (v', errors)) → kind v' = kind v
  pop : ∀ {v r cs f w v' errors}, l.exit v r cs = .pop f →
    f w = some (v', errors) → kind v' = kind v
  isPop : ∀ {v v' r cs}, kind v' = kind v → (l.exit v' r cs).isPop = (l.enter v r cs).2.1.isSome

section

variable {l} {K : Type} {kind : V → K}

theorem Balanced.pushed (hl : l.Balanced kind) {v v' w : V} {r : R} (hkind : kind v' = kind v)
    (hw : (l.enter v r cs).2.1 = some w) : ∃ f, l.exit v' r cs = .pop f := by
  have h : (l.exit v' r cs).isPop = _ := hl.isPop hkind
  cases hexit : l.exit v' r cs with
  | stay result => simp [hexit, hw, Leave.isPop] at h
  | pop f => exact ⟨f, rfl⟩

theorem Balanced.kept (hl : l.Balanced kind) {v v' : V} {r : R} (hkind : kind v' = kind v)
    (hw : (l.enter v r cs).2.1 = none) : ∃ result, l.exit v' r cs = .stay result := by
  have h : (l.exit v' r cs).isPop = _ := hl.isPop hkind
  cases hexit : l.exit v' r cs with
  | stay result => exact ⟨result, rfl⟩
  | pop f => simp [hexit, hw, Leave.isPop] at h

mutual

theorem Balanced.visit (hl : l.Balanced kind) (t : ParseTree T R) {v v' : V}
    {errors : List E} (h : l.visit t v = some (v', errors)) : kind v' = kind v := by
  match t with
  | .token _ =>
    rw [Listener.visit] at h
    cases h
    rfl
  | .node r children =>
    have h₁ := hl.enter v r children
    rw [Listener.visit] at h
    rcases heq : l.enter v r children with ⟨v₁, _ | w, first⟩ <;>
      simp only [heq, bind_eq_bind, bind_eq_some_iff] at h h₁ <;>
      obtain ⟨⟨v₂, more⟩, hchildren, hexit⟩ := h
    · split at hexit
      next result hstay =>
        obtain ⟨⟨v₃, last⟩, rfl, heq'⟩ := bind_eq_some_iff.mp hexit
        cases heq'
        exact ((hl.stay hstay).trans (Balanced.visitAll hl children hchildren)).trans h₁
      next => cases hexit
    · split at hexit
      next => cases hexit
      next f hpop =>
        obtain ⟨⟨v₃, last⟩, hf, heq'⟩ := bind_eq_some_iff.mp hexit
        cases heq'
        exact (hl.pop hpop hf).trans h₁

theorem Balanced.visitAll (hl : l.Balanced kind) (ts : List (ParseTree T R)) {v v' : V}
    {errors : List E} (h : l.visitAll ts v = some (v', errors)) : kind v' = kind v := by
  match ts with
  | [] =>
    rw [Listener.visitAll] at h
    cases h
    rfl
  | t :: ts =>
    rw [Listener.visitAll] at h
    simp only [bind_eq_bind, bind_eq_some_iff] at h
    obtain ⟨⟨v₁, first⟩, ht, ⟨v₂, more⟩, hts, heq⟩ := h
    cases heq
    exact (hl.visitAll ts hts).trans (hl.visit t ht)

end

mutual

theorem walk_eq_visit (hl : l.Balanced kind) (t : ParseTree T R) (v : V)
    (depth : Nat) (rest : List (StackEntry V)) (before : List E) :
    l.walk t ⟨⟨v, depth⟩ :: rest, before⟩ = (l.visit t v).map fun (v, errors) =>
        ⟨⟨v, depth⟩ :: rest, before ++ errors⟩ := by
  match t with
  | .token _ => simp [walk, Listener.visit]
  | .node r children =>
    have hkind := hl.enter v r children
    rw [walk, enterEveryRule, Listener.visit]
    rcases heq : l.enter v r children with ⟨v₁, _ | w, first⟩
    · rw [heq] at hkind
      simp only [heq, map_none, toList_none, nil_append, bind_eq_bind, bind_some]
      rw [walkAll_eq_visitAll hl children v₁]
      cases hchildren : l.visitAll children v₁ with
      | none => rfl
      | some p =>
        have h₂ := (hl.visitAll children hchildren).trans hkind
        obtain ⟨result, hstay⟩ := hl.kept h₂ (by rw [heq])
        cases result <;> simp [exitEveryRule, hstay]
    · rw [heq] at hkind
      obtain ⟨f, hpop⟩ := hl.pushed hkind (by rw [heq])
      simp only [heq, map_some, toList_some, singleton_append, bind_eq_bind, bind_some]
      rw [walkAll_eq_visitAll hl children w]
      cases hchildren : l.visitAll children w with
      | none => rfl
      | some p =>
        obtain ⟨w₂, more⟩ := p
        cases hf : f w₂ <;> simp [exitEveryRule, hpop, hf]

theorem walkAll_eq_visitAll (hl : l.Balanced kind) (ts : List (ParseTree T R)) (v : V) (depth : Nat)
    (rest : List (StackEntry V)) (before : List E) :
    l.walkAll ts ⟨⟨v, depth⟩ :: rest, before⟩ = (l.visitAll ts v).map fun (v, errors) =>
        ⟨⟨v, depth⟩ :: rest, before ++ errors⟩ := by
  match ts with
  | [] => simp [walkAll, Listener.visitAll]
  | t :: ts =>
    rw [walkAll, Listener.visitAll, walk_eq_visit hl t]
    cases ht : l.visit t v with
    | none => rfl
    | some p =>
      obtain ⟨v₁, first⟩ := p
      simp only [map_some, bind_eq_bind, bind_some]
      rw [walkAll_eq_visitAll hl ts]
      cases l.visitAll ts v₁ <;> simp

end

end

/-! ## Visits without an error -/

/-- The visitor gets over the tree without an error. -/
def Takes (t : ParseTree T R) (v v' : V) : Prop := l.visit t v = some (v', [])

def TakesAll (ts : List (ParseTree T R)) (v v' : V) : Prop := l.visitAll ts v = some (v', [])

variable {v v' : V} {ts : List (ParseTree T R)} {β : Type}

@[simp]
theorem takes_token {t : T} : l.Takes (.token t) v v' ↔ v = v' := by
  simp [Takes, visit]

@[simp]
theorem takesAll_nil : l.TakesAll [] v v' ↔ v = v' := by
  simp [TakesAll, visitAll]

@[simp]
theorem takesAll_cons {t : ParseTree T R} :
    l.TakesAll (t :: ts) v v' ↔ ∃ v₁, l.Takes t v v₁ ∧ l.TakesAll ts v₁ v' := by
  simp only [TakesAll, visitAll, bind_eq_bind,
    bind_eq_some_iff, Option.some.injEq, Prod.mk.injEq, Prod.exists]
  constructor
  · intro h
    obtain ⟨v₁, first, ht, v₂, more, hts, rfl, herrors⟩ := h
    obtain ⟨rfl, rfl⟩ := append_eq_nil_iff.mp herrors
    exact ⟨v₁, ht, hts⟩
  · intro h
    obtain ⟨v₁, ht, hts⟩ := h
    exact ⟨v₁, [], ht, v', [], hts, rfl, rfl⟩

theorem takesAll_append {us : List (ParseTree T R)} :
    l.TakesAll (ts ++ us) v v' ↔ ∃ v₁, l.TakesAll ts v v₁ ∧ l.TakesAll us v₁ v' := by
  induction ts generalizing v with
  | nil => simp
  | cons t ts ih =>
    simp only [cons_append, takesAll_cons, ih]
    constructor
    · intro h
      obtain ⟨v₁, ht, v₂, hts, hus⟩ := h
      exact ⟨v₂, ⟨v₁, ht, hts⟩, hus⟩
    · intro h
      obtain ⟨v₂, ⟨v₁, ht, hts⟩, hus⟩ := h
      exact ⟨v₁, ht, v₂, hts, hus⟩

/-- Tokens are passed over. -/
theorem takesAll_filter (p : ParseTree T R → Bool) (hp : ∀ r cs, p (.node r cs) = true) :
    l.TakesAll (ts.filter p) v v' ↔ l.TakesAll ts v v' := by
  induction ts generalizing v with
  | nil => simp
  | cons t ts ih =>
    cases t with
    | token t =>
      rw [filter_cons]
      split <;> simp [ih]
    | node r cs => simp [hp, ih]

variable {α : Type} {as : List α} {r : R}

section

variable (state : List β → V) (result : α → β → Prop)

/-- A list of which each element is taken in turn and adds one result to the
state, as long as there are fewer than `n`. -/
theorem takesAll_flatMap_of_le
    (trees : α → List (ParseTree T R)) (n : Nat)
    (has : ∀ a ∈ as, ∀ bs v', bs.length < n → l.TakesAll (trees a) (state bs) v' →
      ∃ b, result a b ∧ v' = state (bs ++ [b])) (bs : List β) (hn : bs.length + as.length ≤ n)
    (h : l.TakesAll (as.flatMap trees) (state bs) v') :
    ∃ results : List (α × β), results.map fst = as ∧
      (∀ p ∈ results, result p.1 p.2) ∧ v' = state (bs ++ results.map snd) := by
  induction as generalizing bs with
  | nil =>
    rw [flatMap_nil, takesAll_nil] at h
    exact ⟨[], rfl, by simp, by simpa using h.symm⟩
  | cons a as ih =>
    rw [flatMap_cons, takesAll_append] at h
    rw [length_cons] at hn
    obtain ⟨v₁, ha, hrest⟩ := h
    obtain ⟨b, hb, rfl⟩ := has a (by simp) bs v₁ (by omega) ha
    obtain ⟨results, hfst, hresults, hv'⟩ :=
      ih (fun a' ha' => has a' (by simp [ha'])) _ (by simp; omega) hrest
    refine ⟨(a, b) :: results, by simp [hfst], ?_, by simp [hv']⟩
    intro p hp
    rcases mem_cons.mp hp with hp | hp
    · rw [hp]
      exact hb
    · exact hresults p hp

theorem takesAll_flatMap
    (trees : α → List (ParseTree T R))
    (has : ∀ a ∈ as, ∀ bs v', l.TakesAll (trees a) (state bs) v' →
      ∃ b, result a b ∧ v' = state (bs ++ [b])) (bs : List β)
    (h : l.TakesAll (as.flatMap trees) (state bs) v') :
    ∃ results : List (α × β), results.map fst = as ∧
      (∀ p ∈ results, result p.1 p.2) ∧ v' = state (bs ++ results.map snd) :=
  l.takesAll_flatMap_of_le state result trees _
    (fun a ha bs v' _ hv' => has a ha bs v' hv') bs (Nat.le_refl _) h

/-- The same where each element is one tree. -/
theorem takesAll_map (tree : α → ParseTree T R)
    (has : ∀ a ∈ as, ∀ bs v', l.Takes (tree a) (state bs) v' →
      ∃ b, result a b ∧ v' = state (bs ++ [b])) (bs : List β)
    (h : l.TakesAll (as.map tree) (state bs) v') :
    ∃ results : List (α × β), results.map fst = as ∧
      (∀ p ∈ results, result p.1 p.2) ∧ v' = state (bs ++ results.map snd) := by
  rw [← flatMap_singleton' as, map_flatMap] at h
  refine l.takesAll_flatMap state result (fun a => [tree a]) ?_ bs h
  intro a ha bs v' hv'
  simp only [takesAll_cons, takesAll_nil] at hv'
  obtain ⟨v₁, hv₁, rfl⟩ := hv'
  exact has a ha bs v₁ hv₁

end

theorem takesAll_singleton {t : ParseTree T R} : l.TakesAll [t] v v' ↔ l.Takes t v v' := by
  simp

/-- A tree that may be missing. -/
theorem takesAll_toList (state : Option β → V) (result : ParseTree T R → β → Prop)
    {t : Option (ParseTree T R)}
    (ht : ∀ x ∈ t, ∀ v', l.Takes x (state none) v' → ∃ b, result x b ∧ v' = state (some b))
    (h : l.TakesAll t.toList (state none) v') :
    ∃ r : Option (ParseTree T R × β), r.map fst = t ∧
      (∀ p ∈ r, result p.1 p.2) ∧ v' = state (r.map Prod.snd) := by
  cases t with
  | none =>
    rw [toList_none, takesAll_nil] at h
    exact ⟨none, rfl, by simp, h.symm⟩
  | some x =>
    rw [toList_some, takesAll_singleton] at h
    obtain ⟨b, hb, rfl⟩ := ht x rfl v' h
    exact ⟨some (x, b), rfl, by simpa using hb, rfl⟩

theorem takes_node {v₁ : V} (henter : l.enter v r cs = (v₁, none, [])) :
    l.Takes (.node r cs) v v' ↔ ∃ v₂, l.TakesAll cs v₁ v₂ ∧
        l.exit v₂ r cs = .stay (some (v', [])) := by
  simp only [Takes, visit, henter, bind_eq_bind, bind_eq_some_iff, Prod.exists]
  constructor
  · intro h
    obtain ⟨v₂, more, hchildren, hexit⟩ := h
    split at hexit
    next result hstay =>
      simp only [bind_eq_some_iff, Option.some.injEq, Prod.mk.injEq,
        nil_append, append_eq_nil_iff, Prod.exists] at hexit
      obtain ⟨v₃, last, rfl, rfl, rfl, rfl⟩ := hexit
      exact ⟨v₂, hchildren, hstay⟩
    next => cases hexit
  · intro h
    obtain ⟨v₂, hchildren, hexit⟩ := h
    exact ⟨v₂, [], hchildren, by simp [hexit]⟩

theorem takes_node_pushed {v₁ w : V} (henter : l.enter v r cs = (v₁, some w, []))
    {f : V → Option (V × List E)} (hexit : l.exit v₁ r cs = .pop f) :
    l.Takes (.node r cs) v v' ↔ ∃ w', l.TakesAll cs w w' ∧ f w' = some (v', []) := by
  simp only [Takes, visit, henter, hexit, bind_eq_bind,
    bind_eq_some_iff, Prod.exists, Option.some.injEq, Prod.mk.injEq, nil_append, append_eq_nil_iff]
  constructor
  · intro h
    obtain ⟨w', more, hchildren, v₃, last, hf, rfl, rfl, rfl⟩ := h
    exact ⟨w', hchildren, hf⟩
  · intro h
    obtain ⟨w', hchildren, hf⟩ := h
    exact ⟨w', [], hchildren, v', [], hf, rfl, rfl, rfl⟩

theorem not_takes_of_errors (henter : (l.enter v r cs).2.2 ≠ []) : ¬ l.Takes (.node r cs) v v' := by
  intro h
  rw [Takes, visit] at h
  split at h
  next v₁ first heq =>
    simp only [bind_eq_bind, bind_eq_some_iff] at h
    obtain ⟨p, -, hexit⟩ := h
    split at hexit
    next result hstay =>
      simp only [bind_eq_some_iff] at hexit
      simp_all
    next => cases hexit
  next v₁ w first heq =>
    simp only [bind_eq_bind, bind_eq_some_iff] at h
    obtain ⟨p, -, hexit⟩ := h
    split at hexit
    next => cases hexit
    next f hpop =>
      simp only [bind_eq_some_iff] at hexit
      simp_all

end Listener

end Dawgs.Lib

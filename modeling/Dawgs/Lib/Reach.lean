import Mathlib

/-!
# Reachability by closed sets

Every search in this development ends in the same argument: the set of
things it has looked at is closed under one step, so it is closed under
any number of steps, so what it has not looked at cannot be reached. The
lemmas here say that once, over an arbitrary relation on an arbitrary
type, together with mutual reachability, the equivalence whose classes
are the strongly connected components.

Nothing in this file knows about a graph, a search or a program.
-/

namespace Dawgs.Lib

open Relation

variable {α : Type*} {r : α → α → Prop}

/-- A set no single step leaves. -/
def Closed (r : α → α → Prop) (S : Set α) : Prop := ∀ ⦃a b⦄, a ∈ S → r a b → b ∈ S

variable {S : Set α} {a b : α}

/-- No number of steps leaves a closed set. -/
theorem Closed.reach (hS : Closed r S) (ha : a ∈ S) (hab : ReflTransGen r a b) : b ∈ S := by
  induction hab with
  | refl => exact ha
  | tail _ hbc ih => exact hS ih hbc

/-- Two points that reach each other. -/
def Mutual (r : α → α → Prop) (a b : α) : Prop := ReflTransGen r a b ∧ ReflTransGen r b a

theorem Mutual.refl (a : α) : Mutual r a a := ⟨.refl, .refl⟩

theorem Mutual.symm (h : Mutual r a b) : Mutual r b a := ⟨h.2, h.1⟩

theorem Mutual.trans {c : α} (hab : Mutual r a b) (hbc : Mutual r b c) :
    Mutual r a c := ⟨hab.1.trans hbc.1, hbc.2.trans hab.2⟩

/-- A closed set swallows whole classes of mutual reachability. -/
theorem Closed.mutual (hS : Closed r S) (ha : a ∈ S) (h : Mutual r a b) : b ∈ S := hS.reach ha h.1

/-! ## Searches

A search keeps a set of points seen and a queue of those whose steps it
has not taken yet. -/

/-- Whatever was seen waits on the queue or has had its steps taken. -/
def Explored (r : α → α → Prop) (seen : Set α) (queue : List α) : Prop :=
  ∀ ⦃a⦄, a ∈ seen → a ∈ queue ∨ ∀ b, r a b → b ∈ seen

theorem Explored.closed {seen : Set α} (h : Explored r seen []) : Closed r seen := by
  intro a b ha hab
  rcases h ha with hq | hstep
  · cases hq
  · exact hstep b hab

/-- Taking the steps of the first point on the queue. -/
theorem Explored.expand {seen seen' : Set α} {queue queue' : List α}
    (h : Explored r seen (a :: queue)) (hsub : seen ⊆ seen')
    (hqueue : queue ⊆ queue') (hnew : ∀ b ∈ seen', b ∈ seen ∨ b ∈ queue')
    (hstep : ∀ b, r a b → b ∈ seen') : Explored r seen' queue' := by
  intro b hb
  rcases hnew b hb with hb | hb
  · rcases h hb with hq | htaken
    · rcases List.mem_cons.mp hq with rfl | hq
      · exact .inr hstep
      · exact .inl (hqueue hq)
    · exact .inr fun c hbc => hsub (htaken c hbc)
  · exact .inl hb

/-! ## Distances -/

/-- A walk of so many steps. -/
def Hops (r : α → α → Prop) : Nat → α → α → Prop
  | 0, a, b => a = b
  | n + 1, a, c => ∃ b, Hops r n a b ∧ r b c

theorem transGen_iff_hops : TransGen r a b ↔ ∃ n, Hops r (n + 1) a b := by
  constructor
  · intro h
    induction h with
    | single hab => exact ⟨0, a, rfl, hab⟩
    | tail _ hbc ih =>
      obtain ⟨n, hn⟩ := ih
      exact ⟨n + 1, _, hn, hbc⟩
  · rintro ⟨n, hn⟩
    induction n generalizing b with
    | zero =>
      obtain ⟨_, rfl, hab⟩ := hn
      exact .single hab
    | succ n ih =>
      obtain ⟨c, hc, hcb⟩ := hn
      exact (ih hc).tail hcb

/-! ## Condensation

Points that share a value of `f` reach each other. Steps between the
values, those inside a value dropped, lead where the steps between the
points lead. -/

theorem condense {β : Type*} {f : α → β} {r' : β → β → Prop} (hS : ∀ {a b}, r a b → a ∈ S ∧ b ∈ S)
    (hf : ∀ {a b}, a ∈ S → b ∈ S → f a = f b → ReflTransGen r a b)
    (hr : ∀ {c d}, r' c d ↔ c ≠ d ∧ ∃ a b, r a b ∧ f a = c ∧ f b = d) (ha : a ∈ S) (hb : b ∈ S) :
    ReflTransGen r' (f a) (f b) ↔ ReflTransGen r a b := by
  constructor
  · intro h
    -- From the last step back, for every point of the value it starts at.
    generalize hc : f a = c at h
    induction h using ReflTransGen.head_induction_on generalizing a with
    | refl => exact hf ha hb hc
    | head hstep _ ih =>
      obtain ⟨_, x, y, hxy, rfl, rfl⟩ := hr.mp hstep
      obtain ⟨hx, hy⟩ := hS hxy
      exact (hf ha hx hc).trans (.head hxy (ih hy rfl))
  · intro h
    clear hb
    induction h with
    | refl => exact .refl
    | @tail x y _ hxy ih =>
      by_cases heq : f x = f y
      · rw [← heq]
        exact ih
      · exact ih.tail (hr.mpr ⟨heq, x, y, hxy, rfl, rfl⟩)

end Dawgs.Lib

import Mathlib

/-!
# The node ids of a load

A load gives every node a new id and looks the old one up for the ends of the
edges. The resolver keeps the ids that are plain decimals in a table of
numbers and the others in a table of texts. Over any sequence of calls it
answers as one table of texts would.
-/

namespace Dawgs.Ref.Retriever

open Function

variable {ID S : Type}

/-- `strconv.ParseUint`, in base ten and 64 bits. -/
def parseUint (text : String) : Option Nat :=
  if text = "" ∨ ¬ text.toList.all Char.isDigit then none
  else
    let value := text.toList.foldl (fun n c => 10 * n + (c.toNat - '0'.toNat)) 0
    if value < 2 ^ 64 then some value else none

def canonicalNumericSourceID (sourceID : String) : Option Nat :=
  if sourceID = "" then none
  else (parseUint sourceID).filter fun value => toString value = sourceID

structure NodeIDResolver (ID : Type) where
  numeric : Nat → Option ID
  fallback : String → Option ID

namespace NodeIDResolver

def new : NodeIDResolver ID := ⟨fun _ => none, fun _ => none⟩

def put (s : NodeIDResolver ID) (sourceID : String) (destinationID : ID) :
    NodeIDResolver ID × Bool :=
  match canonicalNumericSourceID sourceID with
  | some numericID =>
    if (s.numeric numericID).isSome then (s, false)
    else ({ s with numeric := update s.numeric numericID (some destinationID) }, true)
  | none =>
    if (s.fallback sourceID).isSome then (s, false)
    else ({ s with fallback := update s.fallback sourceID (some destinationID) }, true)

def resolve (s : NodeIDResolver ID) (sourceID : String) : Option ID :=
  match canonicalNumericSourceID sourceID with
  | some numericID => s.numeric numericID
  | none => s.fallback sourceID

end NodeIDResolver

/-- What a load does with a resolver. -/
inductive Call (ID : Type) where
  | put (sourceID : String) (destinationID : ID)
  | resolve (sourceID : String)

/-- The answers to a sequence of calls: whether an id was put, or the id that
was found. -/
def answers (put : S → String → ID → S × Bool) (resolve : S → String → Option ID) (s : S) :
    List (Call ID) → List (Bool ⊕ Option ID)
  | [] => []
  | .put sourceID destinationID :: calls =>
    .inl (put s sourceID destinationID).2 ::
      answers put resolve (put s sourceID destinationID).1 calls
  | .resolve sourceID :: calls => .inr (resolve s sourceID) :: answers put resolve s calls

/-- One table of texts. -/
def putText (table : String → Option ID) (sourceID : String) (destinationID : ID) :
    (String → Option ID) × Bool :=
  if (table sourceID).isSome then (table, false)
  else (update table sourceID (some destinationID), true)

/-- The table a text is looked up in, and what it is looked up under. -/
def tableKey (sourceID : String) : Nat ⊕ String :=
  match canonicalNumericSourceID sourceID with
  | some numericID => .inl numericID
  | none => .inr sourceID

/-- A number stands for the one text that it prints as. -/
theorem tableKey_injective : Injective tableKey := by
  have htext : ∀ {c : String} {n : Nat}, canonicalNumericSourceID c = some n → toString n = c := by
    intro c n hc
    unfold canonicalNumericSourceID at hc
    split at hc
    · cases hc
    · simpa using (Option.filter_eq_some_iff.mp hc).2
  intro a b hab
  unfold tableKey at hab
  split at hab <;> split at hab <;> cases hab
  next ha _ hb => rw [← htext ha, htext hb]
  · rfl

theorem resolve_eq (s : NodeIDResolver ID) :
    s.resolve = Sum.elim s.numeric s.fallback ∘ tableKey := by
  funext sourceID
  unfold NodeIDResolver.resolve comp tableKey
  split <;> rfl

/-- To put an id in the resolver is to put it in the table of its answers. -/
theorem put_spec (s : NodeIDResolver ID) (sourceID : String) (destinationID : ID) :
    ((s.put sourceID destinationID).1.resolve, (s.put sourceID destinationID).2) =
      putText s.resolve sourceID destinationID := by
  have hupdate := update_comp_eq_of_injective (Sum.elim s.numeric s.fallback) tableKey_injective
    sourceID (some destinationID)
  have hold : s.resolve sourceID = Sum.elim s.numeric s.fallback (tableKey sourceID) := by
    rw [resolve_eq, comp_apply]
  rw [putText, hold, resolve_eq s, ← hupdate]
  cases hid : canonicalNumericSourceID sourceID with
  | none | some =>
    simp only [NodeIDResolver.put, tableKey, hid, Sum.elim_inl, Sum.elim_inr, Sum.update_elim_inl,
      Sum.update_elim_inr]
    split <;> rw [resolve_eq]

theorem answers_spec (calls : List (Call ID)) (s : NodeIDResolver ID) :
    answers NodeIDResolver.put NodeIDResolver.resolve s calls =
      answers putText (fun table => table) s.resolve calls := by
  induction calls generalizing s with
  | nil => rfl
  | cons call calls ih =>
    cases call with
    | put sourceID destinationID =>
      have hput := put_spec s sourceID destinationID
      rw [answers, answers, ih, ← hput]
    | resolve sourceID => rw [answers, answers, ih]

/-- For every sequence of calls the resolver answers as one table of texts. -/
theorem resolver_answers (calls : List (Call ID)) :
    answers NodeIDResolver.put NodeIDResolver.resolve NodeIDResolver.new calls =
      answers putText (fun table => table) (fun _ => none) calls := by
  have hnew : (NodeIDResolver.new : NodeIDResolver ID).resolve = fun _ => none := by
    funext sourceID
    unfold NodeIDResolver.resolve
    split <;> rfl
  rw [answers_spec, hnew]

end Dawgs.Ref.Retriever

import Dawgs.Ref.References

/-!
# What is read is not pruned

The collectors differ inside of the patterns of a `MATCH`. There the one of
the translator takes every variable that is entered, and the one of the
optimizer only those that a property is looked up of. So the optimizer misses
a variable that stands there by itself, unless it finds it elsewhere.
-/

namespace Dawgs.Ref.Cypher

variable {uses : List (Use × String)} {symbol : String}

theorem mem_collect {counts : Use → Bool} : symbol ∈ collect counts uses ↔
    (∃ u, counts u ∧ (u, symbol) ∈ uses) ∨ 1 < uses.count (.declared, symbol) := by
  simp only [collect, Finset.mem_image, List.mem_toFinset, Prod.exists]
  grind

theorem mem_referencedIdentifiers : symbol ∈ referencedIdentifiers uses ↔
    (.read, symbol) ∈ uses ∨ (.readInDeclaration, symbol) ∈ uses ∨
      1 < uses.count (.declared, symbol) := by
  simp [referencedIdentifiers, mem_collect, or_assoc]

theorem mem_referencedSourceIdentifiers : symbol ∈ referencedSourceIdentifiers uses ↔
    symbol ≠ "" ∧ ((.read, symbol) ∈ uses ∨ (.lookedUp, symbol) ∈ uses ∨
      1 < uses.count (.declared, symbol)) := by
  rw [referencedSourceIdentifiers, mem_collect]
  by_cases h : symbol = ""
  · rw [List.count_eq_zero.mpr (by simp [h])]
    simp [h]
  · rw [List.count_filter (by simp [h])]
    simp [h, or_assoc]

/-- A variable that stands by itself in the pattern of a `MATCH` is also read
elsewhere, or a property of it is looked up, or it is declared more than once;
and no variable that is read or declared more than once has no name. -/
structure Covered (uses : List (Use × String)) : Prop where
  elsewhere : ∀ symbol, (.readInDeclaration, symbol) ∈ uses →
    (.read, symbol) ∈ uses ∨ (.lookedUp, symbol) ∈ uses ∨ 1 < uses.count (.declared, symbol)
  read : (.read, "") ∉ uses
  readInDeclaration : (.readInDeclaration, "") ∉ uses
  declared : uses.count (.declared, "") ≤ 1

theorem referenced_subset_iff :
    referencedIdentifiers uses ⊆ referencedSourceIdentifiers uses ↔ Covered uses := by
  have hsubset : referencedIdentifiers uses ⊆ referencedSourceIdentifiers uses ↔
      ∀ symbol, _ → _ := Iff.rfl
  simp only [hsubset, mem_referencedIdentifiers, mem_referencedSourceIdentifiers]
  constructor
  · intro h
    refine ⟨fun symbol hs => (h symbol (.inr (.inl hs))).2, fun hs => ?_, fun hs => ?_, ?_⟩
    · exact (h "" (.inl hs)).1 rfl
    · exact (h "" (.inr (.inl hs))).1 rfl
    · by_contra hs
      exact (h "" (.inr (.inr (by omega)))).1 rfl
  · rintro h symbol hs
    refine ⟨?_, ?_⟩
    · rintro rfl
      rcases hs with hs | hs | hs
      · exact h.read hs
      · exact h.readInDeclaration hs
      · exact absurd h.declared (by omega)
    · rcases hs with hs | hs | hs
      · exact .inl hs
      · exact h.elsewhere symbol hs
      · exact .inr (.inr hs)

/-- What is not found is not live. -/
theorem Covered.not_referenced (h : Covered uses)
    (hs : referencesSourceIdentifier (referencedSourceIdentifiers uses) symbol = false) :
    symbol ∉ referencedIdentifiers uses := by
  intro hmem
  have hfound := referenced_subset_iff.mpr h hmem
  have hname := (mem_referencedSourceIdentifiers.mp hfound).1
  simp [referencesSourceIdentifier, hfound, hname] at hs

/-- `MATCH (a) MATCH (c {name: _}) RETURN c`. -/
def namedBy (value : Expression) : CollectorRoot :=
  .single ⟨[matching "a" .nil, matching "c" (.properties ⟨[⟨"name", value⟩], none⟩)], [],
    some ⟨some ⟨false, false, none, none, none, [.projectionItem (.var ⟨"c"⟩) none]⟩⟩⟩
where
  matching (symbol : String) (properties : Expression) : Option ReadingClause :=
    some ⟨0, some ⟨false, [some ⟨none, false, false, false,
      [some ⟨.nodePattern ⟨some ⟨symbol⟩, [], properties⟩⟩]⟩], none⟩, none⟩

end Dawgs.Ref.Cypher

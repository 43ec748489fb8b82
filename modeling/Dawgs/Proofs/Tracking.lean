import Dawgs.Lib.Lists

/-!
# Identifiers of a translation

`NewIdentifier` of tracking.go numbers the identifiers of each data type. Its
prefixes hold no digit, so an identifier says which counter it came from and
at which number, and the counters only grow.
-/

namespace Dawgs.Ref.Tracking

/-- The data types that `NewIdentifier` tells apart, and all others. -/
inductive DataType where
  | expansionPattern | expansionPath | pathComposite | nodeComposite | edgeComposite | pathEdge
  | scope | parameterIdentifier | unknown
  | other (name : String)
  deriving DecidableEq

/-- The next number by data type, without a bound; an absent key reads as zero. -/
abbrev IdentifierGenerator := DataType → Nat

/-- The switch of `NewIdentifier`: the key of the counter, and the prefix. -/
def counter : DataType → DataType × String
  | .expansionPattern => (.expansionPattern, "ex")
  | .expansionPath => (.expansionPath, "ep")
  | .pathComposite => (.pathComposite, "pc")
  | .nodeComposite => (.nodeComposite, "n")
  | .edgeComposite | .pathEdge => (.edgeComposite, "e")
  | .scope => (.scope, "s")
  | .parameterIdentifier => (.parameterIdentifier, "pi")
  | _ => (.unknown, "i")

def newIdentifier (s : IdentifierGenerator) (dataType : DataType) : String × IdentifierGenerator :=
  let (dataType, prefixStr) := counter dataType
  (prefixStr ++ (s dataType).repr, Function.update s dataType (s dataType + 1))

/-- The identifiers for one request after another. -/
def newIdentifiers (s : IdentifierGenerator) : List DataType → List String
  | [] => []
  | dataType :: requests =>
    (newIdentifier s dataType).1 :: newIdentifiers (newIdentifier s dataType).2 requests

variable {d d' : DataType} {i j : Nat} {s : IdentifierGenerator}

theorem counter_letters (d : DataType) : ∀ c ∈ (counter d).2.toList, c.isDigit = false := by
  cases d <;> simp [counter]

theorem counter_eq (h : (counter d).2 = (counter d').2) : (counter d).1 = (counter d').1 := by
  cases d <;> cases d' <;> simp_all [counter]

/-- The number is what is left from the first digit on. -/
theorem dropWhile_identifier (d : DataType) (i : Nat) :
    ((counter d).2 ++ i.repr).toList.dropWhile (!·.isDigit) = Nat.toDigits 10 i := by
  rw [String.toList_append, Nat.repr_eq_ofList_toDigits, String.toList_ofList,
    List.dropWhile_append_of_pos (by simpa using counter_letters d), List.dropWhile_eq_self_iff]
  intro hlen
  simp [Nat.isDigit_of_mem_toDigits (by decide) (by decide) (List.getElem_mem hlen)]

theorem identifier_inj (h : (counter d).2 ++ i.repr = (counter d').2 ++ j.repr) :
    (counter d).1 = (counter d').1 ∧ i = j := by
  have hdigits : Nat.toDigits 10 i = Nat.toDigits 10 j := by
    rw [← dropWhile_identifier d, h, dropWhile_identifier]
  obtain rfl : i = j := by simpa using congrArg (Nat.ofDigitChars 10 · 0) hdigits
  exact ⟨counter_eq ((String.append_left_inj _).mp h), rfl⟩

theorem exists_of_mem_newIdentifiers {x : String} {requests : List DataType}
    (h : x ∈ newIdentifiers s requests) :
    ∃ d i, s (counter d).1 ≤ i ∧ x = (counter d).2 ++ i.repr := by
  induction requests generalizing s with
  | nil => cases h
  | cons dataType requests ih =>
    obtain rfl | h := List.mem_cons.mp h
    · exact ⟨dataType, _, le_rfl, rfl⟩
    · obtain ⟨d, i, hi, rfl⟩ := ih h
      refine ⟨d, i, le_trans ?_ hi, rfl⟩
      simp only [newIdentifier, Function.update_apply]
      split <;> simp_all

/-- No identifier is given out twice. -/
theorem newIdentifiers_nodup (requests : List DataType) : (newIdentifiers s requests).Nodup := by
  induction requests generalizing s with
  | nil => exact List.nodup_nil
  | cons dataType requests ih =>
    refine List.nodup_cons.mpr ⟨fun hmem => ?_, ih⟩
    obtain ⟨d, i, hi, heq⟩ := exists_of_mem_newIdentifiers hmem
    obtain ⟨hkey, rfl⟩ : _ ∧ s (counter dataType).1 = i := identifier_inj heq
    simp only [newIdentifier, hkey, Function.update_self] at hi
    omega

end Dawgs.Ref.Tracking

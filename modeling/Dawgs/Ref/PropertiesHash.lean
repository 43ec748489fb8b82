import Dawgs.Lib.Table

/-!
# The hash of a property bag

`HashInto` writes the properties of a bag to a digest, in the order of
their keys: a key, then its value as JSON, then the next key. What is
written stands here for the digest itself. Texts are compared instead of
bytes; the encoding of texts as bytes keeps the order, and concatenation.

`marshal` is `json.Marshal`, which may fail. The digest takes whatever it
is given.
-/

namespace Dawgs.Ref

open Lib

variable {V ε : Type}

/-- `Properties.Map`. -/
abbrev PropertyMap (V : Type) := Table String V

/-- `Keys`. -/
def PropertyMap.sortedKeys (s : PropertyMap V) (ignoredKeys : Finset String) :
    List String := (s.keys \ ignoredKeys).sort

inductive HashError (ε : Type) where
  | marshaling (key : String) (e : ε)

/-- `writeKeyValueToHash`. -/
def writeKeyValueToHash (marshal : V → Except ε String) (h : String)
    (key : String) (value : V) : String × Option (HashError ε) :=
  let h := h ++ key
  match marshal value with
  | .error e => (h, some (.marshaling key e))
  | .ok encodedValue => (h ++ encodedValue, none)

/-- The loop of `HashInto`. -/
def hashEntries (marshal : V → Except ε String) (s : PropertyMap V) :
    List String → String → String × Option (HashError ε)
  | [], h => (h, none)
  | key :: keys, h =>
    match s.row key with
    | none => hashEntries marshal s keys h
    | some value =>
      match writeKeyValueToHash marshal h key value with
      | (h, some e) => (h, some e)
      | (h, none) => hashEntries marshal s keys h

/-- `HashInto`. -/
def hashInto (marshal : V → Except ε String) (h : String) (s : PropertyMap V)
    (ignoredKeys : Finset String) : String × Option (HashError ε) :=
  hashEntries marshal s (s.sortedKeys ignoredKeys) h

end Dawgs.Ref

import Dawgs.Lib.BitSet

/-!
# The Elias-Fano sets

`container.EFSet` stores a non-decreasing list of `uint64` values. A value,
less the lower end of the universe, is cut into its low bits, which are
packed one value after the other into `lowerBits`, and the rest, which is
a distance: the set bit of the `i`-th value in `upperBits` stands at the
rest plus `i` plus one. So the positions ascend, `Select` finds the bit of
a value from its index, and the distance is read back from the position.

The number of low bits is computed with floating point in the source. Here
it is an argument. `uint` and `uint64` are natural numbers, and every sum,
product, difference and left shift wraps. `MustAppend` panics where
`Append` returns an error, so one model is enough. `upperBitsLength` is
written and never read, and is left out; the mask is a function of the
number of low bits.

An index past the end is not refused anywhere: `Select` hands out the
length of the bit set for it, and `Lookup` computes a value from that. A
search keeps the indices it looked up, next to its answer. Nothing stops a
search from running forever, hence the fuel.
-/

namespace Dawgs.Ref

open Lib

/-- A `uint64` result. -/
def wrap (n : Nat) : Nat := n % 2 ^ 64

/-- `a - b` on `uint64`. -/
def wrapSub (a b : Nat) : Nat := wrap (a + 2 ^ 64 - b)

/-- `ErrUnorderedAppend` and `ErrValueOutsideUniverse`. -/
inductive AppendError where
  | unorderedAppend
  | valueOutsideUniverse
  deriving DecidableEq

structure EFSet where
  upperBits : BitSet
  lowerBits : BitSet
  universeMin : Nat
  universeMax : Nat
  last : Nat
  lowerBitsLength : Nat
  len : Nat

namespace EFSet

variable (s : EFSet)

def lowerBitsMask : Nat := 1 <<< s.lowerBitsLength - 1

/-- `NewEFSet`. -/
def new (lowerBitsLength universeMin universeMax : Nat) : EFSet where
  upperBits := .new 0
  lowerBits := .new 0
  universeMin := universeMin
  universeMax := universeMax
  last := 0
  lowerBitsLength := lowerBitsLength
  len := 0

/-- `AllocateEFSet`. -/
def allocate (lowerBitsLength universeMin universeMax maxValues : Nat) : EFSet where
  upperBits := .new (wrap (maxValues + universeMax >>> lowerBitsLength + 2))
  lowerBits := .new (wrap (maxValues * lowerBitsLength))
  universeMin := universeMin
  universeMax := universeMax
  last := 0
  lowerBitsLength := lowerBitsLength
  len := 0

/-- The low bits of one value, highest first, from `lowerOffset` on. -/
def writeLower (width lowerOffset lower : Nat) (b : BitSet) : BitSet :=
  (List.range width).foldl (fun b bitIdx =>
    b.setTo (wrap (lowerOffset + bitIdx + 1)) (decide (0 < lower &&& 1 <<< (width - bitIdx - 1)))) b

/-- `append`. -/
def append (value : Nat) : EFSet :=
  let universeFloorAdjustedValue := wrapSub value s.universeMin
  let upper := universeFloorAdjustedValue >>> s.lowerBitsLength
  let lower := universeFloorAdjustedValue &&& s.lowerBitsMask
  let lowerOffset := wrap (s.len * s.lowerBitsLength)
  { s with
    upperBits := s.upperBits.set (wrap (upper + s.len + 1))
    lowerBits := writeLower s.lowerBitsLength lowerOffset lower s.lowerBits
    len := wrap (s.len + 1)
    last := value }

/-- `Append`. -/
def tryAppend (value : Nat) : Except AppendError EFSet :=
  if value < s.universeMin ∨ s.universeMax < value then
    .error .valueOutsideUniverse
  else if value < s.last then .error .unorderedAppend
  else .ok (s.append value)

/-- Values appended one after the other, up to the first error. -/
def appendAll (values : List Nat) : Except AppendError EFSet := values.foldlM tryAppend s

/-- The loop of `Lookup` and of `Next` over the low bits of one value. -/
def readLower (lowerIndex : Nat) : Nat :=
  (List.range' lowerIndex (wrap (lowerIndex + s.lowerBitsLength) - lowerIndex)).foldl
    (fun lower idx =>
      wrap (wrap (lower <<< 1) +
        if s.lowerBits.test (wrap (idx + 1)) then 1 else 0)) 0

/-- The value with these upper and lower bits. -/
def join (upper lower : Nat) : Nat :=
  wrap ((wrap (upper <<< s.lowerBitsLength) ||| lower) + s.universeMin)

/-- `Lookup`. -/
def lookup (index : Nat) : Nat :=
  s.join (wrapSub (wrapSub (s.upperBits.select index) index) 1)
    (s.readLower (wrap (index * s.lowerBitsLength)))

/-- `EFSetIterator`; the set is passed along. -/
structure Iterator where
  upperIdx : Nat
  lowerIdx : Nat

/-- `advanceHigherBitsPosition`; a search that finds nothing is at 0. -/
def advanceHigherBitsPosition (upperIdx : Nat) : Nat :=
  let upperIdx := if 0 < upperIdx then wrap (upperIdx + 1) else upperIdx
  (s.upperBits.nextSet upperIdx).getD 0

/-- `Next`. -/
def next (it : Iterator) : Nat × Iterator :=
  let upperIdx := s.advanceHigherBitsPosition it.upperIdx
  let nextLower := s.readLower (wrap (it.lowerIdx * s.lowerBitsLength))
  (s.join (wrapSub (wrapSub upperIdx it.lowerIdx) 1) nextLower, ⟨upperIdx, wrap (it.lowerIdx + 1)⟩)

/-- The next `n` values of an iterator. -/
def nexts (s : EFSet) : Nat → Iterator → List Nat
  | 0, _ => []
  | n + 1, it => (s.next it).1 :: s.nexts n (s.next it).2

/-- What `Iterator` yields. -/
def iterate : List Nat := s.nexts s.len ⟨0, 0⟩

/-- What `Find` returns, and the indices it looked up on the way. -/
structure Search where
  accessed : List Nat
  index : Nat
  found : Bool
  deriving DecidableEq

def Search.after (midEntry : Nat) (r : Search) : Search :=
  { r with accessed := midEntry :: r.accessed }

/-- The loop of `Find`. -/
def findLoop (s : EFSet) (target : Nat) : Nat → Nat → Nat → Option Search
  | 0, _, _ => none
  | fuel + 1, lowEntry, highEntry =>
    if lowEntry ≤ highEntry then
      let midEntry := lowEntry + (highEntry - lowEntry) / 2
      let nextValue := s.lookup midEntry
      if nextValue = target then some ⟨[midEntry], midEntry, true⟩
      else if nextValue < target then
        (s.findLoop target fuel (wrap (midEntry + 1)) highEntry).map (Search.after midEntry)
      else
        (s.findLoop target fuel lowEntry (wrapSub midEntry 1)).map (Search.after midEntry)
    else some ⟨[], 0, false⟩

/-- `Find`, for so many iterations. -/
def find (target : Nat) (fuel : Nat) : Option Search := s.findLoop target fuel 0 (wrapSub s.len 1)

end EFSet

end Dawgs.Ref

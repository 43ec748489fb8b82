import Dawgs.Ref.EliasFano

/-!
# Elias-Fano sets hold what was appended

The invariant of a set under construction says what the bits are: the set
upper bits, lowest first, are the positions of the values, and the packed
low bits are the low bits of the values. One append puts a position behind
all others, because a position grows with the value and with the index,
and writes low bits where none were.

From the bits a value comes back in two ways, through `Select` by its
index and through `NextSet` from the position before. Both end in the same
position, and the position less the index is the rest of the value.

None of this holds once a position wraps. The widths for which none does
are those that fit: they keep the two lengths that an allocation computes
within the machine word. With no low bits at all and the full range of
`uint64` as the universe, the largest value has its bit at zero.
-/

namespace Dawgs.Ref

open Lib List Nat

variable {n : Nat}

theorem wrap_of_lt (h : n < 2 ^ 64) : wrap n = n := mod_eq_of_lt h

theorem wrapSub_of_le {a b : Nat} (ha : a < 2 ^ 64) (h : b ≤ a) : wrapSub a b = a - b := by
  unfold wrapSub wrap
  omega

namespace EFSet

/-- The lengths of the two bit sets, as an allocation computes them, are
`uint64` values. -/
structure Fits (lowerBitsLength universeMax maxValues : Nat) : Prop where
  width : lowerBitsLength < 64
  range : universeMax < 2 ^ 64
  upper : maxValues + universeMax >>> lowerBitsLength + 2 < 2 ^ 64
  lower : maxValues * lowerBitsLength + 1 < 2 ^ 64

variable {width universeMax value : Nat} {s : EFSet} {values : List Nat}

theorem Fits.mono {m : Nat} (h : Fits width universeMax n) (hm : m ≤ n) :
    Fits width universeMax m := by
  have hmul := mul_le_mul_right width hm
  exact ⟨h.width, h.range, by have := h.upper; omega, by have := h.lower; omega⟩

theorem Fits.count_lt (h : Fits width universeMax n) : n + 2 < 2 ^ 64 := by
  have hupper := h.upper
  generalize universeMax >>> width = top at hupper
  omega

/-! ## The bits of a value -/

/-- The position of a value in the upper bits. -/
def position (width universeMin i value : Nat) : Nat := (value - universeMin) / 2 ^ width + i + 1

theorem position_le (width universeMin i : Nat) (h : value ≤ universeMax) :
    position width universeMin i value ≤ universeMax >>> width + i + 1 := by
  have hdiv : (value - universeMin) / 2 ^ width ≤ universeMax / 2 ^ width :=
    Nat.div_le_div_right (by omega)
  rw [shiftRight_eq_div_pow]
  exact Nat.add_le_add_right (Nat.add_le_add_right hdiv i) 1

/-- A position less the index is the rest of the value. -/
theorem wrapSub_position {universeMin i : Nat} (h : position width universeMin i value < 2 ^ 64) :
    wrapSub (wrapSub (position width universeMin i value) i) 1 =
      (value - universeMin) / 2 ^ width := by
  unfold position at h ⊢
  generalize (value - universeMin) / 2 ^ width = upper at h ⊢
  rw [wrapSub_of_le h (by omega), wrapSub_of_le (by omega) (by omega)]
  omega

theorem testBit_and_shiftLeft (n k : Nat) : decide (0 < n &&& 1 <<< k) = n.testBit k := by
  rw [one_shiftLeft, and_two_pow]
  cases n.testBit k with
  | false => simp
  | true => simp

/-- The loop writes the low bits at its own positions and nothing else. -/
theorem test_writeLower {offset : Nat} (lower : Nat) (b : BitSet) (p : Nat)
    (hfit : offset + width < 2 ^ 64) : (writeLower width offset lower b).test p =
      if offset < p ∧ p ≤ offset + width
      then lower.testBit (width - (p - offset - 1) - 1) else b.test p := by
  have hloop : ∀ k ≤ width, ((List.range k).foldl (fun b bitIdx =>
          b.setTo (wrap (offset + bitIdx + 1))
            (decide (0 < lower &&& 1 <<< (width - bitIdx - 1)))) b).test p =
        if offset < p ∧ p ≤ offset + k
        then lower.testBit (width - (p - offset - 1) - 1) else b.test p := by
    intro k hk
    induction k with
    | zero => rw [if_neg (by omega)]; rfl
    | succ k ih =>
      have hw : wrap (offset + k + 1) = offset + k + 1 := wrap_of_lt (by omega)
      rw [range_succ, foldl_concat, BitSet.test_setTo, ih (by omega), testBit_and_shiftLeft, hw]
      by_cases hp : p = offset + k + 1
      · rw [if_pos hp, if_pos (by omega)]
        congr 1
        omega
      · rw [if_neg hp]
        simp only [show p ≤ offset + (k + 1) ↔ p ≤ offset + k ∨
          p = offset + k + 1 by omega, hp, or_false]
  exact hloop width (Nat.le_refl _)

/-- One more bit of a number, from above. -/
theorem div_two_pow_succ (n k : Nat) :
    2 * (n / 2 ^ (k + 1)) + (if n.testBit k then 1 else 0) = n / 2 ^ k := by
  rw [Nat.testBit_eq_decide_div_mod_eq, Nat.pow_succ, ← Nat.div_div_eq_div_mul]
  have h := Nat.div_add_mod (n / 2 ^ k) 2
  split <;> simp_all

/-- The loop of a read puts the low bits together, highest first. -/
theorem readLower_eq {offset lower : Nat} (hwidth : s.lowerBitsLength < 64)
    (hfit : offset + s.lowerBitsLength < 2 ^ 64)
    (hlower : lower < 2 ^ s.lowerBitsLength) (htest : ∀ b < s.lowerBitsLength,
      s.lowerBits.test (offset + b + 1) = lower.testBit (s.lowerBitsLength - b - 1)) :
    s.readLower offset = lower := by
  have hpow : 2 ^ s.lowerBitsLength < 2 ^ 64 := Nat.pow_lt_pow_right (by omega) hwidth
  have hloop : ∀ k ≤ s.lowerBitsLength, (List.range' offset k).foldl (fun lower idx =>
          wrap (wrap (lower <<< 1) +
            if s.lowerBits.test (wrap (idx + 1)) then 1 else 0)) 0 =
        lower / 2 ^ (s.lowerBitsLength - k) := by
    intro k hk
    induction k with
    | zero => simp [div_eq_of_lt hlower]
    | succ k ih =>
      obtain ⟨j, hj⟩ : ∃ j, s.lowerBitsLength = k + 1 + j := ⟨s.lowerBitsLength - (k + 1), by omega⟩
      have hbits := div_two_pow_succ lower j
      have hle : lower / 2 ^ j ≤ lower := div_le_self ..
      have hdouble : 2 * (lower / 2 ^ (j + 1)) < 2 ^ 64 := by omega
      have hw : wrap (offset + k + 1) = offset + k + 1 := wrap_of_lt (by omega)
      rw [List.range'_1_concat, foldl_concat, ih (by omega), hw, htest k (by omega),
        show s.lowerBitsLength - k - 1 = j by omega,
        show s.lowerBitsLength - k = j + 1 by omega,
        show s.lowerBitsLength - (k + 1) = j by omega,
        shiftLeft_eq, mul_comm,
        wrap_of_lt hdouble, hbits, wrap_of_lt (by omega)]
  have h := hloop s.lowerBitsLength (le_refl _)
  rw [Nat.sub_self, Nat.pow_zero, Nat.div_one] at h
  rw [readLower, wrap_of_lt hfit, Nat.add_sub_cancel_left]
  exact h

/-- A value is put together from its two parts. -/
theorem join_eq (hmin : s.universeMin ≤ value) (hvalue : value < 2 ^ 64) :
    s.join ((value - s.universeMin) / 2 ^ s.lowerBitsLength)
      ((value - s.universeMin) % 2 ^ s.lowerBitsLength) = value := by
  have hpos : 0 < 2 ^ s.lowerBitsLength := Nat.two_pow_pos _
  have hdiv := div_add_mod' (value - s.universeMin) (2 ^ s.lowerBitsLength)
  have hlt := mod_lt (value - s.universeMin) hpos
  have hshift : ((value - s.universeMin) / 2 ^ s.lowerBitsLength) <<<
      s.lowerBitsLength < 2 ^ 64 := by
    omega
  rw [join, wrap_of_lt hshift, ← shiftLeft_add_eq_or_of_lt hlt, wrap_of_lt (by omega)]
  omega

/-! ## The invariant of a set under construction -/

/-- The bits of a set are those of a list of values. -/
structure Encodes (s : EFSet) (values : List Nat) : Prop where
  len : s.len = values.length
  fits : Fits s.lowerBitsLength s.universeMax values.length
  mem_universe : ∀ v ∈ values, s.universeMin ≤ v ∧ v ≤ s.universeMax
  sorted : values.Pairwise (· ≤ ·)
  le_last : ∀ v ∈ values, v ≤ s.last
  upper : s.upperBits.ascending = values.mapIdx (position s.lowerBitsLength s.universeMin)
  lower : ∀ (i : Nat) (hi : i < values.length), ∀ b < s.lowerBitsLength,
    s.lowerBits.test (i * s.lowerBitsLength + b + 1) =
      (values[i] - s.universeMin).testBit (s.lowerBitsLength - b - 1)

namespace Encodes

variable {s : EFSet}

variable {i : Nat} {it : Iterator}

variable (h : Encodes s values)
include h

section Value

variable (hi : i < values.length)
include hi

theorem position_lt : position s.lowerBitsLength s.universeMin i values[i] + 1 < 2 ^ 64 := by
  have hle := position_le s.lowerBitsLength s.universeMin i (h.mem_universe _ (getElem_mem hi)).2
  have := h.fits.upper
  omega

theorem offset_le : i * s.lowerBitsLength + s.lowerBitsLength + 1 < 2 ^ 64 := by
  have hmul := mul_le_mul_right s.lowerBitsLength (show i + 1 ≤ values.length from hi)
  rw [succ_mul] at hmul
  have := h.fits.lower
  omega

theorem readLower_eq :
    s.readLower (wrap (i * s.lowerBitsLength)) =
      (values[i] - s.universeMin) % 2 ^ s.lowerBitsLength := by
  have hoff := h.offset_le hi
  rw [wrap_of_lt (by omega)]
  refine EFSet.readLower_eq h.fits.width (by omega)
    (Nat.mod_lt _ (Nat.two_pow_pos _)) fun b hb => ?_
  rw [h.lower i hi b hb, testBit_mod_two_pow, decide_eq_true (by omega), Bool.true_and]

/-- The position of a value and its low bits give the value. -/
theorem join_position :
    s.join (wrapSub (wrapSub (position s.lowerBitsLength s.universeMin i values[i]) i) 1)
      (s.readLower (wrap (i * s.lowerBitsLength))) = values[i] := by
  have hlt := h.position_lt hi
  rw [h.readLower_eq hi, wrapSub_position (by omega)]
  obtain ⟨hmin, hmax⟩ := h.mem_universe _ (getElem_mem hi)
  exact join_eq hmin (lt_of_le_of_lt hmax h.fits.range)

omit hi in
theorem ascending_length : s.upperBits.ascending.length = values.length := by
  rw [h.upper, length_mapIdx]

theorem ascending_getElem (hi' : i < s.upperBits.ascending.length) :
    s.upperBits.ascending[i] = position s.lowerBitsLength s.universeMin i values[i] := by
  simp [h.upper]

theorem lookup : s.lookup i = values[i] := by
  have hi' : i < s.upperBits.ascending.length := by
    rw [h.ascending_length]
    exact hi
  rw [EFSet.lookup, BitSet.select_eq hi', h.ascending_getElem hi]
  exact h.join_position hi

end Value

/-- The state of an iterator that has yielded `i` values. -/
def Iterates (s : EFSet) (values : List Nat) (i : Nat) (it : Iterator) : Prop :=
  it.lowerIdx = i ∧
    match i with
    | 0 => it.upperIdx = 0
    | j + 1 => values[j]?.map (position s.lowerBitsLength s.universeMin j) = some it.upperIdx

theorem advance (hit : Iterates s values i it) (hi : i < values.length) :
    s.advanceHigherBitsPosition it.upperIdx =
      position s.lowerBitsLength s.universeMin i values[i] := by
  have hi' : i < s.upperBits.ascending.length := by
    rw [h.ascending_length]
    exact hi
  unfold advanceHigherBitsPosition
  cases i with
  | zero =>
    have hzero : it.upperIdx = 0 := hit.2
    simp [hzero, BitSet.nextSet_zero hi', h.ascending_getElem hi]
  | succ j =>
    have hj : j < values.length := by omega
    have hpos : position s.lowerBitsLength s.universeMin j values[j] =
        it.upperIdx := by
      simpa [hj] using hit.2
    have hlt := h.position_lt hj
    have hwrap : wrap (it.upperIdx + 1) = it.upperIdx + 1 := wrap_of_lt (by omega)
    have hidx : 0 < it.upperIdx := by
      rw [← hpos]
      exact succ_pos _
    have hnext := BitSet.nextSet_succ hi'
    rw [h.ascending_getElem hj, h.ascending_getElem hi, hpos] at hnext
    simp only [hidx, if_true, hwrap, hnext, Option.getD_some]

/-- One turn of the iterator yields the next value. -/
theorem next (hit : Iterates s values i it) (hi : i < values.length) :
    (s.next it).1 = values[i] ∧ Iterates s values (i + 1) (s.next it).2 := by
  have hupper := h.advance hit hi
  have hlower : it.lowerIdx = i := hit.1
  have hcount := h.fits.count_lt
  constructor
  · show s.join _ _ = _
    rw [hupper, hlower]
    exact h.join_position hi
  · refine ⟨?_, ?_⟩
    · show wrap (it.lowerIdx + 1) = i + 1
      rw [hlower]
      exact wrap_of_lt (by omega)
    · show values[i]?.map _ = some (s.advanceHigherBitsPosition it.upperIdx)
      rw [hupper]
      simp [hi]

theorem nexts (hit : Iterates s values i it)
    (hn : i + n = values.length) : s.nexts n it = values.drop i := by
  induction n generalizing i it with
  | zero => rw [EFSet.nexts, drop_of_length_le (by omega)]
  | succ n ih =>
    have hi : i < values.length := by omega
    obtain ⟨hvalue, hnext⟩ := h.next hit hi
    rw [EFSet.nexts, hvalue, ih hnext (by omega), drop_eq_getElem_cons hi]

theorem iterate : s.iterate = values := by
  rw [EFSet.iterate, h.nexts (i := 0) ⟨rfl, rfl⟩ (by rw [h.len]; omega), drop_zero]

/-! ## Appending -/

theorem append {value : Nat} (hfits : Fits s.lowerBitsLength s.universeMax (values.length + 1))
    (huniv : s.universeMin ≤ value ∧ value ≤ s.universeMax) (hlast : s.last ≤ value) :
    Encodes (s.append value) (values ++ [value]) := by
  have hvalue : value < 2 ^ 64 := lt_of_le_of_lt huniv.2 hfits.range
  have hlen := h.len
  have hcount := hfits.count_lt
  have hupper := hfits.upper
  have hlower := hfits.lower
  have hle := position_le s.lowerBitsLength s.universeMin values.length huniv.2
  have hmul : (values.length + 1) * s.lowerBitsLength =
      values.length * s.lowerBitsLength + s.lowerBitsLength := succ_mul ..
  have hoff : wrap (s.len * s.lowerBitsLength) = values.length * s.lowerBitsLength := by
    rw [hlen]
    exact wrap_of_lt (by omega)
  have hpos : wrap (wrapSub value s.universeMin >>> s.lowerBitsLength + s.len + 1) =
      position s.lowerBitsLength s.universeMin values.length value := by
    rw [wrapSub_of_le hvalue huniv.1, shiftRight_eq_div_pow, hlen]
    exact wrap_of_lt (by change position _ _ _ _ < _; omega)
  refine ⟨?_, ?_, ?_, ?_, ?_, ?_, ?_⟩
  · show wrap (s.len + 1) = _
    rw [hlen, length_append]
    exact wrap_of_lt (by omega)
  · rw [length_append]
    exact hfits
  · exact forall_mem_append.mpr ⟨h.mem_universe, forall_mem_singleton.mpr huniv⟩
  · refine pairwise_append.mpr ⟨h.sorted, by simp, fun a ha b hb => ?_⟩
    rw [mem_singleton.mp hb]
    exact le_trans (h.le_last a ha) hlast
  · exact forall_mem_append.mpr ⟨fun v hv => le_trans (h.le_last v hv) hlast,
      forall_mem_singleton.mpr (le_refl value)⟩
  · show (s.upperBits.set _).ascending = _
    rw [hpos, BitSet.ascending_set, h.upper, mapIdx_concat]
    · rfl
    intro j hj
    rw [h.upper] at hj
    obtain ⟨i, hi, rfl⟩ := mem_mapIdx.mp hj
    have hdiv : (values[i] - s.universeMin) / 2 ^ s.lowerBitsLength ≤
        (value - s.universeMin) / 2 ^ s.lowerBitsLength := by
      have := h.le_last _ (getElem_mem hi)
      exact Nat.div_le_div_right (by omega)
    exact Nat.succ_lt_succ (Nat.add_lt_add_of_le_of_lt hdiv hi)
  · intro i hi b hb
    change b < s.lowerBitsLength at hb
    show (writeLower _ _ _ _).test (i * s.lowerBitsLength + b + 1) =
      ((values ++ [value])[i] - s.universeMin).testBit (s.lowerBitsLength - b - 1)
    rw [test_writeLower _ _ _ (by omega)]
    rw [length_append] at hi
    obtain hlt | rfl := lt_or_eq_of_le (le_of_lt_succ hi)
    · have hle := mul_le_mul_right s.lowerBitsLength (show i + 1 ≤ values.length from hlt)
      rw [succ_mul] at hle
      rw [if_neg (by omega), getElem_append_left hlt]
      exact h.lower i hlt b hb
    · rw [if_pos (by omega), getElem_concat_length rfl,
        wrapSub_of_le hvalue huniv.1, lowerBitsMask, one_shiftLeft,
        and_two_pow_sub_one_eq_mod, testBit_mod_two_pow,
        decide_eq_true (by omega), Bool.true_and]
      congr 1
      omega

end Encodes

theorem encodes_nil (hlen : s.len = 0) (hfits : Fits s.lowerBitsLength s.universeMax 0)
    (hbits : s.upperBits.ascending = []) : Encodes s [] where
  len := hlen
  fits := hfits
  mem_universe := by simp
  sorted := .nil
  le_last := by simp
  upper := hbits
  lower i hi := absurd hi (by simp)

/-- Any values appended in order: none is refused, and all are encoded. -/
theorem Encodes.appendAll {new : List Nat} (h : Encodes s values)
    (hfits : Fits s.lowerBitsLength s.universeMax (values.length + new.length))
    (huniv : ∀ v ∈ new, s.universeMin ≤ v ∧ v ≤ s.universeMax) (hsorted : new.Pairwise (· ≤ ·))
    (hlast : ∀ v ∈ new, s.last ≤ v) : ∃ t, s.appendAll new = .ok t ∧ Encodes t (values ++ new) := by
  induction new generalizing s values with
  | nil => exact ⟨s, rfl, by simpa using h⟩
  | cons v new ih =>
    have hv := huniv v (mem_cons_self ..)
    have hle := hlast v (mem_cons_self ..)
    rw [length_cons] at hfits
    obtain ⟨hfirst, hrest⟩ := pairwise_cons.mp hsorted
    have hstep := h.append (hfits.mono (by omega)) hv hle
    have hok : s.tryAppend v = .ok (s.append v) := by
      rw [tryAppend, if_neg (by omega), if_neg (by omega)]
    have hroom : (values ++ [v]).length + new.length = values.length + (new.length + 1) := by
      rw [length_append, length_singleton]
      omega
    obtain ⟨t, ht, henc⟩ := ih hstep (by rw [hroom]; exact hfits)
      (fun w hw => huniv w (mem_cons_of_mem _ hw)) hrest hfirst
    refine ⟨t, ?_, by simpa using henc⟩
    rw [EFSet.appendAll, foldlM_cons, hok]
    exact ht

/-- What a set that holds a list of values answers. -/
structure Holds (s : EFSet) (values : List Nat) : Prop where
  len : s.len = values.length
  lookup : ∀ (i : Nat) (hi : i < values.length), s.lookup i = values[i]
  iterate : s.iterate = values

theorem Encodes.holds (h : Encodes s values) :
    Holds s values := ⟨h.len, fun _ => h.lookup, h.iterate⟩

/-- With no low bits, the bit of the largest value wraps to zero. -/
theorem largest_value_misread :
    ∃ s, (allocate 0 0 (2 ^ 64 - 1) 2).appendAll [2 ^ 64 - 1, 2 ^ 64 - 1] = .ok s ∧
      s.iterate = [2 ^ 64 - 1, 2 ^ 64 - 2] := ⟨_, rfl, by decide +kernel⟩

/-- For a width that fits, every list in order within the universe and the
count is appended without an error and read back by index and in order. -/
theorem allocate_holds {lowerBitsLength universeMin universeMax maxValues : Nat}
    (hfits : Fits lowerBitsLength universeMax maxValues) {values : List Nat}
    (hsorted : values.Pairwise (· ≤ ·)) (huniv : ∀ v ∈ values, universeMin ≤ v ∧ v ≤ universeMax)
    (hcount : values.length ≤ maxValues) :
    ∃ s, (allocate lowerBitsLength universeMin universeMax
        maxValues).appendAll values = .ok s ∧ Holds s values := by
  have hnil := encodes_nil (s := allocate lowerBitsLength universeMin universeMax maxValues) rfl
    (hfits.mono (by omega)) (BitSet.ascending_new _)
  obtain ⟨s, hs, henc⟩ := hnil.appendAll
    (hfits.mono (by simpa using hcount)) huniv hsorted (fun v _ => zero_le v)
  exact ⟨s, hs, henc.holds⟩

theorem allocate_holds_spread :
    ∃ s, (allocate 2 3 20 4).appendAll [3, 7, 7, 20] = .ok s ∧ Holds s [3, 7, 7, 20] :=
  allocate_holds ⟨by decide, by decide, by decide, by decide⟩ (by decide) (by decide) (by decide)

end EFSet

end Dawgs.Ref

import Dawgs.Proofs.EliasFano

/-!
# Where the search of an Elias-Fano set goes

`Find` is a binary search between two unsigned indices, both ends
included. While the target is not below the first value, the search keeps
to the set: the values before the lower end are smaller than the target,
those behind the upper end are larger, and the upper end cannot pass below
zero, since at index zero the value is not larger than the target.

If the target is below every value, the upper end does pass below zero.
The lower end stays at zero all the time, so the loop is never left from
there, and as long as only indices of the set are looked up every value is
too large. Hence a search that returns has looked up an index that the set
does not have. An empty set is such a case from the start.
-/

namespace Dawgs.Ref.EFSet

open List

/-- An answer of `Find` is right: no index outside the set was looked up,
a target in the list was found, and any other is reported absent. -/
structure Search.Right (s : EFSet) (values : List Nat) (target : Nat) (r : Search) : Prop where
  in_range : ∀ i ∈ r.accessed, i < s.len
  present : target ∈ values → r.found = true ∧ r.index < s.len ∧ s.lookup r.index = target
  absent : target ∉ values → r.index = 0 ∧ r.found = false

/-- `Find` returns, and its answer is right. -/
def FindsRight (s : EFSet) (values : List Nat) (target : Nat) : Prop :=
  ∃ fuel r, s.find target fuel = some r ∧ r.Right s values target

/-- The values below the two ends of a search are smaller than the target,
those above are larger. -/
structure Narrowed (values : List Nat) (target low high : Nat) : Prop where
  high_lt : high < values.length
  low_le : low ≤ high + 1
  below : ∀ (i : Nat) (hi : i < values.length), i < low → values[i] < target
  above : ∀ (i : Nat) (hi : i < values.length), high < i → target < values[i]

namespace Encodes

variable {s : EFSet} {values : List Nat} {target : Nat}

section

variable (h : Encodes s values)
include h

theorem getElem_mono {i j : Nat} (hij : i ≤ j)
    (hj : j < values.length) : values[i] ≤ values[j] := by
  obtain hlt | rfl := Nat.lt_or_eq_of_le hij
  · exact pairwise_iff_getElem.mp h.sorted i j (by omega) hj hlt
  · exact Nat.le_refl _

theorem head_le {v : Nat} (hv : v ∈ values) : ∃ first ∈ values.head?, first ≤ v := by
  cases values with
  | nil => cases hv
  | cons first rest =>
    rcases mem_cons.mp hv with rfl | hv
    · exact ⟨v, rfl, Nat.le_refl v⟩
    · exact ⟨first, rfl, (pairwise_cons.mp h.sorted).1 v hv⟩

theorem right_after {i : Nat} {r : Search} (hi : i < values.length) (hr : r.Right s values target) :
    (r.after i).Right s values target := by
  refine ⟨fun j hj => ?_, hr.present, hr.absent⟩
  obtain rfl | hj := mem_cons.mp hj
  · rw [h.len]
    exact hi
  · exact hr.in_range j hj

/-- A narrowed search ends with the right answer. -/
theorem findLoop_right (hfirst : ∀ hpos : 0 < values.length, values[0] ≤ target)
    {fuel low high : Nat} (hn : Narrowed values target low high) (hfuel : high + 2 - low ≤ fuel) :
    ∃ r, s.findLoop target fuel low high = some r ∧ r.Right s values target := by
  have hlen := h.len
  have hcount := h.fits.count_lt
  induction fuel generalizing low high with
  | zero => exact absurd hn.low_le (by omega)
  | succ fuel ih =>
    have hhigh := hn.high_lt
    rw [findLoop]
    split
    next hle =>
      obtain ⟨mid, hmid⟩ : ∃ m, m = low + (high - low) / 2 := ⟨_, rfl⟩
      have hlt : mid < values.length := by omega
      simp only [← hmid, h.lookup hlt]
      split
      next heq =>
        refine ⟨_, rfl, fun i hi => ?_, fun _ => ⟨rfl, ?_, ?_⟩,
          fun habs => absurd (heq ▸ getElem_mem hlt) habs⟩
        · rw [mem_singleton.mp hi]
          omega
        · exact hlen ▸ hlt
        · exact (h.lookup hlt).trans heq
      next hne =>
        split
        next hsmall =>
          have hwrap : Dawgs.Ref.wrap (mid + 1) = mid + 1 := wrap_of_lt (by omega)
          have hn' : Narrowed values target (mid + 1) high := by
            refine ⟨hhigh, by omega, fun i hi hlow => ?_, hn.above⟩
            have := h.getElem_mono (show i ≤ mid by omega) hlt
            omega
          obtain ⟨r, hr, hright⟩ := ih hn' (by omega)
          rw [hwrap, hr]
          exact ⟨_, rfl, h.right_after hlt hright⟩
        next hbig =>
          -- at index zero the value is not larger than the target
          have hmidpos : 0 < mid := by
            refine Nat.pos_of_ne_zero fun hzero => ?_
            subst hzero
            have := hfirst (by omega)
            omega
          have hwrap : wrapSub mid 1 = mid - 1 := wrapSub_of_le (by omega) (by omega)
          have hn' : Narrowed values target low (mid - 1) := by
            refine ⟨by omega, by omega, hn.below, fun i hi hup => ?_⟩
            have := h.getElem_mono (show mid ≤ i by omega) hi
            omega
          obtain ⟨r, hr, hright⟩ := ih hn' (by omega)
          rw [hwrap, hr]
          exact ⟨_, rfl, h.right_after hlt hright⟩
    next hgt =>
      refine ⟨_, rfl, by simp, fun hmem => ?_, fun _ => ⟨rfl, rfl⟩⟩
      obtain ⟨i, hi, rfl⟩ := getElem_of_mem hmem
      exfalso
      obtain hlow | hup := Nat.lt_or_ge i low
      · exact absurd (hn.below i hi hlow) (by omega)
      · exact absurd (hn.above i hi (by omega)) (by omega)

/-- A search from zero for less than every value leaves the set before it
returns. -/
theorem findLoop_leaves (hless : ∀ v ∈ values, target < v) {fuel high : Nat} {r : Search}
    (hr : s.findLoop target fuel 0 high = some r) : ∃ i ∈ r.accessed, s.len ≤ i := by
  induction fuel generalizing high r with
  | zero => cases hr
  | succ fuel ih =>
    rw [findLoop, if_pos (by omega)] at hr
    obtain ⟨mid, hmid⟩ : ∃ m, m = 0 + (high - 0) / 2 := ⟨_, rfl⟩
    simp only [← hmid] at hr
    by_cases hlt : mid < values.length
    · have hbig := hless _ (getElem_mem hlt)
      rw [h.lookup hlt, if_neg (by omega), if_neg (by omega), Option.map_eq_some_iff] at hr
      obtain ⟨r', hr', rfl⟩ := hr
      obtain ⟨i, hi, hle⟩ := ih hr'
      exact ⟨i, mem_cons_of_mem _ hi, hle⟩
    · refine ⟨mid, ?_, by rw [h.len]; omega⟩
      split at hr
      · cases hr
        exact mem_cons_self ..
      · split at hr <;>
        · obtain ⟨r', -, rfl⟩ := Option.map_eq_some_iff.mp hr
          exact mem_cons_self ..

theorem finds_right_of_le
    (hfirst : ∃ v ∈ values.head?, v ≤ target) : FindsRight s values target := by
  obtain ⟨v, hv, hle⟩ := hfirst
  cases hvs : values with
  | nil => simp [hvs] at hv
  | cons w ws =>
    have hlen := h.len
    have hcount := h.fits.count_lt
    rw [hvs, length_cons] at hlen hcount
    obtain rfl : w = v := by simpa [hvs] using hv
    rw [← hvs]
    have hhigh : wrapSub s.len 1 = ws.length := by
      rw [wrapSub_of_le (by omega) (by omega)]
      omega
    have hn : Narrowed values target 0 ws.length := by
      refine ⟨by simp [hvs], by omega, fun i _ hi => absurd hi (by omega),
        fun i hi hup => absurd hi ?_⟩
      rw [hvs, length_cons]
      omega
    obtain ⟨r, hr, hright⟩ := h.findLoop_right
      (fun _ => by simpa [hvs] using hle) hn (Nat.le_refl _)
    exact ⟨_, r, by rw [find, hhigh]; exact hr, hright⟩

/-- A search is right exactly if the target is not below the set. -/
theorem finds_right_iff : FindsRight s values target ↔ ∃ v ∈ values.head?, v ≤ target := by
  refine ⟨fun ⟨fuel, r, hr, hright⟩ => ?_, h.finds_right_of_le⟩
  by_contra hno
  have hless : ∀ v ∈ values, target < v := by
    intro v hv
    obtain ⟨first, hfirst, hle⟩ := h.head_le hv
    by_contra hnot
    exact hno ⟨first, hfirst, by omega⟩
  obtain ⟨i, hi, hle⟩ := h.findLoop_leaves hless hr
  exact absurd (hright.in_range i hi) (by omega)

end

end Encodes

/-- What is looked up for a target below the only value: the index past
the wrap, in the middle of all indices. -/
theorem find_below_leaves_set :
    ∃ s, (allocate 2 5 5 1).appendAll [5] = .ok s ∧
      ∀ fuel r, s.find 3 fuel = some r → ∃ i ∈ r.accessed, s.len ≤ i := by
  have hnil : Encodes (allocate 2 5 5 1) [] :=
    encodes_nil rfl ⟨by decide, by decide, by decide, by decide⟩ rfl
  obtain ⟨s, hs, h⟩ : ∃ s, (allocate 2 5 5 1).appendAll [5] = .ok s ∧ Encodes s [5] :=
    hnil.appendAll ⟨by decide, by decide, by decide, by decide⟩ (by decide) (by decide) (by decide)
  exact ⟨s, hs, fun fuel r hr => h.findLoop_leaves (by decide) hr⟩

/-- A set in order is built without an error, and a search in it is right
exactly if the list has a first value and the target is not below it. -/
theorem find_right_iff_not_below
    {lowerBitsLength universeMin universeMax maxValues : Nat}
    (hfits : Fits lowerBitsLength universeMax maxValues) {empty : EFSet}
    (hempty : empty = new lowerBitsLength universeMin universeMax ∨
      empty = allocate lowerBitsLength universeMin universeMax maxValues)
    {values : List Nat} (hsorted : values.Pairwise (· ≤ ·))
    (huniv : ∀ v ∈ values, universeMin ≤ v ∧ v ≤ universeMax)
    (hcount : values.length ≤ maxValues) :
    ∃ s, empty.appendAll values = .ok s ∧ ∀ target, FindsRight s values target ↔
        ∃ v ∈ values.head?, v ≤ target := by
  have hnil : Encodes empty [] := by
    obtain rfl | rfl := hempty <;>
      exact encodes_nil rfl (hfits.mono (by omega)) rfl
  have hsame : empty.universeMin = universeMin ∧ empty.universeMax = universeMax ∧
      empty.lowerBitsLength = lowerBitsLength ∧ empty.last = 0 := by
    obtain rfl | rfl := hempty <;> exact ⟨rfl, rfl, rfl, rfl⟩
  obtain ⟨hmin, hmax, hwidth, hlast⟩ := hsame
  obtain ⟨s, hs, h⟩ := hnil.appendAll
    (by rw [hwidth, hmax]; exact hfits.mono (by simpa using hcount))
    (by rw [hmin, hmax]; exact huniv) hsorted (fun v _ => by rw [hlast]; exact Nat.zero_le v)
  exact ⟨s, hs, fun target => Encodes.finds_right_iff h⟩

theorem find_right_iff_not_below_pair :
    ∃ s, (allocate 2 3 20 4).appendAll [3, 20] = .ok s ∧
      ∀ target, FindsRight s [3, 20] target ↔ ∃ v ∈ [3, 20].head?, v ≤ target :=
  find_right_iff_not_below ⟨by decide, by decide, by decide, by decide⟩
    (.inr rfl) (by decide) (by decide) (by decide)

end Dawgs.Ref.EFSet

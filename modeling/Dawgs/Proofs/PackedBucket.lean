import Dawgs.Lib.Lists
import Dawgs.Ref.PackedMap
import Dawgs.Proofs.EliasFanoFind

/-!
# One bucket of a packed map

A compaction sorts the pending pairs. The first one packs them, and then
the keys and the values of the bucket stand at the same indices: a search
that finds a key is at the index of its value. A later one merges. The
merge appends every key of the two sorted lists in order, so the new set
holds all of them. The values it puts together on the way are dropped, and
the bucket keeps those it had. From then on there are more keys than
values. The largest key is found at an index that no value has, and the
next merge runs out of values.
-/

namespace Dawgs.Ref

open Lib List KVPair PackedBucket Nat Option

/-! ## Appending without looking at the error -/

namespace EFSet

variable {s : EFSet} {values : List Nat} {target : Nat} {r : Search}

theorem foldl_appendUnchecked {t : EFSet} (h : s.appendAll values = .ok t) :
    values.foldl appendUnchecked s = t := by
  induction values generalizing s with
  | nil =>
    cases h
    rfl
  | cons v values ih =>
    rw [appendAll, foldlM_cons] at h
    obtain ⟨u, hv, h⟩ := bind_eq_ok h
    have hu : s.appendUnchecked v = u := by
      simp only [appendUnchecked, hv]
    rw [foldl_cons, hu]
    exact ih h

/-- A list in order, appended to a new set for its range. -/
theorem encodes_foldl_new {width universeMin universeMax n : Nat}
    (hfits : Fits width universeMax n) (hlen : values.length ≤ n)
    (huniv : ∀ v ∈ values, universeMin ≤ v ∧ v ≤ universeMax) (hsorted : values.Pairwise (· ≤ ·)) :
    Encodes (values.foldl appendUnchecked (new width universeMin universeMax)) values := by
  have hnil : Encodes (new width universeMin universeMax) [] :=
    encodes_nil rfl (hfits.mono (by omega)) rfl
  obtain ⟨t, ht, henc⟩ := hnil.appendAll
    (hfits.mono (by simpa using hlen)) huniv hsorted (fun v _ => zero_le v)
  rw [foldl_appendUnchecked ht]
  exact henc

/-- More fuel does not change what a search returns. -/
theorem findLoop_succ {fuel low high : Nat} (h : s.findLoop target fuel low high = some r) :
    s.findLoop target (fuel + 1) low high = some r := by
  induction fuel generalizing low high r with
  | zero => cases h
  | succ fuel ih =>
    rw [findLoop] at h ⊢
    dsimp only at h ⊢
    split_ifs at h ⊢
    · exact h
    · obtain ⟨r', hr', rfl⟩ := map_eq_some_iff.mp h
      rw [ih hr']
      rfl
    · obtain ⟨r', hr', rfl⟩ := map_eq_some_iff.mp h
      rw [ih hr']
      rfl
    · exact h

theorem find_add {fuel : Nat} (n : Nat)
    (h : s.find target fuel = some r) : s.find target (fuel + n) = some r := by
  induction n with
  | zero => exact h
  | succ n ih => exact findLoop_succ ih

theorem find_unique {m n : Nat} {r' : Search} (h : s.find target m = some r)
    (h' : s.find target n = some r') : r = r' := by
  have h₁ := find_add n h
  have h₂ := find_add m h'
  rw [add_comm, h₁] at h₂
  exact some.inj h₂

/-- In a list without repetition, a value is found at its own index. -/
theorem Encodes.find_getElem (h : Encodes s values) (hnodup : values.Nodup)
    {i : Nat} (hi : i < values.length) :
    ∃ fuel r, s.find values[i] fuel = some r ∧ r.found = true ∧ r.index = i := by
  obtain ⟨fuel, r, hr, hright⟩ := h.finds_right_of_le (h.head_le (getElem_mem hi))
  obtain ⟨hfound, hlt, hlookup⟩ := hright.present (getElem_mem hi)
  rw [h.len] at hlt
  rw [h.lookup hlt] at hlookup
  exact ⟨fuel, r, hr, hfound, (Nodup.getElem_inj_iff hnodup).mp hlookup⟩

end EFSet

namespace PackedBucket

open EFSet

/-! ## The merge -/

theorem takePending_eq {nextKey : Nat} {ps : List KVPair} {m : Merge} (hne : nextKey ∉ ps.map key) :
    (takePending nextKey ps m).mergedSet = ((ps.takeWhile (·.key ≤ nextKey)).map key).foldl
        appendUnchecked m.mergedSet ∧ (takePending nextKey ps m).pending =
      ps.dropWhile (·.key ≤ nextKey) := by
  induction ps generalizing m with
  | nil => exact ⟨rfl, rfl⟩
  | cons p ps ih =>
    rw [map_cons, mem_cons, not_or] at hne
    rw [takePending]
    split
    next hle =>
      rw [if_pos (Ne.symm hne.1), takeWhile_cons_of_pos (by simpa),
        dropWhile_cons_of_pos (by simpa)]
      exact ih hne.2
    next hgt =>
      rw [takeWhile_cons_of_neg (by simpa using hgt), dropWhile_cons_of_neg (by simpa using hgt)]
      exact ⟨rfl, rfl⟩

theorem lt_of_mem_dropWhile {k : Nat} {ps : List KVPair} (hsorted : (ps.map key).Pairwise (· ≤ ·))
    {p : KVPair} (hp : p ∈ ps.dropWhile (·.key ≤ k)) : k < p.key := by
  induction ps with
  | nil => cases hp
  | cons q ps ih =>
    obtain ⟨hq, hrest⟩ := pairwise_cons.mp hsorted
    by_cases hle : q.key ≤ k
    · rw [dropWhile_cons_of_pos (by simpa using hle)] at hp
      exact ih hrest hp
    · rw [dropWhile_cons_of_neg (by simpa using hle)] at hp
      obtain rfl | hp := mem_cons.mp hp
      · omega
      · have := hq _ (mem_map_of_mem hp)
        omega

theorem mergeStored_panics {keys stored : List Nat} {m : Merge} (h : stored.length < keys.length) :
    mergeStored keys stored m = .error .indexOutOfRange := by
  induction keys generalizing stored m with
  | nil => exact absurd h (by simp)
  | cons k keys ih =>
    cases stored with
    | nil => rfl
    | cons v stored =>
      exact ih (by simpa using h)

/-- With a value for each stored key, the loop over the stored keys appends
keys in order, and what it leaves pending comes after them. -/
theorem mergeStored_ok {keys stored : List Nat} {m : Merge}
    (hlen : keys.length ≤ stored.length) (hkeys : keys.Pairwise (· ≤ ·))
    (hpending : (m.pending.map key).Pairwise (· ≤ ·)) (hdisj : ∀ k ∈ keys, k ∉ m.pending.map key) :
    ∃ m' taken, mergeStored keys stored m = .ok m' ∧
      m'.mergedSet = taken.foldl appendUnchecked m.mergedSet ∧
      (taken ++ m'.pending.map key).Perm (keys ++ m.pending.map key) ∧
      (taken ++ m'.pending.map key).Pairwise (· ≤ ·) := by
  induction keys generalizing stored m with
  | nil => exact ⟨m, [], rfl, rfl, by simp, by simpa using hpending⟩
  | cons k keys ih =>
    cases stored with
    | nil => exact absurd hlen (by simp)
    | cons v stored =>
      obtain ⟨hk, hrest⟩ := pairwise_cons.mp hkeys
      obtain ⟨hset, hleft⟩ := takePending_eq (m := m) (hdisj k (mem_cons_self ..))
      let before := m.pending.takeWhile (·.key ≤ k)
      let after := m.pending.dropWhile (·.key ≤ k)
      let next := (takePending k m.pending m).push k v
      have hnext : next.pending = after := hleft
      have hsplit : before ++ after = m.pending := takeWhile_append_dropWhile
      have hle : ∀ x ∈ before.map key, x ≤ k := by
        intro x hx
        obtain ⟨p, hp, rfl⟩ := mem_map.mp hx
        simpa using mem_takeWhile_imp hp
      have hge : ∀ x ∈ after.map key, k ≤ x := by
        intro x hx
        obtain ⟨p, hp, rfl⟩ := mem_map.mp hx
        exact le_of_lt (lt_of_mem_dropWhile hpending hp)
      rw [← hsplit, map_append] at hpending
      obtain ⟨hbefore, hafter, -⟩ := pairwise_append.mp hpending
      rw [← hnext] at hafter
      have hapart : ∀ x ∈ keys, x ∉ next.pending.map key := by
        intro x hx hmem
        refine hdisj x (mem_cons_of_mem _ hx) ?_
        rw [hnext] at hmem
        rw [← hsplit, map_append]
        exact mem_append_right _ hmem
      obtain ⟨m', taken, hm, hmset, hperm, hsorted⟩ :=
        @ih stored next (by simpa using hlen) hrest hafter hapart
      rw [hnext] at hperm
      refine ⟨m', before.map key ++ k :: taken, hm, ?_, ?_, ?_⟩
      · rw [hmset, foldl_append, foldl_cons]
        show List.foldl _ ((takePending k m.pending m).mergedSet
          |>.appendUnchecked k) taken = _
        rw [hset]
      · rw [← hsplit, map_append, append_assoc]
        refine (Perm.append_left _ (hperm.cons k)).trans ?_
        rw [← cons_append, ← append_assoc, ← append_assoc]
        exact perm_append_comm.append_right _
      · rw [append_assoc]
        have hmem : ∀ x ∈ taken ++ m'.pending.map key, k ≤ x := by
          intro x hx
          obtain hx | hx := mem_append.mp (hperm.mem_iff.mp hx)
          · exact hk x hx
          · exact hge x hx
        refine pairwise_append.mpr ⟨hbefore, pairwise_cons.mpr ⟨hmem, hsorted⟩, fun x hx y hy => ?_⟩
        obtain rfl | hy := mem_cons.mp hy
        · exact hle x hx
        · exact le_trans (hle x hx) (hmem y hy)

theorem foldl_push_mergedSet (ps : List KVPair) (m : Merge) :
    (ps.foldl (fun m p => m.push p.key p.value) m).mergedSet =
      (ps.map key).foldl appendUnchecked m.mergedSet := by
  induction ps generalizing m with
  | nil => rfl
  | cons p ps ih => exact ih _

/-! ## Compaction -/

/-- The pending pairs as a compaction orders them. -/
def ordered (pending : List KVPair) : List KVPair :=
  pending.insertionSort (fun p q => p.key ≤ q.key)

theorem ordered_perm (pending : List KVPair) : (ordered pending).Perm pending :=
  perm_insertionSort ..

theorem ordered_sorted (pending : List KVPair) : ((ordered pending).map key).Pairwise (· ≤ ·) := by
  have : IsTrans KVPair (fun p q => p.key ≤ q.key) := ⟨fun _ _ _ => le_trans⟩
  exact pairwise_map.mpr (pairwise_insertionSort _ pending)

variable {pending : List KVPair} {values ks : List Nat} {keys : EFSet}

variable {width : Nat → Nat → Nat}

/-- The widths chosen for up to `n` keys fit. -/
def Room (width : Nat → Nat → Nat) (n : Nat) : Prop := ∀ universeMax < 2 ^ 64, ∀ k ≤ n,
    Fits (width universeMax k) universeMax k

/-- A compaction is of the ordered pairs, of which the first and the last bound
the keys. -/
theorem compact_eq (width : Nat → Nat → Nat) (hne : pending ≠ []) : ∃ first last,
    (∀ values, (mk none values pending).compact width =
      .ok { pack width ⟨none, values, pending⟩ first last (ordered pending) with pending := [] }) ∧
    (∀ keys values, (mk (some keys) values pending).compact width =
      merge width ⟨some keys, values, pending⟩ keys first last (ordered pending) >>=
        fun t => .ok { t with pending := [] }) ∧
    last ∈ pending ∧ ∀ k ∈ (ordered pending).map key, first.key ≤ k ∧ k ≤ last.key := by
  have hord : ordered pending ≠ [] := fun h =>
    hne (Perm.nil_eq (h ▸ ordered_perm pending)).symm
  have hsorted := pairwise_iff_getElem.mp (ordered_sorted pending)
  simp only [length_map, getElem_map] at hsorted
  have hpos := length_pos_iff.mpr hord
  refine ⟨(ordered pending).head hord, (ordered pending).getLast hord, fun values => ?_,
    fun keys values => ?_, (ordered_perm pending).mem_iff.mp (getLast_mem hord), ?_⟩
  · simp only [compact, ← ordered.eq_1, List.head?_eq_some_head hord,
      List.getLast?_eq_some_getLast hord]
  · simp only [compact, ← ordered.eq_1, List.head?_eq_some_head hord,
      List.getLast?_eq_some_getLast hord]
    rfl
  intro k hk
  obtain ⟨p, hp, rfl⟩ := mem_map.mp hk
  obtain ⟨i, hi, rfl⟩ := getElem_of_mem hp
  rw [head_eq_getElem, getLast_eq_getElem]
  constructor
  · obtain rfl | hlt := Nat.eq_zero_or_pos i
    · exact le_refl _
    · exact hsorted 0 i hpos hi hlt
  · obtain heq | hlt := eq_or_lt_of_le (le_sub_one_of_lt hi)
    · simp [heq]
    · exact hsorted i _ hi (by omega) hlt

theorem compact_nil {b : PackedBucket} (h : b.pending = []) : b.compact width = .ok b := by
  simp [compact, h]

/-- A compaction leaves nothing pending. -/
theorem compact_pending {b b' : PackedBucket} (h : b.compact width = .ok b') : b'.pending = [] := by
  obtain ⟨keys, values, pending⟩ := b
  by_cases hne : pending = []
  · rw [compact_nil hne] at h
    cases h
    exact hne
  · obtain ⟨first, last, hpack, hmerge, -⟩ := compact_eq width hne
    cases keys with
    | none =>
      rw [hpack] at h
      cases h
      rfl
    | some keys =>
      rw [hmerge] at h
      obtain ⟨t, -, h⟩ := bind_eq_ok h
      cases h
      rfl

/-- The first compaction packs keys and values side by side. -/
theorem compact_pack (hne : pending ≠ []) (hroom : Room width pending.length)
    (hword : ∀ p ∈ pending, p.key < 2 ^ 64) :
    ∃ keys, (mk none values pending).compact width =
        .ok ⟨some keys, (ordered pending).map value, []⟩ ∧
      Encodes keys ((ordered pending).map key) := by
  obtain ⟨first, last, hpack, -, hmem, hbounds⟩ := compact_eq width hne
  have hlen := (ordered_perm pending).length_eq
  refine ⟨((ordered pending).map key).foldl appendUnchecked
    (EFSet.new (width last.key (ordered pending).length) first.key last.key), ?_, ?_⟩
  · rw [hpack, foldl_map]
    rfl
  · refine encodes_foldl_new (n := pending.length) ?_
      (by simp [hlen]) hbounds (ordered_sorted pending)
    rw [hlen]
    exact hroom _ (hword last hmem) _ (le_refl _)

/-- A later compaction has all keys in its set, and the values as before. -/
theorem compact_merge (hne : pending ≠ []) (hkeys : Encodes keys ks)
    (hlen : ks.length ≤ values.length) (hroom : Room width (ks.length + pending.length))
    (hword : ∀ p ∈ pending, p.key < 2 ^ 64) (hdisj : ∀ k ∈ ks, k ∉ pending.map key) :
    ∃ keys' ks', (mk (some keys) values pending).compact width =
        .ok ⟨some keys', values, []⟩ ∧ Encodes keys' ks' ∧ ks'.Perm (ks ++ pending.map key) := by
  obtain ⟨first, last, -, hcompact, hmem, hbounds⟩ := compact_eq width hne
  have hperm := (ordered_perm pending).map key
  have hcount := (hroom 0 (by omega) _ (le_refl _)).count_lt
  have hmax : wrap (keys.len + (ordered pending).length) = ks.length + pending.length := by
    rw [hkeys.len, (ordered_perm pending).length_eq]
    exact wrap_of_lt (by omega)
  let newMax := max keys.universeMax last.key
  let set := EFSet.new (width newMax (ks.length + pending.length))
    (min keys.universeMin first.key) newMax
  obtain ⟨m, taken, hm, hmset, hmperm, hmsorted⟩ :=
    mergeStored_ok (m := ⟨set, [], ordered pending⟩) hlen hkeys.sorted
      (ordered_sorted pending) (fun k hk h => hdisj k hk (hperm.mem_iff.mp h))
  refine ⟨(taken ++ m.pending.map key).foldl appendUnchecked set,
    taken ++ m.pending.map key, ?_, ?_, hmperm.trans (hperm.append_left _)⟩
  · have hmerge : merge width ⟨some keys, values, pending⟩ keys first last (ordered pending) =
        .ok ⟨some ((taken ++ m.pending.map key).foldl appendUnchecked set), values, pending⟩ := by
      rw [merge, hkeys.iterate, hmax, hm, foldl_append, ← hmset, ← foldl_push_mergedSet]
      rfl
    rw [hcompact, hmerge]
    rfl
  · refine encodes_foldl_new (n := ks.length + pending.length)
      (hroom _ ?_ _ (le_refl _)) ?_ ?_ hmsorted
    · have := hkeys.fits.range
      have := hword last hmem
      omega
    · rw [hmperm.length_eq, length_append, hperm.length_eq, length_map]
    · intro k hk
      obtain hk | hk := mem_append.mp (hmperm.mem_iff.mp hk)
      · have := hkeys.mem_universe k hk
        omega
      · have := hbounds k hk
        omega

/-- With fewer values than keys, the merge panics. -/
theorem compact_panics (hne : pending ≠ []) (hkeys : Encodes keys ks)
    (hlen : values.length < ks.length) :
    (mk (some keys) values pending).compact width = .error .indexOutOfRange := by
  obtain ⟨first, last, -, hcompact, -⟩ := compact_eq width hne
  rw [hcompact, merge, hkeys.iterate, mergeStored_panics hlen]
  rfl

/-! ## What a bucket answers -/

/-- A `Find` of the bucket returns these. -/
def Finds (b : PackedBucket) (key value : Nat) (found : Bool) : Prop :=
  ∃ fuel, b.find key fuel = some (.ok (value, found))

/-- In a packed bucket, a key has the value it came with. -/
theorem finds_of_mem {pairs : List KVPair} (hkeys : Encodes keys (pairs.map key))
    (hnodup : (pairs.map key).Nodup) {p : KVPair} (hp : p ∈ pairs) :
    (mk (some keys) (pairs.map value) pending).Finds p.key p.value true := by
  obtain ⟨i, hi, rfl⟩ := getElem_of_mem hp
  obtain ⟨fuel, r, hr, hfound, hindex⟩ := hkeys.find_getElem hnodup (i := i) (by simpa using hi)
  rw [getElem_map] at hr
  refine ⟨fuel, ?_⟩
  simp [find, hr, hfound, hindex, hi]

/-- In a packed bucket, a key that is not there and not below the others is
absent. -/
theorem finds_of_not_mem (hkeys : Encodes keys ks) {k key : Nat} (hk : k ∈ ks)
    (hle : k ≤ key) (hkey : key ∉ ks) : (mk (some keys) values pending).Finds key 0 false := by
  obtain ⟨first, hfirst, hfirstle⟩ := hkeys.head_le hk
  obtain ⟨fuel, r, hr, hright⟩ := hkeys.finds_right_of_le ⟨first, hfirst, le_trans hfirstle hle⟩
  refine ⟨fuel, ?_⟩
  simp [find, hr, (hright.absent hkey).2]

/-- With fewer values than keys, some key is not answered. -/
theorem exists_not_finds (hkeys : Encodes keys ks) (hnodup : ks.Nodup)
    (hlen : values.length < ks.length) : ∃ k ∈ ks, ∀ value found,
      ¬ (mk (some keys) values pending).Finds k value found := by
  have hi : ks.length - 1 < ks.length := by omega
  obtain ⟨fuel, r, hr, hfound, hindex⟩ := hkeys.find_getElem hnodup hi
  refine ⟨ks[ks.length - 1], getElem_mem hi, ?_⟩
  intro value found ⟨fuel', hfind⟩
  obtain ⟨r', hr', hres⟩ := map_eq_some_iff.mp hfind
  obtain rfl := find_unique hr hr'
  have hout : values[r.index]? = none := List.getElem?_eq_none (by omega)
  rw [if_pos hfound, hout] at hres
  cases hres

end PackedBucket

end Dawgs.Ref

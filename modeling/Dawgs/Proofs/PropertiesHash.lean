import Dawgs.Lib.Concatenation
import Dawgs.Ref.PropertiesHash

/-!
# What the hash of a property bag tells apart

A key and its value are written with nothing between them, and so are a
value and the next key. That a rendering tells values apart is not enough
then: what is a value in one bag may be the end of a key in another, or a
value, a key and a value.

For which keys is it enough? Not for many, if nothing else is known of the
rendering. One of the bags has to be empty, or both have the same single
key, or the first keys are such that none of them begins the other. In all
other cases there are values that make the texts equal, under a rendering
of words by themselves.
-/

namespace Dawgs.Ref

open Lib PropertyMap Table List

variable {V ε : Type} {render : V → String} {s : PropertyMap V} {marshal : V → Except ε String}
  {k a : String}

/-- A rendering of values: it never fails, tells values apart, and writes
something. -/
structure Renders (marshal : V → Except ε String) (render : V → String) : Prop where
  total : ∀ v, marshal v = .ok (render v)
  injective : Function.Injective render
  nonempty : ∀ v, render v ≠ ""

/-- A bag without the keys that are ignored. -/
def PropertyMap.without (s : PropertyMap V) (ignoredKeys : Finset String) :
    PropertyMap V := s.rewrite fun k v => if k ∈ ignoredKeys then none else some v

/-- The text of the bags with these keys is the same exactly for the same
bags, up to keys that are ignored, under every rendering. -/
def HashTellsApart (keys₁ keys₂ : Finset String) : Prop :=
  ∀ (V ε : Type) (marshal : V → Except ε String) (render : V → String), Renders marshal render →
    ∀ (s₁ s₂ : PropertyMap V) (ignored₁ ignored₂ : Finset String),
      s₁.keys \ ignored₁ = keys₁ → s₂.keys \ ignored₂ = keys₂ →
      ((hashInto marshal "" s₁ ignored₁).1 = (hashInto marshal "" s₂ ignored₂).1 ↔
        s₁.without ignored₁ = s₂.without ignored₂)

theorem HashTellsApart.symm {keys₁ keys₂ : Finset String}
    (h : HashTellsApart keys₁ keys₂) : HashTellsApart keys₂ keys₁ := by
  intro V ε marshal render hrender s₁ s₂ ignored₁ ignored₂ h₁ h₂
  rw [eq_comm, h V ε marshal render hrender s₂ s₁ ignored₂ ignored₁ h₂ h₁]
  exact eq_comm

/-! ## The text -/

theorem PropertyMap.row_without (s : PropertyMap V)
    (ignoredKeys : Finset String) (k : String) : (s.without ignoredKeys).row k =
      if k ∈ ignoredKeys then none else s.row k := by
  rw [without, row_rewrite]
  cases s.row k <;> by_cases hk : k ∈ ignoredKeys <;> simp [hk]

theorem PropertyMap.keys_without (s : PropertyMap V) (ignoredKeys : Finset String) :
    (s.without ignoredKeys).keys = s.keys \ ignoredKeys := by
  ext k
  rw [Table.mem_keys, row_without, Finset.mem_sdiff, Table.mem_keys]
  by_cases hk : k ∈ ignoredKeys <;> simp [hk]

theorem PropertyMap.row_eq_none (h : k ∉ s.keys) : s.row k = none := by
  rwa [Table.mem_keys, Option.not_isSome_iff_eq_none] at h

/-- The text of a value. -/
def PropertyMap.valueText (render : V → String) (s : PropertyMap V)
    (name : List Char) : List Char :=
  ((s.row (String.ofList name)).map fun v => (render v).toList).getD []

theorem PropertyMap.valueText_eq {v : V} (h : s.row k = some v) :
    s.valueText render k.toList = (render v).toList := by
  rw [valueText, String.ofList_toList, h]
  rfl

section

variable (hrender : Renders marshal render)

include hrender

theorem hashEntries_toList {keys : List String} (hkeys : ∀ k ∈ keys, k ∈ s.keys) (h : String) :
    (hashEntries marshal s keys h).1.toList =
      h.toList ++ entryText (keys.map String.toList) (s.valueText render) := by
  induction keys generalizing h with
  | nil => simp [hashEntries, entryText]
  | cons k keys ih =>
    obtain ⟨hk, hkeys⟩ := forall_mem_cons.mp hkeys
    rw [Table.mem_keys] at hk
    obtain ⟨v, hv⟩ := Option.isSome_iff_exists.mp hk
    have hwrite : writeKeyValueToHash marshal h k v = (h ++ k ++ render v, none) := by
      rw [writeKeyValueToHash, hrender.total]
    simp only [hashEntries, hv, hwrite]
    rw [ih hkeys, map_cons, entryText_cons, valueText_eq hv]
    simp [append_assoc]

/-- What is written is the text of the bag without the ignored keys. -/
theorem hashInto_toList (s : PropertyMap V) (ignoredKeys : Finset String) :
    (hashInto marshal "" s ignoredKeys).1.toList =
      entryText ((s.without ignoredKeys).keys.sort.map String.toList)
        ((s.without ignoredKeys).valueText render) := by
  have hmem : ∀ k ∈ s.sortedKeys ignoredKeys, k ∈ s.keys := by
    intro k hk
    rw [sortedKeys, Finset.mem_sort, Finset.mem_sdiff] at hk
    exact hk.1
  rw [hashInto, hashEntries_toList hrender hmem, keys_without]
  refine entryText_congr fun n hn => ?_
  obtain ⟨k, hk, rfl⟩ := mem_map.mp hn
  rw [sortedKeys, Finset.mem_sort, Finset.mem_sdiff] at hk
  rw [valueText, valueText, String.ofList_toList, row_without, if_neg hk.2]

end

/-- The first of the sorted keys is the least. -/
theorem exists_sort_eq_cons {keys : Finset String}
    (ha : IsLeast (keys : Set String) a) : ∃ rest, keys.sort = a :: rest := by
  have hmem : ∀ {k}, k ∈ keys.sort ↔ k ∈ keys := Finset.mem_sort _
  have hpairwise := keys.pairwise_sort (· ≤ ·)
  have hin := hmem.mpr (Finset.mem_coe.mp ha.1)
  cases hsort : keys.sort with
  | nil =>
    rw [hsort] at hin
    cases hin
  | cons b rest =>
    have hb : b ∈ keys := hmem.mp (hsort ▸ mem_cons_self)
    rw [hsort] at hin hpairwise
    rcases mem_cons.mp hin with rfl | hin
    · exact ⟨rest, rfl⟩
    · rw [le_antisymm ((pairwise_cons.mp hpairwise).1 a hin) (ha.2 (Finset.mem_coe.mpr hb))]
      exact ⟨rest, rfl⟩

theorem map_toList_sort_nodup (keys : Finset String) : (keys.sort.map String.toList).Nodup :=
  (keys.sort_nodup (· ≤ ·)).map fun _ _ => String.toList_inj.mp

/-! ## Keys for which the text is enough -/

section

variable (hrender : Renders marshal render) {s₁ s₂ : PropertyMap V}

include hrender

theorem eq_of_text_eq_of_empty (h₁ : s₁.keys = ∅)
    (h : entryText (s₁.keys.sort.map String.toList) (s₁.valueText render) =
      entryText (s₂.keys.sort.map String.toList) (s₂.valueText render)) : s₁ = s₂ := by
  have h₂ : s₂.keys = ∅ := by
    by_contra hne
    obtain ⟨rest, heq⟩ :=
      exists_sort_eq_cons (s₂.keys.isLeast_min' (Finset.nonempty_iff_ne_empty.mpr hne))
    rw [h₁, Finset.sort_empty] at h
    refine entryText_ne_nil (by simp [heq]) ?_ h.symm
    rw [forall_mem_map]
    intro k hk
    rw [Finset.mem_sort, Table.mem_keys] at hk
    obtain ⟨v, hv⟩ := Option.isSome_iff_exists.mp hk
    rw [valueText_eq hv, ne_eq, String.toList_eq_nil_iff]
    exact hrender.nonempty v
  refine ext_row fun k => ?_
  rw [row_eq_none (by simp [h₁]), row_eq_none (by simp [h₂])]

theorem eq_of_text_eq_of_single (h₁ : s₁.keys = {k}) (h₂ : s₂.keys = {k})
    (h : entryText (s₁.keys.sort.map String.toList) (s₁.valueText render) =
      entryText (s₂.keys.sort.map String.toList) (s₂.valueText render)) : s₁ = s₂ := by
  have hrow : ∀ {t : PropertyMap V}, t.keys = {k} → ∃ v, t.row k = some v := by
    intro t ht
    have hk : k ∈ t.keys := by simp [ht]
    rw [Table.mem_keys] at hk
    exact Option.isSome_iff_exists.mp hk
  obtain ⟨v₁, hv₁⟩ := hrow h₁
  obtain ⟨v₂, hv₂⟩ := hrow h₂
  rw [h₁, h₂, Finset.sort_singleton, map_singleton, entryText_cons,
    entryText_cons, valueText_eq hv₁, valueText_eq hv₂] at h
  have hv : v₁ = v₂ := by
    refine hrender.injective (String.toList_inj.mp ?_)
    simpa [entryText] using h
  refine ext_row fun l => ?_
  by_cases hl : l = k
  · rw [hl, hv₁, hv₂, hv]
  · rw [row_eq_none (by simp [h₁, hl]), row_eq_none (by simp [h₂, hl])]

end

theorem text_ne_of_first {s₁ s₂ : PropertyMap V} {b : String}
    (ha : IsLeast (s₁.keys : Set String) a) (hb : IsLeast (s₂.keys : Set String) b)
    (hab : ¬ a.toList <+: b.toList) (hba : ¬ b.toList <+: a.toList) :
    entryText (s₁.keys.sort.map String.toList) (s₁.valueText render) ≠
      entryText (s₂.keys.sort.map String.toList) (s₂.valueText render) := by
  obtain ⟨A, hA⟩ := exists_sort_eq_cons ha
  obtain ⟨B, hB⟩ := exists_sort_eq_cons hb
  rw [hA, hB]
  intro h
  exact (prefix_of_entryText_eq h).elim hab hba

/-! ## Keys for which it is not -/

/-- Words as values, rendered by themselves. -/
abbrev Word := { t : String // t ≠ "" }

def renderWord (w : Word) : Except Unit String := .ok w.1

theorem renders_word : Renders renderWord (Subtype.val : Word → String) :=
  ⟨fun _ => rfl, Subtype.val_injective, fun w => w.2⟩

section

variable (keys : Finset String) (f : List Char → List Char) (hf : ∀ n, f n ≠ [])

/-- A bag of words under some keys. -/
def wordMap
    : PropertyMap Word where
  keys := keys
  row k :=
    if k ∈ keys then
      some ⟨String.ofList (f k.toList), fun h => hf k.toList (by simpa using h)⟩
    else none
  mem_keys k := by by_cases hk : k ∈ keys <;> simp [hk]

theorem text_wordMap :
    entryText (keys.sort.map String.toList) ((wordMap keys f hf).valueText Subtype.val) =
      entryText (keys.sort.map String.toList) f := by
  refine entryText_congr ?_
  rw [forall_mem_map]
  intro k hk
  rw [Finset.mem_sort] at hk
  rw [valueText_eq (if_pos hk), String.toList_ofList]

end

theorem without_empty (s : PropertyMap V) : s.without ∅ = s :=
  ext_row fun k => by rw [row_without, if_neg (by simp)]

theorem not_tellsApart {keys₁ keys₂ : Finset String} {b : String}
    (ha : IsLeast (keys₁ : Set String) a)
    (hb : IsLeast (keys₂ : Set String) b) (hab : a.toList <+: b.toList)
    (hone : ∀ k, keys₁ = {k} → keys₂ ≠ {k}) : ¬ HashTellsApart keys₁ keys₂ := by
  intro h
  obtain ⟨A, hA⟩ := exists_sort_eq_cons ha
  obtain ⟨B, hB⟩ := exists_sort_eq_cons hb
  have hnodup₁ := map_toList_sort_nodup keys₁
  have hnodup₂ := map_toList_sort_nodup keys₂
  rw [hA] at hnodup₁
  rw [hB] at hnodup₂
  have hsingle : ∀ {keys : Finset String} {k : String} {rest : List String},
      keys.sort = k :: rest → rest = [] → keys = {k} := by
    rintro keys k _ hsort rfl
    rw [← keys.sort_toFinset (· ≤ ·), hsort]
    rfl
  have hlist : a.toList = b.toList → A.map String.toList =
      B.map String.toList → A.map String.toList ≠ [] := by
    intro heq hmap hnil
    rw [hnil, eq_comm, map_eq_nil_iff] at hmap
    rw [map_eq_nil_iff] at hnil
    refine hone a (hsingle hA hnil) ?_
    rw [String.toList_inj.mp heq]
    exact hsingle hB hmap
  obtain ⟨f, g, hf, hg, htext, hdiffer⟩ := exists_entryText_eq hab hnodup₁ hnodup₂ hlist
  have hsame := (h Word Unit renderWord Subtype.val renders_word
    (wordMap keys₁ f hf) (wordMap keys₂ g hg) ∅ ∅ (by simp [wordMap]) (by simp [wordMap])).mp ?_
  · rw [without_empty, without_empty] at hsame
    have hkeys : keys₁ = keys₂ := congrArg Table.keys hsame
    have hsort : a :: A = b :: B := by rw [← hA, ← hB, hkeys]
    obtain ⟨rfl, rfl⟩ := cons.inj hsort
    refine hdiffer rfl rfl ?_
    have hrow : (wordMap keys₁ f hf).row a = (wordMap keys₂ g hg).row a := by
      rw [hsame]
    have hmem₁ : a ∈ keys₁ := Finset.mem_coe.mp ha.1
    have hmem₂ : a ∈ keys₂ := Finset.mem_coe.mp hb.1
    rw [wordMap, wordMap] at hrow
    simp only [hmem₁, hmem₂, if_true, Option.some.injEq, Subtype.mk.injEq] at hrow
    simpa using congrArg String.toList hrow
  · refine String.toList_inj.mp ?_
    rw [hashInto_toList renders_word, hashInto_toList renders_word, without_empty, without_empty]
    show entryText (keys₁.sort.map String.toList) _ = entryText (keys₂.sort.map String.toList) _
    rw [text_wordMap, text_wordMap, hA, hB]
    exact htext

/-- The text is enough, whatever the rendering, exactly for these keys. -/
theorem hashTellsApart_iff (keys₁ keys₂ : Finset String) :
    HashTellsApart keys₁ keys₂ ↔ keys₁ = ∅ ∨ keys₂ = ∅ ∨ (∃ k, keys₁ = {k} ∧ keys₂ = {k}) ∨
        ∃ a b, IsLeast (keys₁ : Set String) a ∧ IsLeast (keys₂ : Set String) b ∧
          ¬ a.toList <+: b.toList ∧ ¬ b.toList <+: a.toList := by
  constructor
  · intro h
    by_contra hnot
    push Not at hnot
    obtain ⟨hne₁, hne₂, hone, hfirst⟩ := hnot
    have ha := keys₁.isLeast_min' hne₁
    have hb := keys₂.isLeast_min' hne₂
    by_cases hab : (keys₁.min' hne₁).toList <+: (keys₂.min' hne₂).toList
    · exact not_tellsApart ha hb hab hone h
    · exact not_tellsApart hb ha (hfirst _ _ ha hb hab) (fun k h₂ h₁ => hone k h₁ h₂) h.symm
  · intro h V ε marshal render hrender s₁ s₂ ignored₁ ignored₂ h₁ h₂
    rw [← keys_without] at h₁ h₂
    rw [← String.toList_inj, hashInto_toList hrender, hashInto_toList hrender]
    refine ⟨fun htext => ?_, fun heq => by rw [heq]⟩
    rcases h with h | h | ⟨k, hk₁, hk₂⟩ | ⟨a, b, ha, hb, hab, hba⟩
    · exact eq_of_text_eq_of_empty hrender (h₁.trans h) htext
    · exact (eq_of_text_eq_of_empty hrender (h₂.trans h) htext.symm).symm
    · exact eq_of_text_eq_of_single hrender (h₁.trans hk₁) (h₂.trans hk₂) htext
    · rw [← h₁] at ha
      rw [← h₂] at hb
      exact absurd htext (text_ne_of_first ha hb hab hba)

/-- The text of a one-digit number. -/
def marshalDigit (n : Fin 10) : Except Unit String := .ok (toString n.1)

/-- A bag with one property, and one with two. -/
def bag₁ (k : String) (n : Fin 10) : PropertyMap (Fin 10) := empty.insert k n

def bag₂ (k : String) (n : Fin 10) (l : String) (m : Fin 10) :
    PropertyMap (Fin 10) := (bag₁ k n).insert l m

/-- The bags `a: 1, b: 2` and `a1b: 2` are both written `a1b2`. -/
theorem hashInto_collision :
    Renders marshalDigit (fun n => toString n.1) ∧
      (hashInto marshalDigit "" (bag₂ "a" 1 "b" 2) ∅).1 =
        (hashInto marshalDigit "" (bag₁ "a1b" 2) ∅).1 ∧
      (bag₂ "a" 1 "b" 2).without ∅ ≠ (bag₁ "a1b" 2).without ∅ := by
  have hsorted : ∀ {s : PropertyMap (Fin 10)} {names : List String},
      names.Nodup → names.Pairwise (· ≤ ·) → s.keys \ ∅ = names.toFinset →
      s.sortedKeys ∅ = names := by
    intro s names hnodup hpairwise hkeys
    rw [sortedKeys, hkeys]
    exact (toFinset_sort (· ≤ ·) hnodup).mpr hpairwise
  have h₂ : (bag₂ "a" 1 "b" 2).sortedKeys ∅ = ["a", "b"] :=
    hsorted (by decide) (by decide +kernel) (by decide +kernel)
  have h₁ : (bag₁ "a1b" 2).sortedKeys ∅ = ["a1b"] :=
    hsorted (by decide) (by decide) (by decide +kernel)
  refine ⟨⟨fun _ => rfl, by decide +kernel, by decide +kernel⟩, ?_, fun h => ?_⟩
  · rw [hashInto, h₂]
    decide +kernel
  · have hkeys := congrArg (fun t => t.row "a") h
    revert hkeys
    decide +kernel

end Dawgs.Ref

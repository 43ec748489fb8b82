import Mathlib

/-!
# Fields written one after the other

A record has a value for each of its fields, and its text is the values
one after the other, with nothing between them. When does the text tell
records apart? It does for one field, which may be written any number of
times. It does not for two, since a letter may move from one value into the
other.

If a word is written in front of the fields, two different words do not
make two records different either, once one of them begins with the other
and there is a field to make up for the difference.

The fields may also be written with their names, each name before its
value, and still nothing between them (`entryText`). It does not help: as
soon as the first name of one record begins the first name of another, a
value may hold what looks like the rest of the other record.
-/

namespace Dawgs.Lib

open List Function

variable {N C : Type} {names : List (List C)}

/-- A field that is written alone, any number of times, is read back. -/
theorem eq_of_flatMap_eq {T : List N} {x y : List C} (hT : T ≠ [])
    (h : (T.flatMap fun _ => x) = T.flatMap fun _ => y) : x = y := by
  have hlen : ∀ z : List C, (T.flatMap fun _ => z).length = T.length * z.length := by
    simp [length_flatMap]
  have hpos := length_pos_iff.mpr hT
  have hxy : x.length = y.length := by
    have hmul := congrArg List.length h
    rw [hlen, hlen] at hmul
    exact Nat.eq_of_mul_eq_mul_left hpos hmul
  obtain ⟨t, T, rfl⟩ := exists_cons_of_ne_nil hT
  exact (append_inj h hxy).1

section

variable [DecidableEq N]

/-- One field with letters, all others empty. -/
theorem flatMap_single (T : List N) (a : N) (c : C) (m : Nat) :
    (T.flatMap fun t => if t = a then List.replicate m c else []) =
      List.replicate (T.count a * m) c := by
  induction T with
  | nil => simp
  | cons t T ih =>
    rw [flatMap_cons, ih]
    by_cases h : t = a
    · rw [if_pos h, h, count_cons_self, replicate_append_replicate]
      rw [Nat.succ_mul, Nat.add_comm]
    · rw [if_neg h, count_cons_of_ne h, nil_append]

/-- A word for one field, all others empty. -/
theorem flatMap_word {T : List N} (hT : T.Nodup) {a : N} (ha : a ∈ T)
    (w : List C) : (T.flatMap fun t => if t = a then w else []) = w := by
  induction T with
  | nil => cases ha
  | cons t T ih =>
    obtain ⟨ht, hT⟩ := nodup_cons.mp hT
    rw [flatMap_cons]
    by_cases h : t = a
    · have hnil : (T.flatMap fun t => if t = a then w else []) = [] := by
        rw [flatMap_eq_nil_iff]
        intro s hs
        have hsa : s ≠ a := fun heq => ht (h ▸ heq ▸ hs)
        rw [if_neg hsa]
      rw [if_pos h, hnil, append_nil]
    · rw [if_neg h]
      exact ih hT (mem_of_ne_of_mem (Ne.symm h) ha)

end

theorem flatMap_empty (T : List N) : (T.flatMap fun _ => ([] : List C)) = [] := by
  rw [flatMap_eq_nil_iff]
  exact fun _ _ => rfl

/-- The texts of two kinds of records are the same exactly for the same
records, if and only if there is one field, written equally often. -/
theorem flatMap_identifies_iff [Nonempty C] (T₁ T₂ : List N) :
    (∀ f g : N → List C, T₁.flatMap f = T₂.flatMap g ↔
        (∀ t, t ∈ T₁ ↔ t ∈ T₂) ∧ ∀ t ∈ T₁, f t = g t) ↔ T₁ = T₂ ∧ ∀ a ∈ T₁, ∀ b ∈ T₁, a = b := by
  classical
  constructor
  · intro h
    obtain ⟨c⟩ := ‹Nonempty C›
    have hmem : ∀ t, t ∈ T₁ ↔ t ∈ T₂ := by
      have hempty := (h (fun _ => []) (fun _ => [])).mp (by rw [flatMap_empty, flatMap_empty])
      exact hempty.1
    have hone : ∀ a ∈ T₁, ∀ b ∈ T₁, a = b := by
      intro a ha b hb
      by_contra hne
      -- enough letters to make up for how often the two are written
      have hcollide := (h (fun t => if t = a then List.replicate (T₂.count b) c else [])
        (fun t => if t = b then List.replicate (T₁.count a) c else [])).mp
        (by rw [flatMap_single, flatMap_single, Nat.mul_comm])
      have hval := hcollide.2 a ha
      rw [if_pos rfl, if_neg hne, replicate_eq_nil_iff] at hval
      exact absurd ((hmem b).mp hb) (count_eq_zero.mp hval)
    refine ⟨?_, hone⟩
    have hlen := (h (fun _ => [c]) (fun _ => [c])).mpr ⟨hmem, fun _ _ => rfl⟩
    have hlen : T₁.length = T₂.length := by
      simpa [length_flatMap] using congrArg List.length hlen
    cases T₁ with
    | nil => exact (length_eq_zero_iff.mp hlen.symm).symm
    | cons a T₁ =>
      have h₁ := eq_replicate_of_mem fun b hb => hone b hb a (mem_cons_self ..)
      have h₂ := eq_replicate_of_mem fun b hb => hone b ((hmem b).mpr hb) a (mem_cons_self ..)
      rw [h₁, h₂, hlen]
  · intro ⟨heq, hone⟩ f g
    subst heq
    refine ⟨fun heq => ⟨fun _ => Iff.rfl, fun t ht => ?_⟩, fun h => flatMap_congr h.2⟩
    have hconst : ∀ k : N → List C, T₁.flatMap k = T₁.flatMap fun _ => k t :=
      fun k => flatMap_congr fun s hs => by rw [hone s hs t ht]
    rw [hconst f, hconst g] at heq
    exact eq_of_flatMap_eq (ne_nil_of_mem ht) heq

/-- Two different words in front of the fields keep all records apart, if
and only if no field can make up for one word being the start of the
other. -/
theorem append_flatMap_ne_iff {T₁ T₂ : List N} (hT₁ : T₁.Nodup)
    (hT₂ : T₂.Nodup) {k₁ k₂ : List C} (hne : k₁ ≠ k₂) :
    (∀ f g : N → List C, k₁ ++ T₁.flatMap f ≠ k₂ ++ T₂.flatMap g) ↔
      (k₁ <+: k₂ → T₁ = []) ∧ (k₂ <+: k₁ → T₂ = []) := by
  classical
  constructor
  · intro h
    constructor
    · intro ⟨w, hw⟩
      by_contra hnil
      obtain ⟨a, ha⟩ := exists_mem_of_ne_nil _ hnil
      refine h (fun t => if t = a then w else []) (fun _ => []) ?_
      rw [flatMap_word hT₁ ha, flatMap_empty, append_nil, hw]
    · intro ⟨w, hw⟩
      by_contra hnil
      obtain ⟨a, ha⟩ := exists_mem_of_ne_nil _ hnil
      refine h (fun _ => []) (fun t => if t = a then w else []) ?_
      rw [flatMap_word hT₂ ha, flatMap_empty, append_nil, hw]
  · intro ⟨h₁, h₂⟩ f g heq
    have hcases := prefix_or_prefix_of_prefix (prefix_append k₁ (T₁.flatMap f))
      (heq ▸ prefix_append k₂ (T₂.flatMap g))
    obtain hpre | hpre := hcases
    · rw [h₁ hpre, flatMap_nil, append_nil] at heq
      have hpre' : k₂ <+: k₁ := heq ▸ prefix_append ..
      rw [h₂ hpre', flatMap_nil, append_nil] at heq
      exact hne heq
    · rw [h₂ hpre, flatMap_nil, append_nil] at heq
      have hpre' : k₁ <+: k₂ := heq ▸ prefix_append ..
      rw [h₁ hpre', flatMap_nil, append_nil] at heq
      exact hne heq

/-! ## Names and values -/

/-- Each name and its value, one after the other. -/
def entryText (names : List (List C)) (value : List C → List C) : List C :=
  names.flatMap fun n => n ++ value n

theorem entryText_cons (n : List C) (names : List (List C)) (value : List C → List C) :
    entryText (n :: names) value = n ++ (value n ++ entryText names value) := by
  rw [entryText, flatMap_cons, append_assoc]
  rfl

theorem entryText_congr {f g : List C → List C}
    (h : ∀ n ∈ names, f n = g n) : entryText names f = entryText names g :=
  flatMap_congr fun n hn => by rw [h n hn]

theorem entryText_ne_nil {value : List C → List C}
    (hne : names ≠ []) (hvalue : ∀ n ∈ names, value n ≠ []) : entryText names value ≠ [] := by
  obtain ⟨n, names, rfl⟩ := exists_cons_of_ne_nil hne
  rw [entryText_cons]
  have := hvalue n mem_cons_self
  simp [this]

/-- Of the first names of equal texts one begins the other. -/
theorem prefix_of_entryText_eq {a b : List C} {A B : List (List C)} {f g : List C → List C}
    (h : entryText (a :: A) f = entryText (b :: B) g) : a <+: b ∨ b <+: a := by
  rw [entryText_cons, entryText_cons] at h
  have ha : a <+: b ++ (g b ++ entryText B g) := h ▸ prefix_append ..
  exact prefix_or_prefix_of_prefix ha (prefix_append ..)

/-- The last value may take more. -/
theorem exists_entryText_append (hne : names ≠ [])
    (hnodup : names.Nodup) (value : List C → List C) (more : List C) :
    ∃ last ∈ names.getLast?, ∃ g : List C → List C,
      g last = value last ++ more ∧ (∀ n, n ≠ last → g n = value n) ∧
      entryText names g = entryText names value ++ more := by
  classical
  obtain rfl | ⟨init, last, rfl⟩ := eq_nil_or_concat names
  · exact absurd rfl hne
  · rw [concat_eq_append] at hnodup ⊢
    refine ⟨last, by simp, update value last (value last ++ more),
      update_self .., fun n hn => update_of_ne hn .., ?_⟩
    have hinit : ∀ n ∈ init, update value last (value last ++ more) n = value n := by
      intro n hn
      refine update_of_ne ?_ ..
      rintro rfl
      exact (nodup_append.mp hnodup).2.2 n hn n (by simp) rfl
    have hlast : ∀ f, entryText [last] f = last ++ f last := fun f => flatMap_singleton ..
    calc entryText (init ++ [last]) _ = entryText init _ ++ entryText [last] _ := flatMap_append
      _ = entryText init value ++ (last ++ (value last ++ more)) := by
          rw [entryText_congr hinit, hlast, update_self]
      _ = entryText (init ++ [last]) value ++ more := by
          rw [← append_assoc last, ← hlast, ← append_assoc]
          exact congrArg (· ++ more) flatMap_append.symm

/-- If the first name of a record begins the first name of another, there
are values for which the texts are the same. -/
theorem exists_entryText_eq [Nonempty C] {a b : List C} {A B : List (List C)} (hab : a <+: b)
    (hA : (a :: A).Nodup) (hB : (b :: B).Nodup) (hone : a = b → A = B → A ≠ []) :
    ∃ f g : List C → List C, (∀ n, f n ≠ []) ∧ (∀ n, g n ≠ []) ∧
      entryText (a :: A) f = entryText (b :: B) g ∧ (a = b → A = B → f a ≠ g a) := by
  classical
  obtain ⟨x⟩ := ‹Nonempty C›
  obtain ⟨c, rfl⟩ := hab
  -- every value is one letter, but for the first and the last
  obtain ⟨last, hlast, g, hglast, hg, htext⟩ := exists_entryText_append
    (cons_ne_nil _ _) hB (fun _ => [x]) (entryText A fun _ => [x])
  let f := update (fun _ => [x]) a (c ++ ([x] ++ entryText B fun _ => [x]))
  have hfA : entryText A f = entryText A fun _ => [x] := by
    refine entryText_congr fun n hn => update_of_ne ?_ ..
    rintro rfl
    exact (nodup_cons.mp hA).1 hn
  refine ⟨f, g, fun n => ?_, fun n => ?_, ?_, fun heq hAB => ?_⟩
  · by_cases hn : n = a <;> simp [f, hn]
  · by_cases hn : n = last
    · rw [hn, hglast]
      simp
    · rw [hg n hn]
      simp
  · rw [htext, entryText_cons, entryText_cons, hfA]
    simp [f]
  · have hc : c = [] := by simpa using heq.symm
    subst hc hAB
    have hne := hone heq rfl
    have hlast : last ≠ a := by
      rintro rfl
      rw [List.getLast?_cons_of_ne_nil hne] at hlast
      refine (nodup_cons.mp hA).1 (mem_of_getLast? hlast)
    rw [hg a hlast.symm]
    have hlong : entryText A (fun _ => [x]) ≠ [] := entryText_ne_nil hne (by simp)
    simpa [f] using hlong

end Dawgs.Lib

import Mathlib

/-!
# LIKE patterns

The patterns of the SQL operator `LIKE` with a backslash as the escape
character. A percent sign stands for any text, an underscore for any one
character, and a backslash takes its meaning from the character that
follows; a pattern must not end with a backslash that escapes nothing.

A text can be put into a pattern in two ways. Escaped, it stands for itself
(`parse_escape_append`). As it is, it does so only if it contains none of
the three characters: the pattern has a shortest word (`word`), which is no
longer than the text and is equal to it in that case only (`plain_of_word`).
-/

namespace Dawgs.Lib.Like

open List Option
open List (cons_append cons)

inductive Token where
  /-- Any text. -/
  | anything
  /-- Any one character. -/
  | single
  | char (c : Char)
deriving DecidableEq

/-- A pattern, unless it ends with an escape character. -/
@[simp]
def parse : List Char → Option (List Token)
  | [] => some []
  | ['\\'] => none
  | '\\' :: c :: pattern => (parse pattern).map (.char c :: ·)
  | '%' :: pattern => (parse pattern).map (.anything :: ·)
  | '_' :: pattern => (parse pattern).map (.single :: ·)
  | c :: pattern => (parse pattern).map (.char c :: ·)

/-- Whether a pattern describes the whole of a text. -/
@[simp]
def accepts : List Token → List Char → Bool
  | [], text => text.isEmpty
  | .anything :: tokens, text => text.tails.any (accepts tokens)
  | .single :: _, [] => false
  | .single :: tokens, _ :: text => accepts tokens text
  | .char _ :: _, [] => false
  | .char c :: tokens, c' :: text => c = c' && accepts tokens text

/-- The operator. -/
def like (pattern text : List Char) : Option Bool := (parse pattern).map (accepts · text)

/-- The characters that do not stand for themselves. -/
def special (c : Char) : Bool := c == '\\' || c == '%' || c == '_'

def escape (text : List Char) : List Char :=
  text.flatMap fun c => if special c then ['\\', c] else [c]

/-- Nothing in the text has to be escaped. -/
def plain (text : List Char) : Bool := text.all fun c => !special c

/-! ### What patterns accept -/

variable {text s tail : List Char} {tokens : List Token}

theorem accepts_anything :
    accepts (.anything :: tokens) text = true ↔
      ∃ front rest, text = front ++ rest ∧ accepts tokens rest = true := by
  rw [accepts, List.any_eq_true]
  constructor
  · rintro ⟨rest, hrest, h⟩
    obtain ⟨front, rfl⟩ := (List.mem_tails ..).mp hrest
    exact ⟨front, rest, rfl, h⟩
  · rintro ⟨front, rest, rfl, h⟩
    exact ⟨rest, (mem_tails ..).mpr (suffix_append ..), h⟩

theorem accepts_chars_append :
    accepts (s.map .char ++ tokens) text = true ↔
      ∃ rest, text = s ++ rest ∧ accepts tokens rest = true := by
  induction s generalizing text with
  | nil => simp
  | cons c s ih =>
    cases text with
    | nil => simp [accepts]
    | cons c' text =>
      simp only [map_cons, cons_append, accepts,
        Bool.and_eq_true, decide_eq_true_eq, ih, cons.injEq]
      constructor
      · rintro ⟨rfl, rest, rfl, h⟩
        exact ⟨rest, ⟨rfl, rfl⟩, h⟩
      · rintro ⟨rest, ⟨rfl, rfl⟩, h⟩
        exact ⟨rfl, rest, rfl, h⟩

theorem accepts_chars : accepts (s.map .char) text = true ↔ text = s := by
  have h : accepts (s.map Token.char ++ []) text = true ↔
      ∃ rest, text = s ++ rest ∧ accepts [] rest = true := accepts_chars_append
  simpa [accepts] using h

theorem accepts_all (text : List Char) : accepts [.anything] text = true :=
  (accepts_anything).mpr ⟨text, [], (append_nil _).symm, rfl⟩

/-! ### Escaped texts -/

theorem parse_cons_of_not_special {c : Char} (h : special c = false) (pattern : List Char) :
    parse (c :: pattern) = (parse pattern).map (.char c :: ·) := by
  have hne : c ≠ '\\' ∧ c ≠ '%' ∧ c ≠ '_' := by
    simpa [special, and_assoc] using h
  rw [parse]
  · exact fun hc _ => hne.1 hc
  · exact fun _ _ hc _ => hne.1 hc
  · exact hne.2.1
  · exact hne.2.2

theorem parse_escape_append (s pattern : List Char) :
    parse (escape s ++ pattern) = (parse pattern).map (s.map .char ++ ·) := by
  induction s with
  | nil => exact Option.map_id'.symm
  | cons c s ih =>
    have hcons : ∀ tokens, Option.map (Token.char c :: ·) (Option.map
        (s.map Token.char ++ ·) tokens) =
        tokens.map ((c :: s).map Token.char ++ ·) := fun tokens => by
      rw [Option.map_map]
      rfl
    rw [← hcons, ← ih, escape, List.flatMap_cons]
    cases hc : special c with
    | true =>
      rfl
    | false =>
      exact parse_cons_of_not_special hc _

/-- A text without special characters is not changed. -/
theorem escape_eq_of_plain (h : plain s = true) : escape s = s := by
  rw [plain, List.all_eq_true] at h
  calc escape s = s.flatMap fun c => [c] :=
        List.flatMap_congr fun c hc => by
          rw [if_neg (by simpa using h c hc)]
    _ = s := flatMap_singleton' s

/-- What follows any text in a pattern with a percent sign in front. -/
theorem like_percent {pattern : List Char} (h : parse pattern = some tokens) (text : List Char) :
    like ('%' :: pattern) text = some (accepts (.anything :: tokens) text) := by
  rw [like, parse, h]
  rfl

/-- `LIKE` with an escaped text between two percent signs. -/
theorem like_contains (s text : List Char) :
    ∃ b, like ('%' :: escape s ++ ['%']) text = some b ∧ (b = true ↔ s <:+: text) := by
  have hparse : parse (escape s ++ ['%']) =
      some (s.map Token.char ++ [Token.anything]) := parse_escape_append s ['%']
  refine ⟨_, like_percent hparse text, ?_⟩
  rw [accepts_anything]
  constructor
  · rintro ⟨front, rest, rfl, h⟩
    obtain ⟨rest', rfl, -⟩ := (accepts_chars_append).mp h
    exact ⟨front, rest', append_assoc ..⟩
  · rintro ⟨front, rest, rfl⟩
    exact ⟨front, s ++ rest, append_assoc ..,
      (accepts_chars_append).mpr ⟨rest, rfl, accepts_all rest⟩⟩

theorem like_startsWith (s text : List Char) :
    ∃ b, like (escape s ++ ['%']) text = some b ∧ (b = true ↔ s <+: text) := by
  have hparse : parse (escape s ++ ['%']) =
      some (s.map Token.char ++ [Token.anything]) := parse_escape_append s ['%']
  refine ⟨accepts (s.map Token.char ++ [Token.anything]) text, ?_, ?_⟩
  · rw [like, hparse]
    rfl
  rw [accepts_chars_append]
  constructor
  · rintro ⟨rest, rfl, -⟩
    exact prefix_append ..
  · rintro ⟨rest, rfl⟩
    exact ⟨rest, rfl, accepts_all rest⟩

theorem like_endsWith (s text : List Char) :
    ∃ b, like ('%' :: escape s) text = some b ∧ (b = true ↔ s <:+ text) := by
  have hparse : parse (escape s) = some (s.map .char) := by
    have h := parse_escape_append s []
    rw [append_nil] at h
    rw [h]
    exact congrArg some (append_nil _)
  refine ⟨_, like_percent hparse text, ?_⟩
  rw [accepts_anything]
  constructor
  · rintro ⟨front, rest, rfl, h⟩
    rw [accepts_chars] at h
    exact h ▸ suffix_append ..
  · rintro ⟨front, rfl⟩
    exact ⟨front, s, rfl, (accepts_chars).mpr rfl⟩

/-! ### Texts that are not escaped -/

/-- The shortest word of a pattern, with a letter for each underscore. -/
def word : List Char → List Char
  | [] | ['\\'] => []
  | '\\' :: c :: pattern => c :: word pattern
  | '%' :: pattern => word pattern
  | '_' :: pattern => 'a' :: word pattern
  | c :: pattern => c :: word pattern

/-- A character that stands for itself, in `word`. -/
theorem word_cons {c : Char} (h : special c = false) (pattern : List Char) :
    word (c :: pattern) = c :: word pattern := by
  have hne : c ≠ '\\' ∧ c ≠ '%' ∧ c ≠ '_' := by
    simpa [special, and_assoc] using h
  rw [word]
  · exact fun hc _ => hne.1 hc
  · exact fun _ _ hc _ => hne.1 hc
  · exact hne.2.1
  · exact hne.2.2

/-- Induction over a pattern, with one case for each meaning. -/
theorem pattern_induction {P : List Char → Prop} (nil : P []) (dangling : P ['\\'])
    (escaped : ∀ c pattern, P pattern → P ('\\' :: c :: pattern))
    (percent : ∀ pattern, P pattern → P ('%' :: pattern))
    (underscore : ∀ pattern, P pattern → P ('_' :: pattern))
    (char : ∀ c pattern, special c = false → P pattern → P (c :: pattern))
    (pattern : List Char) : P pattern := by
  fun_induction word pattern with
  | case1 => exact nil
  | case2 => exact dangling
  | case3 c pattern ih => exact escaped c pattern ih
  | case4 pattern ih => exact percent pattern ih
  | case5 pattern ih => exact underscore pattern ih
  | case6 c pattern hlast hescape hpercent hunderscore ih =>
    refine char c pattern ?_ ih
    have hbackslash : c ≠ '\\' := by
      intro hc
      cases pattern with
      | nil => exact hlast hc rfl
      | cons c' pattern => exact hescape c' pattern hc rfl
    simpa [special, hbackslash] using ⟨hpercent, hunderscore⟩

theorem accepts_word {pattern : List Char} (h : parse pattern = some tokens) :
    accepts tokens (word pattern) = true := by
  induction pattern using pattern_induction generalizing tokens with
  | nil => cases h; rfl
  | dangling => cases h
  | escaped c pattern ih =>
    obtain ⟨rest, hrest, rfl⟩ := map_eq_some_iff.mp h
    rw [word, accepts, ih hrest, decide_eq_true rfl]
    rfl
  | percent pattern ih =>
    obtain ⟨rest, hrest, rfl⟩ := map_eq_some_iff.mp h
    exact (accepts_anything).mpr ⟨[], _, rfl, ih hrest⟩
  | underscore pattern ih =>
    obtain ⟨rest, hrest, rfl⟩ := map_eq_some_iff.mp h
    exact ih hrest
  | char c pattern hc ih =>
    rw [parse_cons_of_not_special hc] at h
    obtain ⟨rest, hrest, rfl⟩ := map_eq_some_iff.mp h
    rw [word_cons hc, accepts, ih hrest, decide_eq_true rfl]
    rfl

section

variable (ht : tail = [] ∨ tail = ['%'])
include ht

/-- The shortest word of a text that is used as a pattern is not longer than
the text, also with a percent sign behind it. -/
theorem length_word_append_le (s : List Char) :
    (word (s ++ tail)).length ≤ s.length := by
  induction s using pattern_induction with
  | nil => rcases ht with rfl | rfl <;> exact Nat.le_refl 0
  | dangling => rcases ht with rfl | rfl <;> decide
  | escaped c s ih =>
    rw [cons_append, cons_append, word, length_cons, length_cons, length_cons]
    omega
  | percent s ih =>
    rw [cons_append, word, length_cons]
    omega
  | underscore s ih =>
    rw [cons_append, word, length_cons, length_cons]
    omega
  | char c s hc ih =>
    rw [cons_append, word_cons hc, length_cons, length_cons]
    omega

/-- Only a text without special characters is its own shortest word. -/
theorem plain_of_word (h : word (s ++ tail) = s) :
    plain s = true := by
  induction s using pattern_induction with
  | nil => rfl
  | dangling => rcases ht with rfl | rfl <;> cases h
  | escaped c s ih =>
    have hlen := length_word_append_le ht s
    rw [cons_append, cons_append, word] at h
    have hwhole := congrArg length h
    rw [length_cons, length_cons, length_cons] at hwhole
    omega
  | percent s ih =>
    have hlen := length_word_append_le ht s
    rw [cons_append, word] at h
    have hwhole := congrArg length h
    rw [length_cons] at hwhole
    omega
  | underscore s ih =>
    cases (cons.inj h).1
  | char c s hc ih =>
    rw [cons_append, word_cons hc] at h
    rw [plain, all_cons, hc]
    exact ih (cons.inj h).2

/-- A pattern made of a text that is not escaped accepts the text's shortest
word. If whatever it accepts has the text in it, the text is plain. -/
theorem plain_of_sublist
    (h : s.Sublist (word (s ++ tail))) : plain s = true :=
  plain_of_word ht (h.eq_of_length_le (length_word_append_le ht s)).symm

end

end Dawgs.Lib.Like

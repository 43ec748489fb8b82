import Dawgs.Lib.Json
import Dawgs.Lib.Lists

/-!
# Reading back what was printed

A printed value is read back as the repaired value, and only if it is nested
no deeper than the limit (`value_print`). The argument goes from the inside
out: one place of a text, a text, the characters of a number, a sequence of
any items, and last the values themselves, where the three forms are proved
apart (`readBack_leaf`, `readBack_array`, `readBack_object`) and the
recursion over the tree only assembles them.

What follows a value in a printed text is a comma or the end of a container,
so the only condition on the rest of the input is that a number does not go
on there (`Ends`).
-/

namespace Dawgs.Lib.Json

open List Option Nat

/-! ### Texts are read back repaired -/

/-- Every place holds a character. -/
def Text.repair (t : Text) : Text := t.map fun u => some (u.getD replacement)

theorem hexValue_hexDigit : ∀ n < 16, hexValue (hexDigit n) = some n := by
  decide

variable {c : Char} {rest : List Char} {β γ : Type}

theorem place_letter {letter : Char} (h : escapeLetter c = some letter)
    (rest : List Char) : place ('\\' :: letter :: rest) = some (c, rest) := by
  unfold escapeLetter at h
  split at h <;> cases h <;> rfl

theorem place_control (h : c.toNat < 32) (rest : List Char) :
    place ('\\' :: 'u' :: '0' :: '0' :: hexDigit (c.toNat / 16) ::
      hexDigit (c.toNat % 16) :: rest) = some (c, rest) := by
  have hhi := hexValue_hexDigit (c.toNat / 16) (by omega)
  have hlo := hexValue_hexDigit (c.toNat % 16) (by omega)
  have hunit : codeUnit ('0' :: '0' :: hexDigit (c.toNat / 16) ::
      hexDigit (c.toNat % 16) :: rest) = some (c.toNat, rest) := by
    rw [codeUnit, hhi, hlo]
    show some (((0 * 16 + 0) * 16 + c.toNat / 16) * 16 + c.toNat % 16, rest) = _
    congr 2
    omega
  rw [place, unicode, hunit, map_some]
  dsimp only
  rw [if_pos (by omega), Char.ofNat_toNat]

theorem place_plain (h : 32 ≤ c.toNat) (hc : c ≠ '\\')
    (rest : List Char) : place (c :: rest) = some (c, rest) := by
  unfold place
  split
  next heq => cases heq; exact absurd rfl hc
  next heq => cases heq; exact absurd rfl hc
  next heq => cases heq; exact absurd rfl hc
  next heq => cases heq
  next heq =>
    cases heq
    exact if_neg (by omega)

theorem place_escape (u : Option Char) (rest : List Char) :
    place (escape u ++ rest) = some (u.getD replacement, rest) := by
  cases u with
  | none => rfl
  | some c =>
    show place (escapeChar c ++ rest) = some (c, rest)
    fun_cases escapeChar c with
    | case1 letter h => exact place_letter h rest
    | case2 h hlt => exact place_control hlt rest
    | case3 _ _ heq | case4 _ _ _ heq => subst heq; rfl
    | case5 h hge =>
      refine place_plain (by omega) ?_ rest
      rintro rfl
      cases h

/-- A quotation mark inside a text is escaped. -/
theorem exists_escape_eq (u : Option Char) : ∃ c cs, escape u = c :: cs ∧ c ≠ '"' := by
  cases u with
  | none => exact ⟨_, _, rfl, by decide⟩
  | some c =>
    show ∃ c' cs, escapeChar c = c' :: cs ∧ c' ≠ '"'
    fun_cases escapeChar c with
    | case5 h =>
      refine ⟨_, _, rfl, ?_⟩
      rintro rfl
      cases h
    | _ => exact ⟨_, _, rfl, by decide⟩

theorem places_flatMap_escape (t : Text) {n : Nat} (hn : t.length < n) (rest : List Char) :
    places n (t.flatMap escape ++ '"' :: rest) = some (t.repair, rest) := by
  induction t generalizing n with
  | nil =>
    obtain ⟨n, rfl⟩ := Nat.exists_eq_add_one_of_ne_zero (Nat.ne_zero_of_lt hn)
    rfl
  | cons u t ih =>
    obtain ⟨n, rfl⟩ := Nat.exists_eq_add_one_of_ne_zero (Nat.ne_zero_of_lt hn)
    have hplace := place_escape u (t.flatMap escape ++ '"' :: rest)
    obtain ⟨c, cs, hu, hc⟩ := exists_escape_eq u
    rw [flatMap_cons, append_assoc]
    rw [hu] at hplace ⊢
    rw [places]
    · rw [hplace, bind_some]
      dsimp only
      rw [ih (lt_of_succ_lt_succ hn)]
      rfl
    · rintro rest' heq
      cases heq
      exact hc rfl

theorem length_le_flatMap_escape (t : Text) : t.length ≤ (t.flatMap escape).length := by
  induction t with
  | nil => exact le_refl 0
  | cons u t ih =>
    obtain ⟨c, cs, hu, -⟩ := exists_escape_eq u
    rw [flatMap_cons, hu, length_append, length_cons, length_cons]
    omega

theorem quoted_quote (t : Text) (rest : List Char) :
    quoted (quote t ++ rest) = some (t.repair, rest) := by
  have hlen := length_le_flatMap_escape t
  rw [quote, cons_append, append_assoc, singleton_append]
  refine places_flatMap_escape t ?_ rest
  rw [length_append, length_cons]
  omega

/-! ### Numbers are read back -/

/-- The input does not go on with a number. -/
def Ends (rest : List Char) : Prop := ∀ c ∈ rest.head?, numberChar c = false

theorem numberChar_of_isDigit (h : c.isDigit = true) : numberChar c = true := by
  unfold numberChar
  rw [h]
  rfl

/-- What a part of a number leaves is behind characters of numbers. -/
def Consumes (part : List Char → Option (List Char)) : Prop :=
  ∀ text rest, part text = some rest →
    ∃ front, text = front ++ rest ∧ ∀ c ∈ front, numberChar c = true

theorem consumes_someDigits : Consumes someDigits := by
  intro text rest h
  cases text with
  | nil => cases h
  | cons c text =>
    obtain ⟨hc, h⟩ := ite_none_right_eq_some.mp h
    cases h
    refine ⟨c :: text.takeWhile Char.isDigit, ?_, ?_⟩
    · rw [cons_append, digitsAfter, takeWhile_append_dropWhile]
    · intro x hx
      rcases mem_cons.mp hx with rfl | hx
      · exact numberChar_of_isDigit hc
      · exact numberChar_of_isDigit (mem_takeWhile_imp hx)

/-- One more character of a number in front. -/
theorem exists_front_cons {text : List Char} (hc : numberChar c = true)
    (h : ∃ front, text = front ++ rest ∧ ∀ c ∈ front, numberChar c = true) :
    ∃ front, c :: text = front ++ rest ∧ ∀ c ∈ front, numberChar c = true := by
  obtain ⟨front, rfl, hfront⟩ := h
  exact ⟨c :: front, rfl, forall_mem_cons.mpr ⟨hc, hfront⟩⟩

theorem consumes_integerPart : Consumes integerPart := by
  intro text rest h
  unfold integerPart at h
  split at h
  next => cases h; exact ⟨['0'], rfl, by simp [numberChar]⟩
  next => exact consumes_someDigits _ _ h

theorem consumes_fractionPart : Consumes fractionPart := by
  intro text rest h
  unfold fractionPart at h
  split at h
  next => exact exists_front_cons (by decide) (consumes_someDigits _ _ h)
  next => cases h; exact ⟨[], rfl, nofun⟩

theorem consumes_exponentPart : Consumes exponentPart := by
  intro text rest h
  unfold exponentPart at h
  split at h
  iterate 4
    next =>
      exact exists_front_cons (by decide)
        (exists_front_cons (by decide) (consumes_someDigits _ _ h))
  iterate 2
    next => exact exists_front_cons (by decide) (consumes_someDigits _ _ h)
  next => cases h; exact ⟨[], rfl, nofun⟩

theorem Consumes.bind {p q : List Char → Option (List Char)}
    (hp : Consumes p) (hq : Consumes q) : Consumes fun text => (p text).bind q := by
  intro text rest h
  obtain ⟨m, hm, hrest⟩ := bind_eq_some_iff.mp h
  obtain ⟨front, rfl, hfront⟩ := hp _ _ hm
  obtain ⟨front', rfl, hfront'⟩ := hq _ _ hrest
  refine ⟨front ++ front', (append_assoc ..).symm, ?_⟩
  exact forall_mem_append.mpr ⟨hfront, hfront'⟩

theorem consumes_unsigned : Consumes unsigned :=
  (consumes_integerPart.bind consumes_fractionPart).bind consumes_exponentPart

theorem Numeral.numberChar (n : Numeral) : ∀ c ∈ n.text, numberChar c = true := by
  have hv := n.valid
  unfold isNumber at hv
  split at hv
  next text htext =>
    obtain ⟨front, heq, hfront⟩ := consumes_unsigned _ _ (of_decide_eq_true hv)
    rw [htext, heq, append_nil]
    exact forall_mem_cons.mpr ⟨by decide, hfront⟩
  next =>
    obtain ⟨front, heq, hfront⟩ := consumes_unsigned _ _ (of_decide_eq_true hv)
    rw [heq, append_nil]
    exact hfront

theorem number_text (n : Numeral) (h : Ends rest) :
    number (n.text ++ rest) = some (.leaf (.number n), rest) := by
  have htake : (n.text ++ rest).takeWhile numberChar = n.text := by
    rw [takeWhile_append_of_pos n.numberChar]
    cases rest with
    | nil => rw [takeWhile_nil, append_nil]
    | cons c rest => rw [takeWhile_cons, h c rfl, if_neg (by decide), append_nil]
  have hdrop : (n.text ++ rest).dropWhile numberChar = rest := by
    rw [dropWhile_append_of_pos n.numberChar]
    cases rest with
    | nil => rfl
    | cons c rest => rw [dropWhile_cons, h c rfl, if_neg (by decide)]
  unfold number
  simp only [htake, hdrop, n.valid, dif_pos]

/-! ### Values are read back -/

/-- Nothing is skipped in front of this character. -/
theorem skip_cons (h : isSpace c = false) (rest : List Char) : skip (c :: rest) = c :: rest := by
  rw [skip, dropWhile_cons, h, if_neg (by decide)]

section

variable {item : Reader γ} {close : Char} {text : β → List Char} {p : β → Prop} [DecidablePred p]
  {f : β → γ} (hclose : isSpace close = false) (hcomma : close ≠ ',')

include hclose hcomma

/-- What a list of printed items gives. -/
theorem sequence_commas (x : β) (xs : List β) (rest : List Char)
    (hitem : ∀ y ∈ x :: xs, ∀ c ∈ [',', close], ∀ rest,
      item (text y ++ c :: rest) = if p y then some (f y, c :: rest) else none)
    {n : Nat} (hn : xs.length < n) :
    sequence item close n (commas ((x :: xs).map text) ++ close :: rest) =
      if ∀ y ∈ x :: xs, p y then some ((x :: xs).map f, rest) else none := by
  induction xs generalizing x n with
  | nil =>
    obtain ⟨n, rfl⟩ := exists_eq_add_one_of_ne_zero (ne_zero_of_lt hn)
    have hx := hitem x (mem_singleton_self x) close (by simp) rest
    show sequence item close (n + 1) (text x ++ [] ++ close :: rest) = _
    rw [append_nil, sequence, hx]
    simp only [forall_mem_singleton]
    by_cases hp : p x
    · rw [if_pos hp, if_pos hp, bind_some]
      dsimp only
      rw [skip_cons hclose]
      dsimp only
      rw [if_neg hcomma, if_pos rfl]
      rfl
    · rw [if_neg hp, if_neg hp]
      rfl
  | cons x' xs ih =>
    obtain ⟨n, rfl⟩ := exists_eq_add_one_of_ne_zero (ne_zero_of_lt hn)
    obtain ⟨hx, hxs⟩ := forall_mem_cons.mp hitem
    have hx := hx ',' (by simp) (commas ((x' :: xs).map text) ++ close :: rest)
    have hinput : commas ((x :: x' :: xs).map text) ++ close :: rest =
        text x ++ ',' :: (commas ((x' :: xs).map text) ++ close :: rest) := by
      simp only [commas, map_cons, flatMap_cons, append_assoc, cons_append]
    rw [hinput, sequence, hx]
    by_cases hp : p x
    · rw [if_pos hp, bind_some]
      dsimp only
      rw [skip_cons rfl]
      dsimp only
      rw [if_pos rfl, ih x' hxs (lt_of_succ_lt_succ hn)]
      simp only [@forall_mem_cons _ _ x, hp, true_and]
      split <;> rfl
    · rw [if_neg hp, if_neg fun h => hp (h x mem_cons_self)]
      rfl

omit hclose hcomma in
theorem length_le_commas (texts : List (List Char)) (text : List Char) :
    texts.length ≤ (commas (text :: texts)).length := by
  rw [commas, length_append]
  refine Nat.le_trans ?_ (Nat.le_add_left ..)
  induction texts with
  | nil => exact le_refl 0
  | cons t texts ih =>
    rw [flatMap_cons, length_append, length_cons, length_cons]
    omega

/-- What a container gives. Its first item must not look like its end. -/
theorem enclosed_commas (xs : List β) (rest : List Char)
    (htext : ∀ x ∈ xs, ∃ c cs, text x = c :: cs ∧ isSpace c = false ∧ c ≠ close)
    (hitem : ∀ y ∈ xs, ∀ c ∈ [',', close], ∀ rest,
      item (text y ++ c :: rest) = if p y then some (f y, c :: rest) else none) :
    enclosed item close (commas (xs.map text) ++ close :: rest) =
      if ∀ x ∈ xs, p x then some (xs.map f, rest) else none := by
  cases xs with
  | nil =>
    show enclosed item close (close :: rest) = _
    rw [enclosed, skip_cons hclose, if_pos nofun]
    exact if_pos rfl
  | cons x xs =>
    obtain ⟨c, cs, hx, hspace, hne⟩ := htext x mem_cons_self
    have hlen := length_le_commas (xs.map text) (text x)
    rw [length_map] at hlen
    rw [← sequence_commas hclose hcomma x xs rest hitem
      (n := (commas ((x :: xs).map text) ++ close :: rest).length)]
    · rw [map_cons, commas, hx, cons_append, cons_append, enclosed, skip_cons hspace]
      exact if_neg hne
    · rw [map_cons, length_append, length_cons]
      omega

end

mutual

/-- How many containers are inside each other. -/
def Value.depth {A : Type} : Value A → Nat
  | .leaf _ => 0
  | .array items => itemsDepth items + 1
  | .object members => membersDepth members + 1

def itemsDepth {A : Type} : List (Value A) → Nat
  | [] => 0
  | v :: items => max v.depth (itemsDepth items)

def membersDepth {A : Type} : List (Text × Value A) → Nat
  | [] => 0
  | (_, v) :: members => max v.depth (membersDepth members)

end

def Scalar.repair : Scalar → Scalar
  | .string t => .string t.repair
  | s => s

mutual

/-- Every place of every text holds a character. -/
def Value.repair : Value Scalar → Value Scalar
  | .leaf s => .leaf s.repair
  | .array items => .array (repairItems items)
  | .object members => .object (repairMembers members)

def repairItems : List (Value Scalar) → List (Value Scalar)
  | [] => []
  | v :: items => v.repair :: repairItems items

def repairMembers : List (Text × Value Scalar) → List (Text × Value Scalar)
  | [] => []
  | (k, v) :: members => (k.repair, v.repair) :: repairMembers members

end

theorem itemsDepth_le_iff {A : Type} {items : List (Value A)} {d : Nat} :
    itemsDepth items ≤ d ↔ ∀ v ∈ items, v.depth ≤ d := by
  induction items with
  | nil => simp [itemsDepth]
  | cons v items ih => rw [itemsDepth, Nat.max_le, ih, forall_mem_cons]

theorem membersDepth_le_iff {A : Type} {members : List (Text × Value A)} {d : Nat} :
    membersDepth members ≤ d ↔ ∀ m ∈ members, m.2.depth ≤ d := by
  induction members with
  | nil => simp [membersDepth]
  | cons m members ih => rw [membersDepth, Nat.max_le, ih, forall_mem_cons]

theorem repairItems_eq (items : List (Value Scalar)) :
    repairItems items = items.map Value.repair := eq_map rfl (fun _ _ => rfl) items

def repairMember (m : Text × Value Scalar) : Text × Value Scalar := (m.1.repair, m.2.repair)

theorem repairMembers_eq (members : List (Text × Value Scalar)) :
    repairMembers members = members.map repairMember := eq_map rfl (fun _ _ => rfl) members

theorem printItems_eq (items : List (Value Scalar)) : printItems items = items.map print :=
  eq_map rfl (fun _ _ => rfl) items

def printMember (m : Text × Value Scalar) : List Char := quote m.1 ++ ':' :: print m.2

theorem printMembers_eq (members : List (Text × Value Scalar)) :
    printMembers members = members.map printMember := eq_map rfl (fun _ _ => rfl) members

theorem Numeral.exists_cons (n : Numeral) :
    ∃ c cs, n.text = c :: cs ∧ Json.numberChar c = true := by
  have hchar := n.numberChar
  have hvalid := n.valid
  cases htext : n.text with
  | nil =>
    rw [htext] at hvalid
    cases hvalid
  | cons c cs =>
    rw [htext] at hchar
    exact ⟨c, cs, rfl, hchar c mem_cons_self⟩

theorem isSpace_of_numberChar (h : numberChar c = true) : isSpace c = false := by
  by_contra hspace
  simp only [isSpace, Bool.not_eq_false, Bool.or_eq_true, beq_iff_eq] at hspace
  rcases hspace with ((rfl | rfl) | rfl) | rfl <;> revert h <;> decide

/-- A value does not begin with a space, nor with the end of an array. -/
theorem exists_print_eq (v : Value Scalar) :
    ∃ c cs, print v = c :: cs ∧ isSpace c = false ∧ c ≠ ']' := by
  cases v with
  | leaf s =>
    cases s with
    | null | string t => exact ⟨_, _, rfl, rfl, by decide⟩
    | bool b => cases b <;> exact ⟨_, _, rfl, rfl, by decide⟩
    | number n =>
      obtain ⟨c, cs, htext, hc⟩ := n.exists_cons
      refine ⟨c, cs, htext, isSpace_of_numberChar hc, ?_⟩
      rintro rfl
      cases hc
  | array items | object members => exact ⟨_, _, rfl, rfl, by decide⟩

theorem valueWith_number (inner : Option (Reader (Value Scalar))) (n : Numeral) (rest : List Char) :
    valueWith inner (n.text ++ rest) = number (n.text ++ rest) := by
  obtain ⟨c, cs, htext, hc⟩ := n.exists_cons
  rw [htext, cons_append, valueWith, skip_cons (isSpace_of_numberChar hc)]
  split <;> first
    | rfl
    | next heq =>
      rw [(List.cons.inj heq).1] at hc
      cases hc

/-- A scalar is read back whatever may be contained in a value. -/
theorem valueWith_scalar (inner : Option (Reader (Value Scalar))) (s : Scalar) (h : Ends rest) :
    valueWith inner (s.print ++ rest) = some (.leaf s.repair, rest) := by
  cases s with
  | null => rfl
  | bool b => cases b <;> rfl
  | number n => exact (valueWith_number inner n rest).trans (number_text n h)
  | string t =>
    have hquoted := quoted_quote t rest
    show Option.map _ (quoted (quote t ++ rest)) = _
    rw [hquoted]
    rfl

theorem ends_cons (h : numberChar c = false) (rest : List Char) : Ends (c :: rest) := by
  intro x hx
  cases hx
  exact h

theorem member_printMember {value : Reader (Value Scalar)}
    (m : Text × Value Scalar) (rest : List Char) :
    member value (printMember m ++ rest) = (value (print m.2 ++ rest)).map fun (v, rest) =>
        ((m.1.repair, v), rest) := by
  rw [printMember, append_assoc, member]
  have hskip : skip (quote m.1 ++ (':' :: print m.2 ++ rest)) =
      quote m.1 ++ (':' :: print m.2 ++ rest) := skip_cons rfl _
  rw [hskip, quoted_quote]
  rfl

/-- What the reader gives for a printed value. -/
def limited (d : Nat) (v : Value Scalar) : Option (Value Scalar) :=
  if v.depth ≤ d then some v.repair else none

/-- The statement of `value_print` about one value. -/
def ReadBack (v : Value Scalar) : Prop :=
  ∀ d {rest}, Ends rest → value d (print v ++ rest) = (limited d v).map (·, rest)

theorem readBack_leaf (s : Scalar) : ReadBack (.leaf s) := by
  intro d rest h
  have hlimited : limited d (.leaf s) = some (.leaf s.repair) := if_pos (zero_le d)
  rw [hlimited]
  cases d <;> exact valueWith_scalar _ s h

theorem valueWith_array (value : Reader (Value Scalar)) (rest : List Char) :
    valueWith (some value) ('[' :: rest) = (enclosed value ']' rest).map fun (items, rest) =>
        (.array items, rest) := rfl

theorem valueWith_object (value : Reader (Value Scalar)) (rest : List Char) :
    valueWith (some value) ('\x7b' :: rest) =
      (enclosed (member value) '\x7d' rest).map fun (members, rest) =>
        (.object members, rest) := rfl

theorem readBack_array {items : List (Value Scalar)}
    (h : ∀ v ∈ items, ReadBack v) : ReadBack (.array items) := by
  intro d rest _
  cases d with
  | zero => rfl
  | succ d =>
    have hitems : enclosed (value d) ']' (commas (items.map print) ++ ']' :: rest) =
        if ∀ v ∈ items, v.depth ≤ d then some (items.map Value.repair, rest) else none := by
      refine enclosed_commas rfl (by decide) items rest (fun v _ => exists_print_eq v) ?_
      intro v hv c hc rest
      rw [h v hv d (ends_cons ?_ rest), limited]
      · split <;> rfl
      · simp only [mem_cons, not_mem_nil, or_false] at hc
        rcases hc with rfl | rfl <;> rfl
    have hinput : print (.array items) ++ rest =
        '[' :: (commas (items.map print) ++ ']' :: rest) := by
      rw [print, printItems_eq, cons_append, append_assoc, singleton_append]
    show valueWith (some (value d)) _ = _
    rw [hinput, valueWith_array, hitems, limited, Value.repair, repairItems_eq]
    simp only [Value.depth, add_le_add_iff_right, itemsDepth_le_iff]
    split <;> rfl

theorem readBack_object {members : List (Text × Value Scalar)}
    (h : ∀ m ∈ members, ReadBack m.2) : ReadBack (.object members) := by
  intro d rest _
  cases d with
  | zero => rfl
  | succ d =>
    have hmembers : enclosed (member (value d)) '\x7d'
        (commas (members.map printMember) ++ '\x7d' :: rest) =
        if ∀ m ∈ members, m.2.depth ≤ d then some (members.map repairMember, rest) else none := by
      refine enclosed_commas rfl (by decide) members rest
        (fun m _ => ⟨_, _, rfl, rfl, by decide⟩) ?_
      intro m hm c hc rest
      rw [member_printMember, h m hm d (ends_cons ?_ rest), limited]
      · split <;> rfl
      · simp only [mem_cons, not_mem_nil, or_false] at hc
        rcases hc with rfl | rfl <;> rfl
    have hinput : print (.object members) ++ rest =
        '\x7b' :: (commas (members.map printMember) ++ '\x7d' :: rest) := by
      rw [print, printMembers_eq, cons_append, append_assoc, singleton_append]
    show valueWith (some (value d)) _ = _
    rw [hinput, valueWith_object, hmembers, limited, Value.repair, repairMembers_eq]
    simp only [Value.depth, add_le_add_iff_right, membersDepth_le_iff]
    split <;> rfl

mutual

theorem readBack : ∀ v, ReadBack v
  | .leaf s => readBack_leaf s
  | .array items => readBack_array (readBack_items items)
  | .object members => readBack_object (readBack_members members)

theorem readBack_items : ∀ items : List (Value Scalar), ∀ v ∈ items, ReadBack v
  | [] => nofun
  | v :: items => forall_mem_cons.mpr ⟨readBack v, readBack_items items⟩

theorem readBack_members : ∀ members : List (Text × Value Scalar), ∀ m ∈ members, ReadBack m.2
  | [] => nofun
  | (_, v) :: members => forall_mem_cons.mpr ⟨readBack v, readBack_members members⟩

end

/-- A printed value is read back repaired, if it is not nested too deep. -/
theorem value_print (d : Nat) (v : Value Scalar)
    (h : Ends rest) : value d (print v ++ rest) = (limited d v).map (·, rest) := readBack v d h

/-! ### One line -/

theorem not_newline_of_numberChar (h : numberChar c = true) : c ≠ '\n' := by
  rintro rfl
  cases h

theorem newline_not_mem_escape (u : Option Char) : '\n' ∉ escape u := by
  cases u with
  | none => decide
  | some c =>
    show '\n' ∉ escapeChar c
    fun_cases escapeChar c with
    | case1 letter h =>
      unfold escapeLetter at h
      split at h <;> cases h <;> decide
    | case2 h hlt =>
      have hdigit : ∀ n < 16, hexDigit n ≠ '\n' := by decide
      have hhi := hdigit (c.toNat / 16) (by omega)
      have hlo := hdigit (c.toNat % 16) (by omega)
      simp only [mem_cons, not_mem_nil, or_false, not_or]
      exact ⟨by decide, by decide, by decide, by decide, hhi.symm, hlo.symm⟩
    | case3 | case4 => decide
    | case5 h =>
      rw [mem_singleton]
      rintro rfl
      cases h

theorem newline_not_mem_quote (t : Text) : '\n' ∉ quote t := by
  simp only [quote, mem_cons, mem_append, mem_flatMap, not_or, not_exists, not_and]
  exact ⟨by decide, fun u _ => newline_not_mem_escape u, by decide⟩

theorem newline_not_mem_commas {texts : List (List Char)}
    (h : ∀ text ∈ texts, '\n' ∉ text) : '\n' ∉ commas texts := by
  cases texts with
  | nil => exact not_mem_nil
  | cons text texts =>
    obtain ⟨htext, htexts⟩ := forall_mem_cons.mp h
    rw [commas, mem_append, not_or]
    refine ⟨htext, fun hmem => ?_⟩
    obtain ⟨t, ht, hmem⟩ := mem_flatMap.mp hmem
    rcases mem_cons.mp hmem with heq | hmem
    · cases heq
    · exact htexts t ht hmem

theorem newline_not_mem_scalar (s : Scalar) : '\n' ∉ s.print := by
  cases s with
  | null => decide
  | bool b => cases b <;> decide
  | number n => exact fun h => not_newline_of_numberChar (n.numberChar _ h) rfl
  | string t => exact newline_not_mem_quote t

mutual

/-- A printed value stands on one line. -/
theorem newline_not_mem_print : ∀ v, '\n' ∉ print v
  | .leaf s => newline_not_mem_scalar s
  | .array items => by
    have hitems := newline_not_mem_commas (newline_not_mem_items items)
    rw [print, mem_cons, mem_append, not_or, not_or]
    exact ⟨by decide, hitems, by decide⟩
  | .object members => by
    have hmembers := newline_not_mem_commas (newline_not_mem_members members)
    rw [print, mem_cons, mem_append, not_or, not_or]
    exact ⟨by decide, hmembers, by decide⟩

theorem newline_not_mem_items : ∀ items, ∀ text ∈ printItems items, '\n' ∉ text
  | [] => nofun
  | v :: items => forall_mem_cons.mpr ⟨newline_not_mem_print v, newline_not_mem_items items⟩

theorem newline_not_mem_members : ∀ members, ∀ text ∈ printMembers members, '\n' ∉ text
  | [] => nofun
  | (k, v) :: members => forall_mem_cons.mpr ⟨by
      rw [mem_append, mem_cons, not_or, not_or]
      exact ⟨newline_not_mem_quote k, by decide, newline_not_mem_print v⟩,
      newline_not_mem_members members⟩

end

end Dawgs.Lib.Json

import Dawgs.Lib.Lists
import Dawgs.Ref.Scrubber

/-!
# What a full scrub leaves in place

A text is left in place when the scrubbed property map has the same text at
the same path. `Changed` says that no text with something in it is, and every
action gets one lemma that says when it changes a value. Pseudonyms always
do, because no text is its own pseudonym. A redaction does unless a text it
replaces was the marker. A shift does for what it reaches, which is what lists
hold; below a map nothing moves. And keeping a value changes nothing.

`scrubProperties_iff` puts the plan on top. What is left over when every test
of the plan has said no is a value that is not like a string, and for such a
value to hold a text is to hold it inside of a map.
-/

namespace Dawgs.Ref.Scrub

open List Option

variable {A : Type}

/-- Induction over a value, with the hypothesis for whatever a container
holds. -/
theorem Value.within {P : Value A → Prop} (hstring : ∀ s, P (.string s)) (htime : ∀ t, P (.time t))
    (hint : ∀ n, P (.int n)) (hother : ∀ a, P (.other a)) (hstrings : ∀ items, P (.strings items))
    (hlist : ∀ items, (∀ v ∈ items, P v) → P (.list items))
    (hmap : ∀ entries : List (String × Value A), (∀ e ∈ entries, P e.2) → P (.map entries))
    (v : Value A) : P v :=
  @Value.rec A P (fun items => ∀ v ∈ items, P v)
    (fun entries => ∀ e ∈ entries, P e.2) (fun e => P e.2)
    hstring htime hint hother hstrings hlist hmap
    nofun (fun _ _ h hs => forall_mem_cons.mpr ⟨h, hs⟩)
    nofun (fun _ _ h hs => forall_mem_cons.mpr ⟨h, hs⟩) (fun _ _ h => h) v

/-! ## Texts and where they stand -/

/-- No text with something in it stands at its place in `w` as it does in
`v`. -/
def Changed (v w : Value A) : Prop :=
  ∀ path text, stringAt v path = some text → isBlank text = false → stringAt w path ≠ some text

/-- A text with something in it, anywhere. -/
def HoldsText (v : Value A) : Prop :=
  ∃ path text, stringAt v path = some text ∧ isBlank text = false

/-- A text with something in it, below a map that is reached through lists
only. -/
inductive HoldsMapped : Value A → Prop
  | map {entries} : HoldsText (.map entries) → HoldsMapped (.map entries)
  | item {items v} : v ∈ items → HoldsMapped v → HoldsMapped (.list items)

/-- A text that is reached through lists only. -/
inductive Listed (text : String) : Value A → Prop
  | string : Listed text (.string text)
  | strings {items} : text ∈ items → Listed text (.strings items)
  | item {items v} : v ∈ items → Listed text v → Listed text (.list items)

/-- A text that is the value or directly inside of it. -/
inductive Direct (text : String) : Value A → Prop
  | string : Direct text (.string text)
  | strings {items} : text ∈ items → Direct text (.strings items)
  | item {items} : .string text ∈ items → Direct text (.list items)
  | entry {entries key} : (key, .string text) ∈ entries → Direct text (.map entries)

variable {v : Value A} {items : List (Value A)} {text : String}

theorem changed_self : Changed v v ↔ ¬ HoldsText v := by
  constructor
  · rintro h ⟨path, text, hat, hb⟩
    exact h path text hat hb hat
  · intro h path text hat hb _
    exact h ⟨path, text, hat, hb⟩

theorem changed_of_no_text {w : Value A} (h : ¬ HoldsText v) : Changed v w := by
  intro path text hat hb _
  exact h ⟨path, text, hat, hb⟩

theorem changed_string {text' : String} :
    Changed (A := A) (.string text) (.string text') ↔ (isBlank text = false → text' ≠ text) := by
  constructor
  · intro h hb he
    exact h [] text rfl hb (congrArg some he)
  · rintro h (_ | ⟨i, path⟩) t hat hb he
    · obtain rfl := some.inj hat
      exact h hb (some.inj he)
    · cases hat

/-- A value with others inside, where a path starts with the number of one
of them. -/
theorem changed_items {B : Type} {items : List B} {f : B → B}
    {whole : List B → Value A} {part : B → Value A}
    (hnil : ∀ l, stringAt (whole l) [] = none)
    (hcons : ∀ l i path, stringAt (whole l) (i :: path) =
      l[i]?.bind fun b => stringAt (part b) path) :
    Changed (whole items) (whole (items.map f)) ↔ ∀ b ∈ items, Changed (part b) (part (f b)) := by
  constructor
  · intro h b hb path t hat ht he
    obtain ⟨i, hi⟩ := mem_iff_getElem?.mp hb
    refine h (i :: path) t ?_ ht ?_
    · rw [hcons, hi]
      exact hat
    · rw [hcons, List.getElem?_map, hi]
      exact he
  · rintro h (_ | ⟨i, path⟩) t hat ht he
    · cases (hnil _).symm.trans hat
    · rw [hcons] at hat he
      obtain ⟨b, hi, hb⟩ := bind_eq_some_iff.mp hat
      rw [List.getElem?_map, hi] at he
      exact h b (mem_of_getElem? hi) path t hb ht he

theorem changed_strings {items : List String} {f : String → String} :
    Changed (A := A) (.strings items) (.strings (items.map f)) ↔
      ∀ t ∈ items, isBlank t = false → f t ≠ t := by
  have hcons (l : List String) (i : Nat) (path : List Nat) :
      stringAt (A := A) (.strings l) (i :: path) =
        l[i]?.bind fun t => stringAt (A := A) (.string t) path := by
    cases path <;> simp [stringAt]
  simp only [changed_items (fun _ => rfl) hcons, changed_string]

theorem changed_list {f : Value A → Value A} :
    Changed (.list items) (.list (items.map f)) ↔ ∀ v ∈ items, Changed v (f v) :=
  changed_items (fun _ => rfl) fun _ _ _ => rfl

theorem changed_map {entries : List (String × Value A)} {f : String × Value A → String × Value A} :
    Changed (.map entries) (.map (entries.map f)) ↔ ∀ e ∈ entries, Changed e.2 (f e).2 :=
  changed_items (fun _ => rfl) fun _ _ _ => rfl

theorem not_holdsText (h : ∀ path, stringAt v path = none) : ¬ HoldsText v := by
  rintro ⟨path, text, hat, -⟩
  cases (h path).symm.trans hat

theorem holdsText_list : HoldsText (.list items) ↔ ∃ v ∈ items, HoldsText v := by
  have h : Changed (.list items) (.list (items.map id)) ↔ _ := changed_list
  simpa [changed_self] using not_congr h

/-! ## The actions -/

variable (s : ScrubberConfig A)

theorem pseudonymizeItems_eq (key : String) (items : List (Value A)) :
    pseudonymizeItems s key items =
      items.map fun v => pseudonymizeValue s key (classifyValue s v) v :=
  Lib.eq_map rfl (fun _ _ => rfl) items

theorem pseudonymizeEntries_eq (entries : List (String × Value A)) :
    pseudonymizeEntries s entries = entries.map fun e =>
      (e.1, pseudonymizeValue s e.1 (classifyValue s e.2) e.2) :=
  Lib.eq_map rfl (fun _ _ => rfl) entries

theorem shiftItems_eq (items : List (Value A)) :
    shiftItems s items = items.map (shiftTimestamp s) := Lib.eq_map rfl (fun _ _ => rfl) items

/-- No text is its own pseudonym. -/
def Unlinked : Prop := ∀ text shape, isBlank text = false → pseudonymizeString s text shape ≠ text

/-- A moment that is written and can be read is read as that moment. -/
def ReadsBack : Prop := ∀ t t', s.parseTime (s.formatTime t) = some t' → t' = t

section

variable {s : ScrubberConfig A}

theorem pseudonymizeValue_changed (hs : Unlinked s) (v : Value A) :
    ∀ key shape, Changed v (pseudonymizeValue s key shape v) := by
  induction v using Value.within with
  | hstring text =>
    intro key shape
    rw [pseudonymizeValue]
    split <;> exact (changed_string).mpr (hs text _)
  | htime | hint | hother =>
    exact fun _ _ => changed_of_no_text (not_holdsText fun path => by cases path <;> rfl)
  | hstrings items =>
    intro key shape
    exact (changed_strings).mpr fun t _ => hs t _
  | hlist items ih =>
    intro key shape
    rw [pseudonymizeValue, pseudonymizeItems_eq]
    exact (changed_list).mpr fun v hv => ih v hv key _
  | hmap entries ih =>
    intro key shape
    rw [pseudonymizeValue, pseudonymizeEntries_eq]
    exact (changed_map).mpr fun e he => ih e he e.1 _

variable {v : Value A}

/-- A text put in the place of a value is that value only if the value was
this text. -/
theorem changed_to_string :
    Changed v (.string text) ↔ (v = .string text → isBlank text = true) := by
  constructor
  · rintro h rfl
    by_contra hb
    exact h [] text rfl (Bool.eq_false_of_not_eq_true hb) rfl
  · rintro h (_ | ⟨i, path⟩) t hat hb he
    · obtain rfl : text = t := some.inj he
      cases v with
      | string t' =>
        obtain rfl := some.inj hat
        exact absurd (h rfl) (by simp [hb])
      | _ => cases hat
    · cases he

theorem redact_changed_iff :
    Changed v (redact s v) ↔ (Direct s.redactionMarker v → isBlank s.redactionMarker = true) := by
  cases v with
  | list items =>
    rw [redact, changed_list]
    simp only [changed_to_string]
    constructor
    · rintro h (_ | _ | hm)
      exact h _ hm rfl
    · rintro h v hv rfl
      exact h (.item hv)
  | strings items =>
    rw [redact, changed_strings]
    constructor
    · rintro h (_ | hm)
      by_contra hb
      exact h _ hm (Bool.eq_false_of_not_eq_true hb) rfl
    · rintro h t ht hb rfl
      exact absurd (h (.strings ht)) (by simp [hb])
  | map entries =>
    rw [redact, changed_map]
    simp only [changed_to_string]
    constructor
    · rintro h (_ | _ | _ | hm)
      exact h _ hm rfl
    · rintro h ⟨key, v⟩ hv rfl
      exact h (.entry hv)
  | string text =>
    refine (changed_to_string).trans ?_
    constructor
    · rintro h ⟨⟩
      exact h rfl
    · intro h he
      cases he
      exact h .string
  | _ => exact (changed_to_string).trans ⟨fun _ => nofun, fun _ => nofun⟩

/-- A shift leaves a text where it was only if it shifts by nothing and the
text is how the moment is written. -/
def Still (s : ScrubberConfig A) (text : String) : Prop :=
  shift s = 0 ∧ ∃ t, s.parseTime text = some t ∧ s.formatTime t = text

theorem shiftString_ne_iff (hs : Unlinked s) (ht : ReadsBack s) (hb : isBlank text = false) :
    shiftString s text ≠ text ↔ ¬ Still s text := by
  rw [shiftString]
  cases hp : s.parseTime text with
  | none =>
    refine ⟨fun _ => ?_, fun _ => hs text "" hb⟩
    rintro ⟨-, t, h, -⟩
    cases hp.symm.trans h
  | some t =>
    refine not_congr ⟨fun (he : s.formatTime (t + shift s) = text) => ?_, ?_⟩
    · have hread : t = t + shift s := ht _ _ (by rw [he, hp])
      have hzero : shift s = 0 := by omega
      exact ⟨hzero, t, hp, by simpa [hzero] using he⟩
    · rintro ⟨hzero, t', hp', hf⟩
      obtain rfl := some.inj (hp.symm.trans hp')
      show s.formatTime (t + shift s) = text
      rw [hzero, Int.add_zero, hf]

theorem shiftTimestamp_changed_iff (hs : Unlinked s) (ht : ReadsBack s) (v : Value A) :
    Changed v (shiftTimestamp s v) ↔ ¬ HoldsMapped v ∧
      ∀ text, Listed text v → isBlank text = false → ¬ Still s text := by
  induction v using Value.within with
  | hstring text =>
    rw [shiftTimestamp, changed_string]
    constructor
    · refine fun h => ⟨nofun, ?_⟩
      rintro _ ⟨⟩ hb
      exact (shiftString_ne_iff hs ht hb).mp (h hb)
    · exact fun h hb => (shiftString_ne_iff hs ht hb).mpr (h.2 _ .string hb)
  | htime | hint | hother =>
    refine iff_of_true (changed_of_no_text (not_holdsText fun path => ?_)) ⟨nofun, nofun⟩
    cases path <;> rfl
  | hstrings items =>
    rw [shiftTimestamp, changed_strings]
    constructor
    · refine fun h => ⟨nofun, ?_⟩
      rintro text (_ | hm) hb
      exact (shiftString_ne_iff hs ht hb).mp (h text hm hb)
    · exact fun h t hm hb =>
        (shiftString_ne_iff hs ht hb).mpr (h.2 t (.strings hm) hb)
  | hlist items ih =>
    rw [shiftTimestamp, shiftItems_eq, changed_list]
    constructor
    · refine fun h => ⟨?_, ?_⟩
      · rintro (_ | ⟨hm, hv⟩)
        exact ((ih _ hm).mp (h _ hm)).1 hv
      · rintro text (_ | _ | ⟨hm, hv⟩)
        exact ((ih _ hm).mp (h _ hm)).2 text hv
    · exact fun h v hm => (ih v hm).mpr ⟨fun hv => h.1 (.item hm hv),
          fun text hv => h.2 text (.item hm hv)⟩
  | hmap entries ih =>
    rw [shiftTimestamp, changed_self]
    exact ⟨fun h => ⟨fun (.map hm) => h hm, nofun⟩, fun h hm => h.1 (.map hm)⟩

theorem HoldsMapped.holdsText (h : HoldsMapped v) : HoldsText v := by
  induction h with
  | map h => exact h
  | item hm _ ih => exact (holdsText_list).mpr ⟨_, hm, ih⟩

theorem isStringLikeAny_eq_false :
    isStringLikeAny items = false ↔ ∀ v ∈ items, isStringLike v = false := by
  induction items with
  | nil => simp [isStringLikeAny]
  | cons v items ih => simp [isStringLikeAny, ih]

/-- What is not like a string has its texts inside of maps. -/
theorem HoldsText.mapped (h : HoldsText v) (hlike : isStringLike v = false) : HoldsMapped v := by
  induction v using Value.within with
  | hstring text =>
    obtain ⟨_ | _, t, hat, hb⟩ := h
    · obtain rfl := some.inj hat
      simp [isStringLike, hb] at hlike
    · cases hat
  | htime | hint | hother => exact absurd h (not_holdsText fun path => by cases path <;> rfl)
  | hstrings items =>
    obtain rfl : items = [] := by simpa [isStringLike] using hlike
    obtain ⟨_ | ⟨i, _ | _⟩, t, hat, -⟩ := h <;> cases hat
  | hlist items ih =>
    obtain ⟨v, hm, hv⟩ := (holdsText_list).mp h
    rw [isStringLike, isStringLikeAny_eq_false] at hlike
    exact .item hm (ih v hm hv (hlike v hm))
  | hmap entries ih => exact .map h

end

/-! ## The plan -/

section

variable (key : String) (v : Value A)

/-- A reference key, with a value the plan takes for a reference. -/
def byReference : Bool :=
  s.referenceKeys.contains (normalizeKey key) && isStringLike v

/-- What makes the plan redact a value that is no reference and no
timestamp. -/
def toRedact : Bool :=
  let k := normalizeKey key
  isFreeTextKey k || !isPathKey k && !isScriptKey k && shouldRedact s k v

/-- What makes the plan treat a value that is no reference and no timestamp
at all. -/
def isTold : Bool :=
  let k := normalizeKey key
  isFreeTextKey k || isPathKey k || isScriptKey k || shouldRedact s k v ||
    classifyValue s v ≠ "" || isSensitiveKey s k || isSemanticOrgKey k ||
    isStringLike v

end

/-- A value the scrubber leaves nothing of: what it holds inside of maps is
under a key or of a shape that tells, a redaction finds no marker, and a shift
that moves nothing finds no canonical timestamp. -/
structure Covered (s : ScrubberConfig A) (key : String) (v : Value A) : Prop where
  mapped : HoldsMapped v → byReference s key v = false →
    isTimestampKey (normalizeKey key) = false ∧ isTold s key v = true
  marker : byReference s key v = false →
    isTimestampKey (normalizeKey key) = false → toRedact s key v = true →
    Direct s.redactionMarker v → isBlank s.redactionMarker = true
  shifted : byReference s key v = false → isTimestampKey (normalizeKey key) = true →
    ∀ text, Listed text v → isBlank text = false → ¬ Still s text

/-- `planProperty` for a key that is not preserved, with the branches of one
action together. -/
theorem planProperty_cases {key : String}
    (hkey : s.preserveKeys.contains (normalizeKey key) = false) (v : Value A) :
    (byReference s key v = true ∧ (planProperty s key v).1 = .pseudonymize) ∨
    (byReference s key v = false ∧ isTimestampKey (normalizeKey key) = true ∧
      (planProperty s key v).1 = .shiftTimestamp) ∨
    (byReference s key v = false ∧ isTimestampKey (normalizeKey key) = false ∧
      ((toRedact s key v = true ∧ isTold s key v = true ∧ (planProperty s key v).1 = .redact) ∨
        (toRedact s key v = false ∧ isTold s key v = true ∧
          (planProperty s key v).1 = .pseudonymize) ∨
        (toRedact s key v = false ∧ isTold s key v = false ∧
          (planProperty s key v).1 = .preserve))) := by
  unfold planProperty byReference
  by_cases hr : (s.referenceKeys.contains (normalizeKey key) && isStringLike v) = true
  · exact .inl ⟨hr, by rw [if_pos hr]⟩
  · refine .inr ?_
    rw [if_neg hr, if_neg (Bool.eq_false_iff.mp hkey)]
    simp only [hr, true_and]
    by_cases hk : isTimestampKey (normalizeKey key) = true
    · exact .inl ⟨hk, by rw [if_pos hk]⟩
    · refine .inr ⟨Bool.eq_false_of_not_eq_true hk, ?_⟩
      unfold toRedact isTold
      split_ifs <;> simp_all

theorem scrubProperty_changed_iff {s : ScrubberConfig A} (hs : Unlinked s)
    (ht : ReadsBack s) {key : String} (hkey : s.preserveKeys.contains (normalizeKey key) = false) :
    Changed v (scrubProperty s key v) ↔ Covered s key v := by
  rw [scrubProperty, scrubWithPlan]
  rcases planProperty_cases s hkey v with
    ⟨hr, hp⟩ | ⟨hr, hk, hp⟩ | ⟨hr, hk, ⟨hred, htold, hp⟩ |
      ⟨hred, htold, hp⟩ | ⟨hred, htold, hp⟩⟩
  · rw [hp]
    exact iff_of_true (pseudonymizeValue_changed hs v _ _)
      ⟨by simp [hr], by simp [hr], by simp [hr]⟩
  · rw [hp]
    refine (shiftTimestamp_changed_iff hs ht v).trans ⟨fun h => ?_, fun h => ?_⟩
    · exact ⟨fun hm => absurd hm h.1, by simp [hk], fun _ _ => h.2⟩
    · refine ⟨fun hm => ?_, h.shifted hr hk⟩
      cases hk.symm.trans (h.mapped hm hr).1
  · rw [hp]
    refine (redact_changed_iff).trans ⟨fun h => ?_, fun h => h.marker hr hk hred⟩
    exact ⟨fun _ _ => ⟨hk, htold⟩, fun _ _ _ => h, by simp [hk]⟩
  · rw [hp]
    exact iff_of_true (pseudonymizeValue_changed hs v _ _)
      ⟨fun _ _ => ⟨hk, htold⟩, by simp [hred], by simp [hk]⟩
  · rw [hp]
    refine (changed_self).trans ⟨fun h => ?_, fun h hm => ?_⟩
    · exact ⟨fun hm => absurd hm.holdsText h, by simp [hred], by simp [hk]⟩
    · have hlike : isStringLike v = false := by
        simp only [isTold, Bool.or_eq_false_iff] at htold
        exact htold.2
      cases htold.symm.trans (h.mapped (hm.mapped hlike) hr).2

/-- The pseudonyms a digest can give where no SID of an object is found. -/
def sampleForms (digest : String) : List String :=
  ["user-" ++ piece digest 0 12 ++ "@example.invalid", fakeUUID digest,
    fakeDomainSID digest, "value-" ++ piece digest 0 16, fakeAddress digest,
    "host-" ++ piece digest 0 12 ++ ".example.invalid"]

def digestOf (c : Char) : String := String.ofList (List.replicate 64 c)

/-- The embedded defaults without the value shapes. The digest has two values
and is none of its own inverse images. -/
def sampleConfig : ScrubberConfig Unit where
  fakeDomain := "example.invalid"
  timestampShiftDays := 17
  redactionMarker := "[REDACTED]"
  referenceKeys := ["domainsid", "domain_sid", "objectid", "object_id", "sid",
    "owner_sid", "primarygroupid", "objectsid", "domain", "domain_name"]
  longTextThreshold := 512
  preserveKeys := ["objectid", "domainsid", "kind"]
  sensitiveKeyMarks := ["password", "secret", "token", "credential",
    "privatekey", "private_key", "apikey", "api_key", "email", "mail",
    "phone", "address", "name", "displayname", "samaccountname",
    "userprincipalname", "dns", "hostname"]
  valueShapes := []
  digest text :=
    if text ∈ sampleForms (digestOf 'f') then digestOf 'e' else digestOf 'f'
  emailPattern _ := false
  uuidPattern _ := false
  domainSIDPattern _ := false
  objectSIDPattern _ := none
  ipv4Pattern _ := false
  hostLikePattern _ := false
  secretValuePattern k := contains k "password"
  parseTime text := if text = "1970-01-01T00:00:00Z" then some 0 else none
  formatTime t := if t = 0 then "1970-01-01T00:00:00Z" else "later"
  addSeconds a _ := a

theorem pseudonymizeString_mem_sampleForms {s : ScrubberConfig A}
    (hdomain : s.fakeDomain = "example.invalid") (hsid : s.objectSIDPattern = fun _ => none)
    (hb : isBlank text = false) (shape : String) :
    pseudonymizeString s text shape ∈ sampleForms (s.digest (trimSpace text)) := by
  have hne : ¬ trimSpace text = "" := by simpa [isBlank] using hb
  rw [pseudonymizeString, pseudonymForm]
  simp only [hsid, hdomain, sampleForms]
  split_ifs <;> simp [String.append_assoc]

theorem digest_sampleConfig (text : String) : (newScrubber sampleConfig).digest text =
      if text ∈ sampleForms (digestOf 'f') then digestOf 'e'
      else digestOf 'f' := rfl

theorem fakeDomain_sampleConfig : (newScrubber sampleConfig).fakeDomain = "example.invalid" := by
  decide +kernel

theorem unlinked_sampleConfig : Unlinked (newScrubber sampleConfig) := by
  intro text shape hb heq
  have hmem := pseudonymizeString_mem_sampleForms fakeDomain_sampleConfig rfl hb shape
  rw [heq, digest_sampleConfig] at hmem
  have htrim : ∀ x ∈ sampleForms (digestOf 'f') ++ sampleForms (digestOf 'e'), trimSpace x = x := by
    decide +kernel
  have hapart : ∀ x ∈ sampleForms (digestOf 'e'), x ∉ sampleForms (digestOf 'f') := by
    decide +kernel
  split at hmem
  next h =>
    rw [htrim text (mem_append_right _ hmem)] at h
    exact hapart text hmem h
  next h => exact h ((htrim text (mem_append_left _ hmem)).symm ▸ hmem)

theorem readsBack_sampleConfig : ReadsBack (newScrubber sampleConfig) := by
  intro t t' h
  simp only [newScrubber, sampleConfig] at h
  split_ifs at h with hz
  · exact (some.inj h).symm.trans hz.symm
  · simp_all

def nestedAlice : Value Unit := .map [("x", .string "alice")]

end Dawgs.Ref.Scrub

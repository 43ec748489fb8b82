import Dawgs.Proofs.Scrubber

/-!
# Pseudonyms

Next to the text, `pseudonymizeString` is given a shape, which comes from the
value around the text, and the plan that leads there comes from a cache of the
plans for keys. With the embedded defaults neither matters: the shapes are the
ones that it asks for itself, in its order, and a plan in the cache is the one
that would be made. What matters is the spelling. The setting
`case_insensitive_domain_names` is decoded and read nowhere, so that a
configuration here has no place for it.
-/

namespace Dawgs.Ref.Scrub

open List Function

variable {A : Type} (s : ScrubberConfig A)

structure PropertyKeyPlan where
  normalized : String
  reference : Bool
  preserve : Bool
  timestamp : Bool
  freeText : Bool
  path : Bool
  script : Bool
  sensitive : Bool
  semantic : Bool

/-- The plan that `planKey` makes. -/
def newKeyPlan (normalized : String) : PropertyKeyPlan where
  normalized
  reference := s.referenceKeys.contains normalized
  preserve := s.preserveKeys.contains normalized
  timestamp := isTimestampKey normalized
  freeText := isFreeTextKey normalized
  path := isPathKey normalized
  script := isScriptKey normalized
  sensitive := isSensitiveKey s normalized
  semantic := isSemanticOrgKey normalized

/-- The plans made so far, under their keys. -/
structure PlanCache where
  plans : String → Option PropertyKeyPlan
  size : Nat

/-- `planKey`, with the cache after it. -/
def planKey (cache : PlanCache) (key : String) : PropertyKeyPlan × PlanCache :=
  let normalized := normalizeKey key
  match cache.plans normalized with
  | some plan => (plan, cache)
  | none =>
    let plan := newKeyPlan s normalized
    (plan, if cache.size < 4096 then
      ⟨update cache.plans normalized (some plan), cache.size + 1⟩ else cache)

/-- `planProperty`, over what `planKey` says of the key. -/
def planWithKey (plan : PropertyKeyPlan) (value : Value A) : PropertyAction × String :=
  if plan.reference && isStringLike value then (.pseudonymize, classifyValue s value)
  else if plan.preserve then (.preserve, "")
  else if plan.timestamp then (.shiftTimestamp, "")
  else if plan.freeText then (.redact, "")
  else if plan.path then (.pseudonymize, classifyValue s value)
  else if plan.script then (.pseudonymize, classifyValue s value)
  else if shouldRedact s plan.normalized value then (.redact, "")
  else if classifyValue s value ≠ "" then (.pseudonymize, classifyValue s value)
  else if plan.sensitive then (.pseudonymize, "")
  else if plan.semantic || isStringLike value then (.pseudonymize, classifyValue s value)
  else (.preserve, "")

/-- The cache after properties of these keys. -/
def cacheAfter (keys : List String) : PlanCache :=
  keys.foldl (fun cache key => (planKey s cache key).2) ⟨fun _ => none, 0⟩

/-- `scrubProperty`, after properties of the keys `before`. -/
def scrubAfter (before : List String) (key : String) (value : Value A) : PropertyAction × Value A :=
  let plan := planWithKey s (planKey s (cacheAfter s before) key).1 value
  (plan.1, scrubWithPlan s key value plan)

/-- The embedded value shapes. -/
def defaultShapes : List (String × (String → Bool)) :=
  [("email", s.emailPattern), ("uuid", s.uuidPattern), ("domain_sid", s.domainSIDPattern),
    ("object_sid", fun t => (s.objectSIDPattern t).isSome), ("ipv4", s.ipv4Pattern),
    ("host", s.hostLikePattern)]

/-- A scrubber with the embedded value shapes, and what their patterns have to
do with each other: the domain of an object's SID is the SID of a domain, and
neither is anything else that is asked for before. -/
structure DefaultShapes (s : ScrubberConfig A) : Prop where
  shapes : s.valueShapes = defaultShapes s
  domain : ∀ {t d rid}, s.objectSIDPattern t = some (d, rid) →
    trimSpace d = d ∧ d ≠ "" ∧ s.domainSIDPattern d = true
  apart : ∀ {t d rid}, s.objectSIDPattern t = some (d, rid) →
    t ≠ "" ∧ s.domainSIDPattern t = false ∧
      ∀ u ∈ [t, d], s.emailPattern u = false ∧ s.uuidPattern u = false

variable {s}

theorem planKey_after (before : List String) (key : String) :
    (planKey s (cacheAfter s before) key).1 = newKeyPlan s (normalizeKey key) := by
  -- A plan in the cache is the one that would be made.
  let Sound (cache : PlanCache) := ∀ n plan, cache.plans n = some plan → plan = newKeyPlan s n
  have hstep : ∀ {cache : PlanCache} (key : String), Sound cache →
      (planKey s cache key).1 = newKeyPlan s (normalizeKey key) ∧
        Sound (planKey s cache key).2 := by
    intro cache key h
    cases hplan : cache.plans (normalizeKey key) with
    | some plan =>
      simp only [planKey, hplan]
      exact ⟨h _ _ hplan, h⟩
    | none =>
      simp only [planKey, hplan, true_and]
      split
      · intro n plan hn
        by_cases hk : n = normalizeKey key
        · simp_all
        · exact h n plan (by simpa [hk] using hn)
      · exact h
  have hafter : Sound (cacheAfter s before) :=
    foldlRecOn before (fun cache key => (planKey s cache key).2) nofun
      fun cache h key _ => (hstep key h).2
  exact (hstep key hafter).1

theorem scrubAfter_eq (before : List String) (key : String) (v : Value A) :
    scrubAfter s before key v = ((planProperty s key v).1, scrubProperty s key v) := by
  have hplan : planWithKey s (newKeyPlan s (normalizeKey key)) v = planProperty s key v := rfl
  rw [scrubAfter, planKey_after, hplan, scrubProperty]

theorem pseudonymizeString_trim {a b : String} (hb : isBlank a = false)
    (h : trimSpace a = trimSpace b) (shape : String) :
    pseudonymizeString s a shape = pseudonymizeString s b shape := by
  have ha : trimSpace a ≠ "" := by simpa [isBlank] using hb
  simp only [pseudonymizeString, pseudonymForm, ← h, if_neg ha]

/-- The shape that is found is the one that would be asked for. -/
theorem pseudonymizeString_classify (hs : DefaultShapes s) (text : String) :
    pseudonymizeString s text (classifyString s text) = pseudonymizeString s text "" := by
  by_cases hb : isBlank text = true
  · rw [classifyString, if_pos hb]
  rw [classifyString, if_neg hb, hs.shapes, defaultShapes]
  simp only [pseudonymizeString, pseudonymForm]
  cases he : s.emailPattern (trimSpace text) <;> cases hu : s.uuidPattern (trimSpace text) <;>
    cases hd : s.domainSIDPattern (trimSpace text) <;>
    cases ho : s.objectSIDPattern (trimSpace text) <;>
    cases hi : s.ipv4Pattern (trimSpace text) <;> cases hh : s.hostLikePattern (trimSpace text) <;>
    simp [he, hu, hd, ho, hi, hh]

/-- The shape a text at a place is pseudonymized with. -/
def shapeAt (s : ScrubberConfig A) (key shape : String) (path : List Nat) (text : String) :
    String :=
  if path = [] ∧ s.referenceKeys.contains (normalizeKey key) = false then shape
  else classifyString s text

/-- Wherever a text stands, its pseudonym stands there afterwards. -/
theorem stringAt_pseudonymizeValue (v : Value A) :
    ∀ key shape path text, stringAt v path = some text →
      stringAt (pseudonymizeValue s key shape v) path =
        some (pseudonymizeString s text (shapeAt s key shape path text)) := by
  -- What is inside of a container is classified by itself.
  have hinner : ∀ {v : Value A} {path text} inner key shape i, stringAt v path = some text →
      shapeAt s inner (classifyValue s v) path text = shapeAt s key shape (i :: path) text := by
    intro v path text inner key shape i h
    cases path with
    | nil => cases v <;> simp_all [stringAt, shapeAt, classifyValue]
    | cons j path => simp [shapeAt]
  induction v using Value.within with
  | hstring t =>
    intro key shape path text h
    cases path with
    | nil =>
      cases h
      rw [pseudonymizeValue]
      split <;> simp_all [stringAt, shapeAt]
    | cons i path => cases h
  | htime | hint | hother => intro key shape path text h; cases path <;> cases h
  | hstrings items =>
    intro key shape path text h
    rcases path with _ | ⟨i, _ | ⟨j, path⟩⟩
    · cases h
    · simp_all [pseudonymizeValue, stringAt, shapeAt]
    · cases h
  | hlist items ih =>
    intro key shape path text h
    cases path with
    | nil => cases h
    | cons i path =>
      obtain ⟨v, hv, h⟩ := Option.bind_eq_some_iff.mp h
      rw [pseudonymizeValue, pseudonymizeItems_eq, stringAt, List.getElem?_map, hv,
        ← hinner key key shape i h]
      exact ih v (mem_of_getElem? hv) key _ path text h
  | hmap entries ih =>
    intro key shape path text h
    cases path with
    | nil => cases h
    | cons i path =>
      obtain ⟨e, he, h⟩ := Option.bind_eq_some_iff.mp h
      rw [pseudonymizeValue, pseudonymizeEntries_eq, stringAt, List.getElem?_map, he,
        ← hinner e.1 key shape i h]
      exact ih e (mem_of_getElem? he) e.1 _ path text h

/-- A text under a key for times that is no time becomes its pseudonym, unless
a map around it keeps it. -/
theorem stringAt_shiftTimestamp (v : Value A) :
    ∀ path text, stringAt v path = some text → s.parseTime text = none →
      stringAt (shiftTimestamp s v) path ∈ [some text, some (pseudonymizeString s text "")] := by
  induction v using Value.within with
  | hstring t =>
    intro path text h hno
    cases path with
    | nil =>
      cases h
      simp [shiftTimestamp, stringAt, shiftString, hno]
    | cons i path => cases h
  | htime | hint | hother => intro path text h; cases path <;> cases h
  | hstrings items =>
    intro path text h hno
    rcases path with _ | ⟨i, _ | ⟨j, path⟩⟩
    · cases h
    · simp_all [shiftTimestamp, stringAt, shiftString]
    · cases h
  | hlist items ih =>
    intro path text h hno
    cases path with
    | nil => cases h
    | cons i path =>
      obtain ⟨v, hv, h⟩ := Option.bind_eq_some_iff.mp h
      rw [shiftTimestamp, shiftItems_eq, stringAt, List.getElem?_map, hv]
      exact ih v (mem_of_getElem? hv) path text h hno
  | hmap entries ih =>
    intro path text h hno
    rw [shiftTimestamp, h]
    exact mem_cons_self

theorem planProperty_shape (key : String) (v : Value A) :
    (planProperty s key v).2 = "" ∨ (planProperty s key v).2 = classifyValue s v := by
  unfold planProperty
  dsimp only
  split_ifs <;> simp

theorem pseudonymizeString_shapeAt (hs : DefaultShapes s) {key shape : String} {v : Value A}
    {path : List Nat} {text : String} (hshape : shape = "" ∨ shape = classifyValue s v)
    (h : stringAt v path = some text) :
    pseudonymizeString s text (shapeAt s key shape path text) = pseudonymizeString s text "" := by
  rw [shapeAt]
  split
  next hpath =>
    rcases hshape with rfl | rfl
    · rfl
    · obtain ⟨rfl, -⟩ := hpath
      cases v <;> simp_all [stringAt, classifyValue, pseudonymizeString_classify hs]
  · exact pseudonymizeString_classify hs text

/-- Patterns for the SIDs of a domain and of an object in it, and for two
spellings of a name. -/
def patternConfig : ScrubberConfig Unit :=
  { sampleConfig with
    digest := fun t => digestOf (if t = "A.example" then 'a' else 'b')
    domainSIDPattern := (· = "S-1-5-21-1-2-3")
    objectSIDPattern := fun t =>
      if t = "S-1-5-21-1-2-3-9" then some ("S-1-5-21-1-2-3", "9") else none
    hostLikePattern := (· ∈ ["A.example", "a.example"]) }

/-- The rules for the graph are decoded with the rest, and nothing reads this
one. -/
structure ScrubberFileConfig (A : Type) extends ScrubberConfig A where
  caseInsensitiveDomainNames : Bool

/-- A name, with dots or not, that is none of the other things the scrubber
knows. -/
structure IsDomainName (s : ScrubberConfig A) (t : String) : Prop where
  nonblank : isBlank t = false
  other : s.emailPattern (trimSpace t) = false ∧ s.uuidPattern (trimSpace t) = false ∧
    s.domainSIDPattern (trimSpace t) = false ∧ s.objectSIDPattern (trimSpace t) = none ∧
    s.ipv4Pattern (trimSpace t) = false

theorem IsDomainName.pseudonym {t : String} (h : IsDomainName s t) :
    pseudonymizeString s t "" =
      if s.hostLikePattern (trimSpace t) then
        "host-" ++ piece (s.digest (trimSpace t)) 0 12 ++ "." ++ s.fakeDomain
      else "value-" ++ piece (s.digest (trimSpace t)) 0 16 := by
  have hb : trimSpace t ≠ "" := by simpa [isBlank] using h.nonblank
  simp [pseudonymizeString, pseudonymForm, hb, h.other]

/-- For every configuration, and two names, both with dots or both without, that
the digest tells apart if they are spelled apart: they have the same pseudonym,
under every key and in every container, exactly when they are spelled the
same. -/
theorem domain_names_iff (cfg : ScrubberFileConfig A) {a b : String}
    (ha : IsDomainName (newScrubber cfg.toScrubberConfig) a)
    (hb : IsDomainName (newScrubber cfg.toScrubberConfig) b)
    (hdots : cfg.hostLikePattern (trimSpace a) = cfg.hostLikePattern (trimSpace b))
    (hdigest : ∀ n ≥ 12, piece (cfg.digest (trimSpace a)) 0 n =
      piece (cfg.digest (trimSpace b)) 0 n → trimSpace a = trimSpace b) :
    (∀ key shape path v w, stringAt v path = some a → stringAt w path = some b →
      stringAt (pseudonymizeValue (newScrubber cfg.toScrubberConfig) key shape v) path =
        stringAt (pseudonymizeValue (newScrubber cfg.toScrubberConfig) key shape w) path) ↔
      trimSpace a = trimSpace b := by
  constructor
  · intro h
    -- No reference key is empty, so the shape is the one that is given.
    have hkey : (newScrubber cfg.toScrubberConfig).referenceKeys.contains (normalizeKey "") =
        false := by
      rw [show normalizeKey "" = "" by decide +kernel]
      simp [newScrubber]
    have h := h "" "" [] (.string a) (.string b) rfl rfl
    rw [stringAt_pseudonymizeValue _ _ _ _ _ rfl, stringAt_pseudonymizeValue _ _ _ _ _ rfl, shapeAt,
      shapeAt, if_pos ⟨rfl, hkey⟩, if_pos ⟨rfl, hkey⟩, ha.pseudonym, hb.pseudonym] at h
    have hdots : (newScrubber cfg.toScrubberConfig).hostLikePattern (trimSpace a) =
        (newScrubber cfg.toScrubberConfig).hostLikePattern (trimSpace b) := hdots
    rw [hdots] at h
    split at h <;>
      simp only [Option.some.injEq, String.append_left_inj, String.append_right_inj] at h
    · exact hdigest 12 (by decide) h
    · exact hdigest 16 (by decide) h
  · intro h key shape path v w hv hw
    have hclass : classifyString (newScrubber cfg.toScrubberConfig) a =
        classifyString (newScrubber cfg.toScrubberConfig) b := by
      unfold classifyString isBlank
      rw [h]
    rw [stringAt_pseudonymizeValue v _ _ _ _ hv, stringAt_pseudonymizeValue w _ _ _ _ hw, shapeAt,
      shapeAt, hclass, pseudonymizeString_trim ha.nonblank h]

theorem isDomainName_sample : ∀ t ∈ ["A.example", "a.example", " a.example"],
    IsDomainName (newScrubber patternConfig) t := by
  intro t ht
  simp only [mem_cons, not_mem_nil, or_false] at ht
  rcases ht with rfl | rfl | rfl <;> constructor <;> decide +kernel

theorem domain_names_iff_space :
    trimSpace "a.example" = trimSpace " a.example" ∧ ∀ key shape path v w,
      stringAt v path = some "a.example" → stringAt w path = some " a.example" →
      stringAt (pseudonymizeValue (newScrubber patternConfig) key shape v) path =
        stringAt (pseudonymizeValue (newScrubber patternConfig) key shape w) path := by
  have htrim : trimSpace "a.example" = trimSpace " a.example" := by decide +kernel
  exact ⟨htrim, (domain_names_iff ⟨patternConfig, true⟩ (isDomainName_sample _ (by simp))
    (isDomainName_sample _ (by simp)) (congrArg _ htrim) fun _ _ _ => htrim).mpr htrim⟩

/-- Two spellings of a domain's name have two pseudonyms. -/
theorem spellings_apart :
    let s := newScrubber (ScrubberFileConfig.mk patternConfig true).toScrubberConfig
    IsDomainName s "A.example" ∧ IsDomainName s "a.example" ∧
      "A.example".toLower = "a.example".toLower ∧
      stringAt (scrubProperty s "domain" (.string "A.example")) [] ≠
        stringAt (scrubProperty s "domain" (.string "a.example")) [] :=
  ⟨isDomainName_sample _ (by simp), isDomainName_sample _ (by simp), by decide +kernel,
    by decide +kernel⟩

end Dawgs.Ref.Scrub

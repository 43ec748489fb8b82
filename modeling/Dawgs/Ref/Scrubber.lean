import Dawgs.Ref.TranslationCache

/-!
# The property scrubber of the retriever

A dump in full scrub mode sends every property of every node and relationship
through `scrubProperty`. It first plans: from the normalized key and the
shape of the value it picks one of four actions, and the first test that says
yes decides. Then it runs the action over the value, which may be a text, a
list of texts, a list or a map of values, to any depth.

The four actions do not go equally deep. `pseudonymizeValue` has a case for
every container. `redact` replaces what is directly inside one.
`shiftTimestamp` goes through lists and hands maps back. And
`isStringLike`, the test that decides whether a value without a telling key
or shape is pseudonymized at all, looks into lists and not into maps.

The regular expressions, the keyed digest and the time format are parameters.
The pseudonyms are written as the source writes them, over the digest.
-/

namespace Dawgs.Ref.Scrub

/-- What a property may hold. A moment is a count of nanoseconds; `other` is
every value without a text and without a container. -/
inductive Value (A : Type) where
  | string (s : String)
  | time (t : Int)
  | int (n : Int)
  | other (a : A)
  | strings (items : List String)
  | list (items : List (Value A))
  | map (entries : List (String × Value A))

/-- What `newScrubber` is given: the parts of `ScrubberConfig` that are read
here, with each value shape's compiled pattern, the digest under the salt and
the fixed patterns of the package. -/
structure ScrubberConfig (A : Type) where
  fakeDomain : String
  timestampShiftDays : Int
  redactionMarker : String
  referenceKeys : List String
  longTextThreshold : Int
  preserveKeys : List String
  sensitiveKeyMarks : List String
  valueShapes : List (String × (String → Bool))
  digest : String → String
  emailPattern : String → Bool
  uuidPattern : String → Bool
  domainSIDPattern : String → Bool
  objectSIDPattern : String → Option (String × String)
  ipv4Pattern : String → Bool
  hostLikePattern : String → Bool
  secretValuePattern : String → Bool
  /-- `time.Parse(time.RFC3339Nano, ·)`. -/
  parseTime : String → Option Int
  /-- `t.UTC().Format(time.RFC3339Nano)`. -/
  formatTime : Int → String
  /-- The sum of a floating point number and a count of seconds; any other
  value stays. -/
  addSeconds : A → Int → A

def isBlank (s : String) : Bool := trimSpace s = ""

def contains (text part : String) : Bool := part.toList <:+: text.toList

def normalizeKey (value : String) : String :=
  String.ofList ((trimSpace value).toLower.toList.filter fun c => c ≠ '-' ∧ c ≠ '_' ∧ c ≠ ' ')

/-- `strings.Trim(·, ".")`. -/
def trimDots (value : String) : String :=
  String.ofList (((value.toList.dropWhile (· = '.')).reverse.dropWhile (· = '.')).reverse)

variable {A : Type}

/-- `newScrubber`: the defaults of what is left out, the keys normalized. -/
def newScrubber (cfg : ScrubberConfig A) : ScrubberConfig A :=
  let marker := trimSpace cfg.redactionMarker
  { cfg with
    fakeDomain := trimDots (trimSpace cfg.fakeDomain).toLower
    redactionMarker := if marker = "" then "[REDACTED]" else marker
    longTextThreshold :=
      if cfg.longTextThreshold ≤ 0 then 512 else cfg.longTextThreshold
    timestampShiftDays :=
      if cfg.timestampShiftDays = 0 then 17 else cfg.timestampShiftDays
    preserveKeys := cfg.preserveKeys.map normalizeKey
    referenceKeys := (cfg.referenceKeys.map normalizeKey).filter (· ≠ "")
    sensitiveKeyMarks := (cfg.sensitiveKeyMarks.map normalizeKey).filter (· ≠ "")
    valueShapes := cfg.valueShapes.filter fun shape => !isBlank shape.1 }

/-! ## What a key says -/

def isTimestampKey (k : String) : Bool :=
  ["time", "date", "created", "updated", "deleted", "modified"].any
    (contains k) || "seenat".toList.isSuffixOf k.toList

def isFreeTextKey (k : String) : Bool :=
  ["description", "comment", "note"].any (contains k) || k = "info"

def isPathKey (k : String) : Bool := ["path", "directory", "homedir", "folder"].any (contains k)

def isScriptKey (k : String) : Bool := contains k "script"

def isSemanticOrgKey (k : String) : Bool :=
  k ∈ ["title", "department", "division", "company", "organization", "office", "location"]

variable (s : ScrubberConfig A)

def isSensitiveKey (k : String) : Bool := s.sensitiveKeyMarks.any (contains k)

/-! ## What a value says -/

def classifyString (value : String) : String :=
  if isBlank value then ""
  else match s.valueShapes.find? fun rule => rule.2 (trimSpace value) with
    | some rule => rule.1
    | none => ""

def firstShape (shapes : List String) : String := (shapes.find? (· ≠ "")).getD ""

mutual

def isStringLike : Value A → Bool
  | .string s => !isBlank s
  | .list items => isStringLikeAny items
  | .strings items => 0 < items.length
  | _ => false

def isStringLikeAny : List (Value A) → Bool
  | [] => false
  | item :: items => isStringLike item || isStringLikeAny items

end

/-- `len` of a text counts its bytes. -/
def isLong (text : String) : Bool := s.longTextThreshold < text.utf8ByteSize

mutual

def shouldRedact (s : ScrubberConfig A) (k : String) : Value A → Bool
  | .string text => s.secretValuePattern k || isLong s text
  | .list items => s.secretValuePattern k || shouldRedactAny s k items
  | .strings items => s.secretValuePattern k || items.any (isLong s)
  | _ => s.secretValuePattern k

def shouldRedactAny (s : ScrubberConfig A) (k : String) : List (Value A) → Bool
  | [] => false
  | item :: items => shouldRedact s k item || shouldRedactAny s k items

end

mutual

def classifyValue (s : ScrubberConfig A) : Value A → String
  | .string text => classifyString s text
  | .list items => classifyAny s items
  | .strings items => firstShape (items.map (classifyString s))
  | _ => ""

def classifyAny (s : ScrubberConfig A) : List (Value A) → String
  | [] => ""
  | item :: items =>
    if classifyValue s item ≠ "" then classifyValue s item
    else classifyAny s items

end

/-! ## The plan -/

inductive PropertyAction where
  | preserve | pseudonymize | redact | shiftTimestamp
deriving DecidableEq

/-- `planProperty`, with `planKey` in it: the cache of the key plans only
saves work. -/
def planProperty (key : String) (value : Value A) : PropertyAction × String :=
  let k := normalizeKey key
  if s.referenceKeys.contains k && isStringLike value then
    (.pseudonymize, classifyValue s value)
  else if s.preserveKeys.contains k then (.preserve, "")
  else if isTimestampKey k then (.shiftTimestamp, "")
  else if isFreeTextKey k then (.redact, "")
  else if isPathKey k then (.pseudonymize, classifyValue s value)
  else if isScriptKey k then (.pseudonymize, classifyValue s value)
  else if shouldRedact s k value then (.redact, "")
  else if classifyValue s value ≠ "" then
    (.pseudonymize, classifyValue s value)
  else if isSensitiveKey s k then (.pseudonymize, "")
  else if isSemanticOrgKey k || isStringLike value then
    (.pseudonymize, classifyValue s value)
  else (.preserve, "")

/-! ## The actions -/

def hexDigit (c : Char) : Nat :=
  if c.isDigit then c.toNat - '0'.toNat else c.toNat - 'a'.toNat + 10

def intFromHex (digits : List Char) : Nat := digits.foldl (fun n c => 16 * n + hexDigit c) 0

/-- `digest[from:to]`. -/
def cut (digest : String) (start stop : Nat) : List Char :=
  (digest.toList.drop start).take (stop - start)

def piece (digest : String) (start stop : Nat) : String := String.ofList (cut digest start stop)

/-- `%09d` of a number under the billion. -/
def nineDigits (n : Nat) : String :=
  let digits := Nat.toDigits 10 n
  String.ofList (List.replicate (9 - digits.length) '0' ++ digits)

def fakeDomainSID (digest : String) : String :=
  let part := fun start stop =>
    nineDigits (intFromHex (cut digest start stop) % 1000000000)
  "S-1-5-21-" ++ part 0 8 ++ "-" ++ part 8 16 ++ "-" ++ part 16 24

def fakeAddress (digest : String) : String :=
  let part := fun start stop => toString (intFromHex (cut digest start stop))
  "10." ++ part 0 2 ++ "." ++ part 2 4 ++ "." ++ part 4 6

def fakeUUID (digest : String) : String :=
  piece digest 0 8 ++ "-" ++ piece digest 8 12 ++ "-" ++ piece digest 12 16
    ++ "-" ++ piece digest 16 20 ++ "-" ++ piece digest 20 32

/-- The body of `pseudonymizeString`, over its call of itself for the domain
part of an object's SID. -/
def pseudonymForm (domainPart : String → String) (value shape : String) : String :=
  let trimmed := trimSpace value
  let digest := s.digest trimmed
  if trimmed = "" then value
  else if shape = "email" || s.emailPattern trimmed then
    "user-" ++ piece digest 0 12 ++ "@" ++ s.fakeDomain
  else if shape = "uuid" || s.uuidPattern trimmed then fakeUUID digest
  else if shape = "domain_sid" || s.domainSIDPattern trimmed then
    fakeDomainSID digest
  else if shape = "object_sid" || (s.objectSIDPattern trimmed).isSome then
    match s.objectSIDPattern trimmed with
    | some (domain, rid) => domainPart domain ++ "-" ++ rid
    | none => "value-" ++ piece digest 0 16
  else if shape = "ipv4" || s.ipv4Pattern trimmed then fakeAddress digest
  else if shape = "host" || s.hostLikePattern trimmed then
    "host-" ++ piece digest 0 12 ++ "." ++ s.fakeDomain
  else "value-" ++ piece digest 0 16

/-- `pseudonymizeString`. The inner call is for the shape `domain_sid`, which
is asked for before `object_sid`: it makes no call of its own. -/
def pseudonymizeString : String → String → String :=
  pseudonymForm s fun domain => pseudonymForm s id domain "domain_sid"

mutual

/-- `pseudonymizeValue`. -/
def pseudonymizeValue (s : ScrubberConfig A) (key : String) (shape : String) : Value A → Value A
  | .string text =>
    if s.referenceKeys.contains (normalizeKey key) then
      .string (pseudonymizeString s text (classifyString s text))
    else .string (pseudonymizeString s text shape)
  | .list items => .list (pseudonymizeItems s key items)
  | .strings items => .strings
      (items.map fun item => pseudonymizeString s item (classifyString s item))
  | .map entries => .map (pseudonymizeEntries s entries)
  | value => value

def pseudonymizeItems (s : ScrubberConfig A) (key : String) : List (Value A) → List (Value A)
  | [] => []
  | item :: items =>
    pseudonymizeValue s key (classifyValue s item) item :: pseudonymizeItems s key items

def pseudonymizeEntries (s : ScrubberConfig A) : List (String × Value A) → List (String × Value A)
  | [] => []
  | (key, value) :: entries =>
    (key, pseudonymizeValue s key (classifyValue s value) value) :: pseudonymizeEntries s entries

end

def redact : Value A → Value A
  | .list items => .list (items.map fun _ => .string s.redactionMarker)
  | .strings items => .strings (items.map fun _ => s.redactionMarker)
  | .map entries =>
    .map (entries.map fun entry => (entry.1, .string s.redactionMarker))
  | _ => .string s.redactionMarker

/-- `time.Duration(days) * 24 * time.Hour`, which wraps around. -/
def shift : Int := (s.timestampShiftDays * 86400000000000).bmod (2 ^ 64)

def shiftString (text : String) : String :=
  match s.parseTime text with
  | some t => s.formatTime (t + shift s)
  | none => pseudonymizeString s text ""

mutual

def shiftTimestamp (s : ScrubberConfig A) : Value A → Value A
  | .time t => .string (s.formatTime (t + shift s))
  | .string text => .string (shiftString s text)
  | .int n => .int ((n + (shift s).tdiv 1000000000).bmod (2 ^ 64))
  | .other a => .other (s.addSeconds a ((shift s).tdiv 1000000000))
  | .list items => .list (shiftItems s items)
  | .strings items => .strings (items.map (shiftString s))
  -- The default case of the source: a map is handed back as it is.
  | .map entries => .map entries

def shiftItems (s : ScrubberConfig A) : List (Value A) → List (Value A)
  | [] => []
  | item :: items => shiftTimestamp s item :: shiftItems s items

end

def scrubWithPlan (key : String) (value : Value A) (plan : PropertyAction × String) : Value A :=
  match plan.1 with
  | .preserve => value
  | .redact => redact s value
  | .shiftTimestamp => shiftTimestamp s value
  | .pseudonymize => pseudonymizeValue s key plan.2 value

def scrubProperty (key : String) (value : Value A) :
    Value A := scrubWithPlan s key value (planProperty s key value)

/-- `scrubProperties`: the keys stay. -/
def scrubProperties (properties : List (String × Value A)) : List (String × Value A) :=
  properties.map fun entry => (entry.1, scrubProperty s entry.1 entry.2)

/-! ## Places -/

/-- The text at a place: a path of positions in lists and maps. -/
def stringAt : Value A → List Nat → Option String
  | .string s, [] => some s
  | .strings items, [i] => items[i]?
  | .list items, i :: path => items[i]?.bind (stringAt · path)
  | .map entries, i :: path =>
    entries[i]?.bind fun entry => stringAt entry.2 path
  | _, _ => none

end Dawgs.Ref.Scrub

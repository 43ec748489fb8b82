import Dawgs.Ref.Sieve

/-!
# The translation cache

One cache of rendered SQL serves every goroutine of the driver. A request
makes its key, which carries the schema generation of that moment, and
calls `GetOrBuildContext`. There it answers from an entry, waits behind a
build of the same key, or registers itself under the key and builds.
`Invalidate` opens a new generation, `Close` ends the cache.

The mutex is held over two stretches of `GetOrBuildContext` and over the
whole of `Invalidate` and `Close`. Nothing in them waits, so each is one
step here. The other steps are those between which another goroutine can
run: the check of the context at the loop head, the return of a build, a
wake-up. The generation is also read outside the lock, by `Key`; that read
is atomic and touches nothing else, so it is one step with the start of
the request. The counters are updated with the step they belong to.

What a build gives is not the cache's business, so it is part of the event
that ends it: SQL, an error, or a panic. Contexts end when they like.

A `translationCacheCall` is a pointer that the pending map and its waiters
share. It is a number here, and `calls` is the heap.
-/

namespace Dawgs.Ref

open Function

/-- A Go map. Its list is one of the orders a range over it may take. -/
abbrev GoMap (K V : Type) := AList fun _ : K => V

/-! ## Keys -/

def translationCacheKeyFormat : Nat := 3

def maxCachedCypherBytes : Nat := 64 * 1024

def translationCachePolicy : String := "compiler-v4:optimized"

/-- `translationCacheKey`, over a type of digests. -/
structure TranslationCacheKey (D : Type) where
  format : Nat
  queryDigest : D
  querySize : Nat
  graphID : Int
  parameterTypes : String
  policy : String
  schemaGeneration : Nat
deriving DecidableEq

/-- What the cache calls of the rest of the driver. -/
structure TranslationEnv (V D : Type) where
  sha256 : String → D
  valueToDataType : V → Except String String
  stableTypeName : V → String
  negotiateValue : V → Except String V

/-- What `strings.TrimSpace` takes for white space. -/
def isSpace (c : Char) : Bool :=
  c.toNat ∈ [0x09, 0x0a, 0x0b, 0x0c, 0x0d, 0x20, 0x85, 0xa0, 0x1680, 0x2028,
    0x2029, 0x202f, 0x205f, 0x3000] ∨ 0x2000 ≤ c.toNat ∧ c.toNat ≤ 0x200a

/-- `strings.TrimSpace`. -/
def trimSpace (text : String) : String :=
  String.ofList (((text.toList.dropWhile isSpace).reverse.dropWhile isSpace).reverse)

/-- One parameter of `parameterTypeShape`: `%d:%s=%s;`. -/
def parameterShape {V D : Type} (env : TranslationEnv V D) (name : String) (value : V) : String :=
  let dataType :=
    match env.valueToDataType value with
    | .ok dataType => dataType
    | .error _ => "unsupported:" ++ env.stableTypeName value
  toString name.utf8ByteSize ++ ":" ++ name ++ "=" ++ dataType ++ ";"

/-- `parameterTypeShape`. -/
def parameterTypeShape {V D : Type} (env : TranslationEnv V D)
    (parameters : GoMap String V) : String :=
  let sorted := parameters.entries.mergeSort fun a b => a.1 ≤ b.1
  String.join (sorted.map fun p => parameterShape env p.1 p.2)

/-! ## Entries -/

/-- `translationCacheBuildResult`. -/
structure TranslationCacheBuildResult (V : Type) where
  parameters : GoMap String V
  parameterSources : GoMap String String

/-- `translationCacheEntry`. -/
structure TranslationCacheEntry where
  sql : String
  parameterSources : GoMap String String

/-- How a build function ends. -/
inductive BuildOutcome (V : Type) where
  | returned (sql : String) (result : TranslationCacheBuildResult V)
  | failed (err : String)
  | panicked (value : String)

/-- The four results of `callTranslationBuild`. -/
structure BuildReturn (V : Type) where
  sql : String
  result : TranslationCacheBuildResult V
  err : Option String
  panicked : Option String

/-- `callTranslationBuild`. After a panic the first three results have
their zero values, the error among them. -/
def callTranslationBuild {V : Type} : BuildOutcome V → BuildReturn V
  | .returned sql result => ⟨sql, result, none, none⟩
  | .failed err => ⟨"", ⟨∅, ∅⟩, some err, none⟩
  | .panicked value => ⟨"", ⟨∅, ∅⟩, none, some value⟩

/-- The loop of `cacheableTranslation`: every generated parameter has a
source, and the source is a parameter of the request. -/
def reusableSources {V : Type} (parameterSources : GoMap String String)
    (parameters : GoMap String V) : List String → GoMap String String → Option (GoMap String String)
  | [], sources => some sources
  | generated :: rest, sources =>
    match parameterSources.lookup generated with
    | none => none
    | some source =>
      if source = "" then none
      else if (parameters.lookup source).isNone then none
      else reusableSources parameterSources parameters rest (sources.insert generated source)

/-- `cacheableTranslation`. -/
def cacheableTranslation {V : Type} (built : BuildReturn V)
    (parameters : GoMap String V) : Option TranslationCacheEntry :=
  if built.err.isSome then none
  else if built.result.parameters.keys.length ≠ built.result.parameterSources.keys.length then none
  else
    (reusableSources built.result.parameterSources parameters
      built.result.parameters.keys ∅).map fun sources => ⟨built.sql, sources⟩

/-- `bindCachedParameters`; the nil map is the empty one. -/
def bindCachedParameters {V D : Type} (env : TranslationEnv V D)
    (sources : GoMap String String) (parameters : GoMap String V) :
    Except String (GoMap String V) := sources.entries.foldlM (fun bindings p =>
    match parameters.lookup p.2 with
    | none => .error ("missing value for Cypher parameter " ++ p.2.quote)
    | some value => do
      let negotiated ← env.negotiateValue value
      return bindings.insert p.1 negotiated) ∅

/-! ## The cache -/

/-- The counters of `TranslationCacheStats`. -/
structure TranslationCacheStats where
  hits : Nat := 0
  misses : Nat := 0
  coalesced : Nat := 0
  bypasses : Nat := 0
  insertions : Nat := 0
  evictions : Nat := 0
  bindingFailures : Nat := 0
  buildFailures : Nat := 0

/-- `translationCacheCall`: whether `done` is closed, and `reusable`. -/
structure TranslationCacheCall where
  done : Bool
  reusable : Bool

/-- `finish`; `doneOnce` keeps the first one. -/
def TranslationCacheCall.finish (call : TranslationCacheCall)
    (reusable : Bool) : TranslationCacheCall :=
  if call.done then call else ⟨true, reusable⟩

/-- `translationCache`. There is a Sieve exactly while the cache can hold
something: its capacity is not zero and it is not closed. -/
structure TranslationCache (D : Type) [DecidableEq D] where
  capacity : Nat
  policy : String
  entries : Option (Sieve (TranslationCacheKey D) TranslationCacheEntry)
  pending : GoMap (TranslationCacheKey D) Nat
  closed : Bool
  schemaGeneration : Nat
  stats : TranslationCacheStats
  live : entries.isSome = (decide (0 < capacity) && !closed)

namespace TranslationCache

variable {V D : Type} [DecidableEq D]

/-- `newTranslationCacheWithPolicy`. -/
def new (capacity : Int) (policy : String) : TranslationCache D where
  capacity := capacity.toNat
  policy := if policy = "" then translationCachePolicy else policy
  entries := if 0 < capacity.toNat then some (Sieve.new capacity) else none
  pending := ∅
  closed := false
  schemaGeneration := 0
  stats := {}
  live := by split <;> simp_all

/-- `Key`. -/
def key (env : TranslationEnv V D) (s : TranslationCache D) (query : String)
    (graphID : Int) (parameters : GoMap String V) : TranslationCacheKey D where
  format := translationCacheKeyFormat
  queryDigest := env.sha256 (trimSpace query)
  querySize := (trimSpace query).utf8ByteSize
  graphID := graphID
  parameterTypes := parameterTypeShape env parameters
  policy := s.policy
  schemaGeneration := s.schemaGeneration

section

variable (s : TranslationCache D) (key : TranslationCacheKey D)

/-- The entry of a key. -/
def lookup :
    Option TranslationCacheEntry := s.entries.bind fun sieve => sieve.lookup key

/-- What asking the Sieve for a key leaves behind. -/
def touch : TranslationCache D :=
  { s with
    entries := s.entries.map fun sieve => (sieve.get key).1
    live := by rw [Option.isSome_map, s.live] }

/-- The insertion of a reusable result. -/
def put
    (entry : TranslationCacheEntry) : TranslationCache D :=
  let full := s.entries.any fun sieve => s.capacity ≤ sieve.size
  { s with
    entries := s.entries.map fun sieve => sieve.put key entry
    stats := { s.stats with
      evictions := s.stats.evictions + if full then 1 else 0
      insertions := s.stats.insertions + 1 }
    live := by rw [Option.isSome_map, s.live] }

end

/-- `Invalidate`. -/
def invalidate (s : TranslationCache D) : TranslationCache D :=
  { s with
    schemaGeneration := s.schemaGeneration + 1
    entries :=
      if !s.closed && 0 < s.capacity then some (Sieve.new s.capacity)
      else s.entries
    live := by
      split
      next h => simp_all
      · exact s.live }

/-- The cache's own part of `Close`. -/
def close (s : TranslationCache D) : TranslationCache D :=
  { s with
    closed := true
    entries := none
    pending := ∅
    live := by simp }

/-! ## Goroutines -/

/-- A request for a translation. -/
structure TranslationRequest (V : Type) where
  query : String
  graphID : Int
  parameters : GoMap String V

/-- What `GetOrBuildContext` ends with. -/
inductive TranslationResult (V : Type) where
  | translated (sql : String) (parameters : GoMap String V)
  | failed (err : String)
  | contextEnded
  | panicked (value : String)

/-- Why a goroutine builds for itself alone: the text is too long or the
cache holds nothing, the cache is closed, or it waited behind a build that
was of no use to it. -/
inductive Why where
  | bypassed
  | closed
  | released (call : Nat)

/-- Where a goroutine is. -/
inductive Frame (V D : Type) where
  | ready (last : Option (TranslationResult V))
  | top (r : TranslationRequest V) (key : TranslationCacheKey D)
  | locking (r : TranslationRequest V) (key : TranslationCacheKey D)
  | waiting (r : TranslationRequest V) (key : TranslationCacheKey D) (call : Nat)
  | building (r : TranslationRequest V) (key : TranslationCacheKey D) (call : Nat)
  | built (r : TranslationRequest V) (key : TranslationCacheKey D)
      (call : Nat) (outcome : BuildOutcome V)
  | uncached (r : TranslationRequest V) (key : TranslationCacheKey D) (why : Why)

/-- What can happen. -/
inductive Event (V : Type) where
  | request (t : Nat) (r : TranslationRequest V)
  | check (t : Nat)
  | enter (t : Nat)
  | wake (t : Nat)
  | cancel (t : Nat)
  | build (t : Nat) (outcome : BuildOutcome V)
  | finish (t : Nat)
  | buildUncached (t : Nat) (outcome : BuildOutcome V)
  | endContext (t : Nat)
  | invalidate
  | close

/-- The cache, the calls on the heap, the goroutines, and whose context
has ended. -/
structure System (V D : Type) [DecidableEq D] where
  cache : TranslationCache D
  calls : Nat → TranslationCacheCall
  nextCall : Nat
  frames : Nat → Frame V D
  ended : Nat → Bool

namespace System

/-- A new cache and no request yet. -/
def start (capacity : Int) (policy : String) : System V D where
  cache := TranslationCache.new capacity policy
  calls := fun _ => ⟨false, false⟩
  nextCall := 0
  frames := fun _ => .ready none
  ended := fun _ => false

variable (env : TranslationEnv V D) (s : System V D) (t : Nat)

def goto (frame : Frame V D) : System V D :=
  { s with
    frames := update s.frames t frame }

def tally (f : TranslationCacheStats → TranslationCacheStats) : System V D :=
  { s with
    cache := { s.cache with stats := f s.cache.stats } }

def returns (result : TranslationResult V) : System V D := s.goto t (.ready (some result))

/-- `finish` on a call of the heap. -/
def finishCall (c : Nat) (reusable : Bool) : System V D :=
  { s with
    calls := update s.calls c ((s.calls c).finish reusable) }

variable (r : TranslationRequest V)

/-- The start of a request: its key, and the bypass before the loop. -/
def begin : System V D :=
  let key := s.cache.key env r.query r.graphID r.parameters
  let s : System V D :=
    { s with
      ended := update s.ended t false }
  if key.querySize > maxCachedCypherBytes ∨ s.cache.capacity = 0 then
    (s.tally fun n => { n with bypasses := n.bypasses + 1 }).goto t (.uncached r key .bypassed)
  else s.goto t (.top r key)

variable (key : TranslationCacheKey D)

/-- The check of the context at the loop head. -/
def check : System V D :=
  if s.ended t then s.returns t .contextEnded else s.goto t (.locking r key)

/-- A hit: the entry's parameters bound to the values of the request. -/
def hit (entry : TranslationCacheEntry) : System V D :=
  match bindCachedParameters env entry.parameterSources r.parameters with
  | .error err =>
    (s.tally fun n =>
      { n with bindingFailures := n.bindingFailures + 1 }).returns t
      (.failed err)
  | .ok bindings =>
    (s.tally fun n => { n with hits := n.hits + 1 }).returns t (.translated entry.sql bindings)

/-- A new call, registered under the key. -/
def lead : System V D :=
  { s with
    cache := { s.cache with
      pending := s.cache.pending.insert key s.nextCall
      stats := { s.cache.stats with misses := s.cache.stats.misses + 1 } }
    calls := update s.calls s.nextCall ⟨false, false⟩
    nextCall := s.nextCall + 1
    frames := update s.frames t (.building r key s.nextCall) }

/-- The first stretch under the lock. -/
def enter : System V D :=
  if s.cache.closed then
    (s.tally fun n => { n with bypasses := n.bypasses + 1 }).goto t (.uncached r key .closed)
  else
    let found := s.cache.lookup key
    let s := { s with cache := s.cache.touch key }
    match found with
    | some entry => s.hit env t r entry
    | none =>
      match s.cache.pending.lookup key with
      | some c => s.goto t (.waiting r key c)
      | none => s.lead t r key

/-- A waiter whose build has come to its end. -/
def wake (c : Nat) : System V D :=
  let s := s.tally fun n => { n with coalesced := n.coalesced + 1 }
  if (s.calls c).reusable then s.goto t (.top r key)
  else
    (s.tally fun n => { n with bypasses := n.bypasses + 1 }).goto t (.uncached r key (.released c))

/-- The results of a build that is not stored or not to be tried again. -/
def answer (built : BuildReturn V) : System V D :=
  match built.panicked, built.err with
  | some value, _ => s.returns t (.panicked value)
  | none, some err =>
    (s.tally fun n =>
      { n with buildFailures := n.buildFailures + 1 }).returns t (.failed err)
  | none, none => s.returns t (.translated built.sql built.result.parameters)

/-- The deletion from the pending map, if the call is still the one there. -/
def unregister (c : Nat) : System V D :=
  if s.cache.pending.lookup key = some c then
    { s with
      cache := { s.cache with pending := s.cache.pending.erase key } }
  else s

/-- The entry the second stretch stores: the build can be cached, its
generation is the current one, the cache is open, and no panic. -/
def stored (built : BuildReturn V) : Option TranslationCacheEntry :=
  if key.schemaGeneration = s.cache.schemaGeneration ∧ !s.cache.closed ∧
      built.panicked = none then cacheableTranslation built r.parameters
  else none

/-- The insertion, if there is something to store. -/
def insert (entry : Option TranslationCacheEntry) : System V D :=
  match entry with
  | some entry =>
    { s with
      cache := s.cache.put key entry }
  | none => s

/-- The second stretch under the lock. -/
def settle (c : Nat) (built : BuildReturn V) : System V D :=
  let entry := s.stored r key built
  ((s.insert key entry).unregister key c).finishCall c entry.isSome

/-- The second stretch, and what follows it: a build of a generation that
has passed is tried again under the current one. -/
def finish (c : Nat) (outcome : BuildOutcome V) : System V D :=
  let built := callTranslationBuild outcome
  let after := s.settle r key c built
  if built.panicked.isSome ∨ built.err.isSome then after.answer t built
  else if key.schemaGeneration ≠ s.cache.schemaGeneration ∧ !s.cache.closed then
    after.goto t (.top r { key with schemaGeneration := s.cache.schemaGeneration })
  else if s.cache.closed ∨ (cacheableTranslation built r.parameters).isNone then
    (after.tally fun n => { n with bypasses := n.bypasses + 1 }).answer t built
  else after.answer t built

/-- `Close`: the cache ends, and every pending call with it. -/
def close (s : System V D) : System V D :=
  { s with
    cache := s.cache.close
    calls := fun c =>
      if c ∈ s.cache.pending.entries.map Sigma.snd then
        (s.calls c).finish false
      else s.calls c }

/-- One step; nothing where the goroutine is not at that place. -/
def step : Event V → Option (System V D)
  | .request t r =>
    match s.frames t with
    | .ready _ => some (s.begin env t r)
    | _ => none
  | .check t =>
    match s.frames t with
    | .top r key => some (s.check t r key)
    | _ => none
  | .enter t =>
    match s.frames t with
    | .locking r key => some (s.enter env t r key)
    | _ => none
  | .wake t =>
    match s.frames t with
    | .waiting r key c =>
      if (s.calls c).done then some (s.wake t r key c) else none
    | _ => none
  | .cancel t =>
    match s.frames t with
    | .waiting _ _ _ =>
      if s.ended t then some (s.returns t .contextEnded) else none
    | _ => none
  | .build t outcome =>
    match s.frames t with
    | .building r key c => some (s.goto t (.built r key c outcome))
    | _ => none
  | .finish t =>
    match s.frames t with
    | .built r key c outcome => some (s.finish t r key c outcome)
    | _ => none
  | .buildUncached t outcome =>
    match s.frames t with
    | .uncached _ _ _ => some (s.answer t (callTranslationBuild outcome))
    | _ => none
  | .endContext t =>
    some
      { s with
        ended := update s.ended t true }
  | .invalidate => some { s with cache := s.cache.invalidate }
  | .close => some s.close

end System

end TranslationCache

end Dawgs.Ref

import Dawgs.Ref.EliasFano

/-!
# The packed map

`container.PackedMap` cuts the keys into ranges of one stride, one bucket
for each. A bucket takes its writes into a list of pending pairs. A
compaction sorts them and packs the keys into an Elias-Fano set, the
values into a slice at the same indices; a bucket that was packed before
has its pending pairs merged with what it holds.

Buckets are shared pointers: the list of allocated buckets that a
compaction runs over holds the same buckets as the table. Here it holds
their indices. The number of low bits of a new set is `width`, a function
of the largest key and of the number of keys, as in the source. `sort.Slice`
is a sort by key, which is all that can be said of it for keys that differ.
The bound `NumMaxEntries` is never read and is left out. A division by zero
and an index out of range are panics; the search of an Elias-Fano set
need not return, so a `Get` has fuel.
-/

namespace Dawgs.Ref

/-- `Parameters`. -/
structure Parameters where
  bucketKeyStride : Nat
  numBuckets : Nat

/-- `kvPair`. -/
structure KVPair where
  key : Nat
  value : Nat
  deriving DecidableEq

inductive Panic where
  | integerDivideByZero
  | indexOutOfRange
  deriving DecidableEq

/-- `packedBucket`. -/
structure PackedBucket where
  keys : Option EFSet
  values : List Nat
  pending : List KVPair

/-- An `Append` whose error is not looked at. -/
def EFSet.appendUnchecked (s : EFSet) (value : Nat) : EFSet :=
  match s.tryAppend value with
  | .ok t => t
  | .error _ => s

namespace PackedBucket

/-- `newPacBucket`. -/
def new : PackedBucket := ⟨none, [], []⟩

/-- `Find`, with so much fuel for the search. -/
def find (s : PackedBucket) (key fuel : Nat) : Option (Except Panic (Nat × Bool)) :=
  match s.keys with
  | none => some (.ok (0, false))
  | some keys =>
    (keys.find key fuel).map fun r =>
      if r.found then
        match s.values[r.index]? with
        | some value => .ok (value, true)
        | none => .error .indexOutOfRange
      else .ok (0, false)

/-- `Append`. -/
def append (s : PackedBucket) (key value : Nat) : PackedBucket :=
  { s with pending := s.pending ++ [⟨key, value⟩] }

/-- The set and the values built by a merge, and the pending pairs that
are left. -/
structure Merge where
  mergedSet : EFSet
  values : List Nat
  pending : List KVPair

/-- `mergedSet.Append(key); values = append(values, value)`. -/
def Merge.push (m : Merge) (key value : Nat) : Merge :=
  { m with
    mergedSet := m.mergedSet.appendUnchecked key
    values := m.values ++ [value] }

/-- The inner loop of `merge`: pending keys up to the next stored key. -/
def takePending (nextKey : Nat) : List KVPair → Merge → Merge
  | [], m => { m with pending := [] }
  | p :: ps, m =>
    if p.key ≤ nextKey then
      takePending nextKey ps (if p.key ≠ nextKey then m.push p.key p.value else m)
    else { m with pending := p :: ps }

/-- The outer loop of `merge`, over the stored keys; `stored` are the
values from the value index on. -/
def mergeStored : List Nat → List Nat → Merge → Except Panic Merge
  | [], _, m => .ok m
  | nextKey :: keys, stored, m =>
    match stored with
    | [] => .error .indexOutOfRange
    | value :: stored =>
      mergeStored keys stored ((takePending nextKey m.pending m).push nextKey value)

/-- The last loop of `merge`. -/
def mergeRest (m : Merge) : Merge :=
  { m.pending.foldl (fun m p => m.push p.key p.value) m with pending := [] }

variable (width : Nat → Nat → Nat)

/-- `merge`, of the sorted pending pairs. The values that it built are not
what it stores: `s.values` is cut to its own length. -/
def merge (s : PackedBucket) (keys : EFSet) (first last : KVPair)
    (pending : List KVPair) : Except Panic PackedBucket := do
  let newUniverseMin := min keys.universeMin first.key
  let newUniverseMax := max keys.universeMax last.key
  let maxLen := wrap (keys.len + pending.length)
  let mergedSet := EFSet.new (width newUniverseMax maxLen) newUniverseMin newUniverseMax
  let m ← mergeStored keys.iterate s.values ⟨mergedSet, [], pending⟩
  return { s with keys := some (mergeRest m).mergedSet }

/-- The first packing of a bucket, of the sorted pending pairs. -/
def pack (s : PackedBucket) (first last : KVPair) (pending : List KVPair) : PackedBucket :=
  let keys := EFSet.new (width last.key pending.length) first.key last.key
  { s with
    keys := some (pending.foldl (fun keys p => keys.appendUnchecked p.key) keys)
    values := pending.map KVPair.value }

/-- `Compact`. -/
def compact (s : PackedBucket) : Except Panic PackedBucket :=
  let pending := s.pending.insertionSort (fun p q => p.key ≤ q.key)
  match pending.head?, pending.getLast? with
  | some first, some last =>
    match s.keys with
    | some keys => do
      let t ← s.merge width keys first last pending
      return { t with pending := [] }
    | none => .ok { s.pack width first last pending with pending := [] }
  | _, _ => .ok s

end PackedBucket

/-- `PackedMap`. -/
structure PackedMap where
  buckets : Nat → Option PackedBucket
  allocatedBuckets : List Nat
  parameters : Parameters

namespace PackedMap

/-- `NewPacMap`. -/
def new (parameters : Parameters) : PackedMap := ⟨fun _ => none, [], parameters⟩

/-- The index that `getBucket` computes. -/
def bucketIndex (s : PackedMap) (entityIDHash : Nat) : Except Panic Nat :=
  if s.parameters.bucketKeyStride = 0 then .error .integerDivideByZero
  else
    let bucketIdx := entityIDHash / s.parameters.bucketKeyStride
    if s.parameters.numBuckets ≤ bucketIdx then
      if s.parameters.numBuckets = 0 then .error .indexOutOfRange
      else .ok (s.parameters.numBuckets - 1)
    else .ok bucketIdx

/-- `getBucket`: the map with the bucket allocated, its index, and the
bucket. -/
def getBucket (s : PackedMap) (entityIDHash : Nat) :
    Except Panic (PackedMap × Nat × PackedBucket) := do
  let i ← s.bucketIndex entityIDHash
  match s.buckets i with
  | some bucket => return (s, i, bucket)
  | none =>
    return ({ s with
      buckets := Function.update s.buckets i (some .new)
      allocatedBuckets := s.allocatedBuckets ++ [i] }, i, .new)

/-- `Get`. -/
def get (s : PackedMap) (key fuel : Nat) : Option (Except Panic ((Nat × Bool) × PackedMap)) :=
  match s.getBucket key with
  | .error e => some (.error e)
  | .ok (t, _, bucket) =>
    (bucket.find key fuel).map fun r => r.map fun answer => (answer, t)

/-- `Put`. -/
def put (s : PackedMap) (key value : Nat) : Except Panic PackedMap := do
  let (t, i, bucket) ← s.getBucket key
  return { t with
    buckets := Function.update t.buckets i (some (bucket.append key value)) }

variable (width : Nat → Nat → Nat)

/-- The compaction of the buckets with these indices. -/
def compactBuckets : List Nat → (Nat → Option PackedBucket) →
    Except Panic (Nat → Option PackedBucket)
  | [], buckets => .ok buckets
  | i :: is, buckets =>
    match buckets i with
    | none => compactBuckets is buckets
    | some bucket => do
      let compacted ← bucket.compact width
      compactBuckets is (Function.update buckets i (some compacted))

/-- `Compact`. -/
def compact (s : PackedMap) : Except Panic PackedMap := do
  let buckets ← compactBuckets width s.allocatedBuckets s.buckets
  return { s with buckets := buckets }

/-- A call that changes the map. -/
inductive Op where
  | put (key value : Nat)
  | compact
  deriving DecidableEq

def apply (s : PackedMap) : Op → Except Panic PackedMap
  | .put key value => s.put key value
  | .compact => s.compact width

def run (s : PackedMap) (ops : List Op) : Except Panic PackedMap := ops.foldlM (apply width) s

end PackedMap

end Dawgs.Ref

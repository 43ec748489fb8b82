import Dawgs.Proofs.PackedBucket

/-!
# What a packed map answers after a compaction

Buckets do not touch each other, so a run of the map is a run of each
bucket, on the puts of its own keys and on every compaction.

Over its run a bucket goes through phases. Its puts are pending first. A
compaction then packs them. A put behind that compaction, in the same
bucket, is the turning point: the compaction is between two puts, the next
one merges, and the bucket never has a value for each key again, if the
run gets through at all. So every key that was put is answered with its
value exactly if no compaction is between two puts into one bucket.

The keys that were not put are a matter of the search. One that is not
below the keys of its bucket is reported absent.
-/

namespace Dawgs.Ref.PackedMap

open Lib EFSet PackedBucket List Function

/-- The bucket of a key. -/
def bucketOf (p : Parameters) (key : Nat) : Nat := min (key / p.bucketKeyStride) (p.numBuckets - 1)

/-- The pairs that a run puts into a bucket, in order. -/
def puts (p : Parameters) (b : Nat) (ops : List Op) : List KVPair := ops.filterMap fun
    | .put key value => if bucketOf p key = b then some ⟨key, value⟩ else none
    | .compact => none

/-- The keys of a run. -/
def keys (ops : List Op) : List Nat := ops.filterMap fun
    | .put key _ => some key
    | .compact => none

/-- Some compaction is between two puts into a bucket. -/
def Straddled (p : Parameters) (b : Nat) (ops : List Op) : Prop :=
  ∃ before after, ops = before ++ .compact :: after ∧ puts p b before ≠ [] ∧ puts p b after ≠ []

variable {p : Parameters} {b : Nat} {ops : List Op}

@[simp] theorem puts_append (xs ys : List Op) :
    puts p b (xs ++ ys) = puts p b xs ++ puts p b ys := filterMap_append

@[simp] theorem puts_compact : puts p b [.compact] = [] := rfl

theorem puts_put (key value : Nat) : puts p b [.put key value] =
      if bucketOf p key = b then [⟨key, value⟩] else [] := by
  unfold puts
  by_cases h : bucketOf p key = b <;> simp [h]

theorem mem_puts {q : KVPair} :
    q ∈ puts p b ops ↔ .put q.key q.value ∈ ops ∧ bucketOf p q.key = b := by
  unfold puts
  rw [mem_filterMap]
  constructor
  · intro ⟨op, hop, hq⟩
    cases op with
    | compact => cases hq
    | put key value =>
      simp only [Option.ite_none_right_eq_some, Option.some.injEq] at hq
      obtain ⟨hb, rfl⟩ := hq
      exact ⟨hop, hb⟩
  · intro ⟨hop, hb⟩
    exact ⟨_, hop, by simp [hb]⟩

theorem mem_keys {k : Nat} : k ∈ keys ops ↔ ∃ v, .put k v ∈ ops := by
  unfold keys
  rw [mem_filterMap]
  constructor
  · intro ⟨op, hop, hk⟩
    cases op with
    | compact => cases hk
    | put key value =>
      cases hk
      exact ⟨value, hop⟩
  · intro ⟨v, hop⟩
    exact ⟨_, hop, rfl⟩

/-- The keys of a bucket are keys of the run, each as often. -/
theorem puts_keys_sublist (p : Parameters) (b : Nat) (ops : List Op) :
    ((puts p b ops).map KVPair.key).Sublist (keys ops) := by
  induction ops with
  | nil => exact .slnil
  | cons op ops ih =>
    cases op with
    | compact => exact ih
    | put key value =>
      show (((puts p b ([.put key value] ++ ops)).map _)).Sublist (key :: keys ops)
      rw [puts_append, puts_put]
      by_cases h : bucketOf p key = b
      · rw [if_pos h]
        exact ih.cons_cons key
      · rw [if_neg h]
        exact ih.cons key

variable {op : Op} {s : PackedMap}

/-- Where a compaction can be in a run that is one call longer. -/
theorem concat_split {before after : List Op} (h : ops ++ [op] = before ++ .compact :: after) :
    after = [] ∧ ops = before ∧ op = .compact ∨
      ∃ rest, after = rest ++ [op] ∧ ops = before ++ .compact :: rest := by
  obtain rfl | ⟨rest, op', rfl⟩ := eq_nil_or_concat' after
  · obtain ⟨hops, hop⟩ := append_inj' h rfl
    exact .inl ⟨rfl, hops, List.cons.inj hop |>.1⟩
  · rw [← cons_append, ← append_assoc] at h
    obtain ⟨hops, hop⟩ := append_inj' h rfl
    obtain rfl := (List.cons.inj hop).1
    exact .inr ⟨rest, rfl, hops⟩

theorem Straddled.concat (h : Straddled p b ops) (op : Op) : Straddled p b (ops ++ [op]) := by
  obtain ⟨before, after, rfl, hbefore, hafter⟩ := h
  refine ⟨before, after ++ [op], by simp, hbefore, ?_⟩
  rw [puts_append]
  exact append_ne_nil_of_left_ne_nil hafter _

/-- A call that puts nothing into the bucket straddles nothing. -/
theorem straddled_concat_iff (hop : puts p b [op] = []) :
    Straddled p b (ops ++ [op]) ↔ Straddled p b ops := by
  refine ⟨fun ⟨before, after, heq, hbefore, hafter⟩ => ?_, fun h => h.concat op⟩
  obtain ⟨rfl, -⟩ | ⟨rest, rfl, rfl⟩ := concat_split heq
  · exact absurd rfl hafter
  · refine ⟨before, rest, rfl, hbefore, ?_⟩
    rwa [puts_append, hop, append_nil] at hafter

/-! ## The run of one bucket -/

variable {width : Nat → Nat → Nat}

section

variable (width : Nat → Nat → Nat) (p : Parameters) (b : Nat)

/-- What a call does to a bucket. -/
def bucketStep
    (s : PackedBucket) : Op → Except Panic PackedBucket
  | .put key value =>
    .ok (if bucketOf p key = b then s.append key value else s)
  | .compact => s.compact width

def bucketRun
    (ops : List Op) : Except Panic PackedBucket := ops.foldlM (bucketStep width p b) .new

end

theorem bucketRun_concat (op : Op) :
    bucketRun width p b (ops ++ [op]) =
      bucketRun width p b ops >>= fun s => bucketStep width p b s op := by
  simp [bucketRun]

/-- The phases of a bucket over a run. -/
inductive Phase (p : Parameters) (b : Nat) (ops : List Op) : Except Panic PackedBucket → Prop
  | fresh (clean : ∀ before after, ops = before ++ .compact :: after → puts p b before = []) :
      Phase p b ops (.ok ⟨none, [], puts p b ops⟩)
  | packed {keys : EFSet} {pairs : List KVPair} (encodes : Encodes keys (pairs.map KVPair.key))
      (perm : pairs.Perm (puts p b ops))
      (compacted : ∃ before after, ops = before ++ .compact :: after ∧ puts p b before ≠ [])
      (once : ¬ Straddled p b ops) : Phase p b ops (.ok ⟨some keys, pairs.map KVPair.value, []⟩)
  | behind {keys : EFSet} {ks values : List Nat} {pending : List KVPair} (encodes : Encodes keys ks)
      (perm : (ks ++ pending.map KVPair.key).Perm ((puts p b ops).map KVPair.key))
      (le : values.length ≤ ks.length) (lt : values.length < ks.length + pending.length)
      (straddled : Straddled p b ops) : Phase p b ops (.ok ⟨some keys, values, pending⟩)
  | failed {e : Panic} (straddled : Straddled p b ops) : Phase p b ops (.error e)

namespace Phase

variable {r : Except Panic PackedBucket}

/-- A put into another bucket changes nothing. -/
theorem other (h : Phase p b ops r) (op : Op) (hop : puts p b [op] = [])
    (hput : op ≠ .compact) : Phase p b (ops ++ [op]) r := by
  have hputs : puts p b (ops ++ [op]) = puts p b ops := by
    rw [puts_append, hop, append_nil]
  cases h with
  | fresh clean =>
    rw [← hputs]
    refine .fresh fun before after heq => ?_
    obtain ⟨-, -, hc⟩ | ⟨rest, -, hops⟩ := concat_split heq
    · exact absurd hc hput
    · exact clean before rest hops
  | packed encodes perm compacted once =>
    obtain ⟨before, after, rfl, hne⟩ := compacted
    refine .packed encodes (hputs ▸ perm) ⟨before, after ++ [op], by simp, hne⟩ ?_
    rw [straddled_concat_iff hop]
    exact once
  | behind encodes perm le lt straddled =>
    exact .behind encodes (hputs ▸ perm) le lt (straddled.concat _)
  | failed straddled => exact .failed (straddled.concat _)

/-- A put into the bucket is pending. -/
theorem own (h : Phase p b ops r) {key : Nat} (hb : bucketOf p key = b) (value : Nat) :
    Phase p b (ops ++ [.put key value]) (r >>= fun s => .ok (s.append key value)) := by
  have hown : puts p b [.put key value] = [⟨key, value⟩] := (puts_put ..).trans (if_pos hb)
  have hputs : puts p b (ops ++ [.put key value]) = puts p b ops ++ [⟨key, value⟩] := by
    rw [puts_append, hown]
  cases h with
  | fresh clean =>
    show Phase p b _ (.ok ⟨none, [], puts p b ops ++ [⟨key, value⟩]⟩)
    rw [← hputs]
    refine .fresh fun before after heq => ?_
    obtain ⟨-, -, hc⟩ | ⟨rest, -, hops⟩ := concat_split heq
    · cases hc
    · exact clean before rest hops
  | packed encodes perm compacted once =>
    -- the compaction is now between two puts
    obtain ⟨before, after, rfl, hne⟩ := compacted
    show Phase p b _ (.ok ⟨_, _, [⟨key, value⟩]⟩)
    refine .behind encodes ?_ (by simp) (by simp)
      ⟨before, after ++ [.put key value], by simp, hne, ?_⟩
    · rw [hputs, map_append]
      exact (perm.map KVPair.key).append_right _
    · rw [puts_append, hown]
      exact append_ne_nil_of_right_ne_nil _ (cons_ne_nil _ _)
  | @behind keys ks values pending encodes perm le lt straddled =>
    refine .behind encodes ?_ le ?_ (straddled.concat _)
    · rw [hputs, map_append, map_append, ← append_assoc]
      exact perm.append_right _
    · simp only [length_append]
      omega
  | failed straddled => exact .failed (straddled.concat _)

theorem compact (h : Phase p b ops r) (hroom : Room width (puts p b ops).length)
    (hword : ∀ q ∈ puts p b ops, q.key < 2 ^ 64) (hnodup : ((puts p b ops).map KVPair.key).Nodup) :
    Phase p b (ops ++ [Op.compact]) (r >>= PackedBucket.compact width) := by
  have hputs : puts p b (ops ++ [Op.compact]) = puts p b ops := by
    rw [puts_append, puts_compact, append_nil]
  have hstraddled : Straddled p b (ops ++ [Op.compact]) ↔
      Straddled p b ops := straddled_concat_iff puts_compact
  cases h with
  | fresh clean =>
    show Phase p b _ (PackedBucket.compact width _)
    by_cases hne : puts p b ops = []
    · rw [compact_nil hne, ← hputs]
      refine .fresh fun before after heq => ?_
      obtain ⟨-, rfl, -⟩ | ⟨rest, -, hops⟩ := concat_split heq
      · exact hne
      · exact clean before rest hops
    · obtain ⟨keys, hcompact, henc⟩ := compact_pack hne hroom hword
      rw [hcompact]
      refine .packed henc (by rw [hputs]; exact ordered_perm _) ⟨ops, [], rfl, hne⟩ ?_
      rw [hstraddled]
      intro ⟨before, after, heq, hbefore, _⟩
      exact hbefore (clean before after heq)
  | @packed keys pairs encodes perm compacted once =>
    show Phase p b _ (PackedBucket.compact width ⟨some keys, pairs.map KVPair.value, []⟩)
    obtain ⟨before, after, rfl, hne⟩ := compacted
    exact .packed encodes (hputs ▸ perm)
      ⟨before, after ++ [Op.compact], by simp, hne⟩ (hstraddled.not.mpr once)
  | @behind keys ks values pending encodes perm le lt straddled =>
    show Phase p b _ (PackedBucket.compact width ⟨_, values, pending⟩)
    have hlen : ks.length + pending.length = (puts p b ops).length := by
      simpa using perm.length_eq
    by_cases hne : pending = []
    · rw [compact_nil hne]
      exact .behind encodes (hputs ▸ perm) le lt (straddled.concat _)
    · obtain hlt | hge := Nat.lt_or_ge values.length ks.length
      · rw [compact_panics hne encodes hlt]
        exact .failed (straddled.concat _)
      · have hpending : ∀ q ∈ pending, q.key < 2 ^ 64 := by
          intro q hq
          have hmem := perm.mem_iff.mp (mem_append_right ks (mem_map_of_mem hq))
          obtain ⟨q', hq', heq⟩ := mem_map.mp hmem
          rw [← heq]
          exact hword q' hq'
        have hdisj := disjoint_of_nodup_append (perm.nodup_iff.mpr hnodup)
        obtain ⟨keys', ks', hcompact, henc, hperm⟩ := compact_merge hne
          encodes hge (by rw [hlen]; exact hroom) hpending (fun k hk hmem => hdisj hk hmem)
        rw [hcompact]
        have hmerged := hperm.trans perm
        refine .behind henc ?_ ?_ ?_ (straddled.concat _)
        · rw [hputs, map_nil, append_nil]
          exact hmerged
        · have := hperm.length_eq
          simp only [length_append] at this
          omega
        · have := hmerged.length_eq
          simp only [length_map] at this
          omega
  | failed straddled => exact .failed (straddled.concat _)

end Phase

/-- The keys of a run are different words, and the widths for that many
keys fit. -/
structure Admissible (width : Nat → Nat → Nat) (ops : List Op) : Prop where
  nodup : (keys ops).Nodup
  word : ∀ k ∈ keys ops, k < 2 ^ 64
  room : Room width (keys ops).length

theorem Admissible.of_concat (h : Admissible width (ops ++ [op])) : Admissible width ops := by
  have hsub : (keys ops).Sublist (keys (ops ++ [op])) := by
    unfold keys
    rw [filterMap_append]
    exact sublist_append_left ..
  exact ⟨h.nodup.sublist hsub, fun k hk => h.word k (hsub.mem hk),
    fun m hm k hk => h.room m hm k (Nat.le_trans hk hsub.length_le)⟩

/-- Every run keeps a bucket in its phases. -/
theorem phase_run (h : Admissible width ops) : Phase p b ops (bucketRun width p b ops) := by
  induction ops using List.reverseRecOn with
  | nil => exact .fresh fun before after heq => by simp at heq
  | append_singleton ops op ih =>
    have hprev := h.of_concat
    have hphase := ih hprev
    rw [bucketRun_concat]
    cases op with
    | put key value =>
      by_cases hb : bucketOf p key = b
      · simp only [bucketStep, if_pos hb]
        exact hphase.own hb value
      · simp only [bucketStep, if_neg hb]
        have hother := hphase.other (.put key value) (by rw [puts_put, if_neg hb]) (by simp)
        cases hr : bucketRun width p b ops with
        | error e | ok s =>
          rwa [hr] at hother
    | compact =>
      have hsub := puts_keys_sublist p b ops
      have hlen := hsub.length_le
      rw [length_map] at hlen
      exact hphase.compact (fun m hm k hk => hprev.room m hm k (Nat.le_trans hk hlen))
        (fun q hq => hprev.word _ (hsub.mem (mem_map_of_mem hq))) (hprev.nodup.sublist hsub)

/-! ## From the map to its buckets -/

/-- The bucket at an index; one that is not allocated yet is new. -/
def bucketAt (s : PackedMap) (i : Nat) : PackedBucket := (s.buckets i).getD .new

/-- The buckets of the map are those of the separate runs. -/
structure Represents (width : Nat → Nat → Nat) (ops : List Op) (s : PackedMap) : Prop where
  nodup : s.allocatedBuckets.Nodup
  allocated : ∀ i, i ∈ s.allocatedBuckets ↔ (s.buckets i).isSome
  bucket : ∀ i, bucketRun width s.parameters i ops = .ok (s.bucketAt i)

theorem compactBuckets_ok {is : List Nat} (hnodup : is.Nodup) {bs bs' : Nat → Option PackedBucket}
    (h : compactBuckets width is bs = .ok bs') :
    (∀ i, (bs' i).isSome ↔ (bs i).isSome) ∧ (∀ i ∉ is, bs' i = bs i) ∧
      ∀ i ∈ is, ((bs i).getD .new).compact width = .ok ((bs' i).getD .new) := by
  induction is generalizing bs with
  | nil =>
    cases h
    exact ⟨fun _ => Iff.rfl, fun _ _ => rfl, by simp⟩
  | cons i is ih =>
    obtain ⟨hi, his⟩ := nodup_cons.mp hnodup
    rw [compactBuckets] at h
    split at h
    next hnone =>
      obtain ⟨hsome, hout, hin⟩ := ih his h
      refine ⟨hsome, fun j hj => hout j fun hmem => hj (mem_cons_of_mem _ hmem), ?_⟩
      refine forall_mem_cons.mpr ⟨?_, hin⟩
      rw [hout i hi, hnone]
      exact compact_nil rfl
    next c hc =>
      obtain ⟨c', hcompact, h⟩ := bind_eq_ok h
      obtain ⟨hsome, hout, hin⟩ := ih his h
      refine ⟨fun j => ?_, fun j hj => ?_, forall_mem_cons.mpr ⟨?_, fun j hj => ?_⟩⟩
      · rw [hsome j]
        by_cases hji : j = i
        · subst hji
          simp [hc]
        · rw [update_of_ne hji]
      · rw [mem_cons, not_or] at hj
        rw [hout j hj.2, update_of_ne hj.1]
      · rw [hout i hi, update_self, hc]
        exact hcompact
      · rw [← hin j hj, update_of_ne (ne_of_mem_of_not_mem hj hi)]

theorem compactBuckets_error {is : List Nat} (hnodup : is.Nodup) {bs : Nat → Option PackedBucket}
    {e : Panic} (h : compactBuckets width is bs = .error e) :
    ∃ i ∈ is, ∃ b, bs i = some b ∧ b.compact width = .error e := by
  induction is generalizing bs with
  | nil => cases h
  | cons i is ih =>
    obtain ⟨hi, his⟩ := nodup_cons.mp hnodup
    rw [compactBuckets] at h
    split at h
    · obtain ⟨j, hj, hb⟩ := ih his h
      exact ⟨j, mem_cons_of_mem _ hj, hb⟩
    next c hc =>
      cases hcompact : c.compact width with
      | error e' =>
        rw [hcompact] at h
        cases h
        exact ⟨i, mem_cons_self .., c, hc, hcompact⟩
      | ok c' =>
        rw [hcompact] at h
        obtain ⟨j, hj, b, hb, herr⟩ := ih his h
        rw [update_of_ne (ne_of_mem_of_not_mem hj hi)] at hb
        exact ⟨j, mem_cons_of_mem _ hj, b, hb, herr⟩

/-- Parameters of a map that can hold something. -/
structure Usable (p : Parameters) : Prop where
  stride : 0 < p.bucketKeyStride
  buckets : 0 < p.numBuckets

theorem bucketIndex_eq (h : Usable s.parameters) (key : Nat) :
    s.bucketIndex key = .ok (bucketOf s.parameters key) := by
  have hstride := h.stride
  have hbuckets := h.buckets
  rw [bucketIndex, if_neg (by omega)]
  unfold bucketOf
  simp only
  split
  · rw [if_neg (by omega), Nat.min_eq_right (by omega)]
  · rw [Nat.min_eq_left (by omega)]

/-- What `getBucket` hands out, and the map it leaves. -/
theorem getBucket_eq (h : Usable s.parameters) (key : Nat) :
    ∃ t, s.getBucket key = .ok (t, bucketOf s.parameters key,
        s.bucketAt (bucketOf s.parameters key)) ∧
      t.parameters = s.parameters ∧ (∀ i, t.bucketAt i = s.bucketAt i) ∧
      (t.buckets (bucketOf s.parameters key)).isSome ∧
      (s.allocatedBuckets.Nodup → (∀ i, i ∈ s.allocatedBuckets ↔ (s.buckets i).isSome) →
        t.allocatedBuckets.Nodup ∧ ∀ i, i ∈ t.allocatedBuckets ↔ (t.buckets i).isSome) := by
  rw [getBucket, bucketIndex_eq h]
  generalize bucketOf s.parameters key = b
  cases hb : s.buckets b with
  | some bucket =>
    refine ⟨s, ?_, rfl, fun _ => rfl, by rw [hb]; rfl, fun hn ha => ⟨hn, ha⟩⟩
    simp [bucketAt, hb, bind, Except.bind, pure, Except.pure]
  | none =>
    refine ⟨{ s with
      buckets := update s.buckets b (some .new)
      allocatedBuckets := s.allocatedBuckets ++ [b] },
      ?_, rfl, fun i => ?_, ?_, fun hn ha => ⟨?_, fun i => ?_⟩⟩
    · simp [bucketAt, hb, bind, Except.bind, pure, Except.pure]
    · by_cases hi : i = b
      · subst hi
        simp [bucketAt, hb]
      · simp [bucketAt, hi]
    · simp
    · rw [← concat_eq_append]
      refine .concat (fun hmem => ?_) hn
      rw [ha, hb] at hmem
      cases hmem
    · by_cases hi : i = b
      · subst hi
        simp
      · simp [hi, ha]

theorem Represents.put (h : Represents width ops s) (hp : Usable s.parameters) (key value : Nat) :
    ∃ t, s.put key value = .ok t ∧ t.parameters = s.parameters ∧
      Represents width (ops ++ [.put key value]) t := by
  obtain ⟨t, ht, hparams, hat, hsome, hwf⟩ := getBucket_eq hp key
  obtain ⟨hn, ha⟩ := hwf h.nodup h.allocated
  refine ⟨{ t with
    buckets := update t.buckets (bucketOf s.parameters key)
      (some ((s.bucketAt (bucketOf s.parameters key)).append key value)) },
    ?_, hparams, ⟨hn, fun i => ?_, fun i => ?_⟩⟩
  · rw [PackedMap.put, ht]
    rfl
  · rw [ha i]
    by_cases hi : i = bucketOf s.parameters key
    · subst hi
      simpa using hsome
    · simp [hi]
  · rw [hparams, bucketRun_concat, h.bucket i]
    show bucketStep width s.parameters i (s.bucketAt i) (.put key value) =
      .ok ((update t.buckets _ _ i).getD .new)
    rw [bucketStep]
    by_cases hi : bucketOf s.parameters key = i
    · subst hi
      rw [if_pos rfl, update_self]
      rfl
    · rw [if_neg hi, update_of_ne (Ne.symm hi), ← hat i]
      rfl

theorem Represents.compact (h : Represents width ops s) :
    match s.compact width with
    | .ok t => t.parameters = s.parameters ∧ Represents width (ops ++ [Op.compact]) t
    | .error e => ∃ i, bucketRun width s.parameters i (ops ++ [Op.compact]) = .error e
    := by
  have hrun : ∀ i, bucketRun width s.parameters i (ops ++ [Op.compact]) =
      (s.bucketAt i).compact width := by
    intro i
    rw [bucketRun_concat, h.bucket i]
    rfl
  rw [PackedMap.compact]
  cases hc : compactBuckets width s.allocatedBuckets s.buckets with
  | error e =>
    obtain ⟨i, -, b, hb, herr⟩ := compactBuckets_error h.nodup hc
    refine ⟨i, ?_⟩
    rw [hrun, bucketAt, hb]
    exact herr
  | ok bs =>
    obtain ⟨hsome, hout, hin⟩ := compactBuckets_ok h.nodup hc
    refine ⟨rfl, h.nodup, fun i => ?_, fun i => ?_⟩
    · rw [h.allocated i]
      exact (hsome i).symm
    · show bucketRun width s.parameters i _ = .ok ((bs i).getD .new)
      rw [hrun]
      by_cases hi : i ∈ s.allocatedBuckets
      · exact hin i hi
      · have hnone := hi
        rw [h.allocated, Option.not_isSome_iff_eq_none] at hnone
        rw [hout i hi, bucketAt, hnone]
        exact compact_nil rfl

/-- A run of the map is a run of each bucket; it panics only if one of them
does. -/
theorem run_represents (width : Nat → Nat → Nat) (hp : Usable p) (ops : List Op) :
    match (new p).run width ops with
    | .ok s => s.parameters = p ∧ Represents width ops s
    | .error e => ∃ i, bucketRun width p i ops = .error e := by
  induction ops using List.reverseRecOn with
  | nil => exact ⟨rfl, .nil, fun i => by simp [PackedMap.new], fun i => rfl⟩
  | append_singleton ops op ih =>
    have hrun : (new p).run width (ops ++ [op]) =
        (new p).run width ops >>= fun s => s.apply width op := by
      simp [run]
    rw [hrun]
    cases hs : (new p).run width ops with
    | error e =>
      rw [hs] at ih
      obtain ⟨i, hi⟩ := ih
      refine ⟨i, ?_⟩
      rw [bucketRun_concat, hi]
      rfl
    | ok s =>
      rw [hs] at ih
      obtain ⟨rfl, hrep⟩ := ih
      cases op with
      | put key value =>
        obtain ⟨t, ht, hparams, hrep'⟩ := hrep.put hp key value
        show match s.put key value with | .ok _ => _ | .error _ => _
        rw [ht]
        exact ⟨hparams, hrep'⟩
      | compact => exact hrep.compact

/-! ## What the map answers -/

/-- A `Get` returns these. -/
def Gets (s : PackedMap) (key value : Nat) (found : Bool) : Prop :=
  ∃ fuel t, s.get key fuel = some (.ok ((value, found), t))

theorem gets_iff (h : Usable s.parameters) {key value : Nat} {found : Bool} :
    s.Gets key value found ↔ (s.bucketAt (bucketOf s.parameters key)).Finds key value found := by
  obtain ⟨t, ht, -⟩ := getBucket_eq h key
  refine exists_congr fun fuel => ?_
  rw [PackedMap.get, ht]
  simp only
  cases (s.bucketAt (bucketOf s.parameters key)).find key fuel with
  | none => simp
  | some r =>
    cases r with
    | error e | ok answer => simp [Except.map]

/-- The key is not below all keys that were put into its bucket. -/
def NotBelow (p : Parameters) (ops : List Op) (key : Nat) : Prop :=
  (∀ k ∈ keys ops, bucketOf p k ≠ bucketOf p key) ∨
    ∃ k ∈ keys ops, bucketOf p k = bucketOf p key ∧ k ≤ key

section

variable {s : PackedMap} (hp : Usable s.parameters)
  (h : Represents width (ops ++ [Op.compact]) s) (hadm : Admissible width (ops ++ [Op.compact]))
include hadm

theorem nodup_puts (b : Nat) : ((puts s.parameters b (ops ++ [Op.compact])).map KVPair.key).Nodup :=
  hadm.nodup.sublist (puts_keys_sublist ..)

include h

theorem phase_bucket (b : Nat) : Phase s.parameters b (ops ++ [Op.compact]) (.ok (s.bucketAt b)) :=
  h.bucket b ▸ phase_run hadm

include hp

/-- In a bucket that no compaction straddles, a key has its value. -/
theorem gets_of_put {k v : Nat}
    (hnot : ¬ Straddled s.parameters (bucketOf s.parameters k) (ops ++ [Op.compact]))
    (hput : .put k v ∈ ops) : s.Gets k v true := by
  have hmem : (⟨k, v⟩ : KVPair) ∈
      puts s.parameters (bucketOf s.parameters k) (ops ++ [Op.compact]) :=
    (mem_puts).mpr ⟨mem_append_left _ hput, rfl⟩
  have hphase := phase_bucket h hadm (bucketOf s.parameters k)
  rw [gets_iff hp]
  generalize s.bucketAt (bucketOf s.parameters k) = bucket at hphase
  cases hphase with
  | fresh clean =>
    have hnil := clean ops [] rfl
    rw [puts_append, hnil] at hmem
    cases hmem
  | packed encodes perm compacted once =>
    exact finds_of_mem encodes ((perm.map KVPair.key).nodup_iff.mpr (nodup_puts hadm _))
      (perm.mem_iff.mpr hmem)
  | behind encodes perm le lt straddled => exact absurd straddled hnot

/-- In such a bucket a key that was not put is absent, unless it is below
all others. -/
theorem gets_of_not_put {k : Nat}
    (hnot : ¬ Straddled s.parameters (bucketOf s.parameters k) (ops ++ [Op.compact]))
    (hk : k ∉ keys ops) (hbelow : NotBelow s.parameters ops k) : s.Gets k 0 false := by
  have hphase := phase_bucket h hadm (bucketOf s.parameters k)
  rw [gets_iff hp]
  have hkey : ∀ q ∈ puts s.parameters (bucketOf s.parameters k)
      (ops ++ [Op.compact]), q.key ∈ keys ops ∧
        bucketOf s.parameters q.key = bucketOf s.parameters k := by
    intro q hq
    rw [puts_append, puts_compact, append_nil] at hq
    obtain ⟨hq, hb⟩ := (mem_puts).mp hq
    exact ⟨(mem_keys).mpr ⟨_, hq⟩, hb⟩
  generalize s.bucketAt (bucketOf s.parameters k) = bucket at hphase
  cases hphase with
  | fresh clean => exact ⟨0, rfl⟩
  | packed encodes perm compacted once =>
    obtain hempty | ⟨k', hk', hb, hle⟩ := hbelow
    · obtain ⟨before, after, heq, hne⟩ := compacted
      obtain ⟨q, hq⟩ := exists_mem_of_ne_nil _ hne
      have hq' : q ∈ puts s.parameters (bucketOf s.parameters k) (ops ++ [Op.compact]) := by
        rw [heq, puts_append]
        exact mem_append_left _ hq
      exact absurd (hkey q hq').2 (hempty _ (hkey q hq').1)
    · obtain ⟨v, hput⟩ := (mem_keys).mp hk'
      have hmem : (⟨k', v⟩ : KVPair) ∈ puts s.parameters
          (bucketOf s.parameters k) (ops ++ [Op.compact]) :=
        (mem_puts).mpr ⟨mem_append_left _ hput, hb⟩
      refine finds_of_not_mem encodes (mem_map_of_mem (perm.mem_iff.mpr hmem)) hle fun hin => ?_
      obtain ⟨q, hq, rfl⟩ := mem_map.mp hin
      exact hk (hkey q (perm.mem_iff.mp hq)).1
  | behind encodes perm le lt straddled => exact absurd straddled hnot

/-- In a bucket that a compaction straddles, some key is not answered. -/
theorem exists_not_gets {b : Nat} (hstr : Straddled s.parameters b (ops ++ [Op.compact])) :
    ∃ k v, .put k v ∈ ops ∧ ¬ s.Gets k v true := by
  have hrun := h.bucket b
  have hphase := phase_bucket h hadm b
  have hpending : (s.bucketAt b).pending = [] := by
    rw [bucketRun_concat] at hrun
    obtain ⟨bucket, -, hcompact⟩ := bind_eq_ok hrun
    exact compact_pending hcompact
  generalize hbucket : s.bucketAt b = bucket at hphase hpending
  cases hphase with
  | fresh clean =>
    rw [straddled_concat_iff puts_compact] at hstr
    obtain ⟨before, after, rfl, hne, -⟩ := hstr
    exact absurd (clean before (after ++ [Op.compact]) (by simp)) hne
  | packed encodes perm compacted once => exact absurd hstr once
  | @behind keys ks values pending encodes perm le lt straddled =>
    subst hpending
    rw [map_nil, append_nil] at perm
    obtain ⟨k, hk, hno⟩ := exists_not_finds encodes
      (perm.nodup_iff.mpr (nodup_puts hadm b)) (by simpa using lt)
    obtain ⟨q, hq, rfl⟩ := mem_map.mp (perm.mem_iff.mp hk)
    rw [puts_append, puts_compact, append_nil] at hq
    obtain ⟨hput, hb⟩ := (mem_puts).mp hq
    refine ⟨q.key, q.value, hput, ?_⟩
    rw [gets_iff hp, hb, hbucket]
    exact hno q.value true

end

/-- The second compaction of a bucket loses the value put before it. -/
theorem second_compaction_loses_value :
    ((((new ⟨10, 1⟩).run (fun _ _ => 2) [.put 1 7, .compact, .put 2 8, .compact]).toOption.bind
        fun s => s.get 2 3).map (Except.map Prod.fst)) = some (.error .indexOutOfRange) := by
  decide +kernel

/-- The run gets through and every key is answered with its value exactly
if no compaction is between two puts into one bucket; then any other key
that is not below the keys of its bucket is reported absent. -/
theorem gets_right_iff_not_straddled (hp : Usable p) (hadm : Admissible width (ops ++ [.compact])) :
    ((∃ s, (new p).run width (ops ++ [.compact]) = .ok s ∧
        ∀ k v, .put k v ∈ ops → s.Gets k v true) ↔ ∀ b, ¬ Straddled p b (ops ++ [.compact])) ∧
    ((∀ b, ¬ Straddled p b (ops ++ [.compact])) →
      ∃ s, (new p).run width (ops ++ [.compact]) = .ok s ∧
        ∀ k, k ∉ keys ops → NotBelow p ops k → s.Gets k 0 false) := by
  have hrun := run_represents width hp (ops ++ [.compact])
  cases hs : (new p).run width (ops ++ [.compact]) with
  | error e =>
    rw [hs] at hrun
    obtain ⟨i, hi⟩ := hrun
    have hphase := phase_run (p := p) (b := i) hadm
    rw [hi] at hphase
    cases hphase with
    | failed straddled =>
      exact ⟨⟨fun ⟨_, hok, _⟩ => (nomatch hok), fun hnot => absurd straddled (hnot i)⟩,
        fun hnot => absurd straddled (hnot i)⟩
  | ok s =>
    rw [hs] at hrun
    obtain ⟨rfl, hrep⟩ := hrun
    refine ⟨⟨fun ⟨t, hok, hget⟩ b hstr => ?_, fun hnot => ?_⟩, fun hnot => ?_⟩
    · cases hok
      obtain ⟨k, v, hput, hno⟩ := exists_not_gets hp hrep hadm hstr
      exact hno (hget k v hput)
    · exact ⟨s, rfl, fun k v hput =>
        gets_of_put hp hrep hadm (hnot _) hput⟩
    · exact ⟨s, rfl, fun k hk hbelow =>
        gets_of_not_put hp hrep hadm (hnot _) hk hbelow⟩

theorem gets_right_two_buckets :
    ((∃ s, (new ⟨10, 2⟩).run (fun _ _ => 32) ([.put 1 7, .put 12 8] ++ [.compact]) = .ok s ∧
        ∀ k v, .put k v ∈ [Op.put 1 7, .put 12 8] → s.Gets k v true) ↔
      ∀ b, ¬ Straddled ⟨10, 2⟩ b ([.put 1 7, .put 12 8] ++ [.compact])) ∧
    ((∀ b, ¬ Straddled ⟨10, 2⟩ b ([.put 1 7, .put 12 8] ++ [.compact])) →
      ∃ s, (new ⟨10, 2⟩).run (fun _ _ => 32) ([.put 1 7, .put 12 8] ++ [.compact]) = .ok s ∧
        ∀ k, k ∉ keys [.put 1 7, .put 12 8] →
          NotBelow ⟨10, 2⟩ [.put 1 7, .put 12 8] k → s.Gets k 0 false) := by
  refine gets_right_iff_not_straddled ⟨by decide, by decide⟩
    ⟨by decide, by decide, fun universeMax hmax k hk => ?_⟩
  have hk' : k ≤ 2 := hk
  refine ⟨by decide, hmax, ?_, by omega⟩
  omega

end Dawgs.Ref.PackedMap

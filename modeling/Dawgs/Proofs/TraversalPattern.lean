import Dawgs.Lib.Cuts
import Dawgs.Ref.Traversal

/-!
# What a traversal pattern delivers

A path matches a pattern if it can be cut into consecutive runs, one for
each expansion, such that every run consists of steps of its expansion and
has a length within its bounds. `Matches` says that of a path and one way
to cut it, and also that the last run could not have gone on. A path is
free of cycles: a step leads to a node that is not on it yet.

A path may match in several ways, and the driver does not compare them. It
comes by each way on its own, so what the delegate gets is a matter of
counting. For one way the count is a product over the expansions after the
first (`multiplicity`), and the factor is where the two fetches show
(`entries`):

* An expansion is entered by the fetch for the next one. That fetch is made
  in the direction of the expansion that is being left, so it returns the
  far ends only if the direction stays the same. If it changes, every
  relationship comes with the node the segment already ends in, and all are
  dropped as cycles.

* An optional expansion is entered a second time, by the segment that is
  kept for it, and from there its own fetch is right. So a nonempty run of
  an optional expansion counts twice where the direction stays, and once
  where it changes; a required one counts once or not at all.

`driver_eq` states what a call does, `shrinks` that calls come to an end,
and `deliveries_counted` follows a segment to the deliveries it leads to.
The induction there is over the worklist's measure, and the recursion of
`weights` is that of the driver: the path's next step belongs to the current
expansion, or the current expansion ends here.
-/

namespace Dawgs.Ref.Traversal

open Lib List

variable {R : Type}

/-! ## What a pattern is meant to find -/

variable (store : RelationshipStore R)

/-- The end of a relationship where an expansion starts from. -/
def near (d : Direction) (r : R) : Nat :=
  match d with
  | .outbound => store.startID r
  | _ => store.endID r

/-- The end of a relationship where an expansion leads to. -/
def far (d : Direction) (r : R) : Nat :=
  match d with
  | .outbound => store.endID r
  | _ => store.startID r

/-- The steps an expansion can take from a segment: the relationships that
match its direction and criteria, to nodes that are not on the path. -/
def stepsFrom (x : Expansion R) (p : PathSegment R) : List (Nat × R) := ((store.all.filter fun r =>
    near store x.direction r == p.node && x.criteria.all (· r)).map
      fun r => (far store x.direction r, r)).filter fun s => s.1 ∉ p.nodes

/-- A segment with more steps. -/
def follow (p : PathSegment R) (steps : List (Nat × R)) : PathSegment R :=
  steps.foldl (fun p s => p.descend s.1 s.2) p

/-- The run goes on from the segment by steps of the expansion. -/
def Follows (store : RelationshipStore R) (x : Expansion R) : PathSegment R → List (Nat × R) → Prop
  | _, [] => True
  | p, s :: run => s ∈ stepsFrom store x p ∧ Follows store x (p.descend s.1 s.2) run

/-- A length the expansion allows. -/
def InBounds (x : Expansion R) (n : Nat) : Prop :=
  x.minDepth ≤ n ∧ (x.maxDepth = 0 ∨ n ≤ x.maxDepth)

/-- The runs go on from the segment one after the other, each by steps of
its expansion and within the expansion's bounds. -/
def Splits (store : RelationshipStore R) :
    List (Expansion R) → PathSegment R → List (List (Nat × R)) → Prop
  | [], _, [] => True
  | x :: xs, p, run :: runs => InBounds x run.length ∧ Follows store x p run ∧
      Splits store xs (follow p run) runs
  | _, _, _ => False

/-- The expansion cannot go on: it is at its upper bound, or there is no
step. -/
def Stuck (x : Expansion R) (depth : Nat) (p : PathSegment R) : Prop :=
  x.maxDepth ≠ 0 ∧ x.maxDepth ≤ depth ∨ stepsFrom store x p = []

/-- The last run cannot go on. -/
def Maximal (store : RelationshipStore R) :
    List (Expansion R) → PathSegment R → List (List (Nat × R)) → Prop
  | [x], q, [run] => Stuck store x run.length q
  | _ :: y :: xs, q, _ :: runs => Maximal store (y :: xs) q runs
  | _, _, _ => False

section Decidable

variable (store : RelationshipStore R)

instance (x : Expansion R) (n : Nat) : Decidable (InBounds x n) :=
  inferInstanceAs (Decidable (_ ∧ (_ ∨ _)))

instance (x : Expansion R) (depth : Nat) (p : PathSegment R) :
    Decidable (Stuck store x depth p) := inferInstanceAs (Decidable (_ ∧ _ ∨ _))

def decidableFollows [DecidableEq R] (x : Expansion R) :
    (p : PathSegment R) → (run : List (Nat × R)) → Decidable (Follows store x p run)
  | _, [] => isTrue trivial
  | p, s :: run =>
    have := decidableFollows x (p.descend s.1 s.2) run
    inferInstanceAs (Decidable (_ ∧ _))

instance [DecidableEq R] (x : Expansion R) (p : PathSegment R)
    (run : List (Nat × R)) : Decidable (Follows store x p run) := decidableFollows store x p run

def decidableSplits [DecidableEq R] :
    (xs : List (Expansion R)) → (p : PathSegment R) →
    (runs : List (List (Nat × R))) → Decidable (Splits store xs p runs)
  | [], _, [] => isTrue trivial
  | [], _, _ :: _ => isFalse id
  | _ :: _, _, [] => isFalse id
  | _ :: xs, p, run :: runs =>
    have := decidableSplits xs (follow p run) runs
    inferInstanceAs (Decidable (_ ∧ _ ∧ _))

instance [DecidableEq R] (xs : List (Expansion R)) (p : PathSegment R)
    (runs : List (List (Nat × R))) : Decidable (Splits store xs p runs) :=
  decidableSplits store xs p runs

def decidableMaximal :
    (xs : List (Expansion R)) → (q : PathSegment R) →
    (runs : List (List (Nat × R))) → Decidable (Maximal store xs q runs)
  | [], _, _ => isFalse id
  | [_], _, [] => isFalse id
  | [x], q, [run] => inferInstanceAs (Decidable (Stuck store x run.length q))
  | [_], _, _ :: _ :: _ => isFalse id
  | _ :: _ :: _, _, [] => isFalse id
  | _ :: y :: xs, q, _ :: runs => decidableMaximal (y :: xs) q runs

instance (xs : List (Expansion R)) (q : PathSegment R)
    (runs : List (List (Nat × R))) : Decidable (Maximal store xs q runs) :=
  decidableMaximal store xs q runs

end Decidable

/-- The runs are a way to read the path as a maximal match of the pattern
from the root. -/
def Matches (xs : List (Expansion R))
    (root : Nat) (q : PathSegment R) (runs : List (List (Nat × R))) : Prop :=
  q = follow (.root root) runs.flatten ∧ Splits store xs (.root root) runs ∧ Maximal store xs q runs

/-! ## What the driver makes of it -/

/-- How often the driver enters an expansion for one run of it. A run of
length zero is entered with the kept segment only. Any other is entered by
the fetch for the next expansion, which is of use when the direction stays
the same, and by the kept segment of an optional expansion. -/
def entries (x y : Expansion R) (run : List (Nat × R)) : Nat :=
  if run = [] then 1
  else (if x.direction = y.direction then 1 else 0) +
    if y.minDepth = 0 then 1 else 0

/-- How often the driver comes by a way of reading a path. -/
def multiplicity : List (Expansion R) → List (List (Nat × R)) → Nat
  | x :: y :: xs, _ :: run :: runs =>
    entries x y run * multiplicity (y :: xs) (run :: runs)
  | _, _ => 1

variable {store : RelationshipStore R} {p : PathSegment R}

variable {xs : List (Expansion R)}
  {y x : Expansion R} {s : Tagged R} {i d root : Nat} {runs : List (List (Nat × R))}

theorem Splits.length
    (h : Splits store xs p runs) : runs.length = xs.length := by
  induction xs generalizing p runs with
  | nil =>
    cases runs with
    | nil => rfl
    | cons run runs => exact h.elim
  | cons x xs ih =>
    cases runs with
    | nil => exact h.elim
    | cons run runs => exact congrArg (· + 1) (ih h.2.2)

/-- All expansions go in one direction, and all but the first are
required. -/
def Regular : List (Expansion R) → Prop
  | x :: y :: xs => x.direction = y.direction ∧ y.minDepth ≠ 0 ∧ Regular (y :: xs)
  | _ => True

theorem Regular.multiplicity (h : Regular xs) (runs : List (List (Nat × R))) :
    Traversal.multiplicity xs runs = 1 := by
  induction xs generalizing runs with
  | nil => rfl
  | cons x xs ih =>
    match xs, runs with
    | [], _ => rfl
    | _ :: _, [] => rfl
    | _ :: _, [_] => rfl
    | y :: ys, _ :: run :: runs =>
      obtain ⟨hsame, hrequired, hrest⟩ := h
      rw [Traversal.multiplicity, ih hrest, entries, if_pos hsame, if_neg hrequired, ite_self]

/-! ## Segments -/

theorem follow_cons {s : Nat × R} {steps : List (Nat × R)} :
    follow p (s :: steps) = follow (p.descend s.1 s.2) steps := rfl

/-- The steps of a segment from its root. -/
def steps : PathSegment R → List (Nat × R)
  | .root _ => []
  | .descend trunk node edge => steps trunk ++ [(node, edge)]

theorem steps_follow (l : List (Nat × R)) :
    steps (follow p l) = steps p ++ l := by
  induction l generalizing p with
  | nil => exact (append_nil _).symm
  | cons s l ih => rw [follow_cons, ih, steps, append_assoc]; rfl

theorem follow_injective {a b : List (Nat × R)} (h : follow p a = follow p b) : a = b := by
  have hsteps := congrArg steps h
  rw [steps_follow, steps_follow] at hsteps
  exact append_cancel_left hsteps

/-! ## One call of the driver -/

theorem nodup_stepsFrom (store : RelationshipStore R) (x : Expansion R)
    : (stepsFrom store x p).Nodup := by
  refine ((store.nodup.filter _).map ?_).filter _
  intro a b h
  exact (Prod.mk.inj h).2

theorem isCycle_descend {s : Nat × R} :
    (p.descend s.1 s.2).isCycle = decide (s.1 ∈ p.nodes) := rfl

/-- The segments a fetch goes on with. -/
theorem descents_eq {tag : PatternTag} (results : List (Nat × R)) :
    descents p tag results = (results.filter fun s => s.1 ∉ p.nodes).map fun s =>
        ⟨p.descend s.1 s.2, some ⟨tag.patternIdx, tag.depth + 1⟩⟩ := by
  rw [descents, filter_map, map_map]
  congr 1
  refine filter_congr fun s _ => ?_
  show (!(p.descend s.1 s.2).isCycle) = _
  rw [isCycle_descend, decide_not]

/-- The fetch for the current expansion, or for a next one in the same
direction. -/
theorem expand_same (hx : x.direction ≠ .both)
    (hsame : x.direction = y.direction) (p : PathSegment R) (tag : PatternTag) :
    expand store y p x.direction.reverse tag = .ok ((stepsFrom store y p).map fun s =>
        ⟨p.descend s.1 s.2, some ⟨tag.patternIdx, tag.depth + 1⟩⟩) := by
  rw [hsame] at hx ⊢
  rw [expand, prepareCriteria, stepsFrom]
  cases hy : y.direction with
  | both => exact absurd hy hx
  | inbound | outbound => exact congrArg Except.ok (descents_eq ..)

/-- The fetch for a next expansion in the other direction returns the near
ends. -/
theorem expand_other (hx : x.direction ≠ .both)
    (hy : y.direction ≠ .both) (hother : x.direction ≠ y.direction)
    (p : PathSegment R) (tag : PatternTag) : expand store y p x.direction.reverse tag = .ok [] := by
  have hnear : p.node ∈ p.nodes := by cases p <;> simp [PathSegment.node, PathSegment.nodes]
  have hfetch : ∀ (criteria : R → Bool) (end' : R → Nat), (∀ r, criteria r → end' r = p.node) →
      descents p tag ((store.all.filter criteria).map fun r => (end' r, r)) = [] := by
    intro criteria end' h
    rw [descents_eq, List.map_eq_nil_iff, filter_eq_nil_iff]
    intro s hs
    obtain ⟨r, hr, rfl⟩ := mem_map.mp hs
    simp [h r (mem_filter.mp hr).2, hnear]
  rw [expand, prepareCriteria]
  cases hxd : x.direction <;> cases hyd : y.direction <;>
    first
    | contradiction
    | exact absurd (hxd.trans hyd.symm) hother
    | exact congrArg Except.ok (hfetch _ _ fun r hr => by
        simpa using (Bool.and_eq_true_iff.mp hr).1)

/-- The segments a call returns for an expansion. -/
def tagged (p : PathSegment R) (patternIdx depth : Nat)
    (steps : List (Nat × R)) : List (Tagged R) :=
  steps.map fun s => ⟨p.descend s.1 s.2, some ⟨patternIdx, depth⟩⟩

section

variable (store : RelationshipStore R)

/-- The segments that go on with the current expansion. -/
def continued (x : Expansion R)
    (p : PathSegment R) (i d : Nat) : List (Tagged R) :=
  if x.maxDepth = 0 ∨ d < x.maxDepth then
    tagged p i (d + 1) (stepsFrom store x p)
  else []

/-- The segments that go over to the next expansion. -/
def entered (x y : Expansion R)
    (p : PathSegment R) (i : Nat) : List (Tagged R) := (if x.direction = y.direction then
    tagged p (i + 1) 1 (stepsFrom store y p) else []) ++
  if y.minDepth = 0 then [⟨p, some ⟨i + 1, 0⟩⟩] else []

theorem isEmpty_continued (x : Expansion R)
    (p : PathSegment R) (i d : Nat) : (continued store x p i d).isEmpty ↔ Stuck store x d p := by
  rw [continued, Stuck, List.isEmpty_iff]
  split
  next h =>
    rw [tagged, List.map_eq_nil_iff, iff_or_self]
    omega
  next h =>
    refine ⟨fun _ => .inl ?_, fun _ => rfl⟩
    omega

end

theorem mem_continued (h : s ∈ continued store x p i d) : (x.maxDepth = 0 ∨ d < x.maxDepth) ∧
    ∃ step ∈ stepsFrom store x p, ⟨p.descend step.1 step.2, some ⟨i, d + 1⟩⟩ = s := by
  rw [continued] at h
  split at h
  next hd => exact ⟨hd, mem_map.mp h⟩
  · cases h

theorem tag_of_mem_continued (h : s ∈ continued store x p i d) :
    popSegmentPatternTag s = ⟨i, d + 1⟩ := by
  obtain ⟨-, step, -, rfl⟩ := mem_continued h
  rfl

theorem mem_entered (h : s ∈ entered store x y p i) :
    (∃ step ∈ stepsFrom store y p, ⟨p.descend step.1 step.2, some ⟨i + 1, 1⟩⟩ = s) ∨
      s = ⟨p, some ⟨i + 1, 0⟩⟩ := by
  rcases mem_append.mp h with h | h <;> split at h
  · exact .inl (mem_map.mp h)
  · cases h
  · exact .inr (mem_singleton.mp h)
  · cases h

theorem idx_of_mem_entered (h : s ∈ entered store x y p i) :
    (popSegmentPatternTag s).patternIdx = i + 1 := by
  rcases mem_entered h with ⟨step, -, rfl⟩ | rfl <;> rfl

section

variable (store : RelationshipStore R)

/-- A call of the driver. -/
theorem driver_eq
    (hxs : ∀ x ∈ xs, x.direction ≠ .both) (hx : xs[i]? = some x)
    (p : PathSegment R) : driver store xs ⟨p, some ⟨i, d⟩⟩ = .ok (if x.minDepth ≤ d then
        match xs[i + 1]? with
        | some y => (continued store x p i d ++ entered store x y p i, [])
        | none => (continued store x p i d,
            if (continued store x p i d).isEmpty then [p] else [])
      else (continued store x p i d, [])) := by
  have hboth : x.direction ≠ .both := hxs x (mem_of_getElem? hx)
  have hcontinued : expandCurrent store x p x.direction.reverse ⟨i, d⟩ =
      .ok (continued store x p i d) := by
    rw [expandCurrent, continued]
    split
    · exact expand_same hboth rfl p ⟨i, d⟩
    · rfl
  have hcomplete : (0 < d ∧ x.minDepth = 0 ∨ x.minDepth ≤ d) ↔ x.minDepth ≤ d := by omega
  rw [driver]
  simp only [popSegmentPatternTag, Option.getD_some, hx]
  rw [hcontinued]
  simp only [hcomplete]
  split
  · cases hy : xs[i + 1]? with
    | none => rfl
    | some y =>
      have hyboth : y.direction ≠ .both := hxs y (mem_of_getElem? hy)
      dsimp only
      rw [entered]
      by_cases hsame : x.direction = y.direction
      · rw [expand_same hboth hsame p ⟨i + 1, 0⟩, if_pos hsame, ← append_assoc]
        rfl
      · rw [expand_other hboth hyboth hsame p ⟨i + 1, 0⟩, if_neg hsame, nil_append]
        show Except.ok _ = _
        rw [append_nil]
  · rfl

/-! ## The driver comes to an end

A path visits a node once, so it has no more steps than there are nodes a
relationship can lead to. Where a call keeps the segment, it goes on with a
later expansion. -/

/-- The nodes a path from the root can visit. -/
def visitable (root : Nat) : List Nat :=
  root :: store.all.flatMap fun r => [store.startID r, store.endID r]

section

variable (xs : List (Expansion R)) (root : Nat) (s : Tagged R)

/-- What every segment given to the driver keeps. -/
structure Sound
    : Prop where
  expansion : ∃ x, xs[(popSegmentPatternTag s).patternIdx]? = some x ∧
    (x.maxDepth = 0 ∨ (popSegmentPatternTag s).depth ≤ x.maxDepth)
  nodup : s.segment.nodes.Nodup
  within : s.segment.nodes ⊆ visitable store root

/-- The measure of a segment: the nodes it may still visit, and then the
expansions that are left. -/
def rank
    : Nat :=
  ((visitable store root).length - s.segment.nodes.length) * (xs.length + 1) +
    (xs.length - (popSegmentPatternTag s).patternIdx)

end

end

theorem Sound.length_le (h : Sound store xs root s) :
    s.segment.nodes.length ≤ (visitable store root).length :=
  (subperm_of_subset h.nodup h.within).length_le

theorem mem_stepsFrom {s : Nat × R} (h : s ∈ stepsFrom store x p) :
    s.2 ∈ store.all ∧ s.1 = far store x.direction s.2 ∧ s.1 ∉ p.nodes := by
  rw [stepsFrom, mem_filter, mem_map] at h
  obtain ⟨⟨r, hr, rfl⟩, hs⟩ := h
  exact ⟨(mem_filter.mp hr).1, rfl, of_decide_eq_true hs⟩

theorem far_mem_visitable (root : Nat)
    (d : Direction) {r : R} (hr : r ∈ store.all) : far store d r ∈ visitable store root := by
  refine mem_cons_of_mem _ (mem_flatMap.mpr ⟨r, hr, ?_⟩)
  cases d <;> simp [far]

/-- A step along a relationship, to any place in the pattern. -/
theorem Sound.descend (h : Sound store xs root s) {step : Nat × R}
    (hstep : step ∈ stepsFrom store y s.segment) {z : Expansion R} (hz : xs[i]? = some z)
    (hd : z.maxDepth = 0 ∨ d ≤ z.maxDepth) :
    Sound store xs root ⟨s.segment.descend step.1 step.2, some ⟨i, d⟩⟩ ∧
      rank store xs root ⟨s.segment.descend step.1 step.2, some ⟨i, d⟩⟩ < rank store xs root s := by
  obtain ⟨hr, hfar, hnew⟩ := mem_stepsFrom hstep
  have hsound : Sound store xs root ⟨s.segment.descend step.1 step.2, some ⟨i, d⟩⟩ := by
    refine ⟨⟨z, hz, hd⟩, nodup_cons.mpr ⟨hnew, h.nodup⟩, ?_⟩
    refine cons_subset.mpr ⟨?_, h.within⟩
    rw [hfar]
    exact far_mem_visitable root _ hr
  refine ⟨hsound, ?_⟩
  have hle : s.segment.nodes.length + 1 ≤ (visitable store root).length := hsound.length_le
  rw [rank, rank]
  show ((visitable store root).length - (s.segment.nodes.length + 1)) *
    (xs.length + 1) + (xs.length - i) < _
  obtain ⟨k, hk⟩ := Nat.exists_eq_add_of_le hle
  rw [hk, Nat.add_sub_cancel_left,
    show s.segment.nodes.length + 1 + k - s.segment.nodes.length = k + 1 by
      omega, Nat.succ_mul]
  omega

theorem sound_root (store : RelationshipStore R) (x : Expansion R)
    (rest : List (Expansion R)) (root : Nat) : Sound store (x :: rest) root ⟨.root root, none⟩ :=
  ⟨⟨x, rfl, .inr (Nat.zero_le _)⟩, nodup_singleton _,
    cons_subset.mpr ⟨mem_cons_self .., nil_subset _⟩⟩

/-- The driver does not fail, and what it returns is smaller. -/
theorem shrinks (store : RelationshipStore R) (root : Nat) (hxs : ∀ x ∈ xs, x.direction ≠ .both) :
    Shrinks (driver store xs) (Sound store xs root) (rank store xs root) := by
  intro s hs
  obtain ⟨p, tag⟩ := s
  obtain ⟨x, hx, hd⟩ := hs.expansion
  -- a missing tag is the one at the start of the pattern
  have hpop : driver store xs ⟨p, tag⟩ =
      driver store xs ⟨p, some (popSegmentPatternTag ⟨p, tag⟩)⟩ := rfl
  generalize htag : popSegmentPatternTag ⟨p, tag⟩ = popped at hx hd hpop
  obtain ⟨i, d⟩ := popped
  have hcontinued : ∀ s' ∈ continued store x p i d,
      Sound store xs root s' ∧ rank store xs root s' < rank store xs root ⟨p, tag⟩ := by
    intro s' hs'
    obtain ⟨hmax, step, hstep, rfl⟩ := mem_continued hs'
    exact hs.descend hstep hx (by omega)
  rw [hpop, driver_eq store hxs hx p]
  split
  · cases hy : xs[i + 1]? with
    | none => exact ⟨_, _, rfl, hcontinued⟩
    | some y =>
      refine ⟨_, _, rfl, fun s' hs' => ?_⟩
      rcases mem_append.mp hs' with hs' | hs'
      · exact hcontinued s' hs'
      · rcases mem_entered hs' with ⟨step, hstep, rfl⟩ | rfl
        · exact hs.descend hstep hy (by omega)
        · refine ⟨⟨⟨y, hy, .inr (Nat.zero_le _)⟩, hs.nodup, hs.within⟩, ?_⟩
          have hlt := (List.getElem?_eq_some_iff.mp hy).1
          rw [rank, rank, htag]
          exact Nat.add_lt_add_left (show xs.length - (i + 1) < xs.length - i by omega) _
  · exact ⟨_, _, rfl, hcontinued⟩

/-! ## Counting what is delivered

From a segment in the middle of an expansion, a path that goes on from there
is delivered once for every way to read the rest of it, times the entries
on the way. `weight` is that number for one way and `weights` the sum over
all of them. -/

section Count

variable [DecidableEq R] {rest : List (Expansion R)}

/-- How often the driver, in expansion `x` at depth `d` with the expansions
`rest` to come, comes by a way to read the rest of a path. -/
def weight (store : RelationshipStore R) :
    List (Expansion R) → Nat → Expansion R → PathSegment R → List (List (Nat × R)) → Nat
  | [], d, x, p, [run] =>
    if InBounds x (d + run.length) ∧ Follows store x p run ∧
      Stuck store x (d + run.length) (follow p run) then 1 else 0
  | y :: ys, d, x, p, run :: run' :: later =>
    if InBounds x (d + run.length) ∧ Follows store x p run then
      entries x y run' * weight store ys 0 y (follow p run) (run' :: later)
    else 0
  | _, _, _, _, _ => 0

def weights (store : RelationshipStore R) (rest : List (Expansion R)) (d : Nat) (x : Expansion R)
    (p : PathSegment R) (steps : List (Nat × R)) : Nat :=
  ((cuts steps (rest.length + 1)).map (weight store rest d x p)).sum

section

variable {ys : List (Expansion R)}

/-- The first step of the first run is one the current expansion takes. -/
theorem weight_consHead {s : Nat × R} :
    weight store rest d x p (consHead s runs) =
      if (x.maxDepth = 0 ∨ d < x.maxDepth) ∧ s ∈ stepsFrom store x p then
        weight store rest (d + 1) x (p.descend s.1 s.2) runs else 0 := by
  cases runs with
  | nil => cases rest <;> simp [consHead, weight]
  | cons run later =>
    have hlen : d + (s :: run).length = d + 1 + run.length := by
      rw [length_cons]
      omega
    have hbounds : InBounds x (d + 1 + run.length) → x.maxDepth = 0 ∨ d < x.maxDepth := by
      intro h
      have := h.2
      omega
    rcases rest with _ | ⟨y, ys⟩ <;> rcases later with _ | ⟨run', later⟩
    · rw [consHead, weight, weight, hlen, ← ite_and]
      refine if_congr ?_ rfl rfl
      show _ ∧ (_ ∧ _) ∧ _ ↔ _
      tauto
    · simp [consHead, weight]
    · simp [consHead, weight]
    · rw [consHead, weight, weight, hlen, ← ite_and]
      refine if_congr ?_ rfl rfl
      show _ ∧ _ ∧ _ ↔ _
      tauto

/-- The part of the weights where the current expansion takes a step. -/
def onward (store : RelationshipStore R) (rest : List (Expansion R)) (d : Nat)
    (x : Expansion R) (p : PathSegment R) : List (Nat × R) → Nat
  | [] => 0
  | s :: steps =>
    if (x.maxDepth = 0 ∨ d < x.maxDepth) ∧ s ∈ stepsFrom store x p then
      weights store rest (d + 1) x (p.descend s.1 s.2) steps else 0

theorem sum_consHead {s : Nat × R} {steps : List (Nat × R)} :
    ((cuts steps (rest.length + 1)).map fun runs =>
      weight store rest d x p (consHead s runs)).sum =
      onward store rest d x p (s :: steps) := by
  simp only [weight_consHead, onward]
  split
  · rfl
  · exact sum_eq_zero (by simp)

theorem weights_cons (s : Nat × R) (steps : List (Nat × R)) :
    weights store rest d x p (s :: steps) = ((cuts (s :: steps) rest.length).map fun runs =>
        weight store rest d x p ([] :: runs)).sum +
      onward store rest d x p (s :: steps) := by
  rw [weights, sum_map_cuts, sum_consHead]

section

variable (hd : x.maxDepth = 0 ∨ d ≤ x.maxDepth)
include hd

/-- In the last expansion. -/
theorem weights_last (steps : List (Nat × R)) :
    weights store [] d x p steps = onward store [] d x p steps +
      if x.minDepth ≤ d ∧ Stuck store x d p ∧ steps = [] then 1 else 0 := by
  cases steps with
  | nil =>
    show weight store [] d x p [[]] + 0 = 0 + _
    rw [weight]
    simp [InBounds, Follows, follow, hd]
  | cons s steps =>
    rw [weights_cons]
    simp [cuts, cutsCons]

omit hd in
theorem weight_required (hy : y.minDepth ≠ 0) (runs : List (List (Nat × R))) :
    weight store ys 0 y p ([] :: runs) = 0 := by
  have hbounds : ¬ InBounds y 0 := fun h => hy (Nat.le_zero.mp h.1)
  cases ys with
  | nil =>
    cases runs with
    | nil => exact if_neg fun h => hbounds h.1
    | cons run runs => simp [weight]
  | cons z zs =>
    cases runs with
    | nil => simp [weight]
    | cons run runs => exact if_neg fun h => hbounds h.1

/-- The current expansion is left at once, and so is the next one. -/
theorem weight_nil_nil
    : weight store (y :: ys) d x p ([] :: [] :: runs) =
      if x.minDepth ≤ d then weight store ys 0 y p ([] :: runs) else 0 := by
  refine if_congr ?_ (Nat.one_mul _) rfl
  simp [InBounds, Follows, hd]

/-- The current expansion is left at once, and the next one takes a step. -/
theorem weight_nil_consHead {s : Nat × R} :
    weight store (y :: ys) d x p ([] :: consHead s runs) =
      if x.minDepth ≤ d then
        ((if x.direction = y.direction then 1 else 0) +
          if y.minDepth = 0 then 1 else 0) *
        weight store ys 0 y p (consHead s runs) else 0 := by
  cases runs with
  | nil => cases ys <;> simp [consHead, weight]
  | cons run runs =>
    refine if_congr ?_ ?_ rfl
    · simp [InBounds, Follows, hd]
    · rw [entries]
      rfl

/-- Before the last expansion. -/
theorem weights_next (steps : List (Nat × R)) :
    weights store (y :: ys) d x p steps = onward store (y :: ys) d x p steps +
      if x.minDepth ≤ d then
        (if x.direction = y.direction then onward store ys 0 y p steps
          else 0) +
        if y.minDepth = 0 then weights store ys 0 y p steps else 0
      else 0 := by
  cases steps with
  | nil =>
    show weight store (y :: ys) d x p ([] :: [] :: replicate ys.length []) + 0 = 0 + _
    rw [weight_nil_nil hd, onward, ite_self]
    by_cases hy : y.minDepth = 0
    · rw [if_pos hy]
      show _ = 0 + if _ then 0 + (weight store ys 0 y p
        ([] :: replicate ys.length []) + 0) else 0
      simp
    · rw [if_neg hy, weight_required hy]
      simp
  | cons s steps =>
    rw [weights_cons, Nat.add_comm, length_cons, sum_map_cuts]
    simp only [weight_nil_nil hd, weight_nil_consHead hd]
    by_cases hmin : x.minDepth ≤ d
    · simp only [if_pos hmin]
      rw [sum_map_mul_left, sum_consHead, weights_cons]
      -- a required expansion is not left at once
      by_cases hy : y.minDepth = 0
      · by_cases hsame : x.direction = y.direction <;>
          simp only [hy, hsame, if_true, if_false] <;> omega
      · simp only [weight_required hy, if_neg hy]
        by_cases hsame : x.direction = y.direction <;> simp [hsame]
    · simp [hmin]

end

end

/-! ### Counting segments -/

/-- The segments all go on from `p`, and each by its steps as often as the
function says. -/
structure Counted (f : Multiset (PathSegment R)) (p : PathSegment R)
    (w : List (Nat × R) → Nat) : Prop where
  count : ∀ steps, f.count (follow p steps) = w steps
  only : ∀ q, (∀ steps, q ≠ follow p steps) → f.count q = 0

namespace Counted

variable {f g : Multiset (PathSegment R)} {v w : List (Nat × R) → Nat}

theorem zero (p : PathSegment R) : Counted 0 p fun _ => 0 :=
  ⟨fun _ => Multiset.count_zero _, fun _ _ => Multiset.count_zero _⟩

theorem add (hf : Counted f p v) (hg : Counted g p w) :
    Counted (f + g) p fun steps => v steps + w steps := by
  refine ⟨fun steps => ?_, fun q hq => ?_⟩
  · rw [Multiset.count_add, hf.count, hg.count]
  · rw [Multiset.count_add, hf.only q hq, hg.only q hq]

theorem congr (hf : Counted f p v) (h : ∀ steps, v steps = w steps) :
    Counted f p w := ⟨fun steps => (hf.count steps).trans (h steps), hf.only⟩

/-- The segment itself. -/
theorem self (p : PathSegment R) : Counted {p} p fun steps => if steps = [] then 1 else 0 := by
  refine ⟨fun steps => ?_, fun q hq => ?_⟩
  · rw [Multiset.count_singleton]
    refine if_congr ⟨fun h => ?_, fun h => ?_⟩ rfl rfl
    · exact follow_injective (p := p) h
    · rw [h]
      rfl
  · rw [Multiset.count_singleton, if_neg]
    exact hq []

/-- What goes on from the segments one step further. -/
theorem sum_steps {next : List (Nat × R)} (hnext : next.Nodup)
    {F : Nat × R → Multiset (PathSegment R)} {w : Nat × R → List (Nat × R) → Nat}
    (h : ∀ s ∈ next, Counted (F s) (p.descend s.1 s.2) (w s)) :
    Counted (next.map F).sum p fun steps =>
      match steps with
      | [] => 0
      | s :: steps => if s ∈ next then w s steps else 0 := by
  have hcount : ∀ q, (next.map F).sum.count q = (next.map fun s => (F s).count q).sum := by
    intro q
    rw [← Multiset.coe_countAddMonoidHom, map_list_sum, map_map]
    rfl
  refine ⟨fun steps => ?_, fun q hq => ?_⟩
  · rw [hcount]
    cases steps with
    | nil =>
      refine sum_eq_zero fun n hn => ?_
      obtain ⟨s, hs, rfl⟩ := mem_map.mp hn
      refine (h s hs).only _ fun l heq => ?_
      cases follow_injective (p := p) (b := s :: l) heq
    | cons s steps =>
      have hother : ∀ s', s' ≠ s → s' ∈ next → (F s').count (follow p (s :: steps)) = 0 := by
        intro s' hne hs'
        refine (h s' hs').only _ fun l heq => ?_
        cases follow_injective (p := p) (b := s' :: l) heq
        exact hne rfl
      rw [sum_map_single hnext s hother]
      dsimp only
      split
      next hs => rw [follow_cons, (h s hs).count]
      · rfl
  · rw [hcount]
    refine sum_eq_zero fun n hn => ?_
    obtain ⟨s, hs, rfl⟩ := mem_map.mp hn
    exact (h s hs).only q fun l => hq (s :: l)

end Counted

/-! ### The outcome of a segment -/

/-- What the driver delivers from a segment on. -/
def deliveries (store : RelationshipStore R) (xs : List (Expansion R))
    (root : Nat) (s : Tagged R) : Multiset (PathSegment R) :=
  outcome (driver store xs) (rank store xs root) s

/-- The steps of an expansion, from what is known one step further. -/
theorem counted_tagged (hd : x.maxDepth = 0 ∨ d < x.maxDepth)
    (h : ∀ s ∈ tagged p i (d + 1) (stepsFrom store x p),
      Counted (deliveries store xs root s) s.segment (weights store rest (d + 1) x s.segment)) :
    Counted ((tagged p i (d + 1) (stepsFrom store x p)).map
      (deliveries store xs root)).sum p (onward store rest d x p) := by
  rw [tagged, map_map]
  refine (Counted.sum_steps (nodup_stepsFrom store x)
    fun s hs => h _ (mem_map.mpr ⟨s, hs, rfl⟩)).congr fun steps => ?_
  cases steps with
  | nil => rfl
  | cons s steps => exact if_congr (and_iff_right hd).symm rfl rfl

theorem counted_continued (h : ∀ s ∈ continued store x p i d,
      Counted (deliveries store xs root s) s.segment (weights store rest (d + 1) x s.segment)) :
    Counted ((continued store x p i d).map (deliveries store xs root)).sum p
      (onward store rest d x p) := by
  rw [continued] at h ⊢
  split
  next hd =>
    rw [if_pos hd] at h
    exact counted_tagged hd h
  next hd =>
    refine (Counted.zero p).congr fun steps => ?_
    cases steps with
    | nil => rfl
    | cons s steps => exact (if_neg fun h => hd h.1).symm

theorem counted_entered (ys : List (Expansion R))
    (h : ∀ s ∈ entered store x y p i, Counted (deliveries store xs root s) s.segment
        (weights store ys (popSegmentPatternTag s).depth y s.segment)) :
    Counted ((entered store x y p i).map (deliveries store xs root)).sum p
      fun steps => (if x.direction = y.direction then
          onward store ys 0 y p steps else 0) +
        if y.minDepth = 0 then weights store ys 0 y p steps else 0 := by
  rw [entered] at h ⊢
  rw [map_append, sum_append]
  refine Counted.add ?_ ?_
  · split
    next hsame =>
      refine counted_tagged (by omega) fun s hs => ?_
      have hcounted := h s (mem_append_left _ (by rwa [if_pos hsame]))
      obtain ⟨step, _, rfl⟩ := mem_map.mp hs
      exact hcounted
    · exact Counted.zero p
  · split
    next hy =>
      have hcounted := h ⟨p, some ⟨i + 1, 0⟩⟩ (mem_append_right _ (by rw [if_pos hy]; simp))
      rw [map_singleton, sum_singleton]
      exact hcounted
    · exact Counted.zero p

theorem deliveries_counted (hxs : ∀ x ∈ xs, x.direction ≠ .both)
    (hs : Sound store xs root s) (hdrop : xs.drop (popSegmentPatternTag s).patternIdx = x :: rest) :
    Counted (deliveries store xs root s) s.segment
      (weights store rest (popSegmentPatternTag s).depth x s.segment) := by
  induction hn : rank store xs root s using Nat.strongRecOn generalizing s x rest with
  | ind n ih =>
    obtain ⟨p, tag⟩ := s
    obtain ⟨z, hz, hd⟩ := hs.expansion
    obtain ⟨next, made, hwork, hnext⟩ := shrinks store root hxs ⟨p, tag⟩ hs
    have hchild : ∀ s' ∈ next, ∀ z zs, xs.drop (popSegmentPatternTag s').patternIdx = z :: zs →
        Counted (deliveries store xs root s') s'.segment
          (weights store zs (popSegmentPatternTag s').depth z s'.segment) :=
      fun s' hs' _ _ hz => ih _ (hn ▸ (hnext s' hs').2) (hnext s' hs').1 hz rfl
    rw [deliveries, outcome_eq (shrinks store root hxs) hs hwork]
    have hpop : driver store xs ⟨p, tag⟩ =
        driver store xs ⟨p, some (popSegmentPatternTag ⟨p, tag⟩)⟩ := rfl
    rw [hpop] at hwork
    generalize popSegmentPatternTag ⟨p, tag⟩ = popped at hz hd hwork hdrop ⊢
    obtain ⟨i, d⟩ := popped
    have hget : ∀ j, xs[i + j]? = (x :: rest)[j]? := by
      intro j
      rw [← hdrop, getElem?_drop]
    have hx : xs[i]? = some x := hget 0
    obtain rfl : z = x := Option.some.inj (hz.symm.trans hx)
    have hy : xs[i + 1]? = rest[0]? := hget 1
    rw [driver_eq store hxs hx p, hy] at hwork
    have hcontinued : (∀ s' ∈ continued store z p i d, s' ∈ next) →
        Counted ((continued store z p i d).map
          (deliveries store xs root)).sum p (onward store rest d z p) := by
      intro hsub
      refine counted_continued fun s' hs' => ?_
      have hcounted := hchild s' (hsub s' hs') z rest
      rw [tag_of_mem_continued hs'] at hcounted
      exact hcounted hdrop
    cases rest with
    | nil =>
      split at hwork
      next hmin =>
        cases hwork
        refine (Counted.add ?_ (hcontinued fun _ => id)).congr
          fun steps => ((weights_last hd steps).trans (Nat.add_comm ..)).symm
        split
        next hempty =>
          have hstuck := (isEmpty_continued store z p i d).mp hempty
          refine (Counted.self p).congr fun steps => ?_
          simp [hmin, hstuck]
        next hempty =>
          rw [isEmpty_continued] at hempty
          refine (Counted.zero p).congr fun steps => ?_
          simp [hempty]
      next hmin =>
        cases hwork
        refine (Counted.add (Counted.zero p) (hcontinued fun _ => id)).congr fun steps => ?_
        rw [weights_last hd, if_neg fun h => hmin h.1, Nat.add_comm]
    | cons y ys =>
      split at hwork
      next hmin =>
        cases hwork
        have hentered := counted_entered ys fun s' hs' =>
          hchild s' (mem_append_right _ hs') y ys (by
            rw [idx_of_mem_entered hs', ← drop_drop, hdrop]
            rfl)
        rw [map_append, sum_append]
        refine (Counted.add (Counted.zero p) (Counted.add
          (hcontinued fun _ => mem_append_left _) hentered)).congr fun steps => ?_
        rw [weights_next hd, if_pos hmin, Nat.zero_add]
      next hmin =>
        cases hwork
        refine (Counted.add (Counted.zero p) (hcontinued fun _ => id)).congr fun steps => ?_
        rw [weights_next hd, if_neg hmin, Nat.add_comm]

/-! ## The whole run -/

/-- One way to read a path counts for its entries if it is a match, and for
nothing otherwise. -/
theorem weight_eq (store : RelationshipStore R) (rest : List (Expansion R))
    (x : Expansion R) (p : PathSegment R) (runs : List (List (Nat × R))) :
    weight store rest 0 x p runs =
      if Splits store (x :: rest) p runs ∧
          Maximal store (x :: rest) (follow p runs.flatten) runs then
        multiplicity (x :: rest) runs else 0 := by
  induction rest generalizing x p runs with
  | nil =>
    match runs with
    | [] => simp [weight, Splits]
    | [run] =>
      rw [weight, multiplicity]
      simp [Splits, Maximal, and_assoc]
      simp
    | _ :: _ :: _ => simp [weight, Splits]
  | cons y ys ih =>
    match runs with
    | [] => simp [weight, Splits]
    | [run] => simp [weight, Splits]
    | run :: run' :: later =>
      have hflatten : follow p (run :: run' :: later).flatten =
          follow (follow p run) (run' :: later).flatten := by
        rw [flatten_cons, follow, foldl_append]
        rfl
      rw [weight, ih, Nat.zero_add, hflatten, mul_ite, mul_zero, ← ite_and]
      refine if_congr ?_ rfl rfl
      show (_ ∧ _) ∧ _ ∧ _ ↔ (_ ∧ _ ∧ _) ∧ Maximal store (y :: ys) _ _
      tauto

/-- How often a path is delivered: for every way to read it as a maximal
match, the entries of that way. -/
theorem count_deliveries (store : RelationshipStore R) (hxs : ∀ y ∈ x :: rest, y.direction ≠ .both)
    (root : Nat) (q : PathSegment R) :
    ∃ ways : List (List (List (Nat × R))), ways.Nodup ∧
      (∀ runs, runs ∈ ways ↔ Matches store (x :: rest) root q runs) ∧
      (deliveries store (x :: rest) root ⟨.root root, none⟩).count q =
        (ways.map (multiplicity (x :: rest))).sum := by
  have hcounted : Counted (deliveries store (x :: rest) root ⟨.root root, none⟩)
      (.root root) (weights store rest 0 x (.root root)) :=
    deliveries_counted hxs (sound_root store x rest root) rfl
  by_cases hq : ∃ l, q = follow (.root root) l
  · obtain ⟨l, rfl⟩ := hq
    refine ⟨(cuts l (rest.length + 1)).filter fun runs =>
      Splits store (x :: rest) (.root root) runs ∧
        Maximal store (x :: rest) (follow (.root root) l) runs,
      (nodup_cuts l _).filter _, ?_, ?_⟩
    · intro runs
      rw [mem_filter, mem_cuts, decide_eq_true_eq]
      constructor
      · rintro ⟨⟨_, rfl⟩, hsplits, hmaximal⟩
        exact ⟨rfl, hsplits, hmaximal⟩
      · rintro ⟨heq, hsplits, hmaximal⟩
        exact ⟨⟨hsplits.length, (follow_injective heq).symm⟩, hsplits, hmaximal⟩
    · rw [hcounted.count, weights, map_congr_left fun runs hruns => by
        rw [weight_eq, (mem_cuts.mp hruns).2], sum_map_ite]
      simp
  · push Not at hq
    refine ⟨[], nodup_nil, ?_, hcounted.only q hq⟩
    exact fun runs => ⟨nofun, fun h => absurd h.1 (hq _)⟩

end Count

theorem direction_newPattern (calls : List (PatternCall R)) :
    ∀ x ∈ newPattern calls, x.direction ≠ .both := by
  intro x hx
  obtain ⟨call, _, rfl⟩ := mem_map.mp hx
  cases call <;> simp [PatternCall.expansion, expansionWithDepth]

theorem sound_startPool (store : RelationshipStore R) (first : PatternCall R)
    (calls : List (PatternCall R)) (root : Nat) :
    ∀ s ∈ (startPool root : Pool (Tagged R) (PathSegment R)).tasks,
      Sound store (newPattern (first :: calls)) root s := by
  intro s hs
  rw [Multiset.mem_singleton.mp hs]
  exact sound_root store first.expansion (newPattern calls) root

/-- `1 -> 2 <- 3`. -/
def turn : RelationshipStore Nat where
  all := [0, 1]
  startID r := if r = 0 then 1 else 3
  endID _ := 2
  nodup := by decide

/-- `1 -> 2 -> 3 -> 4`. -/
def line : RelationshipStore Nat where
  all := [1, 2, 3]
  startID r := r
  endID r := r + 1
  nodup := by decide

theorem completes_deliveries [DecidableEq R]
    (first : PatternCall R) {calls : List (PatternCall R)} {root : Nat} :
    Completes store (newPattern (first :: calls)) root
      (deliveries store (newPattern (first :: calls)) root ⟨.root root, none⟩) := by
  have hworked := exists_worked (shrinks store root (direction_newPattern (first :: calls)))
    (sound_startPool store first calls root)
  rw [Pool.total, startPool, Multiset.map_singleton, Multiset.sum_singleton, zero_add] at hworked
  exact hworked

end Dawgs.Ref.Traversal

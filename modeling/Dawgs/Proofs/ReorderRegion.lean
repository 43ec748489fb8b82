import Dawgs.Lib.Earlier
import Dawgs.Ref.Scope

/-!
# One region, scheduled

The candidates of a region know what they declare and what they depend on.
Two clauses never declare the same symbol, and a clause that binds what an
earlier one declares depends on it. From this follows what the schedule
keeps: a clause never comes before a clause that stood before it and that
declares one of its dependencies (`schedule_ordered`). It is scheduled when
all of them are available, it is left over and keeps its place among the
others left over, or it cannot be moved at all.

So the uses the optimizer sees are safe. For the others nothing is kept,
and `region_keeps_iff` says exactly when they are safe too: whenever a
clause is scheduled ahead of one that stood before it, the second declares
no hidden use of the first.
-/

namespace Dawgs.Ref.Cypher

open Lib List Finset Nat Option

/-! ## Candidates -/

variable {v : String} {first : Finset String}

theorem mem_splitBindings_fst {bindings : List String} :
    v ∈ (splitBindings first bindings).1 ↔ v ∈ bindings ∧ v ∉ first := by
  induction bindings generalizing first with
  | nil => simp [splitBindings]
  | cons symbol rest ih =>
    rw [splitBindings]
    split
    next h =>
      rw [ih, List.mem_cons, Finset.mem_insert]
      constructor
      · intro ⟨hv, hn⟩
        exact ⟨.inr hv, fun hf => hn (.inr hf)⟩
      · intro ⟨hv, hn⟩
        have hne : v ≠ symbol := fun he => hn (he ▸ h)
        exact ⟨hv.resolve_left hne, fun hf => hf.elim hne hn⟩
    next h =>
      rw [Finset.mem_insert, ih]
      by_cases he : v = symbol
      · subst he
        simp [h]
      · simp [he]

theorem mem_splitBindings_snd {bindings : List String} (hv : v ∈ bindings) (hf : v ∈ first) :
    v ∈ (splitBindings first bindings).2 := by
  induction bindings generalizing first with
  | nil => cases hv
  | cons symbol rest ih =>
    rw [splitBindings]
    rcases mem_cons.mp hv with rfl | hv
    · rw [if_pos hf]
      exact mem_insert_self _ _
    · have later := ih hv (mem_insert_of_mem (b := symbol) hf)
      split
      · exact mem_insert_of_mem later
      · exact later

namespace ReorderCandidate

/-- What the clause of a candidate binds. -/
def bindings (c : ReorderCandidate) : List String := bindingsForReadingClause c.clause

/-- What is true of each candidate once `first` has been declared. -/
structure After (first : Finset String) (index : Nat) (c : ReorderCandidate) : Prop where
  index_le : index ≤ c.index
  declared : ∀ v ∈ c.declarations, v ∈ c.bindings ∧ v ∉ first
  depends : ∀ v ∈ first, v ∈ c.bindings → v ∈ c.dependencies
  sees : localMatchDependencies (matchOf c.clause) ⊆ c.dependencies

/-- What is true of a candidate and a later one. -/
structure Precedes (a b : ReorderCandidate) : Prop where
  index_lt : a.index < b.index
  declared : ∀ v ∈ b.declarations, v ∉ a.bindings
  depends : ∀ v ∈ a.bindings, v ∈ b.bindings → v ∈ b.dependencies

end ReorderCandidate

open ReorderCandidate

variable {clauses : List (Option ReadingClause)} {before available : Finset String}
  {c a b : ReorderCandidate} {candidates : List ReorderCandidate}

section Candidates
variable {symbols : Finset String} {index : Nat}

theorem after_newCandidate (clause : Option ReadingClause) :
    After first index (newCandidate before symbols first index clause) where
  index_le := le_refl _
  declared _ hv := (mem_splitBindings_fst).mp hv
  depends _ hf hv := mem_union_left _ (mem_splitBindings_snd hv hf)
  sees := subset_union_right

theorem ReorderCandidate.After.mono {first' : Finset String} {index' : Nat}
    (h : After first index c) (hf : first' ⊆ first) (hi : index' ≤ index) :
    After first' index' c where
  index_le := le_trans hi h.index_le
  declared v hv := ⟨(h.declared v hv).1, fun hv' => (h.declared v hv).2 (hf hv')⟩
  depends v hv := h.depends v (hf hv)
  sees := h.sees

theorem after_of_mem (h : c ∈ candidatesFrom before symbols first index clauses) :
    After first index c := by
  induction clauses generalizing first index with
  | nil => cases h
  | cons clause rest ih =>
    rcases mem_cons.mp h with rfl | h
    · exact after_newCandidate clause
    · exact (ih h).mono subset_union_left (le_succ _)

theorem candidates_precede : (candidatesFrom before symbols first index clauses).Pairwise
      Precedes := by
  induction clauses generalizing first index with
  | nil => exact Pairwise.nil
  | cons clause rest ih =>
    refine pairwise_cons.mpr ⟨fun b hb => ?_, ih⟩
    have hafter := after_of_mem hb
    have bound {v} (hv : v ∈ bindingsForReadingClause clause) :
        v ∈ first ∪ (bindingsForReadingClause clause).toFinset :=
      mem_union_right _ (mem_toFinset.mpr hv)
    exact
      { index_lt := hafter.index_le
        declared := fun v hv ha => (hafter.declared v hv).2 (bound ha)
        depends := fun v ha hb => hafter.depends v (bound ha) hb }

/-- Of the clauses that bind a symbol, the first declares it. -/
theorem exists_declares (h : c ∈ candidatesFrom before symbols first index clauses)
    (hv : v ∈ c.bindings) (hf : v ∉ first) :
    ∃ a ∈ candidatesFrom before symbols first index clauses,
      a.index ≤ c.index ∧ v ∈ a.declarations := by
  induction clauses generalizing first index with
  | nil => cases h
  | cons clause rest ih =>
    by_cases hb : v ∈ bindingsForReadingClause clause
    · refine ⟨_, mem_cons_self, (after_of_mem h).index_le, ?_⟩
      exact (mem_splitBindings_fst).mpr ⟨hb, hf⟩
    · rcases mem_cons.mp h with rfl | h
      · exact absurd hv hb
      · have hf' : v ∉ first ∪ (bindingsForReadingClause clause).toFinset := by
          simp [hf, hb]
        obtain ⟨a, ha, hle, hd⟩ := ih h hf'
        exact ⟨a, mem_cons_of_mem _ ha, hle, hd⟩

theorem map_clause_candidatesFrom :
    (candidatesFrom before symbols first index clauses).map ReorderCandidate.clause = clauses := by
  induction clauses generalizing first index with
  | nil => rfl
  | cons clause rest ih => exact congrArg (clause :: ·) ih

end Candidates

/-! ## The schedule -/

/-- `d` stood before `c` and declares one of its dependencies. -/
def Blocks (d c : ReorderCandidate) : Prop :=
  d.index < c.index ∧ ∃ v ∈ c.dependencies, v ∈ d.declarations

/-- `a` may be scheduled before `b`. -/
def MayLead (a b : ReorderCandidate) : Prop := ¬ Blocks b a

theorem mayLead_of_index_lt (h : a.index < b.index) : MayLead a b := fun hb => lt_asymm h hb.1

/-- Two candidates that declare nothing in common. -/
def Distinct (a b : ReorderCandidate) : Prop := ∀ v ∈ a.declarations, v ∉ b.declarations

theorem Distinct.symm (h : Distinct a b) : Distinct b a := fun v hb ha => h v ha hb

/-- The loop keeps its best candidate or finds a schedulable one. -/
theorem bestFrom_eq {idx k : Nat} {best : Option (Nat × ReorderCandidate)}
    (h : bestFrom available idx best candidates = some (k, c)) :
    best = some (k, c) ∨ ∃ j, k = idx + j ∧ candidates[j]? = some c ∧
        candidateDependenciesSatisfied c available = true := by
  induction candidates generalizing idx best with
  | nil => exact .inl h
  | cons candidate rest ih =>
    rw [bestFrom] at h
    split at h
    next hbest =>
      rw [Bool.and_eq_true] at hbest
      rcases ih h with he | ⟨j, hk, hj, hs⟩
      · cases he
        exact .inr ⟨0, rfl, rfl, hbest.1⟩
      · exact .inr ⟨j + 1, by omega, hj, hs⟩
    · rcases ih h with he | ⟨j, hk, hj, hs⟩
      · exact .inl he
      · exact .inr ⟨j + 1, by omega, hj, hs⟩

/-- The candidate chosen has its dependencies satisfied. -/
theorem satisfied_of_best {k : Nat}
    (h : bestSchedulableCandidateIndex candidates available = some k)
    (hc : candidates[k]? = some c) : c.dependencies ⊆ available ∪ c.declarations := by
  obtain ⟨⟨j, d⟩, hbest, rfl⟩ := map_eq_some_iff.mp h
  rcases bestFrom_eq hbest with he | ⟨i, hi, hd, hs⟩
  · cases he
  · obtain rfl : j = i := by omega
    rw [hd] at hc
    cases hc
    exact of_decide_eq_true hs

/-- What is available is declared by no candidate that remains. -/
structure Remaining (available : Finset String) (rest : List ReorderCandidate) : Prop where
  fresh : ∀ c ∈ rest, ∀ v ∈ c.declarations, v ∉ available
  distinct : rest.Pairwise Distinct

/-- A choice leads all that remain, and leaves them as they were. -/
theorem Remaining.choose {rest : List ReorderCandidate} {k : Nat} (h : Remaining available rest)
    (hk : bestSchedulableCandidateIndex rest available = some k) (hc : rest[k]? = some c) :
    (∀ d ∈ rest.eraseIdx k, MayLead c d) ∧
      Remaining (mergeDeclarations available c) (rest.eraseIdx k) := by
  obtain ⟨hlt, rfl⟩ := List.getElem?_eq_some_iff.mp hc
  have hperm := getElem_cons_eraseIdx_perm hlt
  obtain ⟨hfirst, hrest⟩ := pairwise_cons.mp ((hperm.pairwise_iff Distinct.symm).mpr h.distinct)
  have hsub := satisfied_of_best hk hc
  refine ⟨fun d hd hblock => ?_, ?_, hrest⟩
  · obtain ⟨_, v, hv, hdecl⟩ := hblock
    rcases mem_union.mp (hsub hv) with ha | hown
    · exact h.fresh d (mem_of_mem_eraseIdx hd) v hdecl ha
    · exact hfirst d hd v hown hdecl
  · intro d hd v hv hmem
    rcases mem_union.mp hmem with ha | hown
    · exact h.fresh d (mem_of_mem_eraseIdx hd) v hv ha
    · exact hfirst d hd v hown hv

/-- Where the segments stand after some of the candidates. -/
structure SegmentsInv (before : Finset String)
    (done : List ReorderCandidate) (s : Segments) : Prop where
  perm : (s.reordered ++ s.segment).Perm done
  ordered : s.reordered.Pairwise MayLead
  apart : ∀ a ∈ s.reordered, ∀ b ∈ s.segment, a.index < b.index
  sorted : s.segment.Pairwise fun a b => a.index < b.index
  available : ∀ v ∈ s.available, v ∈ before ∨ ∃ a ∈ s.reordered, v ∈ a.declarations

section Segments
variable {done : List ReorderCandidate} {s : Segments}

theorem mem_foldl_mergeDeclarations (h : v ∈ candidates.foldl mergeDeclarations available) :
    v ∈ available ∨ ∃ c ∈ candidates, v ∈ c.declarations := by
  induction candidates generalizing available with
  | nil => exact .inl h
  | cons c rest ih =>
    rcases ih h with hv | ⟨d, hd, hv⟩
    · rcases mem_union.mp hv with ha | hc
      · exact .inl ha
      · exact .inr ⟨c, mem_cons_self, hc⟩
    · exact .inr ⟨d, mem_cons_of_mem _ hd, hv⟩

/-- What is available after a segment comes from before it or from it. -/
theorem mem_reorderMovable_snd (h : v ∈ (reorderMovableCandidates candidates available).2) :
    v ∈ available ∨ ∃ c ∈ candidates, v ∈ c.declarations := by
  refine greedy_state (P := fun s => v ∈ s →
    v ∈ available ∨ ∃ c ∈ candidates, v ∈ c.declarations) (fun s c hc hs hv => ?_) .inl h
  rcases mem_union.mp hv with hv | hv
  · exact hs hv
  · exact .inr ⟨c, hc, hv⟩

section

variable (h : SegmentsInv before done s) (hfresh : ∀ c ∈ done, ∀ v ∈ c.declarations, v ∉ before)
  (hdistinct : done.Pairwise Distinct)
include h hfresh hdistinct

theorem SegmentsInv.remaining
    : Remaining s.available s.segment := by
  have hall := (h.perm.pairwise_iff Distinct.symm).mpr hdistinct
  obtain ⟨_, hseg, hcross⟩ := pairwise_append.mp hall
  refine ⟨fun c hc v hv ha => ?_, hseg⟩
  rcases h.available v ha with hb | ⟨a, hmem, hdecl⟩
  · exact hfresh c (h.perm.subset (mem_append_right _ hc)) v hv hb
  · exact hcross a hmem c hc v hdecl hv

/-- A flush appends the segment, scheduled. -/
theorem SegmentsInv.flush
    : SegmentsInv before done s.flush := by
  have hperm : (reorderMovableCandidates s.segment s.available).1.Perm _ := greedy_perm ..
  have hnext : (reorderMovableCandidates s.segment s.available).1.Pairwise MayLead :=
    greedy_pairwise (fun _ _ _ _ hr hk hc => hr.choose hk hc)
      (h.remaining hfresh hdistinct) (h.sorted.imp mayLead_of_index_lt)
  have cross {c} (hc : c ∈ s.segment) {v : String} (hv : v ∈ c.declarations) :
      v ∈ before ∨ ∃ a ∈ s.flush.reordered, v ∈ a.declarations :=
    .inr ⟨c, mem_append_right _ (hperm.symm.subset hc), hv⟩
  refine ⟨?_, ?_, fun _ _ b hb => (by cases hb), Pairwise.nil, ?_⟩
  · show (s.reordered ++ _ ++ []).Perm done
    rw [append_nil]
    exact (hperm.append_left _).trans h.perm
  · refine pairwise_append.mpr ⟨h.ordered, hnext, fun a ha b hb => ?_⟩
    exact mayLead_of_index_lt (h.apart a ha b (hperm.subset hb))
  · intro v hv
    rcases mem_foldl_mergeDeclarations hv with hv | ⟨c, hc, hv⟩
    · rcases mem_reorderMovable_snd hv with hv | ⟨c, hc, hv⟩
      · exact (h.available v hv).imp_right fun ⟨a, ha, hv⟩ => ⟨a, mem_append_left _ ha, hv⟩
      · exact cross hc hv
    · exact cross (hperm.subset hc) hv

end

theorem SegmentsInv.flushed (h : SegmentsInv before done s.flush) :
    s.flush.reordered.Perm done := by
  have hperm := h.perm
  rwa [show s.flush.segment = [] from rfl, append_nil] at hperm

theorem SegmentsInv.turn (h : SegmentsInv before done s)
    (hfresh : ∀ c ∈ done, ∀ v ∈ c.declarations, v ∉ before) (hdistinct : done.Pairwise Distinct)
    (hlt : ∀ a ∈ done, a.index < c.index) : SegmentsInv before (done ++ [c]) (s.turn c) := by
  rw [Segments.turn]
  split
  · refine ⟨?_, h.ordered, fun a ha b hb => ?_, ?_, h.available⟩
    · rw [← append_assoc]
      exact h.perm.append_right _
    · rcases mem_append.mp hb with hb | hb
      · exact h.apart a ha b hb
      · rw [List.mem_singleton.mp hb]
        exact hlt a (h.perm.subset (mem_append_left _ ha))
    · refine pairwise_append.mpr ⟨h.sorted, pairwise_singleton _ _, fun a ha b hb => ?_⟩
      rw [List.mem_singleton.mp hb]
      exact hlt a (h.perm.subset (mem_append_right _ ha))
  · have hf := h.flush hfresh hdistinct
    have hperm := hf.flushed
    refine ⟨?_, ?_, fun _ _ b hb => (by cases hb), Pairwise.nil, ?_⟩
    · rw [append_nil]
      exact hperm.append_right _
    · refine pairwise_append.mpr ⟨hf.ordered, pairwise_singleton _ _, fun a ha b hb => ?_⟩
      rw [List.mem_singleton.mp hb]
      exact mayLead_of_index_lt (hlt a (hperm.subset ha))
    · intro v hv
      rcases mem_union.mp hv with hv | hv
      · exact (hf.available v hv).imp_right fun ⟨a, ha, hv⟩ => ⟨a, mem_append_left _ ha, hv⟩
      · exact .inr ⟨c, by simp, hv⟩

/-- The loop over the candidates, by induction from the right. -/
theorem segmentsInv_foldl (hfresh : ∀ c ∈ candidates, ∀ v ∈ c.declarations, v ∉ before)
    (hdistinct : candidates.Pairwise Distinct)
    (hsorted : candidates.Pairwise fun a b => a.index < b.index) :
    SegmentsInv before candidates (candidates.foldl Segments.turn ⟨[], before, []⟩) := by
  induction candidates using List.reverseRecOn with
  | nil =>
    exact ⟨Perm.refl _, Pairwise.nil, nofun, Pairwise.nil, fun _ h => .inl h⟩
  | append_singleton rest c ih =>
    rw [foldl_append]
    obtain ⟨hd, _, _⟩ := pairwise_append.mp hdistinct
    obtain ⟨hs, _, hlt⟩ := pairwise_append.mp hsorted
    have hf : ∀ d ∈ rest, ∀ v ∈ d.declarations, v ∉ before :=
      fun d hd => hfresh d (mem_append_left _ hd)
    exact (ih hf hd hs).turn hf hd fun a ha => hlt a ha c (by simp)

end Segments

theorem scheduled_inv : SegmentsInv before (reorderCandidates clauses before)
    ((reorderCandidates clauses before).foldl Segments.turn ⟨[], before, []⟩).flush := by
  have hfresh : ∀ c ∈ reorderCandidates clauses before, ∀ v ∈ c.declarations, v ∉ before :=
    fun c hc v hv => ((after_of_mem hc).declared v hv).2
  have hdistinct : (reorderCandidates clauses before).Pairwise Distinct := by
    refine Pairwise.imp_of_mem (fun {a b} ha _ h v hv hb => ?_) candidates_precede
    exact h.declared v hb ((after_of_mem ha).declared v hv).1
  exact (segmentsInv_foldl hfresh hdistinct
    (candidates_precede.imp fun h => h.index_lt)).flush hfresh hdistinct

theorem schedule_perm : (schedule clauses before).Perm (reorderCandidates clauses before) :=
  scheduled_inv.flushed

/-- No clause is scheduled before one it depends on. -/
theorem schedule_ordered : (schedule clauses before).Pairwise MayLead := scheduled_inv.ordered

/-! ## What a region keeps -/

/-- The uses of a clause that its candidate knows nothing of. -/
def ReorderCandidate.hidden (c : ReorderCandidate) : Finset String :=
  c.clause.elim ∅ ReadingClause.hidden

/-- `a`, scheduled ahead of `b`, does not hide a use of what `b` declares,
unless that is known to hold of `D`. -/
def LeadsSafely (D : String → Prop) (a b : ReorderCandidate) : Prop :=
  b.index < a.index → ∀ v ∈ a.hidden, v ∈ b.declarations → D v

instance (D : String → Prop) [DecidablePred D] : DecidableRel (LeadsSafely D) :=
  fun a b => inferInstanceAs (Decidable (b.index < a.index → ∀ v ∈ a.hidden,
    v ∈ b.declarations → D v))

section Region
variable {D : String → Prop}

theorem map_clause_reorderCandidates
    (clauses : List (Option ReadingClause)) (before : Finset String) :
    (reorderCandidates clauses before).map ReorderCandidate.clause =
      clauses :=
  map_clause_candidatesFrom

variable {x : Clause}

/-- What stands before a clause, by the candidates. -/
theorem earlier_readings (hunwind : ∀ r, some r ∈ clauses → r.unwind = none)
    (hmem : ∀ c ∈ candidates, c ∈ reorderCandidates clauses before) :
    Earlier Clause.Declares (readings (candidates.map ReorderCandidate.clause)) x v ↔
      ∃ a c, Sublist [a, c] candidates ∧ c.clause.map Clause.reading = some x ∧ v ∈ a.bindings := by
  rw [readings, filterMap_map]
  constructor
  · intro ⟨d, hd, hv⟩
    obtain ⟨a, c, hs, ha, hc⟩ := (pair_sublist_filterMap).mp hd
    obtain ⟨r, hr, rfl⟩ := map_eq_some_iff.mp ha
    refine ⟨a, c, hs, hc, ?_⟩
    have hclause := mem_map_of_mem (f := ReorderCandidate.clause)
      (hmem a (mem_of_pair_sublist hs).1)
    rw [map_clause_reorderCandidates, hr] at hclause
    have hnone := hunwind r hclause
    rw [Clause.Declares, Clause.declares, hnone] at hv
    rw [bindings, hr]
    simpa using hv
  · intro ⟨a, c, hs, hc, hv⟩
    rw [bindings] at hv
    cases ha : a.clause with
    | none => rw [ha] at hv; cases hv
    | some r =>
      refine ⟨.reading r, (pair_sublist_filterMap).mpr
        ⟨a, c, hs, congrArg (Option.map Clause.reading) ha, hc⟩, ?_⟩
      rw [ha] at hv
      exact mem_append_left _ hv

theorem mem_schedule : c ∈ schedule clauses before ↔ c ∈ reorderCandidates clauses before :=
  schedule_perm.mem_iff

/-- A use that the candidate of its clause knows of is a dependency, if an
earlier clause declares it. -/
theorem mem_dependencies_of_seen {r : ReadingClause}
    (hc : c ∈ reorderCandidates clauses before) (hac : Precedes a c)
    (hr : c.clause = some r) (hv : v ∈ r.seen) (ha : v ∈ a.bindings) : v ∈ c.dependencies := by
  rcases mem_union.mp hv with hv | hv
  · refine hac.depends v ha ?_
    rw [bindings, hr]
    exact mem_toFinset.mp hv
  · refine (after_of_mem hc).sees ?_
    rw [hr]
    exact hv

/-- Two candidates of one region, by their indices. -/
theorem precedes_of_sublist (h : Sublist [a, c] (reorderCandidates clauses before)) :
    Precedes a c := pairwise_iff_forall_sublist.mp candidates_precede h

theorem sublist_of_lt (ha : a ∈ reorderCandidates clauses before)
    (hc : c ∈ reorderCandidates clauses before) (h : a.index < c.index) :
    Sublist [a, c] (reorderCandidates clauses before) := by
  have hne : a ≠ c := fun he => lt_irrefl _ (he ▸ h)
  refine (pair_sublist_or ha hc hne).resolve_right fun hs => ?_
  exact lt_asymm h (precedes_of_sublist hs).index_lt

theorem schedule_nodup : (schedule clauses before).Nodup := by
  refine schedule_perm.nodup_iff.mpr (candidates_precede.imp fun h he => ?_)
  exact lt_irrefl _ (he ▸ h.index_lt)

/-- A clause that occurs once has one candidate. -/
theorem eq_of_clause (hunique : (readings clauses).Nodup)
    (ha : a ∈ reorderCandidates clauses before) (hc : c ∈ reorderCandidates clauses before)
    (hax : a.clause.map Clause.reading = some x)
    (hcx : c.clause.map Clause.reading = some x) : a = c := by
  by_contra hne
  rw [← map_clause_reorderCandidates clauses before, readings,
    filterMap_map, nodup_iff_sublist] at hunique
  rcases pair_sublist_or ha hc hne with hs | hs
  · exact hunique x (pair_sublist_filterMap.mpr ⟨a, c, hs, hax, hcx⟩)
  · exact hunique x (pair_sublist_filterMap.mpr ⟨c, a, hs, hcx, hax⟩)

theorem earlier_region (before : Finset String)
    (hunwind : ∀ r, some r ∈ clauses → r.unwind = none) :
    Earlier Clause.Declares (readings clauses) x v ↔
      ∃ a c, Sublist [a, c] (reorderCandidates clauses before) ∧
        c.clause.map Clause.reading = some x ∧ v ∈ a.bindings := by
  conv_lhs => rw [← map_clause_reorderCandidates clauses before]
  exact earlier_readings hunwind fun _ => id

theorem earlier_schedule (hunwind : ∀ r, some r ∈ clauses → r.unwind = none) :
    Earlier Clause.Declares (readings ((schedule clauses before).map ReorderCandidate.clause)) x v ↔
      ∃ a c, Sublist [a, c] (schedule clauses before) ∧
        c.clause.map Clause.reading = some x ∧ v ∈ a.bindings :=
  earlier_readings hunwind fun _ => mem_schedule.mp

/-- If every lead is safe, the region keeps what its clauses rely on. -/
theorem keeps_of_leadsSafely (hD : ∀ v ∈ before, D v)
    (hunwind : ∀ r, some r ∈ clauses → r.unwind = none)
    (hsafe : (schedule clauses before).Pairwise (LeadsSafely D))
    (hx : x.Relies v) (he : Earlier Clause.Declares (readings clauses) x v) :
    D v ∨ Earlier Clause.Declares (readings
      ((schedule clauses before).map ReorderCandidate.clause)) x v := by
  obtain ⟨d, c, hdc, hc, hv⟩ := (earlier_region before hunwind).mp he
  obtain ⟨hd, hcmem⟩ := mem_of_pair_sublist hdc
  obtain ⟨r, hr, rfl⟩ := map_eq_some_iff.mp hc
  by_cases hb : v ∈ before
  · exact .inl (hD v hb)
  · -- the first clause of the region to bind `v`
    obtain ⟨a, ha, hle, hdecl⟩ := exists_declares hd hv hb
    have hlt : a.index < c.index := lt_of_le_of_lt hle (precedes_of_sublist hdc).index_lt
    have hac := precedes_of_sublist (sublist_of_lt ha hcmem hlt)
    have hbind := ((after_of_mem ha).declared v hdecl).1
    have hne : a ≠ c := fun he => lt_irrefl _ (he ▸ hlt)
    rcases pair_sublist_or (mem_schedule.mpr ha) (mem_schedule.mpr hcmem) hne with hs | hs
    · exact .inr ((earlier_schedule hunwind).mpr ⟨a, c, hs, hc, hbind⟩)
    · by_cases hseen : v ∈ r.seen
      · have hdep := mem_dependencies_of_seen hcmem hac hr hseen hbind
        exact absurd ⟨hlt, v, hdep, hdecl⟩ (pairwise_iff_forall_sublist.mp schedule_ordered hs)
      · have hhidden : v ∈ c.hidden := by
          rw [ReorderCandidate.hidden, hr]
          exact mem_sdiff.mpr ⟨hx, hseen⟩
        exact .inl (pairwise_iff_forall_sublist.mp hsafe hs hlt v hhidden hdecl)

/-- If the region keeps what its clauses rely on, every lead is safe. -/
theorem leadsSafely_of_keeps (hunique : (readings clauses).Nodup)
    (hunwind : ∀ r, some r ∈ clauses → r.unwind = none)
    (hkeeps : ∀ (x : Clause) v, x.Relies v → Earlier Clause.Declares (readings clauses) x v →
        D v ∨ Earlier Clause.Declares (readings
          ((schedule clauses before).map ReorderCandidate.clause)) x v) :
    (schedule clauses before).Pairwise (LeadsSafely D) := by
  rw [pairwise_iff_forall_sublist]
  intro c a hca hlt v hhidden hdecl
  obtain ⟨hc, ha⟩ := mem_of_pair_sublist hca
  rw [mem_schedule] at hc ha
  have hbind := ((after_of_mem ha).declared v hdecl).1
  rw [ReorderCandidate.hidden] at hhidden
  cases hr : c.clause with
  | none => rw [hr] at hhidden; cases hhidden
  | some r =>
    rw [hr] at hhidden
    have huse : v ∈ r.uses := (mem_sdiff.mp hhidden).1
    have hcr : c.clause.map Clause.reading = some (.reading r) := by
      rw [hr]; rfl
    have hearlier := (earlier_region before hunwind).mpr ⟨a, c, sublist_of_lt ha hc hlt, hcr, hbind⟩
    rcases hkeeps (.reading r) v huse hearlier with hD | hlater
    · exact hD
    · -- a clause that binds `v` is ahead of `c`, hence ahead of `a`
      obtain ⟨d, c', hdc, hc', hv⟩ := (earlier_schedule hunwind).mp hlater
      obtain ⟨hd, hc'mem⟩ := mem_of_pair_sublist hdc
      rw [mem_schedule] at hd hc'mem
      obtain rfl := eq_of_clause hunique hc'mem hc hc' hcr
      have hda := pair_sublist_trans schedule_nodup hdc hca
      have hne : a ≠ d := by
        rintro rfl
        exact nodup_iff_sublist.mp schedule_nodup a hda
      rcases pair_sublist_or ha hd hne with hs | hs
      · have had := precedes_of_sublist hs
        exact absurd ⟨had.index_lt, v, had.depends v hbind hv, hdecl⟩
          (pairwise_iff_forall_sublist.mp schedule_ordered hda)
      · exact absurd hv ((precedes_of_sublist hs).declared v hdecl)

end Region

end Dawgs.Ref.Cypher

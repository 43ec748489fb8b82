import Dawgs.Proofs.ReorderRegion

/-!
# The reordering of a query

The rule takes the regions of each part of a query and schedules them one
by one. The statement to be settled is about the query as a whole: if a
clause uses a variable and a clause before it declares it, then a clause
before it declares it after the rule as well (`KeepsDeclared`).

The way from a region to the query goes through blocks. A block is a
stretch of clauses as it was, together with the same stretch as the rule
leaves it. The regions of the analysis are laid out one after the other
(`laid_analyze`), so a list of reading clauses is made of blocks, with a
fixed one between two regions; the loop over the regions replaces the first
half of each block by the second (`readings_foldl`). It matters here that a
region is scheduled by what is declared before it, which is the same before
and after the regions in front of it have been permuted. The parts of a
query add a fixed block each, for their updating clauses and the `WITH`.
What `Lib.Earlier` says of blocks then reduces the statement to one about
each region, and that is the subject of the file before this one.

The rule does not always keep what is declared, since it learns what a
clause uses from the semantic walker, which does not look at the variables
of a pattern in a `WHERE`. The condition under which it does is `SafeFrom`:
no clause is scheduled ahead of one that declares a use hidden from the
optimizer, unless the symbol is declared before the region already. It is
decidable, and both necessary and sufficient.

The clauses of a query are pointers, and the rule recognizes them by their
addresses. `Allocated` says that no two of them are the same.
-/

namespace Dawgs.Ref.Cypher

open Lib List Option RegularQuery Nat Prod

/-! ## Regions -/

/-- The regions of a list of clauses, from the clause at `n` on: one after
the other, and without a barrier inside. -/
def Laid (clauses : List (Option ReadingClause)) : Nat → List Region → Prop
  | n, [] => n ≤ clauses.length
  | n, r :: rs =>
    n ≤ r.startClause ∧ r.startClause ≤ r.endClause ∧ r.endClause < clauses.length ∧
      (∀ i c, r.startClause ≤ i → i ≤ r.endClause →
        clauses[i]? = some c → isBarrier c = false) ∧ Laid clauses (r.endClause + 1) rs

/-- A region that is still open at the clause `idx`. -/
def Open (clauses : List (Option ReadingClause)) (n idx : Nat) (r : Region) : Prop :=
  n ≤ r.startClause ∧ r.startClause ≤ r.endClause ∧ r.endClause < idx ∧
    ∀ i c, r.startClause ≤ i → i < idx → clauses[i]? = some c → isBarrier c = false

variable {clauses : List (Option ReadingClause)} {query : RegularQuery}

variable {n m k : Nat} {r : Region} {rs : List Region}
  {p : Part} {others : List (Option ReadingClause)} {declared : Finset String}

section Regions

variable {idx : Nat} {current : Option Region} {clause : Option ReadingClause}

theorem Laid.mono (h : Laid clauses n rs) (hle : m ≤ n) : Laid clauses m rs := by
  cases rs with
  | nil => exact le_trans hle h
  | cons r rs => exact ⟨le_trans hle h.1, h.2⟩

/-- Closing a region that may be open. -/
theorem laid_close (hcur : ∀ r ∈ current, Open clauses n idx r) (hn : n ≤ idx)
    (hidx : idx ≤ clauses.length) (h : Laid clauses idx rs) :
    Laid clauses n (current.toList ++ rs) := by
  cases current with
  | none => exact h.mono hn
  | some r =>
    obtain ⟨hstart, hend, hlt, hfree⟩ := hcur r rfl
    exact ⟨hstart, hend, by omega, fun i c hi hle => hfree i c hi (by omega), h.mono hlt⟩

/-- A region that meets no barrier at `idx` stays open. -/
theorem Open.step (h : Open clauses n idx r) (hget : clauses[idx]? = some clause)
    (hbar : isBarrier clause = false) : Open clauses n (idx + 1) r := by
  obtain ⟨hstart, hend, hlt, hfree⟩ := h
  refine ⟨hstart, hend, by omega, fun i c hi hi' hc => ?_⟩
  by_cases he : i = idx
  · subst he
    exact some.inj (hget.symm.trans hc) ▸ hbar
  · exact hfree i c hi (by omega) hc

/-- The region that a match at `idx` opens or extends. -/
theorem open_extend (hcur : ∀ r ∈ current, Open clauses n idx r) (hn : n ≤ idx)
    (hget : clauses[idx]? = some clause) (hbar : isBarrier clause = false) :
    Open clauses n (idx + 1) (extendRegion current idx) := by
  cases current with
  | none =>
    refine ⟨hn, le_refl _, lt_succ_self _, fun i c hi hi' hc => ?_⟩
    obtain rfl : i = idx := le_antisymm (by omega) hi
    exact some.inj (hget.symm.trans hc) ▸ hbar
  | some r =>
    obtain ⟨hstart, hend, hlt, hfree⟩ := (hcur r rfl).step hget hbar
    exact ⟨hstart, (by have := (hcur r rfl).2; simp [extendRegion]; omega),
      lt_succ_self _, hfree⟩

/-- The loop of the analysis, from the clause at `idx` on. -/
theorem laid_regionsFrom {rest : List (Option ReadingClause)} (hrest : clauses.drop idx = rest)
    (hidx : idx ≤ clauses.length) (hn : n ≤ idx) (hcur : ∀ r ∈ current, Open clauses n idx r) :
    Laid clauses n (regionsFrom idx current rest) := by
  induction rest generalizing idx current n with
  | nil =>
    have hnil : Laid clauses idx [] := hidx
    have := laid_close hcur hn hidx hnil
    rwa [append_nil] at this
  | cons clause rest ih =>
    have hget : clauses[idx]? = some clause := by
      rw [← head?_drop, hrest]
      rfl
    have hlt := (List.getElem?_eq_some_iff.mp hget).1
    have hdrop : clauses.drop (idx + 1) = rest := by
      rw [← drop_drop, hrest]
      rfl
    rw [regionsFrom]
    split
    · exact laid_close hcur hn hidx (ih hdrop hlt (by omega) nofun)
    next hbar =>
      rw [Bool.not_eq_true] at hbar
      split
      · refine ih hdrop hlt (by omega) fun r hr => ?_
        cases hr
        exact open_extend hcur hn hget hbar
      · exact ih hdrop hlt (by omega) fun r hr => (hcur r hr).step hget hbar

theorem laid_analyze (clauses : List (Option ReadingClause)) :
    Laid clauses 0 (analyzeReadingClauses clauses) :=
  laid_regionsFrom rfl (zero_le _) (le_refl _) nofun

theorem Laid.mem (h : Laid clauses n rs) (hr : r ∈ rs) :
    r.startClause ≤ r.endClause ∧ r.endClause < clauses.length ∧
      ∀ i c, r.startClause ≤ i → i ≤ r.endClause → clauses[i]? = some c → isBarrier c = false := by
  induction rs generalizing n with
  | nil => cases hr
  | cons r' rs ih =>
    obtain ⟨_, hend, hlt, hfree, hrest⟩ := h
    rcases mem_cons.mp hr with rfl | hr
    · exact ⟨hend, hlt, hfree⟩
    · exact ih hrest hr

end Regions

/-! ## One region of a list of clauses -/

/-- The clauses of a region as the rule leaves them. -/
def Region.rewritten (r : Region)
    (clauses : List (Option ReadingClause)) : List (Option ReadingClause) :=
  (schedule (r.clauses clauses)
    (declaredBeforeClause clauses r.startClause)).map ReorderCandidate.clause

theorem unwind_eq_none (h : Laid clauses n rs) (hr : r ∈ rs) {c : ReadingClause}
    (hc : some c ∈ r.clauses clauses) : c.unwind = none := by
  obtain ⟨hend, hlt, hfree⟩ := h.mem hr
  obtain ⟨i, hi⟩ := getElem?_of_mem hc
  rw [Region.clauses, getElem?_take] at hi
  split at hi
  · rw [getElem?_drop] at hi
    have := hfree _ _ (le_add_right _ i) (by omega) hi
    rw [isBarrier, Bool.or_eq_false_iff] at this
    exact not_isSome_iff_eq_none.mp (by simp [this.1])
  · cases hi

theorem rewritten_perm : (r.rewritten clauses).Perm (r.clauses clauses) := by
  have hperm : (r.rewritten clauses).Perm _ := schedule_perm.map ReorderCandidate.clause
  rwa [map_clause_reorderCandidates] at hperm

theorem drop_between (h : n ≤ m) (clauses : List (Option ReadingClause)) :
    (clauses.drop n).drop (m - n) = clauses.drop m := by rw [drop_drop, Nat.add_sub_cancel' h]

section

variable (hend : r.startClause ≤ r.endClause)
include hend

theorem drop_region :
    clauses.drop r.startClause = r.clauses clauses ++ clauses.drop (r.endClause + 1) := by
  rw [← drop_between (Nat.le_succ_of_le hend), Region.clauses, take_append_drop]

theorem length_clauses (hlt : r.endClause < clauses.length) :
    (r.clauses clauses).length = r.endClause + 1 - r.startClause := by
  rw [Region.clauses, length_take, length_drop]
  omega

/-- A turn of the loop puts the rewritten region in the place of the old
one, also where it passes over a region of a single clause. -/
theorem reorderStep_fst
    (hlt : r.endClause < clauses.length) (applied : Bool) :
    (reorderStep (clauses, applied) r).1 = clauses.take r.startClause ++ r.rewritten clauses ++
        clauses.drop (r.endClause + 1) := by
  rw [reorderStep]
  split
  next hskip =>
    have hone : (r.clauses clauses).length = 1 := by
      rw [length_clauses hend hlt]
      simp only [Region.skipped, Bool.or_eq_true, decide_eq_true_eq] at hskip
      omega
    obtain ⟨c, hc⟩ := length_eq_one_iff.mp hone
    have hperm : (r.rewritten clauses).Perm _ := rewritten_perm
    rw [hc] at hperm
    rw [perm_singleton.mp hperm, ← hc, append_assoc, ← drop_region hend, take_append_drop]
  · rfl

end

/-! ## The blocks of a list of clauses -/

/-- Blocks of clauses, as they were and as the rule leaves them. -/
abbrev Block := List Clause × List Clause

def fixed (clauses : List (Option ReadingClause)) : Block := (readings clauses, readings clauses)

/-- The blocks from the clause at `n` on. -/
def blocksFrom (clauses : List (Option ReadingClause)) : Nat → List Region → List Block
  | n, [] => [fixed (clauses.drop n)]
  | n, r :: rs =>
    fixed ((clauses.drop n).take (r.startClause - n)) ::
      (readings (r.clauses clauses), readings (r.rewritten clauses)) ::
        blocksFrom clauses (r.endClause + 1) rs

theorem readings_append (xs ys : List (Option ReadingClause)) :
    readings (xs ++ ys) = readings xs ++ readings ys := filterMap_append

theorem take_append_between (h : n ≤ m) :
    clauses.take n ++ (clauses.drop n).take (m - n) = clauses.take m := by
  rw [← take_add, Nat.add_sub_cancel' h]

theorem readings_blocksFrom (h : Laid clauses n rs) :
    readings (clauses.drop n) = (blocksFrom clauses n rs).flatMap fst := by
  induction rs generalizing n with
  | nil => rw [blocksFrom, flatMap_singleton]; rfl
  | cons r rs ih =>
    obtain ⟨hstart, hend, hlt, _, hrest⟩ := h
    rw [blocksFrom, flatMap_cons, flatMap_cons, ← ih hrest]
    simp only [fixed, ← readings_append]
    rw [← drop_region hend, ← drop_between hstart, take_append_drop]

/-- A region is rewritten in the same way if the clauses before it have
been permuted. -/
theorem rewritten_congr (hdrop : others.drop r.startClause = clauses.drop r.startClause)
    (htake : (others.take r.startClause).Perm (clauses.take r.startClause)) :
    r.rewritten others = r.rewritten clauses := by
  have hclauses : r.clauses others = r.clauses clauses := by
    rw [Region.clauses, Region.clauses, hdrop]
  have hbefore : declaredBeforeClause others r.startClause =
      declaredBeforeClause clauses r.startClause := toFinset_eq_of_perm _ _ (htake.flatMap_right _)
  rw [Region.rewritten, Region.rewritten, hclauses, hbefore]

/-- The loop over the regions rewrites block by block. -/
theorem readings_foldl {applied : Bool} (h : Laid clauses n rs)
    (hlen : others.length = clauses.length) (hdrop : others.drop n = clauses.drop n)
    (htake : (others.take n).Perm (clauses.take n)) :
    readings (rs.foldl reorderStep (others, applied)).1 = readings (others.take n) ++
        (blocksFrom clauses n rs).flatMap snd := by
  induction rs generalizing n others applied with
  | nil =>
    rw [blocksFrom, flatMap_singleton]
    simp only [fixed, foldl_nil, ← hdrop]
    rw [← readings_append, take_append_drop]
  | cons r rs ih =>
    obtain ⟨hstart, hend, hlt, _, hrest⟩ := h
    have hsplit : others.take r.startClause = others.take n ++
        (clauses.drop n).take (r.startClause - n) := by
      rw [← hdrop, take_append_between hstart]
    have hbefore : (others.take r.startClause).Perm (clauses.take r.startClause) := by
      rw [hsplit, ← take_append_between hstart]
      exact htake.append_right _
    have hafter {m : Nat} (hm : n ≤ m) : others.drop m = clauses.drop m := by
      rw [← drop_between hm, hdrop, drop_between hm]
    have hrw := rewritten_congr (hafter hstart) hbefore
    have hfst := reorderStep_fst hend (hlen ▸ hlt) applied
    rw [hrw, hafter (m := r.endClause + 1) (by omega)] at hfst
    have hlength : (others.take r.startClause ++ r.rewritten clauses).length = r.endClause + 1 := by
      rw [length_append, rewritten_perm.length_eq, length_clauses hend hlt, length_take]
      omega
    rw [foldl_cons, ← mk.eta (p := reorderStep _ r), hfst, ih hrest]
    · rw [take_left' hlength, readings_append, hsplit, readings_append, blocksFrom]
      simp only [flatMap_cons, fixed, append_assoc]
    · rw [length_append, length_drop]
      omega
    · exact drop_left' hlength
    · rw [take_left' hlength, ← take_append_between (by omega : r.startClause ≤ r.endClause + 1)]
      exact hbefore.append rewritten_perm

theorem blocksFrom_perm {b : Block} (hb : b ∈ blocksFrom clauses n rs) : b.2.Perm b.1 := by
  induction rs generalizing n with
  | nil => rw [mem_singleton.mp hb]; exact Perm.refl _
  | cons r rs ih =>
    rcases mem_cons.mp hb with rfl | hb
    · exact Perm.refl _
    · rcases mem_cons.mp hb with rfl | hb
      · exact rewritten_perm.filterMap _
      · exact ih hb

/-! ## When the rule is safe -/

/-- What a list of clauses declares. -/
def declaredBy (clauses : List Clause) : Finset String := (clauses.flatMap Clause.declares).toFinset

theorem mem_declaredBy {clauses : List Clause} {v : String} :
    v ∈ declaredBy clauses ↔ Declared Clause.Declares clauses v := by
  rw [declaredBy, List.mem_toFinset, mem_flatMap]
  rfl

theorem declaredBy_append (xs ys : List Clause) :
    declaredBy (xs ++ ys) = declaredBy xs ∪ declaredBy ys := by
  rw [declaredBy, flatMap_append, toFinset_append]
  rfl

theorem mem_or_declared (declared : Finset String) (clauses : List Clause) :
    (fun v => v ∈ declared ∨ Declared Clause.Declares clauses v) =
      fun v => v ∈ declared ∪ declaredBy clauses := by
  funext v
  rw [Finset.mem_union, mem_declaredBy]

section

variable (declared : Finset String) (clauses : List (Option ReadingClause))

/-- What is declared before the clause at `n`, with `declared` before the
part it is in. -/
def DeclaredUpTo
    (n : Nat) (v : String) : Prop :=
  v ∈ declared ∪ declaredBy (readings (clauses.take n))

/-- The leads of a region are safe. -/
def Region.Safe
    (r : Region) : Prop :=
  (schedule (r.clauses clauses) (declaredBeforeClause clauses r.startClause)).Pairwise
      (LeadsSafely (DeclaredUpTo declared clauses r.startClause))

end

theorem declaredBefore_subset (n : Nat) :
    declaredBeforeClause clauses n ⊆ declaredBy (readings (clauses.take n)) := by
  intro v hv
  obtain ⟨c, hc, hv⟩ := mem_flatMap.mp (mem_toFinset.mp hv)
  cases c with
  | none => cases hv
  | some c =>
    refine (mem_declaredBy).mpr ⟨.reading c, ?_, mem_append_left _ hv⟩
    exact mem_filterMap.mpr ⟨some c, hc, rfl⟩

theorem region_keeps_iff (hlaid : Laid clauses n rs) (hr : r ∈ rs)
    (hunique : (readings clauses).Nodup) :
    (∀ (x : Clause) v, x.Relies v → Earlier Clause.Declares (readings (r.clauses clauses)) x v →
        DeclaredUpTo declared clauses r.startClause v ∨
          Earlier Clause.Declares (readings (r.rewritten clauses)) x v) ↔
      r.Safe declared clauses := by
  have hunwind : ∀ c, some c ∈ r.clauses clauses → c.unwind = none :=
    fun c hc => unwind_eq_none hlaid hr hc
  have hregion : (readings (r.clauses clauses)).Nodup :=
    hunique.sublist (((take_sublist _ _).trans (drop_sublist _ _)).filterMap _)
  constructor
  · exact leadsSafely_of_keeps hregion hunwind
  · intro hsafe x v hx he
    refine keeps_of_leadsSafely (fun w hw => ?_) hunwind hsafe hx he
    exact Finset.mem_union_right _ (declaredBefore_subset _ hw)

theorem declaredUpTo_append (h : n ≤ m) :
    (fun v => DeclaredUpTo declared clauses n v ∨ Declared Clause.Declares
        (readings ((clauses.drop n).take (m - n))) v) = DeclaredUpTo declared clauses m := by
  simp only [DeclaredUpTo]
  rw [mem_or_declared, Finset.union_assoc, ← declaredBy_append,
    ← readings_append, take_append_between h]
  rfl

theorem keepsFrom_fixed (h : n ≤ m) {bs : List Block} :
    KeepsFrom Clause.Declares Clause.Relies (DeclaredUpTo declared clauses n)
        (fixed ((clauses.drop n).take (m - n)) :: bs) ↔
      KeepsFrom Clause.Declares Clause.Relies (DeclaredUpTo declared clauses m) bs := by
  rw [← declaredUpTo_append h]
  exact and_iff_right fun _ _ _ he => .inr he

theorem keepsFrom_blocksFrom (hlaid : Laid clauses n rs) (hunique : (readings clauses).Nodup) :
    KeepsFrom Clause.Declares Clause.Relies
        (DeclaredUpTo declared clauses n) (blocksFrom clauses n rs) ↔
      ∀ r ∈ rs, r.Safe declared clauses := by
  induction rs generalizing n with
  | nil =>
    simp only [blocksFrom, KeepsFrom, and_true]
    exact ⟨fun _ => by simp, fun _ x v _ he => .inr he⟩
  | cons r rs ih =>
    obtain ⟨hstart, hend, _, _, hrest⟩ := id hlaid
    rw [blocksFrom, keepsFrom_fixed hstart, forall_mem_cons,
      ← ih hrest, ← region_keeps_iff hlaid mem_cons_self hunique,
      ← declaredUpTo_append (le_succ_of_le hend)]
    rfl

/-! ## Parts and queries -/

/-- A part as the rule leaves it. -/
def Part.reordered (p : Part) : Part :=
  ⟨(reorderReadingClauses p.readingClauses (analyzeReadingClauses p.readingClauses)).1, p.tail⟩

/-- The blocks of a part. -/
def Part.blocks (p : Part) : List Block :=
  blocksFrom p.readingClauses 0 (analyzeReadingClauses p.readingClauses) ++ [(p.tail, p.tail)]

theorem Part.clauses_eq (p : Part) : p.clauses = p.blocks.flatMap fst := by
  rw [blocks, flatMap_append, ← readings_blocksFrom (laid_analyze _), flatMap_singleton]
  rfl

theorem Part.reordered_clauses_eq (p : Part) : p.reordered.clauses = p.blocks.flatMap snd := by
  rw [blocks, flatMap_append, flatMap_singleton]
  exact congrArg (· ++ p.tail) (readings_foldl
    (laid_analyze p.readingClauses) rfl rfl (Perm.refl _))

/-- The leads of a part are safe, with `declared` before it. -/
def Part.Safe (declared : Finset String) (p : Part) : Prop :=
  ∀ r ∈ analyzeReadingClauses p.readingClauses, r.Safe declared p.readingClauses

/-- The leads of the parts of a query are safe. -/
def SafeFrom : Finset String → List Part → Prop
  | _, [] => True
  | declared, p :: ps =>
    p.Safe declared ∧ SafeFrom (declared ∪ declaredBy p.clauses) ps

instance (declared : Finset String) (clauses : List (Option ReadingClause))
    (n : Nat) : DecidablePred (DeclaredUpTo declared clauses n) :=
  fun v => inferInstanceAs (Decidable (v ∈ _))

instance (declared : Finset String) (clauses : List (Option ReadingClause))
    (r : Region) : Decidable (r.Safe declared clauses) := inferInstanceAs (Decidable (Pairwise _ _))

instance (declared : Finset String) (p : Part) : Decidable (p.Safe declared) :=
  inferInstanceAs (Decidable (∀ r ∈ _, Region.Safe declared _ r))

instance decidableSafeFrom : ∀ (declared : Finset String) (ps : List Part),
    Decidable (SafeFrom declared ps)
  | _, [] => isTrue trivial
  | declared, p :: ps =>
    have := decidableSafeFrom (declared ∪ declaredBy p.clauses) ps
    inferInstanceAs (Decidable (p.Safe declared ∧ _))

theorem keepsFrom_parts {ps : List Part} (hunique : ∀ p ∈ ps, (readings p.readingClauses).Nodup) :
    KeepsFrom Clause.Declares Clause.Relies (fun v => v ∈ declared)
        (ps.flatMap Part.blocks) ↔ SafeFrom declared ps := by
  induction ps generalizing declared with
  | nil => exact Iff.rfl
  | cons p ps ih =>
    obtain ⟨hp, hps⟩ := forall_mem_cons.mp hunique
    have hzero : (fun v => v ∈ declared) = DeclaredUpTo declared p.readingClauses 0 := by
      funext v
      simp [DeclaredUpTo, readings, declaredBy]
    have hpart : KeepsFrom Clause.Declares Clause.Relies
        (fun v => v ∈ declared) p.blocks ↔ p.Safe declared := by
      rw [Part.blocks, keepsFrom_append, hzero, keepsFrom_blocksFrom (laid_analyze _) hp]
      exact and_iff_left ⟨fun _ _ _ he => .inr he, trivial⟩
    rw [flatMap_cons, keepsFrom_append, hpart, SafeFrom, ← Part.clauses_eq, mem_or_declared, ih hps]

/-- The address of a reading clause. -/
def Clause.address : Clause → Option Nat
  | reading c => some c.address
  | _ => none

/-- No two reading clauses of the query are at the same address. -/
def RegularQuery.Allocated (query : RegularQuery) : Prop :=
  (query.clauses.filterMap Clause.address).Nodup

instance (query : RegularQuery) : Decidable query.Allocated := inferInstanceAs (Decidable (Nodup _))

/-- Two clauses that are not at the same address. -/
def Clause.Elsewhere (a b : Clause) : Prop := ∀ n, a.address = some n → b.address ≠ some n

theorem RegularQuery.Allocated.elsewhere (h : query.Allocated) :
    query.clauses.Pairwise Clause.Elsewhere := by
  refine (pairwise_filterMap.mp h).imp fun hab n ha hb => ?_
  exact hab n ha n hb rfl

theorem Part.readings_sublist (hp : p ∈ query.parts) :
    Sublist (readings p.readingClauses) query.clauses := by
  refine (sublist_append_left _ p.tail).trans ?_
  exact sublist_flatten_of_mem (mem_map_of_mem (f := Part.clauses) hp)

theorem RegularQuery.Allocated.elsewhere_part (h : query.Allocated) (hp : p ∈ query.parts) :
    (readings p.readingClauses).Pairwise Clause.Elsewhere :=
  h.elsewhere.sublist (Part.readings_sublist hp)

theorem nodup_of_elsewhere
    (h : (readings clauses).Pairwise Clause.Elsewhere) : (readings clauses).Nodup := by
  refine h.imp_of_mem fun {a b} ha _ hab he => ?_
  obtain ⟨c, _, hc⟩ := mem_filterMap.mp ha
  obtain ⟨r, _, rfl⟩ := map_eq_some_iff.mp hc
  exact hab r.address rfl (he ▸ rfl)

/-- In one part, a clause is known by its address. -/
theorem eq_of_address (h : (readings clauses).Pairwise Clause.Elsewhere)
    {c d : Option ReadingClause} (hc : c ∈ clauses) (hd : d ∈ clauses)
    (he : c.map ReadingClause.address = d.map ReadingClause.address) : c = d := by
  match c, d, he with
  | none, none, _ => rfl
  | some c, some d, he =>
    by_contra hne
    have haddr : c.address = d.address := some.inj he
    rcases pair_sublist_or hc hd hne with hs | hs
    · exact pairwise_iff_forall_sublist.mp h (pair_sublist_filterMap.mpr ⟨_, _, hs, rfl, rfl⟩)
        c.address rfl (congrArg some haddr.symm)
    · exact pairwise_iff_forall_sublist.mp h (pair_sublist_filterMap.mpr ⟨_, _, hs, rfl, rfl⟩)
        d.address rfl (congrArg some haddr)

/-! ## The rule on a query -/

section Rule

variable (h : (readings clauses).Pairwise Clause.Elsewhere)
include h

/-- A region in which every clause finds itself at its place is left as it
is. -/
theorem rewritten_eq (hno : reorderRegionWouldApply (r.clauses clauses)
      (declaredBeforeClause clauses r.startClause) = false) :
    r.rewritten clauses = r.clauses clauses := by
  have hperm : (r.rewritten clauses).Perm (r.clauses clauses) := rewritten_perm
  have hsub {c} (hc : c ∈ r.clauses clauses) : c ∈ clauses := mem_of_mem_drop (mem_of_mem_take hc)
  refine ext_getElem hperm.length_eq fun i hi hi' => ?_
  refine eq_of_address h (hsub (hperm.subset (getElem_mem hi))) (hsub (getElem_mem hi')) ?_
  have hlen : i < (schedule (r.clauses clauses)
      (declaredBeforeClause clauses r.startClause)).length := by
    rwa [Region.rewritten, length_map] at hi
  have hzip : i < ((r.clauses clauses).zip (schedule (r.clauses clauses)
      (declaredBeforeClause clauses r.startClause))).length := by
    rw [length_zip]
    exact Nat.lt_min.mpr ⟨hi', hlen⟩
  have hsame := any_eq_false.mp hno _ (getElem_mem hzip)
  rw [decide_eq_true_eq, not_not, getElem_zip] at hsame
  simp only [Region.rewritten, getElem_map]
  exact hsame.symm

theorem reorderStep_eq {applied : Bool}
    (hno : (!r.skipped clauses && reorderRegionWouldApply (r.clauses clauses)
      (declaredBeforeClause clauses r.startClause)) = false) :
    (reorderStep (clauses, applied) r).1 = clauses := by
  cases hskip : r.skipped clauses with
  | true => rw [reorderStep, if_pos hskip]
  | false =>
    rw [hskip] at hno
    simp only [Region.skipped, Bool.or_eq_false_iff, decide_eq_false_iff_not] at hskip
    rw [reorderStep_fst (by omega) (by omega), rewritten_eq h hno,
      append_assoc, ← drop_region (by omega), take_append_drop]

/-- If the rule finds nothing to reorder, reordering changes nothing. -/
theorem reorderReadingClauses_eq (hno : readingClausesWouldReorder clauses rs = false) :
    (reorderReadingClauses clauses rs).1 = clauses := by
  have hall := any_eq_false.mp hno
  rw [reorderReadingClauses]
  generalize false = applied
  induction rs generalizing applied with
  | nil => rfl
  | cons r rs ih =>
    obtain ⟨hr, hrs⟩ := forall_mem_cons.mp hall
    rw [Bool.not_eq_true] at hr
    rw [foldl_cons, ← mk.eta (p := reorderStep _ r), reorderStep_eq h hr]
    exact ih (any_eq_false.mpr hrs) hrs _

end Rule

/-- The analysis of a part, found by its index. -/
theorem find_part {parts : List (Option MultiPartQueryPart)} {rest : List QueryPart}
    {p : Option MultiPartQueryPart} (h : (p, k) ∈ parts.zipIdx n) :
    ((parts.zipIdx n).map (fun p =>
        QueryPart.mk p.2 (analyzeMultiPartQueryPart p.1)) ++ rest).find?
      (fun part => part.index == k) = some ⟨k, analyzeMultiPartQueryPart p⟩ := by
  induction parts generalizing n with
  | nil => cases h
  | cons q parts ih =>
    rw [zipIdx_cons] at h ⊢
    rcases mem_cons.mp h with he | h
    · cases he
      simp
    · have hk := le_snd_of_mem_zipIdx h
      simp only [map_cons, cons_append, find?_cons]
      rw [show (n == k) = false by simp; omega]
      exact ih h

/-- The analysis of the last part. -/
theorem find_last {parts : List (Option MultiPartQueryPart)}
    {last : List Region} (hk : k = n + parts.length) :
    ((parts.zipIdx n).map (fun p =>
        QueryPart.mk p.2 (analyzeMultiPartQueryPart p.1)) ++
      [QueryPart.mk k last]).find? (fun part => part.index == k) = some ⟨k, last⟩ := by
  induction parts generalizing n with
  | nil => simp
  | cons q parts ih =>
    rw [length_cons] at hk
    rw [zipIdx_cons]
    simp only [map_cons, cons_append, List.find?_cons]
    rw [show (n == k) = false by simp; omega]
    exact ih (by omega)

section Query
variable {single : SingleQuery} {multi : MultiPartQuery}

section

variable (h : single.multiPartQuery = some multi) {part : SinglePartQuery}
include h

theorem analyze_multi : analyze ⟨some single⟩ = multi.parts.zipIdx.map (fun p =>
          QueryPart.mk p.2 (analyzeMultiPartQueryPart p.1)) ++
        multi.singlePartQuery.toList.map fun part =>
          ⟨multi.parts.length, analyzeReadingClauses part.readingClauses⟩ := by
  simp only [analyze, h]

theorem analysisRegions_part {part : MultiPartQueryPart} (hk : (some part, k) ∈ multi.parts.zipIdx)
    : analysisRegions (analyze ⟨some single⟩) k = analyzeReadingClauses part.readingClauses := by
  rw [analysisRegions, analyze_multi h, find_part hk]
  rfl

theorem analysisRegions_last (hp : multi.singlePartQuery = some part) :
    analysisRegions (analyze ⟨some single⟩) multi.parts.length =
      analyzeReadingClauses part.readingClauses := by
  rw [analysisRegions, analyze_multi h, hp, toList_some,
    map_singleton, find_last (zero_add _).symm]

omit h in
theorem analysisRegions_single (h : single.multiPartQuery = none)
    (hp : single.singlePartQuery = some part) :
    analysisRegions (analyze ⟨some single⟩) 0 = analyzeReadingClauses part.readingClauses := by
  simp only [analyze, h, hp]
  rfl

/-- The parts that end in a `WITH`, as the rule leaves them. -/
theorem reordered_parts :
    (reorderMultiPartQuery (analyze ⟨some single⟩) multi).1.parts =
      multi.parts.map (Option.map fun part =>
        { part with readingClauses := (reorderReadingClauses part.readingClauses
            (analyzeReadingClauses part.readingClauses)).1 }) := by
  rw [reorderMultiPartQuery, List.map_map]
  conv_rhs => rw [← List.zipIdx_map_fst 0 multi.parts, List.map_map]
  refine map_congr_left fun p hp => ?_
  obtain ⟨part, k⟩ := p
  cases part with
  | none => rfl
  | some part =>
    simp only [Function.comp_apply, map_some,
      reorderMultiPartQueryPart, analysisRegions_part h hp]

theorem reordered_last :
    (reorderMultiPartQuery (analyze ⟨some single⟩) multi).1.singlePartQuery =
      multi.singlePartQuery.map fun part =>
        { part with readingClauses := (reorderReadingClauses part.readingClauses
            (analyzeReadingClauses part.readingClauses)).1 } := by
  rw [reorderMultiPartQuery]
  cases hp : multi.singlePartQuery with
  | none => rfl
  | some part =>
    simp only [Option.map_some, reorderSinglePartQuery, analysisRegions_last h hp]

theorem parts_multi :
    parts ⟨some single⟩ = multi.parts.reduceOption.map MultiPartQueryPart.part ++
        multi.singlePartQuery.toList.map SinglePartQuery.part := by
  simp only [parts, h]

end

/-- If the rule would not reorder a query, it would not reorder a part. -/
theorem wouldnt_part (h : queryWouldReorder query (analyze query) = false) (hp : p ∈ query.parts) :
    readingClausesWouldReorder p.readingClauses
      (analyzeReadingClauses p.readingClauses) = false := by
  obtain ⟨single⟩ := query
  cases single with
  | none => cases hp
  | some single =>
    cases hm : single.multiPartQuery with
    | some multi =>
      rw [parts_multi hm] at hp
      simp only [queryWouldReorder, hm, Bool.or_eq_false_iff] at h
      rcases mem_append.mp hp with hp | hp
      · obtain ⟨part, hpart, rfl⟩ := mem_map.mp hp
        obtain ⟨k, hk⟩ := getElem?_of_mem (reduceOption_mem_iff.mp hpart)
        have hmem := mk_mem_zipIdx_iff_getElem?.mpr hk
        have := any_eq_false.mp h.1 _ hmem
        rwa [Bool.not_eq_true, analysisRegions_part hm hmem] at this
      · obtain ⟨part, hpart, rfl⟩ := mem_map.mp hp
        have hlast := mem_toList.mp hpart
        have := h.2
        rwa [hlast, analysisRegions_last hm hlast] at this
    | none =>
      cases hs : single.singlePartQuery with
      | none => simp only [parts, hm, hs] at hp; cases hp
      | some part =>
        simp only [parts, hm, hs] at hp
        simp only [queryWouldReorder, hm, hs] at h
        rw [mem_singleton.mp hp]
        rwa [analysisRegions_single hm hs] at h

/-- The rule reorders each part. -/
theorem parts_applyReordering (hq : query.Allocated) :
    (applyReordering query (analyze query)).1.parts = query.parts.map Part.reordered := by
  cases hw : queryWouldReorder query (analyze query) with
  | false =>
    rw [applyReordering, hw]
    symm
    refine (map_congr_left fun p hp => ?_).trans (map_id _)
    rw [Part.reordered, reorderReadingClauses_eq (hq.elsewhere_part hp) (wouldnt_part hw hp)]
    rfl
  | true =>
    obtain ⟨single⟩ := query
    rw [applyReordering, if_pos hw]
    cases single with
    | none => rfl
    | some single =>
      cases hm : single.multiPartQuery with
      | some multi =>
        simp only [hm]
        rw [parts_multi rfl, parts_multi hm, reordered_parts hm,
          reordered_last hm, reduceOption_map]
        simp only [List.map_append, List.map_map]
        cases multi.singlePartQuery <;> rfl
      | none =>
        cases hs : single.singlePartQuery with
        | none => simp only [parts, hm, hs]; rfl
        | some part =>
          simp only [parts, hm, hs, reorderSinglePartQuery, analysisRegions_single hm hs]
          rfl

end Query

/-- Every variable that a clause uses and that a clause before it declares
is declared by a clause before it after the rewriting as well. -/
def KeepsDeclared (query next : RegularQuery) : Prop := ∀ c : ReadingClause, ∀ v ∈ c.uses,
    Earlier Clause.Declares query.clauses (.reading c) v →
      Earlier Clause.Declares next.clauses (.reading c) v

theorem keepsDeclared_iff {next : RegularQuery} :
    KeepsDeclared query next ↔ ∀ (x : Clause) v, x.Relies v →
        Earlier Clause.Declares query.clauses x v → Earlier Clause.Declares next.clauses x v := by
  constructor
  · intro h x v hx
    cases x with
    | reading c => exact h c v hx
    | updating c | projecting c => cases hx
  · intro h c v hv
    exact h (.reading c) v hv

theorem clauses_eq_blocks : query.clauses = (query.parts.flatMap Part.blocks).flatMap fst := by
  rw [flatMap_assoc]
  exact flatMap_congr fun p _ => p.clauses_eq

theorem reordered_eq_blocks (hq : query.Allocated) :
    (applyReordering query (analyze query)).1.clauses =
      (query.parts.flatMap Part.blocks).flatMap snd := by
  rw [RegularQuery.clauses, parts_applyReordering hq, flatMap_map, flatMap_assoc]
  exact flatMap_congr fun p _ => p.reordered_clauses_eq

theorem blocks_perm {b : Block} (hb : b ∈ query.parts.flatMap Part.blocks) : b.2.Perm b.1 := by
  obtain ⟨p, _, hb⟩ := mem_flatMap.mp hb
  rcases mem_append.mp hb with hb | hb
  · exact blocksFrom_perm hb
  · rw [mem_singleton.mp hb]

theorem blocks_apart (hq : query.Allocated) :
    (query.parts.flatMap Part.blocks).Pairwise (Apart Clause.Relies) := by
  have hall := hq.elsewhere
  rw [clauses_eq_blocks, pairwise_flatMap] at hall
  refine hall.2.imp fun hbc x hb hc v hx => ?_
  cases x with
  | reading c => exact hbc _ hb _ hc c.address rfl rfl
  | updating c | projecting c => exact hx

/-- What the rule keeps, block by block. -/
theorem keepsDeclared_iff_blocks (hq : query.Allocated) :
    KeepsDeclared query (applyReordering query (analyze query)).1 ↔
      KeepsFrom Clause.Declares Clause.Relies (fun v => v ∈ (∅ : Finset String))
        (query.parts.flatMap Part.blocks) := by
  have hempty : (fun _ : String => False) = fun v => v ∈ (∅ : Finset String) := by
    simp
  rw [keepsDeclared_iff, clauses_eq_blocks, reordered_eq_blocks hq,
    keeps_iff (fun b hb => blocks_perm hb) (blocks_apart hq), hempty]

/-- The clause `MATCH (name:kinds properties) WHERE ...`. -/
def matchNode (address : Nat) (name : String) (kinds : Kinds) (properties : Expression)
    (where_ : Option (Where Expression)) : ReadingClause :=
  let node : PatternElement Expression := ⟨.nodePattern ⟨some ⟨name⟩, kinds, properties⟩⟩
  ⟨address, some ⟨false, [some ⟨none, false, false, false, [some node]⟩], where_⟩, none⟩

/-- The condition `WHERE (a)-[]->(b)`. -/
def linked : Where Expression := ⟨[.patternPredicate [⟨.nodePattern ⟨some ⟨"a"⟩, [], .nil⟩⟩,
      ⟨.relationshipPattern ⟨none, [], .outbound, none, .nil⟩⟩,
      ⟨.nodePattern ⟨some ⟨"b"⟩, [], .nil⟩⟩]]⟩

/-- The query of some reading clauses. -/
def readingQuery (clauses : List ReadingClause) : RegularQuery :=
  ⟨some ⟨some ⟨clauses.map some, [], none⟩, none⟩⟩

/-- `MATCH (a:A)`. -/
def matchA : ReadingClause := matchNode 0 "a" ["A"] .nil none

/-- `MATCH (b:B) WHERE (a)-[]->(b)`. -/
def matchB : ReadingClause := matchNode 1 "b" ["B"] .nil (some linked)

/-- `MATCH (c)`, `MATCH (a:A {objectid: 1})` and `MATCH (b:B)` with the same
condition. -/
def selectiveQuery : RegularQuery :=
  let objectId : Expression := .properties ⟨[⟨"objectid", .literal ⟨.integer 1, false⟩⟩], none⟩
  readingQuery [matchNode 0 "c" [] .nil none, matchNode 1 "a" ["A"] objectId none,
    matchNode 2 "b" ["B"] .nil (some linked)]

end Dawgs.Ref.Cypher

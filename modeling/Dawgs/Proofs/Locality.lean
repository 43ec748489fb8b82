import Dawgs.Ref.SqlScope

/-!
# What the split of a constraint guarantees

The two parts of a split always say the same as the constraint: a
conjunction of three truth values may be taken in any order, and nothing is
lost or added.

That the part at the join refers to local identifiers only holds for the
terms that are walked to their end. There all identifiers that occur are
compared with the scope, those in an `EXISTS` with what its `FROM` binds
added, so what is left are the hidden ones. A term on which a walk stops is
taken for local, whatever comes after the stop.
-/

namespace Dawgs.Ref.Locality

open List Finset Outcome Option

open Finset (union_subset_union)

/-! ## Sequences of walks -/

variable {os : List Outcome} {e : Node}

theorem sequence_eq_through : Outcome.sequence os = .through ↔ ∀ o ∈ os, o = .through := by
  induction os with
  | nil => simp [Outcome.sequence]
  | cons o os ih => cases o <;> simp [Outcome.sequence, ih]

theorem sequence_ne_stopped (h : ∀ o ∈ os, o ≠ .stopped) : Outcome.sequence os ≠ .stopped := by
  induction os with
  | nil => simp [Outcome.sequence]
  | cons o os ih =>
    obtain ⟨ho, hos⟩ := forall_mem_cons.mp h
    cases o with
    | through => exact ih hos
    | stopped => exact absurd rfl ho
    | foreign => simp [Outcome.sequence]

theorem ofLocal_ne_stopped {b : Bool} : ofLocal b ≠ .stopped := by
  cases b <;> simp [ofLocal]

theorem ofLocal_eq_through {b : Bool} : ofLocal b = .through ↔ b = true := by
  cases b <;> simp [ofLocal]

theorem visit_ne_stopped {L : Finset Identifier} (name : Identifier) :
    visit L name ≠ .stopped := ofLocal_ne_stopped

theorem visitCompound_ne_stopped (L : Finset Identifier)
    (names : List Identifier) : visitCompound L names ≠ .stopped := by
  cases names with
  | nil => simp [visitCompound]
  | cons name names => exact visit_ne_stopped name

theorem visits_ne_stopped (L : Finset Identifier) (names : List Identifier) :
    ∀ o ∈ names.map (visit L), o ≠ .stopped :=
  forall_mem_map.mpr fun name _ => visit_ne_stopped name

theorem mem_alternate {α : Type} {as bs : List α} (hlen : as.length = bs.length) {a : α} :
    a ∈ alternate as bs ↔ a ∈ as ∨ a ∈ bs := by
  induction as generalizing bs with
  | nil =>
    rw [eq_nil_of_length_eq_zero hlen.symm]
    simp [alternate]
  | cons a' as ih =>
    cases bs with
    | nil => simp at hlen
    | cons b bs =>
      rw [alternate, List.mem_cons, List.mem_cons, ih (by simpa using hlen)]
      simp only [List.mem_cons]
      tauto

theorem walks_length (L : Finset Identifier) (es : List Node) :
    (walks L es).length = es.length := by
  induction es with
  | nil => rfl
  | cons e es ih => rw [walks, length_cons, ih, length_cons]

/-! ## What a walk has seen -/

theorem sdiff_mono {A A' B : Finset Identifier} (h : A ⊆ A') : A \ B ⊆ A' \ B :=
  sdiff_subset_sdiff h subset_rfl

theorem reference_subset (all : Bool) (name : Identifier) :
    reference all name ⊆ reference true name := by
  cases all with
  | false => exact empty_subset _
  | true => exact Finset.Subset.refl _

/-- All of `A` is in the scope `L` or hidden in `H`. -/
def Covered (L A H : Finset Identifier) : Prop := A ⊆ L ∪ H

section

variable {L S A A' H H' B : Finset Identifier}

theorem Covered.refl : Covered L A A := subset_union_right

theorem Covered.empty : Covered L ∅ H := empty_subset _

theorem Covered.union (h : Covered L A H) (h' : Covered L A' H') : Covered L (A ∪ A') (H ∪ H') :=
  union_subset (h.trans (union_subset_union_right subset_union_left))
    (h'.trans (union_subset_union_right subset_union_right))

/-- What is covered in a scope with bound names in it is covered without
them. -/
theorem Covered.within (h : Covered S A H) (hS : S ⊆ L ∪ B) : Covered L (A \ B) (H \ B) := by
  intro x hx
  obtain ⟨hA, hB⟩ := mem_sdiff.mp hx
  rcases mem_union.mp (h hA) with hx | hx
  · have := hS hx
    simp only [mem_union, hB, or_false] at this
    exact mem_union_left _ this
  · exact mem_union_right _ (mem_sdiff.mpr ⟨hx, hB⟩)

theorem Covered.sdiff (h : Covered L A H) : Covered L (A \ B) (H \ B) := h.within subset_union_left

end

variable {L : Finset Identifier} {terms : List Node}

theorem refs_of_isNil (h : e.isNil = true) {all rest : Bool} : e.refs all rest = ∅ := by
  cases e <;> first | rfl | exact nomatch h

theorem free_of_isNil (h : e.isNil = true) : e.free = ∅ := refs_of_isNil h

/-- A walk that does not stop, and does not get through unless all of `A` is
covered. -/
structure Walked (L : Finset Identifier) (o : Outcome) (A H : Finset Identifier) : Prop where
  ne_stopped : o ≠ .stopped
  covered : o = .through → Covered L A H

/-- The same of several walks. -/
structure WalkedAll (L : Finset Identifier) (os : List Outcome)
    (A H : Finset Identifier) : Prop where
  ne_stopped : ∀ o ∈ os, o ≠ .stopped
  covered : (∀ o ∈ os, o = .through) → Covered L A H

section

variable {L A A' H H' B : Finset Identifier} {o : Outcome} {os' : List Outcome}

theorem WalkedAll.nil : WalkedAll L [] ∅ ∅ := ⟨nofun, fun _ => .empty⟩

theorem WalkedAll.append (h : WalkedAll L os A H) (h' : WalkedAll L os' A' H') :
    WalkedAll L (os ++ os') (A ∪ A') (H ∪ H') := by
  refine ⟨forall_mem_append.mpr ⟨h.1, h'.1⟩, fun hw => ?_⟩
  rw [List.forall_mem_append] at hw
  exact (h.2 hw.1).union (h'.2 hw.2)

/-- Walks whose references do not count. -/
theorem Walked.followed (h : Walked L o A H) (hos : ∀ o ∈ os, o ≠ .stopped) :
    WalkedAll L (o :: os) A H := ⟨forall_mem_cons.mpr ⟨h.1, hos⟩,
    fun hw => h.2 (forall_mem_cons.mp hw).1⟩

theorem Walked.all (h : Walked L o A H) : WalkedAll L [o] A H := h.followed nofun

theorem Walked.cons (h : Walked L o A H) (h' : WalkedAll L os A' H') :
    WalkedAll L (o :: os) (A ∪ A') (H ∪ H') := h.all.append h'

section

variable (h : WalkedAll L os A H)
include h

/-- References that count as hidden. -/
theorem WalkedAll.beside :
    WalkedAll L os (A ∪ B) (H ∪ B) := ⟨h.1, fun hw => (h.2 hw).union .refl⟩

theorem WalkedAll.sdiff :
    WalkedAll L os (A \ B) (H \ B) := ⟨h.1, fun hw => (h.2 hw).sdiff⟩

theorem WalkedAll.both (h' : WalkedAll L os' A' H')
    (hlen : os.length = os'.length) : WalkedAll L (alternate os os') (A ∪ A') (H ∪ H') := by
  have happend := h.append h'
  have hmem : ∀ o, o ∈ alternate os os' ↔ o ∈ os ++ os' := fun o => by
    rw [mem_alternate hlen, mem_append]
  exact ⟨fun o ho => happend.1 o ((hmem o).mp ho),
    fun hw => happend.2 fun o ho => hw o ((hmem o).mpr ho)⟩

theorem WalkedAll.sequence : Walked L (.sequence os) A H :=
  ⟨sequence_ne_stopped h.1, fun hw => h.2 (sequence_eq_through.mp hw)⟩

end

theorem Walked.ofLocal {b : Bool} (h : b = true → Covered L A H) : Walked L (.ofLocal b) A H :=
  ⟨ofLocal_ne_stopped, fun hw => h (ofLocal_eq_through.mp hw)⟩

theorem visit_walked (name : Identifier) : Walked L (visit L name) (reference true name) H := by
  refine .ofLocal fun h => ?_
  unfold reference
  split
  · exact singleton_subset_iff.mpr (mem_union_left _ (of_decide_eq_true h))
  · exact Covered.empty

theorem visitCompound_walked (names : List Identifier) :
    Walked L (visitCompound L names) (rootReference true names) H := by
  cases names with
  | nil => exact ⟨nofun, fun _ => Covered.empty⟩
  | cons name names => exact visit_walked name

/-- A part that is walked unless it is nil. -/
theorem present_walked
    (he : e.walkable false = true → Walked L (e.walk L) (e.refs true true) (e.refs false true))
    (h : e.isNil = true ∨ e.walkable false = true) :
    Walked L (if e.isNil then .through else e.walk L) (e.refs true true) (e.refs false true) := by
  split
  next hnil =>
    rw [refs_of_isNil hnil]
    exact ⟨nofun, fun _ => Covered.empty⟩
  next hne => exact he (h.resolve_left hne)

theorem eq_through_of_isLocal (hs : o ≠ .stopped) (hl : o.isLocal = true) : o = .through := by
  cases o with
  | through => rfl
  | stopped => exact absurd rfl hs
  | foreign => exact nomatch hl

/-- A part that is walked by itself, and may be nil. -/
theorem local_covered
    (he : e.walkable false = true → Walked L (e.walk L) (e.refs true true) (e.refs false true))
    (h : e.isNil = true ∨ e.walkable false = true) (hl : (e.walk L).isLocal = true) :
    Covered L (e.refs true true) (e.refs false true) := by
  have hwalked := present_walked he h
  refine hwalked.covered ?_
  split
  · rfl
  next hne =>
    exact eq_through_of_isLocal (he (h.resolve_left hne)).ne_stopped hl

theorem WalkedAll.of_isLocal (h : WalkedAll L os A H)
    (hl : os.all isLocal = true) : Covered L A H :=
  h.covered fun o ho => eq_through_of_isLocal (h.ne_stopped o ho) (all_eq_true.mp hl o ho)

end

theorem addBinding_subset {S : Finset Identifier} (e : Node) : e.addBinding S ⊆ S ∪ e.binds := by
  fun_cases Node.addBinding S e with
  | case1 _ binding => simp [Node.binds]
  | case2 _ binding => simp [Node.binds]
  | case3 => exact subset_union_left

/-- Binding one more source keeps a scope within what is bound. -/
theorem addBinding_within {B S : Finset Identifier} (e : Node)
    (hS : S ⊆ L ∪ B) : e.addBinding S ⊆ L ∪ (B ∪ e.binds) := by
  rw [← union_assoc]
  exact (addBinding_subset e).trans (union_subset_union_left hS)

mutual

/-- A walk of a walkable tree does not stop, and if it gets through it has
compared everything with the scope but what is hidden. -/
theorem Node.walked (L : Finset Identifier) :
    (e : Node) → e.walkable false = true →
      Walked L (e.walk L) (e.refs true true) (e.refs false true)
  | .nil, h | .unknown _, h => nomatch h
  | .identifier name, _ => visit_walked name
  | .compoundIdentifier names, _ => visitCompound_walked names
  | .leaf _, _ => ⟨nofun, fun _ => Covered.empty⟩
  | .rowColumnReference e _, h => .ofLocal (local_covered (e.walked L) (.inr h))
  | .wrapper _ e, h => e.walked L h
  | .binary _ left right, h => by
    simp only [Node.walkable, Bool.and_eq_true] at h
    exact ((left.walked L h.1).cons (right.walked L h.2).all).sequence
  | .values _ es, h => (walks_walked L es h).sequence
  | .functionCall es _, h => (walks_walked L es h).beside.sequence
  | .arrayIndex e indexes, h => by
    simp only [Node.walkable, Bool.and_eq_true] at h
    exact ((e.walked L h.1).cons (walks_walked L indexes h.2)).sequence
  | .arraySlice e lower upper, h => by
    simp only [Node.walkable, Bool.and_eq_true, Bool.or_eq_true] at h
    exact ((e.walked L h.1.1).cons
      ((present_walked (lower.walked L) h.1.2).cons
        (present_walked (upper.walked L) h.2).all)).sequence
  | .case_ operand conditions then_ else_, h => by
    simp only [Node.walkable, Bool.and_eq_true, Bool.or_eq_true, beq_iff_eq] at h
    obtain ⟨⟨⟨⟨hlen, ho⟩, hc⟩, ht⟩, he⟩ := h
    have hbranches := (walks_walked L conditions hc).both
      (walks_walked L then_ ht) (by rw [walks_length, walks_length, hlen])
    have hall := ((present_walked (operand.walked L) ho).cons
      hbranches).append (present_walked (else_.walked L) he).all
    simp only [union_assoc] at hall
    rw [Node.walk, if_pos hlen]
    exact hall.sequence
  | .aliased e _, h => ((e.walked L h).followed (visits_ne_stopped L _)).sequence
  | .exists_ q _, h => .ofLocal (q.check_covered L h)
  | .subquery q, h => q.walked L h
  | .lateralSubquery q _, h => ((q.walked L h).followed (visits_ne_stopped L _)).sequence
  | .query q, h => q.walked L h
  | .select s, h => s.walked L h
  | .setOperation left right, h => by
    simp only [Node.walkable, Bool.and_eq_true] at h
    exact ((left.walked L h.1).cons (right.walked L h.2).all).sequence
  | .tableReference name _, _ =>
    ⟨sequence_ne_stopped (forall_mem_cons.mpr
      ⟨visitCompound_ne_stopped L name, visits_ne_stopped L _⟩), fun _ => Covered.empty⟩
  | .projectionFrom projection from_, h => by
    simp only [Node.walkable, Bool.and_eq_true] at h
    have hall := ((walks_walked L projection h.1).sdiff
      (B := fromBinds from_)).append (froms_walked L ∅ from_ h.2)
    rw [union_comm, union_comm (_ \ _)] at hall
    exact hall.sequence
  | .future node, h => by
    simp only [Node.walkable, Bool.or_eq_true] at h
    exact present_walked (e := node) (node.walked L) h

theorem walks_walked (L : Finset Identifier) :
    (es : List Node) → allWalkable es = true →
      WalkedAll L (walks L es) (listRefs true es) (listRefs false es)
  | [], _ => .nil
  | e :: es, h => by
    simp only [allWalkable, Bool.and_eq_true] at h
    exact (e.walked L h.1).cons (walks_walked L es h.2)

theorem Query.walked (L : Finset Identifier) :
    (q : Query) → q.walkable false = true →
      Walked L (q.walk L) (q.refs true true) (q.refs false true)
  | .mk ctes body _ _ _, h => by
    simp only [Query.walkable, Bool.and_eq_true] at h
    exact ((commonTableExpressions_walked ctes h.1.1).append
      (body.walked L h.1.2).all.beside).sequence

theorem commonTableExpressions_walked {L : Finset Identifier} :
    (cs : List CommonTableExpression) → commonTableExpressionWalkable cs = true →
      WalkedAll L (walkCommonTableExpressions L cs)
        (commonTableExpressionRefs true cs) (commonTableExpressionRefs false cs)
  | [], _ => .nil
  | c :: cs, h => by
    simp only [commonTableExpressionWalkable, Bool.and_eq_true] at h
    exact (c.walked L h.1).cons (commonTableExpressions_walked cs h.2)

theorem CommonTableExpression.walked (L : Finset Identifier) :
    (c : CommonTableExpression) → c.walkable = true →
      Walked L (c.walk L) (c.refs true) (c.refs false)
  | .mk alias_ shape q, h => by
    simp only [CommonTableExpression.walkable, Bool.and_eq_true, isNone_iff_eq_none] at h
    obtain ⟨hq, rfl⟩ := h
    refine ((q.walked L hq).followed ?_).sequence
    simp only [List.forall_mem_cons]
    exact ⟨visit_ne_stopped alias_, nofun, nofun⟩

theorem Select.walked (L : Finset Identifier) :
    (s : Select) → s.walkable false = true →
      Walked L (s.walk L) (s.refs true true) (s.refs false true)
  | .mk projection from_ where_ _ having, h => by
    simp only [Select.walkable, Bool.and_eq_true, Bool.or_eq_true] at h
    obtain ⟨⟨⟨⟨hp, hf⟩, hw⟩, -⟩, hh⟩ := h
    have hp := walks_walked L projection hp
    have hf := froms_walked L ∅ from_ hf
    have hw := present_walked (where_.walked L) hw
    have hh := present_walked (having.walked L) hh
    -- The references stand in another order than the walks.
    refine WalkedAll.sequence ⟨((hp.append hf).append (hw.cons hh.all)).ne_stopped, fun hos => ?_⟩
    simp only [List.forall_mem_append, List.forall_mem_cons] at hos
    obtain ⟨⟨hosp, hosf⟩, hosw, hosh, -⟩ := hos
    exact (hf.covered hosf).union ((hp.covered hosp).union
      ((hw.covered hosw).union (Covered.refl.union (hh.covered hosh)))).sdiff

theorem froms_walked (L B : Finset Identifier) :
    (cs : List FromClause) → fromWalkable false cs = true →
      WalkedAll L (walkFroms L cs) (fromRefs true true B cs) (fromRefs false true B cs)
  | [], _ => .nil
  | c :: cs, h => by
    simp only [fromWalkable, Bool.and_eq_true] at h
    exact (c.walked L B h.1).cons (froms_walked L _ cs h.2)

theorem FromClause.walked (L B : Finset Identifier) :
    (c : FromClause) → c.walkable false = true →
      Walked L (c.walk L) (c.refs true true B) (c.refs false true B)
  | .mk source joins, h => by
    simp only [FromClause.walkable, Bool.and_eq_true] at h
    exact ((source.walked L h.1).all.sdiff.append (joins_walked joins h.2)).sequence

theorem joins_walked {L B : Finset Identifier} :
    (js : List Join) → joinWalkable false js = true →
      WalkedAll L (walkJoins L js) (joinRefs true true B js) (joinRefs false true B js)
  | [], _ => .nil
  | j :: js, h => by
    simp only [joinWalkable, Bool.and_eq_true] at h
    exact (j.walked L B h.1).cons (joins_walked js h.2)

theorem Join.walked (L B : Finset Identifier) :
    (j : Join) → j.walkable false = true →
      Walked L (j.walk L) (j.refs true true B) (j.refs false true B)
  | .mk table constraint, h => by
    simp only [Join.walkable, Bool.and_eq_true, Bool.false_and, Bool.false_or] at h
    exact ((table.walked L h.1).all.sdiff.append (constraint.walked L h.2).all.sdiff).sequence

/-- The parts of a list that are walked by themselves. -/
theorem presents_covered {L : Finset Identifier} :
    (es : List Node) → presentWalkable es = true → (walks L es).all isLocal = true →
      Covered L (listRefs true es) (listRefs false es)
  | [], _, _ => Covered.empty
  | e :: es, h, hl => by
    simp only [presentWalkable, Bool.and_eq_true, Bool.or_eq_true] at h
    rw [walks, all_cons, Bool.and_eq_true] at hl
    exact (local_covered (e.walked L) h.1 hl.1).union (presents_covered es h.2 hl.2)

/-- A check looks at the parts of a query that a walk leaves out. -/
theorem Query.check_covered (L : Finset Identifier) :
    (q : Query) → q.walkable true = true → q.check L = true →
      Covered L (q.refs true true) (q.refs false false)
  | .mk ctes body orderBy offset limit, h, hc => by
    simp only [Query.walkable, Bool.and_eq_true, Bool.not_true, Bool.false_or, Bool.or_eq_true] at h
    simp only [Query.check, Bool.and_eq_true, List.isEmpty_iff] at hc
    obtain ⟨⟨-, hbody⟩, ⟨horder, hoffset⟩, hlimit⟩ := h
    obtain ⟨⟨⟨⟨rfl, hcbody⟩, hcorder⟩, hcoffset⟩, hclimit⟩ := hc
    exact Covered.empty.union
      ((body.checkSelect_covered L hbody hcbody).union
        ((presents_covered orderBy horder hcorder).sdiff.union
          ((local_covered (offset.walked L) hoffset hcoffset).union
            (local_covered (limit.walked L) hlimit hclimit))))

theorem Node.checkSelect_covered (L : Finset Identifier) :
    (e : Node) → e.walkable true = true → e.checkSelect L = true →
      Covered L (e.refs true true) (e.refs false false)
  | .select s, h, hc => s.check_covered L h hc

/-- The scope after the `FROM` is what it binds, over the scope before. -/
theorem Select.check_covered (L : Finset Identifier) :
    (s : Select) → s.walkable true = true → s.check L = true →
      Covered L (s.refs true true) (s.refs false false)
  | .mk projection from_ where_ groupBy having, h, hc => by
    simp only [Select.walkable, Bool.and_eq_true, Bool.not_true,
      Bool.false_or, Bool.or_eq_true] at h
    obtain ⟨⟨⟨⟨hp, hf⟩, hw⟩, hg⟩, hh⟩ := h
    rw [Select.check] at hc
    split at hc
    · exact nomatch hc
    next S hS =>
      simp only [Bool.and_eq_true] at hc
      obtain ⟨⟨⟨hcp, hcg⟩, hcw⟩, hch⟩ := hc
      obtain ⟨hfroms, hscope⟩ := checkFroms_covered L ∅ L S from_ hf hS subset_union_left
      rw [empty_union] at hscope
      exact hfroms.union
        ((((walks_walked S projection hp).of_isLocal hcp).union
          ((local_covered (where_.walked S) hw hcw).union
            (((walks_walked S groupBy hg).of_isLocal hcg).union
              (local_covered (having.walked S) hh hch)))).within hscope)

theorem checkFroms_covered (L B S S' : Finset Identifier) :
    (cs : List FromClause) → fromWalkable true cs = true → checkFroms S cs = some S' → S ⊆ L ∪ B →
      Covered L (fromRefs true true B cs) (fromRefs false false B cs) ∧ S' ⊆ L ∪ (B ∪ fromBinds cs)
  | [], _, hc, hS => by
    obtain rfl : S = S' := some.inj hc
    exact ⟨Covered.empty, by rwa [fromBinds, union_empty]⟩
  | .mk source joins :: cs, h, hc, hS => by
    simp only [fromWalkable, Bool.and_eq_true] at h
    rw [checkFroms] at hc
    split at hc
    · exact nomatch hc
    next T hT =>
      obtain ⟨hfirst, hTscope⟩ := FromClause.check_covered L B S T (.mk source joins) h.1 hT hS
      obtain ⟨hrest, hscope⟩ := checkFroms_covered L _ T S' cs h.2 hc hTscope
      refine ⟨hfirst.union hrest, ?_⟩
      simpa only [fromBinds, union_empty, union_assoc] using hscope

theorem FromClause.check_covered (L B S S' : Finset Identifier) :
    (c : FromClause) → c.walkable true = true → c.check S = some S' →
      S ⊆ L ∪ B → Covered L (c.refs true true B) (c.refs false false B) ∧
        S' ⊆ L ∪ (B ∪ fromBinds [c])
  | .mk source joins, h, hc, hS => by
    simp only [FromClause.walkable, Bool.and_eq_true] at h
    rw [FromClause.check] at hc
    split at hc
    next hsource =>
      obtain ⟨hjoins, hscope⟩ := checkJoins_covered joins h.2 hc
        (addBinding_within source hS)
      refine ⟨((source.checkFrom_covered S h.1 hsource).within hS).union hjoins, ?_⟩
      simpa only [fromBinds, union_empty, union_assoc] using hscope
    · exact nomatch hc

theorem checkJoins_covered {L B S S' : Finset Identifier} :
    (js : List Join) → joinWalkable true js = true → checkJoins S js = some S' → S ⊆ L ∪ B →
      Covered L (joinRefs true true B js) (joinRefs false false B js) ∧ S' ⊆ L ∪ (B ∪ joinBinds js)
  | [], _, hc, hS => by
    obtain rfl : S = S' := some.inj hc
    exact ⟨Covered.empty, by rwa [joinBinds, union_empty]⟩
  | .mk table constraint :: js, h, hc, hS => by
    simp only [joinWalkable, Bool.and_eq_true] at h
    rw [checkJoins] at hc
    split at hc
    · exact nomatch hc
    next T hT =>
      obtain ⟨hfirst, hTscope⟩ := Join.check_covered L B S T (.mk table constraint) h.1 hT hS
      obtain ⟨hrest, hscope⟩ := checkJoins_covered js h.2 hc hTscope
      refine ⟨hfirst.union hrest, ?_⟩
      simpa only [joinBinds, union_empty, union_assoc] using hscope

theorem Join.check_covered (L B S S' : Finset Identifier) :
    (j : Join) → j.walkable true = true → j.check S = some S' → S ⊆ L ∪ B →
      Covered L (j.refs true true B) (j.refs false false B) ∧ S' ⊆ L ∪ (B ∪ joinBinds [j])
  | .mk table constraint, h, hc, hS => by
    simp only [Join.walkable, Bool.and_eq_true, Bool.true_and, Bool.or_eq_true] at h
    rw [Join.check] at hc
    split at hc
    next hlocal =>
      rw [Bool.and_eq_true] at hlocal
      obtain rfl := some.inj hc
      have htable := (table.checkFrom_covered S h.1 hlocal.1).within hS
      have hwithin := addBinding_within table hS
      have hconstraint :=
        (local_covered (constraint.walked S) h.2 hlocal.2).within
          (hS.trans (union_subset_union_right (subset_union_left : B ⊆ B ∪ table.binds)))
      exact ⟨htable.union hconstraint, by simpa only [joinBinds, union_empty] using hwithin⟩
    · exact nomatch hc

theorem Node.checkFrom_covered (S : Finset Identifier) :
    (e : Node) → e.walkable true = true → e.checkFrom S = true →
      Covered S (e.refs true true) (e.refs false false)
  | .tableReference _ _, _, _ => Covered.empty
  | .lateralSubquery q _, h, hc => q.check_covered S h hc

end

mutual

/-- Whatever counts is among all references. -/
theorem Node.refs_subset (all rest : Bool) : (e : Node) → e.refs all rest ⊆ e.refs true true
  | .nil | .leaf _ | .tableReference _ _ | .unknown _ => subset_rfl
  | .identifier name => reference_subset all name
  | .compoundIdentifier [] => subset_rfl
  | .compoundIdentifier (name :: _) => reference_subset all name
  | .rowColumnReference e _ => e.refs_subset all true
  | .wrapper _ e => e.refs_subset all true
  | .binary _ left right =>
    union_subset_union (left.refs_subset all true) (right.refs_subset all true)
  | .values _ es => listRefs_subset all es
  | .functionCall es _ => union_subset_union_left (listRefs_subset all es)
  | .arrayIndex e indexes =>
    union_subset_union (e.refs_subset all true) (listRefs_subset all indexes)
  | .arraySlice e lower upper =>
    union_subset_union (e.refs_subset all true)
      (union_subset_union (lower.refs_subset all true) (upper.refs_subset all true))
  | .case_ operand conditions then_ else_ =>
    union_subset_union (operand.refs_subset all true)
      (union_subset_union (listRefs_subset all conditions)
        (union_subset_union (listRefs_subset all then_) (else_.refs_subset all true)))
  | .aliased e _ => e.refs_subset all true
  | .exists_ q _ => q.refs_subset all all
  | .subquery q => q.refs_subset all true
  | .lateralSubquery q _ => q.refs_subset all rest
  | .query q => q.refs_subset all true
  | .select s => s.refs_subset all rest
  | .setOperation left right =>
    union_subset_union (left.refs_subset all true) (right.refs_subset all true)
  | .projectionFrom projection from_ =>
    union_subset_union (fromRefs_subset all true ∅ from_)
      (sdiff_mono (listRefs_subset all projection))
  | .future node => node.refs_subset all true

theorem listRefs_subset (all : Bool) : (es : List Node) → listRefs all es ⊆ listRefs true es
  | [] => subset_rfl
  | e :: es => union_subset_union (e.refs_subset all true) (listRefs_subset all es)

theorem Query.refs_subset (all rest : Bool) : (q : Query) → q.refs all rest ⊆ q.refs true true
  | .mk ctes body orderBy offset limit =>
    union_subset_union (commonTableExpressionRefs_subset ctes)
      (union_subset_union (body.refs_subset all rest)
        (union_subset_union (sdiff_mono (listRefs_subset rest orderBy))
          (union_subset_union (offset.refs_subset rest true) (limit.refs_subset rest true))))

theorem commonTableExpressionRefs_subset {all : Bool} :
    (cs : List CommonTableExpression) →
      commonTableExpressionRefs all cs ⊆ commonTableExpressionRefs true cs
  | [] => subset_rfl
  | c :: cs => union_subset_union (c.refs_subset all) (commonTableExpressionRefs_subset cs)

theorem CommonTableExpression.refs_subset (all : Bool) :
    (c : CommonTableExpression) → c.refs all ⊆ c.refs true
  | .mk _ _ query => query.refs_subset all true

theorem Select.refs_subset (all rest : Bool) : (s : Select) → s.refs all rest ⊆ s.refs true true
  | .mk projection from_ where_ groupBy having =>
    union_subset_union (fromRefs_subset all rest ∅ from_)
      (sdiff_mono
        (union_subset_union (listRefs_subset all projection)
          (union_subset_union (where_.refs_subset all true)
            (union_subset_union (listRefs_subset rest groupBy) (having.refs_subset all true)))))

theorem fromRefs_subset (all rest : Bool) (B : Finset Identifier) :
    (cs : List FromClause) → fromRefs all rest B cs ⊆ fromRefs true true B cs
  | [] => subset_rfl
  | c :: cs => union_subset_union (c.refs_subset all rest B) (fromRefs_subset all rest _ cs)

theorem FromClause.refs_subset (all rest : Bool) (B : Finset Identifier) :
    (c : FromClause) → c.refs all rest B ⊆ c.refs true true B
  | .mk source joins =>
    union_subset_union (sdiff_mono (source.refs_subset all rest)) (joinRefs_subset all rest joins)

theorem joinRefs_subset (all rest : Bool) {B : Finset Identifier} :
    (js : List Join) → joinRefs all rest B js ⊆ joinRefs true true B js
  | [] => subset_rfl
  | j :: js => union_subset_union (j.refs_subset all rest B) (joinRefs_subset all rest js)

theorem Join.refs_subset (all rest : Bool) (B : Finset Identifier) :
    (j : Join) → j.refs all rest B ⊆ j.refs true true B
  | .mk table constraint =>
    union_subset_union (sdiff_mono (table.refs_subset all rest))
      (sdiff_mono (constraint.refs_subset all true))

end

/-- A term that is judged local on a walkable tree has the identifiers it
refers to in the scope, or hidden. -/
theorem free_covered
    (h : e.walkable false = true) (hl : isLocalToScope e L = true) : Covered L e.free e.hidden := by
  rw [isLocalToScope, Bool.or_eq_true] at hl
  rcases hl with hnil | hl
  · rw [free_of_isNil hnil]
    exact Covered.empty
  · exact local_covered (e.walked L) (.inr h) hl

/-- So all of them are in the scope if the hidden ones are. -/
theorem free_subset_iff (hl : isLocalToScope e L = true) :
    e.free ⊆ L ↔ (e.walkable false = true → e.hidden ⊆ L) ∧
        (¬ e.walkable false = true → e.free ⊆ L) := by
  constructor
  · intro hfree
    exact ⟨fun _ => (e.refs_subset false true).trans hfree, fun _ => hfree⟩
  · rintro ⟨hwalk, hstop⟩
    by_cases h : e.walkable false = true
    · exact (free_covered h hl).trans (union_subset (Finset.Subset.refl L) (hwalk h))
    · exact hstop h

/-! ## The two parts together -/

/-- The truth values of SQL. -/
inductive Truth where
  | yes | no | unknown
  deriving DecidableEq

/-- The conjunction of two truth values. -/
def Truth.and : Truth → Truth → Truth
  | .no, _ | _, .no => .no
  | .yes, t => t
  | t, .yes => t
  | .unknown, .unknown => .unknown

instance : Std.Commutative Truth.and where
  comm a b := by cases a <;> cases b <;> rfl

instance : Std.Associative Truth.and where
  assoc a b c := by cases a <;> cases b <;> cases c <;> rfl

instance : Std.LawfulIdentity Truth.and .yes where
  left_id a := by cases a <;> rfl
  right_id a := by cases a <;> rfl

/-- The truth of constraints under one assignment. A constraint that is
nil does not constrain. -/
structure Meaning where
  truth : Node → Truth
  nil : truth .nil = .yes
  and (left right : Node) : truth (.binary .and left right) = (truth left).and (truth right)

namespace Meaning

variable (m : Meaning)

/-- The truth of all terms of a list. -/
def conj (terms : List Node) : Truth := (terms.map m.truth).foldr Truth.and .yes

@[simp] theorem conj_cons (term : Node) :
    m.conj (term :: terms) = (m.truth term).and (m.conj terms) := rfl

theorem conj_append (ss ts : List Node) : m.conj (ss ++ ts) = (m.conj ss).and (m.conj ts) := by
  induction ss with
  | nil => exact (Std.LawfulLeftIdentity.left_id (m.conj ts)).symm
  | cons s ss ih =>
    rw [cons_append, conj_cons, ih]
    exact (Std.Associative.assoc ..).symm

theorem conj_flattenConjunction : m.conj (flattenConjunction e) = m.truth e := by
  fun_induction flattenConjunction e with
  | case1 left right ihl ihr => rw [conj_append, ihl, ihr, m.and]
  | case2 e => exact Std.LawfulRightIdentity.right_id (m.truth e)

theorem truth_of_isNil (h : e.isNil = true) : m.truth e = .yes := by
  cases e <;> first | exact m.nil | exact nomatch h

theorem truth_optionalAnd (left right : Node) :
    m.truth (optionalAnd left right) = (m.truth left).and (m.truth right) := by
  unfold optionalAnd
  split
  next h =>
    rw [m.truth_of_isNil h]
    exact (Std.LawfulLeftIdentity.left_id _).symm
  · split
    next h =>
      rw [m.truth_of_isNil h]
      exact (Std.LawfulRightIdentity.right_id _).symm
    · exact m.and left right

/-- The loop adds each term to one of the parts. -/
theorem truth_partitionTerms {L : Finset Identifier} (parts : Node × Node) :
    (m.truth (partitionTerms L terms parts).1).and (m.truth (partitionTerms L terms parts).2) =
      ((m.truth parts.1).and (m.truth parts.2)).and (m.conj terms) := by
  fun_induction partitionTerms L terms parts with
  | case1 parts => exact (Std.LawfulRightIdentity.right_id _).symm
  | case2 term terms join where_ h ih | case3 term terms join where_ h ih =>
    simp only [ih, m.truth_optionalAnd, conj_cons]
    ac_rfl

theorem truth_partition (e : Node) (L : Finset Identifier) :
    (m.truth (partitionConstraintByLocality e L).1).and
        (m.truth (partitionConstraintByLocality e L).2) = m.truth e := by
  rw [partitionConstraintByLocality, truth_partitionTerms, conj_flattenConjunction, m.nil]
  exact Std.LawfulLeftIdentity.left_id _

end Meaning

/-! ## The part at the join -/

theorem free_optionalAnd (left right : Node) :
    (optionalAnd left right).free = left.free ∪ right.free := by
  unfold optionalAnd
  split
  next h => rw [free_of_isNil h, empty_union]
  · split
    next h => rw [free_of_isNil h, union_empty]
    · rfl

theorem free_partitionTerms_subset {parts : Node × Node} :
    (partitionTerms L terms parts).1.free ⊆ L ↔ parts.1.free ⊆ L ∧
        ∀ t ∈ terms, isLocalToScope t L = true → t.free ⊆ L := by
  fun_induction partitionTerms L terms parts with
  | case1 parts => simp
  | case2 term terms join where_ h ih =>
    rw [ih, free_optionalAnd, union_subset_iff, List.forall_mem_cons, and_assoc]
    exact and_congr_right fun _ => and_congr_left fun _ =>
      ⟨fun hterm _ => hterm, fun hterm => hterm h⟩
  | case3 term terms join where_ h ih =>
    rw [ih, List.forall_mem_cons]
    exact and_congr_right fun _ =>
      ⟨fun hterms => ⟨fun hl => absurd hl h, hterms⟩, fun hterms => hterms.2⟩

/-- A split is right if its parts say together what the constraint says,
and the part at the join refers to local identifiers only. -/
def SplitsRight (e : Node) (L : Finset Identifier) : Prop := (∀ m : Meaning,
    (m.truth (partitionConstraintByLocality e L).1).and
      (m.truth (partitionConstraintByLocality e L).2) = m.truth e) ∧
    (partitionConstraintByLocality e L).1.free ⊆ L

/-- `n1.id = any (s0.i0)`, with the `AnyExpression` as a value. The rewrite
of the references to a bound endpoint has a case for this form. -/
def boundEndpoint : Node :=
  .binary (.other "=") (.compoundIdentifier ["n1", "id"])
    (.unknown [.compoundIdentifier ["s0", "i0"]])

end Dawgs.Ref.Locality

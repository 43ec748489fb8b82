import Dawgs.Ref.QueryMeaning

/-!
# Values in their places

Two assignments of values make an expression say the same if they agree on
its parameters. The converse holds where one assignment only has fewer
values than the other (`Below`): an expression that asks for a missing value
says something else. An empty map for the properties of a pattern is the
reason for the restriction, since it leaves no place behind.

Of the clauses of a query all that is needed is which of the three kinds of
places they are without.
-/

namespace Dawgs.Ref.QueryRewrite

open Lib Cypher Frontend List

variable {α : Type}

/-! ### Values of parameters -/

variable {symbol : String} {p : Place}

theorem mem_keys {m : Parameters α} : symbol ∈ keys m ↔ m.lookup symbol ≠ none := by
  rw [keys]
  simp

/-! ### Expressions with values -/

@[simp] theorem parameterNames_node (label : Label) (children : List Outline) :
    parameterNames (.node label children) =
      match parameterLabel label with
      | some symbol => [symbol]
      | none => parameterNamesAll children := by
  cases h : parameterLabel label <;> simp only [parameterNames, h]

@[simp] theorem parameterNamesAll_nil : parameterNamesAll [] = [] := by
  rw [parameterNamesAll]

@[simp] theorem parameterNamesAll_cons (o : Outline) (os : List Outline) :
    parameterNamesAll (o :: os) = parameterNames o ++ parameterNamesAll os := by
  rw [parameterNamesAll]

@[simp] theorem parameterNamesAll_append (os os' : List Outline) :
    parameterNamesAll (os ++ os') = parameterNamesAll os ++ parameterNamesAll os' := by
  induction os with
  | nil => rw [parameterNamesAll_nil]; rfl
  | cons o os ih => simp [ih]

theorem parameterNames_of_propertiesParameter {o : Outline}
    (h : propertiesParameter o = some symbol) : parameterNames o = [symbol] := by
  unfold propertiesParameter at h
  split at h
  next => 
    cases h
    simp [parameterLabel]
  next => cases h

variable {v v' : String → Option (Value α)}

mutual

theorem resolve_congr (o : Outline) (h : ∀ symbol ∈ parameterNames o, v symbol = v' symbol) :
    resolve v o = resolve v' o := by
  match o with
  | .node label children =>
    rw [parameterNames_node] at h
    cases heq : parameterLabel label with
    | some symbol =>
      rw [heq] at h
      simp only [resolve, heq]
      rw [h symbol (mem_singleton_self _)]
    | none =>
      rw [heq] at h
      simp only [resolve, heq]
      rw [resolveAll_congr children h]

theorem resolveAll_congr (os : List Outline)
    (h : ∀ symbol ∈ parameterNamesAll os, v symbol = v' symbol) :
    resolveAll v os = resolveAll v' os := by
  match os with
  | [] => rw [resolveAll, resolveAll]
  | o :: os =>
    rw [parameterNamesAll_cons, forall_mem_append] at h
    rw [resolveAll, resolveAll, resolveAll_congr os h.2]
    split
    next symbol heq =>
      rw [parameterNames_of_propertiesParameter heq] at h
      rw [h.1 symbol (by simp)]
    next => rw [resolve_congr o h.1]

end

/-- Some values, of which the other ones may have more. -/
def Below (v v' : String → Option (Value α)) : Prop :=
  ∀ symbol, v symbol = none ∨ v symbol = v' symbol

theorem length_resolvedProperties_le (value : Option (Value α)) :
    (resolvedProperties value).length ≤ 1 := by
  unfold resolvedProperties
  split
  · split <;> simp
  · simp

theorem length_resolvedProperties_of_below (h : Below v v') (symbol : String) :
    (resolvedProperties (v' symbol)).length ≤ (resolvedProperties (v symbol)).length := by
  rcases h symbol with hnone | hsame
  · rw [hnone]
    exact length_resolvedProperties_le _
  · rw [hsame]

theorem length_resolveAll_of_below (h : Below v v') (os : List Outline) :
    (resolveAll v' os).length ≤ (resolveAll v os).length := by
  induction os with
  | nil => rw [resolveAll, resolveAll]
  | cons o os ih =>
    rw [resolveAll, resolveAll, length_append, length_append]
    split
    next symbol _ =>
      have := length_resolvedProperties_of_below h symbol
      omega
    next =>
      rw [length_singleton, length_singleton]
      omega

theorem resolvedProperties_none_ne (value : Value α) :
    resolvedProperties none ≠ resolvedProperties (some value) := by
  intro h
  cases value with
  | other a => cases h
  | map entries =>
    rw [resolvedProperties.eq_1] at h
    split at h <;> cases h

theorem eq_of_resolvedProperties_eq (h : Below v v')
    (heq : resolvedProperties (v symbol) = resolvedProperties (v' symbol)) :
    v symbol = v' symbol := by
  rcases h symbol with hnone | hsame
  · rw [hnone] at heq ⊢
    match hv' : v' symbol with
    | none => rfl
    | some value =>
      rw [hv'] at heq
      exact absurd heq (resolvedProperties_none_ne value)
  · exact hsame

mutual

/-- A value more makes an expression that asks for it say something else. -/
theorem eq_of_resolve_eq (hbelow : Below v v') (o : Outline) (h : resolve v o = resolve v' o) :
    ∀ symbol ∈ parameterNames o, v symbol = v' symbol := by
  match o with
  | .node label children =>
    rw [resolve, resolve] at h
    rw [parameterNames_node]
    split
    next symbol heq =>
      rw [heq] at h
      injection h with h
      injection h with h
      simpa using h
    next heq =>
      rw [heq] at h
      injection h with _ h
      exact eq_of_resolveAll_eq hbelow children h

theorem eq_of_resolveAll_eq (hbelow : Below v v') (os : List Outline)
    (h : resolveAll v os = resolveAll v' os) :
    ∀ symbol ∈ parameterNamesAll os, v symbol = v' symbol := by
  match os with
  | [] => simp
  | o :: os =>
    rw [resolveAll, resolveAll] at h
    rw [parameterNamesAll_cons, forall_mem_append]
    have hrest := length_resolveAll_of_below hbelow os
    have hlength := congrArg List.length h
    rw [length_append, length_append] at hlength
    match hp : propertiesParameter o with
    | some symbol =>
      rw [hp] at h hlength
      have hfirst := length_resolvedProperties_of_below hbelow symbol
      dsimp only at h hlength
      obtain ⟨hfirst, hrest⟩ := append_inj h (by omega)
      rw [parameterNames_of_propertiesParameter hp]
      refine ⟨?_, eq_of_resolveAll_eq hbelow os hrest⟩
      simpa using eq_of_resolvedProperties_eq hbelow hfirst
    | none =>
      rw [hp] at h
      obtain ⟨hfirst, hrest⟩ := append_inj h rfl
      injection hfirst with hfirst
      exact ⟨eq_of_resolve_eq hbelow o hfirst, eq_of_resolveAll_eq hbelow os hrest⟩

end

/-! ### Clauses without a kind of place -/

theorem map_marked {L : Type} (f : QueryLabel → L) (m : Mark) (ts : List QueryOutline) :
    (marked m ts).map f = .node (f (.mark m)) (ts.map (RoseTree.map f)) := by
  rw [marked, RoseTree.map_node, RoseTree.mapAll_eq_map]

/-- The three kinds of places for expressions. -/
inductive Place where
  | element | read | written

def placeOf : QueryLabel → Option Place
  | .mark _ => none
  | .element _ => some .element
  | .read _ => some .read
  | .written _ => some .written

/-- A part of a query without such places. -/
def Without (p : Place) (t : QueryOutline) : Prop := ∀ l ∈ t.labels, placeOf l ≠ some p

theorem Without.map_eq {L : Type} {t : QueryOutline} (h : Without p t) {f g : QueryLabel → L}
    (hfg : ∀ l, placeOf l ≠ some p → f l = g l) : t.map f = t.map g :=
  (RoseTree.map_eq_map_iff t).mpr fun l hl => hfg l (h l hl)

@[simp] theorem without_marked (p : Place) (m : Mark) (ts : List QueryOutline) :
    Without p (marked m ts) ↔ ∀ t ∈ ts, Without p t := by
  simp only [Without, marked, RoseTree.labels, RoseTree.labelsAll_eq_flatMap, mem_cons, mem_flatMap]
  constructor
  · exact fun h t ht l hl => h l (.inr ⟨t, ht, hl⟩)
  · rintro h l (rfl | ⟨t, ht, hl⟩)
    · simp [placeOf]
    · exact h t ht l hl

@[simp] theorem without_leaf (p : Place) (l : QueryLabel) :
    Without p (leaf l) ↔ placeOf l ≠ some p := by
  simp [Without, leaf, RoseTree.labels, RoseTree.labelsAll]

theorem without_option {X : Type} {outline : X → QueryOutline}
    (h : ∀ x, Without p (outline x)) (x : Option X) : Without p (optionOutline outline x) := by
  cases x with
  | none => simp [optionOutline]
  | some x => exact h x

theorem without_part {onElement : Expression → QueryLabel} (h : ∀ e, placeOf (onElement e) ≠ some p)
    (part : PatternPart) : Without p (partOutline onElement part) := by
  rw [partOutline, without_marked, forall_mem_map]
  exact fun element _ => without_option (fun element => by simp [h]) element

theorem without_updatingClauses (h : Place.written ≠ p)
    (cs : List UpdatingClause) : Without p (updatingClausesOutline cs) := by
  have hpart := without_option (without_part fun e =>
    show placeOf (.written e) ≠ some p by simpa [placeOf] using h)
  have hset (item : SetItem) : Without p (setItemOutline item) := by
    simp [setItemOutline, placeOf, h]
  rw [updatingClausesOutline, without_marked, forall_mem_map]
  intro c _
  cases c <;> simp [updatingClauseOutline, mergeActionOutline,
    removeItemOutline, hpart, hset, placeOf, h]

theorem without_where (w : Where Expression) : Without .element (whereOutline w) := by
  simp [whereOutline, readOutlines, placeOf]

theorem without_unwind (u : Unwind) : Without .element (unwindOutline u) := by
  simp [unwindOutline, placeOf]

theorem without_projection (q : Projection) : Without .element (projectionOutline q) := by
  have hsort (item : SortItem) : Without .element (sortItemOutline item) := by
    simp [sortItemOutline, placeOf]
  have horder (order : Order) : Without .element (orderOutline order) := by
    simp [orderOutline, without_option hsort]
  have hbound (bound : RowBound) : Without .element (rowBoundOutline bound) := by
    simp [rowBoundOutline, placeOf]
  simp [projectionOutline, readOutlines, without_option horder, without_option hbound, placeOf]

theorem without_with (w : With) : Without .element (withOutline w) := by
  simp [withOutline, without_option without_projection, without_option without_where]

theorem without_return (r : Return) : Without .element (returnOutline r) := by
  simp [returnOutline, without_option without_projection]

end Dawgs.Ref.QueryRewrite

import Dawgs.Proofs.QueryMeaning

/-!
# The comparisons of a query, wrapped

The second rewriting goes over the expressions of the clauses that read. It
asks for the same parameters as before, and what it changes it notes
(`Sound`). A whole query thus says what it said, place by place, with the
expressions rewritten (`Wraps`).
-/

namespace Dawgs.Ref.QueryRewrite

open Lib Cypher Frontend Expression Noted List

variable {α : Type}

/-! ### Temporal comparisons -/

/-- A rewriting keeps the names of the parameters, and changes nothing
without a note. -/
structure Sound {X : Type} (names : X → List String) (x : X) (y : Noted X) : Prop where
  names : names y.value = names x
  honest : y.changed = false → y.value = x

namespace Sound

variable {X Y : Type} {names : X → List String} {names' : Y → List String} {m : Noted X}

theorem pure (x : X) : Sound names x (Pure.pure x) := ⟨rfl, fun _ => rfl⟩

/-- One part is rewritten, and then the whole around it. -/
theorem bind {x : X} (hm : Sound names x m) (g : X → Y)
    {f : X → Noted Y} (hf : ∀ a, Sound names' (g a) (f a))
    (hg : ∀ {a}, names a = names x → names' (g a) = names' (g x)) :
    Sound names' (g x) (m >>= f) := by
  refine ⟨(hf m.value).names.trans (hg hm.names), fun hchanged => ?_⟩
  rw [changed_bind, Bool.or_eq_false_iff] at hchanged
  rw [value_bind, (hf m.value).honest hchanged.2, hm.honest hchanged.1]

theorem map {x : X} (hm : Sound names x m) (g : X → Y)
    (hg : ∀ {a}, names a = names x → names' (g a) = names' (g x)) :
    Sound names' (g x) (g <$> m) := hm.bind g (fun a => pure (g a)) hg

/-- Two parts are rewritten side by side. -/
theorem both {Z : Type} {names'' : Z → List String} {x : X} {y : Y} {n : Noted Y}
    (hm : Sound names x m) (hn : Sound names' y n) (g : X → Y → Z)
    (hg : ∀ {a b}, names a = names x → names' b = names' y → names'' (g a b) = names'' (g x y)) :
    Sound names'' (g x y) (m >>= fun a => n >>= fun b => Pure.pure (g a b)) := by
  refine ⟨hg hm.names hn.names, fun hchanged => ?_⟩
  simp only [changed_bind, Bool.or_eq_false_iff] at hchanged
  rw [value_bind, value_bind, hm.honest hchanged.1, hn.honest hchanged.2.1]
  rfl

end Sound

def shapeNames (e : Expression) : List String := parameterNames (shape e)

def shapesNames (es : List Expression) : List String := parameterNamesAll (shapes es)

def partialNames (ps : List (PartialExpression Expression)) : List String :=
  parameterNamesAll (partialShapes ps)

def itemNames (items : List (MapItem Expression)) : List String :=
  parameterNamesAll (itemShapes items)

theorem partialNames_cons (operator : Operator) (right : Expression)
    (ps : List (PartialExpression Expression)) :
    partialNames (⟨operator, right⟩ :: ps) = shapeNames right ++ partialNames ps := by
  simp [partialNames, shapeNames, partialShapes, parameterLabel]

theorem shapesNames_cons (e : Expression) (es : List Expression) :
    shapesNames (e :: es) = shapeNames e ++ shapesNames es := by
  simp [shapesNames, shapeNames, shapes]

theorem itemNames_cons (key : String) (e : Expression) (items : List (MapItem Expression)) :
    itemNames (⟨key, e⟩ :: items) = shapeNames e ++ itemNames items := by
  simp [itemNames, shapeNames, itemShapes, parameterLabel]

section

variable (left : Expression) (ps : List (PartialExpression Expression))

theorem shapeNames_comparison :
    shapeNames (.comparison left ps) = shapeNames left ++ partialNames ps := by
  simp [shapeNames, partialNames, shape, parameterLabel]

theorem shapeNames_arithmetic :
    shapeNames (.arithmetic left ps) = shapeNames left ++ partialNames ps := by
  cases ps <;> simp [shapeNames, partialNames, shape, partialShapes, parameterLabel]

end

theorem wrapOperand_sound (e other : Expression) : Sound shapeNames e (wrapOperand e other) := by
  unfold wrapOperand
  split
  next =>
    unfold temporalPropertyLookup
    split
    next =>
      refine ⟨?_, by simp⟩
      simp [shapeNames, shape, shapes, parameterLabel, nameOutline]
    next => exact .pure _
  next => exact .pure _

mutual

theorem rewriteExpression_sound (e : Expression) : Sound shapeNames e (rewriteExpression e) := by
  match e with
  | .comparison left partials =>
    refine (rewriteExpression_sound left).bind (comparison · partials) (fun left => ?_) fun h => ?_
    · refine (rewritePartials_sound left partials).bind
        (fun x => comparison x.1 x.2) (fun x => .pure _) fun h => ?_
      rw [shapeNames_comparison, shapeNames_comparison, h]
    · rw [shapeNames_comparison, shapeNames_comparison, h]
  | .arithmetic left partials =>
    refine (rewriteExpression_sound left).both
      (rewriteArithmeticPartials_sound partials) arithmetic fun h h' => ?_
    rw [shapeNames_arithmetic, shapeNames_arithmetic, h, h']
  | .parenthetical e =>
    exact (rewriteExpression_sound e).map parenthetical fun h => by
      simpa [shapeNames, shape, parameterLabel] using h
  | .negation e =>
    exact (rewriteExpression_sound e).map negation fun h => by
      simpa [shapeNames, shape, parameterLabel] using h
  | .unaryAddOrSubtract operator right =>
    exact (rewriteExpression_sound right).map (unaryAddOrSubtract operator) fun h => by
        simpa [shapeNames, shape, parameterLabel] using h
  | .projectionItem e as =>
    exact (rewriteExpression_sound e).map (projectionItem · as) fun h => by
      simpa [shapeNames, shape, parameterLabel] using h
  | .disjunction es =>
    exact (rewriteExpressionList_sound es).map disjunction fun h => by
      simpa [shapeNames, shapesNames, shape, parameterLabel] using h
  | .exclusiveDisjunction es =>
    exact (rewriteExpressionList_sound es).map exclusiveDisjunction fun h => by
        simpa [shapeNames, shapesNames, shape, parameterLabel] using h
  | .conjunction es =>
    exact (rewriteExpressionList_sound es).map conjunction fun h => by
      simpa [shapeNames, shapesNames, shape, parameterLabel] using h
  | .listLiteral es =>
    exact (rewriteExpressionList_sound es).map listLiteral fun h => by
      simpa [shapeNames, shapesNames, shape, parameterLabel] using h
  | .functionInvocation distinct namespaces name arguments =>
    exact (rewriteExpressionList_sound arguments).map
      (functionInvocation distinct namespaces name) fun h => by
        simpa [shapeNames, shapesNames, shape, parameterLabel] using h
  | .quantifier type filter =>
    exact (rewriteFilter_sound filter).map (quantifier type) fun h => by
      simpa [shapeNames, shape, parameterLabel] using h
  | .mapLiteral items =>
    exact (rewriteItems_sound items).map mapLiteral fun h => by
      simpa [shapeNames, itemNames, shape, parameterLabel] using h
  | .nil | .var _ | .literal _ | .parameter _ | .rangeQuantifier _
  | .propertyLookup _ _ | .kindMatcher _ _ _ | .properties _
  | .nodePattern _ | .relationshipPattern _ | .patternPredicate _ => exact .pure _

theorem rewriteExpressionList_sound (es : List Expression) :
    Sound shapesNames es (rewriteExpressionList es) := by
  match es with
  | [] => exact .pure _
  | e :: es =>
    refine (rewriteExpression_sound e).both (rewriteExpressionList_sound es)
      List.cons fun h h' => ?_
    rw [shapesNames_cons, shapesNames_cons, h, h']

theorem rewritePartials_sound (left : Expression) (ps : List (PartialExpression Expression)) :
    Sound (fun x => shapeNames x.1 ++ partialNames x.2) (left, ps) (rewritePartials left ps) := by
  match ps with
  | [] => exact .pure _
  | p :: ps =>
    have hrest (left right : Expression) :
        Sound (fun x => shapeNames x.1 ++ partialNames x.2) (left, ⟨p.operator, right⟩ :: ps) (do
            let (right, ps) ← rewritePartials right ps
            pure (left, ⟨p.operator, right⟩ :: ps)) := by
      refine (rewritePartials_sound right ps).bind
        (fun x => (left, ⟨p.operator, x.1⟩ :: x.2)) (fun x => .pure _) fun h => ?_
      rw [partialNames_cons, partialNames_cons, h]
    refine (rewriteExpression_sound p.right).bind
      (fun right => (left, ⟨p.operator, right⟩ :: ps)) (fun right => ?_) fun h => ?_
    · split
      next =>
        refine (wrapOperand_sound left right).bind
          (fun left => (left, ⟨p.operator, right⟩ :: ps)) (fun left => ?_) fun h => ?_
        · refine (wrapOperand_sound right left).bind
            (fun right => (left, ⟨p.operator, right⟩ :: ps))
            (fun right => hrest left right) fun h => ?_
          rw [partialNames_cons, partialNames_cons, h]
        · dsimp only
          rw [h]
      next => exact hrest left right
    · dsimp only
      rw [partialNames_cons, partialNames_cons, h]

theorem rewriteArithmeticPartials_sound (ps : List (PartialExpression Expression)) :
    Sound partialNames ps (rewriteArithmeticPartials ps) := by
  match ps with
  | [] => exact .pure _
  | p :: ps =>
    refine (rewriteExpression_sound p.right).both
      (rewriteArithmeticPartials_sound ps) (⟨p.operator, ·⟩ :: ·) fun h h' => ?_
    rw [partialNames_cons, partialNames_cons, h, h']

theorem rewriteItems_sound (items : List (MapItem Expression)) :
    Sound itemNames items (rewriteItems items) := by
  match items with
  | [] => exact .pure _
  | item :: items =>
    refine (rewriteExpression_sound item.value).both
      (rewriteItems_sound items) (⟨item.key, ·⟩ :: ·) fun h h' => ?_
    rw [itemNames_cons, itemNames_cons, h, h']

theorem rewriteFilter_sound (filter : Option (FilterExpression Expression)) :
    Sound (fun f => parameterNamesAll (filterShape f)) filter (rewriteFilter filter) := by
  match filter with
  | none => exact .pure _
  | some f =>
    refine (rewriteSpecifier_sound f.specifier).both (rewriteFilterWhere_sound f.where_)
      (fun c w => some (FilterExpression.mk c w)) fun h h' => ?_
    simp [filterShape, parameterLabel, h, h']

theorem rewriteSpecifier_sound (specifier : Option (IDInCollection Expression)) :
    Sound (fun c => parameterNamesAll (specifierShape c)) specifier
      (rewriteSpecifier specifier) := by
  match specifier with
  | none => exact .pure _
  | some c =>
    refine (rewriteExpression_sound c.expression).map
      (fun e => some (IDInCollection.mk c.variable_ e)) fun h => ?_
    simpa [specifierShape, shapeNames, parameterLabel] using h

theorem rewriteFilterWhere_sound (where_ : Option (Where Expression)) :
    Sound (fun w => parameterNamesAll (whereShape w)) where_ (rewriteFilterWhere where_) := by
  match where_ with
  | none => exact .pure _
  | some w =>
    refine (rewriteExpressionList_sound w.expressions).map
      (fun es => some (Where.mk es)) fun h => ?_
    simpa [whereShape, shapesNames, parameterLabel] using h

end

/-! ### The whole query, with its comparisons wrapped -/

def temporalLabel : QueryLabel → QueryLabel
  | .read e => .read (rewriteExpression e).value
  | l => l

/-- The expressions of clauses that read are rewritten, and nothing else. -/
structure Wraps {X : Type} (outline : X → QueryOutline) (f : X → Noted X) : Prop where
  outline_eq : ∀ x, outline (f x).value = (outline x).map temporalLabel
  honest : Noted.Honest f

@[simp] theorem map_temporalLabel_marked (m : Mark) (ts : List QueryOutline) :
    (marked m ts).map temporalLabel =
      marked m (ts.map (RoseTree.map temporalLabel)) := map_marked temporalLabel m ts

theorem map_temporalLabel_read (e : Expression) :
    (leaf (.read e)).map temporalLabel = leaf (.read (rewriteExpression e).value) := by
  simp [leaf, temporalLabel]

theorem value_rewriteExpressionList (es : List Expression) :
    (rewriteExpressionList es).value = es.map fun e => (rewriteExpression e).value := by
  induction es with
  | nil => rfl
  | cons e es ih =>
    rw [map_cons, ← ih]
    rfl

theorem wraps_expression : Wraps (fun e => leaf (.read e)) rewriteExpression :=
  ⟨fun e => (map_temporalLabel_read e).symm, fun e => (rewriteExpression_sound e).honest⟩

theorem wraps_expressions : Wraps readOutlines rewriteExpressionList := by
  refine ⟨fun es => ?_, fun es => (rewriteExpressionList_sound es).honest⟩
  rw [readOutlines, readOutlines, value_rewriteExpressionList,
    map_temporalLabel_marked, map_map, map_map]
  exact congrArg (marked .list) (map_congr_left fun e _ =>
    (map_temporalLabel_read e).symm)

namespace Wraps

variable {X Y : Type} {outline : X → QueryOutline} {f : X → Noted X} {outline' : Y → QueryOutline}

section

variable (h : Wraps outline f)
include h

theorem ifPresent : Wraps (optionOutline outline) (Temporal.ifPresent f) := by
  refine ⟨fun x => ?_, fun x hx => ?_⟩
  · cases x with
    | none => exact (map_temporalLabel_marked .missing []).symm
    | some x => exact h.outline_eq x
  · cases x with
    | none => rfl
    | some x =>
      rw [Temporal.ifPresent, changed_map] at hx
      exact congrArg some (h.honest x hx)

theorem map_eq (xs : List X) :
    (xs.mapM f).value.map outline = (xs.map outline).map (RoseTree.map temporalLabel) := by
  rw [value_mapM, map_map, map_map]
  exact map_congr_left fun x _ => h.outline_eq x

theorem list :
    Wraps (fun xs => marked .list (xs.map outline)) (List.mapM f) := by
  refine ⟨fun xs => ?_, h.honest.mapM⟩
  rw [h.map_eq, map_temporalLabel_marked]

/-- A value is rewritten in one of its parts. -/
theorem one
    {F : Y → Noted Y} (get : Y → X) (put : Y → X → Y)
    (hF : ∀ y, F y = f (get y) >>= fun x => pure (put y x))
    (hput : ∀ y, put y (get y) = y)
    (hout : ∀ y x, outline x = (outline (get y)).map temporalLabel →
      outline' (put y x) = (outline' y).map temporalLabel) :
    Wraps outline' F := by
  refine ⟨fun y => ?_, fun y hy => ?_⟩
  · rw [hF]
    exact hout y _ (h.outline_eq _)
  · rw [hF, changed_bind, Bool.or_eq_false_iff] at hy
    rw [hF, value_bind, h.honest _ hy.1]
    exact hput y

/-- A value is rewritten in two of its parts. -/
theorem two {Z : Type} {outline₂ : Z → QueryOutline}
    {f₂ : Z → Noted Z} (h₂ : Wraps outline₂ f₂)
    {F : Y → Noted Y} (get : Y → X)
    (get₂ : Y → Z) (put : Y → X → Z → Y)
    (hF : ∀ y, F y = f (get y) >>= fun x => f₂ (get₂ y) >>= fun z =>
      pure (put y x z))
    (hput : ∀ y, put y (get y) (get₂ y) = y)
    (hout : ∀ y x z, outline x = (outline (get y)).map temporalLabel →
      outline₂ z = (outline₂ (get₂ y)).map temporalLabel →
      outline' (put y x z) = (outline' y).map temporalLabel) :
    Wraps outline' F := by
  refine ⟨fun y => ?_, fun y hy => ?_⟩
  · rw [hF]
    exact hout y _ _ (h.outline_eq _) (h₂.outline_eq _)
  · simp only [hF, changed_bind, Bool.or_eq_false_iff] at hy
    rw [hF, value_bind, value_bind, h.honest _ hy.1, h₂.honest _ hy.2.1]
    exact hput y

end

end Wraps

theorem Without.temporal_eq {t : QueryOutline} (h : Without .read t) : t.map temporalLabel = t := by
  refine (h.map_eq fun l hl => ?_).trans (RoseTree.map_id t)
  cases l with
  | read e => exact absurd rfl hl
  | _ => rfl

theorem temporal_updatingClauses (cs : List UpdatingClause) :
    (updatingClausesOutline cs).map temporalLabel = updatingClausesOutline cs :=
  Without.temporal_eq (without_updatingClauses (by nofun) cs)

namespace Temporal

theorem wraps_where : Wraps whereOutline rewriteWhere :=
  (wraps_expressions).one Where.expressions (fun _ => Where.mk) (fun _ => rfl)
    (fun _ => rfl) fun w es h => by simp [whereOutline, h]

theorem wraps_match : Wraps matchOutline rewriteMatch := by
  refine (wraps_where).ifPresent.one Match.where_
    (fun m => Match.mk m.optional m.pattern) (fun _ => rfl) (fun _ => rfl) fun m w h => ?_
  have hpattern : Without .read (marked .list
      (m.pattern.map (optionOutline (partOutline .element)))) := by
    simp [without_option (without_part fun e =>
      show placeOf (.element e) ≠ some .read by nofun)]
  rw [matchOutline, matchOutline, map_temporalLabel_marked, map_cons,
    map_singleton, hpattern.temporal_eq, h]

theorem wraps_unwind : Wraps unwindOutline rewriteUnwind :=
  (wraps_expression).one Unwind.expression (fun u e => ⟨e, u.variable_⟩)
    (fun _ => rfl) (fun _ => rfl) fun u e h => by simp [unwindOutline, h]

theorem wraps_readingClause : Wraps readingClauseOutline rewriteReadingClause :=
  (wraps_match).ifPresent.two (wraps_unwind).ifPresent ReadingClause.match_ ReadingClause.unwind
    (fun c => ReadingClause.mk c.address) (fun _ => rfl) (fun _ => rfl)
    fun c m u hm hu => by simp [readingClauseOutline, hm, hu]

theorem wraps_readingClauses : Wraps readingClausesOutline rewriteReadingClauseExpressions :=
  (wraps_readingClause).ifPresent.list

theorem wraps_sortItem : Wraps sortItemOutline rewriteSortItem :=
  (wraps_expression).one SortItem.expression
    (fun item => SortItem.mk item.ascending) (fun _ => rfl) (fun _ => rfl)
    fun item e h => by simp [sortItemOutline, h]

theorem wraps_order : Wraps orderOutline rewriteOrder := by
  have hitems := (wraps_sortItem).ifPresent
  refine ⟨fun order => ?_, fun order horder => ?_⟩
  · rw [orderOutline, orderOutline, map_temporalLabel_marked, ← hitems.map_eq]
    rfl
  · rw [rewriteOrder, changed_bind, Bool.or_eq_false_iff] at horder
    exact congrArg Order.mk (hitems.honest.mapM _ horder.1)

theorem wraps_rowBound : Wraps rowBoundOutline rewriteRowBound :=
  (wraps_expression).one RowBound.value (fun _ => RowBound.mk) (fun _ => rfl)
    (fun _ => rfl) fun bound e h => by simp [rowBoundOutline, h]

theorem wraps_projection : Wraps projectionOutline rewriteProjectionItems := by
  have horder := (wraps_order).ifPresent
  have hbound := (wraps_rowBound).ifPresent
  refine ⟨fun p => ?_, fun p hp => ?_⟩
  · rw [projectionOutline, projectionOutline, map_temporalLabel_marked,
      map_cons, map_cons, map_cons, map_singleton,
      ← (wraps_expressions).outline_eq, ← horder.outline_eq,
      ← hbound.outline_eq, ← hbound.outline_eq]
    rfl
  · simp only [rewriteProjectionItems, changed_bind, Bool.or_eq_false_iff] at hp
    obtain ⟨hitems, horders, hskip, hlimit, -⟩ := hp
    show Projection.mk p.distinct p.all (ifPresent rewriteOrder p.order).value
      (ifPresent rewriteRowBound p.skip).value (ifPresent rewriteRowBound p.limit).value
      (rewriteExpressionList p.items).value = p
    rw [(wraps_expressions).honest _ hitems, horder.honest _ horders,
      hbound.honest _ hskip, hbound.honest _ hlimit]

theorem wraps_with : Wraps withOutline rewriteWith :=
  (wraps_projection).ifPresent.two (wraps_where).ifPresent
    With.projection With.where_ (fun _ => With.mk) (fun _ => rfl)
    (fun _ => rfl) fun w p c hp hc => by simp [withOutline, hp, hc]

theorem wraps_return : Wraps returnOutline rewriteProjection :=
  (wraps_projection).ifPresent.one Return.projection (fun _ => Return.mk)
    (fun _ => rfl) (fun _ => rfl) fun r p h => by simp [returnOutline, h]

theorem wraps_singlePartQuery : Wraps singlePartQueryOutline rewriteSinglePartQuery :=
  (wraps_readingClauses).two (wraps_return).ifPresent
    SinglePartQuery.readingClauses SinglePartQuery.return_
    (fun q cs r => ⟨cs, q.updatingClauses, r⟩) (fun _ => rfl) (fun _ => rfl) fun q cs r hcs hr => by
      simp [singlePartQueryOutline, temporal_updatingClauses, hcs, hr]

theorem wraps_multiPartQueryPart : Wraps multiPartQueryPartOutline rewriteMultiPartQueryPart :=
  (wraps_readingClauses).two (wraps_with).ifPresent
    MultiPartQueryPart.readingClauses MultiPartQueryPart.with_
    (fun p cs w => ⟨cs, p.updatingClauses, w⟩) (fun _ => rfl) (fun _ => rfl) fun p cs w hcs hw => by
      simp [multiPartQueryPartOutline, temporal_updatingClauses, hcs, hw]

theorem wraps_multiPartQuery : Wraps multiPartQueryOutline rewriteMultiPartQuery :=
  (wraps_multiPartQueryPart).ifPresent.list.two
    (wraps_singlePartQuery).ifPresent MultiPartQuery.parts
    MultiPartQuery.singlePartQuery (fun _ => MultiPartQuery.mk) (fun _ => rfl)
    (fun _ => rfl) fun q ps s hps hs => by
      simp [multiPartQueryOutline, hps, hs]

theorem wraps_singleQuery : Wraps singleQueryOutline rewriteSingleQuery :=
  (wraps_singlePartQuery).ifPresent.two (wraps_multiPartQuery).ifPresent
    SingleQuery.singlePartQuery SingleQuery.multiPartQuery
    (fun _ => SingleQuery.mk) (fun _ => rfl) (fun _ => rfl)
    fun q s m hs hm => by simp [singleQueryOutline, hs, hm]

theorem wraps_query : Wraps queryOutline rewriteRegularQuery :=
  (wraps_singleQuery).ifPresent.one RegularQuery.singleQuery
    (fun _ => RegularQuery.mk) (fun _ => rfl) (fun _ => rfl) fun q s h => by simp [queryOutline, h]

end Temporal

theorem queryOutline_wrapped (q : RegularQuery) :
    queryOutline (wrapped q) = (queryOutline q).map temporalLabel := by
  rw [← (Temporal.wraps_query).outline_eq, wrapped]
  split
  next => rfl
  next h => rw [(Temporal.wraps_query).honest q (Bool.not_eq_true _ |>.mp h)]

end Dawgs.Ref.QueryRewrite

import Dawgs.Lib.Lists
import Dawgs.Proofs.FrontendProductions

/-!
# The outline against the shape

When is what the source says what the syntax tree says? If the tree is clean
they are equal, production by production. If it is not, then one of them is
heavier: the labels are weighed so that whatever the frontend loses weighs
something, and what it has no node for at all, an index, a slice, a
comprehension or a shortest path, is infinitely heavy. A sum of weights
shows a loss at any depth, whatever stands around it, and an outline that is
heavier than the shape is not equal to it.
-/

namespace Dawgs.Ref.Frontend

open Lib RoseTree Cypher Grammar List

/-! ## Weights -/

/-- The operators that are not read, and a missing end of a range, weigh
nothing. -/
def Label.weight : Label → ℕ∞
  | .index | .slice _ _ | .listComprehension | .patternComprehension
  | .shortestPath _ => ⊤
  | .operator .invalid => 0
  | .range lower upper => (lower.toList.length + upper.toList.length : ℕ)
  | _ => 1

abbrev outlineWeights (os : List Outline) : ℕ∞ := weights Label.weight os

theorem weight_operator_ne_top {operator : Operator} : (Label.operator operator).weight ≠ ⊤ := by
  cases operator <;> simp [Label.weight]

theorem weights_nameOutline_ne_top (names : List String) :
    outlineWeights (names.map nameOutline) ≠ ⊤ := by
  induction names with
  | nil => simp
  | cons name names ih => simp [nameOutline, Label.weight, ih]

theorem weights_kindsOutline_ne_top (names : List String) :
    outlineWeights (kindsOutline names) ≠ ⊤ := by
  unfold kindsOutline
  split
  · simp
  · simpa [Label.weight] using weights_nameOutline_ne_top names

theorem weights_variable_ne_top (v : Option Variable) :
    outlineWeights (v.toList.map fun v => variableOutline v.symbol) ≠ ⊤ := by
  cases v <;> simp [variableOutline, Label.weight]

mutual

/-- What the syntax tree says is never infinitely heavy. -/
theorem weight_shape_ne_top (e : Expression) : weight Label.weight (shape e) ≠ ⊤ := by
  match e with
  | .nil | .var _ | .parameter _ | .rangeQuantifier _ => simp [shape, variableOutline, Label.weight]
  | .literal l =>
    rw [shape]
    split <;> simp [Label.weight]
  | .propertyLookup atom key =>
    simpa [shape, nameOutline, Label.weight] using weight_shape_ne_top atom
  | .functionInvocation distinct namespaces name arguments =>
    simpa [shape, nameOutline, Label.weight] using
      ⟨weights_nameOutline_ne_top namespaces, weights_shapes_ne_top arguments⟩
  | .parenthetical e | .negation e | .projectionItem e _ =>
    simpa [shape, Label.weight] using weight_shape_ne_top e
  | .conjunction es | .disjunction es | .exclusiveDisjunction es
  | .listLiteral es => simpa [shape, Label.weight] using weights_shapes_ne_top es
  | .mapLiteral items => simpa [shape, Label.weight] using weights_itemShapes_ne_top items
  | .comparison left partials =>
    simpa [shape, Label.weight] using
      ⟨weight_shape_ne_top left, weights_partialShapes_ne_top partials⟩
  | .arithmetic left partials =>
    rw [shape]
    split
    · exact weight_shape_ne_top left
    · simpa [Label.weight] using ⟨weight_shape_ne_top left, weights_partialShapes_ne_top partials⟩
  | .unaryAddOrSubtract operator right =>
    simpa [shape, Label.weight] using weight_shape_ne_top right
  | .quantifier type filter => simpa [shape, Label.weight] using weights_filterShape_ne_top filter
  | .kindMatcher reference kinds isExclusive =>
    have hkinds := weights_nameOutline_ne_top kinds
    have hreference := weight_shape_ne_top reference
    cases isExclusive <;> simpa [shape, Label.weight] using ⟨hreference, hkinds⟩
  | .properties p => simpa [shape, Label.weight] using weights_propertiesShape_ne_top p
  | .nodePattern p =>
    have hproperties := weight_shape_ne_top p.properties
    have hv := weights_variable_ne_top p.variable_
    have hkinds := weights_kindsOutline_ne_top p.kinds
    rw [shape, optional]
    split <;> simp_all [Label.weight]
  | .relationshipPattern p =>
    have hproperties := weight_shape_ne_top p.properties
    have hv := weights_variable_ne_top p.variable_
    have hkinds := weights_kindsOutline_ne_top p.kinds
    have hrange : outlineWeights (p.range.toList.map fun r =>
        .node (.range r.startIndex r.endIndex) []) ≠ ⊤ := by
      cases p.range <;> simp [Label.weight]
    rw [shape, optional]
    split <;> simp_all [Label.weight]
  | .patternPredicate elements =>
    simpa [shape, Label.weight] using weights_elementShapes_ne_top elements

theorem weights_shapes_ne_top (es : List Expression) : outlineWeights (shapes es) ≠ ⊤ := by
  match es with
  | [] => simp [shapes]
  | e :: es => simpa [shapes] using ⟨weight_shape_ne_top e, weights_shapes_ne_top es⟩

theorem weights_partialShapes_ne_top (ps : List (PartialExpression Expression)) :
    outlineWeights (partialShapes ps) ≠ ⊤ := by
  match ps with
  | [] => simp [partialShapes]
  | p :: ps =>
    simpa [partialShapes] using ⟨⟨weight_operator_ne_top,
      weight_shape_ne_top p.right⟩, weights_partialShapes_ne_top ps⟩

theorem weights_itemShapes_ne_top (items : List (MapItem Expression)) :
    outlineWeights (itemShapes items) ≠ ⊤ := by
  match items with
  | [] => simp [itemShapes]
  | item :: items =>
    simpa [itemShapes, Label.weight] using
      ⟨weight_shape_ne_top item.value, weights_itemShapes_ne_top items⟩

theorem weights_propertiesShape_ne_top (p : Properties Expression) :
    outlineWeights (propertiesShape p) ≠ ⊤ := by
  match p with
  | ⟨_, some p⟩ => simp [propertiesShape, Label.weight]
  | ⟨items, none⟩ => simpa [propertiesShape, Label.weight] using weights_itemShapes_ne_top items

theorem weights_elementShapes_ne_top (elements : List (PatternElement Expression)) :
    outlineWeights (elementShapes elements) ≠ ⊤ := by
  match elements with
  | [] => simp [elementShapes]
  | p :: ps =>
    simpa [elementShapes] using ⟨weight_shape_ne_top p.element, weights_elementShapes_ne_top ps⟩

theorem weights_filterShape_ne_top (filter : Option (FilterExpression Expression)) :
    outlineWeights (filterShape filter) ≠ ⊤ := by
  match filter with
  | none => simp [filterShape]
  | some f =>
    simpa [filterShape, Label.weight] using ⟨weights_specifierShape_ne_top f.specifier,
        weights_whereShape_ne_top f.where_⟩

theorem weights_specifierShape_ne_top (c : Option (IDInCollection Expression)) :
    outlineWeights (specifierShape c) ≠ ⊤ := by
  match c with
  | none => simp [specifierShape]
  | some c =>
    simpa [specifierShape, Label.weight] using
      ⟨weights_variable_ne_top c.variable_, weight_shape_ne_top c.expression⟩

theorem weights_whereShape_ne_top (w : Option (Where Expression)) :
    outlineWeights (whereShape w) ≠ ⊤ := by
  match w with
  | none => simp [whereShape]
  | some w => simpa [whereShape, Label.weight] using weights_shapes_ne_top w.expressions

end

/-! ## Lists of children -/

theorem shapes_eq_map (es : List Expression) : shapes es = es.map shape :=
  eq_map (by rw [shapes]) (fun _ _ => by rw [shapes]) es

theorem partialShapes_eq_map (ps : List (PartialExpression Expression)) :
    partialShapes ps = ps.map fun p => .node (.operator p.operator) [shape p.right] :=
  eq_map (by rw [partialShapes]) (fun _ _ => by rw [partialShapes]) ps

theorem itemShapes_eq_map (items : List (MapItem Expression)) :
    itemShapes items = items.map fun item => .node (.entry item.key) [shape item.value] :=
  eq_map (by rw [itemShapes]) (fun _ _ => by rw [itemShapes]) items

theorem elementShapes_eq_map (ps : List (PatternElement Expression)) :
    elementShapes ps = ps.map fun p => shape p.element :=
  eq_map (by rw [elementShapes]) (fun _ _ => by rw [elementShapes]) ps

variable {ts cs : List Tree}

@[simp] theorem outline_token {t : Token} : outline (.token t) = [] := by
  rw [outline]

@[simp] theorem outline_terminal (type : TokenType) (text : String) :
    outline (token type text) = [] := outline_token

@[simp] theorem outline_node (r : Rule) (cs : List Tree) :
    outline (.node r cs) = assemble r cs (outlines cs) := by
  rw [outline]

@[simp] theorem outlines_nil : outlines [] = [] := by
  rw [outlines]

@[simp] theorem outlines_cons (t : Tree) (ts : List Tree) :
    outlines (t :: ts) = outline t ++ outlines ts := by
  rw [outlines]

@[simp] theorem outlines_append (ts ts' : List Tree) :
    outlines (ts ++ ts') = outlines ts ++ outlines ts' := by
  induction ts with
  | nil => simp
  | cons t ts ih => simp [ih]

variable {α : Type} {ss : List Outline} {r : Rule} {g : α → List Outline} {xs : List α}

theorem outlines_flatMap (f : α → List Tree) :
    outlines (xs.flatMap f) = xs.flatMap fun x => outlines (f x) := by
  induction xs with
  | nil => simp
  | cons x xs ih => simp [ih]

@[simp] theorem clean_token {t : Token} : clean (.token t) = true := by
  rw [clean]

@[simp] theorem clean_terminal (type : TokenType) (text : String) :
    clean (token type text) = true := clean_token

@[simp] theorem clean_node {r : Rule} :
    clean (.node r cs) = (fine r cs && cleanAll cs) := by
  rw [clean]

@[simp] theorem cleanAll_nil : cleanAll [] = true := by
  rw [cleanAll]

@[simp] theorem cleanAll_cons {t : Tree} :
    cleanAll (t :: ts) = (clean t && cleanAll ts) := by
  rw [cleanAll]

@[simp] theorem cleanAll_append {ts' : List Tree} :
    cleanAll (ts ++ ts') = (cleanAll ts && cleanAll ts') := by
  induction ts with
  | nil => simp
  | cons t ts ih => simp [ih, Bool.and_assoc]

theorem dense_cons {t : Tree} :
    dense (t :: ts) = if isSpace t then dense ts else t :: dense ts := by
  rw [dense, filter_cons]
  cases isSpace t <;> rfl

/-- The children that are no tokens. -/
def nodesIn (ts : List Tree) : List Tree := ts.filter fun
  | .token _ => false
  | .node _ _ => true

theorem nodesIn_append (ts ts' : List Tree) :
    nodesIn (ts ++ ts') = nodesIn ts ++ nodesIn ts' := filter_append ..

theorem nodesIn_cons (t : Tree) (ts : List Tree) :
    nodesIn (t :: ts) = nodesIn [t] ++ nodesIn ts := nodesIn_append [t] ts

theorem nodesIn_dense : nodesIn (dense cs) = nodesIn cs :=
  filter_dense fun _ => rfl

theorem outlines_nodesIn : outlines (nodesIn ts) = outlines ts := by
  induction ts with
  | nil => rfl
  | cons t ts ih => cases t <;> simpa [nodesIn] using ih

theorem cleanAll_nodesIn : cleanAll (nodesIn ts) = cleanAll ts := by
  induction ts with
  | nil => rfl
  | cons t ts ih => cases t <;> simp_all [nodesIn]

theorem cleanAll_dense : cleanAll (dense cs) = cleanAll cs := by
  rw [← cleanAll_nodesIn, nodesIn_dense, cleanAll_nodesIn]

/-- The trees `ts` are read as something that says `ss`: as they say it if
they are clean, and less than they say otherwise. -/
structure Kept (ts : List Tree) (ss : List Outline) : Prop where
  length : (outlines ts).length = ss.length
  eq : cleanAll ts = true → outlines ts = ss
  lt : cleanAll ts = false → outlineWeights ss < outlineWeights (outlines ts)
  ne_top : outlineWeights ss ≠ ⊤

theorem Kept.le (h : Kept ts ss) : outlineWeights ss ≤ outlineWeights (outlines ts) := by
  cases hc : cleanAll ts with
  | true => rw [h.eq hc]
  | false => exact (h.lt hc).le

theorem kept_nil : Kept [] [] := ⟨rfl, fun _ => rfl, by simp, by simp⟩

theorem Kept.append {ts' : List Tree} {ss' : List Outline} (h : Kept ts ss)
    (h' : Kept ts' ss') : Kept (ts ++ ts') (ss ++ ss') := by
  refine ⟨by simp [h.length, h'.length], fun hc => ?_, fun hc => ?_, ?_⟩
  · simp only [cleanAll_append, Bool.and_eq_true] at hc
    rw [outlines_append, h.eq hc.1, h'.eq hc.2]
  · simp only [cleanAll_append, Bool.and_eq_false_iff] at hc
    rw [outlines_append, outlineWeights, outlineWeights, weights_append, weights_append]
    rcases hc with hc | hc
    · exact ENat.add_lt_add_of_lt_of_le h'.ne_top (h.lt hc) h'.le
    · exact ENat.add_lt_add_of_le_of_lt h.ne_top h.le (h'.lt hc)
  · simpa using ⟨h.ne_top, h'.ne_top⟩

theorem Kept.cons {t : Tree} {ss' : List Outline} (h : Kept [t] ss)
    (h' : Kept ts ss') : Kept (t :: ts) (ss ++ ss') := h.append h'

/-- Tokens do not say anything. -/
theorem Kept.of_nodesIn (hcs : nodesIn cs = nodesIn ts) (h : Kept ts ss) : Kept cs ss := by
  have ho : outlines cs = outlines ts := by
    rw [← outlines_nodesIn, hcs, outlines_nodesIn]
  have hc : cleanAll cs = cleanAll ts := by
    rw [← cleanAll_nodesIn, hcs, cleanAll_nodesIn]
  exact ⟨ho ▸ h.length, ho ▸ hc ▸ h.eq, ho ▸ hc ▸ h.lt, h.ne_top⟩

theorem Kept.token {t : Token} (h : Kept ts ss) : Kept (.token t :: ts) ss :=
  h.of_nodesIn (show nodesIn (.token t :: ts) = nodesIn ts from rfl)

theorem Kept.of_dense (hcs : dense cs = ts) (h : Kept ts ss) : Kept cs ss :=
  h.of_nodesIn (by rw [← hcs, nodesIn_dense])

theorem kept_flatMap {f : α → List Tree}
    (h : ∀ x ∈ xs, Kept (f x) (g x)) : Kept (xs.flatMap f) (xs.flatMap g) := by
  induction xs with
  | nil => exact kept_nil
  | cons x xs ih =>
    exact (h x mem_cons_self).append (ih fun y hy => h y (mem_cons_of_mem x hy))

theorem kept_map {f : α → Tree} {g : α → Outline}
    (h : ∀ x ∈ xs, Kept [f x] [g x]) : Kept (xs.map f) (xs.map g) := by
  simpa only [map_eq_flatMap] using kept_flatMap h

theorem kept_toList {x : Option α} {f : α → Tree}
    (h : ∀ y ∈ x, Kept [f y] (g y)) : Kept (x.map f).toList (x.toList.flatMap g) := by
  cases x with
  | none => exact kept_nil
  | some y => simpa using h y rfl

/-- A rule that adds something finite to what is below it. -/
theorem Kept.node {f : List Outline → List Outline} {n : Nat} {k : ℕ∞} (h : Kept cs ss)
    (hfine : fine r cs = true) (hk : k ≠ ⊤)
    (hassemble : ∀ os, os.length = ss.length → assemble r cs os = f os)
    (hlength : ∀ os, os.length = ss.length → (f os).length = n)
    (hweight : ∀ os, os.length = ss.length → outlineWeights (f os) = k + outlineWeights os) :
    Kept [.node r cs] (f ss) := by
  have hos := hassemble _ h.length
  refine ⟨?_, fun hc => ?_, fun hc => ?_, ?_⟩
  · simp [hos, hlength _ h.length, hlength ss rfl]
  · simp only [cleanAll_cons, clean_node, hfine, cleanAll_nil, Bool.and_true] at hc
    simp [h.eq hc, hassemble ss rfl]
  · simp only [cleanAll_cons, clean_node, hfine, cleanAll_nil, Bool.and_true] at hc
    simp only [outlines_cons, outline_node, outlines_nil, append_nil, hos]
    rw [hweight _ h.length, hweight ss rfl]
    exact (ENat.add_lt_add_iff_left hk).mpr (h.lt hc)
  · rw [hweight ss rfl]
    simpa using ⟨hk, h.ne_top⟩

/-- A rule that stands between two others. -/
theorem Kept.pass (h : Kept cs ss)
    (hassemble : ∀ os, assemble r cs os = os := by exact fun _ => rfl)
    (hfine : fine r cs = true := by rfl) : Kept [.node r cs] ss :=
  h.node (f := id) (k := 0) hfine (by simp) (fun os _ => hassemble os)
    (fun _ h => h) (fun _ _ => by simp)

/-- A rule that puts a label over what is below it. -/
theorem Kept.wrap {label : Label} (h : Kept cs ss)
    (hassemble : ∀ os, assemble r cs os = [.node label os] := by exact fun _ => rfl)
    (hlabel : label.weight ≠ ⊤ := by simp [Label.weight]) (hfine : fine r cs = true := by rfl) :
    Kept [.node r cs] [.node label ss] :=
  h.node (f := fun os => [.node label os]) hfine hlabel
    (fun os _ => hassemble os) (fun _ _ => rfl) (fun _ _ => by simp)

/-- A rule with nothing below it that could be lost. -/
theorem kept_const (hclean : clean (.node r cs) = true)
    (hassemble : assemble r cs (outlines cs) = ss) (hne : outlineWeights ss ≠ ⊤) :
    Kept [.node r cs] ss := ⟨by simp [hassemble], fun _ => by simp [hassemble],
    fun hc => by simp [hclean] at hc, hne⟩

end Dawgs.Ref.Frontend

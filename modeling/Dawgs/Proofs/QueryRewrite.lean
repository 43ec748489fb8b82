import Dawgs.Proofs.PatternExpansion
import Dawgs.Proofs.TemporalRewrite

/-!
# A rewritten query says the same

What is sent says at each place what the place said, with the values that
are sent for the caller's, except that an expanded pattern says what it said
with the caller's. So the whole is the same just if the two agree on the
parameters at all other places.

Where an entry was expanded, the values sent are the caller's and the new
ones, and they disagree if a new name is one that the query asks for without
having it. Where only empty maps were expanded, the parameters were never
copied, and what is sent are no parameters at all: every other parameter is
lost.
-/

namespace Dawgs.Ref.QueryRewrite

open Lib Cypher Frontend Nat Option

variable {α : Type}

open Rewriter

variable {v : String → Option (Value α)} {ps : Parameters α} {s : Rewriter α}

/-! ### What is sent -/

/-- What a place of the query says when it is sent. -/
def sentLabel (ps : Parameters α) (v : String → Option (Value α)) :
    QueryLabel → Mark ⊕ Resolved α :=
  elementLabel (expandedElement ps v) (resolveLabel v ∘ temporalLabel)

theorem meaning_sent {q q' : RegularQuery} (h : Says ps queryOutline s q q')
    (hv : ∀ symbol value, s.values symbol = some value → v symbol = some value) :
    meaning v (Temporal.rewriteRegularQuery q').value = (queryOutline q).map (sentLabel ps v) := by
  have hlabel : resolveLabel v ∘ temporalLabel =
      elementLabel (fun e => resolve v (shape e)) (resolveLabel v ∘ temporalLabel) := by
    funext l
    cases l <;> rfl
  rw [meaning, (Temporal.wraps_query).outline_eq, RoseTree.map_map, sentLabel, ← h v hv, ← hlabel]

theorem meaning_wrapped (v : String → Option (Value α)) (q : RegularQuery) :
    meaning v (wrapped q) = (queryOutline q).map (resolveLabel v ∘ temporalLabel) := by
  rw [meaning, queryOutline_wrapped, RoseTree.map_map]

/-- A place says the same if its parameters have the same values, and, if
one has them all that the other one has, only then. -/
theorem sentLabel_congr {l : QueryLabel}
    (h : ∀ symbol ∈ labelReferences l, v symbol = ps.lookup symbol) :
    sentLabel ps v l = resolveLabel (ps.lookup ·) (temporalLabel l) := by
  cases l with
  | mark m => rfl
  | element e =>
    show Sum.inr (expandedElement ps v e) = Sum.inr _
    rw [expandedElement]
    rw [labelReferences] at h
    split
    next => rfl
    next hnone =>
      rw [if_neg hnone] at h
      rw [resolve_congr (shape e) h]
  | read e =>
    show Sum.inr (resolve v (shape (rewriteExpression e).value)) = Sum.inr _
    rw [resolve_congr]
    intro symbol hsymbol
    rw [show parameterNames (shape (rewriteExpression e).value) = _ from
      (rewriteExpression_sound e).names] at hsymbol
    exact h symbol hsymbol
  | written e =>
    show Sum.inr (resolve v (shape e)) = Sum.inr _
    rw [resolve_congr (shape e) h]

theorem eq_of_sentLabel_eq {l : QueryLabel} (hbelow : Below v (ps.lookup ·) ∨ Below (ps.lookup ·) v)
    (h : sentLabel ps v l = resolveLabel (ps.lookup ·) (temporalLabel l)) :
    ∀ symbol ∈ labelReferences l, v symbol = ps.lookup symbol := by
  have heq (o : Outline) (ho : resolve v o = resolve (ps.lookup ·) o) :
      ∀ symbol ∈ parameterNames o, v symbol = ps.lookup symbol := by
    rcases hbelow with hbelow | hbelow
    · exact eq_of_resolve_eq hbelow o ho
    · exact fun symbol hsymbol =>
        (eq_of_resolve_eq hbelow o ho.symm symbol hsymbol).symm
  cases l with
  | mark m => simp [labelReferences]
  | element e =>
    have h : expandedElement ps v e = resolve (ps.lookup ·) (shape e) := Sum.inr.inj h
    rw [expandedElement] at h
    rw [labelReferences]
    split
    next => simp
    next hnone =>
      rw [if_neg hnone] at h
      exact heq (shape e) h
  | read e =>
    have hnames := heq _ (Sum.inr.inj h)
    rw [show parameterNames (shape (rewriteExpression e).value) = _ from
      (rewriteExpression_sound e).names] at hnames
    exact hnames
  | written e => exact heq _ (Sum.inr.inj h)

theorem mem_references {q : RegularQuery} {symbol : String} :
    symbol ∈ references q ↔
      ∃ l ∈ (queryOutline q).labels, symbol ∈ labelReferences l := List.mem_flatMap

theorem meaning_sent_iff {q q' : RegularQuery} (h : Says ps queryOutline s q q')
    (hbelow : Below s.values (ps.lookup ·) ∨ Below (ps.lookup ·) s.values) :
    meaning s.values (Temporal.rewriteRegularQuery q').value = meaning (ps.lookup ·) (wrapped q) ↔
      ∀ symbol ∈ references q, s.values symbol = ps.lookup symbol := by
  rw [meaning_sent h fun _ _ h => h, meaning_wrapped, RoseTree.map_eq_map_iff]
  constructor
  · intro hlabels symbol hsymbol
    obtain ⟨l, hl, hmem⟩ := (mem_references).mp hsymbol
    exact eq_of_sentLabel_eq hbelow (hlabels l hl) symbol hmem
  · intro hrefs l hl
    exact sentLabel_congr fun symbol hsymbol =>
      hrefs symbol (mem_references.mpr ⟨l, hl, hsymbol⟩)

/-! ### The parameters that are sent -/

section

variable {frontend : String → Option RegularQuery} {query : String}
variable {q q' : RegularQuery} {n : Nat} {r : Result α}

/-- A query that is sent as a tree, with its own parameters. -/
theorem meansSame_tree_iff (hq : frontend query = some q)
    (hr : r.query = .tree (Temporal.rewriteRegularQuery q').value)
    (hvalues : r.values = s.values) (hcaller : r.caller = ps) (htree : Says ps queryOutline s q q')
    (hbelow : Below s.values (ps.lookup ·) ∨ Below (ps.lookup ·) s.values) :
    MeansSame frontend query ps r ↔ (∀ symbol ∈ references q, s.values symbol = ps.lookup symbol) ∧
        ∀ symbol ∉ expanded q, ∀ value, ps.lookup symbol = some value →
          s.values symbol = some value := by
  have hmeaning := meaning_sent_iff htree hbelow
  constructor
  · intro h
    have hsame := h.meaning
    have hkept := h.kept q hq
    rw [hr, hvalues] at hsame
    rw [hvalues] at hkept
    obtain ⟨parsed, hparsed, hsame⟩ := hsame
    obtain rfl := some.inj (hq.symm.trans hparsed)
    exact ⟨hmeaning.mp hsame, hkept⟩
  · rintro ⟨hreferences, hkept⟩
    refine ⟨?_, ?_, ?_, hcaller⟩
    · rw [hr, hvalues]
      exact ⟨q, hq, hmeaning.mpr hreferences⟩
    · intro parsed hparsed symbol hvalue hps hmem
      obtain rfl := some.inj (hq.symm.trans hparsed)
      rw [hvalues, hreferences symbol hmem] at hvalue
      exact hvalue hps
    · intro parsed hparsed
      obtain rfl := some.inj (hq.symm.trans hparsed)
      rw [hvalues]
      exact hkept

/-- Without an entry to expand there are no parameters. -/
theorem values_eq_none (hs : Supplied ps 0 s) : s.values = fun _ => none := by
  funext symbol
  rw [Rewriter.values, hs.copied.mpr rfl]
  rfl

theorem none_iff_keys :
    ((∀ symbol ∈ references q, none = ps.lookup symbol) ∧
      ∀ symbol ∉ expanded q, ∀ value, ps.lookup symbol = some value → none = some value) ↔
      ∀ symbol ∈ keys ps, symbol ∈ expanded q ∧ symbol ∉ references q := by
  constructor
  · rintro ⟨hreferences, hexpanded⟩ symbol hkey
    obtain ⟨value, hvalue⟩ := ne_none_iff_exists'.mp (mem_keys.mp hkey)
    refine ⟨?_, fun hmem => ?_⟩
    · by_contra hmem
      cases hexpanded symbol hmem value hvalue
    · rw [← hreferences symbol hmem] at hvalue
      cases hvalue
  · intro h
    constructor
    · intro symbol hmem
      by_contra hne
      exact (h symbol (mem_keys.mpr (Ne.symm hne))).2 hmem
    · intro symbol hmem value hvalue
      exact absurd (h symbol (mem_keys.mpr (by rw [hvalue]; nofun))).1 hmem

/-- With an entry to expand the parameters are those of the caller and the
new ones. -/
theorem values_eq_map (hs : Supplied ps n s) (hn : 0 < n) (symbol : String) :
    s.values symbol = s.map.lookup symbol := by
  obtain ⟨m, hm⟩ := ne_none_iff_exists'.mp fun hnone =>
    ne_of_gt hn (hs.copied.mp hnone)
  rw [Rewriter.values, Rewriter.map, hm]
  rfl

theorem values_eq_iff (hs : Supplied ps n s) (hn : 0 < n) :
    (∀ symbol ∈ references q, s.values symbol = ps.lookup symbol) ↔
      ∀ i, patternPropertyName i ∈ references q → IsFree ps i → n ≤ count (IsFree ps) i := by
  constructor
  · intro h i hmem hfree
    have hnone := (notMem_keys).mp hfree
    have hvalue := h _ hmem
    rw [values_eq_map hs hn, hnone] at hvalue
    have hge : s.nextParameterID ≤ i := by
      by_contra hlt
      exact (hs.given _ hnone).mpr ⟨i, by omega, rfl⟩ hvalue
    rw [← hs.count]
    exact count_monotone _ hge
  · intro h symbol hmem
    rw [values_eq_map hs hn]
    match hvalue : ps.lookup symbol with
    | some value => exact hs.kept symbol value hvalue
    | none =>
      by_contra hne
      obtain ⟨i, hi, rfl⟩ := (hs.given symbol hvalue).mp hne
      have hfree : IsFree ps i := (notMem_keys).mpr hvalue
      have hle := h i hmem hfree
      have hlt := count_strict_mono hfree hi
      rw [hs.count] at hlt
      omega

/-- What is sent of a query with patterns to expand. -/
theorem meansSame_expanded_iff (hq : frontend query = some q)
    (hr : r.query = .tree (Temporal.rewriteRegularQuery q').value)
    (hvalues : r.values = s.values) (hcaller : r.caller = ps) (htree : Says ps queryOutline s q q')
    (hs : Supplied ps (entryTotal ps (expanded q)) s) (hexpanded : expanded q ≠ []) :
    MeansSame frontend query ps r ↔ Keeps ps q := by
  rcases Nat.eq_zero_or_pos (entryTotal ps (expanded q)) with hzero | hpos
  · rw [hzero] at hs
    have hnone := values_eq_none hs
    rw [meansSame_tree_iff hq hr hvalues hcaller htree
      (.inl fun symbol => .inl (by rw [hnone])), hnone, none_iff_keys, Keeps, hzero]
    simp [hexpanded]
  · have hkept (symbol : String) (value : Value α)
        (hvalue : ps.lookup symbol = some value) : s.values symbol = some value := by
      rw [values_eq_map hs hpos, hs.kept symbol value hvalue]
    have hbelow : Below (ps.lookup ·) s.values := by
      intro symbol
      match hvalue : ps.lookup symbol with
      | none => exact .inl hvalue
      | some value => exact .inr (hvalue.trans (hkept symbol value hvalue).symm)
    rw [meansSame_tree_iff hq hr hvalues hcaller htree (.inr hbelow), values_eq_iff hs hpos, Keeps]
    have hne : entryTotal ps (expanded q) ≠ 0 := ne_of_gt hpos
    simp only [hexpanded, hpos, hne, true_and, false_and, false_or, or_false, and_iff_left_iff_imp]
    exact fun _ symbol _ => hkept symbol

/-- What is sent with the caller's own parameters. -/
theorem meansSame_of_parameters
    (hr : r.query = .text query ∨ ∃ parsed sent, r.query = .tree sent ∧
      frontend query = some parsed ∧
        meaning (ps.lookup ·) sent = meaning (ps.lookup ·) (wrapped parsed))
    (hparameters : r.parameters = some ps) (hcaller : r.caller = ps) :
    MeansSame frontend query ps r := by
  have hvalues : r.values = (ps.lookup ·) := by
    funext symbol
    rw [Result.values, hparameters]
    rfl
  refine ⟨?_, ?_, ?_, hcaller⟩
  · rw [hvalues]
    rcases hr with hr | ⟨parsed, sent, hr, hparsed⟩
    · rw [hr]
      exact ⟨rfl, hparameters⟩
    · rw [hr]
      exact ⟨parsed, hparsed⟩
  · rw [hvalues]
    exact fun _ _ _ hne hnone => absurd hnone hne
  · rw [hvalues]
    exact fun _ _ _ _ _ hvalue => hvalue

/-- The patterns of a query are expanded from the start on. -/
theorem rewriteRegularQuery_spec (h : rewriteRegularQuery q ⟨ps, none, 0, false⟩ = .ok (q', s)) :
    Expanding ps (expanded q) s ∧ Says ps queryOutline s q q' := by
  have hstart : Expanding ps [] ⟨ps, none, 0, false⟩ := by
    refine ⟨⟨rfl, count_zero _, iff_of_true rfl rfl, fun _ _ h => h, ?_⟩,
      rfl⟩
    intro symbol hnone
    refine iff_of_false (not_not.mpr hnone) ?_
    rintro ⟨i, hi, -⟩
    cases hi
  obtain ⟨hexpanding, -, htree⟩ := expands_query hstart h
  exact ⟨hexpanding, htree⟩

/-- Where nothing is expanded, the caller's parameters are sent. -/
theorem meansSame_afterExpansion (hq : frontend query = some q)
    (hflag : s.rewritten = false) (hcaller : s.parameters = ps)
    (hmeaning : meaning (ps.lookup ·) (Temporal.rewriteRegularQuery q').value =
      meaning (ps.lookup ·) (wrapped q)) :
    MeansSame frontend query ps (afterExpansion query ps q' s) := by
  unfold afterExpansion
  simp only [hflag]
  split
  next => exact meansSame_of_parameters (.inr ⟨q, _, rfl, hq, hmeaning⟩) rfl hcaller
  next => exact meansSame_of_parameters (.inl rfl) rfl hcaller

theorem afterExpansion_iff (hq : frontend query = some q)
    (hexpanding : Expanding ps (expanded q) s) (htree : Says ps queryOutline s q q') :
    MeansSame frontend query ps (afterExpansion query ps q' s) ↔ Keeps ps q := by
  have hrewritten := hexpanding.rewritten
  have hcaller := hexpanding.supplied.parameters
  by_cases hexpanded : expanded q = []
  · have hnone := values_eq_none (hexpanded ▸ hexpanding.supplied)
    rw [hexpanded] at hrewritten
    refine iff_of_true (meansSame_afterExpansion hq hrewritten hcaller ?_) (.inl hexpanded)
    rw [meaning_sent htree (by rw [hnone]; nofun), meaning_wrapped, RoseTree.map_eq_map_iff]
    exact fun l _ => sentLabel_congr fun _ _ => rfl
  · have hflag : s.rewritten = true := by
      rw [hrewritten, Bool.not_eq_true', List.isEmpty_eq_false_iff]
      exact hexpanded
    unfold afterExpansion
    simp only [hflag]
    exact meansSame_expanded_iff hq rfl rfl hcaller htree hexpanding.supplied hexpanded

end

/-- `match (n $props) where n.name = $name return n`. -/
def propsAndName : RegularQuery := ⟨some ⟨some {
    readingClauses := [some ⟨0, some {
      optional := false
      pattern := [some ⟨none, false, false, false,
        [some ⟨.nodePattern ⟨some ⟨"n"⟩, [], .properties ⟨[], some ⟨"props"⟩⟩⟩⟩]⟩]
      where_ := some ⟨[.comparison (.propertyLookup (.var ⟨"n"⟩) "name")
        [⟨.equals, .parameter ⟨"name"⟩⟩]]⟩ }, none⟩]
    updatingClauses := []
    return_ := some ⟨some ⟨false, false, none, none, none,
      [.projectionItem (.var ⟨"n"⟩) none]⟩⟩ }, none⟩⟩

/-- A frontend that knows one query with parameters. -/
def oneQuery (query : String) : Option RegularQuery :=
  if '$' ∈ query.toList then some propsAndName else none

theorem patternPropertyName_ne (i : Nat) : patternPropertyName i ≠ "name" := by
  intro h
  have hlong : "__dawgs_pattern_property_".length = 25 := by decide +kernel
  have hshort : "name".length = 4 := by decide +kernel
  have hlength : "__dawgs_pattern_property_".length + i.repr.length = "name".length :=
    (String.length_append ..).symm.trans (congrArg String.length h)
  omega

theorem exists_eq_ok {ε β : Type} {x : Except ε β}
    (h : x.toOption.isSome = true) : ∃ y, x = .ok y := by
  cases x with
  | error e => cases h
  | ok y => exact ⟨y, rfl⟩

end Dawgs.Ref.QueryRewrite

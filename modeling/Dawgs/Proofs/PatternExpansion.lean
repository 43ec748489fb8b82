import Dawgs.Lib.Visits
import Dawgs.Proofs.QueryMeaning

/-!
# The patterns of a query, expanded

Each entry of a map gets the next name that no parameter has. What is
counted is the number of names that were free from the start, below the next
number: it is the number of entries so far (`Supplied`). A value that was
given stays (`Grows`), so a pattern that is expanded keeps what it says while
the patterns behind it are expanded.

The rewriter visits the patterns in their order. `Expands` says of a function
that it expands the patterns of its argument and leaves the rest, and one
rule for each way to go down takes it from the properties of one pattern to
the whole query.
-/

namespace Dawgs.Ref.QueryRewrite

open Lib Cypher Frontend List Option

variable {α : Type} {v v' : String → Option (Value α)}

/-! ### New names -/

theorem patternPropertyName_injective : Function.Injective patternPropertyName := by
  intro i j h
  have hrepr : i.repr = j.repr := (String.append_right_inj _).mp h
  rw [Nat.repr_eq_ofList_toDigits, Nat.repr_eq_ofList_toDigits, String.ofList_inj] at hrepr
  simpa using congrArg (Nat.ofDigitChars 10 · 0) hrepr

namespace Rewriter

/-- The parameters that the next entry is added to. -/
def map (s : Rewriter α) : Parameters α := s.rewrittenParameters.getD s.parameters

/-- The values of the parameters that are sent if some are rewritten. -/
def values (s : Rewriter α) (symbol : String) : Option (Value α) :=
  s.rewrittenParameters.bind (lookup symbol)

/-- A value that was given stays. -/
def Grows (s s' : Rewriter α) : Prop :=
  ∀ symbol value, s.values symbol = some value → s'.values symbol = some value

theorem Grows.refl (s : Rewriter α) : Grows s s := fun _ _ h => h

theorem Grows.trans {s s' s'' : Rewriter α} (h : Grows s s') (h' : Grows s' s'') : Grows s s'' :=
  fun symbol value hvalue => h' symbol value (h symbol value hvalue)

/-- So many names have been given out. -/
structure Supplied (ps : Parameters α) (n : Nat) (s : Rewriter α) : Prop where
  parameters : s.parameters = ps
  count : Nat.count (IsFree ps) s.nextParameterID = n
  copied : s.rewrittenParameters = none ↔ n = 0
  kept : ∀ symbol value, ps.lookup symbol = some value → s.map.lookup symbol = some value
  given : ∀ symbol, ps.lookup symbol = none → (s.map.lookup symbol ≠ none ↔
      ∃ i < s.nextParameterID, symbol = patternPropertyName i)

end Rewriter

open Rewriter

theorem nextParameterName_eq (s : Rewriter α) : nextParameterName s =
      match nextFree patternPropertyName (keys s.map) s.nextParameterID with
      | none => .error .exhausted
      | some i => .ok (patternPropertyName i,
          { s with
            rewrittenParameters := some s.map
            nextParameterID := i + 1 }) := by
  show (ensureRewrittenParameters s >>= fun p => _) = _
  have hensure : ensureRewrittenParameters s =
      .ok (s.map, { s with rewrittenParameters := some s.map }) := by
    obtain ⟨_, _ | _, _, _⟩ := s <;> rfl
  rw [hensure]
  show (match nextFree patternPropertyName (keys s.map) s.nextParameterID with
    | none => _ | some i => _ : Rewrite α String) _ = _
  cases nextFree patternPropertyName (keys s.map) s.nextParameterID <;> rfl

/-- The search for a name always ends, with one that is not taken. -/
theorem exists_nextParameterName (s : Rewriter α) : ∃ i ≥ s.nextParameterID,
    patternPropertyName i ∉ keys s.map ∧ nextParameterName s = .ok (patternPropertyName i,
      { s with
        rewrittenParameters := some s.map
        nextParameterID := i + 1 }) := by
  obtain ⟨i, hi⟩ := exists_nextFree patternPropertyName_injective (keys s.map) s.nextParameterID
  obtain ⟨hle, hfree, _⟩ := nextFree_eq_some hi
  rw [nextParameterName_eq, hi]
  exact ⟨i, hle, hfree, rfl⟩

theorem expandEntry_eq (entry : String × Value α) (s : Rewriter α) : expandEntry entry s =
      match nextFree patternPropertyName (keys s.map) s.nextParameterID with
      | none => .error .exhausted
      | some i => .ok (⟨entry.1, .parameter ⟨patternPropertyName i⟩⟩,
          { s with
            rewrittenParameters := some ((patternPropertyName i, entry.2) :: s.map)
            nextParameterID := i + 1 }) := by
  show (nextParameterName s >>= fun p => _) = _
  rw [nextParameterName_eq]
  split
  next => rfl
  next => rfl

variable {ps : Parameters α}

variable {symbol : String} {s s' : Rewriter α} {e' : Expression} {entry : String × Value α}
  {item : MapItem Expression}

theorem lookup_cons_of_ne {m : Parameters α} {name : String} {value : Value α} (h : symbol ≠ name) :
    lookup symbol ((name, value) :: m) = m.lookup symbol := by
  rw [lookup_cons, beq_eq_false_iff_ne.mpr h]

theorem notMem_keys {m : Parameters α} : symbol ∉ keys m ↔ m.lookup symbol = none := by
  rw [mem_keys, not_not]

/-- The entry of the literal, with the value that its parameter has. -/
def EntryOf (s : Rewriter α) (entry : String × Value α) (item : MapItem Expression) : Prop :=
  ∃ symbol, item = ⟨entry.1, .parameter ⟨symbol⟩⟩ ∧ s.values symbol = some entry.2

theorem EntryOf.mono (hgrows : Grows s s') (h : EntryOf s entry item) : EntryOf s' entry item := by
  obtain ⟨symbol, hitem, hvalue⟩ := h
  exact ⟨symbol, hitem, hgrows symbol _ hvalue⟩

theorem expandEntry_spec {n : Nat} (h : Supplied ps n s) (he : expandEntry entry s = .ok (item, s'))
    : Supplied ps (n + 1) s' ∧ Grows s s' ∧ EntryOf s' entry item := by
  rw [expandEntry_eq] at he
  split at he
  next => cases he
  next i hi =>
    obtain ⟨hle, hfree, htaken⟩ := nextFree_eq_some hi
    rw [notMem_keys] at hfree
    have hps : ps.lookup (patternPropertyName i) = none := by
      by_contra hne
      obtain ⟨value, hvalue⟩ := ne_none_iff_exists'.mp hne
      rw [h.kept _ _ hvalue] at hfree
      cases hfree
    cases he
    refine ⟨⟨h.parameters, ?_, ?_, ?_, ?_⟩, ?_, _, rfl, lookup_cons_self⟩
    · rw [← h.count]
      refine count_succ_nextFree hle (notMem_keys.mpr hps) ?_
      intro j hj hlt hfreej
      have hne := (mem_keys).mp (htaken j hj hlt)
      obtain ⟨i', hi', heq⟩ := (h.given _ (notMem_keys.mp hfreej)).mp hne
      have := patternPropertyName_injective heq
      omega
    · exact iff_of_false nofun (Nat.succ_ne_zero n)
    · intro symbol value hvalue
      show lookup symbol ((patternPropertyName i, entry.2) :: s.map) = _
      rw [lookup_cons_of_ne, h.kept symbol value hvalue]
      rintro rfl
      rw [hps] at hvalue
      cases hvalue
    · intro symbol hsymbol
      show lookup symbol ((patternPropertyName i, entry.2) :: s.map) ≠
        none ↔ ∃ i' < i + 1, symbol = patternPropertyName i'
      by_cases hname : symbol = patternPropertyName i
      · subst hname
        rw [lookup_cons_self]
        exact iff_of_true nofun ⟨i, Nat.lt_succ_self i, rfl⟩
      · rw [lookup_cons_of_ne hname, h.given symbol hsymbol]
        constructor
        · rintro ⟨i', hi', rfl⟩
          exact ⟨i', by omega, rfl⟩
        · rintro ⟨i', hi', rfl⟩
          have hne : i' ≠ i := fun heq => hname (heq ▸ rfl)
          rcases Nat.lt_or_ge i' s.nextParameterID with hlt | hge
          · exact ⟨i', hlt, rfl⟩
          · exact (h.given _ hsymbol).mp (mem_keys.mp (htaken i' hge (by omega)))
    · intro symbol value hvalue
      obtain ⟨m, hm, hlookup⟩ := bind_eq_some_iff.mp hvalue
      have hmap : s.map = m := by rw [Rewriter.map, hm]; rfl
      show lookup symbol ((patternPropertyName i, entry.2) :: s.map) = _
      rw [hmap] at hfree ⊢
      rw [lookup_cons_of_ne, hlookup]
      rintro rfl
      rw [hfree] at hlookup
      cases hlookup

theorem visits_expandEntry (ps : Parameters α) (n : Nat) :
    Visits (fun (done : List (String × Value α)) =>
        Supplied ps (n + done.length)) Grows expandEntry (fun e => [e])
      EntryOf := by
  intro entry s item s' done h he
  show Supplied ps (n + (done ++ [entry]).length) s' ∧ _
  rw [length_append]
  exact expandEntry_spec h he

variable {entries : List (String × Value α)} {items : List (MapItem Expression)}

/-- All the entries of a map. -/
theorem expandEntries_spec {n : Nat}
    (h : Supplied ps n s) (he : entries.mapM expandEntry s = .ok (items, s')) :
    Supplied ps (n + entries.length) s' ∧ Grows s s' ∧ List.Forall₂ (EntryOf s') entries items := by
  have hvisits := (visits_expandEntry ps n).mapM Grows.refl Grows.trans EntryOf.mono
  have h : Supplied ps (n + ([] : List (String × Value α)).length) s := h
  obtain ⟨hsupplied, hgrows, hitems⟩ := hvisits h he
  rw [flatMap_singleton'] at hsupplied
  exact ⟨hsupplied, hgrows, hitems⟩

/-! ### Properties of a pattern -/

theorem resolve_of_none {label : Label} (h : parameterLabel label = none) (children : List Outline)
    : resolve v (.node label children) = .node (.said label) (resolveAll v children) := by
  rw [resolve, h]

theorem resolveAll_cons_of_none {o : Outline} (h : propertiesParameter o = none) (os : List Outline)
    : resolveAll v (o :: os) = resolve v o :: resolveAll v os := by
  rw [resolveAll, h]
  rfl

theorem resolveAll_append (os os' : List Outline) :
    resolveAll v (os ++ os') = resolveAll v os ++ resolveAll v os' := by
  induction os with
  | nil => rw [resolveAll]; rfl
  | cons o os ih => rw [cons_append, resolveAll, resolveAll, ih, append_assoc]

/-- The literal says what the map says. -/
theorem resolveAll_items (h : List.Forall₂ (EntryOf s) entries items)
    (hv : ∀ symbol value, s.values symbol = some value → v symbol = some value) :
    resolveAll v (itemShapes items) = entries.map resolvedEntry := by
  induction h with
  | nil => rw [itemShapes]; rfl
  | cons hentry _ ih =>
    obtain ⟨symbol, rfl, hvalue⟩ := hentry
    rw [itemShapes, resolveAll_cons_of_none rfl, ih, resolve_of_none rfl, shape]
    show RoseTree.node _ [RoseTree.node (ResolvedLabel.value (v symbol)) []] :: _ = _
    rw [hv symbol _ hvalue]
    rfl

/-- The parameter that stands for the properties. -/
def propertiesSymbol : Expression → Option String
  | .properties ⟨_, some parameter⟩ => some parameter.symbol
  | _ => none

/-- The parameters at these places are expanded. -/
structure Expanding (ps : Parameters α) (done : List String) (s : Rewriter α) : Prop where
  supplied : Supplied ps (entryTotal ps done) s
  rewritten : s.rewritten = !done.isEmpty

theorem entryTotal_append (done done' : List String) :
    entryTotal ps (done ++ done') = entryTotal ps done + entryTotal ps done' := by
  rw [entryTotal, map_append, sum_append]
  rfl

theorem entryTotal_singleton (h : ps.lookup symbol = some (.map entries)) :
    entryTotal ps [symbol] = (sortedEntries entries).length := by
  rw [entryTotal, map_singleton, entryCount, h]
  rfl

/-- The two ways in which a map is written out. -/
theorem expandMap_spec {done : List String} (h : Expanding ps done s)
    (hsymbol : ps.lookup symbol = some (.map entries)) (he : (if entries.isEmpty then do
        modify fun s => { s with rewritten := true }
        pure .nil
      else do
        let items ← (sortedEntries entries).mapM expandEntry
        modify fun s => { s with rewritten := true }
        pure (.properties ⟨items, none⟩) : Rewrite α Expression) s =
      .ok (e', s')) :
    Expanding ps (done ++ [symbol]) s' ∧ Grows s s' ∧ ∀ v : String → Option (Value α),
        (∀ symbol value, s'.values symbol = some value → v symbol = some value) →
        resolveAll v (optional e' (shape e')) = resolvedProperties (some (.map entries)) := by
  have hflag : (!(done ++ [symbol]).isEmpty) = true := by simp
  have htotal : entryTotal ps (done ++ [symbol]) =
      entryTotal ps done + (sortedEntries entries).length := by
    rw [entryTotal_append, entryTotal_singleton hsymbol]
  split at he
  next hempty =>
    rw [List.isEmpty_iff] at hempty
    subst hempty
    cases he
    have hsame := h.supplied
    refine ⟨⟨?_, hflag.symm⟩, Grows.refl s, fun v _ => ?_⟩
    · rw [htotal]
      exact ⟨hsame.parameters, hsame.count, hsame.copied, hsame.kept, hsame.given⟩
    · rw [resolvedProperties]
      show resolveAll v [] = []
      rw [resolveAll]
  next hempty =>
    obtain ⟨items, s₁, hitems, he⟩ := stateT_bind_eq_ok he
    cases he
    obtain ⟨hsupplied, hgrows, hforall⟩ := expandEntries_spec h.supplied hitems
    refine ⟨⟨?_, hflag.symm⟩, hgrows, fun v hv => ?_⟩
    · rw [htotal]
      exact ⟨hsupplied.parameters, hsupplied.count, hsupplied.copied,
        hsupplied.kept, hsupplied.given⟩
    · rw [resolvedProperties, if_neg hempty]
      show resolveAll v [shape (.properties ⟨items, none⟩)] = _
      rw [shape, propertiesShape, resolveAll_cons_of_none rfl,
        resolve_of_none rfl, resolveAll_cons_of_none rfl, resolve_of_none rfl,
        resolveAll_items hforall hv, resolveAll]

theorem rewriteProperties_spec {done : List String} {e : Expression} (h : Expanding ps done s)
    (he : rewriteProperties e s = .ok (e', s')) :
    Expanding ps (done ++ (propertiesSymbol e).toList) s' ∧ Grows s s' ∧
      ∀ v : String → Option (Value α),
        (∀ symbol value, s'.values symbol = some value → v symbol = some value) →
        resolveAll v (optional e' (shape e')) =
          resolveAll (if (propertiesSymbol e).isSome then (ps.lookup ·) else v)
            (optional e (shape e)) := by
  unfold rewriteProperties at he
  split at he
  next items parameter =>
    obtain ⟨s₀, s₁, hget, he⟩ := stateT_bind_eq_ok he
    cases hget
    cases hvalue : s.parameters.lookup parameter.symbol with
    | none =>
      rw [hvalue] at he
      cases he
    | some value =>
      rw [hvalue] at he
      rw [h.supplied.parameters] at hvalue
      cases value with
      | other => cases he
      | map entries =>
        obtain ⟨hexpanding, hgrows, htext⟩ := expandMap_spec h hvalue he
        refine ⟨hexpanding, hgrows, fun v hv => ?_⟩
        rw [htext v hv]
        show _ = resolveAll (ps.lookup ·) [shape (.properties ⟨items, some parameter⟩)]
        rw [resolveAll, resolveAll, append_nil]
        show _ = resolvedProperties (ps.lookup parameter.symbol)
        rw [hvalue]
  next hne =>
    have hnone : propertiesSymbol e = none := by
      unfold propertiesSymbol
      split
      next items parameter => exact absurd rfl (hne items parameter)
      next => rfl
    cases he
    rw [hnone]
    refine ⟨?_, Grows.refl s, fun v _ => rfl⟩
    rw [toList_none, append_nil]
    exact h

/-! ### The whole query, with its patterns expanded -/

/-- What an element says once its own parameter is expanded. -/
def expandedElement (ps : Parameters α) (v : String → Option (Value α))
    (e : Expression) : Resolved α :=
  resolve (if (elementParameter e).isSome then (ps.lookup ·) else v) (shape e)

def elementLabel (h : Expression → Resolved α)
    (g : QueryLabel → Mark ⊕ Resolved α) : QueryLabel → Mark ⊕ Resolved α
  | .element e => .inr (h e)
  | l => g l

/-- With the parameters that are sent, the elements say what they said with
the caller's once they are expanded, and the rest is the same. -/
def Says {X : Type} (ps : Parameters α) (outline : X → QueryOutline)
    (s : Rewriter α) (x y : X) : Prop := ∀ v : String → Option (Value α),
    (∀ symbol value, s.values symbol = some value → v symbol = some value) →
    ∀ g, (outline y).map (elementLabel (fun e => resolve v (shape e)) g) =
      (outline x).map (elementLabel (expandedElement ps v) g)

theorem Says.mono {X : Type} {outline : X → QueryOutline} {x y : X} (hgrows : Grows s s')
    (h : Says ps outline s x y) : Says ps outline s' x y :=
  fun v hv => h v fun symbol value hvalue =>
    hv symbol value (hgrows symbol value hvalue)

theorem Says.map_eq {X : Type} {outline : X → QueryOutline} {xs ys : List X}
    (h : List.Forall₂ (Says ps outline s) xs ys) (v : String → Option (Value α))
    (hv : ∀ symbol value, s.values symbol = some value → v symbol = some value)
    (g : QueryLabel → Mark ⊕ Resolved α) :
    ys.map (RoseTree.map (elementLabel (fun e => resolve v (shape e)) g) ∘ outline) =
      xs.map (RoseTree.map (elementLabel (expandedElement ps v) g) ∘ outline) := by
  induction h with
  | nil => rfl
  | cons hx _ ih => exact congrArg₂ List.cons (hx v hv g) ih

/-- The parameters that are expanded in a part of the query. -/
def expandedIn (t : QueryOutline) : List String := t.labels.flatMap labelExpanded

def Expands {X : Type} (ps : Parameters α) (outline : X → QueryOutline)
    (f : X → Rewrite α X) : Prop :=
  Visits (Expanding ps) Grows f (fun x => expandedIn (outline x)) (Says ps outline)

theorem expandedIn_leaf_element (e : Expression) :
    expandedIn (leaf (.element e)) = (elementParameter e).toList := by
  rw [expandedIn, leaf, RoseTree.labels, RoseTree.labelsAll, flatMap_singleton]
  rfl

theorem expandedIn_marked (m : Mark) (ts : List QueryOutline) :
    expandedIn (marked m ts) = ts.flatMap expandedIn := by
  rw [expandedIn, marked, RoseTree.labels, flatMap_cons,
    RoseTree.labelsAll_eq_flatMap, flatMap_assoc]
  rfl

theorem elementParameter_nodePattern (p : NodePattern Expression) :
    elementParameter (.nodePattern p) = propertiesSymbol p.properties := by
  obtain ⟨_, _, properties⟩ := p
  unfold elementParameter propertiesSymbol
  split <;> simp_all

theorem elementParameter_relationshipPattern (p : RelationshipPattern Expression) :
    elementParameter (.relationshipPattern p) = propertiesSymbol p.properties := by
  obtain ⟨_, _, _, _, properties⟩ := p
  unfold elementParameter propertiesSymbol
  split <;> simp_all

/-- A pattern around its properties. -/
theorem resolve_pattern {label : Label} (hlabel : parameterLabel label = none)
    {os : List Outline} (hos : parameterNamesAll os = []) {e : Expression}
    (he : resolveAll v (optional e' (shape e')) = resolveAll v' (optional e (shape e))) :
    resolve v (.node label (os ++ optional e' (shape e'))) =
      resolve v' (.node label (os ++ optional e (shape e))) := by
  have hsame : resolveAll v os = resolveAll v' os :=
    resolveAll_congr os fun symbol hsymbol => by
      rw [hos] at hsymbol
      cases hsymbol
  rw [resolve_of_none hlabel, resolve_of_none hlabel, resolveAll_append,
    resolveAll_append, hsame, he]

theorem parameterNamesAll_kindsOutline (kinds : Kinds) :
    parameterNamesAll (kindsOutline kinds) = [] := by
  have hnames : parameterNamesAll (kinds.map nameOutline) = [] := by
    induction kinds with
    | nil => rw [map_nil, parameterNamesAll_nil]
    | cons kind kinds ih => simp [ih, nameOutline, parameterLabel]
  unfold kindsOutline
  split
  · rw [parameterNamesAll_nil]
  · simp [hnames, parameterLabel]

theorem parameterNamesAll_variable (v : Option Variable) :
    parameterNamesAll (v.toList.map fun v => variableOutline v.symbol) = [] := by
  cases v <;> simp [variableOutline, parameterLabel]

theorem says_element {x y : PatternElement Expression}
    (h : ∀ v : String → Option (Value α),
      (∀ symbol value, s.values symbol = some value → v symbol = some value) →
      resolve v (shape y.element) = expandedElement ps v x.element) :
    Says ps (fun element => leaf (.element element.element)) s x y := by
  intro v hv g
  simp [leaf, elementLabel, h v hv]

theorem expands_element : Expands ps (fun element => leaf (.element element.element))
      rewritePatternElement := by
  intro element s element' s' done h he
  dsimp only
  rw [expandedIn_leaf_element]
  unfold rewritePatternElement at he
  split at he
  next p =>
    obtain ⟨properties, s₁, hproperties, he⟩ := stateT_bind_eq_ok he
    cases he
    obtain ⟨hexpanding, hgrows, hsame⟩ := rewriteProperties_spec h hproperties
    rw [elementParameter_nodePattern]
    refine ⟨hexpanding, hgrows, says_element fun v hv => ?_⟩
    rw [expandedElement, elementParameter_nodePattern]
    refine resolve_pattern rfl ?_ (hsame v hv)
    rw [parameterNamesAll_append, parameterNamesAll_variable, parameterNamesAll_kindsOutline]
    rfl
  next p =>
    obtain ⟨properties, s₁, hproperties, he⟩ := stateT_bind_eq_ok he
    cases he
    obtain ⟨hexpanding, hgrows, hsame⟩ := rewriteProperties_spec h hproperties
    rw [elementParameter_relationshipPattern]
    refine ⟨hexpanding, hgrows, says_element fun v hv => ?_⟩
    rw [expandedElement, elementParameter_relationshipPattern]
    refine resolve_pattern rfl ?_ (hsame v hv)
    have hrange : parameterNamesAll (p.range.toList.map fun r =>
        .node (.range r.startIndex r.endIndex) []) = [] := by
      cases p.range <;> simp [parameterLabel]
    rw [parameterNamesAll_append, parameterNamesAll_append,
      parameterNamesAll_variable, parameterNamesAll_kindsOutline, hrange]
    rfl
  next hnode hrelationship =>
    have hnone : elementParameter element.element = none := by
      obtain ⟨e⟩ := element
      cases e with
      | nodePattern p => exact absurd rfl (hnode p)
      | relationshipPattern p => exact absurd rfl (hrelationship p)
      | _ => rfl
    cases he
    rw [hnone, toList_none, append_nil]
    refine ⟨h, Grows.refl s, says_element fun v _ => ?_⟩
    rw [expandedElement, hnone]
    rfl

theorem Without.elements_eq {t : QueryOutline} (h : Without .element t)
    (f f' : Expression → Resolved α) (g : QueryLabel → Mark ⊕ Resolved α) :
    t.map (elementLabel f g) = t.map (elementLabel f' g) := by
  refine h.map_eq fun l hl => ?_
  cases l with
  | element e => exact absurd rfl hl
  | _ => rfl

theorem Without.expandedIn_eq {t : QueryOutline} (h : Without .element t) : expandedIn t = [] := by
  refine flatMap_eq_nil_iff.mpr fun l hl => ?_
  cases l with
  | element e => exact absurd rfl (h _ hl)
  | _ => rfl

namespace Expands

variable {X Y Z : Type} {outline : X → QueryOutline} {f : X → Rewrite α X}

section

variable (h : Expands ps outline f) {outline' : Y → QueryOutline}
include h

theorem followed : Expands ps (optionOutline outline) (followed f) := by
  intro x s y s' done hs hx
  cases x with
  | none => cases hx
  | some x =>
    obtain ⟨y, s₁, hx, hy⟩ := stateT_bind_eq_ok hx
    cases hy
    exact h hs hx

theorem ifPresent : Expands ps (optionOutline outline) (ifPresent f) := by
  intro x s y s' done hs hx
  cases x with
  | none =>
    cases hx
    refine ⟨?_, Grows.refl s, fun v hv g => rfl⟩
    have hnone : expandedIn (optionOutline outline none) = [] :=
      Without.expandedIn_eq (by simp [optionOutline])
    show Expanding ps (done ++ expandedIn (optionOutline outline none)) s
    rwa [hnone, append_nil]
  | some x =>
    obtain ⟨y, s₁, hx, hy⟩ := stateT_bind_eq_ok hx
    cases hy
    exact h hs hx

/-- Something with a list of parts. -/
theorem children (get : Y → List X) (put : Y → List X → Y) (m : Y → Mark)
    (hget : ∀ y, outline' y = marked (m y) ((get y).map outline))
    (hput : ∀ y xs, outline' (put y xs) = marked (m y) (xs.map outline)) :
    Expands ps outline' (fun y => do
      let xs ← (get y).mapM f
      pure (put y xs)) := by
  intro y s y' s' done hs hy
  obtain ⟨xs, s₁, hxs, hy⟩ := stateT_bind_eq_ok hy
  cases hy
  obtain ⟨hs', hgrows, hforall⟩ := Visits.mapM h Grows.refl Grows.trans Says.mono hs hxs
  dsimp only
  rw [hget, expandedIn_marked, List.flatMap_map]
  refine ⟨hs', hgrows, fun v hv g => ?_⟩
  rw [hput, hget, map_marked, map_marked, List.map_map, List.map_map]
  exact congrArg (RoseTree.node _) (Says.map_eq hforall v hv g)

theorem list : Expands ps (fun xs => marked .list (xs.map outline)) (mapM f) := by
  have hlist := h.children id (fun _ xs => xs) (fun _ => .list) (fun _ => rfl) (fun _ _ => rfl)
  simpa only [id_eq, bind_pure] using hlist

/-- Something with one part that is rewritten. -/
theorem field (get : Y → X) (put : Y → X → Y) (m : Y → Mark) (after : Y → List QueryOutline)
    (hafter : ∀ y, ∀ t ∈ after y, Without .element t)
    (hget : ∀ y, outline' y = marked (m y) (outline (get y) :: after y))
    (hput : ∀ y x, outline' (put y x) = marked (m y) (outline x :: after y)) :
    Expands ps outline' (fun y => do
      let x ← f (get y)
      pure (put y x)) := by
  intro y s y' s' done hs hy
  obtain ⟨x, s₁, hx, hy⟩ := stateT_bind_eq_ok hy
  cases hy
  obtain ⟨hs', hgrows, hsame⟩ := h hs hx
  have hnone : (after y).flatMap expandedIn = [] :=
    flatMap_eq_nil_iff.mpr fun t ht => (hafter y t ht).expandedIn_eq
  dsimp only
  rw [hget, expandedIn_marked, flatMap_cons, hnone, append_nil]
  refine ⟨hs', hgrows, fun v hv g => ?_⟩
  rw [hput, hget, map_marked, map_marked, map_cons, hsame v hv g]
  refine congrArg (fun ts => RoseTree.node _ (_ :: ts)) ?_
  exact map_congr_left fun t ht => (hafter y t ht).elements_eq _ _ g

/-- Something with two parts that are rewritten, one after the other. -/
theorem fields {outline₁ : Y → QueryOutline} {f₁ : Y → Rewrite α Y} (h₁ : Expands ps outline₁ f₁)
    (get : Z → X) (get₁ : Z → Y) (put : X → Y → Z) (m : Mark) {outline' : Z → QueryOutline}
    (hget : ∀ z, outline' z = marked m [outline (get z), outline₁ (get₁ z)])
    (hput : ∀ x y, outline' (put x y) = marked m [outline x, outline₁ y]) :
    Expands ps outline' (fun z => do
      let x ← f (get z)
      let y ← f₁ (get₁ z)
      pure (put x y)) := by
  intro z s z' s' done hs hz
  obtain ⟨x, s₁, hx, hz⟩ := stateT_bind_eq_ok hz
  obtain ⟨y, s₂, hy, hz⟩ := stateT_bind_eq_ok hz
  cases hz
  obtain ⟨hs₁, hgrows₁, hsame₁⟩ := h hs hx
  obtain ⟨hs', hgrows', hsame'⟩ := h₁ hs₁ hy
  rw [append_assoc] at hs'
  dsimp only
  rw [hget, expandedIn_marked, flatMap_cons, flatMap_singleton]
  refine ⟨hs', hgrows₁.trans hgrows', fun v hv g => ?_⟩
  rw [hput, hget, map_marked]
  simp only [map_cons]
  rw [hsame' v hv g, (hsame₁.mono hgrows') v hv g]
  rfl

end

end Expands

theorem expands_patternPart : Expands ps (partOutline .element) rewritePatternPart :=
  (expands_element).followed.children PatternPart.patternElements
    (fun p patternElements => { p with patternElements }) _ (fun _ => rfl) (fun _ _ => rfl)

theorem expands_match : Expands ps matchOutline rewriteMatch :=
  (expands_patternPart).followed.list.field Match.pattern (fun m pattern => { m with pattern }) _
    (fun m => [optionOutline whereOutline m.where_])
    (by simp [without_option without_where]) (fun _ => rfl) (fun _ _ => rfl)

theorem expands_readingClause : Expands ps readingClauseOutline rewriteReadingClause :=
  (expands_match).ifPresent.field ReadingClause.match_ (fun c match_ => { c with match_ }) _
    (fun c => [optionOutline unwindOutline c.unwind])
    (by simp [without_option without_unwind]) (fun _ => rfl) (fun _ _ => rfl)

theorem expands_readingClauses : Expands ps readingClausesOutline rewriteReadingClauses :=
  (expands_readingClause).followed.list

theorem expands_singlePartQuery : Expands ps singlePartQueryOutline rewriteSinglePartQuery :=
  (expands_readingClauses).field SinglePartQuery.readingClauses
    (fun q readingClauses => { q with readingClauses }) _
    (fun q => [updatingClausesOutline q.updatingClauses, optionOutline returnOutline q.return_])
    (by simp [without_updatingClauses, without_option without_return])
    (fun _ => rfl) (fun _ _ => rfl)

theorem expands_multiPartQueryPart :
    Expands ps multiPartQueryPartOutline rewriteMultiPartQueryPart :=
  (expands_readingClauses).field MultiPartQueryPart.readingClauses
    (fun p readingClauses => { p with readingClauses }) _
    (fun p => [updatingClausesOutline p.updatingClauses, optionOutline withOutline p.with_])
    (by simp [without_updatingClauses, without_option without_with]) (fun _ => rfl) (fun _ _ => rfl)

theorem expands_multiPartQuery : Expands ps multiPartQueryOutline rewriteMultiPartQuery :=
  (expands_multiPartQueryPart).followed.list.fields
    (expands_singlePartQuery).ifPresent MultiPartQuery.parts
    MultiPartQuery.singlePartQuery MultiPartQuery.mk _ (fun _ => rfl) (fun _ _ => rfl)

theorem expands_singleQuery : Expands ps singleQueryOutline rewriteSingleQuery :=
  (expands_singlePartQuery).ifPresent.fields (expands_multiPartQuery).ifPresent
    SingleQuery.singlePartQuery SingleQuery.multiPartQuery SingleQuery.mk _
    (fun _ => rfl) (fun _ _ => rfl)

theorem expands_query : Expands ps queryOutline rewriteRegularQuery :=
  (expands_singleQuery).ifPresent.field RegularQuery.singleQuery
    (fun _ singleQuery => { singleQuery }) _ (fun _ => []) (by simp) (fun _ => rfl) (fun _ _ => rfl)

end Dawgs.Ref.QueryRewrite

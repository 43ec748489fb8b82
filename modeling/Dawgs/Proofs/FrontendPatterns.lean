import Dawgs.Proofs.FrontendAtoms

/-!
# The productions of patterns

Nodes and relationships with their optional parts. The parts come in a fixed
order, so each of them finds the fields of the later ones as they were at
the start.
-/

namespace Dawgs.Ref.Frontend

open Lib Cypher Grammar List Option Prod
open Listener (takesAll_cons takesAll_nil takesAll_singleton)

/-! ## Patterns -/

def PropertiesSpec (t : Tree) : Prop :=
  ∃ cs, t = .node .properties cs ∧
    ∀ w', listener.TakesAll cs (.properties ⟨[], none⟩) w' → ∃ p, w' = .properties p ∧
        Reads .properties t (.expression (.properties p))

variable {cs : List Tree} {x t : Tree} {v' : Visitor} {s : RangeReader}

theorem spec_mapProperties (hcs : cs = [x]) (ihx : MapSpec x) :
    PropertiesSpec (.node .properties cs) := by
  refine ⟨cs, rfl, ?_⟩
  intro w' hw'
  obtain ⟨ds, rfl, ihx⟩ := ihx
  rw [hcs, takesAll_singleton] at hw'
  obtain ⟨w₁, hw₁, hf⟩ := (takes_entered rfl rfl rfl).mp hw'
  obtain ⟨key, items, rfl, hreads⟩ := ihx w₁ hw₁
  cases hf
  exact ⟨_, rfl, .mapProperties hcs hreads⟩

theorem spec_parameterProperties (hcs : cs = [x]) (ihx : ParameterSpec x) :
    PropertiesSpec (.node .properties cs) := by
  refine ⟨cs, rfl, ?_⟩
  intro w' hw'
  obtain ⟨ds, s, rfl, hreads, ihx⟩ := ihx
  rw [hcs, takesAll_singleton] at hw'
  obtain ⟨w₁, hw₁, hf⟩ := (takes_entered rfl rfl rfl).mp hw'
  obtain ⟨name, rfl, hname⟩ := ihx w₁ hw₁
  simp only [Option.some.injEq, mk.injEq, and_true, hname] at hf
  exact ⟨_, hf.symm, .parameterProperties hcs hreads⟩

theorem spec_legacyProperties (hcs : cs = [x]) (hx : Derives .legacyParameter x) :
    PropertiesSpec (.node .properties cs) := by
  refine ⟨cs, rfl, ?_⟩
  intro w' hw'
  obtain ⟨ds, rfl⟩ := derives_node hx
  rw [hcs, takesAll_singleton] at hw'
  exact absurd hw' (not_takes_unsupported (by simp [unsupported]))

def NodePatternSpec (t : Tree) : Prop :=
  ∃ cs, t = .node .nodePattern cs ∧ ∀ w', listener.TakesAll cs (.nodePattern newNodePattern) w' →
      ∃ p, w' = .nodePattern p ∧ Reads .nodePattern t (.expression (.nodePattern p))

/-- A child that may be missing. -/
theorem takesAll_maybe {x : Maybe} (state : Maybe → Visitor)
    (hx : ∀ y ∈ x, ∀ {w}, listener.Takes y (state none) w → w = state (some y))
    (h : listener.TakesAll x.toList (state none) v') : v' = state x := by
  cases x with
  | none => exact (listener.takesAll_nil.mp h).symm
  | some y =>
    rw [toList_some, takesAll_singleton] at h
    exact hx y rfl h

theorem spec_nodePattern {v labels properties : Maybe}
    (hcs : dense cs = symbol "(" :: v.toList ++ labels.toList ++ properties.toList ++ [symbol ")"])
    (hv : ∀ x ∈ v, Derives .variable_ x) (ihlabels : ∀ x ∈ labels, LabelsSpec x)
    (ihproperties : ∀ x ∈ properties, PropertiesSpec x) :
    NodePatternSpec (.node .nodePattern cs) := by
  refine ⟨cs, rfl, ?_⟩
  intro w' hw'
  rw [← takesAll_dense, hcs] at hw'
  simp only [append_assoc, listener.takesAll_append,
    takesAll_cons, takesAll_nil, takes_symbol, exists_eq_left', exists_eq_right] at hw'
  obtain ⟨w₁, hw₁, w₂, hw₂, hw'⟩ := hw'
  obtain rfl := takesAll_maybe (fun v => .nodePattern
      { newNodePattern with variable_ := v.map fun x => ⟨text x⟩ })
    (fun x hx =>
      takes_variable (hv x hx) (fun _ => ⟨rfl, rfl, rfl⟩) takes_symbolicName_variable rfl) hw₁
  obtain ⟨labels', rfl, hlabels, rfl⟩ := listener.takesAll_toList
    (fun names => .nodePattern ⟨v.map fun x => ⟨text x⟩, names.getD [], .nil⟩)
    (fun t names => Reads .nodeLabels t (.kinds names)) (fun x hx => (ihlabels x hx).2 _) hw₂
  obtain ⟨properties', rfl, hproperties, rfl⟩ := listener.takesAll_toList
    (fun e => .nodePattern ⟨v.map fun x => ⟨text x⟩, (labels'.map snd).getD [], e.getD .nil⟩)
    (fun t e => Reads .properties t (.expression e)) (by
      intro x hx w hw
      obtain ⟨ds, rfl, ihx⟩ := ihproperties x hx
      obtain ⟨w₃, hw₃, hf⟩ := (takes_entered rfl rfl rfl).mp hw
      obtain ⟨p, rfl, hp⟩ := ihx w₃ hw₃
      cases hf
      exact ⟨_, hp, rfl⟩) hw'
  exact ⟨_, rfl, .nodePattern hcs hv hlabels hproperties⟩

def TypesSpec (t : Tree) : Prop :=
  ∀ p v', listener.Takes t (.relationshipPattern p) v' →
    ∃ names, Reads .relationshipTypes t (.types names) ∧
      v' = .relationshipPattern { p with kinds := names.foldl addKind p.kinds }

theorem takesAll_type {q : Bool × Tree} {v : Visitor} :
    listener.TakesAll (symbol "|" :: if q.1 then [symbol ":", q.2] else [q.2]) v v' ↔
      listener.Takes q.2 v v' := by
  cases h : q.1 <;> simp

theorem spec_relationshipTypes {rest : List (Bool × Tree)}
    (hcs : dense cs = symbol ":" :: x :: rest.flatMap fun p =>
      symbol "|" :: (if p.1 then [symbol ":", p.2] else [p.2]))
    (hx : Derives .relTypeName x) (hrest : ∀ p ∈ rest, Derives .relTypeName p.2) :
    TypesSpec (.node .relationshipTypes cs) := by
  intro p v' h
  obtain ⟨v₂, hv₂, hexit⟩ := (takes_passed rfl rfl).mp h
  rw [← takesAll_dense, hcs] at hv₂
  simp only [takesAll_cons, takes_symbol, exists_eq_left'] at hv₂
  obtain ⟨v₁, hv₁, hv₂⟩ := hv₂
  obtain rfl := takes_relTypeName hx hv₁
  obtain ⟨results, hfst, hresults, rfl⟩ := listener.takesAll_flatMap
    (fun names => .relationshipPattern
      { p with kinds := names.foldl addKind (addKind p.kinds (text x)) })
    (fun (q : Bool × Tree) name => name = text q.2)
    (fun q => symbol "|" :: if q.1 then [symbol ":", q.2] else [q.2])
    (by
      intro q hq names v' hv'
      rw [takesAll_type] at hv'
      obtain rfl := takes_relTypeName (hrest q hq) hv'
      simp) [] hv₂
  cases hexit
  have hnames : results.map snd = rest.map fun q => text q.2 := by
    rw [← hfst, List.map_map]
    exact map_congr_left hresults
  refine ⟨_, .relationshipTypes hcs hx hrest, ?_⟩
  rw [hnames]
  rfl

theorem derives_integerLiteral (ht : Derives .integerLiteral t) :
    ∃ s, t = .node .integerLiteral [token .integer s] := by
  cases ht with
  | unsupported hr => simp [unsupported] at hr
  | joining hr | arithmetic hr | naming hr => cases hr
  | mark hr => simp at hr
  | integerLiteral hcs => exact ⟨_, by rw [hcs]⟩

theorem errors_next (hs : s.errors ≠ []) (t : Tree) : (s.next t).errors ≠ [] := by
  unfold RangeReader.next
  split
  next => exact hs
  next => exact hs
  next => simp
  next =>
    unfold RangeReader.index
    split <;> simp [hs]
  next => exact hs

/-- A range that is read without an error has no spaces. -/
theorem not_isSpace_of_foldl (h : (cs.foldl RangeReader.next s).errors = []) :
    s.errors = [] ∧ ∀ t ∈ cs, isSpace t = false := by
  induction cs generalizing s with
  | nil => exact ⟨h, by simp⟩
  | cons t ts ih =>
    obtain ⟨hnext, hts⟩ := ih h
    have hs : s.errors = [] := by
      by_contra hs
      exact errors_next hs t hnext
    refine ⟨hs, ?_⟩
    intro t' ht'
    rcases mem_cons.mp ht' with rfl | ht'
    · cases t' with
      | node r cs => rfl
      | token t =>
        by_contra hspace
        simp only [isSpace, Bool.not_eq_false, decide_eq_true_eq] at hspace
        obtain ⟨type, text⟩ := t
        cases hspace
        simp [RangeReader.next] at hnext
    · exact hts t' ht'

theorem index_integer (ht : Derives .integerLiteral t) (h : (s.next t).errors = []) :
    ∃ n, Reads .integerLiteral t (.expression (.literal ⟨.integer n, false⟩)) ∧
      (s.state = .firstIndex → s.next t =
        { s with range := { s.range with startIndex := some n } }) ∧
      (s.state = .secondIndex → s.next t =
        { s with range := { s.range with endIndex := some n } }) := by
  obtain ⟨text, rfl⟩ := derives_integerLiteral ht
  have hnext : s.next (.node .integerLiteral [token .integer text]) = s.index text := by
    simp [RangeReader.next, texts, Frontend.text, token]
  rw [hnext] at h ⊢
  cases hparse : parseInt text with
  | none => simp [RangeReader.index, hparse] at h
  | some n =>
    refine ⟨n, .integerLiteral rfl hparse, ?_, ?_⟩ <;>
    · intro hstate
      simp [RangeReader.index, hparse, hstate]

theorem takes_integerLiteral_relationship {p : RelationshipPattern Expression}
    (ht : Derives .integerLiteral t) (h : listener.Takes t (.relationshipPattern p) v') :
    v' = .relationshipPattern p := by
  obtain ⟨text, rfl⟩ := derives_integerLiteral ht
  cases (takes_leaf rfl rfl).mp h
  rfl

def RangeSpec (t : Tree) : Prop :=
  ∀ p v', listener.Takes t (.relationshipPattern p) v' →
    ∃ range, Reads .rangeLiteral t (.range range) ∧
      v' = .relationshipPattern { p with range := some range }

/-- A bound that may be missing. -/
theorem foldl_bound {x : Maybe} (hx : ∀ y ∈ x, Derives .integerLiteral y)
    (h : (x.toList.foldl RangeReader.next s).errors = []) :
    ∃ p : Option (Tree × Int), p.map fst = x ∧
      (∀ q ∈ p, Reads .integerLiteral q.1 (.expression (.literal ⟨.integer q.2, false⟩))) ∧
      (s.state = .firstIndex → s.range.startIndex = none → x.toList.foldl RangeReader.next s =
          { s with range := { s.range with startIndex := p.map snd } }) ∧
      (s.state = .secondIndex → s.range.endIndex = none → x.toList.foldl RangeReader.next s =
          { s with range := { s.range with endIndex := p.map snd } }) := by
  cases x with
  | none =>
    refine ⟨none, rfl, by simp, ?_, ?_⟩ <;>
    · intro _ hnone
      rw [map_none, ← hnone]
      rfl
  | some y =>
    obtain ⟨n, hn, hstart, hend⟩ := index_integer (hx y rfl) h
    exact ⟨some (y, n), rfl, by simpa using hn, fun hs _ => hstart hs, fun hs _ => hend hs⟩

section

variable {first : Maybe} {rest : Option Maybe}
  (hcs : dense cs = token .asterisk "*" :: first.toList ++ rest.toList.flatMap fun last => token .range ".." :: last.toList)
  (hfirst : ∀ x ∈ first, Derives .integerLiteral x)
  (hlast : ∀ last ∈ rest, ∀ x ∈ last, Derives .integerLiteral x)
include hcs hfirst hlast

/-- The bounds of a range, read one after the other. -/
theorem reads_range
    (h : (readRange cs).errors = []) :
    Reads .rangeLiteral (.node .rangeLiteral cs) (.range (readRange cs).range) := by
  have hspaces := (not_isSpace_of_foldl h).2
  have hdense : dense cs = cs := by
    rw [dense, filter_eq_self]
    intro t ht
    simp [hspaces t ht]
  rw [hdense] at hcs
  have hfold : readRange cs = (rest.toList.flatMap fun last =>
      token .range ".." :: last.toList).foldl RangeReader.next
        (first.toList.foldl RangeReader.next ⟨.firstIndex, ⟨none, none⟩, []⟩) := by
    rw [readRange, hcs, cons_append, foldl_cons, foldl_append]
    rfl
  rw [hfold] at h ⊢
  obtain ⟨p, rfl, hp, hstart, -⟩ := foldl_bound hfirst (not_isSpace_of_foldl h).1
  rw [hstart rfl rfl] at h ⊢
  cases rest with
  | none =>
    have hrange : cs = token .asterisk "*" :: (p.map fst).toList ++
        (none : Option (Option (Tree × Int))).toList.flatMap fun last =>
          token .range ".." :: (last.map fst).toList := hcs
    exact .rangeLiteral hrange hp (by simp)
  | some last =>
    simp only [toList_some, flatMap_cons, flatMap_nil, append_nil, foldl_cons] at h ⊢
    obtain ⟨q, rfl, hq, -, hend⟩ := foldl_bound (hlast last rfl) h
    rw [hend rfl rfl]
    have hrange : cs = token .asterisk "*" :: (p.map fst).toList ++
        (some q).toList.flatMap fun last =>
          token .range ".." :: (last.map fst).toList := hcs
    refine .rangeLiteral hrange hp ?_
    intro last hlast
    cases hlast
    exact hq

theorem spec_rangeLiteral
    :
    RangeSpec (.node .rangeLiteral cs) := by
  intro p v' h
  have herrors : (readRange cs).errors = [] := by
    by_contra herrors
    have henter : (listener.enter (.relationshipPattern p) .rangeLiteral cs).2.2 ≠ [] := herrors
    exact listener.not_takes_of_errors henter h
  have hupdates : updates (.relationshipPattern p) .rangeLiteral cs =
      (.relationshipPattern { p with range := some (readRange cs).range }, []) := by
    show (_, (readRange cs).errors) = _
    rw [herrors]
  obtain ⟨v₂, hv₂, hexit⟩ := (takes_passed rfl hupdates).mp h
  have hinteger : ∀ {x : Maybe} {q w}, (∀ y ∈ x, Derives .integerLiteral y) →
      listener.TakesAll x.toList (.relationshipPattern q) w → w = .relationshipPattern q := by
    intro x q w hx hw
    exact takesAll_maybe (fun _ => .relationshipPattern q)
      (fun y hy => takes_integerLiteral_relationship (hx y hy)) hw
  rw [← takesAll_dense, hcs, cons_append, takesAll_cons] at hv₂
  obtain ⟨v₁, hv₁, hv₂⟩ := hv₂
  rw [takes_token] at hv₁
  subst hv₁
  rw [listener.takesAll_append] at hv₂
  obtain ⟨v₁, hv₁, hv₂⟩ := hv₂
  obtain rfl := hinteger hfirst hv₁
  have hrest : v₂ = .relationshipPattern
      { p with range := some (readRange cs).range } := by
    cases rest with
    | none => exact (listener.takesAll_nil.mp hv₂).symm
    | some last =>
      simp only [toList_some, flatMap_cons, flatMap_nil,
        append_nil, takesAll_cons, takes_token, exists_eq_left'] at hv₂
      exact hinteger (hlast last rfl) hv₂
  subst hrest
  cases hexit
  exact ⟨_, reads_range hcs hfirst hlast herrors, rfl⟩

end

def DetailSpec (t : Tree) : Prop := ∀ direction v', listener.Takes t (.relationshipPattern
      { newRelationshipPattern with direction := direction }) v' →
    ∃ p, Reads .relationshipDetail t (.detail p) ∧
      v' = .relationshipPattern { p with direction := direction }

theorem spec_relationshipDetail {v types range properties : Maybe}
    (hcs : dense cs = symbol "[" :: v.toList ++ types.toList ++
      range.toList ++ properties.toList ++ [symbol "]"])
    (hv : ∀ x ∈ v, Derives .variable_ x) (ihtypes : ∀ x ∈ types, TypesSpec x)
    (ihrange : ∀ x ∈ range, RangeSpec x) (ihproperties : ∀ x ∈ properties, PropertiesSpec x) :
    DetailSpec (.node .relationshipDetail cs) := by
  intro direction v' h
  obtain ⟨v₂, hv₂, hexit⟩ := (takes_passed rfl rfl).mp h
  rw [← takesAll_dense, hcs] at hv₂
  simp only [append_assoc, listener.takesAll_append,
    takesAll_cons, takesAll_nil, takes_symbol, exists_eq_left', exists_eq_right] at hv₂
  obtain ⟨w₁, hw₁, w₂, hw₂, w₃, hw₃, hv₂⟩ := hv₂
  obtain rfl := takesAll_maybe (fun v => .relationshipPattern { newRelationshipPattern with
      variable_ := v.map fun x => ⟨text x⟩, direction := direction })
    (fun x hx =>
      takes_variable (hv x hx) (fun _ => ⟨rfl, rfl, rfl⟩) takes_symbolicName_variable rfl) hw₁
  obtain ⟨types', rfl, htypes, rfl⟩ := listener.takesAll_toList
    (fun names => .relationshipPattern ⟨v.map fun x => ⟨text x⟩,
      (names.getD []).foldl addKind [], direction, none, .nil⟩)
    (fun t names => Reads .relationshipTypes t (.types names)) (fun x hx => ihtypes x hx _) hw₂
  obtain ⟨range', rfl, hrange, rfl⟩ := listener.takesAll_toList
    (fun r => .relationshipPattern ⟨v.map fun x => ⟨text x⟩,
      ((types'.map snd).getD []).foldl addKind [], direction, r, .nil⟩)
    (fun t range => Reads .rangeLiteral t (.range range)) (fun x hx => ihrange x hx _) hw₃
  obtain ⟨properties', rfl, hproperties, rfl⟩ := listener.takesAll_toList
    (fun e => .relationshipPattern ⟨v.map fun x => ⟨text x⟩,
      ((types'.map snd).getD []).foldl addKind [], direction,
      range'.map snd, e.getD .nil⟩) (fun t e => Reads .properties t (.expression e)) (by
      intro x hx w hw
      obtain ⟨ds, rfl, ihx⟩ := ihproperties x hx
      obtain ⟨w₃, hw₃, hf⟩ := (takes_entered rfl rfl rfl).mp hw
      obtain ⟨p, rfl, hp⟩ := ihx w₃ hw₃
      cases hf
      exact ⟨_, hp, rfl⟩) hv₂
  cases hexit
  exact ⟨_, .relationshipDetail hcs hv htypes hrange hproperties, rfl⟩

/-- An arrowhead or a dash changes the direction at most. -/
theorem takes_mark {r : Rule} {p p' : RelationshipPattern Expression}
    (hr : r ∈ [Rule.leftArrowHead, .rightArrowHead, .dash]) (ht : Derives r t)
    (hupdates : ∀ cs, updates (.relationshipPattern p) r cs = (.relationshipPattern p', []))
    (h : listener.Takes t (.relationshipPattern p) v') : v' = .relationshipPattern p' := by
  obtain ⟨s, rfl⟩ := derives_leaf (by fin_cases hr <;> simp) ht
  have henters : enters (.relationshipPattern p) r [.token s] = none := by
    fin_cases hr <;> rfl
  have hexit := (takes_leaf henters (hupdates _)).mp h
  fin_cases hr <;> cases hexit <;> rfl

def RelationshipPatternSpec (t : Tree) : Prop :=
  ∃ cs, t = .node .relationshipPattern cs ∧
    ∀ w', listener.TakesAll cs (.relationshipPattern newRelationshipPattern)
        w' → ∃ p, w' = .relationshipPattern p ∧
        Reads .relationshipPattern t (.expression (.relationshipPattern p))

theorem spec_relationshipPattern {left right detail : Maybe} {dash dash' : Tree}
    (hcs : dense cs = left.toList ++ dash :: detail.toList ++ dash' :: right.toList)
    (hdash : Derives .dash dash) (hdash' : Derives .dash dash')
    (hleft : ∀ x ∈ left, Derives .leftArrowHead x) (hright : ∀ x ∈ right, Derives .rightArrowHead x)
    (ihdetail : ∀ x ∈ detail, DetailSpec x) :
    RelationshipPatternSpec (.node .relationshipPattern cs) := by
  refine ⟨cs, rfl, ?_⟩
  intro w' hw'
  rw [← takesAll_dense, hcs] at hw'
  simp only [cons_append, append_assoc, listener.takesAll_append, takesAll_cons] at hw'
  obtain ⟨w₁, hw₁, w₂, hw₂, w₃, hw₃, w₄, hw₄, hw'⟩ := hw'
  obtain rfl := takesAll_maybe (fun left => .relationshipPattern { newRelationshipPattern with
      direction := if left.isSome then .inbound else .both })
    (fun x hx => takes_mark (by simp) (hleft x hx) fun _ => rfl) hw₁
  obtain rfl := takes_mark (by simp) hdash (fun _ => rfl) hw₂
  obtain ⟨detail', rfl, hdetail, rfl⟩ := listener.takesAll_toList
    (fun p => .relationshipPattern { p.getD newRelationshipPattern with
      direction := if left.isSome then .inbound else .both })
    (fun t p => Reads .relationshipDetail t (.detail p))
    (fun x hx => ihdetail x hx _) hw₃
  obtain rfl := takes_mark (by simp) hdash' (fun _ => rfl) hw₄
  have hdirection : (if left.isSome then .inbound else .both) = directionOf left.isSome false := by
    cases left <;> rfl
  rw [hdirection] at hw'
  obtain rfl := takesAll_maybe (fun right => .relationshipPattern
      { (detail'.map snd).getD newRelationshipPattern with
        direction := directionOf left.isSome right.isSome })
    (fun x hx => takes_mark (by simp) (hright x hx) fun _ => by cases left <;> rfl) hw'
  exact ⟨_, rfl, .relationshipPattern hcs hdash hdash' hleft hright hdetail⟩

/-- The visitor of a pattern predicate adds the elements. -/
def ElementsSpec (r : Rule) (t : Tree) : Prop :=
  ∀ elements v', listener.Takes t (.patternPredicate elements) v' →
    ∃ more, Reads r t (.elements more) ∧ v' = .patternPredicate (elements ++ more)

theorem takes_nodePattern {elements : List (PatternElement Expression)}
    (ht : NodePatternSpec t) (h : listener.Takes t (.patternPredicate elements) v') :
    ∃ p, Reads .nodePattern t (.expression (.nodePattern p)) ∧
      v' = .patternPredicate (elements ++ [⟨.nodePattern p⟩]) := by
  obtain ⟨cs, rfl, ht⟩ := ht
  obtain ⟨w', hw', hf⟩ := (takes_entered rfl rfl rfl).mp h
  obtain ⟨p, rfl, hp⟩ := ht w' hw'
  cases hf
  exact ⟨p, hp, rfl⟩

theorem spec_patternElementChain {r n : Tree} (hcs : dense cs = [r, n])
    (ihr : RelationshipPatternSpec r) (ihn : NodePatternSpec n) :
    ElementsSpec .patternElementChain (.node .patternElementChain cs) := by
  intro elements v' h
  obtain ⟨v₂, hv₂, hexit⟩ := (takes_passed rfl rfl).mp h
  rw [← takesAll_dense, hcs, takesAll_cons] at hv₂
  obtain ⟨v₁, hv₁, hv₂⟩ := hv₂
  rw [takesAll_singleton] at hv₂
  obtain ⟨ds, rfl, ihr⟩ := ihr
  obtain ⟨w', hw', hf⟩ := (takes_entered rfl rfl rfl).mp hv₁
  obtain ⟨p, rfl, hp⟩ := ihr w' hw'
  cases hf
  obtain ⟨q, hq, rfl⟩ := takes_nodePattern ihn hv₂
  cases hexit
  exact ⟨_, .patternElementChain hcs hp hq, by simp⟩

theorem spec_relationshipsPattern {n : Tree} {chain : List Tree} (hcs : dense cs = n :: chain)
    (ihn : NodePatternSpec n) (ihchain : ∀ x ∈ chain, ElementsSpec .patternElementChain x) :
    ElementsSpec .relationshipsPattern (.node .relationshipsPattern cs) := by
  intro elements v' h
  obtain ⟨v₂, hv₂, hexit⟩ := (takes_passed rfl rfl).mp h
  rw [← takesAll_dense, hcs, takesAll_cons] at hv₂
  obtain ⟨v₁, hv₁, hv₂⟩ := hv₂
  obtain ⟨p, hp, rfl⟩ := takes_nodePattern ihn hv₁
  obtain ⟨results, hfst, hresults, rfl⟩ := listener.takesAll_map
    (fun more => .patternPredicate (elements ++ [⟨.nodePattern p⟩] ++ more.flatten))
    (fun t more => Reads .patternElementChain t (.elements more)) id (by
      intro x hx more v' hv'
      obtain ⟨es, hes, rfl⟩ := ihchain x hx _ v' hv'
      exact ⟨es, hes, by simp⟩) [] (by simpa using hv₂)
  cases hexit
  exact ⟨_, .relationshipsPattern (by rw [hcs, hfst]) hp hresults, by simp⟩

theorem spec_patternPredicate (hcs : cs = [x]) (ihx : ElementsSpec .relationshipsPattern x) :
    AtomRuleSpec .patternPredicate (.node .patternPredicate cs) := by
  intro a v' h
  obtain ⟨w', hw', hf⟩ := (takes_entered rfl rfl rfl).mp h
  rw [hcs, takesAll_singleton] at hw'
  obtain ⟨elements, helements, rfl⟩ := ihx _ w' hw'
  cases hf
  exact ⟨_, .patternPredicate hcs helements, rfl⟩

end Dawgs.Ref.Frontend

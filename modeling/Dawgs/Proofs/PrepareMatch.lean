/-!
# The match pattern of a built query

The query builder, and the Neo4j one as long as no pattern is there, infers
the pattern from the identifiers that it meets. It walks the DELETE clauses,
the WHERE and the RETURN, which has the ORDER BY in it, and looks at variables
only: the walk does not go from a pattern to its variable. SET and REMOVE are
not walked. What a CREATE makes takes its place in the pattern away, but not if
it is one of the ends and was met.
-/

namespace Dawgs.Ref.Builder

/-- A node that a walk enters, as far as the visitors of `prepareMatch` look at
it. -/
inductive Entered where
  | var (symbol : String)
  | nodePattern (symbol : Option String)
  | relationshipPattern (symbol : Option String)

/-- An updating clause, as the nodes in it. -/
inductive UpdatingClause where
  | create (nodes : List Entered)
  | delete (nodes : List Entered)
  | set (nodes : List Entered)
  | remove (nodes : List Entered)

/-- The query of a builder. -/
structure Query where
  updatingClauses : List UpdatingClause
  where_ : List Entered
  return_ : List Entered

inductive PatternElement where
  | node (symbol : Option String)
  | relationship (symbol : Option String)
deriving DecidableEq

/-- The symbols `bindWalk` sees. -/
def bindWalk (nodes : List Entered) : List String := nodes.filterMap fun
  | .var symbol => some symbol
  | _ => none

/-- The symbols a clause uses. -/
def symbols (nodes : List Entered) : List String := nodes.filterMap fun
  | .var symbol => some symbol
  | .nodePattern v | .relationshipPattern v => v

/-- What the visitor of a CREATE takes for created. -/
def created : Entered → Option String
  | .nodePattern (some symbol) => if symbol ∈ ["n", "s", "e"] then some symbol else none
  | .relationshipPattern (some symbol) => if symbol = "r" then some symbol else none
  | _ => none

namespace Query

variable (q : Query)

/-- The symbols that are met. -/
def bound : List String :=
  q.updatingClauses.flatMap (fun | .delete nodes => bindWalk nodes | _ => []) ++
    bindWalk q.where_ ++ bindWalk q.return_

def creating : List String :=
  q.updatingClauses.flatMap fun | .create nodes => nodes.filterMap created | _ => []

/-- The symbols that a clause other than a CREATE uses. -/
def uses : List String := q.updatingClauses.flatMap (fun
    | .delete nodes | .set nodes | .remove nodes => symbols nodes
    | .create _ => []) ++ symbols q.where_ ++ symbols q.return_

end Query

/-- What `prepareMatch` has noted when the clauses are walked. -/
structure Flags where
  singleNodeBound : Bool
  creatingSingleNode : Bool
  startNodeBound : Bool
  creatingStartNode : Bool
  endNodeBound : Bool
  creatingEndNode : Bool
  edgeBound : Bool
  creatingEdge : Bool

namespace Flags

variable (f : Flags)

def isRelationshipQuery : Bool := f.startNodeBound || f.endNodeBound || f.edgeBound

/-- The elements of the pattern, or nothing for `ErrAmbiguousQueryVariables`. -/
def elements : Option (List PatternElement) :=
  if f.isRelationshipQuery && f.singleNodeBound then none
  else some <|
    (if f.singleNodeBound && !f.creatingSingleNode then [.node "n"] else []) ++
    (if f.startNodeBound then [.node "s"] else []) ++
    (if f.isRelationshipQuery then
      (if !f.startNodeBound && !f.creatingStartNode then [.node none] else []) ++
      (if !f.creatingEdge then
        if f.edgeBound then [.relationship "r"] else [.relationship none]
      else []) ++
      (if !f.endNodeBound && !f.creatingEndNode then [.node none] else [])
    else []) ++
    (if f.endNodeBound then [.node "e"] else [])

end Flags

namespace Query

variable (q : Query)

def flags : Flags where
  singleNodeBound := "n" ∈ q.bound
  creatingSingleNode := "n" ∈ q.creating
  startNodeBound := "s" ∈ q.bound
  creatingStartNode := "s" ∈ q.creating
  endNodeBound := "e" ∈ q.bound
  creatingEndNode := "e" ∈ q.creating
  edgeBound := "r" ∈ q.bound
  creatingEdge := "r" ∈ q.creating

def prepareMatch : Option (List PatternElement) := q.flags.elements

end Query

/-- Single nodes, and chains of a node, a relationship and a node. -/
def chained : List PatternElement → Bool
  | .node _ :: .relationship _ :: .node _ :: elements => chained elements
  | .node _ :: elements => chained elements
  | .relationship _ :: _ => false
  | [] => true

/-- The identifiers of a pattern. -/
def identifiers (elements : List PatternElement) : List String := elements.filterMap fun
  | .node v | .relationship v => v

/-- What a built query has to be. -/
def WellBound (q : Query) (elements : List PatternElement) : Prop :=
  (∀ x ∈ ["n", "s", "r", "e"], x ∈ q.uses → (x ∈ identifiers elements ↔ x ∉ q.creating)) ∧
    chained elements

variable {q : Query} {elements : List PatternElement}

theorem mem_uses_of_bound {x : String} (h : x ∈ q.bound) : x ∈ q.uses := by
  have hwalk : ∀ {nodes}, x ∈ bindWalk nodes → x ∈ symbols nodes := by
    intro nodes h
    obtain ⟨node, hnode, h⟩ := List.mem_filterMap.mp h
    refine List.mem_filterMap.mpr ⟨node, hnode, ?_⟩
    cases node <;> simp_all
  simp only [Query.bound, Query.uses, List.mem_append, List.mem_flatMap] at h ⊢
  rcases h with (⟨clause, hclause, h⟩ | h) | h
  · refine .inl (.inl ⟨clause, hclause, ?_⟩)
    cases clause with
    | delete nodes => exact hwalk h
    | _ => cases h
  · exact .inl (.inr (hwalk h))
  · exact .inr (hwalk h)

/-- The pattern has what is met, but not what is created in the place of a
single node or of the relationship. It is broken where a relationship has no
end. -/
theorem elements_spec : ∀ n n' s s' e e' r r' : Bool,
    ∀ es ∈ (Flags.mk n n' s s' e e' r r').elements,
      identifiers es = (if n && !n' then ["n"] else []) ++ (if s then ["s"] else []) ++
        (if r && !r' then ["r"] else []) ++ (if e then ["e"] else []) ∧
      chained es = (!(s || e || r) || r' || (!s' || s) && (!e' || e)) := by
  decide +kernel

end Dawgs.Ref.Builder

import Dawgs.Ref.Properties

/-!
# Relationship writes of the PostgreSQL driver

Two ways a relationship reaches the `edge` table. `UpdateRelationship`
sends one statement that changes a stored property bag. The create batch
gathers relationships, folds those with the same ends and kind into one
row, and sends the rows as parallel arrays.

The update statements are texts, and their meaning hangs on how PostgreSQL
groups an expression without parentheses. So the right-hand side of the
assignment is modelled as it is written, a sequence of operands with
operators between them, and `parse` groups it: `-` binds tighter than
`||`, and both associate to the left.

A property value is written as JSON. The encoding is a parameter that may
refuse a value, as `json.Marshal` may.
-/

namespace Dawgs.Ref

/-! ## The update statements -/

/-- The operators of the statements. -/
inductive SqlOp where
  | concat
  | minus

/-- The operands: the column, and casts of numbered parameters. -/
inductive SqlOperand where
  | properties
  | jsonb (param : Nat)
  | textArray (param : Nat)

/-- An expression as it is written. -/
structure SqlText where
  head : SqlOperand
  rest : List (SqlOp × SqlOperand)

/-- An expression as it is read. -/
inductive SqlExpr where
  | operand (o : SqlOperand)
  | binary (op : SqlOp) (left right : SqlExpr)

/-- The operands joined by `||` so far, with one more. -/
def joinConcat (joined : Option SqlExpr) (term : SqlExpr) : SqlExpr :=
  match joined with
  | none => term
  | some left => .binary .concat left term

/-- The grouping: a run of `-` is one term, terms are joined by `||`. -/
def SqlText.group : List (SqlOp × SqlOperand) → Option SqlExpr → SqlExpr → SqlExpr
  | [], joined, term => joinConcat joined term
  | (.minus, o) :: rest, joined, term =>
    group rest joined (.binary .minus term (.operand o))
  | (.concat, o) :: rest, joined, term =>
    group rest (some (joinConcat joined term)) (.operand o)

def SqlText.parse (t : SqlText) : SqlExpr := group t.rest none (.operand t.head)

/-- A statement `update edge set properties = .. where edge.id = $n`. -/
structure EdgeUpdate where
  value : SqlText
  idParam : Nat

/-- `edgePropertySetOnlyStatement`:
`properties || $1::jsonb where edge.id = $2`. -/
def edgePropertySetOnlyStatement : EdgeUpdate := ⟨⟨.properties, [(.concat, .jsonb 1)]⟩, 2⟩

/-- `edgePropertyDeleteOnlyStatement`:
`properties - $1::text[] where edge.id = $2`. -/
def edgePropertyDeleteOnlyStatement : EdgeUpdate := ⟨⟨.properties, [(.minus, .textArray 1)]⟩, 2⟩

/-- `edgePropertySetAndDeleteStatement`:
`properties || $1::jsonb - $2::text[] where edge.id = $3`. -/
def edgePropertySetAndDeleteStatement : EdgeUpdate :=
  ⟨⟨.properties, [(.concat, .jsonb 1), (.minus, .textArray 2)]⟩, 3⟩

/-! ## What they do -/

/-- A stored property bag. -/
abbrev JsonObject (J : Type) := String → Option J

/-- A value of the expressions; an array of keys by its elements. -/
inductive SqlValue (J : Type) where
  | jsonb (o : JsonObject J)
  | textArray (keys : Finset String)
  | int8 (n : Nat)

/-- The parameter `$n`, counted from one. -/
def param {J : Type} (arguments : List (SqlValue J)) (n : Nat) :
    Option (SqlValue J) := arguments[n - 1]?

/-- Evaluation over one row; nothing where an operator or a cast does not
apply. -/
def SqlExpr.eval {J : Type} (arguments : List (SqlValue J))
    (stored : JsonObject J) : SqlExpr → Option (SqlValue J)
  | .operand .properties => some (.jsonb stored)
  | .operand (.jsonb n) =>
    match param arguments n with
    | some (.jsonb o) => some (.jsonb o)
    | _ => none
  | .operand (.textArray n) =>
    match param arguments n with
    | some (.textArray keys) => some (.textArray keys)
    | _ => none
  | .binary op left right =>
    match op, eval arguments stored left, eval arguments stored right with
    | .concat, some (.jsonb a), some (.jsonb b) =>
      some (.jsonb fun k => (b k).or (a k))
    | .minus, some (.jsonb a), some (.textArray keys) =>
      some (.jsonb fun k => if k ∈ keys then none else a k)
    | _, _, _ => none

/-- The property bags of the `edge` table. -/
abbrev EdgeTable (J : Type) := Nat → Option (JsonObject J)

/-- The table after a statement; an empty statement, or one that fails,
changes nothing. -/
def execUpdate {J : Type} (table : EdgeTable J) (statement : Option EdgeUpdate)
    (arguments : List (SqlValue J)) : EdgeTable J :=
  match statement with
  | none => table
  | some update =>
    match param arguments update.idParam with
    | some (.int8 id) =>
      match table id with
      | none => table
      | some stored =>
        match update.value.parse.eval arguments stored with
        | some (.jsonb o) => Function.update table id (some o)
        | _ => table
    | _ => table

/-- `ValueToJSONB` of a map with the given keys. -/
def valueToJSONB {V J : Type} (encode : V → Option J) (keys : Finset String)
    (values : String → Option V) : Option (JsonObject J) :=
  if ∀ k ∈ keys, ((values k).bind encode).isSome then
    some fun k => (values k).bind encode
  else none

/-- `UpdateRelationship`. Nothing where a value cannot be encoded: the
error is returned before any statement is sent. -/
def updateRelationship {V J : Type} [Inhabited V] (encode : V → Option J)
    (table : EdgeTable J) (id : Nat) (properties : Properties V) : Option (EdgeTable J) :=
  let modifiedProperties := properties.modifiedProperties
  let deletedProperties := properties.deleted
  let numModifiedProperties := properties.modified.card
  let numDeletedProperties := deletedProperties.card
  if numModifiedProperties > 0 then
    match valueToJSONB encode properties.modified modifiedProperties with
    | none => none
    | some jsonbArgument =>
      if numDeletedProperties > 0 then
        some (execUpdate table (some edgePropertySetAndDeleteStatement)
          [.jsonb jsonbArgument, .textArray deletedProperties, .int8 id])
      else
        some (execUpdate table (some edgePropertySetOnlyStatement) [.jsonb jsonbArgument, .int8 id])
  else if numDeletedProperties > 0 then
    some (execUpdate table (some edgePropertyDeleteOnlyStatement)
      [.textArray deletedProperties, .int8 id])
  else some (execUpdate table none [.int8 id])

/-! ## The create batch -/

/-- `graph.Relationship`; its property bag may be nil. -/
structure Relationship (V : Type) where
  id : UInt64
  startID : UInt64
  endID : UInt64
  kind : String
  properties : Option (Properties V)

/-- `ID.String`: the identifier read as a signed number, in decimal. -/
def idString (id : UInt64) : String := toString id.toInt64.toInt

/-- The key `Add` tells relationships apart by. -/
def Relationship.key {V : Type} (edge : Relationship V) : String :=
  idString edge.startID ++ idString edge.endID ++ edge.kind

/-- `relationshipCreateBatch`, with a bag encoded as a `J`. -/
structure RelationshipCreateBatch (J : Type) where
  startIDs : List UInt64
  endIDs : List UInt64
  edgeKindIDs : List Int
  edgePropertyBags : List J

/-- `relationshipCreateBatchBuilder`; the batch's three identifier arrays
are kept here, its property bags come with `Build`. -/
structure RelationshipCreateBatchBuilder (V : Type) where
  keyToEdgeID : String → Option UInt64
  startIDs : List UInt64
  endIDs : List UInt64
  edgeKindIDs : List Int
  edgePropertiesIndex : UInt64 → Option Nat
  edgePropertiesBatch : List (Properties V)

/-- How `Add` fails: it panics, or `MapKind` does not know the kind. -/
inductive AddFailure where
  | panic
  | unmappedKind
deriving DecidableEq

namespace RelationshipCreateBatchBuilder

variable {V : Type}

/-- `newRelationshipCreateBatchBuilder`. -/
def new : RelationshipCreateBatchBuilder V where
  keyToEdgeID := fun _ => none
  startIDs := []
  endIDs := []
  edgeKindIDs := []
  edgePropertiesIndex := fun _ => none
  edgePropertiesBatch := []

/-- `Add`. The identifier stored for a key is used as the index of the row
to merge into; past the end of the slice that panics, as does `Clone` of a
nil bag. -/
def add (mapKind : String → Option Int) (s : RelationshipCreateBatchBuilder V)
    (edge : Relationship V) : Except AddFailure (RelationshipCreateBatchBuilder V) :=
  match s.keyToEdgeID edge.key with
  | some existingPropertiesIdx =>
    match s.edgePropertiesBatch[existingPropertiesIdx.toNat]? with
    | none => .error .panic
    | some existing =>
      .ok
        { s with
          edgePropertiesBatch :=
            s.edgePropertiesBatch.set existingPropertiesIdx.toNat
              (existing.mergeNilable edge.properties) }
  | none =>
    match edge.properties with
    | none => .error .panic
    | some edgeProperties =>
      match mapKind edge.kind with
      | none => .error .unmappedKind
      | some edgeKindID =>
        .ok
          { keyToEdgeID := Function.update s.keyToEdgeID edge.key (some edge.id)
            startIDs := s.startIDs ++ [edge.startID]
            endIDs := s.endIDs ++ [edge.endID]
            edgeKindIDs := s.edgeKindIDs ++ [edgeKindID]
            edgePropertiesIndex := Function.update s.edgePropertiesIndex
              edge.id (some s.edgePropertiesBatch.length)
            edgePropertiesBatch := s.edgePropertiesBatch ++ [edgeProperties] }

/-- The loop of `flushRelationshipCreateBuffer`. -/
def addAll (mapKind : String → Option Int) (s : RelationshipCreateBatchBuilder V) :
    List (Relationship V) → Except AddFailure (RelationshipCreateBatchBuilder V)
  | [] => .ok s
  | edge :: edges =>
    match s.add mapKind edge with
    | .error failure => .error failure
    | .ok s' => s'.addAll mapKind edges

/-- `Build`; nothing where `EncodeProperties` fails. -/
def build {J : Type} (encode : (String → Option V) → Option J)
    (s : RelationshipCreateBatchBuilder V) : Option (RelationshipCreateBatch J) :=
  (s.edgePropertiesBatch.mapM fun properties => encode properties.map).map fun edgePropertyBags =>
      { startIDs := s.startIDs
        endIDs := s.endIDs
        edgeKindIDs := s.edgeKindIDs
        edgePropertyBags }

end RelationshipCreateBatchBuilder

end Dawgs.Ref

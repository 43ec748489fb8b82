import Dawgs.Lib.SerialTable

/-!
# The schema manager

`SchemaManager` of the PostgreSQL driver remembers the kinds and graphs of
the database: kinds by name and by id, and graphs by name. What it does not
know it looks up, or defines, in a transaction.

The model has the manager and the database together. Any statement and any
commit may fail. A transaction the manager opens for itself runs from start
to end in one call, and a `Fate` says what becomes of it. `AssertGraph`
runs in a transaction of its caller, or on a plain connection where every
statement commits. A caller's transaction stays open until the caller ends
it, while other calls go on. How it ends is up to the caller and the
database, whatever has failed in it.

Calls are taken one after the other: the manager holds its lock in each of
them, and what it has read before it took the lock it reads again. Of a
graph there are its name and its id. The partitions and indexes of a graph
are made and described by several statements, which count as one here.
-/

namespace Dawgs.Ref.Schema

open Lib

/-- A transaction: the manager's own, or one of a caller. -/
inductive Tx where
  | own
  | caller (n : Nat)
  deriving DecidableEq

/-- What statements run in: a transaction, or a plain connection. -/
abbrev Session := Option Tx

structure Database where
  kind : SerialTable String Tx
  graph : SerialTable String Tx

/-- `model.Graph`, without its partitions. -/
structure Graph where
  id : Nat
  name : String
  deriving DecidableEq

/-- `SchemaManager`; there is a default graph if `hasDefaultGraph` is set. -/
structure SchemaManager where
  defaultGraph : Option Graph
  graphs : String → Option Graph
  kindsByID : String → Option Nat
  kindIDsByKind : Nat → Option String

/-- `NewSchemaManager`. -/
def SchemaManager.new : SchemaManager := ⟨none, fun _ => none, fun _ => none, fun _ => none⟩

structure World where
  db : Database
  manager : SchemaManager

/-- How a commit ends. With `unconfirmed` it has happened, but the caller
gets an error. -/
inductive CommitOutcome where
  | done
  | rolledBack
  | unconfirmed
  deriving DecidableEq

/-- What becomes of a transaction of the manager. -/
structure Fate where
  /-- There is a connection, and the transaction begins. -/
  connected : Bool
  /-- How many statements succeed before one fails. -/
  statements : Nat
  commit : CommitOutcome

inductive ManagerError where
  | database
  | unableToMapKinds (missing : List String)
  | unableToMapKindIDs (missing : List Nat)
  deriving DecidableEq

/-! ## Transactions -/

def Database.commit (db : Database) (tx : Tx) : Database := ⟨db.kind.commit tx, db.graph.commit tx⟩

def Database.rollback (db : Database) (tx : Tx) : Database :=
  ⟨db.kind.rollback tx, db.graph.rollback tx⟩

namespace World

def commit (w : World) (tx : Tx) : World := { w with db := w.db.commit tx }

def rollback (w : World) (tx : Tx) : World := { w with db := w.db.rollback tx }

/-- What runs in a transaction: it is told how many statements may still
succeed and says how many are left, or that it has failed. -/
abbrev Delegate := Nat → World → World × Option Nat

/-- `WriteTransaction`. -/
def writeTransaction (fate : Fate) (txDelegate : Delegate) (w : World) :
    World × Except ManagerError Unit :=
  if fate.connected then
    match txDelegate fate.statements w with
    | (w, none) => (w.rollback .own, .error .database)
    | (w, some _) =>
      match fate.commit with
      | .done => (w.commit .own, .ok ())
      | .rolledBack => (w.rollback .own, .error .database)
      | .unconfirmed => (w.commit .own, .error .database)
  else (w, .error .database)

/-! ## Kinds -/

/-- `fetch`: `kindsByID` is replaced, `kindIDsByKind` is added to. -/
def fetch : Delegate
  | 0, w => (w, none)
  | statements + 1, w =>
    ({ w with manager := { w.manager with
        kindsByID := w.db.kind.select (some .own)
        kindIDsByKind := fun id =>
          (w.db.kind.nameOf (some .own) id).or (w.manager.kindIDsByKind id) } },
      some statements)

/-- `Fetch`. -/
def refresh (fate : Fate) (w : World) : World × Except ManagerError Unit :=
  w.writeTransaction fate fetch

/-- `InsertOrGetKind`: the existing row or else the inserted one. -/
def insertOrGetKind (w : World) (kind : String) : World × Option Nat := ({ w with db := { w.db with
      kind := (w.db.kind.insert (some .own) kind).1 } },
    (w.db.kind.select (some .own) kind).or (w.db.kind.insert (some .own) kind).2)

/-- A kind gets an id in both maps. -/
def define (w : World) (kind : String) (id : Nat) : World :=
  { w with manager := { w.manager with
      kindsByID := Function.update w.manager.kindsByID kind (some id)
      kindIDsByKind := Function.update w.manager.kindIDsByKind id (some kind) } }

/-- `defineKinds`. -/
def defineKinds : List String → Delegate
  | [], statements, w => (w, some statements)
  | _ :: _, 0, w => (w, none)
  | kind :: kinds, statements + 1, w =>
    match w.insertOrGetKind kind with
    | (w, none) => (w, none)
    | (w, some id) => defineKinds kinds statements (w.define kind id)

end World

/-- The kinds `mapKinds` has no id for. -/
def SchemaManager.missing (s : SchemaManager) (kinds : List String) :
    List String := kinds.filter fun kind => (s.kindsByID kind).isNone

/-- `mapKinds`. -/
def SchemaManager.mapKinds (s : SchemaManager) (kinds : List String) :
    List Nat × List String := (kinds.filterMap s.kindsByID, s.missing kinds)

/-- `mapKindIDs`. -/
def SchemaManager.mapKindIDs (s : SchemaManager) (ids : List Nat) :
    List String × List Nat := (ids.filterMap s.kindIDsByKind,
    ids.filter fun id => (s.kindIDsByKind id).isNone)

namespace World

/-- `MapKinds`; `MapKind` is the same for one kind. -/
def mapKinds (kinds : List String) (fate : Fate) (w : World) :
    World × Except ManagerError (List Nat) :=
  if (w.manager.mapKinds kinds).2.isEmpty then
    (w, .ok (w.manager.mapKinds kinds).1)
  else
    match w.refresh fate with
    | (w, .error e) => (w, .error e)
    | (w, .ok ()) =>
      if (w.manager.mapKinds kinds).2.isEmpty then
        (w, .ok (w.manager.mapKinds kinds).1)
      else (w, .error (.unableToMapKinds (w.manager.mapKinds kinds).2))

/-- `MapKindIDs`; `MapKindID` is the same for one id. -/
def mapKindIDs (ids : List Nat) (fate : Fate) (w : World) :
    World × Except ManagerError (List String) :=
  if (w.manager.mapKindIDs ids).2.isEmpty then
    (w, .ok (w.manager.mapKindIDs ids).1)
  else
    match w.refresh fate with
    | (w, .error e) => (w, .error e)
    | (w, .ok ()) =>
      if (w.manager.mapKindIDs ids).2.isEmpty then
        (w, .ok (w.manager.mapKindIDs ids).1)
      else (w, .error (.unableToMapKindIDs (w.manager.mapKindIDs ids).2))

/-- `assertKinds`, under the lock. -/
def assertMissingKinds (kinds : List String) (fate : Fate) (w : World) :
    World × Except ManagerError (List Nat) :=
  match w.manager.missing kinds with
  | [] => (w, .ok (w.manager.mapKinds kinds).1)
  | missing =>
    match w.writeTransaction fate (defineKinds missing) with
    | (w, .error e) => (w, .error e)
    | (w, .ok ()) => (w, .ok (w.manager.mapKinds kinds).1)

/-- `AssertKinds`. -/
def assertKinds (kinds : List String) (fate : Fate) (w : World) :
    World × Except ManagerError (List Nat) :=
  if (w.manager.mapKinds kinds).2.isEmpty then
    (w, .ok (w.manager.mapKinds kinds).1)
  else w.assertMissingKinds kinds fate

end World

/-! ## Graphs -/

/-- Why a graph is not found; an error of the statement that looks for the
row is taken for a missing row. -/
inductive SelectError where
  | noRows
  | failed

/-- `SelectGraphByName`: the row, and then its partitions. -/
def Database.selectGraphByName (db : Database) (session : Session)
    (name : String) : Nat → Except SelectError Graph × Nat
  | 0 => (.error .noRows, 0)
  | statements + 1 =>
    match db.graph.select session name with
    | none => (.error .noRows, statements)
    | some id =>
      match statements with
      | 0 => (.error .failed, 0)
      | statements + 1 => (.ok ⟨id, name⟩, statements)

/-- `CreateGraph`: the row, and then its partitions and indexes. -/
def Database.createGraph (db : Database) (session : Session)
    (name : String) : Nat → Database × Option (Graph × Nat)
  | 0 => (db, none)
  | statements + 1 =>
    match db.graph.insert session name with
    | (graph, none) => ({ db with graph := graph }, none)
    | (graph, some id) =>
      match statements with
      | 0 => ({ db with graph := graph }, none)
      | statements + 1 =>
        ({ db with graph := graph }, some (⟨id, name⟩, statements))

namespace World

/-- A graph is cached. -/
def cache (w : World) (name : String) (graph : Graph) : World :=
  { w with manager := { w.manager with
      graphs := Function.update w.manager.graphs name (some graph) } }

/-- `assertGraph`, under the lock. -/
def assertNewGraph (session : Session) (name : String) (statements : Nat)
    (w : World) : World × Option (Graph × Nat) :=
  match w.db.selectGraphByName session name statements with
  | (.error .failed, _) => (w, none)
  | (.error .noRows, statements) =>
    match w.db.createGraph session name statements with
    | (db, none) => ({ w with db := db }, none)
    | (db, some (graph, statements)) =>
      (({ w with db := db } : World).cache name graph, some (graph, statements))
  | (.ok _, 0) => (w, none)
  | (.ok definition, statements + 1) =>
    (w.cache name definition, some (definition, statements))

/-- `AssertGraph`. -/
def assertGraph (session : Session) (name : String) (statements : Nat)
    (w : World) : World × Option (Graph × Nat) :=
  match w.manager.graphs name with
  | some graph => (w, some (graph, statements))
  | none => w.assertNewGraph session name statements

/-- `setDefaultGraph`. -/
def setDefault (w : World) (graph : Graph) (name : String) : World :=
  match w.manager.defaultGraph with
  | some _ => w
  | none => { w with manager := { w.manager with
      graphs := Function.update w.manager.graphs name (some graph)
      defaultGraph := some graph } }

/-- `SetDefaultGraph`, on a plain connection. -/
def setDefaultGraph (name : String) (fate : Fate) (w : World) : World × Except ManagerError Unit :=
  if fate.connected then
    match w.db.selectGraphByName none name fate.statements with
    | (.error _, _) => (w, .error .database)
    | (.ok graph, _) => (w.setDefault graph name, .ok ())
  else (w, .error .database)

/-- What `AssertDefaultGraph` does in its transaction. -/
def assertDefaultGraphIn (name : String) : Delegate := fun statements w =>
    match w.assertGraph (some .own) name statements with
    | (w, none) => (w, none)
    | (w, some (graph, statements)) =>
      (w.setDefault graph name, some statements)

/-- `AssertDefaultGraph`. -/
def assertDefaultGraph (name : String) (fate : Fate) (w : World) :
    World × Except ManagerError Unit := w.writeTransaction fate (assertDefaultGraphIn name)

/-! ## Schemas -/

/-- The loop of `assertSchema` over the lists of kinds. -/
def defineAll : List (List String) → Delegate
  | [], statements, w => (w, some statements)
  | kinds :: rest, statements, w =>
    match defineKinds (w.manager.missing kinds) statements w with
    | (w, none) => (w, none)
    | (w, some statements) => defineAll rest statements w

end World

/-- What `assertSchema` reads of a `graph.Graph`. -/
structure GraphSchema where
  nodes : List String
  edges : List String

namespace World

/-- `assertSchema`: the tables, the kinds there are, and the kinds that are
missing. -/
def assertSchemaIn (schema : List GraphSchema) : Delegate
  | 0, w => (w, none)
  | statements + 1, w =>
    match fetch statements w with
    | (w, none) => (w, none)
    | (w, some statements) =>
      defineAll (schema.flatMap fun g => [g.nodes, g.edges]) statements w

/-- `AssertSchema`. -/
def assertSchema (schema : List GraphSchema) (fate : Fate) (w : World) :
    World × Except ManagerError Unit := w.writeTransaction fate (assertSchemaIn schema)

end World

/-! ## Runs -/

/-- What callers do. -/
inductive Op where
  | mapKinds (kinds : List String) (fate : Fate)
  | mapKindIDs (ids : List Nat) (fate : Fate)
  | assertKinds (kinds : List String) (fate : Fate)
  | assertSchema (schema : List GraphSchema) (fate : Fate)
  | setDefaultGraph (name : String) (fate : Fate)
  | assertDefaultGraph (name : String) (fate : Fate)
  /-- `AssertGraph` on a plain connection. -/
  | assertGraph (name : String) (statements : Nat)
  /-- `AssertGraph` in a transaction of the caller. -/
  | assertGraphIn (n : Nat) (name : String) (statements : Nat)
  /-- A caller ends its transaction. -/
  | finish (n : Nat) (outcome : CommitOutcome)

namespace World

/-- A caller ends its transaction. -/
def finish (w : World) (n : Nat) : CommitOutcome → World
  | .rolledBack => w.rollback (.caller n)
  | _ => w.commit (.caller n)

def step (w : World) : Op → World
  | .mapKinds kinds fate => (w.mapKinds kinds fate).1
  | .mapKindIDs ids fate => (w.mapKindIDs ids fate).1
  | .assertKinds kinds fate => (w.assertKinds kinds fate).1
  | .assertSchema schema fate => (w.assertSchema schema fate).1
  | .setDefaultGraph name fate => (w.setDefaultGraph name fate).1
  | .assertDefaultGraph name fate => (w.assertDefaultGraph name fate).1
  | .assertGraph name statements => (w.assertGraph none name statements).1
  | .assertGraphIn n name statements =>
    (w.assertGraph (some (.caller n)) name statements).1
  | .finish n outcome => w.finish n outcome

end World

end Dawgs.Ref.Schema

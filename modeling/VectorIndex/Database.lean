import VectorIndex.Draft.Items
import VectorIndex.Draft.Reconnection
import VectorIndex.Metadata.Codec
import VectorIndex.Searcher

/-!
# `VectorIndex.Database` — indexes in one file

A database holds the metadata row and the node table of each index. Readers work on snapshots. An index has
at most one writer at a time; a writer's changes are published by one commit or not at all.

Two things come from outside, and are arguments of the calls that ask for them. How many bytes the file takes is for
the storage to say: it depends on how the file has grown, not on its rows alone, so a commit is given the number that
the storage reports (`Database.publish`). And a writer that is opened without a seed is given a generator
(`Database.openWriter`). That the storage itself fails is left out.

## Contents
- **Files.** `Table`, `Store`, `File`: what lies on disk while no database is open.
- **Databases.** `Config`, `Database`, `Database.openFile`, `Database.close`.
- **Reading.** `Database.searcher`, `Database.indexIds`, `Database.contains`.
- **Writing.** `Writer`, `Database.openWriter`, `Database.commit`, `Database.release`,
  `Database.dropIndex`.
-/

namespace VectorIndex

/-- A map from indexes. -/
abbrev IndexMap (α : Type) := Std.ExtTreeMap IndexId α

/-! ## Files -/

/-- A table of a file: rows of the expected type, or a table of another type under the same name. -/
inductive Table (ρ : Type) where
  | rows (rows : ρ)
  | foreign

/-- What a file holds: the metadata row and the node table of each index. -/
structure Store where
  metadata : Table (IndexMap Bytes)
  nodes : IndexMap (Table Rows)

/-- A store without indexes. -/
def Store.empty : Store := ⟨.rows ∅, ∅⟩

/-- A file on disk. -/
inductive File where
  | store (store : Store)
  | unreadable

/-! ## Databases -/

/-- How a database is opened. -/
structure Config where
  /-- Most indexes the database may hold. -/
  maxIndexes : UInt32
  /-- Most bytes the file may take. -/
  quota : UInt64
  /-- Bytes of the page cache. -/
  cacheBytes : Option UInt64
  /-- Parameters of new indexes. -/
  params : Params
deriving DecidableEq

/-- 128 indexes, 10 GiB, default parameters. -/
def Config.default : Config := ⟨128, 10 * 1024 * 1024 * 1024, none, Params.default⟩

/-- An open database. -/
structure Database where
  config : Config
  metadata : IndexMap Bytes
  nodes : IndexMap (Table Rows)
  /-- The indexes that have a writer. -/
  writing : Std.ExtTreeSet IndexId

/-- The name of a node table. -/
def nodesTableName (index : IndexId) : String := s!"hnsw_nodes_{index}"

/-- The name of the metadata table. -/
def metadataTableName : String := "hnsw_metadata"

namespace Database

/-- Every row decodes; otherwise the error of the first one that does not. -/
def checkRows : List (IndexId × Bytes) → Except Error Unit
  | [] => .ok ()
  | (_, row) :: rows => do
      let _ ← (Metadata.decode row).mapError Error.storage
      checkRows rows

/-- Opens a file. The parameters for new indexes must be valid, and every metadata row must decode. -/
def openFile (config : Config) (file : File) : Except Error Database := do
  config.params.check
  match file with
  | .unreadable => .error (.backend .unreadable)
  | .store store =>
      match store.metadata with
      | .foreign => .error (.backend (.tableType metadataTableName))
      | .rows metadata => do
          checkRows metadata.toList
          return ⟨config, metadata, store.nodes, ∅⟩

/-- Opening a file a second time fails; the parameters are looked at first. -/
def openAgain (config : Config) : Except Error Unit := do
  config.params.check
  .error (.backend .alreadyOpen)

/-- The file of a database. Uncommitted changes are lost. -/
def close (db : Database) : Store := ⟨.rows db.metadata, db.nodes⟩

/-! ## Reading -/

/-- The committed description of an index. -/
def head (db : Database) (index : IndexId) : Except Error (Option Metadata) :=
  match db.metadata[index]? with
  | none => .ok none
  | some row => ((Metadata.decode row).mapError Error.storage).map some

/-- The committed rows of an index, none if there is no node table. -/
def rows (db : Database) (index : IndexId) : Except Error Rows :=
  match db.nodes[index]? with
  | none => .ok ∅
  | some (.rows rows) => .ok rows
  | some .foreign => .error (.backend (.tableType (nodesTableName index)))

/-- A searcher over the committed state of an index. -/
def searcher (db : Database) (index : IndexId) : Except Error Searcher := do
  match ← db.head index with
  | none => .error (.indexNotFound index)
  | some head => return ⟨index, head, ← db.rows index⟩

/-- The committed indexes, in ascending order. -/
def indexIds (db : Database) : List IndexId := db.metadata.keys

/-- The index is committed. -/
def contains (db : Database) (index : IndexId) : Bool := db.metadata.contains index

end Database

/-! ## Writing -/

/-- What to do when another writer holds the index. -/
inductive Acquire where
  | failFast
  | block
deriving DecidableEq, Inhabited

/-- How a writer is opened. -/
structure WriterOptions where
  acquire : Acquire
  /-- Parameters of a new index, instead of those of the database. -/
  params : Option Params
  /-- Seed of the levels, instead of entropy. -/
  seed : Option UInt64
deriving DecidableEq

/-- Fail at once, the database's parameters, entropy. -/
def WriterOptions.default : WriterOptions := ⟨.failFast, none, none⟩

/-- The generator of the seed, if there is one. -/
def WriterOptions.generator (options : WriterOptions) (entropy : Random.Generator) : Random.Generator :=
  match options.seed with
  | some seed => .ofSeed seed
  | none => entropy

/-- Write access to one index. -/
structure Writer where
  index : IndexId
  /-- The index was not committed when the writer was opened. -/
  isNew : Bool
  draft : Draft

namespace Writer

/-- Runs an edit on the draft. -/
def run (w : Writer) (edit : Edit Unit) : Except Error Unit × Writer :=
  let (outcome, draft) := edit.on w.draft
  (outcome, { w with draft := draft })

/-- There is something to write. -/
def isChanged (w : Writer) : Bool :=
  w.draft.discards || !w.draft.touched.isEmpty || !w.draft.deleted.isEmpty

end Writer

/-- The rows with the changes of a draft. -/
def Draft.writeTo (d : Draft) (rows : Rows) : Rows :=
  let kept := d.deleted.toList.foldl (fun rows id => rows.erase id) rows
  d.touched.toList.foldl (fun rows (id, node) => rows.insert id node.encode) kept

/-- The answer to a request for a writer: it may have to wait for the current one. -/
inductive Request (α : Type) where
  | answered (result : Except Error α)
  | waiting

namespace Database

/-- The description that a writer starts from, and whether the index is new. -/
def writerHead (db : Database) (index : IndexId) (dimension : Nat) (metric : Metric)
    (params : Option Params) : Except Error (Metadata × Bool) := do
  match ← db.head index with
  | some head =>
      if head.dimension.toNat ≠ dimension then
        .error (.dimensionMismatch head.dimension.toNat dimension)
      else if head.metric ≠ metric then .error (.metricMismatch head.metric metric)
      else return (head, false)
  | none =>
      let params := params.getD db.config.params
      params.check
      return (Metadata.fresh dimension metric params, true)

/-- Opens the writer of an index; the index is created by its first commit. Levels are drawn from `entropy`
if the options have no seed. A request that fails leaves the database as it was. -/
def openWriter (db : Database) (index : IndexId) (dimension : Nat) (metric : Metric)
    (options : WriterOptions) (entropy : Random.Generator) : Request (Writer × Database) :=
  if dimension = 0 then .answered (.error (.invalidParameter .dimension))
  else if db.writing.contains index then
    match options.acquire with
    | .failFast => .answered (.error (.writerBusy index))
    | .block => .waiting
  else .answered do
    let (head, isNew) ← db.writerHead index dimension metric options.params
    let rows ← db.rows index
    return (⟨index, isNew, Draft.ofRows head rows (options.generator entropy)⟩,
      { db with writing := db.writing.insert index })

/-- The writer of an index is gone. -/
def release (db : Database) (index : IndexId) : Database :=
  { db with writing := db.writing.erase index }

/-- The database with the changes of a writer. The limit on indexes counts for an index that is not there
yet; the quota is looked at last, when the changes are written: `allocated` is what the storage reports then of the
bytes that the file takes. -/
def publish (db : Database) (w : Writer) (allocated : UInt64) : Except Error Database := do
  let draft ← if w.isChanged then w.draft.reconnected else pure w.draft
  if w.isNew && !db.contains w.index && db.config.maxIndexes.toNat ≤ db.metadata.size then
    .error (.indexLimitReached w.index db.config.maxIndexes)
  else
    let base ← if draft.discards then pure ∅ else db.rows w.index
    if db.config.quota < allocated then .error (.storage (.full allocated db.config.quota))
    else return { db with
      metadata := db.metadata.insert w.index draft.head.encode
      nodes := db.nodes.insert w.index (.rows (draft.writeTo base)) }

/-- Publishes the changes of a writer, all or none of them. The writer is gone in both cases. -/
def commit (db : Database) (w : Writer) (allocated : UInt64) : Except Error Unit × Database :=
  let free := db.release w.index
  match free.publish w allocated with
  | .ok published => (.ok (), published)
  | .error e => (.error e, free)

/-- Removes an index that no writer holds. -/
def dropIndex (db : Database) (index : IndexId) : Except Error Database :=
  if db.writing.contains index then .error (.writerBusy index)
  else if !db.contains index then .error (.indexNotFound index)
  else .ok { db with metadata := db.metadata.erase index, nodes := db.nodes.erase index }

end Database

end VectorIndex

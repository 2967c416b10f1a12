import TaNode.Queue.Integrity
import TaNode.Schemes.Resume

/-! `MigrateFrozen`: the offline migration of a queue and its archive segments into a new database.

    The files are copied one after the other, row by row in the order of ids. Each row and the
    cursor of its file are committed together, so an interrupted call leaves its place behind and
    the next one goes on from there:

        start ─▶ opened ─▶ file 0 ─▶ row 0 ↺ ─▶ file 1 ─▶ row 1 ↺ ─▶ … ─▶ tail ─▶ last ─▶ return

    The migration is a `Job` whose durable state is the destination. A restarted call skips the
    files marked `complete` and reads the cursor of the one it was in (`catchesUp`), so whatever
    interrupts it, the destination goes through the same states as in one uninterrupted call. -/

namespace TaNode.Queue

def parseDigits (ds : List Char) : Option Int :=
  if ds.isEmpty || !ds.all Char.isDigit then none else some (Nat.ofDigitChars 10 ds 0)

/-- `strconv.ParseInt(s, 10, 64)`; `toString` is `strconv.FormatInt`. -/
def parseInt (s : String) : Option Int :=
  let value := match s.toList with
    | '+' :: ds => parseDigits ds
    | '-' :: ds => (parseDigits ds).map fun n => -n
    | ds => parseDigits ds
  value.filter fun n => -2 ^ 63 ≤ n && n < 2 ^ 63

/-- The metadata key of the cursor of file `index`. -/
def cursorKey (index : Nat) : String := "migration_file_" ++ toString index

def Backend.text : Backend → String
  | .v2 => "v2"
  | .legacy => "legacy"

/-- The frozen files of one migration. Every database of this program is intact, and
    `AUTOINCREMENT` hands out ids from one up. -/
structure Frozen (C : Codec) where
  source : Db
  /-- the segments that `queue_archives` of the source lists -/
  segments : List Db
  /-- the paths, sizes and modification times of all files, as JSON -/
  fingerprint : String
  backend : Backend
  intact : ∀ f ∈ source :: segments, Intact C f
  ids : ∀ f ∈ source :: segments, ∀ id row, f.events.rows.lookup id = some row →
    0 < id ∧ id ≤ EventQueue.maxRowId

def Frozen.files {C : Codec} (m : Frozen C) : List Db := m.source :: m.segments

/-- `SELECT … FROM event_queue WHERE id>? ORDER BY id LIMIT 1` -/
def nextRow (q : EventQueue) (cursor : Int) : Option ((_ : Int) × Row) :=
  (q.select fun _ => true).find? fun e => decide (cursor < e.1)

def Db.setMeta (db : Db) (key value : String) : Db :=
  { db with metadata := db.metadata.insert key value }

section
variable (C : Codec)

/-- The payload of a row in the destination: the decoded text for the legacy backend, a copy of the
    stored tree otherwise. -/
def migratePayload (backend : Backend) (origin : Db) (payload original : Bytes) : Tx Db Err Bytes :=
  match backend with
  | .legacy => pure original
  | .v2 => fun db => do
    let (payload, content) ← copyPayload C origin.content.objects payload db.content
    return (payload, { db with content := content })

/-- The transaction of one row. -/
def migrateRow (backend : Backend) (origin : Db) (key : String) (selected : Record) :
    Tx Db Err Unit := do
  let original ← liftM (decodePayload C origin.content.objects selected.payload)
  let payload ← migratePayload C backend origin selected.payload original
  let restored ← liftM (decodePayload C (← get).content.objects payload)
  if jsonEqual C original restored = false then throw (.payloadMismatch selected.id)
  else do
    insertRecord C { selected with payload := payload }
    modify fun db => db.setMeta key (toString selected.id)

/-- Where a call is: `cursor` is the resume floor, `fileCursor` the last id copied from the file. -/
inductive MigrateStage where
  | start
  | opened
  | file (cursor : Int) (index : Nat)
  | row (cursor : Int) (index : Nat) (fileCursor : Int)
  | tail (cursor : Int)
  | last
  deriving DecidableEq

end

namespace Frozen
variable {C : Codec} (m : Frozen C)

/-- The checks on the destination; the first call records its source in an empty queue. -/
def openDestination (db : Db) : Except Err Db :=
  if (db.metadata.lookup "migration_activated").isSome then .error .activated
  else match db.metadata.lookup "migration_source" with
    | none =>
      if db.events.rows.entries.length ≠ 0 then .error .eventsWithoutCursor
      else if (db.metadata.lookup "migration_backend").isSome ∨
          (db.metadata.lookup "migration_cursor").isSome then .error .constraint
      else .ok (((db.setMeta "migration_source" m.fingerprint).setMeta
        "migration_backend" m.backend.text).setMeta "migration_cursor" "0")
    | some saved => if saved ≠ m.fingerprint then .error .identityChanged else .ok db

/-- The resume floor. -/
def readCursor (db : Db) : Except Err Int :=
  match db.metadata.lookup "migration_backend", db.metadata.lookup "migration_cursor" with
  | none, _ => .error .noRow
  | some backend, saved =>
    if backend ≠ m.backend.text then .error .backendChanged
    else match saved with
      | none => .error .noRow
      | some saved => match parseInt saved with
        | none => .error .badCursor
        | some cursor => .ok cursor

/-- One step of a call, up to and including its next transaction. -/
def tick : MigrateStage → Db → Except Err (Tick MigrateStage Db)
  | .start, db => do
    let db' ← m.openDestination db
    return .go .opened db' 0
  | .opened, db => do
    let cursor ← m.readCursor db
    return .go (.file cursor 0) db 0
  | .file cursor index, db =>
    if index < m.files.length then
      match db.metadata.lookup (cursorKey index) with
      | none => .ok (.go (.row cursor index cursor) db 0)
      | some saved =>
        if saved = "complete" then .ok (.go (.file cursor (index + 1)) db 0)
        else match parseInt saved with
          | none => .error .badCursor
          | some fileCursor => .ok (.go (.row cursor index fileCursor) db 0)
    else .ok (.go (.tail cursor) db 0)
  | .row cursor index fileCursor, db =>
    match m.files[index]? with
    | none => .error .noRow
    | some origin =>
      match nextRow origin.events fileCursor with
      | none => .ok (.go (.file cursor (index + 1)) (db.setMeta (cursorKey index) "complete") 0)
      | some e => do
        let (_, db') ← migrateRow C m.backend origin (cursorKey index) (scanRecord e.1 e.2) db
        return .go (.row cursor index e.1) db' 1
  | .tail cursor, db =>
    -- the files are frozen, so their sizes and times have not changed
    if m.source.events.seq > cursor then
      .ok (.go .last { db with events := db.events.raiseSeq m.source.events.seq } 0)
    else .ok (.go .last db 0)
  | .last, db => .ok (.ret (db.setMeta "migration_complete" "1"))

/-- A call of `MigrateFrozen`. -/
def job : Job MigrateStage Db Err := ⟨.start, m.tick⟩

end Frozen

/-- `Activate`: a node refuses a destination whose migration is not complete. -/
def activate (db : Db) : Except Err Db :=
  match db.metadata.lookup "migration_source" with
  | none => .ok db
  | some _ =>
    if db.metadata.lookup "migration_complete" = some "1" then
      .ok (db.setMeta "migration_activated" "1")
    else .error .migrationIncomplete

/-! ### Runs -/

/-- The destination, the call in flight with the rows it has copied, and whether some call has
    returned. -/
structure Target where
  db : Db
  call : Option (MigrateStage × Nat) := none
  returned : Bool := false

/-- One transaction of a call, a new call, or an interruption of any kind; and a node that tries to
    start. -/
inductive Target.Step {C : Codec} (m : Frozen C) : Target → Target → Prop
  | call {s : Target} (hidle : s.call = none) : Step m s { s with call := some (m.job.start, 0) }
  | go {s : Target} {l l' : MigrateStage} {c n : Nat} {db' : Db} (hcall : s.call = some (l, c))
      (htick : m.tick l s.db = .ok (.go l' db' n)) :
      Step m s { s with db := db', call := some (l', c + n) }
  | ret {s : Target} {l : MigrateStage} {c : Nat} {db' : Db} (hcall : s.call = some (l, c))
      (htick : m.tick l s.db = .ok (.ret db')) :
      Step m s { db := db', call := none, returned := true }
  | interrupt {s : Target} : Step m s { s with call := none }
  | activate {s : Target} {db' : Db} (h : Queue.activate s.db = .ok db') :
      Step m s { s with db := db' }

/-- A destination no migration has touched. -/
structure Fresh (C : Codec) (db : Db) : Prop where
  intact : Intact C db
  source : db.metadata.lookup "migration_source" = none
  backend : db.metadata.lookup "migration_backend" = none
  cursor : db.metadata.lookup "migration_cursor" = none
  complete : db.metadata.lookup "migration_complete" = none
  activated : db.metadata.lookup "migration_activated" = none
  files : ∀ i, db.metadata.lookup (cursorKey i) = none

end TaNode.Queue

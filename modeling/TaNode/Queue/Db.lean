import Mathlib.Data.List.Sort
import TaNode.Queue.Content
import TaNode.Schemes.Glob

/-! One queue database: the tables of `SQLiteQueue.init` and the transactions on them.

    `event_queue` carries its own constraints: ids are a primary key that `AUTOINCREMENT` never
    hands out twice, and `event_id` is unique. Every operation is one SQL transaction, so it either
    returns the next database or fails and leaves the old one. The clock is an argument. -/

namespace TaNode.Queue

/-! ### Rows -/

/-- A row of `event_queue`, without its id. The last three columns may be `NULL`. -/
structure Row where
  key : String
  time : Nat
  payload : Bytes
  status : Int
  retry : Int := 0
  error : Option String := none
  created : Option Int := none
  updated : Option Int := none
  deriving DecidableEq

/-- The Go `record`: a row as `recordColumns` selects it, `NULL` replaced. -/
structure Record where
  id : Int
  key : String
  time : Nat
  payload : Bytes
  status : Int
  retry : Int
  error : String
  created : Int
  updated : Int
  deriving DecidableEq

def scanRecord (id : Int) (r : Row) : Record where
  id := id
  key := r.key
  time := r.time
  payload := r.payload
  status := r.status
  retry := r.retry
  error := r.error.getD ""
  created := r.created.getD 0
  updated := r.updated.getD 0

/-- The row `insertRecord` writes. -/
def Record.toRow (r : Record) : Row :=
  ⟨r.key, r.time, r.payload, r.status, r.retry, some r.error, some r.created, some r.updated⟩

/-- `event_queue` with its entry of `sqlite_sequence`, the largest id ever handed out. -/
structure EventQueue where
  rows : Table Int Row := ∅
  seq : Int := 0
  unique : ∀ i j r s, rows.lookup i = some r → rows.lookup j = some s → r.key = s.key → i = j := by
    simp
  le_seq : ∀ i r, rows.lookup i = some r → i ≤ seq := by simp
  seq_nonneg : 0 ≤ seq := by decide

namespace EventQueue

def hasKey (q : EventQueue) (key : String) : Bool := q.rows.entries.any fun e => e.2.key == key

theorem hasKey_iff {q : EventQueue} {key : String} :
    q.hasKey key = true ↔ ∃ id r, q.rows.lookup id = some r ∧ r.key = key :=
  (Table.any_iff (p := fun (_ : Int) (r : Row) => r.key == key)).trans (by simp)

/-- `INSERT` of a row under an id that is not in use. -/
def put (q : EventQueue) (id : Int) (row : Row) (hid : q.rows.lookup id = none)
    (hkey : q.hasKey row.key = false) : EventQueue where
  rows := q.rows.insert id row
  seq := max q.seq id
  unique i j r s hi hj hrs := by
    have hfresh : ∀ k t, q.rows.lookup k = some t → t.key ≠ row.key := by
      intro k t ht he
      rw [Bool.eq_false_iff, Ne, hasKey_iff] at hkey
      exact hkey ⟨k, t, ht, he⟩
    rw [Table.lookup_insert_iff] at hi hj
    rcases hi with ⟨rfl, rfl⟩ | ⟨-, hi⟩ <;> rcases hj with ⟨rfl, rfl⟩ | ⟨-, hj⟩
    · rfl
    · exact absurd hrs.symm (hfresh _ _ hj)
    · exact absurd hrs (hfresh _ _ hi)
    · exact q.unique i j r s hi hj hrs
  le_seq i r hi := by
    rw [Table.lookup_insert_iff] at hi
    rcases hi with ⟨rfl, rfl⟩ | ⟨-, hi⟩
    · exact le_max_right _ _
    · exact (q.le_seq i r hi).trans (le_max_left _ _)
  seq_nonneg := q.seq_nonneg.trans (le_max_left _ _)

/-- An id above every one in use is free. -/
theorem lookup_succ_seq (q : EventQueue) : q.rows.lookup (q.seq + 1) = none := by
  rw [Option.eq_none_iff_forall_ne_some]
  intro r hr
  have := q.le_seq _ r hr
  omega

/-- The largest row id of SQLite. -/
def maxRowId : Int := 2 ^ 63 - 1

/-- `INSERT` without an id. -/
def insertNew (q : EventQueue) (row : Row) : Except Err EventQueue :=
  if hkey : q.hasKey row.key = false then
    if q.seq ≥ maxRowId then .error .full
    else .ok (q.put (q.seq + 1) row q.lookup_succ_seq hkey)
  else .error .constraint

/-- `INSERT` with an id. -/
def insertWithId (q : EventQueue) (id : Int) (row : Row) : Except Err EventQueue :=
  if hkey : q.hasKey row.key = false then
    match hid : q.rows.lookup id with
    | none => .ok (q.put id row hid hkey)
    | some _ => .error .constraint
  else .error .constraint

/-- `UPDATE … WHERE p` of columns other than `event_id`. -/
def update (q : EventQueue) (p : Row → Bool) (set : Row → Row) (hset : ∀ r, (set r).key = r.key) :
    EventQueue where
  rows := q.rows.update fun _ r => if p r then set r else r
  seq := q.seq
  unique i j r s hi hj hrs := by
    have hkey : ∀ r, (if p r then set r else r).key = r.key := by
      intro r; split_ifs <;> simp [hset]
    rw [Table.lookup_update, Option.map_eq_some_iff] at hi hj
    obtain ⟨r', hr', rfl⟩ := hi
    obtain ⟨s', hs', rfl⟩ := hj
    rw [hkey, hkey] at hrs
    exact q.unique i j r' s' hr' hs' hrs
  le_seq i r hi := by
    rw [Table.lookup_update, Option.map_eq_some_iff] at hi
    obtain ⟨r', hr', -⟩ := hi
    exact q.le_seq i r' hr'
  seq_nonneg := q.seq_nonneg

/-- `DELETE … WHERE p`; the sequence keeps its value. -/
def deleteWhere (q : EventQueue) (p : Int → Row → Bool) : EventQueue where
  rows := q.rows.deleteWhere p
  seq := q.seq
  unique i j r s hi hj := by
    rw [Table.lookup_deleteWhere] at hi hj
    exact q.unique i j r s hi.1 hj.1
  le_seq i r hi := q.le_seq i r (Table.lookup_deleteWhere.mp hi).1
  seq_nonneg := q.seq_nonneg

/-- `UPDATE sqlite_sequence SET seq=max(seq,?)`. -/
def raiseSeq (q : EventQueue) (n : Int) : EventQueue where
  rows := q.rows
  seq := max q.seq n
  unique := q.unique
  le_seq i r hi := (q.le_seq i r hi).trans (le_max_left _ _)
  seq_nonneg := q.seq_nonneg.trans (le_max_left _ _)

/-- Rows that satisfy `p`, in the order of their ids. -/
def select (q : EventQueue) (p : Row → Bool) : List ((_ : Int) × Row) :=
  (q.rows.entries.filter fun e => p e.2).insertionSort fun a b => a.1 ≤ b.1

end EventQueue

/-- A queue database. -/
structure Db where
  events : EventQueue := {}
  /-- `queue_content` and `queue_edges` -/
  content : Store := {}
  summary : Table String Bytes := ∅
  roots : Table String String := ∅
  /-- `queue_archived`: the segment and row id of an archived key -/
  archived : Table String (String × Int) := ∅
  /-- `queue_archives`: the smallest and largest id of a segment -/
  archives : Table String (Int × Int) := ∅
  /-- `queue_archive_pending` -/
  pending : Table String Unit := ∅
  metadata : Table String String := ∅

/-- A database right after `OpenSQLite` has created it. -/
def newDb : Db := { metadata := (∅ : Table String String).insert "storage_schema" "2" }

/-- The storage backend of new payloads. -/
inductive Backend where
  | v2 | legacy
  deriving DecidableEq

/-- The unique key of a record: one row for each context revision of an event. -/
def queueRecordID (eventID : String) (contextRevision : Nat) : String :=
  if contextRevision ≤ 1 then eventID
  else eventID ++ "@revision:" ++ toString contextRevision

/-! ### Marking -/

/-- `UPDATE event_queue SET … WHERE event_id=?` -/
def Db.updateKey (db : Db) (key : String) (set : Row → Row) (hset : ∀ r, (set r).key = r.key) : Db :=
  { db with events := db.events.update (fun r => r.key == key) set hset }

def markPushed (eventID : String) (contextRevision : Nat) (now : Int) (db : Db) : Db :=
  db.updateKey (queueRecordID eventID contextRevision)
    (fun r => { r with status := 2, error := some "", updated := some now }) fun _ => rfl

def markFailed (eventID : String) (contextRevision : Nat) (errMsg : String) (now : Int) (db : Db) :
    Db :=
  db.updateKey (queueRecordID eventID contextRevision)
    (fun r => { r with
      status := 3, retry := r.retry + 1, error := some errMsg, updated := some now }) fun _ => rfl

/-! ### Administration -/

/-- `globEscaper`: the three special characters become sets. -/
def globEscaper (s : String) : List Char := s.toList.flatMap globQuote

/-- The pattern of the revisions of an event. -/
def revisionPattern (eventID : String) : List Char := globEscaper eventID ++ "@revision:*".toList

/-- `event_id=? OR event_id GLOB ?` -/
def matchesEvent (eventID key : String) : Bool :=
  key == eventID || glob (revisionPattern eventID) key.toList

def validEventID (eventID : String) : Bool := eventID ≠ "" && eventID.utf8ByteSize ≤ 512

/-- `RowsAffected` of a statement on `event_queue`. -/
def EventQueue.count (q : EventQueue) (p : Row → Bool) : Nat := (q.rows.entries.filter (p ·.2)).length

/-- The `UPDATE` of `RequeueEvent` on one database file. -/
def requeueIn (eventID : String) (now : Int) (db : Db) : Nat × Db :=
  (db.events.count fun r => matchesEvent eventID r.key,
    { db with
      events := db.events.update (fun r => matchesEvent eventID r.key)
        (fun r => { r with status := 0, retry := 0, error := some "", updated := some now })
        fun _ => rfl })

/-- The transaction of `DeleteEvent` on one database file. -/
def deleteEventFrom (eventID : String) (db : Db) : Nat × Db :=
  (db.events.count fun r => matchesEvent eventID r.key,
    { db with
      summary := db.summary.deleteWhere fun key _ => matchesEvent eventID key
      roots := db.roots.deleteWhere fun key _ => matchesEvent eventID key
      events := db.events.deleteWhere fun _ r => matchesEvent eventID r.key })

/-- Runs an administrative statement on every shard file; no affected row at all is an error, after
    the statements have run. -/
def onShards (eventID : String) (stmt : Db → Nat × Db) (files : List Db) :
    List Db × Except Err Nat :=
  if validEventID eventID then
    let total := (files.map fun db => (stmt db).1).sum
    (files.map fun db => (stmt db).2, if total = 0 then .error .noRow else .ok total)
  else (files, .error .invalidEventID)

def requeueEvent (eventID : String) (now : Int) : List Db → List Db × Except Err Nat :=
  onShards eventID (requeueIn eventID now)

def deleteEvent (eventID : String) : List Db → List Db × Except Err Nat :=
  onShards eventID (deleteEventFrom eventID)

section
variable (C : Codec)

/-! ### Inserting -/

def saveSummary (key : String) (ev : ThreatEvent) : Tx Db Err Unit :=
  match marshal C.toJson (summarize ev).toValue with
  | none => throw .json
  | some b => modify fun db => { db with summary := db.summary.insert key b }

def registerRoot (key : String) (payload : Bytes) : Tx Db Err Unit := do
  let root ← liftM (payloadRoot C payload)
  if root = "" then return ()
  else modify fun db => { db with roots := db.roots.insert key root }

/-- The payload of a new event: its JSON text, or a manifest after storing it. -/
def newPayload (backend : Backend) (ev : ThreatEvent) : Tx Db Err Bytes := fun db =>
  match backend with
  | .legacy => match marshal C.toJson ev.toValue with
    | none => .error .json
    | some b => .ok (b, db)
  | .v2 => do
    let (payload, content) ← encodePayload C ev.toValue db.content
    return (payload, { db with content := content })

/-- `database/sql` refuses a time with its high bit set, the table a duplicate. -/
def insertRow (insert : EventQueue → Except Err EventQueue) (time : Nat) : Tx Db Err Unit :=
  fun db =>
    if time ≥ 2 ^ 63 then .error .uintHighBit
    else do
      let events ← insert db.events
      return ((), { db with events := events })

/-- The row of a new event. -/
def newRow (now : Int) (ev : ThreatEvent) (payload : Bytes) : Row where
  key := queueRecordID ev.eventID ev.contextRevision
  time := ev.eventTime
  payload := payload
  status := 0
  created := some now
  updated := some now

/-- `Enqueue`: a record that is archived or queued already is left alone. -/
def enqueue (backend : Backend) (now : Int) (ev : ThreatEvent) : Tx Db Err Unit := do
  let key := queueRecordID ev.eventID ev.contextRevision
  let db ← get
  if (db.archived.lookup key).isSome then return ()
  else if db.events.hasKey key then return ()
  else do
    let payload ← newPayload C backend ev
    insertRow (·.insertNew (newRow now ev payload)) ev.eventTime
    saveSummary C key ev
    registerRoot C key payload

/-- Decodes the payload of a row that is being inserted. -/
def readPayload (payload : Bytes) : Tx Db Err ThreatEvent := fun db => do
  let b ← decodePayload C db.content.objects payload
  match C.unmarshalEvent b with
  | none => .error .json
  | some ev => .ok (ev, db)

def insertRecord (r : Record) : Tx Db Err Unit := do
  insertRow (·.insertWithId r.id r.toRow) r.time
  let ev ← readPayload C r.payload
  saveSummary C r.key ev
  registerRoot C r.key r.payload

/-- Copies a record, its payload read from the tables of another database. -/
def copyRecord (src : Table String Stored) (r : Record) : Tx Db Err Unit := do
  let payload ← (fun db => do
    let (payload, content) ← copyPayload C src r.payload db.content
    return (payload, { db with content := content }) : Tx Db Err Bytes)
  insertRecord C { r with payload := payload }

/-! ### Loading -/

def loadEvent (id : Int) (db : Db) : Except Err ThreatEvent :=
  match db.events.rows.lookup id with
  | none => .error .noRow
  | some row => do
    let b ← decodePayload C db.content.objects row.payload
    match C.unmarshalEvent b with
    | none => .error .json
    | some ev => .ok ev

/-- Two texts decode to values with the same canonical text. -/
def jsonEqual (a b : Bytes) : Bool :=
  match C.decodeAny a, C.decodeAny b with
  | some va, some vb => marshal C.toJson va == marshal C.toJson vb
  | _, _ => false

end

/-! ### Archive publication -/

/-- The record must be as it was when it was selected. -/
def checkCurrent (r : Record) : Tx Db Err Unit := do
  match (← get).events.rows.lookup r.id with
  | none => throw .noRow
  | some row =>
    let current := scanRecord r.id row
    if current.key ≠ r.key ∨ current.status ≠ r.status ∨ current.retry ≠ r.retry ∨
        current.updated ≠ r.updated ∨ current.created ≠ r.created ∨ current.error ≠ r.error then
      throw (.sourceChanged r.id)
    else return ()

def insertArchive (path : String) (lo hi : Int) : Tx Db Err Unit := do
  if ((← get).archives.lookup path).isSome then throw .constraint
  else modify fun db => { db with archives := db.archives.insert path (lo, hi) }

/-- Catalogs one record and removes it from the live tables. -/
def moveOut (path : String) (r : Record) : Tx Db Err Unit := do
  if ((← get).archived.lookup r.key).isSome then throw .constraint
  else modify fun db => { db with
    archived := db.archived.insert r.key (path, r.id)
    summary := db.summary.erase r.key
    roots := db.roots.erase r.key
    events := db.events.deleteWhere fun id row => id == r.id && row.status == 2 }

/-- The publication transaction of `Archive`. -/
def publish (path : String) (first : Record) (rest : List Record) : Tx Db Err Unit := do
  (first :: rest).forM checkCurrent
  insertArchive path first.id ((first :: rest).getLast (by simp)).id
  (first :: rest).forM (moveOut path)

/-! ### Garbage collection -/

/-- Neither an event root nor a referenced child. -/
def unreferenced (db : Db) (id : String) : Bool :=
  (db.content.objects.lookup id).isSome &&
    !(db.roots.entries.any fun e => e.2 == id) && decide (∀ e ∈ db.content.edges, e.2 ≠ id)

/-- Deletes one node and the edges from it. -/
def removeNode (db : Db) (id : String) : Db :=
  { db with content := {
      objects := db.content.objects.erase id
      edges := db.content.edges.filter fun e => e.1 ≠ id } }

/-- One pass: deletes up to `limit` unreferenced nodes. `SELECT` without `ORDER BY` may list them in
    any order, here the one of `scan`. -/
def collectPass (scan : Store → List String) (limit : Nat) (db : Db) : Nat × Db :=
  let ids := ((scan db.content).filter (unreferenced db)).take limit
  (ids.length, ids.foldl removeNode db)

/-- `for removed < limit`; a pass that finds nothing ends the loop, so `limit` passes suffice. -/
def collectLoop (scan : Store → List String) : Nat → Nat → Db → Nat × Db
  | 0, _, db => (0, db)
  | fuel + 1, limit, db =>
    if limit = 0 then (0, db)
    else
      let (n, db') := collectPass scan limit db
      if n = 0 then (0, db)
      else
        let (m, db'') := collectLoop scan fuel (limit - n) db'
        (n + m, db'')

def collect (scan : Store → List String) (limit : Int) (db : Db) : Nat × Db :=
  let limit := if limit ≤ 0 then 1000 else limit.toNat
  collectLoop scan limit limit db

end TaNode.Queue

import TaNode.Parser.Feature
import TaNode.Queue.Reader
import TaNode.Schemes.Front

/-! The listings of the queue: `recentRecords` gives the newest rows of one database and its
    segments, `ListPushLogs` and `recentPushLogs` the push log over every shard file.

    All of them read a bounded number of rows of each file, merge what they read and cut the result:

        file ──WHERE, ORDER BY, LIMIT──▶ rows ──decodePayload──▶ records
        records of all files ──sort.Slice──▶ one list ──one row an event──▶ page

    `sort.Slice` is not stable, so the order of rows that compare equal is open here as well. The
    disk stays as it is during a listing. -/

namespace TaNode.Queue

/-! ### Rows of one file -/

/-- `LIMIT n`; a negative number is no limit. -/
def sqlLimit {α : Type} (n : Int) (xs : List α) : List α := if n < 0 then xs else xs.take n.toNat

/-- A row with the payload `summaryColumns` selects: the summary where there is one. -/
def Database.listed (d : Database) (summary : Bool) (row : Row) : Row :=
  if summary && d.hasSummary then
    { row with payload := (d.db.summary.lookup row.key).getD row.payload }
  else row

/-- The segments of `queue_archives` with their largest id, `ORDER BY max_id DESC`. -/
def Database.locations (d : Database) : List (String × Int) :=
  if d.hasArchives then
    (d.db.archives.entries.insertionSort fun a b => b.2.2 ≤ a.2.2).map fun e => (e.1, e.2.2)
  else []

/-- `ORDER BY updated_at DESC, id DESC`, where `NULL` is the smallest value. -/
def updatedFirst (a b : (_ : Int) × Row) : Bool :=
  match a.2.updated, b.2.updated with
  | some x, some y => y < x || (x == y && b.1 ≤ a.1)
  | some _, none => true
  | none, some _ => false
  | none, none => b.1 ≤ a.1

section
variable (R : ReadCodec)

/-- A record with its payload decoded in the database it comes from. -/
def decodeRecord (d : Database) (r : Record) : Except ReadErr Record := do
  let b ← fromQueue (decodePayload R.toCodec d.db.content.objects r.payload)
  return { r with payload := b }

/-! ### Recent history -/

/-- `SELECT … ORDER BY id DESC LIMIT ?` and the decoded payloads. -/
def newestRecords (d : Database) (summary : Bool) (limit : Int) : Except ReadErr (List Record) :=
  let rows := sqlLimit limit (d.db.events.rows.entries.insertionSort fun a b => b.1 ≤ a.1)
  (rows.map fun e => scanRecord e.1 (d.listed summary e.2)).mapM (decodeRecord R d)

/-- `len(out) >= limit && p.maxID < out[len(out)-1].ID` -/
def reachesBack (limit maxID : Int) (out : List Record) : Except ReadErr Bool :=
  if limit ≤ out.length then
    match out.getLast? with
    | none => .error .sliceBounds
    | some r => .ok (maxID < r.id)
  else .ok false

/-- The descending order of ids. -/
def idLess (a b : Record) : Bool := b.id < a.id

/-- The loop of `recentRecords` over the segments. -/
def mergeSegments (S : Sorter Record) (disk : Disk) (limit : Int) (summary : Bool) :
    List (String × Int) → List Record → Except ReadErr (List Record)
  | [], out => .ok out
  | (path, maxID) :: rest, out => do
    if ← reachesBack limit maxID out then .ok out
    else
      let d ← disk.openFile path
      let part ← newestRecords R d summary limit
      mergeSegments S disk limit summary rest ((S.sort idLess (out ++ part)).take limit.toNat)

def recentRecords (S : Sorter Record) (disk : Disk) (path : String) (limit : Int) (summary : Bool) :
    Except ReadErr (List Record) := do
  let d ← disk.openFile path
  let out ← newestRecords R d summary limit
  mergeSegments R S disk limit summary d.locations out

/-! ### The push log -/

/-- An entry of the push log. -/
structure PushLog where
  eventID : String
  eventTime : Nat
  occurredAt : Int := 0
  createdAt : Int
  eventName : String := ""
  severity : String := ""
  iocType : String := ""
  iocValue : String := ""
  srcIP : String := ""
  srcPort : Nat := 0
  dstIP : String := ""
  dstPort : Nat := 0
  rawPacket : Option RawPacketContext := none
  sessionID : String := ""
  transactionID : String := ""
  contextRevision : Nat := 0
  contextFinal : Bool := false
  exchange : Option ExchangeContext := none
  sessionSummary : Option SessionSummary := none
  status : String := ""
  retryCount : Int
  lastError : String
  updatedAt : Int
  deriving DecidableEq

def pushStatusName (status : Int) : String :=
  if status = 0 then "pending"
  else if status = 2 then "pushed"
  else if status = 3 then "failed"
  else "unknown"

/-- The part of an entry that comes from the row alone. -/
def PushLog.ofRow (rec : Record) : PushLog where
  eventID := rec.key
  eventTime := rec.time
  retryCount := rec.retry
  lastError := rec.error
  createdAt := rec.created
  updatedAt := rec.updated

/-- Fills in what the payload says. -/
def PushLog.withEvent (log : PushLog) (ev : ThreatEvent) : PushLog :=
  { log with
    eventID := ev.eventID, eventName := ev.eventName, severity := ev.severity
    iocType := ev.iocType, iocValue := ev.iocValue, srcIP := ev.srcIP, srcPort := ev.srcPort
    dstIP := ev.dstIP, dstPort := ev.dstPort, rawPacket := ev.rawPacket, sessionID := ev.sessionID
    transactionID := ev.transactionID, contextRevision := ev.contextRevision
    contextFinal := ev.contextFinal, exchange := ev.exchange, sessionSummary := ev.sessionSummary }

/-- The times and the status name. -/
def PushLog.finish (log : PushLog) (status now : Int) : PushLog :=
  let occurred : Int := (log.eventTime / 1000000 : Nat)
  { log with
    occurredAt := if occurred = 0 then log.createdAt else occurred
    status := pushStatusName status
    updatedAt := if log.updatedAt = 0 then now else log.updatedAt }

/-- The entry of a row, with the event id when the payload is an event. -/
def pushLogFromRecord (now : Int) (rec : Record) (summary : Bool) : PushLog × Option String :=
  match R.unmarshalEvent rec.payload with
  | none => ((PushLog.ofRow rec).finish rec.status now, none)
  | some ev =>
    let ev := if summary then summarize ev else ev
    (((PushLog.ofRow rec).withEvent ev).finish rec.status now, some ev.eventID)

/-- The loop that keeps the first row of each event; a row that is no event is kept as it is. -/
def collapse (now : Int) (summary : Bool) : List Record → List String → List PushLog
  | [], _ => []
  | rec :: rest, seen =>
    match pushLogFromRecord R now rec summary with
    | (log, none) => log :: collapse now summary rest seen
    | (log, some key) =>
      if key ∈ seen then collapse now summary rest seen
      else log :: collapse now summary rest (key :: seen)

/-- Newest push attempt first, then newest row. -/
def recentLess (a b : Record) : Bool :=
  if a.updated ≠ b.updated then b.updated < a.updated else b.created < a.created

/-- The records of every shard file, one after the other. -/
def recentOfShards (S : Sorter Record) (disk : Disk) (limit : Int) (summary : Bool) :
    List String → Except ReadErr (List Record)
  | [] => .ok []
  | path :: paths => do
    let recs ← recentRecords R S disk path limit summary
    let rest ← recentOfShards S disk limit summary paths
    return recs ++ rest

/-- `os.Stat` of a path. -/
def Disk.stat (disk : Disk) (path : String) : Except ReadErr Unit :=
  match disk.openFile path with
  | .error (.stat p) => .error (.stat p)
  | _ => .ok ()

/-- A page size outside `1..200` is replaced. -/
def pageLimit (limit : Int) : Int := if limit ≤ 0 ∨ limit > 200 then 50 else limit

def recentPushLogs (S : Sorter Record) (disk : Disk) (path : String) (limit now : Int)
    (summary : Bool) : Except ReadErr (List PushLog) := do
  let limit := pageLimit limit
  disk.stat path
  let records ← recentOfShards R S disk (limit * 4) summary (shardPaths disk path)
  let records := (S.sort recentLess records).take (limit * 4).toNat
  -- the loop stops at the first full page
  return (collapse R now summary records []).take limit.toNat

/-! ### Pages of the push log -/

structure PushLogQuery where
  offset : Int := 0
  limit : Int := 0
  status : String := ""
  search : Bytes := []
  deriving DecidableEq

def fetchBuffer : Int := 4

def maxFetch : Int := 20000

/-- `likeEscaper` -/
def likeEscape (s : Bytes) : Bytes :=
  s.flatMap fun c => if c = 92 ∨ c = 37 ∨ c = 95 then [92, c] else [c]

/-- `LIKE` does not tell the case of ASCII letters. -/
def foldCase (c : UInt8) : UInt8 := if 65 ≤ c ∧ c ≤ 90 then c + 32 else c

/-- `LIKE … ESCAPE '\'` of SQLite: `%` for any text, `_` for one character. -/
def likeMatch : Bytes → Bytes → Bool
  | [], text => text.isEmpty
  | 37 :: pattern, text => text.tails.any fun rest => likeMatch pattern rest
  | 92 :: c :: pattern, d :: text => foldCase c == foldCase d && likeMatch pattern text
  | 95 :: pattern, _ :: text => likeMatch pattern text
  | c :: pattern, d :: text => foldCase c == foldCase d && likeMatch pattern text
  | _ :: _, [] => false

/-- The `WHERE` clause of a listing; the row has the payload column that is selected. -/
def selects (status : Option Int) (search : Bytes) (row : Row) : Bool :=
  status.all (row.status == ·) &&
    (search.isEmpty ||
      let like := 37 :: likeEscape search ++ [37]
      likeMatch like (utf8 row.key) || likeMatch like row.payload)

/-- The matching rows of one database, at most `fetch` of them. -/
def fetchRows (d : Database) (status : Option Int) (search : Bytes) (fetch : Int) : List Record :=
  let rows := d.db.events.rows.entries.filter fun e => selects status search (d.listed true e.2)
  (sqlLimit fetch (rows.insertionSort fun a b => updatedFirst a b)).map fun e =>
    scanRecord e.1 (d.listed true e.2)

/-- `queryDBRecords`: the rows decoded, and the segments of the catalog. -/
def queryDBRecords (d : Database) (status : Option Int) (search : Bytes) (fetch : Int) :
    Except ReadErr (List Record × List String) := do
  let out ← (fetchRows d status search fetch).mapM (decodeRecord R d)
  return (out, if d.hasArchives then d.db.archives.entries.map (·.1) else [])

/-- The loop of `queryShardRecords` over the segments. -/
def querySegments (disk : Disk) (status : Option Int) (search : Bytes) (fetch : Int) :
    List String → Except ReadErr (List Record × Bool)
  | [] => .ok ([], false)
  | path :: paths => do
    let d ← disk.openFile path
    let (part, _) ← queryDBRecords R d status search fetch
    let (rest, capped) ← querySegments disk status search fetch paths
    return (part ++ rest, part.length == fetch || capped)

def queryShardRecords (disk : Disk) (status : Option Int) (search : Bytes) (fetch : Int)
    (path : String) : Except ReadErr (List Record × Bool) := do
  let d ← disk.openFile path
  let (out, archives) ← queryDBRecords R d status search fetch
  let (rest, capped) ← querySegments R disk status search fetch archives
  return (out ++ rest, out.length == fetch || capped)

/-- The records of every shard file, and whether a file had more to give. -/
def queryShards (disk : Disk) (status : Option Int) (search : Bytes) (fetch : Int) :
    List String → Except ReadErr (List Record × Bool)
  | [] => .ok ([], false)
  | path :: paths => do
    let (recs, hit) ← queryShardRecords R disk status search fetch path
    let (rest, capped) ← queryShards disk status search fetch paths
    return (recs ++ rest, hit || capped)

/-- The order of the push log. -/
def pushLess (a b : Record) : Bool :=
  if a.updated ≠ b.updated then b.updated < a.updated
  else if a.created ≠ b.created then b.created < a.created
  else b.id < a.id

/-- The status a query asks for. -/
def statusFilter (status : String) : Except ReadErr (Option Int) :=
  if status = "" then .ok none
  else if status = "pending" then .ok (some 0)
  else if status = "pushed" then .ok (some 2)
  else if status = "failed" then .ok (some 3)
  else .error (.unknownStatus status)

/-- The sum of an offset and a limit, a Go `int`. -/
def pageEnd (offset limit : Int) : Int := (offset + limit).bmod (2 ^ 64)

/-- How many rows a page reads of each file. -/
def fetchSize (offset limit : Int) : Int :=
  let fetch := (pageEnd offset limit * fetchBuffer).bmod (2 ^ 64)
  if fetch > maxFetch then maxFetch else fetch

/-- The listing a page is cut from. -/
def pushEntries (S : Sorter Record) (now : Int) (records : List Record) : List PushLog :=
  collapse R now true (S.sort pushLess records) []

def listPushLogs (S : Sorter Record) (disk : Disk) (path : String) (now : Int)
    (query : PushLogQuery) : Except ReadErr (List PushLog × Bool) := do
  let limit := pageLimit query.limit
  let offset := max query.offset 0
  disk.stat path
  let status ← statusFilter query.status
  let (records, capped) ← queryShards R disk status (trimSpace query.search)
    (fetchSize offset limit) (shardPaths disk path)
  let logs := pushEntries R S now records
  let hasMore := capped || logs.length > pageEnd offset limit
  if offset ≥ logs.length then return ([], hasMore)
  else return ((logs.take (pageEnd offset limit).toNat).drop offset.toNat, hasMore)

end

end TaNode.Queue

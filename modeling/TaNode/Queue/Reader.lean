import TaNode.Queue.Archive
import TaNode.Schemes.Looks

/-! The read-only side of the queue: `ReadEvent` returns one event, `ReadPacketRange` a slice of its
    raw packet. Neither takes a lock of the writer.

    Both look for a key in the same places, each look a read transaction of its own:

        event_queue ──no row──▶ queue_archived ──path──▶ segment file ──▶ event_queue

    They differ in what they read of a payload. `ReadEvent` rebuilds the whole JSON text;
    `rangeFromPayload` descends through the members `raw_packet` and `packet_hex` only and, when the
    packet is stored in chunks, opens just those that overlap the range. They also differ in the
    files they visit: `ReadEvent` opens the base path, `ReadPacketRange` every path of
    `shardPaths`. -/

namespace TaNode.Queue

/-! ### Errors and files -/

/-- Errors of the readers. -/
inductive ReadErr where
  /-- `os.Stat` of a path -/
  | stat (path : String)
  /-- the file is no SQLite database -/
  | notADatabase (path : String)
  | queue (e : Err)
  /-- `expected JSON object` -/
  | expectedObject
  | invalidChunkSize
  /-- slice bounds out of range, a panic in the source -/
  | sliceBounds
  /-- an error of `hex.DecodeString` -/
  | hex
  /-- `offset exceeds packet length` -/
  | offsetExceeds
  | invalidRange
  /-- `unknown status %q` -/
  | unknownStatus (status : String)
  deriving DecidableEq

/-- `sql.ErrNoRows`. -/
def noRows : ReadErr := .queue .noRow

/-- `errors.Is(err, sql.ErrNoRows)`, which also sees through `read content %s: %w`. -/
def isMissing : ReadErr → Bool
  | .queue e => e.isMissing
  | _ => false

/-- The result says that there is no such record. -/
def Missing {α : Type} (r : Except ReadErr α) : Prop := ∃ e, r = .error e ∧ isMissing e = true

/-- A result of the storage format, its errors passed on. -/
def fromQueue {α : Type} : Except Err α → Except ReadErr α := Except.mapError .queue

/-- An open database file: its contents and whether `sqlite_master` lists the two archive tables and
    `queue_summary`. A file from before archiving has none of them. -/
structure Database where
  db : Db
  hasArchived : Bool := true
  hasArchives : Bool := true
  hasSummary : Bool := true

/-- What a reader has before it: the database it opened first, and the files it may open next. -/
structure View where
  main : Database
  file : String → Except ReadErr Database

/-- What the readers use of `encoding/json` beyond the storage format: `json.Unmarshal` into a
    `map[string]json.RawMessage`, into a string and into a bool. -/
structure ReadCodec extends Codec where
  unmarshalObject : Bytes → Option (String → Option Bytes)
  unmarshalString : Bytes → Option Bytes
  unmarshalBool : Bytes → Option Bool

/-- The row `SELECT … WHERE event_id=?` returns; there is at most one. -/
def Db.rowOf (db : Db) (key : String) : Option Row :=
  (db.events.rows.entries.find? fun e => e.2.key == key).map (·.2)

section
variable (R : ReadCodec)

/-! ### A slice of the packet -/

structure PacketRange where
  offset : Nat
  length : Nat
  totalLength : Nat
  packetHex : Bytes
  captureTruncated : Bool
  deriving DecidableEq

/-- A member of a JSON object in text form. -/
def textMember (json : Bytes) (key : String) : Except ReadErr Fragment :=
  match R.unmarshalObject json with
  | none => .error (.queue .json)
  | some obj => match obj key with
    | none => .error noRows
    | some v => .ok { json := v }

/-- Reads and decodes a stored node. -/
def openNode (db : Table String Stored) (id : String) : Except ReadErr ContentNode := do
  let raw ← fromQueue (readObject R.toCodec db id)
  fromQueue (decodeNode R.toCodec raw)

/-- Selects one member without expanding the others. -/
def child (db : Table String Stored) (f : Fragment) (key : String) : Except ReadErr Fragment :=
  if f.ref = "" then textMember R f.json key
  else do
    let n ← openNode R db f.ref
    match n.kind with
    | .object => match n.fields.find? (·.key == key) with
      | some m => .ok m.value
      | none => .error noRows
    | .json => textMember R n.data key
    | _ => .error .expectedObject

/-- `json.Unmarshal` of the text of a fragment. -/
def renderAs {α : Type} (db : Table String Stored) (unmarshal : Bytes → Option α) (f : Fragment) :
    Except ReadErr α := do
  let b ← fromQueue (render R.toCodec db 257 [] f)
  match unmarshal b with
  | none => .error (.queue .json)
  | some a => .ok a

/-- The flag of a packet, which is left out when it is false. -/
def captureTruncated (db : Table String Stored) (raw : Fragment) : Except ReadErr Bool :=
  match child R db raw "capture_truncated" with
  | .ok f => renderAs R db R.unmarshalBool f
  | .error e => if isMissing e then .ok false else .error e

/-- The first half of `rangeFromPayload`: the truncation flag and the `packet_hex` member. -/
def openPacket (db : Table String Stored) (payload : Bytes) : Except ReadErr (Bool × Fragment) := do
  let root ← fromQueue (payloadRoot R.toCodec payload)
  let raw ← child R db (if root = "" then { json := payload } else { ref := root }) "raw_packet"
  let truncated ← captureTruncated R db raw
  let field ← child R db raw "packet_hex"
  return (truncated, field)

/-- `c.Data[lo:hi]` for the part of a chunk that overlaps the range; `total` bytes come before it. -/
def sliceChunk (offset length total : Nat) (data : Bytes) : Except ReadErr Bytes :=
  let lo := offset - total
  let hi := min (offset + length - total) data.length
  if lo ≤ hi then .ok ((data.take hi).drop lo) else .error .sliceBounds

/-- The bytes a chunk of `n` bytes contributes; it is only read when it overlaps the range. -/
def chunkPart (db : Table String Stored) (offset length total n : Nat) (id : String) :
    Except ReadErr Bytes :=
  if offset < total + n ∧ offset + length > total then do
    let c ← openNode R db id
    if c.kind ≠ .bytes then .error (.queue .invalidBinaryChunk)
    else sliceChunk offset length total c.data
  else .ok []

/-- The loop over the chunks of a packet, with the sizes of `queue_content`. -/
def sliceChunks (db : Table String Stored) (offset length : Nat) :
    List String → Nat → Except ReadErr (Bytes × Nat)
  | [], total => .ok ([], total)
  | id :: ids, total =>
    match db.lookup id with
    | none => .error noRows
    | some row =>
      if row.size - 1 < 0 ∨ row.size - 1 > chunkBytes then .error .invalidChunkSize
      else do
        let n := (row.size - 1).toNat
        let part ← chunkPart R db offset length total n id
        let (rest, total) ← sliceChunks db offset length ids (total + n)
        return (part ++ rest, total)

/-- A packet that is stored as a JSON string. -/
def sliceText (db : Table String Stored) (offset length : Nat) (truncated : Bool) (f : Fragment) :
    Except ReadErr PacketRange := do
  let s ← renderAs R db R.unmarshalString f
  match hexDecode s with
  | none => .error .hex
  | some data =>
    if offset > data.length then .error .offsetExceeds
    else
      let stop := min (offset + length) data.length
      return ⟨offset, stop - offset, data.length, hexEncode ((data.take stop).drop offset), truncated⟩

/-- The second half of `rangeFromPayload`. -/
def slicePacket (db : Table String Stored) (offset length : Nat) (truncated : Bool)
    (f : Fragment) : Except ReadErr PacketRange :=
  if f.ref = "" then sliceText R db offset length truncated f
  else do
    let n ← openNode R db f.ref
    if n.kind = .hex then do
      let (data, total) ← sliceChunks R db offset length n.chunks 0
      if offset > total then .error .offsetExceeds
      else return ⟨offset, data.length, total, hexEncode data, truncated⟩
    else sliceText R db offset length truncated f

def rangeFromPayload (db : Table String Stored) (payload : Bytes) (offset length : Nat) :
    Except ReadErr PacketRange := do
  let (truncated, field) ← openPacket R db payload
  slicePacket R db offset length truncated field

/-! ### One database file -/

/-- `readRecords` for one key: the row and, in the same snapshot, its decoded payload. -/
def readRecord (db : Db) (key : String) : Except ReadErr (Option Bytes) :=
  match db.rowOf key with
  | none => .ok none
  | some row => (fromQueue (decodePayload R.toCodec db.content.objects row.payload)).map some

/-- The closure `read` of `readPacketRangeOne`. -/
def readRange (db : Db) (key : String) (offset length : Nat) : Except ReadErr PacketRange :=
  match db.rowOf key with
  | none => .error noRows
  | some row => rangeFromPayload R db.content.objects row.payload offset length

def unmarshalEvent (b : Bytes) : Except ReadErr ThreatEvent :=
  match R.unmarshalEvent b with
  | none => .error (.queue .json)
  | some ev => .ok ev

/-! ### Looking up a key -/

variable {σ α : Type} (view : σ → Except ReadErr View)

/-- One look; `view` fails when the database cannot be opened. -/
def observe (next : View → Looks σ (Except ReadErr α)) : Looks σ (Except ReadErr α) :=
  .look fun s => match view s with
    | .error e => .done (.error e)
    | .ok v => next v

/-- One look at a segment file. -/
def observeFile (path : String) (next : Database → Looks σ (Except ReadErr α)) :
    Looks σ (Except ReadErr α) :=
  observe view fun v => match v.file path with
    | .error e => .done (.error e)
    | .ok d => next d

/-- The loop of `ReadEvent` over segments: each is opened, then read. -/
def readSegments (key : String) : List String → Looks σ (Except ReadErr ThreatEvent)
  | [] => .done (.error noRows)
  | path :: paths =>
    observeFile view path fun _ => observeFile view path fun d =>
      match readRecord R d.db key with
      | .error e => .done (.error e)
      | .ok (some b) => .done (unmarshalEvent R b)
      | .ok none => readSegments key paths

/-- `ORDER BY max_id DESC`. -/
def archivePaths (db : Db) : List String :=
  (db.archives.entries.insertionSort fun a b => b.2.2 ≤ a.2.2).map (·.1)

/-- `ReadEvent`: the active table first, then the catalog. A database without `queue_archived` has
    its segments searched one by one. -/
def readEvent (key : String) : Looks σ (Except ReadErr ThreatEvent) :=
  observe view fun v => match readRecord R v.main.db key with
    | .error e => .done (.error e)
    | .ok (some b) => .done (unmarshalEvent R b)
    | .ok none => observe view fun v =>
      if v.main.hasArchived then
        observe view fun v => match v.main.db.archived.lookup key with
          | none => .done (.error noRows)
          | some (path, _) => readSegments R view key [path]
      else observe view fun v =>
        if v.main.hasArchives then
          observe view fun v => readSegments R view key (archivePaths v.main.db)
        else .done (.error noRows)

/-- The largest `int`. -/
def maxInt : Int := 2 ^ 63 - 1

def validRange (offset length : Int) : Bool :=
  !(offset < 0 || length < 1 || length > 65536 || offset > maxInt - length)

/-- Goes on with the segment of an archived key. -/
def readArchivedRange (key : String) (offset length : Nat) (e : ReadErr) :
    Looks σ (Except ReadErr PacketRange) :=
  observe view fun v =>
    if v.main.hasArchived then
      observe view fun v => match v.main.db.archived.lookup key with
        | none => .done (.error noRows)
        | some (path, _) => observeFile view path fun _ => observeFile view path fun d =>
          .done (readRange R d.db key offset length)
    else .done (.error e)

def readPacketRangeOne (key : String) (offset length : Int) : Looks σ (Except ReadErr PacketRange) :=
  if validRange offset length then
    observe view fun v => match readRange R v.main.db key offset.toNat length.toNat with
      | .ok r => .done (.ok r)
      | .error e =>
        if isMissing e then readArchivedRange R view key offset.toNat length.toNat e
        else .done (.error e)
  else .done (.error .invalidRange)

/-- The loop of `ReadPacketRange` over the shard files: the first answer other than a missing record
    counts. -/
def readPacketRangeIn (key : String) (offset length : Int) :
    ReadErr → List (σ → Except ReadErr View) → Looks σ (Except ReadErr PacketRange)
  | last, [] => .done (.error last)
  | _, view :: views => (readPacketRangeOne R view key offset length).bind fun
    | .ok r => .done (.ok r)
    | .error e => if isMissing e then readPacketRangeIn key offset length e views
      else .done (.error e)

end

/-! ### Shard files -/

/-- The disk as the read-only tools see it: the database behind a path, and `filepath.Glob`. -/
structure Disk where
  openFile : String → Except ReadErr Database
  glob : String → List String

/-- `strconv.Atoi` accepts the text: a sign, then digits, within 64 bits. -/
def isAtoi (s : String) : Bool :=
  let digits := match s.toList with
    | '+' :: rest | '-' :: rest => rest
    | cs => cs
  let n := digits.foldl (fun n c => 10 * n + (c.toNat - '0'.toNat)) 0
  !digits.isEmpty && digits.all Char.isDigit &&
    (if s.toList.head? = some '-' then n ≤ 2 ^ 63 else n < 2 ^ 63)

/-- The base database and its sibling shard files. -/
def shardPaths (disk : Disk) (path : String) : List String :=
  path :: (disk.glob (path ++ ".shard*")).filter fun m =>
    isAtoi (String.ofList (m.toList.drop (path ++ ".shard").length))

/-- `readOnly` of a path on the disk. -/
def Disk.view (path : String) (disk : Disk) : Except ReadErr View :=
  (disk.openFile path).map fun d => ⟨d, disk.openFile⟩

section
variable (R : ReadCodec)

/-- `ReadEvent` on a disk that stays as it is. -/
def readEventAt (disk : Disk) (path key : String) : Except ReadErr ThreatEvent :=
  (readEvent R (Disk.view path) key).run disk

/-- `ReadPacketRange` on a disk that stays as it is. -/
def readPacketRangeAt (disk : Disk) (path key : String) (offset length : Int) :
    Except ReadErr PacketRange :=
  (readPacketRangeIn R key offset length noRows ((shardPaths disk path).map Disk.view)).run disk

end

/-! ### First facts -/

variable {R : ReadCodec} {key : String}

theorem fromQueue_ok {α : Type} {x : Except Err α} {a : α} : fromQueue x = .ok a ↔ x = .ok a := by
  cases x <;> simp [fromQueue, Except.mapError]

theorem openNode_ok {db : Table String Stored} {id : String} {n : ContentNode}
    (h : openNode R db id = .ok n) :
    ∃ raw, readObject R.toCodec db id = .ok raw ∧ decodeNode R.toCodec raw = .ok n := by
  obtain ⟨raw, hraw, hn⟩ := except_bind_ok.mp h
  exact ⟨raw, fromQueue_ok.mp hraw, fromQueue_ok.mp hn⟩

/-- A row decoded. -/
def decodeRow (R : ReadCodec) (db : Db) (row : Row) : Except ReadErr ThreatEvent := do
  let b ← fromQueue (decodePayload R.toCodec db.content.objects row.payload)
  unmarshalEvent R b

theorem readRecord_of_row {db : Db} {row : Row} (h : db.rowOf key = some row) :
    readRecord R db key = (fromQueue (decodePayload R.toCodec db.content.objects row.payload)).map
      some := by
  rw [readRecord, h]

theorem readRecord_of_none {db : Db} (h : db.rowOf key = none) : readRecord R db key = .ok none := by
  rw [readRecord, h]

theorem readRange_of_row {db : Db} {row : Row} (h : db.rowOf key = some row) (offset length : Nat) :
    readRange R db key offset length =
      rangeFromPayload R db.content.objects row.payload offset length := by
  rw [readRange, h]

theorem readRange_of_none {db : Db} (h : db.rowOf key = none) (offset length : Nat) :
    readRange R db key offset length = .error noRows := by
  rw [readRange, h]

/-! ### Samples -/

/-- A reader of whole events. -/
def Codec.reader (C : Codec) : ReadCodec where
  toCodec := C
  unmarshalObject _ := none
  unmarshalString _ := none
  unmarshalBool _ := none

/-- A reader that knows the event and the objects in its text. -/
def sampleReader : ReadCodec where
  toCodec := Plain.codec fun _ => some packetEvent
  unmarshalObject b :=
    ([packetEvent.toValue, samplePacket.toValue].find? fun v => marshal Plain.json v == some b).map
      fun v name => (v.member name).bind (marshal Plain.json)
  unmarshalString b := some (b.tail.dropLast)
  unmarshalBool b := some (b == utf8 "true")

end TaNode.Queue

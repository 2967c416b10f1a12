import Mathlib.Data.Finset.Basic
import TaNode.Event.ThreatEvent
import TaNode.Schemes.Table

/-! The private storage format: a Merkle tree of JSON fragments and binary chunks, kept in the
    tables `queue_content` and `queue_edges`.

    Writing (`encode`, `save`) walks a value, cuts long strings into chunks, keeps small containers
    inline and stores every other node under the SHA-256 of its bytes. Reading (`render`) rebuilds
    the public JSON text from the root. `copyPayload` copies a stored tree into another database.

        value ──encode──▶ fragment {json | ref} ──save──▶ queue_content row + queue_edges rows
        manifest {"_ta_storage":2,"root":id} ──render──▶ JSON text -/

namespace TaNode.Queue

def chunkBytes : Nat := 4096

def maxObjectBytes : Nat := 16 * 2 ^ 20

/-- A piece of JSON: inline text, or the id of a stored node when `ref` is not empty. -/
structure Fragment where
  json : Bytes := []
  ref : String := ""
  deriving DecidableEq

structure Member where
  key : String
  value : Fragment
  deriving DecidableEq

/-- The names of the node kinds the writer produces. -/
def kindNames : List String := ["bytes", "json", "object", "array", "string", "hex"]

/-- A node kind; a name the writer never produces can only come from a foreign row. -/
inductive Kind where
  | bytes | json | object | array | string | hex
  | other (name : {s : String // s ∉ kindNames})
  deriving DecidableEq

structure ContentNode where
  kind : Kind
  data : Bytes := []
  fields : List Member := []
  items : List Fragment := []
  chunks : List String := []
  deriving DecidableEq

/-- The JSON object an `event_queue` payload holds in storage version 2. -/
structure Manifest where
  version : Int
  root : String
  deriving DecidableEq

/-- A row of `queue_content`, without its key. -/
structure Stored where
  codec : Int
  size : Int
  data : Bytes
  deriving DecidableEq

/-- Errors of the queue, one for each message of the source. -/
inductive Err where
  /-- `read content %s: sql: no rows` -/
  | missing (id : String)
  | invalidSize (size : Int)
  | sizeMismatch
  | unsupportedCodec (codec : Int)
  | zlib
  | decompressedSizeMismatch
  | checksumMismatch (id : String)
  /-- an error of `json.Marshal` or `json.Unmarshal` -/
  | json
  | exceedsBound
  | hashCollision
  /-- a violated primary key or unique constraint -/
  | constraint
  | invalidInlineJSON
  | excessiveNesting
  | invalidJSONContent
  | invalidBinaryChunk
  | invalidContentNode (kind : Kind)
  | unsupportedManifest
  | invalidContentGraph
  | noncanonical (id : String)
  /-- `database/sql` refuses a `uint64` with its high bit set -/
  | uintHighBit
  /-- `AUTOINCREMENT` has used the largest row id -/
  | full
  /-- `sql: no rows` for a row looked up by id or key -/
  | noRow
  | invalidEventID
  /-- `archive verification failed for %d` -/
  | verificationFailed (id : Int)
  /-- `source record changed during archive: %d` -/
  | sourceChanged (id : Int)
  | invalidArchivePath (path : String)
  /-- an index out of range, a panic in the source -/
  | noShard
  /-- `published archive missing` -/
  | archiveMissing (path : String)
  /-- `destination was activated by a node; refuse stale migration resume` -/
  | activated
  /-- `destination contains events without a migration cursor` -/
  | eventsWithoutCursor
  /-- `frozen source identity changed; refuse unsafe resume` -/
  | identityChanged
  /-- `migration backend changed` -/
  | backendChanged
  /-- a cursor that is no number -/
  | badCursor
  /-- `migration payload mismatch at %d` -/
  | payloadMismatch (id : Int)
  /-- `queue migration is incomplete; resume ta_queue before starting the node` -/
  | migrationIncomplete
  deriving DecidableEq

/-- The library functions the queue is built on: SHA-256 in hex, zlib, and `encoding/json` on the
    queue's own records. -/
structure Codec extends Json where
  sha256Hex : Bytes → String
  deflate : Bytes → Bytes
  inflate : Bytes → Option Bytes
  marshalNode : ContentNode → Option Bytes
  unmarshalNode : Bytes → Option ContentNode
  marshalManifest : Manifest → Bytes
  unmarshalManifest : Bytes → Option Manifest
  unmarshalEvent : Bytes → Option ThreatEvent

/-- A fragment as it comes back from `json.Marshal` and `json.Unmarshal`: an inline text is
    rewritten to its compact form, an absent one is left out. -/
def Fragment.compacted (J : Json) (f : Fragment) : Fragment :=
  { f with json := if f.json = [] then [] else J.compact f.json }

/-- A node as it comes back from `json.Marshal` and `json.Unmarshal`. -/
def ContentNode.compacted (J : Json) (n : ContentNode) : ContentNode :=
  { n with
    fields := n.fields.map fun m => { m with value := m.value.compacted J }
    items := n.items.map (Fragment.compacted J) }

/-- The fragments a node holds. -/
def ContentNode.children (n : ContentNode) : List Fragment := n.fields.map (·.value) ++ n.items

/-- What the storage format relies on: zlib round-trips, a digest has 64 hex digits, and
    `encoding/json` reads back the nodes and manifests it wrote, unless an inline text and the four
    brackets around it are too deep for its scanner. A node's text is an object, so it never starts
    with the zero byte that marks a binary chunk; the text of an event has no `_ta_storage`
    member. -/
structure Codec.Lawful (C : Codec) : Prop extends C.toJson.Lawful where
  inflate_deflate : ∀ b, C.inflate (C.deflate b) = some b
  sha256Hex_length : ∀ b, (C.sha256Hex b).utf8ByteSize = 64
  unmarshalNode_marshalNode : ∀ n raw, C.marshalNode n = some raw →
    (∀ c ∈ n.children, c.json = [] ∨ C.depth c.json + 4 ≤ maxNestingDepth) →
    C.unmarshalNode raw = some (n.compacted C.toJson)
  unmarshalNode_eq : ∀ n raw n', C.marshalNode n = some raw → C.unmarshalNode raw = some n' →
    n' = n.compacted C.toJson
  marshalNode_head : ∀ n raw, C.marshalNode n = some raw → raw.head? ≠ some 0
  unmarshalManifest_marshalManifest : ∀ root,
    C.unmarshalManifest (C.marshalManifest ⟨2, root⟩) = some ⟨2, root⟩
  unmarshalManifest_event : ∀ (ev : ThreatEvent) b m, marshal C.toJson ev.toValue = some b →
    C.unmarshalManifest b = some m → m.version = 0

/-- `queue_content` and `queue_edges`. -/
structure Store where
  objects : Table String Stored := ∅
  edges : Finset (String × String) := ∅

/-- The writer of one payload: the tables it writes to and the objects it has already seen. -/
structure ObjectWriter where
  store : Store
  known : Table String Bytes := ∅

section
variable (C : Codec)

/-! ### Objects -/

def pack (raw : Bytes) : Int × Bytes :=
  if raw.length < 256 then (0, raw)
  else
    let b := C.deflate raw
    if b.length ≥ raw.length then (0, raw) else (1, b)

def unpack (s : Stored) : Except Err Bytes :=
  if s.size < 0 ∨ s.size > maxObjectBytes then .error (.invalidSize s.size)
  else if s.codec = 0 then
    if (s.data.length : Int) ≠ s.size then .error .sizeMismatch else .ok s.data
  else if s.codec ≠ 1 then .error (.unsupportedCodec s.codec)
  else match C.inflate s.data with
    | none => .error .zlib
    | some raw =>
      if (raw.length : Int) ≠ s.size then .error .decompressedSizeMismatch else .ok raw

/-- Reads the bytes of an object and checks them against its id. -/
def readObject (db : Table String Stored) (id : String) : Except Err Bytes :=
  match db.lookup id with
  | none => .error (.missing id)
  | some s => do
    let raw ← unpack C s
    if C.sha256Hex raw ≠ id then .error (.checksumMismatch id) else return raw

/-- Every id a node mentions, in order. -/
def ContentNode.mentions (n : ContentNode) : List String :=
  n.fields.map (·.value.ref) ++ n.items.map (·.ref) ++ n.chunks

/-- The distinct non-empty ids a node refers to, in the order of their first mention. -/
def nodeRefs (n : ContentNode) : List String :=
  n.mentions.foldl (fun out s => if s ≠ "" ∧ s ∉ out then out ++ [s] else out) []

def decodeNode (raw : Bytes) : Except Err ContentNode :=
  match raw with
  | 0 :: data => .ok { kind := .bytes, data := data }
  | _ => match C.unmarshalNode raw with
    | some n => .ok n
    | none => .error .json

/-- The bytes a node is stored as. -/
def nodeBytes (n : ContentNode) : Except Err Bytes :=
  if n.kind = .bytes then .ok (0 :: n.data)
  else match C.marshalNode n with
    | some raw => .ok raw
    | none => .error .json

/-- `INSERT INTO queue_edges` for the children of a new node. -/
def insertEdges (id : String) : List String → Finset (String × String) →
    Except Err (Finset (String × String))
  | [], edges => .ok edges
  | child :: rest, edges =>
    if (id, child) ∈ edges then .error .constraint
    else insertEdges id rest (insert (id, child) edges)

/-- The `queue_content` row of an object. -/
def storedRow (raw : Bytes) : Stored := ⟨(pack C raw).1, raw.length, (pack C raw).2⟩

/-- The two inserts for a node that is not stored yet. -/
def insertObject (n : ContentNode) (id : String) (raw : Bytes) (s : Store) : Except Err Store := do
  let edges ← insertEdges id (nodeRefs n) s.edges
  return { objects := s.objects.insert id (storedRow C raw), edges := edges }

/-- Brings the tables and the cache of a writer to a state where `id` holds `raw`. -/
def storeObject (n : ContentNode) (id : String) (raw : Bytes) (w : ObjectWriter) :
    Except Err ObjectWriter :=
  match w.known.lookup id with
  | some b => if b ≠ raw then .error .hashCollision else .ok w
  | none =>
    match readObject C w.store.objects id with
    | .ok old =>
      if old ≠ raw then .error .hashCollision
      else .ok { w with known := w.known.insert id raw }
    | .error (.missing _) => do
      let store ← insertObject C n id raw w.store
      return { store := store, known := w.known.insert id raw }
    | .error e => .error e

/-- Stores a node unless its bytes are there already, and returns a reference to it. -/
def save (n : ContentNode) : Tx ObjectWriter Err Fragment := fun w => do
  let raw ← nodeBytes C n
  if raw.length > maxObjectBytes then .error .exceedsBound
  else
    let w ← storeObject C n (C.sha256Hex raw) raw w
    return ({ ref := C.sha256Hex raw }, w)

/-! ### Encoding -/

def hexDigit (n : UInt8) : UInt8 := if n < 10 then 48 + n else 87 + n

/-- `hex.EncodeToString`. -/
def hexEncode (b : Bytes) : Bytes := b.flatMap fun c => [hexDigit (c / 16), hexDigit (c % 16)]

def unhexDigit (c : UInt8) : Option UInt8 :=
  if 48 ≤ c ∧ c ≤ 57 then some (c - 48)
  else if 97 ≤ c ∧ c ≤ 102 then some (c - 87)
  else if 65 ≤ c ∧ c ≤ 70 then some (c - 55)
  else none

/-- `hex.DecodeString`. -/
def hexDecode : Bytes → Option Bytes
  | [] => some []
  | [_] => none
  | a :: b :: rest => do
    let hi ← unhexDigit a
    let lo ← unhexDigit b
    let more ← hexDecode rest
    return (16 * hi + lo) :: more

/-- How a long string is stored: as its own bytes, or decoded when a `*_hex` field holds the
    canonical hex of something. -/
def stringKind (s : Bytes) (key : String) : Kind × Bytes :=
  if "_hex".toList.isSuffixOf key.toList then
    match hexDecode s with
    | some b => if hexEncode b = s then (.hex, b) else (.string, s)
    | none => (.string, s)
  else (.string, s)

/-- `for len(data) > 0`: saves `data` in chunks of at most `chunkBytes` bytes. The fuel is the number
    of chunks. -/
def saveChunks : Nat → Bytes → Tx ObjectWriter Err (List String)
  | 0, _ => return []
  | k + 1, data =>
    if data.isEmpty then return []
    else do
      let f ← save C { kind := .bytes, data := data.take chunkBytes }
      let rest ← saveChunks k (data.drop chunkBytes)
      return f.ref :: rest

def stringValue (s : Bytes) (key : String) : Tx ObjectWriter Err Fragment :=
  if s.length < 128 then return { json := C.quote s }
  else do
    let (kind, data) := stringKind s key
    let chunks ← saveChunks C data.length data
    save C { kind := kind, chunks := chunks }

/-- The test behind `omitempty`, written out by hand in the encoder. -/
def emptyValue : Value → Bool
  | .slice xs => xs.length == 0
  | .map kvs => kvs.length == 0
  | .str s => s.length == 0
  | .bytes b => b.length == 0
  | .number text => text.length == 0
  | .bool b => b == false
  | .int i => i == 0
  | .uint n => n == 0
  | .float _ zero => zero
  | .nil => true
  | .ref _ => false
  | .marshaler _ empty => empty
  | .struct _ => false

/-- A value stored as the text `json.Marshal` gives it. -/
def inlineValue (v : Value) : Tx ObjectWriter Err Fragment :=
  match marshal C.toJson v with
  | some b => return { json := b }
  | none => throw .json

/-- A container: inline when it is small and refers to nothing, a node of its own otherwise. -/
def saveContainer (v : Value) (n : ContentNode) : Tx ObjectWriter Err Fragment :=
  if (nodeRefs n).length = 0 then
    match marshal C.toJson v with
    | none => throw .json
    | some b => if b.length < 512 then return { json := b } else save C n
  else save C n

mutual
def encode : Value → String → Tx ObjectWriter Err Fragment
  | .nil, _ => return { json := utf8 "null" }
  | .ref v, key => encode v key
  | .str s, key => stringValue C s key
  | .struct fs, _ => do
    let fields ← encodeFields fs
    saveContainer C (.struct fs) { kind := .object, fields := fields }
  | .map kvs, _ => do
    let fields ← encodeEntries kvs
    saveContainer C (.map kvs) { kind := .object, fields := fields }
  | .slice xs, key => do
    let items ← encodeItems xs key
    saveContainer C (.slice xs) { kind := .array, items := items }
  -- numbers, booleans, byte slices and values with their own serializer
  | .bool b, _ => inlineValue C (.bool b)
  | .int i, _ => inlineValue C (.int i)
  | .uint n, _ => inlineValue C (.uint n)
  | .float text zero, _ => inlineValue C (.float text zero)
  | .number text, _ => inlineValue C (.number text)
  | .marshaler text empty, _ => inlineValue C (.marshaler text empty)
  | .bytes b, _ => inlineValue C (.bytes b)

def encodeFields : List (Tag × Value) → Tx ObjectWriter Err (List Member)
  | [] => return []
  | (tag, v) :: fs =>
    if tag.omitempty && emptyValue v then encodeFields fs
    else do
      let f ← encode v tag.name
      let rest ← encodeFields fs
      return ⟨tag.name, f⟩ :: rest

def encodeEntries : List (String × Value) → Tx ObjectWriter Err (List Member)
  | [] => return []
  | (key, v) :: kvs => do
    let f ← encode v key
    let rest ← encodeEntries kvs
    return ⟨key, f⟩ :: rest

def encodeItems : List Value → String → Tx ObjectWriter Err (List Fragment)
  | [], _ => return []
  | v :: vs, key => do
    let f ← encode v key
    let rest ← encodeItems vs key
    return f :: rest
end

/-- The root of a payload is always a node: an inline value gets one of its own. -/
def saveRoot (f : Fragment) : Tx ObjectWriter Err Fragment :=
  if f.ref = "" then save C { kind := .json, data := f.json } else return f

/-- Stores a value and returns the manifest to keep in `event_queue.payload`. -/
def encodePayload (value : Value) (s : Store) : Except Err (Bytes × Store) := do
  let (f, w) ← (encode C value "" >>= saveRoot C) { store := s }
  return (C.marshalManifest ⟨2, f.ref⟩, w.store)

/-! ### Decoding -/

/-- The root of a version-2 payload; the empty string for a legacy JSON payload. -/
def payloadRoot (payload : Bytes) : Except Err String :=
  match C.unmarshalManifest payload with
  | none => .error .json
  | some m =>
    if m.version = 0 then .ok ""
    else if m.version ≠ 2 ∨ m.root.utf8ByteSize ≠ 64 then .error .unsupportedManifest
    else .ok m.root

/-- The concatenated chunks of a string node. -/
def readChunks (db : Table String Stored) : List String → Except Err Bytes
  | [] => .ok []
  | id :: ids => do
    let raw ← readObject C db id
    let c ← decodeNode C raw
    if c.kind ≠ .bytes ∨ c.data.length > chunkBytes then .error .invalidBinaryChunk
    else
      let rest ← readChunks db ids
      return c.data ++ rest

/-- The text of a node, given how its child fragments are rendered. -/
def renderNode (db : Table String Stored) (child : Fragment → Except Err Bytes)
    (n : ContentNode) : Except Err Bytes :=
  match n.kind with
  | .json => if C.valid n.data then .ok n.data else .error .invalidJSONContent
  | .object => do
    let ts ← n.fields.mapM fun m => do
      let t ← child m.value
      return memberText C.toJson m.key t
    return utf8 "\x7b" ++ joinComma ts ++ utf8 "\x7d"
  | .array => do
    let ts ← n.items.mapM child
    return utf8 "[" ++ joinComma ts ++ utf8 "]"
  | .string => do
    let b ← readChunks C db n.chunks
    return C.quote b
  | .hex => do
    let b ← readChunks C db n.chunks
    return C.quote (hexEncode b)
  | kind => .error (.invalidContentNode kind)

/-- An inline fragment. -/
def renderInline (json : Bytes) : Except Err Bytes :=
  if C.valid json then .ok json else .error .invalidInlineJSON

/-- Renders a fragment. The first argument is `257 - depth`, so `0` stands for `depth > 256`. -/
def render (db : Table String Stored) : Nat → List String → Fragment → Except Err Bytes
  | 0, _, f => if f.ref = "" then renderInline C f.json else .error .excessiveNesting
  | k + 1, visiting, f =>
    if f.ref = "" then renderInline C f.json
    else if f.ref ∈ visiting then .error .excessiveNesting
    else do
      let raw ← readObject C db f.ref
      let n ← decodeNode C raw
      renderNode C db (render db k (f.ref :: visiting)) n

/-- The public JSON of a payload. -/
def decodePayload (db : Table String Stored) (payload : Bytes) : Except Err Bytes := do
  let root ← payloadRoot C payload
  if root = "" then .ok payload else render C db 257 [] { ref := root }

/-! ### Copying -/

/-- The state of one copy: the writer on the destination and the nodes already copied. -/
structure CopyState where
  writer : ObjectWriter
  done : List String := []

/-- Runs a writer inside a copy. -/
def saveCopy (n : ContentNode) : Tx CopyState Err Fragment := fun st => do
  let (f, w) ← save C n st.writer
  return (f, { st with writer := w })

/-- Copies the node `id` after its children. The first argument is `257 - depth`. -/
def visit (src : Table String Stored) : Nat → List String → String → Tx CopyState Err Unit
  | 0, _, id => do
    if id ∈ (← get).done then return () else throw .invalidContentGraph
  | k + 1, visiting, id => do
    if id ∈ (← get).done then return ()
    else if id ∈ visiting then throw .invalidContentGraph
    else do
      let raw ← liftM (readObject C src id)
      let n ← liftM (decodeNode C raw)
      (nodeRefs n).forM (visit src k (id :: visiting))
      let f ← saveCopy C n
      if f.ref ≠ id then throw (.noncanonical id)
      else modify fun st => { st with done := id :: st.done }

/-- Copies a payload into the tables `s`: a stored tree node by node, a legacy JSON text by storing
    its decoded value. -/
def copyPayload (src : Table String Stored) (payload : Bytes) (s : Store) :
    Except Err (Bytes × Store) := do
  let root ← payloadRoot C payload
  if root = "" then
    match C.decodeAny payload with
    | none => .error .json
    | some value => encodePayload C value s
  else
    let (_, st) ← visit C src 257 [] root { writer := { store := s } }
    return (payload, st.writer.store)

end

end TaNode.Queue

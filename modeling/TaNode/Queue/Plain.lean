import Mathlib.Data.List.Sort
import TaNode.Queue.Content

/-! A codec whose laws can be proved: values are JSON, the queue's own records are framed byte by
    byte, nothing is compressed, and a polynomial checksum stands in for SHA-256. It shows that what
    is assumed of the Go libraries is consistent, and it lets the results be run on concrete
    databases.

        frame [a, b]   =  1 a 1 b 0
        node           =  '{' frame kind · frame data · (frame 1 · key · json · ref)* · … -/

namespace TaNode.Queue.Plain

/-! ### Strings -/

def stringBytes (s : String) : Bytes := s.toUTF8.data.toList

def readString (b : Bytes) : String := (String.fromUTF8? ⟨b.toArray⟩).getD ""

theorem readString_stringBytes (s : String) : readString (stringBytes s) = s := by
  simp [readString, stringBytes, String.fromUTF8?, s.isValidUTF8, String.toUTF8, String.fromUTF8]

/-! ### Frames -/

def frame (b : Bytes) : Bytes := b.flatMap (fun c => [1, c]) ++ [0]

def unframes : Bytes → List Bytes
  | 0 :: rest => [] :: unframes rest
  | 1 :: c :: rest => match unframes rest with
    | b :: bs => (c :: b) :: bs
    | [] => []
  | _ => []

theorem unframes_frame : ∀ b rest, unframes (frame b ++ rest) = b :: unframes rest
  | [], rest => rfl
  | c :: b, rest => by
    have ih := unframes_frame b rest
    simp only [frame, List.flatMap_cons, List.append_assoc, List.cons_append, List.nil_append]
      at ih ⊢
    rw [unframes, ih]

theorem unframes_frames (bs : List Bytes) : unframes (bs.flatMap frame) = bs := by
  induction bs with
  | nil => rfl
  | cons b bs ih => rw [List.flatMap_cons, unframes_frame, ih]

/-! ### Nodes -/

def kindBytes : Kind → Bytes
  | .bytes => [0]
  | .json => [1]
  | .object => [2]
  | .array => [3]
  | .string => [4]
  | .hex => [5]
  | .other name => 6 :: stringBytes name.1

def readKind : Bytes → Kind
  | [1] => .json
  | [2] => .object
  | [3] => .array
  | [4] => .string
  | [5] => .hex
  | 6 :: b => if h : readString b ∉ kindNames then .other ⟨readString b, h⟩ else .bytes
  | _ => .bytes

theorem readKind_kindBytes (k : Kind) : readKind (kindBytes k) = k := by
  cases k with
  | other name =>
    obtain ⟨s, hs⟩ := name
    simp only [kindBytes, readKind]
    rw [dif_pos (by rw [readString_stringBytes]; exact hs)]
    simp only [readString_stringBytes]
  | _ => rfl

def memberFrames (m : Member) : List Bytes :=
  [[1], stringBytes m.key, m.value.json, stringBytes m.value.ref]

def itemFrames (f : Fragment) : List Bytes := [[2], f.json, stringBytes f.ref]

def chunkFrames (id : String) : List Bytes := [[3], stringBytes id]

def readParts : List Bytes → List Member × List Fragment × List String
  | [1] :: k :: j :: r :: rest =>
    let p := readParts rest
    (⟨readString k, ⟨j, readString r⟩⟩ :: p.1, p.2)
  | [2] :: j :: r :: rest =>
    let p := readParts rest
    (p.1, ⟨j, readString r⟩ :: p.2.1, p.2.2)
  | [3] :: c :: rest =>
    let p := readParts rest
    (p.1, p.2.1, readString c :: p.2.2)
  | _ => ([], [], [])

theorem readParts_frames (ms : List Member) (fs : List Fragment) (ids : List String) :
    readParts (ms.flatMap memberFrames ++ (fs.flatMap itemFrames ++ ids.flatMap chunkFrames)) =
      (ms, fs, ids) := by
  induction ms with
  | cons m ms ih => simp [memberFrames, readParts, readString_stringBytes, ih]
  | nil =>
    induction fs with
    | cons f fs ih =>
      simp only [List.flatMap_nil, List.nil_append] at ih
      simp [itemFrames, readParts, readString_stringBytes, ih]
    | nil =>
      induction ids with
      | cons id ids ih =>
        simp only [List.flatMap_nil, List.nil_append] at ih
        simp [chunkFrames, readParts, readString_stringBytes, ih]
      | nil => rfl

def marshalNode (n : ContentNode) : Option Bytes :=
  some (123 :: (kindBytes n.kind :: n.data :: (n.fields.flatMap memberFrames ++
    (n.items.flatMap itemFrames ++ n.chunks.flatMap chunkFrames))).flatMap frame)

def unmarshalNode : Bytes → Option ContentNode
  | 123 :: rest => match unframes rest with
    | kind :: data :: parts =>
      let p := readParts parts
      some ⟨readKind kind, data, p.1, p.2.1, p.2.2⟩
    | _ => none
  | _ => none

theorem unmarshalNode_marshalNode {n : ContentNode} {raw : Bytes} (h : marshalNode n = some raw) :
    unmarshalNode raw = some n := by
  simp only [marshalNode, Option.some.injEq] at h
  subst h
  simp only [unmarshalNode, unframes_frames, readKind_kindBytes, readParts_frames]

/-! ### The codec -/

/-- The last `k` hex digits of a number, lowest first. -/
def hexChars : Nat → Nat → List Char
  | 0, _ => []
  | k + 1, n => Nat.digitChar (n % 16) :: hexChars k (n / 16)

/-- A checksum in the form of a SHA-256 digest: 64 hex digits. -/
def checksum (b : Bytes) : String :=
  String.ofList (hexChars 64 (b.foldl (fun h c => (h * 257 + c.toNat + 1) % 2 ^ 256) 7))

theorem utf8Size_digitChar : ∀ d < 16, (Nat.digitChar d).utf8Size = 1 := by decide

theorem hexChars_size : ∀ k n, (String.ofList (hexChars k n)).utf8ByteSize = k
  | 0, _ => rfl
  | k + 1, n => by
    rw [hexChars, String.ofList_cons, String.utf8ByteSize_append, hexChars_size k,
      String.utf8ByteSize_singleton, utf8Size_digitChar _ (Nat.mod_lt _ (by decide)), Nat.add_comm]

/-! ### JSON -/

/-- A byte of a string literal. -/
def escape (c : UInt8) : Bytes :=
  if c = 34 ∨ c = 92 then [92, c] else if c < 32 then utf8 "\\u00" ++ hexEncode [c] else [c]

/-- The rest of a string literal, and what follows it. -/
def unquote : Bytes → Option (Bytes × Bytes)
  | [] => none
  | 34 :: t => some ([], t)
  | 92 :: 117 :: 48 :: 48 :: a :: b :: t => do
    let c ← hexDecode [a, b]
    let (s, t) ← unquote t
    return (c ++ s, t)
  | 92 :: c :: t | c :: t => (unquote t).map fun p => (c :: p.1, p.2)

def isDigit (c : UInt8) : Bool := 48 ≤ c && c ≤ 57

def digits (t : Bytes) : Nat := t.foldl (fun n c => 10 * n + (c.toNat - 48)) 0

/-- A number that rounds to a finite `float64`. -/
def finite (t : Bytes) : Bool :=
  let (whole, t) := (t.dropWhile (· = 45)).span isDigit
  let (frac, t) := match t with
    | 46 :: t => t.span isDigit
    | t => ([], t)
  let exponent : Int := match t with
    | _ :: 45 :: t => -digits t
    | _ :: 43 :: t | _ :: t => digits t
    | [] => 0
  let e := exponent - frac.length
  digits (whole ++ frac) * 10 ^ e.toNat < (2 ^ 1024 - 2 ^ 970) * 10 ^ (-e).toNat

/-- An element of a `[]any` or a `map[string]any`. -/
def element : Value → Value
  | .nil => .nil
  | v => .ref v

section
variable (number : Bytes → Option Value)

mutual
def readValue : Nat → Bytes → Option (Value × Bytes)
  | 0, _ => none
  | _ + 1, 110 :: 117 :: 108 :: 108 :: t => some (.nil, t)
  | _ + 1, 116 :: 114 :: 117 :: 101 :: t => some (.bool true, t)
  | _ + 1, 102 :: 97 :: 108 :: 115 :: 101 :: t => some (.bool false, t)
  | _ + 1, 34 :: t => (unquote t).map fun p => (.str p.1, p.2)
  | k + 1, 91 :: t => (readItems k t).map fun p => (.slice p.1, p.2)
  | k + 1, 123 :: t => (readEntries k t).map fun p =>
    (.map (p.1.insertionSort fun x y => x.1 ≤ y.1), p.2)
  | _ + 1, t => do
    let (text, t) := t.span fun c => isDigit c || [43, 45, 46, 69, 101].contains c
    let v ← if isValidNumber text then number text else none
    return (v, t)

def readItems : Nat → Bytes → Option (List Value × Bytes)
  | 0, _ => none
  | _ + 1, 93 :: t => some ([], t)
  | k + 1, 44 :: t => readItems k t
  | k + 1, t => do
    let (v, t) ← readValue k t
    let (vs, t) ← readItems k t
    return (element v :: vs, t)

def readEntries : Nat → Bytes → Option (List (String × Value) × Bytes)
  | _ + 1, 125 :: t => some ([], t)
  | k + 1, 44 :: t => readEntries k t
  | k + 1, 34 :: t => do
    let (key, t) ← unquote t
    let (v, t) ← readValue k (t.drop 1)
    let (es, t) ← readEntries k t
    return ((readString key, element v) :: es, t)
  | _, _ => none
end

def decode (b : Bytes) : Option Value :=
  match readValue number (b.length + 1) b with
  | some (v, []) => some v
  | _ => none

end

def base64Digit (n : Nat) : UInt8 :=
  UInt8.ofNat (if n < 26 then n + 65 else if n < 52 then n + 71 else if n < 62 then n - 4
    else if n = 62 then 43 else 47)

/-- The digits of three bytes. -/
def base64Group (a b c : UInt8) : Bytes :=
  let n := a.toNat * 65536 + b.toNat * 256 + c.toNat
  [n / 262144, n / 4096 % 64, n / 64 % 64, n % 64].map base64Digit

def base64 : Bytes → Bytes
  | [] => []
  | [a] => (base64Group a 0 0).take 2 ++ [61, 61]
  | [a, b] => (base64Group a b 0).take 3 ++ [61]
  | a :: b :: c :: t => base64Group a b c ++ base64 t

/-- Texts are not checked: every text is valid and compact, and none is deep. -/
def json : Json where
  quote b := 34 :: b.flatMap escape ++ [34]
  base64 b := 34 :: base64 b ++ [34]
  valid _ := true
  depth _ := 0
  compact := id
  decodeAny := decode fun t => some (.number t)
  unmarshalAny := decode fun t => if finite t then some (.float (some t) false) else none

/-- The codec; events are read by `readEvent`. -/
def codec (readEvent : Bytes → Option ThreatEvent) : Codec where
  toJson := json
  sha256Hex := checksum
  deflate := id
  inflate := some
  marshalNode := marshalNode
  unmarshalNode := unmarshalNode
  marshalManifest m := 255 :: stringBytes m.root
  unmarshalManifest
    | 255 :: b => some ⟨2, readString b⟩
    | _ => some ⟨0, ""⟩
  unmarshalEvent := readEvent

theorem compacted_eq {J : Json} (hJ : J.compact = id) (n : ContentNode) : n.compacted J = n := by
  have hf : Fragment.compacted J = id := by
    funext f
    simp only [Fragment.compacted, hJ, id]
    split_ifs with h
    · rw [← h]
    · rfl
  simp [ContentNode.compacted, hf]

/-- The text of an event is an object. -/
theorem marshal_event_head {J : Json} {ev : ThreatEvent} {b : Bytes}
    (h : marshal J ev.toValue = some b) : ∃ rest, b = 123 :: rest := by
  rw [ThreatEvent.toValue, marshal, Option.map_eq_some_iff] at h
  obtain ⟨ts, -, rfl⟩ := h
  exact ⟨_, rfl⟩

theorem codec_lawful (readEvent : Bytes → Option ThreatEvent) : (codec readEvent).Lawful where
  depth_marshal _ _ _ := Nat.zero_le _
  valid_marshal _ _ _ _ := rfl
  compact_marshal _ _ _ _ := rfl
  inflate_deflate _ := rfl
  sha256Hex_length _ := hexChars_size 64 _
  unmarshalNode_marshalNode n raw h _ := by
    rw [compacted_eq rfl]
    exact unmarshalNode_marshalNode h
  unmarshalNode_eq n raw n' h h' := by
    have hn := unmarshalNode_marshalNode h
    rw [compacted_eq rfl]
    exact Option.some.inj (h'.symm.trans hn)
  marshalNode_head n raw h := by
    simp only [codec, marshalNode, Option.some.injEq] at h
    rw [← h]; simp
  unmarshalManifest_marshalManifest root := by
    simp only [codec, readString_stringBytes]
  unmarshalManifest_event ev b m hb hm := by
    obtain ⟨rest, rfl⟩ := marshal_event_head hb
    exact congrArg Manifest.version (Option.some.inj hm).symm

end TaNode.Queue.Plain

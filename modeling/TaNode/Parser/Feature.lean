import TaNode.Event.Value

/-! The packet parser: from the decoded layers of one captured frame to its `PacketFeature`.

    `gopacket` takes the frame apart; what `Parse` reads of its result is a `Packet` here. The parser
    looks at one packet at a time, so the direction it writes on a segment comes from that segment
    alone:

        payload "HTTP/…"              response
        payload with a request line   request
        TLS ClientHello with a name   request
        none of these, SYN            request
        none of these, SYN and ACK    response
        port 53, whole DNS message    by its QR bit

    Go strings made from packet bytes stay byte lists. -/

namespace TaNode

/-! ### Byte strings -/

/-- An index or a slice bound out of range. -/
inductive Panic where
  | outOfRange
  deriving DecidableEq, Repr

/-- `s[i]` -/
def byteAt (s : Bytes) (i : Nat) : Except Panic UInt8 :=
  match s[i]? with
  | some b => .ok b
  | none => .error .outOfRange

/-- `s[n:]` -/
def sliceFrom (s : Bytes) (n : Nat) : Except Panic Bytes :=
  if n ≤ s.length then .ok (s.drop n) else .error .outOfRange

/-- `s[:n]` -/
def sliceTo (s : Bytes) (n : Nat) : Except Panic Bytes :=
  if n ≤ s.length then .ok (s.take n) else .error .outOfRange

/-- `int(s[i])<<8 | int(s[i+1])` -/
def bigEndian16 (s : Bytes) (i : Nat) : Except Panic Nat := do
  return (← byteAt s i).toNat * 256 + (← byteAt s (i + 1)).toNat

/-- `bytes.Cut`: what stands before and behind the first separator. -/
def cut (sep : Bytes) : Bytes → Option (Bytes × Bytes)
  | [] => none
  | b :: rest =>
    if sep.isPrefixOf (b :: rest) then some ([], (b :: rest).drop sep.length)
    else (cut sep rest).map fun (before, behind) => (b :: before, behind)

/-- What stands before the first separator, everything without one. -/
def before (sep s : Bytes) : Bytes :=
  match cut sep s with
  | some (head, _) => head
  | none => s

/-- `strings.Split`, with the bytes of the current part and how many to skip. -/
def splitFrom (sep : Bytes) : Nat → Bytes → Bytes → List Bytes
  | _, part, [] => [part.reverse]
  | k + 1, part, _ :: rest => splitFrom sep k part rest
  | 0, part, b :: rest =>
    if sep.isPrefixOf (b :: rest) then part.reverse :: splitFrom sep (sep.length - 1) [] rest
    else splitFrom sep 0 (b :: part) rest

def split (sep s : Bytes) : List Bytes := splitFrom sep 0 [] s

/-- The UTF-8 forms of the white space of `unicode.IsSpace`. No form can begin inside another rune,
    so looking for them byte by byte finds the same spaces as decoding runes. -/
def spaces : List Bytes :=
  ['\t', '\n', '\x0b', '\x0c', '\r', ' ', '\u0085', '\u00a0', '\u1680', '\u2000',
    '\u2001', '\u2002', '\u2003', '\u2004', '\u2005', '\u2006', '\u2007', '\u2008',
    '\u2009', '\u200a', '\u2028', '\u2029', '\u202f', '\u205f', '\u3000'].map String.utf8EncodeChar

/-- The width of the space a byte string begins with, 0 for another rune. -/
def spaceWidth (forms : List Bytes) (s : Bytes) : Nat :=
  match forms.find? (·.isPrefixOf s) with
  | some form => form.length
  | none => 0

/-- `strings.Fields`, with the bytes of the current field and how many to skip. -/
def fieldsFrom : Nat → Bytes → Bytes → List Bytes
  | _, field, [] => if field = [] then [] else [field.reverse]
  | k + 1, field, _ :: rest => fieldsFrom k field rest
  | 0, field, b :: rest =>
    match spaceWidth spaces (b :: rest) with
    | 0 => fieldsFrom 0 (b :: field) rest
    | w + 1 => if field = [] then fieldsFrom w [] rest else field.reverse :: fieldsFrom w [] rest

def fields (s : Bytes) : List Bytes := fieldsFrom 0 [] s

/-- Drops the spaces a byte string begins with. -/
def dropSpaces (forms : List Bytes) : Nat → Bytes → Bytes
  | _, [] => []
  | k + 1, _ :: rest => dropSpaces forms k rest
  | 0, b :: rest =>
    match spaceWidth forms (b :: rest) with
    | 0 => b :: rest
    | w + 1 => dropSpaces forms w rest

/-- `strings.TrimSpace` -/
def trimSpace (s : Bytes) : Bytes :=
  (dropSpaces (spaces.map List.reverse) 0 (dropSpaces spaces 0 s).reverse).reverse

/-- No space form stands at the front. -/
theorem spaceWidth_eq_zero {forms : List Bytes} (hforms : ∀ f ∈ forms, f ≠ []) {s : Bytes} :
    spaceWidth forms s = 0 ↔ ∀ f ∈ forms, ¬ f <+: s := by
  rw [spaceWidth]
  cases h : forms.find? (·.isPrefixOf s) with
  | none => simpa using h
  | some form =>
    have hmem := List.mem_of_find?_eq_some h
    have hpre : form <+: s := by simpa using List.find?_some h
    constructor
    · intro hlen
      exact absurd (List.length_eq_zero_iff.mp hlen) (hforms form hmem)
    · intro hnone
      exact absurd hpre (hnone form hmem)

theorem dropSpaces_suffix (forms : List Bytes) : ∀ k s, dropSpaces forms k s <:+ s
  | _, [] => by simp [dropSpaces]
  | k + 1, b :: rest => (dropSpaces_suffix forms k rest).trans (List.suffix_cons b rest)
  | 0, b :: rest => by
    rw [dropSpaces]
    split
    · exact List.suffix_rfl
    · exact (dropSpaces_suffix forms _ rest).trans (List.suffix_cons b rest)

theorem spaceWidth_dropSpaces {forms : List Bytes} (hforms : ∀ f ∈ forms, f ≠ []) :
    ∀ k s, spaceWidth forms (dropSpaces forms k s) = 0
  | _, [] => by
    rw [dropSpaces, spaceWidth_eq_zero hforms]
    intro f hf hpre
    exact hforms f hf (List.prefix_nil.mp hpre)
  | k + 1, b :: rest => spaceWidth_dropSpaces hforms k rest
  | 0, b :: rest => by
    rw [dropSpaces]
    split
    · assumption
    · exact spaceWidth_dropSpaces hforms _ rest

theorem dropSpaces_of_width {forms : List Bytes} {s : Bytes} (h : spaceWidth forms s = 0) :
    dropSpaces forms 0 s = s := by
  cases s with
  | nil => rw [dropSpaces]
  | cons b rest => rw [dropSpaces, h]

theorem spaces_ne_nil : ∀ f ∈ spaces, f ≠ [] := by decide +kernel

theorem reversed_spaces_ne_nil : ∀ f ∈ spaces.map List.reverse, f ≠ [] := by decide +kernel

/-- A trimmed string has no space at its ends. -/
theorem trimSpace_trimSpace (s : Bytes) : trimSpace (trimSpace s) = trimSpace s := by
  have hwidth := spaceWidth_dropSpaces reversed_spaces_ne_nil 0 (dropSpaces spaces 0 s).reverse
  have hpre : trimSpace s <+: dropSpaces spaces 0 s := by
    rw [← List.reverse_suffix, trimSpace, List.reverse_reverse]
    exact dropSpaces_suffix _ _ _
  have hfront : dropSpaces spaces 0 (trimSpace s) = trimSpace s := by
    refine dropSpaces_of_width ((spaceWidth_eq_zero spaces_ne_nil).mpr ?_)
    intro f hf h
    exact (spaceWidth_eq_zero spaces_ne_nil).mp (spaceWidth_dropSpaces spaces_ne_nil 0 s) f hf
      (h.trans hpre)
  have hback : (trimSpace s).reverse =
      dropSpaces (spaces.map List.reverse) 0 (dropSpaces spaces 0 s).reverse := by
    rw [trimSpace, List.reverse_reverse]
  rw [trimSpace, hfront, hback, dropSpaces_of_width hwidth, ← hback, List.reverse_reverse]

/-- `strings.ToLower` as far as an ASCII result can tell: besides the ASCII letters only the Kelvin
    sign and the dotted capital I have an ASCII lower case. -/
def toLower : Bytes → Bytes
  | 0xe2 :: 0x84 :: 0xaa :: rest => 107 :: toLower rest
  | 0xc4 :: 0xb0 :: rest => 105 :: toLower rest
  | b :: rest => (if 65 ≤ b ∧ b ≤ 90 then b + 32 else b) :: toLower rest
  | [] => []

/-- `strings.TrimSuffix(s, ".")` -/
def trimDot (s : Bytes) : Bytes := if s.getLast? = some 46 then s.dropLast else s

/-- `strconv.ParseUint(s, 10, 16)` with its error dropped. -/
def parseUint16 (s : Bytes) : Nat :=
  if s ≠ [] ∧ s.all (fun c => 48 ≤ c ∧ c ≤ 57) then
    min (s.foldl (fun n c => n * 10 + (c.toNat - 48)) 0) 65535
  else 0

def hexText (s : Bytes) : String :=
  let digit (n : Nat) : Char := if n < 10 then Char.ofNat (48 + n) else Char.ofNat (87 + n)
  String.ofList (s.flatMap fun b => [digit (b.toNat / 16), digit (b.toNat % 16)])

/-- Valid UTF-8 without control characters other than the white space ones. -/
def printable (s : Bytes) : Bool :=
  (String.fromUTF8? ⟨s.toArray⟩).isSome && s.all fun c => ¬ (c < 9 ∨ (13 < c ∧ c < 32))

def samplePayload (payload : Bytes) : Bytes :=
  let s := payload.take 64
  if printable s then s else utf8 (hexText s)

def payloadText (payload : Bytes) : String :=
  if payload = [] ∨ ¬ printable payload then "" else (String.fromUTF8? ⟨payload.toArray⟩).getD ""

/-! ### Packets -/

inductive Proto where
  | none | tcp | udp | icmp
  deriving DecidableEq, Repr

/-- `MessageDirection`, where `none` is the empty string. -/
inductive MessageDirection where
  | none | request | response
  deriving DecidableEq, Repr

/-- A decoded `layers.DNS`: the QR bit, the questions and the answers (address, CNAME). -/
structure Dns where
  qr : Bool
  questions : List (Bytes × UInt16)
  answers : List (Option Bytes × Bytes)

/-- A decoded `layers.TCP`. -/
structure Tcp where
  srcPort : UInt16
  dstPort : UInt16
  seq : UInt32
  ack : UInt32 := 0
  synFlag : Bool := false
  ackFlag : Bool := false
  finFlag : Bool := false
  rstFlag : Bool := false
  payload : Bytes := []

/-- The layers `Parse` looks at; an address is in the form `net.IP.String` gives it. -/
inductive Layer where
  | ipv4 (length : UInt16) (src dst : String)
  | ipv6 (length : UInt16) (src dst : String)
  | tcp (t : Tcp)
  | udp (srcPort dstPort : UInt16) (payload : Bytes)
  | icmpv4 (payload : Bytes)
  | dns (d : Dns)
  | other

/-- A captured frame with its capture information and its layers, outermost first, each with the
    length of its own header. -/
structure Packet where
  data : Bytes
  timestampUsec : Option UInt64
  length : Int
  layers : List (Layer × Nat)

structure PacketFeature where
  packetTimeUsec : UInt64 := 0
  wireLen : UInt32 := 0
  capturedLen : UInt32 := 0
  srcIP : String := ""
  srcPort : UInt16 := 0
  dstIP : String := ""
  dstPort : UInt16 := 0
  proto : Proto := .none
  httpHost : Bytes := []
  httpURL : Bytes := []
  httpMethod : Bytes := []
  userAgent : Bytes := []
  httpHeader : Bytes := []
  httpBody : Bytes := []
  httpHeaders : List (Bytes × Bytes) := []
  httpBodySample : Bytes := []
  httpStatusCode : UInt16 := 0
  dnsQuery : Bytes := []
  dnsQType : UInt16 := 0
  dnsAnswers : List Bytes := []
  sni : Bytes := []
  icmpPayloadLen : UInt32 := 0
  icmpSeq : UInt32 := 0
  payload : Bytes := []
  payloadSample : Bytes := []
  rawPacket : Bytes := []
  messageDirection : MessageDirection := .none
  tcpSeq : UInt32 := 0
  tcpAck : UInt32 := 0
  tcpSYN : Bool := false
  tcpACK : Bool := false
  tcpFIN : Bool := false
  tcpRST : Bool := false

/-- `pf.CapturedLen > 0 && pf.WireLen > pf.CapturedLen` -/
def PacketFeature.capturedShort (pf : PacketFeature) : Bool :=
  pf.capturedLen > 0 && pf.wireLen > pf.capturedLen

/-- The sequence number of the first payload byte. -/
def PacketFeature.sequence (pf : PacketFeature) : UInt32 :=
  if pf.tcpSYN then pf.tcpSeq + 1 else pf.tcpSeq

/-- The bytes the capture did not hold. -/
def PacketFeature.captureGap (pf : PacketFeature) : Nat :=
  if pf.capturedShort then (pf.wireLen - pf.capturedLen).toNat else 0

/-! ### HTTP -/

def httpMethods : List Bytes :=
  ["GET", "POST", "PUT", "DELETE", "HEAD", "PATCH", "OPTIONS"].map utf8

/-- Method and path of a request line. -/
def httpRequestLine (payload : Bytes) : Option (Bytes × Bytes) :=
  match fields (before (utf8 "\r\n") payload) with
  | method :: path :: _ => if method ∈ httpMethods then some (method, path) else none
  | _ => none

def safeHTTPHeaders : List Bytes :=
  ["host", "referer", "content-type", "content-length", "x-forwarded-for", "accept",
    "accept-language", "origin", "x-requested-with"].map utf8

/-- One header line. -/
def parseHeader (path : Bytes) (pf : PacketFeature) (line : Bytes) : PacketFeature :=
  match cut (utf8 ":") line with
  | none => pf
  | some (k, v) =>
    let key := toLower (trimSpace k)
    let val := trimSpace v
    let pf :=
      if key = utf8 "host" then
        let url :=
          if (utf8 "http://").isPrefixOf pf.httpURL ∨ (utf8 "https://").isPrefixOf pf.httpURL then
            pf.httpURL
          else utf8 "http://" ++ val ++ path
        { pf with httpHost := val, httpURL := url }
      else if key = utf8 "user-agent" then { pf with userAgent := val }
      else pf
    if key ∈ safeHTTPHeaders then
      { pf with httpHeaders := pf.httpHeaders.filter (·.1 ≠ key) ++ [(key, val)] }
    else pf

/-- The status code is looked for from the byte behind the version on, the space included; without
    one the code stays as it was. -/
def parseStatus (status : UInt16) (payload : Bytes) : Except Panic UInt16 := do
  if payload.length ≥ 13 ∧ payload[9]? = some 32 then
    let n := parseUint16 ((← sliceTo payload 12).drop 9)
    return if n ≥ 100 then UInt16.ofNat n else status
  return status

def parseHTTP (pf : PacketFeature) : Except Panic PacketFeature := do
  if pf.payload = [] then
    return pf
  if (utf8 "HTTP/").isPrefixOf pf.payload then
    let status ← parseStatus pf.httpStatusCode pf.payload
    return { pf with messageDirection := .response, httpStatusCode := status }
  match httpRequestLine pf.payload with
  | none => return pf
  | some (method, path) =>
    let (header, body) := (cut (utf8 "\r\n\r\n") pf.payload).getD (pf.payload, [])
    let pf := { pf with
      messageDirection := .request, httpMethod := method, httpURL := path
      httpHeader := header, httpBody := body
      httpBodySample := if body = [] then [] else samplePayload body }
    return (split (utf8 "\r\n") header).foldl (parseHeader path) pf

/-! ### TLS -/

/-- The entries of a server name list: name type, length, name. Every entry takes at least three
    bytes, so as many rounds as there are bytes are enough. -/
def serverName : Nat → Bytes → Except Panic (Option Bytes)
  | 0, _ => return none
  | rounds + 1, ext => do
    if ext.length < 3 then
      return none
    let nameType ← byteAt ext 0
    let nameLen ← bigEndian16 ext 1
    let ext ← sliceFrom ext 3
    if ext.length < nameLen then
      return none
    let name ← sliceTo ext nameLen
    let ext ← sliceFrom ext nameLen
    if nameType = 0 ∧ nameLen > 0 then
      return some (trimDot name)
    serverName rounds ext

/-- The extensions up to the first server name extension. -/
def extensions : Nat → Bytes → Except Panic (Option Bytes)
  | 0, _ => return none
  | rounds + 1, b => do
    if b.length < 4 then
      return none
    let extType ← bigEndian16 b 0
    let extLen ← bigEndian16 b 2
    let b ← sliceFrom b 4
    if b.length < extLen then
      return none
    let ext ← sliceTo b extLen
    let b ← sliceFrom b extLen
    if extType ≠ 0 then
      extensions rounds b
    else
      if ext.length < 2 then
        return none
      let listLen ← bigEndian16 ext 0
      let ext ← sliceFrom ext 2
      let ext ← if ext.length > listLen then sliceTo ext listLen else pure ext
      serverName ext.length ext

/-- The host name of a ClientHello that lies in one segment. -/
def tlsClientHelloSNI (p : Bytes) : Except Panic (Option Bytes) := do
  if p.length < 5 ∨ p[0]? ≠ some 0x16 then
    return none
  let hs ← sliceFrom p 5
  if hs.length < 4 ∨ hs[0]? ≠ some 0x01 then
    return none
  let b ← sliceFrom hs 4
  if b.length < 34 then
    return none
  let b ← sliceFrom b 34
  -- session id
  if b.length < 1 then
    return none
  let idLen := (← byteAt b 0).toNat
  if b.length < 1 + idLen then
    return none
  let b ← sliceFrom b (1 + idLen)
  -- cipher suites
  if b.length < 2 then
    return none
  let csLen ← bigEndian16 b 0
  if b.length < 2 + csLen then
    return none
  let b ← sliceFrom b (2 + csLen)
  -- compression methods
  if b.length < 1 then
    return none
  let cmLen := (← byteAt b 0).toNat
  if b.length < 1 + cmLen then
    return none
  let b ← sliceFrom b (1 + cmLen)
  if b.length < 2 then
    return none
  let extTotal ← bigEndian16 b 0
  let b ← sliceFrom b 2
  let b ← if b.length > extTotal then sliceTo b extTotal else pure b
  extensions b.length b

def parseTLS (pf : PacketFeature) : Except Panic PacketFeature := do
  match ← tlsClientHelloSNI pf.payload with
  | some host => return { pf with sni := host, messageDirection := .request }
  | none => return pf

/-! ### DNS -/

def fillDNS (dns : Dns) (pf : PacketFeature) : PacketFeature :=
  let pf := { pf with messageDirection := if dns.qr then .response else .request }
  let pf := match dns.questions with
    | (name, type) :: _ => { pf with dnsQuery := trimDot name, dnsQType := type }
    | [] => pf
  let answers := dns.answers.filterMap fun (ip, cname) =>
    match ip with
    | some ip => some ip
    | none => if cname = [] then none else some (trimDot cname)
  { pf with dnsAnswers := pf.dnsAnswers ++ answers }

/-- A DNS message behind its length, if the segment holds all of it. `decode` is the `gopacket`
    decoder. -/
def parseDNSOverTCP (decode : Bytes → Option Dns) (pf : PacketFeature) :
    Except Panic PacketFeature := do
  if pf.payload.length < 2 then
    return pf
  let n ← bigEndian16 pf.payload 0
  if n = 0 ∨ 2 + n > pf.payload.length then
    return pf
  match decode (← sliceTo (← sliceFrom pf.payload 2) n) with
  | some dns => return fillDNS dns pf
  | none => return pf

/-! ### Parse -/

inductive ParseErr where
  | noNetwork
  | decodePanic (p : Panic)
  deriving DecidableEq, Repr

/-- The length a network header declares for its packet, 0 for other layers. -/
def Layer.declared : Layer → Nat
  | .ipv4 length _ _ => length.toNat
  | .ipv6 length _ _ => if length > 0 then 40 + length.toNat else 0
  | _ => 0

/-- The wire length, raised to what the first network header that declares a length asks for. -/
def wireLength (wire : UInt32) (ahead : Nat) : List (Layer × Nat) → UInt32
  | [] => wire
  | (layer, contents) :: rest =>
    if layer.declared > 0 then
      let declared := UInt32.ofNat (ahead + layer.declared)
      if declared > wire then declared else wire
    else wireLength wire (ahead + contents) rest

/-- `packet.Layer`: the first layer of a kind. -/
def Packet.layer {α : Type} (packet : Packet) (kind : Layer → Option α) : Option α :=
  packet.layers.findSome? fun l => kind l.1

def Layer.ipv4? : Layer → Option (String × String)
  | .ipv4 _ src dst => some (src, dst)
  | _ => none

def Layer.ipv6? : Layer → Option (String × String)
  | .ipv6 _ src dst => some (src, dst)
  | _ => none

def Layer.tcp? : Layer → Option Tcp
  | .tcp t => some t
  | _ => none

def Layer.udp? : Layer → Option (UInt16 × UInt16 × Bytes)
  | .udp src dst payload => some (src, dst, payload)
  | _ => none

def Layer.icmp? : Layer → Option Bytes
  | .icmpv4 payload => some payload
  | _ => none

def Layer.dns? : Layer → Option Dns
  | .dns d => some d
  | _ => none

/-- What the handshake flags say when the payload says nothing. -/
def handshakeDirection (tcp : Tcp) (pf : PacketFeature) : PacketFeature :=
  if pf.messageDirection = .none then
    if tcp.synFlag ∧ ¬ tcp.ackFlag then { pf with messageDirection := .request }
    else if tcp.synFlag ∧ tcp.ackFlag then { pf with messageDirection := .response }
    else pf
  else pf

def parseTCP (decode : Bytes → Option Dns) (tcp : Tcp) (pf : PacketFeature) :
    Except Panic PacketFeature := do
  let pf := { pf with
    proto := .tcp, srcPort := tcp.srcPort, dstPort := tcp.dstPort
    tcpSeq := tcp.seq, tcpAck := tcp.ack, tcpSYN := tcp.synFlag, tcpACK := tcp.ackFlag
    tcpFIN := tcp.finFlag, tcpRST := tcp.rstFlag, payload := tcp.payload
    payloadSample := if tcp.payload = [] then [] else samplePayload tcp.payload }
  let pf ← parseHTTP pf
  let pf ← parseTLS pf
  let pf := handshakeDirection tcp pf
  if pf.srcPort = 53 ∨ pf.dstPort = 53 then
    parseDNSOverTCP decode pf
  else
    return pf

def parseUDP (packet : Packet) (udp : UInt16 × UInt16 × Bytes) (pf : PacketFeature) :
    PacketFeature :=
  let pf := { pf with
    proto := .udp, srcPort := udp.1, dstPort := udp.2.1, payload := udp.2.2 }
  match packet.layer Layer.dns? with
  | some dns => fillDNS dns pf
  | none => pf

def parseICMP (payload : Bytes) (pf : PacketFeature) : Except Panic PacketFeature := do
  let pf := { pf with
    proto := .icmp, payload := payload, icmpPayloadLen := UInt32.ofNat payload.length }
  if payload.length ≥ 6 then
    return { pf with icmpSeq := UInt32.ofNat (← bigEndian16 payload 4) }
  return pf

/-- `Parse` of a frame at the time `now`. -/
def parse (decode : Bytes → Option Dns) (now : UInt64) (packet : Packet) :
    Except ParseErr PacketFeature :=
  let wire := if packet.length > 0 then packet.length.toNat else packet.data.length
  let pf : PacketFeature := {
    rawPacket := packet.data
    capturedLen := UInt32.ofNat packet.data.length
    packetTimeUsec := packet.timestampUsec.getD now
    wireLen := wireLength (UInt32.ofNat wire) 0 packet.layers }
  match (packet.layer Layer.ipv4?).or (packet.layer Layer.ipv6?) with
  | none => .error .noNetwork
  | some (src, dst) =>
    let pf := { pf with srcIP := src, dstIP := dst }
    let parsed : Except Panic PacketFeature :=
      match packet.layer Layer.tcp? with
      | some tcp => parseTCP decode tcp pf
      | none =>
        match packet.layer Layer.udp? with
        | some udp => return parseUDP packet udp pf
        | none => do
          let pf ← match packet.layer Layer.icmp? with
            | some payload => parseICMP payload pf
            | none => pure pf
          return if pf.payload = [] then pf
            else { pf with payloadSample := samplePayload pf.payload }
    parsed.mapError .decodePanic

end TaNode

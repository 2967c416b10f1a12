import TaNode.Parser.Address
import TaNode.Parser.Hello

/-! Captured frames, with the addresses in their network headers as bytes.

    `Parse` keeps the addresses of a packet as text, the dispatcher hashes their bytes. A `Frame` has
    the bytes, and `Frame.packet` is what the parser reads of it. The header of a parsed packet, its
    addresses, ports, protocol and time, comes from the layers alone: what the parser finds in the
    payload depends on none of these and changes none (`Header`). Neither does it find a status
    code. -/

namespace TaNode

variable {f : PacketFeature → Except Panic PacketFeature} {pf pf' : PacketFeature} {α : Type}
  {n : Bytes × Bytes × UInt8} {decode : Bytes → Option Dns} {now : UInt64}

/-! ### Headers -/

/-- Who sends what kind of packet to whom, and when; with the status code, which stays what it is. -/
structure Header where
  packetTimeUsec : UInt64
  srcIP : String
  srcPort : UInt16
  dstIP : String
  dstPort : UInt16
  proto : Proto
  httpStatusCode : UInt16

namespace PacketFeature

def header (pf : PacketFeature) : Header where
  packetTimeUsec := pf.packetTimeUsec
  srcIP := pf.srcIP
  srcPort := pf.srcPort
  dstIP := pf.dstIP
  dstPort := pf.dstPort
  proto := pf.proto
  httpStatusCode := pf.httpStatusCode

def withHeader (pf : PacketFeature) (h : Header) : PacketFeature :=
  { pf with
    packetTimeUsec := h.packetTimeUsec, srcIP := h.srcIP, srcPort := h.srcPort
    dstIP := h.dstIP, dstPort := h.dstPort, proto := h.proto, httpStatusCode := h.httpStatusCode }

@[simp] theorem header_withHeader (pf : PacketFeature) (h : Header) : (pf.withHeader h).header = h := rfl

@[simp] theorem withHeader_header (pf : PacketFeature) : pf.withHeader pf.header = pf := rfl

@[simp] theorem payload_withHeader (pf : PacketFeature) (h : Header) :
    (pf.withHeader h).payload = pf.payload := rfl

end PacketFeature

/-- A parser of the payload: it neither reads nor writes the header. -/
def Headerless (f : PacketFeature → Except Panic PacketFeature) : Prop :=
  ∀ pf h, f (pf.withHeader h) = (f pf).map (·.withHeader h)

theorem Headerless.header (hf : Headerless f) (h : f pf = .ok pf') : pf'.header = pf.header := by
  have hsame := hf pf pf.header
  rw [PacketFeature.withHeader_header, h] at hsame
  have hpf' : pf' = pf'.withHeader pf.header := Except.ok.inj hsame
  rw [hpf', PacketFeature.header_withHeader]

theorem parseHeader_withHeader (path : Bytes) (pf : PacketFeature) (h : Header) (line : Bytes) :
    parseHeader path (pf.withHeader h) line = (parseHeader path pf line).withHeader h := by
  rw [parseHeader, parseHeader]
  cases cut (utf8 ":") line with
  | none => rfl
  | some entry =>
    by_cases hhost : toLower (trimSpace entry.1) = utf8 "host"
    · by_cases hsafe : toLower (trimSpace entry.1) ∈ safeHTTPHeaders
      · simp only [if_pos hhost, if_pos hsafe]
        rfl
      · simp only [if_pos hhost, if_neg hsafe]
        rfl
    · by_cases hagent : toLower (trimSpace entry.1) = utf8 "user-agent"
      · by_cases hsafe : toLower (trimSpace entry.1) ∈ safeHTTPHeaders
        · simp only [if_neg hhost, if_pos hagent, if_pos hsafe]
          rfl
        · simp only [if_neg hhost, if_pos hagent, if_neg hsafe]
          rfl
      · by_cases hsafe : toLower (trimSpace entry.1) ∈ safeHTTPHeaders
        · simp only [if_neg hhost, if_neg hagent, if_pos hsafe]
          rfl
        · simp only [if_neg hhost, if_neg hagent, if_neg hsafe]

theorem foldl_parseHeader_withHeader (path : Bytes) (lines : List Bytes) (h : Header) :
    ∀ pf : PacketFeature, lines.foldl (parseHeader path) (pf.withHeader h) =
      (lines.foldl (parseHeader path) pf).withHeader h := by
  induction lines with
  | nil => exact fun _ => rfl
  | cons line lines ih =>
    intro pf
    rw [List.foldl_cons, List.foldl_cons, parseHeader_withHeader, ih]

/-- The bytes that are read as a number begin with a space. -/
theorem parseUint16_space (s : Bytes) : parseUint16 (32 :: s) = 0 := by
  rw [parseUint16, if_neg]
  rintro ⟨-, hdigits⟩
  have hspace := List.all_eq_true.mp hdigits 32 List.mem_cons_self
  exact absurd hspace (by decide)

/-- No payload has a status code where the parser looks for it. -/
theorem parseStatus_eq (status : UInt16) (payload : Bytes) :
    parseStatus status payload = .ok status := by
  rw [parseStatus]
  split
  · rename_i h
    have hslice : (payload.take 12).drop 9 = 32 :: (payload.take 12).drop 10 := by
      refine drop_of_getElem? ?_
      rw [List.getElem?_take_of_lt (by decide)]
      exact h.2
    rw [sliceTo_of_le (by omega)]
    change Except.ok (if parseUint16 ((payload.take 12).drop 9) ≥ 100 then _ else _) = _
    rw [hslice, parseUint16_space, if_neg (by decide)]
  · rfl

theorem parseHTTP_headerless : Headerless parseHTTP := by
  intro pf h
  rw [parseHTTP, parseHTTP, PacketFeature.payload_withHeader]
  split
  · rfl
  · split
    · rw [parseStatus_eq, parseStatus_eq]
      rfl
    · cases httpRequestLine pf.payload with
      | none => rfl
      | some line =>
        symm
        exact congrArg Except.ok (foldl_parseHeader_withHeader _ _ h _).symm

theorem parseTLS_headerless : Headerless parseTLS := by
  intro pf h
  rw [parseTLS, parseTLS, PacketFeature.payload_withHeader]
  cases tlsClientHelloSNI pf.payload with
  | error e => rfl
  | ok host => cases host <;> rfl

theorem fillDNS_headerless (dns : Dns) : Headerless fun pf => .ok (fillDNS dns pf) := by
  intro pf h
  dsimp only
  rw [fillDNS, fillDNS]
  cases dns.questions <;> rfl

theorem handshakeDirection_headerless (tcp : Tcp) :
    Headerless fun pf => .ok (handshakeDirection tcp pf) := by
  intro pf h
  refine congrArg Except.ok ?_
  have hdirection : (pf.withHeader h).messageDirection = pf.messageDirection := rfl
  rw [handshakeDirection, handshakeDirection, hdirection]
  by_cases hnone : pf.messageDirection = .none
  · by_cases hrequest : tcp.synFlag ∧ ¬ tcp.ackFlag
    · simp only [if_pos hnone, if_pos hrequest]
      rfl
    · by_cases hresponse : tcp.synFlag ∧ tcp.ackFlag
      · simp only [if_pos hnone, if_neg hrequest, if_pos hresponse]
        rfl
      · simp only [if_pos hnone, if_neg hrequest, if_neg hresponse]
  · simp only [if_neg hnone]

theorem parseDNSOverTCP_headerless (decode : Bytes → Option Dns) :
    Headerless (parseDNSOverTCP decode) := by
  intro pf h
  rw [parseDNSOverTCP, parseDNSOverTCP, PacketFeature.payload_withHeader]
  split
  · rfl
  · cases bigEndian16 pf.payload 0 with
    | error e => rfl
    | ok n =>
      dsimp only [bind, Except.bind]
      split
      · rfl
      · cases sliceFrom pf.payload 2 with
        | error e => rfl
        | ok rest =>
          dsimp only
          cases sliceTo rest n with
          | error e => rfl
          | ok message =>
            dsimp only
            cases decode message with
            | none => rfl
            | some dns => exact fillDNS_headerless dns pf h

/-! ### Frames -/

/-- The layers of a frame; an address is in bytes, 4 of them in IPv4 and 16 in IPv6. -/
inductive WireLayer where
  | ipv4 (length : UInt16) (protocol : UInt8) (src dst : { b : Bytes // b.length = 4 })
  | ipv6 (length : UInt16) (nextHeader : UInt8) (src dst : { b : Bytes // b.length = 16 })
  | tcp (t : Tcp)
  | udp (srcPort dstPort : UInt16) (payload : Bytes)
  | icmpv4 (payload : Bytes)
  | dns (d : Dns)
  | other

/-- What `Parse` reads of a layer. -/
def WireLayer.layer : WireLayer → Layer
  | .ipv4 length _ src dst => .ipv4 length (ipString src) (ipString dst)
  | .ipv6 length _ src dst => .ipv6 length (ipString src) (ipString dst)
  | .tcp t => .tcp t
  | .udp srcPort dstPort payload => .udp srcPort dstPort payload
  | .icmpv4 payload => .icmpv4 payload
  | .dns d => .dns d
  | .other => .other

inductive IPVersion where
  | v4 | v6
  deriving DecidableEq, Repr

namespace IPVersion

def addressLength : IPVersion → Nat
  | .v4 => 4
  | .v6 => 16

theorem ipString_inj (v : IPVersion) {a b : Bytes} (ha : a.length = v.addressLength)
    (hb : b.length = v.addressLength) (h : ipString a = ipString b) : a = b := by
  refine TaNode.ipString_inj ?_ (ha.trans hb.symm) h
  cases v with
  | v4 => exact .inl ha
  | v6 => exact .inr ha

end IPVersion

structure Frame where
  data : Bytes
  timestampUsec : Option UInt64
  length : Int
  layers : List (WireLayer × Nat)

namespace Frame

/-- The packet as the parser sees it. -/
def packet (f : Frame) : Packet where
  data := f.data
  timestampUsec := f.timestampUsec
  length := f.length
  layers := f.layers.map fun l => (l.1.layer, l.2)

/-- `pkt.Layer`: the first layer of a kind. -/
def layer {α : Type} (f : Frame) (kind : WireLayer → Option α) : Option α :=
  f.layers.findSome? fun l => kind l.1

end Frame

namespace WireLayer

/-- The addresses of an IPv4 header, and what it says of the next layer. -/
def ipv4? : WireLayer → Option (Bytes × Bytes × UInt8)
  | .ipv4 _ protocol src dst => some (src, dst, protocol)
  | _ => none

def ipv6? : WireLayer → Option (Bytes × Bytes × UInt8)
  | .ipv6 _ nextHeader src dst => some (src, dst, nextHeader)
  | _ => none

def tcp? : WireLayer → Option Tcp
  | .tcp t => some t
  | _ => none

def udp? : WireLayer → Option (UInt16 × UInt16 × Bytes)
  | .udp src dst payload => some (src, dst, payload)
  | _ => none

end WireLayer

namespace Frame
variable {f : Frame}

/-- The parser's first layer of a kind is that of the frame. -/
theorem layer_packet {β : Type} {kind : WireLayer → Option α} {kind' : Layer → Option β} {g : α → β}
    (h : ∀ l, kind' l.layer = (kind l).map g) (f : Frame) :
    f.packet.layer kind' = (f.layer kind).map g := by
  rw [Packet.layer, layer, packet, List.findSome?_map, List.map_findSome?]
  congr 1
  funext l
  exact h l.1

/-- The texts of the addresses of a network header. -/
def addresses (n : Bytes × Bytes × UInt8) : String × String := (ipString n.1, ipString n.2.1)

theorem ipv4_packet (f : Frame) :
    f.packet.layer Layer.ipv4? = (f.layer WireLayer.ipv4?).map addresses :=
  layer_packet (by intro l; cases l <;> rfl) f

theorem ipv6_packet (f : Frame) :
    f.packet.layer Layer.ipv6? = (f.layer WireLayer.ipv6?).map addresses :=
  layer_packet (by intro l; cases l <;> rfl) f

theorem tcp_packet (f : Frame) : f.packet.layer Layer.tcp? = f.layer WireLayer.tcp? := by
  have h := @layer_packet _ _ WireLayer.tcp? Layer.tcp? id (by intro l; cases l <;> rfl) f
  rwa [Option.map_id] at h

theorem udp_packet (f : Frame) : f.packet.layer Layer.udp? = f.layer WireLayer.udp? := by
  have h := @layer_packet _ _ WireLayer.udp? Layer.udp? id (by intro l; cases l <;> rfl) f
  rwa [Option.map_id] at h

/-- The network header both the parser and the dispatcher use: the first of IPv4, if there is none
    the first of IPv6. -/
def network (f : Frame) : Option (Bytes × Bytes × UInt8) :=
  (f.layer WireLayer.ipv4?).or (f.layer WireLayer.ipv6?)

theorem network_packet (f : Frame) :
    (f.packet.layer Layer.ipv4?).or (f.packet.layer Layer.ipv6?) = f.network.map addresses := by
  rw [ipv4_packet, ipv6_packet, network]
  cases f.layer WireLayer.ipv4? <;> rfl

/-- The version of this header. -/
def version (f : Frame) : Option IPVersion :=
  if (f.layer WireLayer.ipv4?).isSome then some .v4
  else if (f.layer WireLayer.ipv6?).isSome then some .v6
  else none

theorem layer_mem {kind : WireLayer → Option α} {a : α} (h : f.layer kind = some a) :
    ∃ l, kind l = some a := by
  obtain ⟨l, -, hl⟩ := List.exists_of_findSome?_eq_some h
  exact ⟨l.1, hl⟩

theorem network_version (h : f.network = some n) :
    ∃ v, f.version = some v ∧ n.1.length = v.addressLength ∧ n.2.1.length = v.addressLength := by
  rw [network] at h
  rw [version]
  cases h4 : f.layer WireLayer.ipv4? with
  | some n4 =>
    rw [h4] at h
    cases h
    obtain ⟨l, hl⟩ := layer_mem h4
    cases l with
    | ipv4 length protocol src dst =>
      cases hl
      exact ⟨.v4, rfl, src.2, dst.2⟩
    | _ => cases hl
  | none =>
    rw [h4, Option.none_or] at h
    rw [h]
    obtain ⟨l, hl⟩ := layer_mem h
    cases l with
    | ipv6 length nextHeader src dst =>
      cases hl
      exact ⟨.v6, rfl, src.2, dst.2⟩
    | _ => cases hl

/-- The ports and the protocol of the transport header. -/
def transport (f : Frame) : Option (UInt16 × UInt16 × Proto) :=
  match f.layer WireLayer.tcp? with
  | some t => some (t.srcPort, t.dstPort, .tcp)
  | none => (f.layer WireLayer.udp?).map fun u => (u.1, u.2.1, .udp)

end Frame

/-! ### The header of a parsed frame -/

theorem parseTCP_header {tcp : Tcp} (h : parseTCP decode tcp pf = .ok pf') :
    pf'.header = { pf.header with
      srcPort := tcp.srcPort, dstPort := tcp.dstPort, proto := .tcp } := by
  simp only [parseTCP, bind, Except.bind] at h
  split at h
  · cases h
  · next http hhttp =>
    split at h
    · cases h
    · next tls htls =>
      have hbefore : (handshakeDirection tcp tls).header = { pf.header with
          srcPort := tcp.srcPort, dstPort := tcp.dstPort, proto := .tcp } := by
        rw [(handshakeDirection_headerless tcp).header rfl, parseTLS_headerless.header htls,
          parseHTTP_headerless.header hhttp]
        rfl
      split at h
      · rw [(parseDNSOverTCP_headerless decode).header h, hbefore]
      · rw [← Except.ok.inj h, hbefore]

theorem parseUDP_header (packet : Packet) (udp : UInt16 × UInt16 × Bytes) (pf : PacketFeature) :
    (parseUDP packet udp pf).header = { pf.header with
      srcPort := udp.1, dstPort := udp.2.1, proto := .udp } := by
  rw [parseUDP]
  cases packet.layer Layer.dns? with
  | none => rfl
  | some dns => exact (fillDNS_headerless dns).header rfl

theorem ok_of_mapError {ε ε' : Type} {f : ε → ε'} {x : Except ε α} {a : α}
    (h : x.mapError f = .ok a) : x = .ok a := by
  cases x with
  | error e => cases h
  | ok b => rw [Except.ok.inj h]

/-- What a TCP or UDP frame is parsed to has the addresses of its network header as text and the
    ports of its transport header. -/
theorem parse_header {f : Frame} {p : UInt16 × UInt16 × Proto} (hn : f.network = some n)
    (hp : f.transport = some p) (h : parse decode now f.packet = .ok pf) :
    pf.header = {
      packetTimeUsec := f.timestampUsec.getD now
      srcIP := ipString n.1, srcPort := p.1, dstIP := ipString n.2.1, dstPort := p.2.1
      proto := p.2.2, httpStatusCode := 0 } := by
  rw [parse, Frame.network_packet, hn, Frame.tcp_packet, Frame.udp_packet] at h
  rw [Frame.transport] at hp
  cases htcp : f.layer WireLayer.tcp? with
  | some tcp =>
    rw [htcp] at h hp
    cases hp
    exact parseTCP_header (ok_of_mapError h)
  | none =>
    rw [htcp] at h hp
    cases hudp : f.layer WireLayer.udp? with
    | none =>
      rw [hudp] at hp
      cases hp
    | some udp =>
      rw [hudp] at h hp
      cases hp
      rw [← Except.ok.inj (ok_of_mapError h)]
      exact parseUDP_header f.packet udp _

theorem network_of_parse {f : Frame} (h : parse decode now f.packet = .ok pf) :
    ∃ n, f.network = some n := by
  rw [parse, Frame.network_packet] at h
  cases hn : f.network with
  | some n => exact ⟨n, rfl⟩
  | none =>
    rw [hn] at h
    cases h

/-! ### Time and addresses -/

/-- When a packet was captured, and its addresses. -/
structure Origin where
  packetTimeUsec : UInt64
  srcIP : String
  dstIP : String
  httpStatusCode : UInt16

namespace PacketFeature

def origin (pf : PacketFeature) : Origin :=
  ⟨pf.packetTimeUsec, pf.srcIP, pf.dstIP, pf.httpStatusCode⟩

def withOrigin (pf : PacketFeature) (o : Origin) : PacketFeature :=
  { pf with
    packetTimeUsec := o.packetTimeUsec, srcIP := o.srcIP, dstIP := o.dstIP
    httpStatusCode := o.httpStatusCode }

end PacketFeature

/-- The header with another origin. -/
def Header.withOrigin (h : Header) (o : Origin) : Header :=
  { h with
    packetTimeUsec := o.packetTimeUsec, srcIP := o.srcIP, dstIP := o.dstIP
    httpStatusCode := o.httpStatusCode }

/-- A parser of the layers above the network: it neither reads nor writes time and addresses. -/
def Originless (f : PacketFeature → Except Panic PacketFeature) : Prop :=
  ∀ pf o, f (pf.withOrigin o) = (f pf).map (·.withOrigin o)

theorem Originless.origin (hf : Originless f) (h : f pf = .ok pf') : pf'.origin = pf.origin := by
  have hsame := hf pf pf.origin
  rw [show pf.withOrigin pf.origin = pf from rfl, h] at hsame
  have hpf' : pf' = pf'.withOrigin pf.origin := Except.ok.inj hsame
  rw [hpf']
  rfl

theorem Originless.bind {g : PacketFeature → Except Panic PacketFeature} (hf : Originless f)
    (hg : Originless g) : Originless fun pf => f pf >>= g := by
  intro pf o
  dsimp only
  rw [hf pf o]
  cases f pf with
  | error e => rfl
  | ok pf' => exact hg pf' o

theorem Headerless.originless (hf : Headerless f) : Originless f := by
  intro pf o
  have hsame := hf pf (pf.header.withOrigin o)
  refine hsame.trans ?_
  cases hpf : f pf with
  | error e => rfl
  | ok pf' =>
    have hheader := hf.header hpf
    rw [← hheader]
    rfl

/-- The end of `parseTCP`, behind the parsers of the payload. -/
theorem dnsPort_originless (decode : Bytes → Option Dns) (tcp : Tcp) : Originless fun pf =>
      if (handshakeDirection tcp pf).srcPort = 53 ∨ (handshakeDirection tcp pf).dstPort = 53 then
        parseDNSOverTCP decode (handshakeDirection tcp pf)
      else .ok (handshakeDirection tcp pf) := by
  intro pf o
  dsimp only
  rw [Except.ok.inj ((handshakeDirection_headerless tcp).originless pf o)]
  have hports : ((handshakeDirection tcp pf).withOrigin o).srcPort = (handshakeDirection tcp pf).srcPort ∧
    ((handshakeDirection tcp pf).withOrigin o).dstPort = (handshakeDirection tcp pf).dstPort := ⟨rfl, rfl⟩
  rw [hports.1, hports.2]
  split
  · exact (parseDNSOverTCP_headerless decode).originless _ o
  · rfl

theorem parseTCP_originless (decode : Bytes → Option Dns) (tcp : Tcp) :
    Originless (parseTCP decode tcp) := by
  intro pf o
  have hafter := parseHTTP_headerless.originless.bind
    (parseTLS_headerless.originless.bind (dnsPort_originless decode tcp))
  exact hafter { pf with
    proto := .tcp, srcPort := tcp.srcPort, dstPort := tcp.dstPort
    tcpSeq := tcp.seq, tcpAck := tcp.ack, tcpSYN := tcp.synFlag, tcpACK := tcp.ackFlag
    tcpFIN := tcp.finFlag, tcpRST := tcp.rstFlag, payload := tcp.payload
    payloadSample := if tcp.payload = [] then [] else samplePayload tcp.payload } o

theorem parseUDP_origin (packet : Packet) (udp : UInt16 × UInt16 × Bytes) (pf : PacketFeature)
    (o : Origin) : parseUDP packet udp (pf.withOrigin o) = (parseUDP packet udp pf).withOrigin o := by
  rw [parseUDP, parseUDP]
  cases packet.layer Layer.dns? with
  | none => rfl
  | some dns => exact Except.ok.inj ((fillDNS_headerless dns).originless { pf with
      proto := .udp, srcPort := udp.1, dstPort := udp.2.1, payload := udp.2.2 } o)

theorem parseICMP_originless (payload : Bytes) : Originless (parseICMP payload) := by
  intro pf o
  rw [parseICMP, parseICMP]
  split
  · cases bigEndian16 payload 4 <;> rfl
  · rfl

/-- What `Parse` does with the layers above the network. -/
def parseTransport (decode : Bytes → Option Dns) (packet : Packet) (pf : PacketFeature) :
    Except Panic PacketFeature :=
  match packet.layer Layer.tcp? with
  | some tcp => parseTCP decode tcp pf
  | none =>
    match packet.layer Layer.udp? with
    | some udp => return parseUDP packet udp pf
    | none => do
      let pf ← match packet.layer Layer.icmp? with
        | some payload => parseICMP payload pf
        | none => pure pf
      return if pf.payload = [] then pf
        else { pf with payloadSample := samplePayload pf.payload }

theorem parseTransport_originless (decode : Bytes → Option Dns) (packet : Packet) :
    Originless (parseTransport decode packet) := by
  intro pf o
  rw [parseTransport, parseTransport]
  cases packet.layer Layer.tcp? with
  | some tcp => exact parseTCP_originless decode tcp pf o
  | none =>
    cases packet.layer Layer.udp? with
    | some udp => exact congrArg Except.ok (parseUDP_origin packet udp pf o)
    | none =>
      have hsample : Originless fun pf => .ok (if pf.payload = [] then pf
          else { pf with payloadSample := samplePayload pf.payload }) := by
        intro pf o
        by_cases hpayload : pf.payload = []
        · simp only [show (pf.withOrigin o).payload = pf.payload from rfl, if_pos hpayload]
          rfl
        · simp only [show (pf.withOrigin o).payload = pf.payload from rfl, if_neg hpayload]
          rfl
      cases packet.layer Layer.icmp? with
      | some payload => exact (parseICMP_originless payload).bind hsample pf o
      | none => exact hsample pf o

/-- The packet before its layers above the network are parsed. -/
def captured (packet : Packet) (o : Origin) : PacketFeature where
  rawPacket := packet.data
  capturedLen := UInt32.ofNat packet.data.length
  packetTimeUsec := o.packetTimeUsec
  wireLen := wireLength
    (UInt32.ofNat (if packet.length > 0 then packet.length.toNat else packet.data.length)) 0 packet.layers
  srcIP := o.srcIP
  dstIP := o.dstIP
  httpStatusCode := o.httpStatusCode

theorem parse_eq (decode : Bytes → Option Dns) (now : UInt64) (f : Frame) :
    parse decode now f.packet = match f.network with
      | none => .error .noNetwork
      | some n => (parseTransport decode f.packet (captured f.packet
          ⟨f.timestampUsec.getD now, ipString n.1, ipString n.2.1, 0⟩)).mapError .decodePanic := by
  rw [parse, Frame.network_packet]
  cases f.network <;> rfl

/-- Whatever the transport, time and addresses of a parsed frame are those of its capture and its
    network header. -/
theorem parse_origin {f : Frame} (hn : f.network = some n) (h : parse decode now f.packet = .ok pf) :
    pf.origin = ⟨f.timestampUsec.getD now, ipString n.1, ipString n.2.1, 0⟩ := by
  rw [parse_eq, hn] at h
  exact (parseTransport_originless decode f.packet).origin (ok_of_mapError h)

/-- The time at which a frame is parsed counts for one without a time of its own, and for nothing
    else. -/
theorem parse_now (decode : Bytes → Option Dns) (now : UInt64) (f : Frame) :
    parse decode now f.packet = (parse decode 0 f.packet).map fun pf =>
      { pf with packetTimeUsec := f.timestampUsec.getD now } := by
  rw [parse_eq, parse_eq]
  cases f.network with
  | none => rfl
  | some n =>
    have horigin := parseTransport_originless decode f.packet
    have hsame := horigin
      (captured f.packet ⟨f.timestampUsec.getD 0, ipString n.1, ipString n.2.1, 0⟩)
      ⟨f.timestampUsec.getD now, ipString n.1, ipString n.2.1, 0⟩
    dsimp only
    rw [show captured f.packet ⟨f.timestampUsec.getD now, ipString n.1, ipString n.2.1, 0⟩ =
      (captured f.packet ⟨f.timestampUsec.getD 0, ipString n.1, ipString n.2.1, 0⟩).withOrigin
        ⟨f.timestampUsec.getD now, ipString n.1, ipString n.2.1, 0⟩ from rfl, hsame]
    cases hpf : parseTransport decode f.packet
        (captured f.packet ⟨f.timestampUsec.getD 0, ipString n.1, ipString n.2.1, 0⟩) with
    | error e => rfl
    | ok pf =>
      obtain ⟨-, hsrc, hdst, hstatus⟩ := Origin.mk.inj (horigin.origin hpf)
      simp only [Except.map, Except.mapError, PacketFeature.withOrigin, hsrc, hdst, hstatus]
      rfl

/-- No address of a parsed frame has a character other than hexadecimal digits, dots and colons. -/
theorem parse_addresses_notMem {f : Frame} {c : Char} (hdigit : c.isDigit = false)
    (hhex : ∀ k < 16, hexDigit k ≠ c) (hdot : c ≠ '.') (hcolon : c ≠ ':')
    (h : parse decode now f.packet = .ok pf) : c ∉ pf.srcIP.toList ∧ c ∉ pf.dstIP.toList := by
  obtain ⟨n, hn⟩ := network_of_parse h
  obtain ⟨v, -, hsrc, hdst⟩ := Frame.network_version hn
  have hlength : ∀ {b : Bytes}, b.length = v.addressLength → b.length = 4 ∨ b.length = 16 := by
    intro b hb
    cases v with
    | v4 => exact .inl hb
    | v6 => exact .inr hb
  have horigin := parse_origin hn h
  rw [show pf.srcIP = ipString n.1 from congrArg Origin.srcIP horigin,
    show pf.dstIP = ipString n.2.1 from congrArg Origin.dstIP horigin]
  exact ⟨notMem_ipString hdigit hhex hdot hcolon (hlength hsrc),
    notMem_ipString hdigit hhex hdot hcolon (hlength hdst)⟩

end TaNode

import TaNode.Correlation.Tracker
import TaNode.Intel.Store
import TaNode.Parser.Frame
import TaNode.Schemes.Table

/-! From a parsed packet to the ids of its events: the fingerprint rules, the flow aggregator and the
    event ids of the detector.

    An event id is a digest of the flow's first time, the packet's time, the ordinal of the packet,
    the five-tuple and the rule or indicator that was hit. First time and ordinal come from the
    aggregator, one for all workers: it numbers the packets in the order in which they reach it.

        packet ──▶ Match ──▶ Update (n-th call) ──▶ Detect ──▶ "evt-" digest (first | time | n | …)

    The aggregator keeps a table of flows, one for each direction, and a table of pairs, one for both.
    What `Update` returns is the stored flow with the context of the packet and the counters of its
    pair; only the flow is stored. -/

namespace TaNode.Flow
open Correlation

/-! ### Fingerprint rules -/

/-- A compiled rule; `find` is `FindIndex` of its regular expression. -/
structure PatternRule where
  id : Bytes
  type : Bytes := []
  name : Bytes := []
  protocol : Bytes := []
  port : Int := 0
  isHTTP : Int := 0
  part : Bytes := []
  find : Bytes → Option (Nat × Nat)

structure FingerprintHit where
  ruleID : Bytes
  type : Bytes
  name : Bytes
  matchFrom : Int
  matchTo : Int
  deriving DecidableEq

/-- `strings.EqualFold` with the name of a protocol, none of whose letters has another form than its
    two ASCII ones. -/
def equalFold (s : Bytes) (proto : Proto) : Bool :=
  s.map (fun b => if 65 ≤ b ∧ b ≤ 90 then b + 32 else b) = utf8 (Proto.text proto)

def ruleApplies (rule : PatternRule) (pf : PacketFeature) : Bool :=
  if rule.protocol ≠ [] ∧ ¬ equalFold rule.protocol pf.proto then false
  else if rule.port ≠ 0 ∧ rule.port ≠ pf.srcPort.toNat ∧ rule.port ≠ pf.dstPort.toNat then false
  else if rule.isHTTP = 1 ∧ pf.httpMethod = [] then false
  else true

def targetPayload (rule : PatternRule) (pf : PacketFeature) : Bytes :=
  if rule.isHTTP = 1 then
    if toLower rule.part = utf8 "head" then pf.httpHeader
    else if toLower rule.part = utf8 "body" then pf.httpBody
    else pf.payload
  else pf.payload

/-- `Engine.Match` -/
def fingerprints (rules : List PatternRule) (pf : PacketFeature) : List FingerprintHit :=
  rules.filterMap fun rule =>
    if ruleApplies rule pf then
      if targetPayload rule pf = [] then none
      else (rule.find (targetPayload rule pf)).map fun (from', to') =>
        ⟨rule.id, rule.type, rule.name, from', to'⟩
    else none

/-! ### The aggregator -/

/-- The counters of both directions; the client is the side with the smaller address. -/
structure PairStats where
  clientPackets : UInt64 := 0
  serverPackets : UInt64 := 0
  clientBytes : UInt64 := 0
  serverBytes : UInt64 := 0
  clientWireBytes : UInt64 := 0
  serverWireBytes : UInt64 := 0
  firstTime : UInt64 := 0
  lastTime : UInt64 := 0

/-- The file of the evidence and the directions that the correlation sets later are left out. -/
structure FlowFeature where
  firstTime : UInt64
  lastTime : UInt64
  srcIP : String
  srcPort : UInt16
  dstIP : String
  dstPort : UInt16
  proto : Proto
  packets : UInt64 := 0
  bytes : UInt64 := 0
  wireBytes : UInt64 := 0
  httpHost : Bytes := []
  httpURL : Bytes := []
  dnsQuery : Bytes := []
  sni : Bytes := []
  httpMethod : Bytes := []
  userAgent : Bytes := []
  httpHeaders : List (Bytes × Bytes) := []
  httpBodySample : Bytes := []
  httpStatusCode : UInt16 := 0
  dnsQType : UInt16 := 0
  dnsAnswers : List Bytes := []
  payloadSample : Bytes := []
  icmpSeq : UInt32 := 0
  rawPacket : Bytes := []
  rawPayload : Bytes := []
  capturedLen : UInt32 := 0
  triggerWireLen : UInt32 := 0
  messageDirection : MessageDirection := .none
  packetTimeUsec : UInt64 := 0
  packetSequence : Nat := 0
  fingerprintHits : List FingerprintHit := []
  intelHits : List Intel.ThreatIntel := []
  pairStats : Option PairStats := none

structure FlowState where
  key : String
  feature : FlowFeature
  lastSeen : Int

structure PairState extends PairStats where
  lastSeen : Int := 0

structure Aggregator where
  flows : List FlowState := []
  pairs : Table String PairState := ∅
  maxFlows : Int
  idleTimeout : Int
  packetSeq : Nat := 0

/-- `NewAggregator`, times in nanoseconds. -/
def newAggregator (maxFlows idleTimeout : Int) : Aggregator where
  maxFlows := if maxFlows ≤ 0 then 1000000 else maxFlows
  idleTimeout := if idleTimeout ≤ 0 then 120000000000 else idleTimeout

/-- The key of the flow of a packet, one for each direction. -/
def flowKey (pf : PacketFeature) : String :=
  pf.srcIP ++ ":" ++ toString pf.srcPort.toNat ++ "-" ++ pf.dstIP ++ ":" ++
    toString pf.dstPort.toNat ++ "-" ++ Proto.text pf.proto

/-- `PairKey`: the smaller of the two endpoints first. `parseIP` is `net.ParseIP`, without bytes for
    a text that is no address. -/
def pairKey (parseIP : String → Bytes) (srcIP : String) (srcPort : UInt16) (dstIP : String)
    (dstPort : UInt16) (proto : Proto) : String :=
  let a := parseIP srcIP
  let b := parseIP dstIP
  if b < a ∨ a = b ∧ srcPort > dstPort then
    dstIP ++ ":" ++ toString dstPort.toNat ++ "-" ++ srcIP ++ ":" ++ toString srcPort.toNat ++ "-" ++
      Proto.text proto
  else
    srcIP ++ ":" ++ toString srcPort.toNat ++ "-" ++ dstIP ++ ":" ++ toString dstPort.toNat ++ "-" ++
      Proto.text proto

def isForward (parseIP : String → Bytes) (srcIP : String) (srcPort : UInt16) (dstIP : String)
    (dstPort : UInt16) (proto : Proto) : Bool :=
  let directKey := srcIP ++ ":" ++ toString srcPort.toNat ++ "-" ++ dstIP ++ ":" ++
    toString dstPort.toNat ++ "-" ++ Proto.text proto
  pairKey parseIP srcIP srcPort dstIP dstPort proto = directKey

def cleanupLocked (a : Aggregator) (now : Int) : Aggregator :=
  { a with
    flows := a.flows.filter fun st => ¬ now - st.lastSeen ≥ a.idleTimeout
    pairs := a.pairs.deleteWhere fun _ ps => now - ps.lastSeen ≥ a.idleTimeout }

def transientFeature (pf : PacketFeature) (fpHits : List FingerprintHit)
    (intelHits : List Intel.ThreatIntel) (packetSeq : Nat) : FlowFeature where
  firstTime := pf.packetTimeUsec
  lastTime := pf.packetTimeUsec
  packetTimeUsec := pf.packetTimeUsec
  srcIP := pf.srcIP
  srcPort := pf.srcPort
  dstIP := pf.dstIP
  dstPort := pf.dstPort
  proto := pf.proto
  packets := 1
  bytes := UInt64.ofNat pf.payload.length
  wireBytes := pf.wireLen.toUInt64
  rawPacket := pf.rawPacket
  rawPayload := pf.payload
  capturedLen := pf.capturedLen
  triggerWireLen := pf.wireLen
  messageDirection := pf.messageDirection
  packetSequence := packetSeq
  httpHost := pf.httpHost
  httpURL := pf.httpURL
  dnsQuery := pf.dnsQuery
  sni := pf.sni
  fingerprintHits := fpHits
  intelHits := intelHits

def firstNonEmpty (old next : Bytes) : Bytes := if old ≠ [] then old else next

/-- The flow a first packet makes. -/
def newFlow (pf : PacketFeature) : FlowState where
  key := flowKey pf
  feature := {
    firstTime := pf.packetTimeUsec, lastTime := 0
    srcIP := pf.srcIP, srcPort := pf.srcPort, dstIP := pf.dstIP, dstPort := pf.dstPort
    proto := pf.proto }
  lastSeen := 0

/-- One more packet in its flow. -/
def touch (now : Int) (pf : PacketFeature) (st : FlowState) : FlowState :=
  { st with
    feature := { st.feature with
      lastTime := pf.packetTimeUsec, packetTimeUsec := pf.packetTimeUsec
      packets := st.feature.packets + 1
      bytes := st.feature.bytes + UInt64.ofNat pf.payload.length
      wireBytes := st.feature.wireBytes + pf.wireLen.toUInt64
      httpHost := firstNonEmpty st.feature.httpHost pf.httpHost
      httpURL := firstNonEmpty st.feature.httpURL pf.httpURL
      dnsQuery := firstNonEmpty st.feature.dnsQuery pf.dnsQuery
      sni := firstNonEmpty st.feature.sni pf.sni }
    lastSeen := now }

/-- The context of the packet goes on the feature that is returned, not on the stored flow. -/
def attachAppContext (out : FlowFeature) (pf : PacketFeature) : FlowFeature :=
  { out with
    httpMethod := pf.httpMethod
    userAgent := pf.userAgent
    httpHeaders := pf.httpHeaders
    httpBodySample := pf.httpBodySample
    dnsQType := pf.dnsQType
    dnsAnswers := pf.dnsAnswers
    payloadSample := pf.payloadSample
    icmpSeq := pf.icmpSeq
    httpStatusCode := pf.httpStatusCode
    rawPacket := pf.rawPacket
    rawPayload := pf.payload
    capturedLen := pf.capturedLen
    triggerWireLen := pf.wireLen
    messageDirection := pf.messageDirection
    httpHost := firstNonEmpty pf.httpHost out.httpHost
    httpURL := firstNonEmpty pf.httpURL out.httpURL
    dnsQuery := firstNonEmpty pf.dnsQuery out.dnsQuery
    sni := firstNonEmpty pf.sni out.sni }

/-- The feature that is returned: the flow's with the packet's hits, its ordinal and its context. -/
def FlowState.out (st : FlowState) (pf : PacketFeature) (fpHits : List FingerprintHit)
    (intelHits : List Intel.ThreatIntel) (packetSeq : Nat) : FlowFeature :=
  attachAppContext { st.feature with
    fingerprintHits := fpHits, intelHits := intelHits, packetSequence := packetSeq } pf

/-- One more packet in its pair. -/
def touchPair (parseIP : String → Bytes) (now : Int) (pf : PacketFeature) (ps : PairState) :
    PairState :=
  let firstTime :=
    if pf.packetTimeUsec > 0 ∧ (ps.firstTime = 0 ∨ pf.packetTimeUsec < ps.firstTime) then
      pf.packetTimeUsec
    else ps.firstTime
  let ps := { ps with lastTime := pf.packetTimeUsec, firstTime := firstTime, lastSeen := now }
  if isForward parseIP pf.srcIP pf.srcPort pf.dstIP pf.dstPort pf.proto then
    { ps with
      clientPackets := ps.clientPackets + 1
      clientBytes := ps.clientBytes + UInt64.ofNat pf.payload.length
      clientWireBytes := ps.clientWireBytes + pf.wireLen.toUInt64 }
  else
    { ps with
      serverPackets := ps.serverPackets + 1
      serverBytes := ps.serverBytes + UInt64.ofNat pf.payload.length
      serverWireBytes := ps.serverWireBytes + pf.wireLen.toUInt64 }

/-- The clock is read up to three times in a call: for the cleanup, for the flow and for the pair. -/
structure Readings where
  cleanup : Int
  flow : Int
  pair : Int

section
variable (parseIP : String → Bytes)

/-- The packet is counted for the flow `st`, which goes into the table, and for its pair. -/
def count (a : Aggregator) (now : Readings) (pf : PacketFeature) (fpHits : List FingerprintHit)
    (intelHits : List Intel.ThreatIntel) (st : FlowState) : FlowFeature × Aggregator :=
  let st := touch now.flow pf st
  let key := pairKey parseIP pf.srcIP pf.srcPort pf.dstIP pf.dstPort pf.proto
  let ps := touchPair parseIP now.pair pf ((a.pairs.lookup key).getD
    { firstTime := pf.packetTimeUsec })
  ({ st.out pf fpHits intelHits a.packetSeq with pairStats := some ps.toPairStats },
    { a with flows := st :: a.flows, pairs := a.pairs.insert key ps })

section
variable {parseIP} (a : Aggregator) (now : Readings) (pf : PacketFeature)
  (fpHits : List FingerprintHit) (intelHits : List Intel.ThreatIntel) (st : FlowState)

@[simp] theorem count_flows :
    (count parseIP a now pf fpHits intelHits st).2.flows = touch now.flow pf st :: a.flows := rfl

@[simp] theorem count_packetSeq :
    (count parseIP a now pf fpHits intelHits st).2.packetSeq = a.packetSeq := rfl

@[simp] theorem count_maxFlows :
    (count parseIP a now pf fpHits intelHits st).2.maxFlows = a.maxFlows := rfl

@[simp] theorem touch_key (now : Int) : (touch now pf st).key = st.key := rfl

end

/-- `Aggregator.Update` -/
def update (a : Aggregator) (now : Readings) (pf : PacketFeature) (fpHits : List FingerprintHit)
    (intelHits : List Intel.ThreatIntel) : FlowFeature × Aggregator :=
  let a := { a with packetSeq := a.packetSeq + 1 }
  match a.flows.find? (·.key = flowKey pf) with
  | some st =>
    count parseIP { a with flows := a.flows.filter (·.key ≠ flowKey pf) } now pf fpHits intelHits st
  | none =>
    let a := if a.flows.length ≥ a.maxFlows then cleanupLocked a now.cleanup else a
    if a.flows.length ≥ a.maxFlows then (transientFeature pf fpHits intelHits a.packetSeq, a)
    else count parseIP a now pf fpHits intelHits (newFlow pf)

end

/-! ### Event ids -/

/-- `stableEventID`; `digest` is the hexadecimal text of half a SHA-256 sum. -/
def stableEventID (digest : Bytes → String) (f : FlowFeature) (parts : List Bytes) : String :=
  let packetOrdinal := if f.packetSequence = 0 then f.packets.toNat else f.packetSequence
  let keyParts := [utf8 (toString f.firstTime.toNat), utf8 (toString f.packetTimeUsec.toNat),
    utf8 (toString packetOrdinal), utf8 f.srcIP, utf8 (toString f.srcPort.toNat), utf8 f.dstIP,
    utf8 (toString f.dstPort.toNat), utf8 (Proto.text f.proto)]
  "evt-" ++ digest ((utf8 "|").intercalate (keyParts ++ parts))

def FingerprintHit.parts (hit : FingerprintHit) : List Bytes :=
  [utf8 "fingerprint", hit.ruleID, hit.type, hit.name,
    utf8 (toString hit.matchFrom ++ ":" ++ toString hit.matchTo)]

def intelParts (hit : Intel.ThreatIntel) : List Bytes :=
  [utf8 "intel", hit.id, hit.type, hit.value, hit.source]

/-- The ids of the events of `Detect`: one for every hit, without repetitions. -/
def detectIDs (digest : Bytes → String) (f : FlowFeature) : List String :=
  ((f.fingerprintHits.map FingerprintHit.parts ++ f.intelHits.map intelParts).map
    (stableEventID digest f)).eraseDups

end TaNode.Flow

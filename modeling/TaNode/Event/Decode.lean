import TaNode.Event.ThreatEvent

/-! `json.Unmarshal` of the text of an event into a `ThreatEvent`, one struct field at a time.

    The text is an object that lacks the empty `omitempty` fields. Unmarshalling starts from the zero
    value and sets every field whose name the object has as a member; a number out of the range of
    its field is an error.

        event ──toValue──▶ fields ──omitempty──▶ members ──ofValue──▶ event

    The fields that a summary keeps come back as they were (`summarize_ofValue`), so summarizing and
    reading back commute (`ofValue_summarize`). -/

namespace TaNode

variable {u v : Value} {α : Type}

/-! ### Scalars, pointers and lists -/

/-- A field set from the member `name`; without one it keeps its zero value. -/
def Value.read {α : Type} (v : Value) (name : String) (get : Value → Option α) (zero : α) : Option α :=
  match v.member name with
  | none => some zero
  | some u => get u

def readText : Value → Option String
  | .str b => String.fromUTF8? b.toByteArray
  | _ => none

def readBool : Value → Option Bool
  | .bool b => some b
  | _ => none

/-- An unsigned field of `bits` bits. -/
def readUint (bits : Nat) : Value → Option Nat
  | .uint n => if n < 2 ^ bits then some n else none
  | _ => none

/-- An `int` or `int64` field. -/
def readInt : Value → Option Int
  | .int i => if -2 ^ 63 ≤ i ∧ i < 2 ^ 63 then some i else none
  | _ => none

def readList {α : Type} (get : Value → Option α) : Value → Option (List α)
  | .slice xs => xs.mapM get
  | _ => none

/-- A `map[string]string`. -/
def readTextMap : Value → Option (List (String × String))
  | .map kvs => kvs.mapM fun e => (readText e.2).map (e.1, ·)
  | _ => none

def readPointer {α : Type} (get : Value → Option α) : Value → Option (Option α)
  | .nil => some none
  | .ref v => (get v).map some
  | _ => none

namespace Value
variable (v : Value)

def getText (name : String) : Option String := v.read name readText ""

def getBool (name : String) : Option Bool := v.read name readBool false

def getUint (bits : Nat) (name : String) : Option Nat := v.read name (readUint bits) 0

def getInt (name : String) : Option Int := v.read name readInt 0

def getList {α : Type} (name : String) (get : Value → Option α) : Option (List α) :=
  v.read name (readList get) []

def getPointer {α : Type} (name : String) (get : Value → Option α) : Option (Option α) :=
  v.read name (readPointer get) none

end Value

/-! ### The parts of an event -/

def Evidence.ofValue (v : Value) : Option Evidence :=
  Evidence.mk <$> v.getText "activity" <*> v.getList "threat_labels" readText <*>
    v.getText "source" <*> v.getText "cross_check" <*> v.getText "confidence" <*>
    v.getText "tlp" <*> v.getText "misp_event_id" <*> v.getText "narrative"

def AppContext.ofValue (v : Value) : Option AppContext :=
  AppContext.mk <$> v.getText "http_method" <*> v.getText "http_host" <*> v.getText "http_url" <*>
    v.getText "user_agent" <*> v.read "http_headers" readTextMap [] <*>
    v.getText "http_body_sample" <*> v.getText "dns_query" <*> v.getUint 16 "dns_qtype" <*>
    v.getList "dns_answers" readText <*> v.getText "tls_sni" <*> v.getText "payload_sample" <*>
    v.getUint 32 "icmp_seq"

def RawMessageContext.ofValue (v : Value) : Option RawMessageContext :=
  RawMessageContext.mk <$> v.getText "capture_time" <*> v.getUint 64 "capture_time_usec" <*>
    v.getUint 64 "packet_sequence" <*> v.getText "packet_hex" <*> v.getText "payload_hex" <*>
    v.getText "payload_text" <*> v.getUint 32 "captured_length" <*> v.getUint 32 "wire_length" <*>
    v.getBool "capture_truncated" <*> v.getUint 32 "tcp_seq" <*> v.getUint 32 "tcp_ack" <*>
    v.getBool "retransmission"

def RawPacketContext.ofValue (v : Value) : Option RawPacketContext := do
  let messageDirection ← v.getText "message_direction"
  let sessionStartTime ← v.getText "session_start_time"
  let sessionStartTimeUsec ← v.getUint 64 "session_start_time_usec"
  let captureTime ← v.getText "capture_time"
  let captureTimeUsec ← v.getUint 64 "capture_time_usec"
  let packetSequence ← v.getUint 64 "packet_sequence"
  let directionSource ← v.getText "direction_source"
  let directionConfidence ← v.getText "direction_confidence"
  let transportDirection ← v.getText "transport_direction"
  let packetHex ← v.getText "packet_hex"
  let payloadHex ← v.getText "payload_hex"
  let payloadText ← v.getText "payload_text"
  let capturedLength ← v.getUint 32 "captured_length"
  let wireLength ← v.getUint 32 "wire_length"
  let captureTruncated ← v.getBool "capture_truncated"
  let request ← v.getPointer "request" RawMessageContext.ofValue
  let response ← v.getPointer "response" RawMessageContext.ofValue
  return ⟨sessionStartTime, sessionStartTimeUsec, captureTime, captureTimeUsec, packetSequence,
    messageDirection, directionSource, directionConfidence, transportDirection, packetHex,
    payloadHex, payloadText, capturedLength, wireLength, captureTruncated, request, response⟩

def ExchangeMessageContext.ofValue (v : Value) : Option ExchangeMessageContext :=
  ExchangeMessageContext.mk <$> v.getUint 64 "capture_start_time_usec" <*>
    v.getUint 64 "capture_end_time_usec" <*> v.getUint 64 "packet_count" <*>
    v.getUint 64 "captured_bytes" <*> v.getUint 64 "wire_bytes" <*>
    v.getUint 64 "retransmissions" <*> v.getText "reassembled_hex" <*>
    v.getText "reassembled_text" <*> v.getBool "truncated" <*> v.getText "completeness_reason" <*>
    v.getBool "reassembly_incomplete" <*> v.getList "packets" RawMessageContext.ofValue

def ExchangeContext.ofValue (v : Value) : Option ExchangeContext := do
  let responseStatus ← v.getText "response_status"
  let request ← v.getPointer "request" ExchangeMessageContext.ofValue
  let response ← v.getPointer "response" ExchangeMessageContext.ofValue
  return ⟨request, response, responseStatus⟩

def SessionSummary.ofValue (v : Value) : Option SessionSummary := do
  let firstTimeUsec ← v.getUint 64 "first_time_usec"
  let lastTimeUsec ← v.getUint 64 "last_time_usec"
  let clientPackets ← v.getUint 64 "client_packets"
  let serverPackets ← v.getUint 64 "server_packets"
  let clientWireBytes ← v.getUint 64 "client_wire_bytes"
  let serverWireBytes ← v.getUint 64 "server_wire_bytes"
  let hitCount ← v.getUint 64 "hit_count"
  let midstream ← v.getBool "midstream"
  return ⟨firstTimeUsec, lastTimeUsec, clientPackets, serverPackets, clientWireBytes,
    serverWireBytes, hitCount, midstream⟩

def AppEndpoint.ofValue (v : Value) : Option AppEndpoint :=
  AppEndpoint.mk <$> v.getText "method" <*> v.getText "path" <*> v.getText "host" <*>
    v.getUint 64 "count" <*> v.getList "user_agents" readText <*>
    v.getText "sample_request_body"

def AppStats.ofValue (v : Value) : Option AppStats :=
  AppStats.mk <$> v.getUint 64 "window_start_usec" <*> v.getUint 64 "window_end_usec" <*>
    v.getUint 64 "request_count" <*> v.getUint 64 "response_count" <*>
    v.getUint 64 "http_4xx_count" <*> v.getUint 64 "http_5xx_count" <*>
    v.getUint 64 "p95_latency_ms" <*> v.getUint 64 "max_latency_ms" <*>
    v.getList "endpoints" AppEndpoint.ofValue

def PayloadFeature.ofValue (v : Value) : Option PayloadFeature :=
  PayloadFeature.mk <$> v.getText "name" <*> v.getUint 64 "count" <*>
    v.getUint 64 "total_requests" <*> v.getText "sample" <*> v.getInt "confidence" <*>
    v.getText "evidence_ref"

def SensitiveKeyword.ofValue (v : Value) : Option SensitiveKeyword :=
  SensitiveKeyword.mk <$> v.getText "keyword" <*> v.getUint 64 "count" <*> v.getText "sample"

def DataExfil.ofValue (v : Value) : Option DataExfil :=
  DataExfil.mk <$> v.getUint 64 "total_wire_bytes" <*> v.getUint 64 "total_packets" <*>
    v.getText "dest" <*> v.getUint 32 "dest_port" <*> v.getBool "encrypted" <*>
    v.getList "sensitive_keywords" SensitiveKeyword.ofValue <*>
    v.getUint 64 "observed_entries"

def IOCStat.ofValue (v : Value) : Option IOCStat :=
  IOCStat.mk <$> v.getText "ioc_value" <*> v.getText "ioc_type" <*> v.getUint 64 "hit_count" <*>
    v.getUint 64 "first_seen_usec" <*> v.getUint 64 "last_seen_usec" <*>
    v.getText "threat_source" <*> v.getText "confidence" <*>
    v.getList "matched_rules" readText <*> v.getInt "expire_at_usec"

def RuleStat.ofValue (v : Value) : Option RuleStat :=
  RuleStat.mk <$> v.getText "rule_id" <*> v.getText "rule_name" <*> v.getUint 64 "hit_count" <*>
    v.getUint 64 "first_seen_usec" <*> v.getUint 64 "last_seen_usec" <*> v.getText "severity" <*>
    v.getText "evidence_ref"

/-- A `float64` as its text and whether it is zero. -/
def readFloat : Value → Option (Option String × Bool)
  | .float (some text) zero => (String.fromUTF8? text.toByteArray).map fun s => (some s, zero)
  | _ => none

def ImpactHints.ofValue (v : Value) : Option ImpactHints :=
  (fun rate => ImpactHints.mk rate.1 rate.2) <$>
    v.read "error_rate_percent" readFloat (some "0", true) <*> v.getBool "latency_degraded" <*>
    v.getUint 64 "latency_baseline_ms" <*>
    v.getUint 64 "latency_observed_ms" <*> v.getUint 64 "affected_entries" <*>
    v.getText "observed_intent" <*> v.getText "intent_basis"

def ActionHint.ofValue (v : Value) : Option ActionHint :=
  ActionHint.mk <$> v.getText "action" <*> v.getText "priority" <*> v.getText "reason" <*>
    v.getText "evidence_ref"

def EvidenceFile.ofValue (v : Value) : Option EvidenceFile :=
  EvidenceFile.mk <$> v.getText "id" <*> v.getText "name" <*> v.getText "type" <*>
    v.getText "path_ref" <*> v.getText "sha256" <*> v.getUint 64 "size" <*>
    v.getText "description"

/-- `null` leaves the slice nil. -/
def readReasons : Value → Option (Option (List String))
  | .nil => some none
  | v => (readList readText v).map some

def SeverityBasis.ofValue (v : Value) : Option SeverityBasis :=
  SeverityBasis.mk <$> v.getInt "score" <*> v.read "reasons" readReasons none

/-- The entries of `raw_feature`, each decoded into an `any`. -/
def readAnyMap (J : Json) : Value → Option (List (String × Value))
  | .map kvs => kvs.mapM fun e => do
    let text ← marshal J e.2
    let value ← J.unmarshalAny text
    return (e.1, value)
  | _ => none

/-! ### The event -/

namespace ThreatEvent

/-- `event_id` to `threat_source`. -/
def readHeader (v : Value) (e : ThreatEvent) : Option ThreatEvent := do
  let eventID ← v.getText "event_id"
  let deviceID ← v.getText "device_id"
  let eventTime ← v.getUint 64 "event_time"
  let eventType ← v.getText "event_type"
  let eventName ← v.getText "event_name"
  let severity ← v.getText "severity"
  let model ← v.getText "model"
  let srcIP ← v.getText "src_ip"
  let srcPort ← v.getUint 16 "src_port"
  let dstIP ← v.getText "dst_ip"
  let dstPort ← v.getUint 16 "dst_port"
  let proto ← v.getText "proto"
  let direction ← v.getText "direction"
  let threatSource ← v.getText "threat_source"
  return { e with eventID, deviceID, eventTime, eventType, eventName, severity, model, srcIP,
                  srcPort, dstIP, dstPort, proto, direction, threatSource }

/-- `ioc_type` to `threat_index`. -/
def readIndicator (v : Value) (e : ThreatEvent) : Option ThreatEvent := do
  let iocType ← v.getText "ioc_type"
  let iocValue ← v.getText "ioc_value"
  let iocCategory ← v.getText "ioc_category"
  let iocID ← v.getText "ioc_id"
  let iocSource ← v.getText "ioc_source"
  let iocTags ← v.getList "ioc_tags" readText
  let iocDescription ← v.getText "ioc_description"
  let iocExpireAt ← v.getInt "ioc_expire_at"
  let recommendedAction ← v.getText "recommended_action"
  let iocEvidence ← v.getPointer "ioc_evidence" Evidence.ofValue
  let ruleID ← v.getText "rule_id"
  let threatIndex ← v.getText "threat_index"
  return { e with iocType, iocValue, iocCategory, iocID, iocSource, iocTags, iocDescription,
                  iocExpireAt, recommendedAction, iocEvidence, ruleID, threatIndex }

/-- `first_time` to `app`. -/
def readVolume (v : Value) (e : ThreatEvent) : Option ThreatEvent := do
  let firstTime ← v.getUint 64 "first_time"
  let durationMs ← v.getUint 64 "duration_ms"
  let flows ← v.getUint 64 "flows"
  let packets ← v.getUint 64 "packets"
  let bytes ← v.getUint 64 "bytes"
  let wireBytes ← v.getUint 64 "wire_bytes"
  let volumeRole ← v.getText "volume_role"
  let app ← v.getPointer "app" AppContext.ofValue
  return { e with firstTime, durationMs, flows, packets, bytes, wireBytes, volumeRole, app }

/-- `raw_packet` to `session_summary`. -/
def readContext (v : Value) (e : ThreatEvent) : Option ThreatEvent := do
  let rawPacket ← v.getPointer "raw_packet" RawPacketContext.ofValue
  let sessionID ← v.getText "session_id"
  let transactionID ← v.getText "transaction_id"
  let contextRevision ← v.getUint 64 "context_revision"
  let contextFinal ← v.getBool "context_final"
  let exchange ← v.getPointer "exchange" ExchangeContext.ofValue
  let sessionSummary ← v.getPointer "session_summary" SessionSummary.ofValue
  return { e with rawPacket, sessionID, transactionID, contextRevision, contextFinal, exchange,
                  sessionSummary }

/-- `local_hit_count` to `occurrence_time`. -/
def readLocal (J : Json) (v : Value) (e : ThreatEvent) : Option ThreatEvent := do
  let localHitCount ← v.getInt "local_hit_count"
  let localWindowSec ← v.getInt "local_window_sec"
  let localFirstSeen ← v.getUint 64 "local_first_seen"
  let localScope ← v.getText "local_scope"
  let evidenceFile ← v.getText "evidence_file"
  let packetTimeUsec ← v.getUint 64 "packet_time_usec"
  let rawFeature ← v.read "raw_feature" (readAnyMap J) []
  let schemaVersion ← v.getText "schema_version"
  let sensorVersion ← v.getText "sensor_version"
  let protocol ← v.getText "protocol"
  let occurrenceTime ← v.getText "occurrence_time"
  return { e with localHitCount, localWindowSec, localFirstSeen, localScope, evidenceFile,
                  packetTimeUsec, rawFeature, schemaVersion, sensorVersion, protocol,
                  occurrenceTime }

/-- `app_stats` to `service`. -/
def readReport (v : Value) (e : ThreatEvent) : Option ThreatEvent := do
  let appStats ← v.getPointer "app_stats" AppStats.ofValue
  let payloadFeatures ← v.getList "payload_features" PayloadFeature.ofValue
  let dataExfil ← v.getPointer "data_exfil" DataExfil.ofValue
  let iocStats ← v.getList "ioc_stats" IOCStat.ofValue
  let ruleStats ← v.getList "rule_stats" RuleStat.ofValue
  let impactHints ← v.getPointer "impact_hints" ImpactHints.ofValue
  let actionHints ← v.getList "action_hints" ActionHint.ofValue
  let evidenceFiles ← v.getList "evidence_files" EvidenceFile.ofValue
  let severityBasis ← v.getPointer "severity_basis" SeverityBasis.ofValue
  let service ← v.getText "service"
  return { e with appStats, payloadFeatures, dataExfil, iocStats, ruleStats, impactHints,
                  actionHints, evidenceFiles, severityBasis, service }

/-- `json.Unmarshal` of the text of `v` into a zero event; none is an error. -/
def ofValue (J : Json) (v : Value) : Option ThreatEvent := do
  let e ← readHeader v {}
  let e ← readIndicator v e
  let e ← readVolume v e
  let e ← readContext v e
  let e ← readLocal J v e
  readReport v e

end ThreatEvent

/-! ### Reading what was written -/

/-- The first field of a struct is the member under its name unless it is left out. -/
theorem member_cons (tag : Tag) (v : Value) (fs : List (Tag × Value)) (name : String) :
    (Value.struct ((tag, v) :: fs)).member name =
      if (tag.omitempty && isEmptyValue v) = false ∧ tag.name = name then some v
      else (Value.struct fs).member name := by
  simp only [Value.member, Value.members, Option.bind_some]
  cases hkeep : tag.omitempty && isEmptyValue v with
  | true => rw [if_neg (by simp), List.filter_cons_of_neg (by rw [hkeep]; simp)]
  | false =>
    rw [List.filter_cons_of_pos (by rw [hkeep]; rfl), List.map_cons]
    by_cases hname : tag.name = name
    · rw [if_pos ⟨rfl, hname⟩, List.find?_cons_of_pos (by simpa using hname), Option.map_some]
    · rw [if_neg fun h => hname h.2, List.find?_cons_of_neg (by simpa using hname)]

theorem member_none {name : String} : ∀ {fs : List (Tag × Value)}, name ∉ fs.map (·.1.name) →
    (Value.struct fs).member name = none
  | [], _ => rfl
  | (tag, v) :: fs, h => by
    rw [List.map_cons, List.mem_cons, not_or] at h
    rw [member_cons, if_neg fun hname => h.1 hname.2.symm, member_none h.2]

/-- The fields of a struct. -/
def Value.fields : Value → List (Tag × Value)
  | .struct fs => fs
  | _ => []

/-- A struct whose fields have different names. -/
structure Value.Record (v : Value) : Prop where
  struct : v = .struct v.fields
  names : (v.fields.map (·.1.name)).Nodup

theorem member_at {tag : Tag} : ∀ {fs : List (Tag × Value)} {k : Nat},
    (fs.map (·.1.name)).Nodup → fs[k]? = some (tag, u) →
    (Value.struct fs).member tag.name = if tag.omitempty && isEmptyValue u then none else some u
  | [], k, _, hk => by simp at hk
  | (t, v) :: fs, 0, hnames, hk => by
    rw [List.getElem?_cons_zero, Option.some.injEq, Prod.mk.injEq] at hk
    obtain ⟨rfl, rfl⟩ := hk
    rw [member_cons, member_none (List.nodup_cons.mp hnames).1]
    cases t.omitempty && isEmptyValue v <;> simp
  | (t, v) :: fs, k + 1, hnames, hk => by
    rw [List.getElem?_cons_succ] at hk
    obtain ⟨hnew, hnames⟩ := List.nodup_cons.mp hnames
    have hne : t.name ≠ tag.name := by
      intro he
      exact hnew (List.mem_map.mpr ⟨_, List.mem_of_getElem? hk, he.symm⟩)
    rw [member_cons, if_neg fun h => hne h.2, member_at hnames hk]

variable {a : Option α} {view : α → Value} {get : Value → Option α}

section
variable {v : Value} (h : v.Record) (k : Nat) {name : String} {o : Bool}
include h

theorem Value.Record.read (hk : v.fields[k]? = some (⟨name, o⟩, u)) (get : Value → Option α)
    (zero : α) : v.read name get zero = if o && isEmptyValue u then some zero else get u := by
  have hmember := member_at h.names hk
  rw [← h.struct] at hmember
  rw [Value.read, hmember]
  cases o && isEmptyValue u <;> rfl

omit h in
theorem readText_text (s : String) : readText (.text s) = some s := by
  have hbytes : (utf8 s).toByteArray = s.toByteArray := String.utf8Encode_toList
  rw [Value.text, readText, hbytes, String.fromUTF8?, dif_pos s.isValidUTF8]
  rfl

omit h in
theorem utf8_eq_nil {s : String} (hs : (utf8 s).isEmpty = true) : s = "" := by
  have hread := readText_text s
  rw [Value.text, List.isEmpty_iff.mp hs] at hread
  exact (Option.some.inj (hread.symm.trans (readText_text ""))).symm ▸ rfl

theorem Value.Record.text {s : String} (hk : v.fields[k]? = some (⟨name, o⟩, .text s)) :
    v.getText name = some s := by
  rw [Value.getText, h.read k hk, readText_text]
  split_ifs with hempty
  · rw [Bool.and_eq_true] at hempty
    rw [utf8_eq_nil hempty.2]
  · rfl

theorem Value.Record.bool {b : Bool} (hk : v.fields[k]? = some (⟨name, o⟩, .bool b)) :
    v.getBool name = some b := by
  rw [Value.getBool, h.read k hk]
  cases b <;> cases o <;> rfl

theorem Value.Record.uint {n : Nat} (bits : Nat) (hk : v.fields[k]? = some (⟨name, o⟩, .uint n)) :
    v.getUint bits name = if n < 2 ^ bits then some n else none := by
  rw [Value.getUint, h.read k hk]
  split_ifs with hempty hlt hlt
  · simp only [isEmptyValue, Bool.and_eq_true, beq_iff_eq] at hempty
    rw [hempty.2]
  · simp only [isEmptyValue, Bool.and_eq_true, beq_iff_eq] at hempty
    exact absurd (hempty.2 ▸ Nat.two_pow_pos bits) hlt
  · rw [readUint, if_pos hlt]
  · rw [readUint, if_neg hlt]

theorem Value.Record.pointer (hk : v.fields[k]? = some (⟨name, true⟩, .pointer view a))
    (get : Value → Option α) :
    v.getPointer name get = a.mapM fun x => get (view x) := by
  rw [Value.getPointer, h.read k hk]
  cases a <;> rfl

/-- A field that is left out stays zero. -/
theorem Value.Record.empty (hk : v.fields[k]? = some (⟨name, true⟩, u))
    (hempty : isEmptyValue u = true) (get : Value → Option α) (zero : α) :
    v.read name get zero = some zero := by
  rw [h.read k hk, hempty]
  rfl

end

theorem fits_bind {n bound : Nat} {f : Nat → Option α} {a : α} :
    ((if n < bound then some n else none) >>= f) = some a ↔ n < bound ∧ f n = some a := by
  split_ifs with hn <;> simp [hn]

/-! ### The fields of a summary -/

theorem SessionSummary.record (s : SessionSummary) : s.toValue.Record :=
  ⟨rfl, by simp [toValue, Value.fields, optField]⟩

/-- The counters fit their fields. -/
structure SessionSummary.Ranged (s : SessionSummary) : Prop where
  firstTimeUsec : s.firstTimeUsec < 2 ^ 64
  lastTimeUsec : s.lastTimeUsec < 2 ^ 64
  clientPackets : s.clientPackets < 2 ^ 64
  serverPackets : s.serverPackets < 2 ^ 64
  clientWireBytes : s.clientWireBytes < 2 ^ 64
  serverWireBytes : s.serverWireBytes < 2 ^ 64
  hitCount : s.hitCount < 2 ^ 64

theorem SessionSummary.ofValue_iff {s t : SessionSummary} :
    ofValue s.toValue = some t ↔ t = s ∧ s.Ranged := by
  have h := s.record
  rw [ofValue, h.uint 0 64 rfl, h.uint 1 64 rfl, h.uint 2 64 rfl, h.uint 3 64 rfl,
    h.uint 4 64 rfl, h.uint 5 64 rfl, h.uint 6 64 rfl, h.bool 7 rfl]
  simp only [fits_bind]
  constructor
  · rintro ⟨h0, h1, h2, h3, h4, h5, h6, ht⟩
    exact ⟨(Option.some.inj ht).symm, h0, h1, h2, h3, h4, h5, h6⟩
  · rintro ⟨rfl, h0, h1, h2, h3, h4, h5, h6⟩
    exact ⟨h0, h1, h2, h3, h4, h5, h6, rfl⟩

theorem RawPacketContext.record (p : RawPacketContext) : p.toValue.Record :=
  ⟨rfl, by simp [toValue, Value.fields, field, optField]⟩

/-- What holds of every result of a continuation holds of every result of the bind. -/
theorem forall_bind {β : Type} {x : Option α} {f : α → Option β} {P : β → Prop}
    (hf : ∀ a b, f a = some b → P b) : ∀ b, x.bind f = some b → P b := by
  intro b h
  obtain ⟨a, -, ha⟩ := Option.bind_eq_some_iff.mp h
  exact hf a b ha

theorem RawPacketContext.messageDirection_ofValue {p q : RawPacketContext}
    (h : ofValue p.toValue = some q) : q.messageDirection = p.messageDirection := by
  revert q
  rw [ofValue, p.record.text 5 rfl, Option.bind_eq_bind, Option.bind_some]
  change ∀ q, _ = some q → _
  -- the reads after the first do not touch the direction
  iterate 16 refine forall_bind fun _ => ?_
  intro q h
  rw [← Option.some.inj h]

/-- The packet context a summary keeps. -/
theorem RawPacketContext.ofValue_direction (d : String) :
    ofValue (toValue { messageDirection := d }) = some { messageDirection := d } := by
  have h := record { messageDirection := d }
  rw [ofValue, h.text 5 rfl, h.text 0 rfl, h.uint 1 64 rfl, h.text 2 rfl, h.uint 3 64 rfl,
    h.uint 4 64 rfl, h.text 6 rfl, h.text 7 rfl, h.text 8 rfl, h.text 9 rfl, h.text 10 rfl,
    h.text 11 rfl, h.uint 12 32 rfl, h.uint 13 32 rfl, h.bool 14 rfl, h.pointer 15 rfl,
    h.pointer 16 rfl]
  rfl

theorem ExchangeContext.record (x : ExchangeContext) : x.toValue.Record :=
  ⟨rfl, by simp [toValue, Value.fields, optField]⟩

theorem ExchangeContext.responseStatus_ofValue {x y : ExchangeContext}
    (h : ofValue x.toValue = some y) : y.responseStatus = x.responseStatus := by
  rw [ofValue, x.record.text 2 rfl] at h
  simp only [Option.bind_eq_bind, Option.bind_some, Option.bind_eq_some_iff] at h
  obtain ⟨_, -, _, -, h⟩ := h
  rw [← Option.some.inj h]

/-- The exchange a summary keeps. -/
theorem ExchangeContext.ofValue_status (status : String) :
    ofValue (toValue { responseStatus := status }) = some { responseStatus := status } := by
  have h := record { responseStatus := status }
  rw [ofValue, h.text 2 rfl, h.pointer 0 rfl, h.pointer 1 rfl]
  rfl

namespace ThreatEvent

theorem record (e : ThreatEvent) : e.toValue.Record := by
  refine ⟨rfl, ?_⟩
  have hnames : e.toValue.fields.map (·.1.name) = (toValue {}).fields.map (·.1.name) := rfl
  rw [hnames]
  decide +kernel

/-- The numbers a summary keeps fit their fields. -/
structure Ranged (e : ThreatEvent) : Prop where
  eventTime : e.eventTime < 2 ^ 64
  srcPort : e.srcPort < 2 ^ 16
  dstPort : e.dstPort < 2 ^ 16
  contextRevision : e.contextRevision < 2 ^ 64
  sessionSummary : ∀ s, e.sessionSummary = some s → s.Ranged

section
variable {J : Json} {e acc e' : ThreatEvent}

/-- What reading the header changes in a summary. -/
theorem readHeader_ok (h : readHeader e.toValue acc = some e') :
    (e.eventTime < 2 ^ 64 ∧ e.srcPort < 2 ^ 16 ∧ e.dstPort < 2 ^ 16) ∧
      summarize e' = { summarize acc with
        eventID := e.eventID, eventTime := e.eventTime, eventName := e.eventName
        severity := e.severity, srcIP := e.srcIP, srcPort := e.srcPort, dstIP := e.dstIP
        dstPort := e.dstPort } := by
  have hr := e.record
  rw [readHeader, hr.text 0 rfl, hr.uint 2 64 rfl, hr.text 4 rfl, hr.text 5 rfl, hr.text 7 rfl,
    hr.uint 8 16 rfl, hr.text 9 rfl, hr.uint 10 16 rfl] at h
  simp only [Option.bind_eq_bind, Option.bind_some, Option.bind_eq_some_iff,
    Option.ite_none_right_eq_some, Option.some.injEq] at h
  obtain ⟨_, -, _, ⟨htime, rfl⟩, _, -, _, -, _, ⟨hsrc, rfl⟩, _, ⟨hdst, rfl⟩, _, -, _, -, _, -, h⟩ := h
  refine ⟨⟨htime, hsrc, hdst⟩, ?_⟩
  rw [← Option.some.inj h]
  rfl

theorem readIndicator_ok (h : readIndicator e.toValue acc = some e') :
    summarize e' = { summarize acc with iocType := e.iocType, iocValue := e.iocValue } := by
  rw [readIndicator, e.record.text 14 rfl, e.record.text 15 rfl] at h
  simp only [Option.bind_eq_bind, Option.bind_some, Option.bind_eq_some_iff] at h
  obtain ⟨_, -, _, -, _, -, _, -, _, -, _, -, _, -, _, -, _, -, _, -, h⟩ := h
  rw [← Option.some.inj h]
  rfl

theorem readVolume_ok (h : readVolume v acc = some e') : summarize e' = summarize acc := by
  simp only [readVolume, Option.bind_eq_bind, Option.bind_eq_some_iff] at h
  obtain ⟨_, -, _, -, _, -, _, -, _, -, _, -, _, -, _, -, h⟩ := h
  rw [← Option.some.inj h]
  rfl

theorem readLocal_ok (h : readLocal J v acc = some e') : summarize e' = summarize acc := by
  simp only [readLocal, Option.bind_eq_bind, Option.bind_eq_some_iff] at h
  obtain ⟨_, -, _, -, _, -, _, -, _, -, _, -, _, -, _, -, _, -, _, -, _, -, h⟩ := h
  rw [← Option.some.inj h]
  rfl

theorem readReport_ok (h : readReport v acc = some e') : summarize e' = summarize acc := by
  simp only [readReport, Option.bind_eq_bind, Option.bind_eq_some_iff] at h
  obtain ⟨_, -, _, -, _, -, _, -, _, -, _, -, _, -, _, -, _, -, _, -, h⟩ := h
  rw [← Option.some.inj h]
  rfl

/-- A pointer field read back, seen through what a summary keeps of it. -/
theorem pointer_ok {β : Type} {keep : α → β} (hget : ∀ a b, get (view a) = some b → keep b = keep a)
    {r : Option α} (h : (a.mapM fun x => get (view x)) = some r) : r.map keep = a.map keep := by
  cases a with
  | none => rw [← Option.some.inj h]
  | some x =>
    obtain ⟨y, hy, rfl⟩ := Option.map_eq_some_iff.mp h
    rw [Option.map_some, Option.map_some, hget x y hy]

/-- What reading the context changes in a summary. -/
theorem readContext_ok (h : readContext e.toValue acc = some e') :
    (e.contextRevision < 2 ^ 64 ∧ ∀ s, e.sessionSummary = some s → s.Ranged) ∧
      summarize e' = { summarize acc with
        sessionID := e.sessionID, transactionID := e.transactionID
        contextRevision := e.contextRevision, contextFinal := e.contextFinal
        sessionSummary := e.sessionSummary
        rawPacket := (summarize e).rawPacket, exchange := (summarize e).exchange } := by
  have hr := e.record
  rw [readContext, hr.pointer 34 rfl, hr.text 35 rfl, hr.text 36 rfl, hr.uint 37 64 rfl,
    hr.bool 38 rfl, hr.pointer 39 rfl, hr.pointer 40 rfl] at h
  simp only [Option.bind_eq_bind, Option.bind_some, Option.bind_eq_some_iff,
    Option.ite_none_right_eq_some, Option.some.injEq] at h
  obtain ⟨raw, hraw, _, ⟨hrev, rfl⟩, exchange, hexchange, session, hsession, h⟩ := h
  have hranged : ∀ s, e.sessionSummary = some s → session = some s ∧ s.Ranged := by
    intro s hs
    rw [hs] at hsession
    obtain ⟨t, ht, rfl⟩ := Option.map_eq_some_iff.mp hsession
    obtain ⟨rfl, hfit⟩ := SessionSummary.ofValue_iff.mp ht
    exact ⟨rfl, hfit⟩
  have hsame : session = e.sessionSummary := by
    cases hs : e.sessionSummary with
    | none =>
      rw [hs] at hsession
      exact (Option.some.inj hsession).symm
    | some s => exact (hranged s hs).1
  have hpacket : raw.map (fun p => ({ messageDirection := p.messageDirection } : RawPacketContext)) =
      (summarize e).rawPacket :=
    pointer_ok (fun a b hb => by rw [RawPacketContext.messageDirection_ofValue hb]) hraw
  have hstatus : exchange.map (fun x => ({ responseStatus := x.responseStatus } : ExchangeContext)) =
      (summarize e).exchange :=
    pointer_ok (fun a b hb => by rw [ExchangeContext.responseStatus_ofValue hb]) hexchange
  refine ⟨⟨hrev, fun s hs => (hranged s hs).2⟩, ?_⟩
  rw [← hpacket, ← hstatus, ← hsame, ← Option.some.inj h]
  rfl

/-- The fields a summary keeps come back as they were written. -/
theorem summarize_ofValue (h : ofValue J e.toValue = some e') :
    summarize e' = summarize e ∧ e.Ranged := by
  simp only [ofValue, Option.bind_eq_bind, Option.bind_eq_some_iff] at h
  obtain ⟨e₁, h₁, e₂, h₂, e₃, h₃, e₄, h₄, e₅, h₅, h₆⟩ := h
  obtain ⟨⟨htime, hsrc, hdst⟩, hheader⟩ := readHeader_ok h₁
  obtain ⟨⟨hrev, hsession⟩, hcontext⟩ := readContext_ok h₄
  refine ⟨?_, ⟨htime, hsrc, hdst, hrev, hsession⟩⟩
  rw [readReport_ok h₆, readLocal_ok h₅, hcontext, readVolume_ok h₃, readIndicator_ok h₂, hheader]
  rfl

theorem mapM_some (hget : ∀ x, a = some x → get (view x) = some x) :
    (a.mapM fun x => get (view x)) = some a := by
  cases a with
  | none => rfl
  | some x => exact Option.map_eq_some_iff.mpr ⟨x, hget x rfl, rfl⟩

section
variable (acc : ThreatEvent)

theorem readHeader_summary (h : e.Ranged) : readHeader (summarize e).toValue {} = some
    { eventID := e.eventID, eventTime := e.eventTime, eventName := e.eventName
      severity := e.severity, srcIP := e.srcIP, srcPort := e.srcPort, dstIP := e.dstIP
      dstPort := e.dstPort } := by
  have hr := (summarize e).record
  have htime : (summarize e).eventTime < 2 ^ 64 := h.eventTime
  have hsrc : (summarize e).srcPort < 2 ^ 16 := h.srcPort
  have hdst : (summarize e).dstPort < 2 ^ 16 := h.dstPort
  rw [readHeader, hr.text 0 rfl, hr.text 1 rfl, hr.uint 2 64 rfl, hr.text 3 rfl, hr.text 4 rfl,
    hr.text 5 rfl, hr.text 6 rfl, hr.text 7 rfl, hr.uint 8 16 rfl, hr.text 9 rfl,
    hr.uint 10 16 rfl, hr.text 11 rfl, hr.text 12 rfl, hr.text 13 rfl, if_pos htime, if_pos hsrc,
    if_pos hdst]
  rfl

theorem readIndicator_summary : readIndicator (summarize e).toValue acc = some { acc with
    iocType := e.iocType, iocValue := e.iocValue, iocCategory := "", iocID := "", iocSource := ""
    iocTags := [], iocDescription := "", iocExpireAt := 0, recommendedAction := ""
    iocEvidence := none, ruleID := "", threatIndex := "" } := by
  have hr := (summarize e).record
  rw [readIndicator, Value.getList, Value.getInt, hr.text 14 rfl, hr.text 15 rfl, hr.text 16 rfl,
    hr.text 17 rfl, hr.text 18 rfl,
    hr.empty 19 rfl rfl, hr.text 20 rfl, hr.empty 21 rfl rfl, hr.text 22 rfl, hr.pointer 23 rfl,
    hr.text 24 rfl, hr.text 25 rfl]
  rfl

theorem readVolume_summary : readVolume (summarize e).toValue acc = some { acc with
    firstTime := 0, durationMs := 0, flows := 0, packets := 0, bytes := 0, wireBytes := 0
    volumeRole := "", app := none } := by
  have hr := (summarize e).record
  rw [readVolume, hr.uint 26 64 rfl, hr.uint 27 64 rfl, hr.uint 28 64 rfl, hr.uint 29 64 rfl,
    hr.uint 30 64 rfl, hr.uint 31 64 rfl, hr.text 32 rfl, hr.pointer 33 rfl]
  rfl

theorem readContext_summary (h : e.Ranged) : readContext (summarize e).toValue acc = some { acc with
    rawPacket := (summarize e).rawPacket, sessionID := e.sessionID
    transactionID := e.transactionID, contextRevision := e.contextRevision
    contextFinal := e.contextFinal, exchange := (summarize e).exchange
    sessionSummary := e.sessionSummary } := by
  have hr := (summarize e).record
  have hrev : (summarize e).contextRevision < 2 ^ 64 := h.contextRevision
  have hraw : ((summarize e).rawPacket.mapM fun p => RawPacketContext.ofValue p.toValue) =
      some (summarize e).rawPacket := by
    refine mapM_some fun p hp => ?_
    obtain ⟨q, -, rfl⟩ := Option.map_eq_some_iff.mp hp
    exact RawPacketContext.ofValue_direction _
  have hexchange : ((summarize e).exchange.mapM fun x => ExchangeContext.ofValue x.toValue) =
      some (summarize e).exchange := by
    refine mapM_some fun x hx => ?_
    obtain ⟨y, -, rfl⟩ := Option.map_eq_some_iff.mp hx
    exact ExchangeContext.ofValue_status _
  have hsession : ((summarize e).sessionSummary.mapM fun s => SessionSummary.ofValue s.toValue) =
      some (summarize e).sessionSummary :=
    mapM_some fun s hs => SessionSummary.ofValue_iff.mpr ⟨rfl, h.sessionSummary s hs⟩
  rw [readContext, hr.pointer 34 rfl, hr.text 35 rfl, hr.text 36 rfl, hr.uint 37 64 rfl,
    hr.bool 38 rfl, hr.pointer 39 rfl, hr.pointer 40 rfl, hraw, hexchange, hsession, if_pos hrev]
  rfl

theorem readLocal_summary : readLocal J (summarize e).toValue acc = some { acc with
    localHitCount := 0, localWindowSec := 0, localFirstSeen := 0, localScope := ""
    evidenceFile := "", packetTimeUsec := 0, rawFeature := [], schemaVersion := ""
    sensorVersion := "", protocol := "", occurrenceTime := "" } := by
  have hr := (summarize e).record
  simp only [readLocal, Value.getInt]
  rw [hr.empty 41 rfl rfl, hr.empty 42 rfl rfl, hr.uint 43 64 rfl, hr.text 44 rfl,
    hr.text 45 rfl, hr.uint 46 64 rfl, hr.empty 47 rfl rfl, hr.text 48 rfl, hr.text 49 rfl,
    hr.text 50 rfl, hr.text 51 rfl]
  rfl

theorem readReport_summary : readReport (summarize e).toValue acc = some { acc with
    appStats := none, payloadFeatures := [], dataExfil := none, iocStats := [], ruleStats := []
    impactHints := none, actionHints := [], evidenceFiles := [], severityBasis := none
    service := "" } := by
  have hr := (summarize e).record
  simp only [readReport, Value.getList]
  rw [hr.pointer 52 rfl, hr.empty 53 rfl rfl, hr.pointer 54 rfl, hr.empty 55 rfl rfl,
    hr.empty 56 rfl rfl, hr.pointer 57 rfl, hr.empty 58 rfl rfl, hr.empty 59 rfl rfl,
    hr.pointer 60 rfl, hr.text 61 rfl]
  rfl

end

/-- A summary is read back as it is. -/
theorem ofValue_summary (h : e.Ranged) : ofValue J (summarize e).toValue = some (summarize e) := by
  simp only [ofValue, readHeader_summary h, readIndicator_summary, readVolume_summary,
    readContext_summary _ h, readLocal_summary, readReport_summary, Option.bind_eq_bind,
    Option.bind_some]
  rfl

theorem summarize_summarize (e : ThreatEvent) : summarize (summarize e) = summarize e := by
  cases hraw : e.rawPacket <;> cases hexchange : e.exchange <;> simp [summarize, hraw, hexchange]

/-- Summarizing commutes with writing an event and reading it back. -/
theorem ofValue_summarize (h : ofValue J e.toValue = some e') :
    ofValue J (summarize e).toValue = some (summarize e') := by
  obtain ⟨hsame, hranged⟩ := summarize_ofValue h
  rw [ofValue_summary hranged, hsame]

end

end ThreatEvent

end TaNode

import TaNode.Event.Value

/-! The event record a node reports, field for field, and the view `encoding/json` and the storage
    encoder have of it: every field under the name and `omitempty` option of its tag.

    Go strings are `String`s here (the program only stores valid UTF-8 in events); unsigned counters
    are `Nat`, the JSON text of both is the same. A `float64` is kept as the text `strconv` prints. -/

namespace TaNode

/-- `intel.Evidence`: the threat context delivered with an indicator. -/
structure Evidence where
  activity : String := ""
  threatLabels : List String := []
  source : String := ""
  crossCheck : String := ""
  confidence : String := ""
  tlp : String := ""
  mispEventID : String := ""
  narrative : String := ""
  deriving DecidableEq

/-- Application-layer evidence of the packet that triggered the event. -/
structure AppContext where
  httpMethod : String := ""
  httpHost : String := ""
  httpURL : String := ""
  userAgent : String := ""
  httpHeaders : List (String × String) := []
  httpBody : String := ""
  dnsQuery : String := ""
  dnsQType : Nat := 0
  dnsAnswers : List String := []
  tlsSNI : String := ""
  payloadSample : String := ""
  icmpSeq : Nat := 0
  deriving DecidableEq

/-- One captured side of an application exchange. -/
structure RawMessageContext where
  captureTime : String := ""
  captureTimeUsec : Nat := 0
  packetSequence : Nat := 0
  packetHex : String := ""
  payloadHex : String := ""
  payloadText : String := ""
  capturedLength : Nat := 0
  wireLength : Nat := 0
  captureTruncated : Bool := false
  tcpSeq : Nat := 0
  tcpAck : Nat := 0
  retransmission : Bool := false
  deriving DecidableEq

/-- The packet evidence of one event occurrence. -/
structure RawPacketContext where
  sessionStartTime : String := ""
  sessionStartTimeUsec : Nat := 0
  captureTime : String := ""
  captureTimeUsec : Nat := 0
  packetSequence : Nat := 0
  messageDirection : String := ""
  directionSource : String := ""
  directionConfidence : String := ""
  transportDirection : String := ""
  packetHex : String := ""
  payloadHex : String := ""
  payloadText : String := ""
  capturedLength : Nat := 0
  wireLength : Nat := 0
  captureTruncated : Bool := false
  request : Option RawMessageContext := none
  response : Option RawMessageContext := none
  deriving DecidableEq

/-- A bounded, reassembled view of one side of a transaction. -/
structure ExchangeMessageContext where
  captureStartTimeUsec : Nat := 0
  captureEndTimeUsec : Nat := 0
  packetCount : Nat := 0
  capturedBytes : Nat := 0
  wireBytes : Nat := 0
  retransmissions : Nat := 0
  reassembledHex : String := ""
  reassembledText : String := ""
  truncated : Bool := false
  completenessReason : String := ""
  reassemblyIncomplete : Bool := false
  packets : List RawMessageContext := []
  deriving DecidableEq

/-- Request and response evidence of one transaction. -/
structure ExchangeContext where
  request : Option ExchangeMessageContext := none
  response : Option ExchangeMessageContext := none
  responseStatus : String := ""
  deriving DecidableEq

/-- Bidirectional counters of the conversation an event belongs to. -/
structure SessionSummary where
  firstTimeUsec : Nat := 0
  lastTimeUsec : Nat := 0
  clientPackets : Nat := 0
  serverPackets : Nat := 0
  clientWireBytes : Nat := 0
  serverWireBytes : Nat := 0
  hitCount : Nat := 0
  midstream : Bool := false
  deriving DecidableEq

structure AppEndpoint where
  method : String := ""
  path : String := ""
  host : String := ""
  count : Nat := 0
  userAgents : List String := []
  sampleBody : String := ""
  deriving DecidableEq

structure AppStats where
  windowStartUsec : Nat := 0
  windowEndUsec : Nat := 0
  requestCount : Nat := 0
  responseCount : Nat := 0
  http4xxCount : Nat := 0
  http5xxCount : Nat := 0
  p95LatencyMs : Nat := 0
  maxLatencyMs : Nat := 0
  endpoints : List AppEndpoint := []
  deriving DecidableEq

structure PayloadFeature where
  name : String := ""
  count : Nat := 0
  totalRequests : Nat := 0
  sample : String := ""
  confidence : Int := 0
  evidenceRef : String := ""
  deriving DecidableEq

structure SensitiveKeyword where
  keyword : String := ""
  count : Nat := 0
  sample : String := ""
  deriving DecidableEq

structure DataExfil where
  totalWireBytes : Nat := 0
  totalPackets : Nat := 0
  dest : String := ""
  destPort : Nat := 0
  encrypted : Bool := false
  sensitiveKeywords : List SensitiveKeyword := []
  observedEntries : Nat := 0
  deriving DecidableEq

structure IOCStat where
  iocValue : String := ""
  iocType : String := ""
  hitCount : Nat := 0
  firstSeenUsec : Nat := 0
  lastSeenUsec : Nat := 0
  threatSource : String := ""
  confidence : String := ""
  matchedRules : List String := []
  expireAtUsec : Int := 0
  deriving DecidableEq

structure RuleStat where
  ruleID : String := ""
  ruleName : String := ""
  hitCount : Nat := 0
  firstSeenUsec : Nat := 0
  lastSeenUsec : Nat := 0
  severity : String := ""
  evidenceRef : String := ""
  deriving DecidableEq

/-- `ErrorRatePercent` is a `float64`: its printed text (none for NaN and the infinities) and
    whether it is zero. -/
structure ImpactHints where
  errorRateText : Option String := some "0"
  errorRateZero : Bool := true
  latencyDegraded : Bool := false
  latencyBaselineMs : Nat := 0
  latencyObservedMs : Nat := 0
  affectedEntries : Nat := 0
  observedIntent : String := ""
  intentBasis : String := ""
  deriving DecidableEq

structure ActionHint where
  action : String := ""
  priority : String := ""
  reason : String := ""
  evidenceRef : String := ""
  deriving DecidableEq

structure EvidenceFile where
  id : String := ""
  name : String := ""
  type : String := ""
  pathRef : String := ""
  sha256 : String := ""
  size : Nat := 0
  description : String := ""
  deriving DecidableEq

/-- The reasons slice has no `omitempty`, so nil and empty differ in the text. -/
structure SeverityBasis where
  score : Int := 0
  reasons : Option (List String) := none
  deriving DecidableEq

/-- `event.ThreatEvent`. -/
structure ThreatEvent where
  eventID : String := ""
  deviceID : String := ""
  eventTime : Nat := 0
  eventType : String := ""
  eventName : String := ""
  severity : String := ""
  model : String := ""
  srcIP : String := ""
  srcPort : Nat := 0
  dstIP : String := ""
  dstPort : Nat := 0
  proto : String := ""
  direction : String := ""
  threatSource : String := ""
  iocType : String := ""
  iocValue : String := ""
  iocCategory : String := ""
  iocID : String := ""
  iocSource : String := ""
  iocTags : List String := []
  iocDescription : String := ""
  iocExpireAt : Int := 0
  recommendedAction : String := ""
  iocEvidence : Option Evidence := none
  ruleID : String := ""
  threatIndex : String := ""
  firstTime : Nat := 0
  durationMs : Nat := 0
  flows : Nat := 0
  packets : Nat := 0
  bytes : Nat := 0
  wireBytes : Nat := 0
  volumeRole : String := ""
  app : Option AppContext := none
  rawPacket : Option RawPacketContext := none
  sessionID : String := ""
  transactionID : String := ""
  contextRevision : Nat := 0
  contextFinal : Bool := false
  exchange : Option ExchangeContext := none
  sessionSummary : Option SessionSummary := none
  localHitCount : Int := 0
  localWindowSec : Int := 0
  localFirstSeen : Nat := 0
  localScope : String := ""
  evidenceFile : String := ""
  packetTimeUsec : Nat := 0
  rawFeature : List (String × Value) := []
  schemaVersion : String := ""
  sensorVersion : String := ""
  protocol : String := ""
  occurrenceTime : String := ""
  appStats : Option AppStats := none
  payloadFeatures : List PayloadFeature := []
  dataExfil : Option DataExfil := none
  iocStats : List IOCStat := []
  ruleStats : List RuleStat := []
  impactHints : Option ImpactHints := none
  actionHints : List ActionHint := []
  evidenceFiles : List EvidenceFile := []
  severityBasis : Option SeverityBasis := none
  service : String := ""

/-! ### The reflected view -/

/-- A field whose tag is `json:"name"`. -/
def field (name : String) (v : Value) : Tag × Value := (⟨name, false⟩, v)

/-- A field whose tag is `json:"name,omitempty"`. -/
def optField (name : String) (v : Value) : Tag × Value := (⟨name, true⟩, v)

/-- A Go string. -/
def Value.text (s : String) : Value := .str (utf8 s)

/-- A `[]string`; the `omitempty` fields that hold one do not tell nil from empty. -/
def Value.texts (xs : List String) : Value := .slice (xs.map .text)

/-- A pointer field. -/
def Value.pointer {α : Type} (view : α → Value) : Option α → Value
  | none => .nil
  | some a => .ref (view a)

def Evidence.toValue (e : Evidence) : Value := .struct [
  optField "activity" (.text e.activity), optField "threat_labels" (.texts e.threatLabels),
  optField "source" (.text e.source), optField "cross_check" (.text e.crossCheck),
  optField "confidence" (.text e.confidence), optField "tlp" (.text e.tlp),
  optField "misp_event_id" (.text e.mispEventID), optField "narrative" (.text e.narrative)]

def AppContext.toValue (a : AppContext) : Value := .struct [
  optField "http_method" (.text a.httpMethod), optField "http_host" (.text a.httpHost),
  optField "http_url" (.text a.httpURL), optField "user_agent" (.text a.userAgent),
  optField "http_headers" (.map (a.httpHeaders.map fun h => (h.1, .text h.2))),
  optField "http_body_sample" (.text a.httpBody), optField "dns_query" (.text a.dnsQuery),
  optField "dns_qtype" (.uint a.dnsQType), optField "dns_answers" (.texts a.dnsAnswers),
  optField "tls_sni" (.text a.tlsSNI), optField "payload_sample" (.text a.payloadSample),
  optField "icmp_seq" (.uint a.icmpSeq)]

def RawMessageContext.toValue (m : RawMessageContext) : Value := .struct [
  optField "capture_time" (.text m.captureTime),
  optField "capture_time_usec" (.uint m.captureTimeUsec),
  optField "packet_sequence" (.uint m.packetSequence), field "packet_hex" (.text m.packetHex),
  optField "payload_hex" (.text m.payloadHex), optField "payload_text" (.text m.payloadText),
  optField "captured_length" (.uint m.capturedLength),
  optField "wire_length" (.uint m.wireLength),
  optField "capture_truncated" (.bool m.captureTruncated), optField "tcp_seq" (.uint m.tcpSeq),
  optField "tcp_ack" (.uint m.tcpAck), optField "retransmission" (.bool m.retransmission)]

def RawPacketContext.toValue (p : RawPacketContext) : Value := .struct [
  optField "session_start_time" (.text p.sessionStartTime),
  optField "session_start_time_usec" (.uint p.sessionStartTimeUsec),
  optField "capture_time" (.text p.captureTime),
  optField "capture_time_usec" (.uint p.captureTimeUsec),
  optField "packet_sequence" (.uint p.packetSequence),
  optField "message_direction" (.text p.messageDirection),
  optField "direction_source" (.text p.directionSource),
  optField "direction_confidence" (.text p.directionConfidence),
  optField "transport_direction" (.text p.transportDirection),
  field "packet_hex" (.text p.packetHex), optField "payload_hex" (.text p.payloadHex),
  optField "payload_text" (.text p.payloadText),
  optField "captured_length" (.uint p.capturedLength),
  optField "wire_length" (.uint p.wireLength),
  optField "capture_truncated" (.bool p.captureTruncated),
  optField "request" (.pointer RawMessageContext.toValue p.request),
  optField "response" (.pointer RawMessageContext.toValue p.response)]

def ExchangeMessageContext.toValue (m : ExchangeMessageContext) : Value := .struct [
  optField "capture_start_time_usec" (.uint m.captureStartTimeUsec),
  optField "capture_end_time_usec" (.uint m.captureEndTimeUsec),
  optField "packet_count" (.uint m.packetCount), optField "captured_bytes" (.uint m.capturedBytes),
  optField "wire_bytes" (.uint m.wireBytes), optField "retransmissions" (.uint m.retransmissions),
  optField "reassembled_hex" (.text m.reassembledHex),
  optField "reassembled_text" (.text m.reassembledText), optField "truncated" (.bool m.truncated),
  optField "completeness_reason" (.text m.completenessReason),
  optField "reassembly_incomplete" (.bool m.reassemblyIncomplete),
  optField "packets" (.slice (m.packets.map RawMessageContext.toValue))]

def ExchangeContext.toValue (e : ExchangeContext) : Value := .struct [
  optField "request" (.pointer ExchangeMessageContext.toValue e.request),
  optField "response" (.pointer ExchangeMessageContext.toValue e.response),
  optField "response_status" (.text e.responseStatus)]

def SessionSummary.toValue (s : SessionSummary) : Value := .struct [
  optField "first_time_usec" (.uint s.firstTimeUsec),
  optField "last_time_usec" (.uint s.lastTimeUsec),
  optField "client_packets" (.uint s.clientPackets),
  optField "server_packets" (.uint s.serverPackets),
  optField "client_wire_bytes" (.uint s.clientWireBytes),
  optField "server_wire_bytes" (.uint s.serverWireBytes), optField "hit_count" (.uint s.hitCount),
  optField "midstream" (.bool s.midstream)]

def AppEndpoint.toValue (e : AppEndpoint) : Value := .struct [
  optField "method" (.text e.method), optField "path" (.text e.path), optField "host" (.text e.host),
  field "count" (.uint e.count), optField "user_agents" (.texts e.userAgents),
  optField "sample_request_body" (.text e.sampleBody)]

def AppStats.toValue (s : AppStats) : Value := .struct [
  field "window_start_usec" (.uint s.windowStartUsec),
  field "window_end_usec" (.uint s.windowEndUsec), field "request_count" (.uint s.requestCount),
  optField "response_count" (.uint s.responseCount),
  optField "http_4xx_count" (.uint s.http4xxCount),
  optField "http_5xx_count" (.uint s.http5xxCount), optField "p95_latency_ms" (.uint s.p95LatencyMs),
  optField "max_latency_ms" (.uint s.maxLatencyMs),
  optField "endpoints" (.slice (s.endpoints.map AppEndpoint.toValue))]

def PayloadFeature.toValue (f : PayloadFeature) : Value := .struct [
  field "name" (.text f.name), field "count" (.uint f.count),
  field "total_requests" (.uint f.totalRequests), optField "sample" (.text f.sample),
  field "confidence" (.int f.confidence), optField "evidence_ref" (.text f.evidenceRef)]

def SensitiveKeyword.toValue (k : SensitiveKeyword) : Value := .struct [
  field "keyword" (.text k.keyword), field "count" (.uint k.count), optField "sample" (.text k.sample)]

def DataExfil.toValue (d : DataExfil) : Value := .struct [
  field "total_wire_bytes" (.uint d.totalWireBytes), field "total_packets" (.uint d.totalPackets),
  optField "dest" (.text d.dest), optField "dest_port" (.uint d.destPort),
  optField "encrypted" (.bool d.encrypted),
  optField "sensitive_keywords" (.slice (d.sensitiveKeywords.map SensitiveKeyword.toValue)),
  optField "observed_entries" (.uint d.observedEntries)]

def IOCStat.toValue (s : IOCStat) : Value := .struct [
  field "ioc_value" (.text s.iocValue), field "ioc_type" (.text s.iocType),
  field "hit_count" (.uint s.hitCount), field "first_seen_usec" (.uint s.firstSeenUsec),
  field "last_seen_usec" (.uint s.lastSeenUsec), optField "threat_source" (.text s.threatSource),
  optField "confidence" (.text s.confidence), optField "matched_rules" (.texts s.matchedRules),
  optField "expire_at_usec" (.int s.expireAtUsec)]

def RuleStat.toValue (s : RuleStat) : Value := .struct [
  field "rule_id" (.text s.ruleID), optField "rule_name" (.text s.ruleName),
  field "hit_count" (.uint s.hitCount), field "first_seen_usec" (.uint s.firstSeenUsec),
  field "last_seen_usec" (.uint s.lastSeenUsec), optField "severity" (.text s.severity),
  optField "evidence_ref" (.text s.evidenceRef)]

def ImpactHints.toValue (h : ImpactHints) : Value := .struct [
  optField "error_rate_percent" (.float (h.errorRateText.map utf8) h.errorRateZero),
  optField "latency_degraded" (.bool h.latencyDegraded),
  optField "latency_baseline_ms" (.uint h.latencyBaselineMs),
  optField "latency_observed_ms" (.uint h.latencyObservedMs),
  optField "affected_entries" (.uint h.affectedEntries),
  optField "observed_intent" (.text h.observedIntent), optField "intent_basis" (.text h.intentBasis)]

def ActionHint.toValue (h : ActionHint) : Value := .struct [
  field "action" (.text h.action), field "priority" (.text h.priority),
  optField "reason" (.text h.reason), optField "evidence_ref" (.text h.evidenceRef)]

def EvidenceFile.toValue (f : EvidenceFile) : Value := .struct [
  field "id" (.text f.id), field "name" (.text f.name), field "type" (.text f.type),
  optField "path_ref" (.text f.pathRef), optField "sha256" (.text f.sha256),
  optField "size" (.uint f.size), optField "description" (.text f.description)]

def SeverityBasis.toValue (b : SeverityBasis) : Value := .struct [
  field "score" (.int b.score),
  field "reasons" (match b.reasons with
    | none => .nil
    | some xs => .texts xs)]

/-- A `ThreatEvent` as `reflect.ValueOf` presents it. -/
def ThreatEvent.toValue (e : ThreatEvent) : Value := .struct [
  field "event_id" (.text e.eventID), field "device_id" (.text e.deviceID),
  field "event_time" (.uint e.eventTime), field "event_type" (.text e.eventType),
  field "event_name" (.text e.eventName), field "severity" (.text e.severity),
  field "model" (.text e.model), field "src_ip" (.text e.srcIP), field "src_port" (.uint e.srcPort),
  field "dst_ip" (.text e.dstIP), field "dst_port" (.uint e.dstPort), field "proto" (.text e.proto),
  field "direction" (.text e.direction), field "threat_source" (.text e.threatSource),
  optField "ioc_type" (.text e.iocType), optField "ioc_value" (.text e.iocValue),
  optField "ioc_category" (.text e.iocCategory), optField "ioc_id" (.text e.iocID),
  optField "ioc_source" (.text e.iocSource), optField "ioc_tags" (.texts e.iocTags),
  optField "ioc_description" (.text e.iocDescription),
  optField "ioc_expire_at" (.int e.iocExpireAt),
  optField "recommended_action" (.text e.recommendedAction),
  optField "ioc_evidence" (.pointer Evidence.toValue e.iocEvidence),
  optField "rule_id" (.text e.ruleID), optField "threat_index" (.text e.threatIndex),
  optField "first_time" (.uint e.firstTime), optField "duration_ms" (.uint e.durationMs),
  field "flows" (.uint e.flows), field "packets" (.uint e.packets), field "bytes" (.uint e.bytes),
  optField "wire_bytes" (.uint e.wireBytes), optField "volume_role" (.text e.volumeRole),
  optField "app" (.pointer AppContext.toValue e.app),
  optField "raw_packet" (.pointer RawPacketContext.toValue e.rawPacket),
  optField "session_id" (.text e.sessionID), optField "transaction_id" (.text e.transactionID),
  optField "context_revision" (.uint e.contextRevision),
  optField "context_final" (.bool e.contextFinal),
  optField "exchange" (.pointer ExchangeContext.toValue e.exchange),
  optField "session_summary" (.pointer SessionSummary.toValue e.sessionSummary),
  optField "local_hit_count" (.int e.localHitCount),
  optField "local_window_sec" (.int e.localWindowSec),
  optField "local_first_seen" (.uint e.localFirstSeen), optField "local_scope" (.text e.localScope),
  optField "evidence_file" (.text e.evidenceFile),
  optField "packet_time_usec" (.uint e.packetTimeUsec), optField "raw_feature" (.map e.rawFeature),
  optField "schema_version" (.text e.schemaVersion),
  optField "sensor_version" (.text e.sensorVersion), optField "protocol" (.text e.protocol),
  optField "occurrence_time" (.text e.occurrenceTime),
  optField "app_stats" (.pointer AppStats.toValue e.appStats),
  optField "payload_features" (.slice (e.payloadFeatures.map PayloadFeature.toValue)),
  optField "data_exfil" (.pointer DataExfil.toValue e.dataExfil),
  optField "ioc_stats" (.slice (e.iocStats.map IOCStat.toValue)),
  optField "rule_stats" (.slice (e.ruleStats.map RuleStat.toValue)),
  optField "impact_hints" (.pointer ImpactHints.toValue e.impactHints),
  optField "action_hints" (.slice (e.actionHints.map ActionHint.toValue)),
  optField "evidence_files" (.slice (e.evidenceFiles.map EvidenceFile.toValue)),
  optField "severity_basis" (.pointer SeverityBasis.toValue e.severityBasis),
  optField "service" (.text e.service)]

/-- The compact copy of an event kept for listings. -/
def summarize (ev : ThreatEvent) : ThreatEvent where
  eventID := ev.eventID
  eventTime := ev.eventTime
  eventName := ev.eventName
  severity := ev.severity
  iocType := ev.iocType
  iocValue := ev.iocValue
  srcIP := ev.srcIP
  srcPort := ev.srcPort
  dstIP := ev.dstIP
  dstPort := ev.dstPort
  sessionID := ev.sessionID
  transactionID := ev.transactionID
  contextRevision := ev.contextRevision
  contextFinal := ev.contextFinal
  sessionSummary := ev.sessionSummary
  rawPacket := ev.rawPacket.map fun p => { messageDirection := p.messageDirection }
  exchange := ev.exchange.map fun x => { responseStatus := x.responseStatus }

/-! ### Nesting -/

section
variable (J : Json)

@[simp] theorem nesting_text (s : String) : nesting J (.text s) = 0 := by
  simp [Value.text, nesting]

theorem nestingItems_map_le {α : Type} {view : α → Value} {k : Nat}
    (hview : ∀ a, nesting J (view a) ≤ k) : ∀ xs : List α, nestingItems J (xs.map view) ≤ k
  | [] => by simp [nestingItems]
  | x :: xs => by
    rw [List.map_cons, nestingItems, Nat.max_le]
    exact ⟨hview x, nestingItems_map_le hview xs⟩

theorem nesting_slice_le {α : Type} {view : α → Value} {k : Nat}
    (hview : ∀ a, nesting J (view a) ≤ k) (xs : List α) :
    nesting J (.slice (xs.map view)) ≤ 1 + k := by
  rw [nesting]
  exact Nat.add_le_add_left (nestingItems_map_le J hview xs) 1

theorem nesting_texts_le (xs : List String) : nesting J (.texts xs) ≤ 1 :=
  nesting_slice_le J (k := 0) (fun s => by simp) xs

theorem nesting_pointer_le {α : Type} {view : α → Value} {k : Nat}
    (hview : ∀ a, nesting J (view a) ≤ k) (p : Option α) : nesting J (.pointer view p) ≤ k := by
  cases p with
  | none => simp [Value.pointer, nesting]
  | some a => rw [Value.pointer, nesting]; exact hview a

theorem nestingEntries_texts : ∀ hs : List (String × String),
    nestingEntries J (hs.map fun h => (h.1, .text h.2)) = 0
  | [] => by simp [nestingEntries]
  | h :: hs => by simp [nestingEntries, nestingEntries_texts hs]

/-- A struct is as deep as one more than its deepest field. -/
theorem nesting_struct_le {fs : List (Tag × Value)} {k : Nat}
    (h : ∀ f ∈ fs, nesting J f.2 ≤ k) : nesting J (.struct fs) ≤ 1 + k := by
  rw [nesting]
  refine Nat.add_le_add_left ?_ 1
  induction fs with
  | nil => simp [nestingFields]
  | cons f fs ih =>
    rw [nestingFields, Nat.max_le]
    exact ⟨h f (by simp), ih fun g hg => h g (List.mem_cons_of_mem _ hg)⟩

theorem nesting_evidence (e : Evidence) : nesting J e.toValue ≤ 2 := by
  have h := nesting_texts_le J e.threatLabels
  exact nesting_struct_le J (k := 1) (by simpa [optField] using h)

theorem nesting_app (a : AppContext) : nesting J a.toValue ≤ 2 := by
  have h := nesting_texts_le J a.dnsAnswers
  exact nesting_struct_le J (k := 1) (by simpa [optField, nesting, nestingEntries_texts] using h)

theorem nesting_rawMessage (m : RawMessageContext) : nesting J m.toValue ≤ 1 :=
  nesting_struct_le J (k := 0) (by simp [field, optField, nesting])

theorem nesting_rawPacket (p : RawPacketContext) : nesting J p.toValue ≤ 2 := by
  have h₁ := nesting_pointer_le J (nesting_rawMessage J) p.request
  have h₂ := nesting_pointer_le J (nesting_rawMessage J) p.response
  exact nesting_struct_le J (k := 1) (by simpa [field, optField, nesting] using ⟨h₁, h₂⟩)

theorem nesting_exchangeMessage (m : ExchangeMessageContext) : nesting J m.toValue ≤ 3 := by
  have h := nestingItems_map_le J (nesting_rawMessage J) m.packets
  exact nesting_struct_le J (k := 2) (by simpa [optField, nesting] using Nat.add_le_add_left h 1)

theorem nesting_exchange (e : ExchangeContext) : nesting J e.toValue ≤ 4 := by
  have h₁ := nesting_pointer_le J (nesting_exchangeMessage J) e.request
  have h₂ := nesting_pointer_le J (nesting_exchangeMessage J) e.response
  exact nesting_struct_le J (k := 3) (by simpa [optField, nesting] using ⟨h₁, h₂⟩)

theorem nesting_sessionSummary (s : SessionSummary) : nesting J s.toValue ≤ 1 :=
  nesting_struct_le J (k := 0) (by simp [optField, nesting])

theorem nesting_appEndpoint (e : AppEndpoint) : nesting J e.toValue ≤ 2 := by
  have h := nesting_texts_le J e.userAgents
  exact nesting_struct_le J (k := 1) (by simpa [field, optField, nesting] using h)

theorem nesting_appStats (s : AppStats) : nesting J s.toValue ≤ 4 := by
  have h := nestingItems_map_le J (nesting_appEndpoint J) s.endpoints
  exact nesting_struct_le J (k := 3) (by simpa [field, optField, nesting] using Nat.add_le_add_left h 1)

theorem nesting_payloadFeature (f : PayloadFeature) : nesting J f.toValue ≤ 1 :=
  nesting_struct_le J (k := 0) (by simp [field, optField, nesting])

theorem nesting_sensitiveKeyword (k : SensitiveKeyword) : nesting J k.toValue ≤ 1 :=
  nesting_struct_le J (k := 0) (by simp [field, optField, nesting])

theorem nesting_dataExfil (d : DataExfil) : nesting J d.toValue ≤ 3 := by
  have h := nestingItems_map_le J (nesting_sensitiveKeyword J) d.sensitiveKeywords
  exact nesting_struct_le J (k := 2) (by simpa [field, optField, nesting] using Nat.add_le_add_left h 1)

theorem nesting_iocStat (s : IOCStat) : nesting J s.toValue ≤ 2 := by
  have h := nesting_texts_le J s.matchedRules
  exact nesting_struct_le J (k := 1) (by simpa [field, optField, nesting] using h)

theorem nesting_ruleStat (s : RuleStat) : nesting J s.toValue ≤ 1 :=
  nesting_struct_le J (k := 0) (by simp [field, optField, nesting])

theorem nesting_impactHints (h : ImpactHints) : nesting J h.toValue ≤ 1 :=
  nesting_struct_le J (k := 0) (by simp [optField, nesting])

theorem nesting_actionHint (h : ActionHint) : nesting J h.toValue ≤ 1 :=
  nesting_struct_le J (k := 0) (by simp [field, optField])

theorem nesting_evidenceFile (f : EvidenceFile) : nesting J f.toValue ≤ 1 :=
  nesting_struct_le J (k := 0) (by simp [field, optField, nesting])

theorem nesting_severityBasis (b : SeverityBasis) : nesting J b.toValue ≤ 2 := by
  refine nesting_struct_le J (k := 1) ?_
  cases hr : b.reasons with
  | none => simp [field, nesting]
  | some xs => simpa [field, nesting] using nesting_texts_le J xs

/-- An event's own structs are five containers deep; only `raw_feature` can go deeper. -/
theorem nesting_threatEvent (ev : ThreatEvent) :
    nesting J ev.toValue ≤ 1 + max 4 (1 + nestingEntries J ev.rawFeature) := by
  obtain ⟨k, hk, h4, hraw⟩ : ∃ k, max 4 (1 + nestingEntries J ev.rawFeature) = k ∧ 4 ≤ k ∧
      1 + nestingEntries J ev.rawFeature ≤ k := ⟨_, rfl, Nat.le_max_left _ _, Nat.le_max_right _ _⟩
  have within : ∀ {a b : Nat}, a ≤ b → b ≤ 4 → a ≤ k := fun hab hb =>
    Nat.le_trans hab (Nat.le_trans hb h4)
  rw [hk]
  refine nesting_struct_le J ?_
  simp only [field, optField, nesting, nesting_text, List.forall_mem_cons, List.not_mem_nil,
    false_imp_iff, implies_true, Nat.zero_le, true_and, and_true]
  exact ⟨within (nesting_texts_le J ev.iocTags) (by decide),
    within (nesting_pointer_le J (nesting_evidence J) ev.iocEvidence) (by decide),
    within (nesting_pointer_le J (nesting_app J) ev.app) (by decide),
    within (nesting_pointer_le J (nesting_rawPacket J) ev.rawPacket) (by decide),
    within (nesting_pointer_le J (nesting_exchange J) ev.exchange) (by decide),
    within (nesting_pointer_le J (nesting_sessionSummary J) ev.sessionSummary) (by decide),
    hraw,
    within (nesting_pointer_le J (nesting_appStats J) ev.appStats) (by decide),
    within (nesting_slice_le J (nesting_payloadFeature J) ev.payloadFeatures) (by decide),
    within (nesting_pointer_le J (nesting_dataExfil J) ev.dataExfil) (by decide),
    within (nesting_slice_le J (nesting_iocStat J) ev.iocStats) (by decide),
    within (nesting_slice_le J (nesting_ruleStat J) ev.ruleStats) (by decide),
    within (nesting_pointer_le J (nesting_impactHints J) ev.impactHints) (by decide),
    within (nesting_slice_le J (nesting_actionHint J) ev.actionHints) (by decide),
    within (nesting_slice_le J (nesting_evidenceFile J) ev.evidenceFiles) (by decide),
    within (nesting_pointer_le J (nesting_severityBasis J) ev.severityBasis) (by decide)⟩

end

end TaNode

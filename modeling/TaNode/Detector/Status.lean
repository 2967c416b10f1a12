import TaNode.Detector.Engine
import TaNode.Parser.Request

/-! The status code of an HTTP response on its way into an event.

        payload ──parseHTTP──▶ HTTPStatusCode ──attachAppContext──▶ feature ──buildAppStats──▶ event

    A status line has its space at offset 8 and the code at 9, but the parser looks for the space at 9
    and reads the code from there, the space included. So it never finds a code: the field keeps the
    value it had, which is 0 for every packet that `Parse` hands on. -/

namespace TaNode.Detector
open TaNode.Flow

/-! ### Parsing -/

variable {pf : PacketFeature} {decode : Bytes → Option Dns} {f : FlowFeature}

theorem parseHTTP_response (h : utf8 "HTTP/" <+: pf.payload) :
    parseHTTP pf = .ok { pf with messageDirection := .response } := by
  have hne : pf.payload ≠ [] := by
    intro hnil
    rw [hnil, List.prefix_nil] at h
    exact absurd h (by decide +kernel)
  rw [parseHTTP, if_neg hne, if_pos (List.isPrefixOf_iff_prefix.mpr h), parseStatus_eq]
  rfl

/-- No packet leaves `Parse` with a status code. -/
theorem parse_status {now : UInt64} {packet : Packet} (h : parse decode now packet = .ok pf) :
    pf.httpStatusCode = 0 := by
  rw [parse] at h
  dsimp only at h
  split at h
  · cases h
  · have horigin := (parseTransport_originless decode packet).origin (ok_of_mapError h)
    exact congrArg Origin.httpStatusCode horigin

/-! ### The status of a flow feature -/

/-- The aggregator has the flow of the packet, or room for it. -/
def Tracked (a : Aggregator) (now : Readings) (pf : PacketFeature) : Prop :=
  (∃ st ∈ a.flows, st.key = flowKey pf) ∨
    let a := if a.flows.length ≥ a.maxFlows then Flow.cleanupLocked a now.cleanup else a
    a.flows.length < a.maxFlows

theorem update_status (parseIP : String → Bytes) {a : Aggregator} (now : Readings)
    (pf : PacketFeature) (fpHits : List FingerprintHit) (intelHits : List Intel.ThreatIntel) :
    (Tracked a now pf →
      (update parseIP a now pf fpHits intelHits).1.httpStatusCode = pf.httpStatusCode) ∧
    (¬ Tracked a now pf → (update parseIP a now pf fpHits intelHits).1.httpStatusCode = 0) := by
  rw [update, Tracked]
  dsimp only
  cases hfind : a.flows.find? (·.key = flowKey pf) with
  | some st =>
    have hknown : ∃ st ∈ a.flows, st.key = flowKey pf :=
      ⟨st, List.mem_of_find?_eq_some hfind, by simpa using List.find?_some hfind⟩
    exact ⟨fun _ => rfl, fun hnot => absurd (.inl hknown) hnot⟩
  | none =>
    have hunknown : ¬ ∃ st ∈ a.flows, st.key = flowKey pf := by
      rintro ⟨st, hst, hkey⟩
      exact absurd hkey (by simpa using List.find?_eq_none.mp hfind st hst)
    simp only [hunknown, false_or]
    by_cases hfull : (a.flows.length : Int) ≥ a.maxFlows
    · simp only [if_pos hfull]
      split
      · rename_i hstill
        exact ⟨fun hroom => absurd hroom (not_lt.mpr hstill), fun _ => rfl⟩
      · rename_i hroom
        exact ⟨fun _ => rfl, fun hfull => absurd (not_le.mp hroom) hfull⟩
    · simp only [if_neg hfull]
      exact ⟨fun _ => rfl, fun hfull' => absurd (not_le.mp hfull) hfull'⟩

/-! ### The statistics of an event -/

theorem appStats_detect {ev : Event} {digest : Bytes → String} (h : ev ∈ detect digest f) :
    ev.appStats = buildAppStats f := by
  rcases mem_hitEvents.mp (hitEvents_of_detect h) with ⟨hit, -, rfl⟩ | ⟨hit, -, rfl⟩
  · rfl
  · rfl

/-- A response with this code is counted. -/
def Counts (code : Nat) (stats : Option AppStats) : Prop :=
  ∃ s, stats = some s ∧ s.responseCount = 1 ∧ (s.http4xxCount = 1 ↔ 400 ≤ code ∧ code ≤ 499) ∧
    (s.http5xxCount = 1 ↔ 500 ≤ code)

theorem counts_buildAppStats (h : f.httpStatusCode ≠ 0) :
    Counts f.httpStatusCode.toNat (buildAppStats f) := by
  rw [buildAppStats, if_neg (fun hnone => h hnone.2.2.2)]
  have hpos : f.httpStatusCode > 0 := UInt16.pos_iff_ne_zero.mpr h
  have hone : ∀ (p : Prop) [Decidable p], (if p then 1 else 0 : Nat) = 1 ↔ p := by
    intro p _
    split_ifs with hp
    · exact ⟨fun _ => hp, fun _ => rfl⟩
    · exact ⟨fun h => absurd h (by decide), fun h => absurd h hp⟩
  refine ⟨_, rfl, if_pos hpos, (hone _).trans ?_, (hone _).trans ?_⟩
  · rw [ge_iff_le, UInt16.le_iff_toNat_le, UInt16.lt_iff_toNat_lt]
    exact and_congr_right fun _ => Nat.lt_succ_iff
  · rw [ge_iff_le, UInt16.le_iff_toNat_le]
    rfl

/-- Without a status code no response is counted. -/
theorem responseCounts_buildAppStats {s : AppStats} (h : f.httpStatusCode = 0)
    (hs : buildAppStats f = some s) :
    s.responseCount = 0 ∧ s.http4xxCount = 0 ∧ s.http5xxCount = 0 := by
  rw [buildAppStats, h] at hs
  split at hs
  · cases hs
  · rw [← Option.some.inj hs]
    exact ⟨rfl, rfl, rfl⟩

theorem not_counts_buildAppStats (h : f.httpStatusCode = 0) (code : Nat) :
    ¬ Counts code (buildAppStats f) := by
  rintro ⟨s, hs, hresponse, -⟩
  rw [(responseCounts_buildAppStats h hs).1] at hresponse
  cases hresponse

/-! ### Status lines -/

def digit (n : Nat) : UInt8 := UInt8.ofNat (48 + n)

/-- A payload that begins with the status line of a response. -/
structure StatusLine where
  major : Fin 10
  minor : Fin 10
  code : Nat
  reason : Bytes
  /-- Headers and body. -/
  rest : Bytes
  code_range : 100 ≤ code ∧ code ≤ 999

def StatusLine.bytes (line : StatusLine) : Bytes :=
  utf8 "HTTP/" ++ [digit line.major, 46, digit line.minor, 32, digit (line.code / 100),
    digit (line.code / 10 % 10), digit (line.code % 10), 32] ++ line.reason ++ utf8 "\r\n" ++ line.rest

/-- The response is classified, its code is not read. -/
theorem parseHTTP_statusLine (line : StatusLine) (pf : PacketFeature) :
    parseHTTP { pf with payload := line.bytes } =
      .ok { pf with payload := line.bytes, messageDirection := .response } := by
  refine parseHTTP_response ?_
  simp only [StatusLine.bytes, List.append_assoc]
  exact List.prefix_append _ _

/-- What the events say about a packet that was parsed and counted for its flow. -/
theorem counts_detect_iff (digest : Bytes → String) (parseIP : String → Bytes) (a : Aggregator)
    (now : Readings) (pf : PacketFeature) (fpHits : List FingerprintHit)
    (intelHits : List Intel.ThreatIntel) (hcode : pf.httpStatusCode ≠ 0) :
    (∀ ev ∈ detect digest (update parseIP a now pf fpHits intelHits).1,
      Counts pf.httpStatusCode.toNat ev.appStats) ↔
    fpHits = [] ∧ intelHits = [] ∨ Tracked a now pf := by
  have hown := (@update_own parseIP a now pf fpHits intelHits).2.2
  obtain ⟨htracked, huntracked⟩ := @update_status parseIP a now pf fpHits intelHits
  generalize (update parseIP a now pf fpHits intelHits).1 = f at hown htracked huntracked
  have hnil : detect digest f = [] ↔ fpHits = [] ∧ intelHits = [] := by
    rw [detect_eq_nil, hown.fingerprintHits, hown.intelHits]
  by_cases htrack : Tracked a now pf
  · refine ⟨fun _ => .inr htrack, fun _ ev hev => ?_⟩
    rw [appStats_detect hev, ← htracked htrack]
    exact counts_buildAppStats (by rwa [htracked htrack])
  · rw [← hnil]
    constructor
    · intro hall
      refine .inl (List.eq_nil_iff_forall_not_mem.mpr fun ev hev => ?_)
      have hcounts := hall ev hev
      rw [appStats_detect hev] at hcounts
      exact not_counts_buildAppStats (huntracked htrack) _ hcounts
    · rintro (hempty | htrack')
      · rw [hempty]
        exact fun ev hev => absurd hev List.not_mem_nil
      · exact absurd htrack' htrack

/-- A response reaches its events with its code exactly if the code was there before the payload was
    parsed, and the aggregator did not turn the packet's flow away. -/
theorem response_reported_iff (line : StatusLine) (pf : PacketFeature) (digest : Bytes → String)
    (parseIP : String → Bytes) (a : Aggregator) (now : Readings) (fpHits : List FingerprintHit)
    (intelHits : List Intel.ThreatIntel) :
    (∃ pf', parseHTTP { pf with payload := line.bytes } = .ok pf' ∧
      pf'.httpStatusCode.toNat = line.code ∧
      ∀ ev ∈ detect digest (update parseIP a now pf' fpHits intelHits).1,
        Counts line.code ev.appStats) ↔
    pf.httpStatusCode.toNat = line.code ∧
      (fpHits = [] ∧ intelHits = [] ∨ Tracked a now { pf with payload := line.bytes }) := by
  rw [parseHTTP_statusLine]
  have hcounts := counts_detect_iff digest parseIP a now
    { pf with payload := line.bytes, messageDirection := .response } fpHits intelHits
  have hne : pf.httpStatusCode.toNat = line.code → pf.httpStatusCode ≠ 0 := by
    intro hcode hzero
    have := line.code_range.1
    rw [hzero] at hcode
    exact absurd hcode (by rw [UInt16.toNat_zero]; omega)
  constructor
  · rintro ⟨pf', hpf', hcode, hall⟩
    obtain rfl := Except.ok.inj hpf'
    rw [← hcode] at hall
    exact ⟨hcode, (hcounts (hne hcode)).mp hall⟩
  · rintro ⟨hcode, hcond⟩
    refine ⟨_, rfl, hcode, ?_⟩
    rw [← hcode]
    exact (hcounts (hne hcode)).mpr hcond

/-- The code is never there before: whatever packet is parsed and counted, the response counters of
    its events are zero. -/
theorem response_never_reported (time : UInt64) (packet : Packet) (digest : Bytes → String)
    (parseIP : String → Bytes) (a : Aggregator) (now : Readings) (fpHits : List FingerprintHit)
    (intelHits : List Intel.ThreatIntel) (pf : PacketFeature) (h : parse decode time packet = .ok pf) :
    ∀ ev ∈ detect digest (update parseIP a now pf fpHits intelHits).1, ∀ s, ev.appStats = some s →
      s.responseCount = 0 ∧ s.http4xxCount = 0 ∧ s.http5xxCount = 0 := by
  intro ev hev s hs
  rw [appStats_detect hev] at hs
  obtain ⟨htracked, huntracked⟩ := @update_status parseIP a now pf fpHits intelHits
  refine responseCounts_buildAppStats ?_ hs
  by_cases htrack : Tracked a now pf
  · rw [htracked htrack, parse_status h]
  · exact huntracked htrack

/-- A request on its way to a server. -/
def requestPacket : Packet where
  data := []
  length := 0
  timestampUsec := some 7
  layers := [(.ipv4 0 "10.0.0.1" "10.0.0.2", 20),
    (.tcp { srcPort := 40000, dstPort := 80, seq := 1, payload := utf8 "GET /a HTTP/1.1\r\n\r\n" }, 20)]

/-- The event of a rule that matches the request counts the request and no response. -/
theorem response_never_reported_request : ∃ pf ev s,
    parse (fun _ => none) 0 requestPacket = .ok pf ∧
    ev ∈ detect spell (update parseIP (newAggregator 10 60) ⟨0, 0, 0⟩ pf
      [⟨utf8 "r1", utf8 "scan", utf8 "probe", 0, 4⟩] []).1 ∧
    ev.appStats = some s ∧ s.requestCount = 1 ∧
    s.responseCount = 0 ∧ s.http4xxCount = 0 ∧ s.http5xxCount = 0 := by
  have hrun : (((parse (fun _ => none) 0 requestPacket).toOption.bind fun pf =>
      (detect spell (update parseIP (newAggregator 10 60) ⟨0, 0, 0⟩ pf
        [⟨utf8 "r1", utf8 "scan", utf8 "probe", 0, 4⟩] []).1).head?.bind fun ev =>
          ev.appStats.map (·.requestCount)) = some 1) := by decide +kernel
  obtain ⟨pf, hpf, hrun⟩ := Option.bind_eq_some_iff.mp hrun
  obtain ⟨ev, hev, hrun⟩ := Option.bind_eq_some_iff.mp hrun
  obtain ⟨s, hs, hone⟩ := Option.map_eq_some_iff.mp hrun
  have hparse := except_toOption_some.mp hpf
  have hmem := List.mem_of_head? hev
  exact ⟨pf, ev, s, hparse, hmem, hs, hone, response_never_reported 0 requestPacket spell parseIP
    (newAggregator 10 60) ⟨0, 0, 0⟩ [⟨utf8 "r1", utf8 "scan", utf8 "probe", 0, 4⟩] [] pf hparse ev hmem
    s hs⟩

def notFound : StatusLine := ⟨1, 1, 404, utf8 "Not Found", utf8 "\r\n", by decide⟩

/-- The response is parsed to code 0, and the event of a rule that matches it has no statistics. -/
theorem response_not_reported :
    notFound.bytes = utf8 "HTTP/1.1 404 Not Found\r\n\r\n" ∧
    (parseHTTP { payload := notFound.bytes }).toOption.map (fun pf => (pf.httpStatusCode,
      (detect spell (update parseIP (newAggregator 10 60) ⟨0, 0, 0⟩ pf
        [⟨utf8 "r1", utf8 "scan", utf8 "probe", 0, 4⟩] []).1).map fun ev => ev.appStats.isSome)) =
      some (0, [false]) := by
  decide +kernel

end TaNode.Detector

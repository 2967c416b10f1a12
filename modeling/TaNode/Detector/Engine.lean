import TaNode.Flow.Pairs
import TaNode.Schemes.Firsts

/-! The detector: the events of a flow feature and the hits on it.

    Every hit makes an event of its own, on top of what the feature says about the packet. The two
    loops share one set of ids, and an event whose id is in it already is dropped:

        fingerprint hit    RuleID | Type | Name | From:To  ─┐
                                                           ├─▶ digest ─▶ id ─▶ first of each id
        intel hit          ID | Type | Value | Source      ─┘

    The text that is digested joins the fields at a bar, and nothing keeps a bar out of a field. Two
    hits that differ only in where one field ends and the next begins are one text, hence one event. -/

namespace TaNode.Detector
open TaNode.Flow

/-! ### The model -/

structure AppEndpoint where
  method : Bytes
  path : Bytes
  host : Bytes
  count : Nat
  userAgents : List Bytes
  sampleBody : Bytes

structure AppStats where
  windowStartUsec : UInt64
  windowEndUsec : UInt64
  requestCount : Nat
  responseCount : Nat
  http4xxCount : Nat
  http5xxCount : Nat
  p95LatencyMs : UInt64
  maxLatencyMs : UInt64
  endpoints : List AppEndpoint

def durationMs (firstUsec lastUsec : UInt64) : UInt64 :=
  if lastUsec ≤ firstUsec then 0 else (lastUsec - firstUsec) / 1000

def buildAppStats (f : FlowFeature) : Option AppStats :=
  if f.httpMethod = [] ∧ f.httpURL = [] ∧ f.httpHost = [] ∧ f.httpStatusCode = 0 then none
  else some {
    windowStartUsec := f.firstTime
    windowEndUsec := f.lastTime
    requestCount := 1
    responseCount := if f.httpStatusCode > 0 then 1 else 0
    http4xxCount := if f.httpStatusCode ≥ 400 ∧ f.httpStatusCode < 500 then 1 else 0
    http5xxCount := if f.httpStatusCode ≥ 500 then 1 else 0
    p95LatencyMs := durationMs f.firstTime f.lastTime
    maxLatencyMs := durationMs f.firstTime f.lastTime
    endpoints :=
      if f.httpURL ≠ [] then [{
        method := f.httpMethod, path := f.httpURL, host := f.httpHost, count := 1
        userAgents := if f.userAgent ≠ [] then [f.userAgent] else []
        sampleBody := f.httpBodySample }]
      else [] }

/-- What the detector itself writes on an event; the context of the packet, the local counters and the
    hints that are computed from these fields are left out. -/
structure Event where
  eventID : String := ""
  eventTime : UInt64
  srcIP : String
  srcPort : UInt16
  dstIP : String
  dstPort : UInt16
  proto : Proto
  firstTime : UInt64
  durationMs : UInt64
  packets : UInt64
  bytes : UInt64
  wireBytes : UInt64
  appStats : Option AppStats
  eventType : Bytes := []
  eventName : Bytes := []
  severity : Bytes := []
  model : Bytes := []
  threatSource : Bytes := []
  ruleID : Bytes := []
  threatIndex : Bytes := []
  iocType : Bytes := []
  iocValue : Bytes := []
  iocCategory : Bytes := []
  iocID : Bytes := []
  iocSource : Bytes := []
  iocTags : List Bytes := []
  iocDescription : Bytes := []
  iocExpireAt : Int := 0
  recommendedAction : Bytes := []
  iocEvidence : Option Evidence := none

/-- The part all events of a feature share. -/
def base (f : FlowFeature) : Event where
  eventTime := f.lastTime
  srcIP := f.srcIP
  srcPort := f.srcPort
  dstIP := f.dstIP
  dstPort := f.dstPort
  proto := f.proto
  firstTime := f.firstTime
  durationMs := durationMs f.firstTime f.lastTime
  packets := f.packets
  bytes := f.bytes
  wireBytes := f.wireBytes
  appStats := buildAppStats f

section
variable (digest : Bytes → String) (f : FlowFeature)

def fingerprintEvent (hit : FingerprintHit) : Event :=
  { base f with
    eventID := stableEventID digest f hit.parts
    eventType := hit.type
    eventName := hit.name
    severity := utf8 "high"
    model := utf8 "threat_fingerprint"
    threatSource := utf8 "payload_rule"
    ruleID := hit.ruleID
    threatIndex := utf8 (toString hit.matchFrom ++ "," ++ toString hit.matchTo) }

def intelEvent (hit : Intel.ThreatIntel) : Event :=
  { base f with
    eventID := stableEventID digest f (intelParts hit)
    eventType := hit.category
    eventName := hit.value
    severity := hit.severity
    model := utf8 "threat_intel"
    threatSource := utf8 "intel_" ++ hit.type
    iocType := hit.type
    iocValue := hit.value
    iocCategory := hit.category
    iocID := hit.id
    iocSource := hit.source
    iocTags := hit.tags
    iocDescription := hit.description
    iocExpireAt := hit.expireAt
    recommendedAction := hit.recommendedAction
    iocEvidence := hit.evidence }

/-- The event of every hit, in the order of the two loops. -/
def hitEvents : List Event :=
  f.fingerprintHits.map (fingerprintEvent digest f) ++ f.intelHits.map (intelEvent digest f)

/-- `Engine.Detect` -/
def detect : List Event := firsts (fun ev => some ev.eventID) (hitEvents digest f) []

end

variable {digest : Bytes → String} {f : FlowFeature} {ev : Event}

theorem mem_hitEvents : ev ∈ hitEvents digest f ↔
    (∃ hit ∈ f.fingerprintHits, ev = fingerprintEvent digest f hit) ∨
      ∃ hit ∈ f.intelHits, ev = intelEvent digest f hit := by
  simp only [hitEvents, List.mem_append, List.mem_map, eq_comm]

theorem hitEvents_of_detect (h : ev ∈ detect digest f) : ev ∈ hitEvents digest f :=
  (firsts_sublist _ _).subset h

/-- No hit goes without an event of its id. -/
theorem exists_detect (h : ev ∈ hitEvents digest f) :
    ∃ ev' ∈ detect digest f, ev'.eventID = ev.eventID := by
  obtain ⟨ev', hev', hid⟩ : ∃ ev' ∈ detect digest f, some ev'.eventID = some ev.eventID :=
    exists_firsts h rfl List.not_mem_nil
  exact ⟨ev', hev', Option.some.inj hid⟩

theorem eventIDs_nodup (digest : Bytes → String) (f : FlowFeature) :
    ((detect digest f).map (·.eventID)).Nodup := by
  rw [List.Nodup, List.pairwise_map]
  refine (firsts_pairwise _ _).imp ?_
  intro a b h heq
  exact h b.eventID (by rw [heq]) rfl

theorem detect_eq_nil : detect digest f = [] ↔ f.fingerprintHits = [] ∧ f.intelHits = [] := by
  have hnil : hitEvents digest f = [] ↔ f.fingerprintHits = [] ∧ f.intelHits = [] := by
    simp [hitEvents]
  rw [← hnil]
  constructor
  · intro h
    rw [List.eq_nil_iff_forall_not_mem]
    intro ev hev
    obtain ⟨ev', hev', -⟩ := exists_detect hev
    rw [h] at hev'
    exact List.not_mem_nil hev'
  · intro h
    rw [detect, h]
    rfl

/-! ### Tuples -/

/-- What tells one hit from another. -/
inductive Mark where
  | fingerprint (ruleID type name : Bytes) (matchFrom matchTo : Int)
  | intel (id type value source : Bytes)
  deriving DecidableEq

def fingerprintMark (hit : FingerprintHit) : Mark :=
  .fingerprint hit.ruleID hit.type hit.name hit.matchFrom hit.matchTo

def intelMark (hit : Intel.ThreatIntel) : Mark := .intel hit.id hit.type hit.value hit.source

def marks (f : FlowFeature) : List Mark :=
  f.fingerprintHits.map fingerprintMark ++ f.intelHits.map intelMark

/-- The fields of the event say that it is about this hit. -/
def Event.About (ev : Event) : Mark → Prop
  | .fingerprint ruleID type name matchFrom matchTo =>
    ev.model = utf8 "threat_fingerprint" ∧ ev.ruleID = ruleID ∧ ev.eventType = type ∧
      ev.eventName = name ∧ ev.threatIndex = utf8 (toString matchFrom ++ "," ++ toString matchTo)
  | .intel id type value source =>
    ev.model = utf8 "threat_intel" ∧ ev.iocID = id ∧ ev.iocType = type ∧ ev.iocValue = value ∧
      ev.iocSource = source

instance (ev : Event) (m : Mark) : Decidable (ev.About m) := by
  cases m <;> exact inferInstanceAs (Decidable (_ ∧ _))

/-- Exactly one event for each distinct tuple, all with different ids. -/
structure KeepsEvery (f : FlowFeature) (events : List Event) : Prop where
  one : ∀ m ∈ marks f, events.countP (·.About m) = 1
  only : ∀ ev ∈ events, ∃ m ∈ marks f, ev.About m
  ids : (events.map (·.eventID)).Nodup

/-- No two hits of one kind read the same once their fields are joined. -/
structure Legible (f : FlowFeature) : Prop where
  fingerprint : ∀ x ∈ f.fingerprintHits, ∀ y ∈ f.fingerprintHits,
    x.matchFrom = y.matchFrom → x.matchTo = y.matchTo →
    (utf8 "|").intercalate [x.ruleID, x.type, x.name] =
      (utf8 "|").intercalate [y.ruleID, y.type, y.name] →
    x.ruleID = y.ruleID ∧ x.type = y.type ∧ x.name = y.name
  intel : ∀ x ∈ f.intelHits, ∀ y ∈ f.intelHits,
    (utf8 "|").intercalate [x.id, x.type, x.value, x.source] =
      (utf8 "|").intercalate [y.id, y.type, y.value, y.source] →
    x.id = y.id ∧ x.type = y.type ∧ x.value = y.value ∧ x.source = y.source

/-- The fields that are joined for the id. -/
def Mark.parts : Mark → List Bytes
  | .fingerprint ruleID type name matchFrom matchTo =>
    [utf8 "fingerprint", ruleID, type, name, utf8 (toString matchFrom ++ ":" ++ toString matchTo)]
  | .intel id type value source => [utf8 "intel", id, type, value, source]

theorem Mark.parts_ne_nil (m : Mark) : m.parts ≠ [] := by
  cases m <;> exact List.cons_ne_nil _ _

/-- The text that stands for a hit in its id. -/
def Mark.text (m : Mark) : Bytes := (utf8 "|").intercalate m.parts

theorem stableEventID_inj (hdigest : Function.Injective digest) (m n : Mark) :
    stableEventID digest f m.parts = stableEventID digest f n.parts ↔ m.text = n.text := by
  rw [stableEventID, stableEventID, String.append_right_inj, hdigest.eq_iff]
  rw [intercalate_append m.parts_ne_nil (List.cons_ne_nil _ _),
    intercalate_append n.parts_ne_nil (List.cons_ne_nil _ _), List.append_right_inj]
  rfl

/-- Two numbers around a separator. -/
theorem range_inj {c : Char} (hdigit : c.isDigit = false) (hsign : c ≠ '-') {a b a' b' : Int}
    (h : utf8 (toString a ++ String.singleton c ++ toString b) =
      utf8 (toString a' ++ String.singleton c ++ toString b')) : a = a' ∧ b = b' := by
  have hlist := congrArg String.toList (utf8_inj h)
  simp only [String.toList_append, String.toList_singleton, List.append_assoc,
    List.singleton_append] at hlist
  obtain ⟨ha, hb⟩ := split_at_mark (notMem_toString_int hdigit hsign b)
    (notMem_toString_int hdigit hsign b') hlist
  exact ⟨toString_int_inj ha, toString_int_inj hb⟩

/-- The range at the end of a fingerprint's text can be told from the fields before it. -/
theorem fingerprint_text {r t n r' t' n' : Bytes} {a b a' b' : Int} :
    (Mark.fingerprint r t n a b).text = (Mark.fingerprint r' t' n' a' b').text ↔
      (utf8 "|").intercalate [r, t, n] = (utf8 "|").intercalate [r', t', n'] ∧ a = a' ∧ b = b' := by
  have hbar : ∀ a b : Int, 124 ∉ utf8 (toString a ++ ":" ++ toString b) := by
    intro a b
    refine bar_notMem_utf8 ?_
    simp only [String.toList_append, List.mem_append, not_or]
    exact ⟨⟨notMem_toString_int (by decide) (by decide) a, by decide⟩,
      notMem_toString_int (by decide) (by decide) b⟩
  have hsplit : ∀ (r t n : Bytes) (a b : Int), (Mark.fingerprint r t n a b).text =
      utf8 "fingerprint" ++ utf8 "|" ++ (utf8 "|").intercalate [r, t, n] ++
        124 :: utf8 (toString a ++ ":" ++ toString b) := by
    intro r t n a b
    simp only [Mark.text, Mark.parts, List.intercalate_cons_cons, List.intercalate_singleton,
      List.append_assoc]
    rfl
  rw [hsplit, hsplit]
  constructor
  · intro h
    obtain ⟨hfields, hrange⟩ := split_at_mark (hbar a b) (hbar a' b') h
    exact ⟨List.append_cancel_left hfields, range_inj (c := ':') (by decide) (by decide) hrange⟩
  · rintro ⟨hfields, rfl, rfl⟩
    rw [hfields]

theorem intel_text {i t v s i' t' v' s' : Bytes} :
    (Mark.intel i t v s).text = (Mark.intel i' t' v' s').text ↔
      (utf8 "|").intercalate [i, t, v, s] = (utf8 "|").intercalate [i', t', v', s'] := by
  have hsplit : ∀ i t v s : Bytes, (Mark.intel i t v s).text =
      utf8 "intel" ++ utf8 "|" ++ (utf8 "|").intercalate [i, t, v, s] := by
    intro i t v s
    rw [Mark.text, Mark.parts, List.intercalate_cons_cons]
  rw [hsplit, hsplit, List.append_right_inj]

theorem fingerprint_text_ne_intel {r t n i t' v s : Bytes} {a b : Int} :
    (Mark.fingerprint r t n a b).text ≠ (Mark.intel i t' v s).text := by
  intro h
  have hhead := congrArg List.head? h
  simp only [Mark.text, Mark.parts, List.intercalate_cons_cons, List.append_assoc] at hhead
  exact absurd hhead (by simp [utf8, String.utf8EncodeChar])

theorem mem_marks {m : Mark} : m ∈ marks f ↔
    (∃ hit ∈ f.fingerprintHits, fingerprintMark hit = m) ∨ ∃ hit ∈ f.intelHits, intelMark hit = m := by
  rw [marks, List.mem_append, List.mem_map, List.mem_map]

/-- The hits are legible if their texts tell them apart. -/
theorem legible_iff : Legible f ↔ ∀ m ∈ marks f, ∀ n ∈ marks f, m.text = n.text → m = n := by
  constructor
  · intro h m hm n hn htext
    rcases mem_marks.mp hm with ⟨x, hx, rfl⟩ | ⟨x, hx, rfl⟩
    · rcases mem_marks.mp hn with ⟨y, hy, rfl⟩ | ⟨y, hy, rfl⟩
      · obtain ⟨hfields, hfrom, hto⟩ := fingerprint_text.mp htext
        obtain ⟨hid, htype, hname⟩ := h.fingerprint x hx y hy hfrom hto hfields
        rw [fingerprintMark, fingerprintMark, hid, htype, hname, hfrom, hto]
      · exact absurd htext fingerprint_text_ne_intel
    · rcases mem_marks.mp hn with ⟨y, hy, rfl⟩ | ⟨y, hy, rfl⟩
      · exact absurd htext.symm fingerprint_text_ne_intel
      · obtain ⟨hid, htype, hvalue, hsource⟩ := h.intel x hx y hy (intel_text.mp htext)
        rw [intelMark, intelMark, hid, htype, hvalue, hsource]
  · intro h
    constructor
    · intro x hx y hy hfrom hto hfields
      have heq := h (fingerprintMark x) (mem_marks.mpr (.inl ⟨x, hx, rfl⟩)) (fingerprintMark y)
        (mem_marks.mpr (.inl ⟨y, hy, rfl⟩)) (fingerprint_text.mpr ⟨hfields, hfrom, hto⟩)
      simp only [fingerprintMark, Mark.fingerprint.injEq] at heq
      exact ⟨heq.1, heq.2.1, heq.2.2.1⟩
    · intro x hx y hy hfields
      have heq := h (intelMark x) (mem_marks.mpr (.inr ⟨x, hx, rfl⟩)) (intelMark y)
        (mem_marks.mpr (.inr ⟨y, hy, rfl⟩)) (intel_text.mpr hfields)
      simpa only [intelMark, Mark.intel.injEq] using heq

/-! ### One event for each tuple -/

theorem about_unique {m n : Mark} (hm : ev.About m) (hn : ev.About n) : m = n := by
  have hmodels : utf8 "threat_fingerprint" ≠ utf8 "threat_intel" := by decide +kernel
  cases m with
  | fingerprint r t name a b =>
    cases n with
    | fingerprint r' t' name' a' b' =>
      obtain ⟨-, rfl, rfl, rfl, hindex⟩ := hm
      obtain ⟨-, rfl, rfl, rfl, hindex'⟩ := hn
      obtain ⟨rfl, rfl⟩ := range_inj (c := ',') (by decide) (by decide) (hindex.symm.trans hindex')
      rfl
    | intel => exact absurd (hm.1.symm.trans hn.1) hmodels
  | intel i t v s =>
    cases n with
    | fingerprint => exact absurd (hn.1.symm.trans hm.1) hmodels
    | intel =>
      obtain ⟨-, rfl, rfl, rfl, rfl⟩ := hm
      obtain ⟨-, rfl, rfl, rfl, rfl⟩ := hn
      rfl

/-- An event is about the hit that made it, and its id is made of that hit's text. -/
theorem about_hitEvents (h : ev ∈ hitEvents digest f) :
    ∃ m ∈ marks f, ev.About m ∧ ev.eventID = stableEventID digest f m.parts := by
  rcases mem_hitEvents.mp h with ⟨hit, hhit, rfl⟩ | ⟨hit, hhit, rfl⟩
  · exact ⟨fingerprintMark hit, mem_marks.mpr (.inl ⟨hit, hhit, rfl⟩), ⟨rfl, rfl, rfl, rfl, rfl⟩, rfl⟩
  · exact ⟨intelMark hit, mem_marks.mpr (.inr ⟨hit, hhit, rfl⟩), ⟨rfl, rfl, rfl, rfl, rfl⟩, rfl⟩

theorem exists_hitEvents {m : Mark} (hm : m ∈ marks f) :
    ∃ ev ∈ hitEvents digest f, ev.eventID = stableEventID digest f m.parts := by
  rcases mem_marks.mp hm with ⟨hit, hhit, rfl⟩ | ⟨hit, hhit, rfl⟩
  · exact ⟨fingerprintEvent digest f hit, mem_hitEvents.mpr (.inl ⟨hit, hhit, rfl⟩), rfl⟩
  · exact ⟨intelEvent digest f hit, mem_hitEvents.mpr (.inr ⟨hit, hhit, rfl⟩), rfl⟩

theorem eventID_of_about {m : Mark} (h : ev ∈ detect digest f) (hm : ev.About m) :
    ev.eventID = stableEventID digest f m.parts := by
  obtain ⟨n, -, hn, hid⟩ := about_hitEvents (hitEvents_of_detect h)
  rw [hid, about_unique hn hm]

theorem eq_of_eventID {ev' : Event} (h : ev ∈ detect digest f) (h' : ev' ∈ detect digest f)
    (hid : ev.eventID = ev'.eventID) : ev = ev' :=
  List.inj_on_of_nodup_map (eventIDs_nodup digest f) h h' hid

theorem countP_eq_one {α : Type} {l : List α} {p : α → Bool} (hl : l.Nodup) {a : α} (ha : a ∈ l)
    (hpa : p a = true) (honly : ∀ b ∈ l, p b = true → b = a) : l.countP p = 1 := by
  classical
  have hsame : l.countP p = l.count a := by
    refine List.countP_congr fun b hb => ?_
    rw [beq_iff_eq]
    exact ⟨honly b hb, fun h => h ▸ hpa⟩
  rw [hsame, List.count_eq_one_of_mem hl ha]

/-- With a digest that tells all texts apart, every distinct hit gets its event exactly if the joined
    fields tell the hits apart. -/
theorem keepsEvery_iff_legible (hdigest : Function.Injective digest) (f : FlowFeature) :
    KeepsEvery f (detect digest f) ↔ Legible f := by
  rw [legible_iff]
  constructor
  · intro h m hm n hn htext
    have hexists : ∀ m ∈ marks f, ∃ ev ∈ detect digest f, ev.About m := by
      intro m hm
      have hpos : 0 < (detect digest f).countP (·.About m) := by rw [h.one m hm]; exact Nat.one_pos
      obtain ⟨ev, hev, habout⟩ := List.countP_pos_iff.mp hpos
      exact ⟨ev, hev, by simpa using habout⟩
    obtain ⟨ev, hev, habout⟩ := hexists m hm
    obtain ⟨ev', hev', habout'⟩ := hexists n hn
    have hid : ev.eventID = ev'.eventID := by
      rw [eventID_of_about hev habout, eventID_of_about hev' habout',
        (stableEventID_inj hdigest m n).mpr htext]
    exact about_unique habout (eq_of_eventID hev hev' hid ▸ habout')
  · intro h
    refine ⟨fun m hm => ?_, fun ev hev => ?_, eventIDs_nodup digest f⟩
    · obtain ⟨hit, hhit, hid⟩ : ∃ hit ∈ hitEvents digest f,
          hit.eventID = stableEventID digest f m.parts := exists_hitEvents hm
      obtain ⟨ev, hev, hev_id⟩ := exists_detect hhit
      obtain ⟨n, hn, habout, hev_parts⟩ := about_hitEvents (hitEvents_of_detect hev)
      have hparts := hev_parts.symm.trans (hev_id.trans hid)
      obtain rfl := h n hn m hm ((stableEventID_inj hdigest n m).mp hparts)
      refine countP_eq_one (List.Nodup.of_map _ (eventIDs_nodup digest f)) hev (by simpa using habout) ?_
      intro ev' hev' habout'
      exact eq_of_eventID hev' hev ((eventID_of_about hev' (by simpa using habout')).trans
        (eventID_of_about hev habout).symm)
    · obtain ⟨m, hm, habout, -⟩ := about_hitEvents (hitEvents_of_detect hev)
      exact ⟨m, hm, habout⟩

/-- A digest that is the text itself. -/
def spell (data : Bytes) : String := String.ofList (data.map Char.ofUInt8)

theorem spell_injective : Function.Injective spell := by
  intro a b h
  refine List.map_injective_iff.mpr ?_ (String.ofList_injective h)
  intro c d hcd
  exact UInt8.toUInt32_inj.mp (congrArg Char.val hcd)

/-- A packet on which some rules match. -/
def matched (hits : List FingerprintHit) : FlowFeature where
  firstTime := 7
  lastTime := 7
  srcIP := "10.0.0.1"
  srcPort := 40000
  dstIP := "10.0.0.2"
  dstPort := 80
  proto := .tcp
  packets := 1
  packetSequence := 1
  fingerprintHits := hits

/-- Two hits of rules whose fields have no bar. -/
theorem keepsEvery_iff_legible_rules : Function.Injective spell ∧
    let f := matched [⟨utf8 "r1", utf8 "c2", utf8 "beacon", 0, 4⟩,
      ⟨utf8 "r2", utf8 "c2", utf8 "beacon", 0, 4⟩]
    KeepsEvery f (detect spell f) := by
  refine ⟨spell_injective, (keepsEvery_iff_legible spell_injective _).mpr ⟨?_, ?_⟩⟩
  · decide +kernel
  · intro x hx
    exact absurd hx List.not_mem_nil

/-- Rule "r" of type "a|b" and rule "r|a" of type "b" match at the same place: two hits, one event. -/
theorem detect_loses_hit :
    let f := matched [⟨utf8 "r", utf8 "a|b", utf8 "x", 0, 4⟩, ⟨utf8 "r|a", utf8 "b", utf8 "x", 0, 4⟩]
    Function.Injective spell ∧ (marks f).Nodup ∧ (detect spell f).length = 1 ∧
      ¬ KeepsEvery f (detect spell f) := by
  refine ⟨spell_injective, by decide +kernel, by decide +kernel, ?_⟩
  intro h
  have hone := h.one (.fingerprint (utf8 "r|a") (utf8 "b") (utf8 "x") 0 4) (by decide +kernel)
  exact absurd hone (by decide +kernel)

end TaNode.Detector

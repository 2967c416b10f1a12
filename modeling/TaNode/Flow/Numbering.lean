import Mathlib.Data.Finset.Card
import TaNode.Flow.Aggregator
import TaNode.Flow.Stamps

/-! What the aggregator numbers: as long as its table has room for the flows of a capture, the ids of
    the events are those of the stamps its calls get, in the order of the calls.

    The class of a packet is the key of its flow. The key is a text; addresses have no dash, so it
    gives the five-tuple back, and the stored flow of a packet has the packet's own addresses. -/

namespace TaNode.Flow
open Correlation

/-! ### Five-tuples -/

@[ext]
structure FiveTuple where
  srcIP : String
  srcPort : UInt16
  dstIP : String
  dstPort : UInt16
  proto : Proto

namespace FiveTuple

/-- The text of the key. -/
def key (t : FiveTuple) : String :=
  t.srcIP ++ ":" ++ toString t.srcPort.toNat ++ "-" ++ t.dstIP ++ ":" ++
    toString t.dstPort.toNat ++ "-" ++ Proto.text t.proto

theorem toList_key (t : FiveTuple) : t.key.toList =
    (((t.srcIP.toList ++ ':' :: (toString t.srcPort.toNat).toList) ++ '-' :: t.dstIP.toList) ++
      ':' :: (toString t.dstPort.toNat).toList) ++ '-' :: (Proto.text t.proto).toList := by
  simp [key]

/-- The key of a flow gives its five-tuple back. -/
theorem key_inj {t u : FiveTuple} (ht : '-' ∉ t.dstIP.toList) (hu : '-' ∉ u.dstIP.toList)
    (h : t.key = u.key) : t = u := by
  have hproto : ∀ p : Proto, '-' ∉ (Proto.text p).toList := by
    intro p
    cases p <;> decide
  have hport : ∀ p : UInt16, ':' ∉ (toString p.toNat).toList := fun p => notMem_toString (by decide) _
  have hlist := congrArg String.toList h
  rw [toList_key, toList_key] at hlist
  obtain ⟨hlist, hprotos⟩ := split_at_mark (hproto _) (hproto _) hlist
  obtain ⟨hlist, hdport⟩ := split_at_mark (hport _) (hport _) hlist
  obtain ⟨hlist, hdst⟩ := split_at_mark ht hu hlist
  obtain ⟨hsrc, hsport⟩ := split_at_mark (hport _) (hport _) hlist
  exact FiveTuple.ext (String.toList_inj.mp hsrc) (UInt16.toNat_inj.mp (toString_inj hsport))
    (String.toList_inj.mp hdst) (UInt16.toNat_inj.mp (toString_inj hdport)) (Proto.text_inj hprotos)

end FiveTuple

/-- The five-tuple of a packet, -/
def tuple (pf : PacketFeature) : FiveTuple where
  srcIP := pf.srcIP
  srcPort := pf.srcPort
  dstIP := pf.dstIP
  dstPort := pf.dstPort
  proto := pf.proto

/-- and that of a flow. -/
def FlowFeature.tuple (f : FlowFeature) : FiveTuple where
  srcIP := f.srcIP
  srcPort := f.srcPort
  dstIP := f.dstIP
  dstPort := f.dstPort
  proto := f.proto

theorem flowKey_eq (pf : PacketFeature) : flowKey pf = (tuple pf).key := rfl

/-! ### The table -/

/-- The aggregator after the packets `seen`: it has counted them, and of each flow it has kept the
    time of the first. -/
structure Tracks (a : Aggregator) (seen : List PacketFeature) : Prop where
  seq : a.packetSeq = seen.length
  distinct : (a.flows.map (·.key)).Nodup
  keys : ∀ key, key ∈ a.flows.map (·.key) ↔ key ∈ seen.map flowKey
  first : ∀ st ∈ a.flows, ∃ pf, seen.find? (flowKey · = st.key) = some pf ∧
    st.feature.firstTime = pf.packetTimeUsec ∧ st.feature.tuple = tuple pf

variable {a : Aggregator} {seen : List PacketFeature} {pf : PacketFeature} {now : Readings}
  {parseIP : String → Bytes}
  {fpHits : List FingerprintHit} {intelHits : List Intel.ThreatIntel}

theorem tracks_new (maxFlows idleTimeout : Int) : Tracks (newAggregator maxFlows idleTimeout) [] where
  seq := rfl
  distinct := List.nodup_nil
  keys key := by simp [newAggregator]
  first st h := by simp [newAggregator] at h

theorem Tracks.length (h : Tracks a seen) : a.flows.length = (seen.map flowKey).toFinset.card := by
  rw [← List.length_map (f := (·.key)), ← List.toFinset_card_of_nodup h.distinct]
  congr 1
  ext key
  rw [List.mem_toFinset, List.mem_toFinset, h.keys]

/-- What `Update` returns for the next packet. -/
structure Numbered (seen : List PacketFeature) (pf : PacketFeature) (fpHits : List FingerprintHit)
    (intelHits : List Intel.ThreatIntel) (f : FlowFeature) : Prop where
  first : f.firstTime = ((seen.find? (flowKey · = flowKey pf)).getD pf).packetTimeUsec
  time : f.packetTimeUsec = pf.packetTimeUsec
  ordinal : f.packetSequence = seen.length + 1
  tuple : f.tuple = tuple pf
  fingerprints : f.fingerprintHits = fpHits
  intel : f.intelHits = intelHits

theorem tuple_of_find {pf₀ : PacketFeature} (hdash : ∀ p ∈ pf :: seen, '-' ∉ p.dstIP.toList)
    (h : seen.find? (flowKey · = flowKey pf) = some pf₀) : tuple pf₀ = tuple pf := by
  have hkey : flowKey pf₀ = flowKey pf := by simpa using List.find?_some h
  exact FiveTuple.key_inj (hdash pf₀ (List.mem_cons_of_mem pf (List.mem_of_find?_eq_some h)))
    (hdash pf (List.mem_cons_self ..)) hkey

/-- A flow that was first before still is, with one more packet. -/
theorem Tracks.first_snoc (h : Tracks a seen) {st : FlowState} (hst : st ∈ a.flows) :
    ∃ pf', (seen ++ [pf]).find? (flowKey · = st.key) = some pf' ∧
      st.feature.firstTime = pf'.packetTimeUsec ∧ st.feature.tuple = tuple pf' := by
  obtain ⟨pf', hfind, hrest⟩ := h.first st hst
  exact ⟨pf', by rw [List.find?_append, hfind]; rfl, hrest⟩

/-- The next packet of a flow in the table. -/
theorem Tracks.known (h : Tracks a seen) (hdash : ∀ p ∈ pf :: seen, '-' ∉ p.dstIP.toList)
    {st : FlowState} (hfind : a.flows.find? (·.key = flowKey pf) = some st) :
    let next := count parseIP { a with
      packetSeq := a.packetSeq + 1
      flows := a.flows.filter (·.key ≠ flowKey pf) } now pf fpHits intelHits st
    Numbered seen pf fpHits intelHits next.1 ∧ Tracks next.2 (seen ++ [pf]) := by
  have hst := List.mem_of_find?_eq_some hfind
  have hkey : st.key = flowKey pf := by simpa using List.find?_some hfind
  obtain ⟨pf₀, hpf₀, htime, htuple⟩ := h.first st hst
  rw [hkey] at hpf₀
  refine ⟨⟨?_, rfl, ?_, ?_, rfl, rfl⟩, ⟨?_, ?_, ?_, ?_⟩⟩
  · rw [hpf₀]
    exact htime
  · rw [h.seq]
    rfl
  · exact htuple.trans (tuple_of_find hdash hpf₀)
  · simp [h.seq]
  · have hfresh : flowKey pf ∉ (a.flows.filter (·.key ≠ flowKey pf)).map (·.key) := by
      intro hmem
      obtain ⟨other, hother, hsame⟩ := List.mem_map.mp hmem
      exact absurd hsame (by simpa using (List.mem_filter.mp hother).2)
    rw [count_flows, List.map_cons, touch_key, hkey, List.nodup_cons]
    exact ⟨hfresh, h.distinct.sublist (List.filter_sublist.map _)⟩
  · intro key
    rw [count_flows, List.map_cons, touch_key, hkey, List.map_append]
    by_cases hsame : key = flowKey pf
    · simp [hsame]
    · have hother : key ∈ (a.flows.filter (·.key ≠ flowKey pf)).map (·.key) ↔
          key ∈ a.flows.map (·.key) := by
        simp only [List.mem_map, List.mem_filter]
        constructor
        · rintro ⟨other, ⟨hother, -⟩, rfl⟩
          exact ⟨other, hother, rfl⟩
        · rintro ⟨other, hother, rfl⟩
          exact ⟨other, ⟨hother, by simpa using hsame⟩, rfl⟩
      rw [List.mem_cons, hother, h.keys]
      simp [hsame]
  · intro other hother
    rcases List.mem_cons.mp hother with rfl | hother
    · have hfirst := @Tracks.first_snoc a seen pf h st hst
      exact hfirst
    · exact h.first_snoc (List.mem_filter.mp hother).1

/-- The first packet of a flow, when there is room in the table. -/
theorem Tracks.fresh (h : Tracks a seen) (hfind : a.flows.find? (·.key = flowKey pf) = none) :
    let next := count parseIP { a with packetSeq := a.packetSeq + 1 } now pf fpHits intelHits
      (newFlow pf)
    Numbered seen pf fpHits intelHits next.1 ∧ Tracks next.2 (seen ++ [pf]) := by
  have hfresh : flowKey pf ∉ a.flows.map (·.key) := by
    intro hmem
    obtain ⟨st, hst, hkey⟩ := List.mem_map.mp hmem
    exact absurd hkey (by simpa using List.find?_eq_none.mp hfind st hst)
  have hnone : seen.find? (flowKey · = flowKey pf) = none := by
    refine List.find?_eq_none.mpr fun p hp hkey => ?_
    rw [decide_eq_true_eq] at hkey
    exact hfresh ((h.keys _).mpr (List.mem_map.mpr ⟨p, hp, hkey⟩))
  refine ⟨⟨?_, rfl, ?_, rfl, rfl, rfl⟩, ⟨?_, ?_, ?_, ?_⟩⟩
  · rw [hnone]
    rfl
  · rw [h.seq]
    rfl
  · simp [h.seq]
  · exact List.nodup_cons.mpr ⟨hfresh, h.distinct⟩
  · intro key
    rw [count_flows, List.map_cons, List.mem_cons, h.keys, List.map_append, List.mem_append]
    simp only [List.map_cons, List.map_nil, List.mem_singleton]
    exact or_comm
  · intro st hst
    rcases List.mem_cons.mp hst with rfl | hst
    · refine ⟨pf, ?_, rfl, rfl⟩
      rw [List.find?_append, touch_key, show (newFlow pf).key = flowKey pf from rfl, hnone]
      simp
    · exact h.first_snoc hst

theorem Tracks.update (h : Tracks a seen) (hdash : ∀ p ∈ pf :: seen, '-' ∉ p.dstIP.toList)
    (hroom : ((seen ++ [pf]).map flowKey).toFinset.card ≤ a.maxFlows) :
    Numbered seen pf fpHits intelHits (update parseIP a now pf fpHits intelHits).1 ∧
      Tracks (Flow.update parseIP a now pf fpHits intelHits).2 (seen ++ [pf]) ∧
      (Flow.update parseIP a now pf fpHits intelHits).2.maxFlows = a.maxFlows := by
  rw [Flow.update]
  dsimp only
  cases hfind : a.flows.find? (·.key = flowKey pf) with
  | some st =>
    obtain ⟨hnumbered, htracks⟩ := h.known hdash hfind
    exact ⟨hnumbered, htracks, rfl⟩
  | none =>
    obtain ⟨hnumbered, htracks⟩ := @Tracks.fresh a seen pf now parseIP fpHits intelHits h hfind
    have hlt : ¬ (a.flows.length : Int) ≥ a.maxFlows := by
      have hfresh : flowKey pf ∉ (seen.map flowKey).toFinset := by
        rw [List.mem_toFinset, ← h.keys]
        intro hmem
        obtain ⟨st, hst, hkey⟩ := List.mem_map.mp hmem
        exact absurd hkey (by simpa using List.find?_eq_none.mp hfind st hst)
      have hcard : ((seen ++ [pf]).map flowKey).toFinset.card = a.flows.length + 1 := by
        rw [List.map_append, List.toFinset_append, List.map_singleton, List.toFinset_cons,
          List.toFinset_nil, insert_empty_eq, Finset.union_singleton, Finset.card_insert_of_notMem hfresh,
          h.length]
      omega
    simp only [if_neg hlt]
    exact ⟨hnumbered, htracks, rfl⟩

/-! ### Ids -/

/-- The texts of the hits of a packet that its ids are made of. -/
def hitMarks (fpHits : List FingerprintHit) (intelHits : List Intel.ThreatIntel) : List Bytes :=
  (fpHits.map FingerprintHit.parts ++ intelHits.map intelParts).map (utf8 "|").intercalate

/-- The text that is digested to an id. -/
def stampText (s : Stamp FiveTuple UInt64 Bytes) : Bytes :=
  (utf8 "|").intercalate [utf8 (toString s.first.toNat), utf8 (toString s.time.toNat),
    utf8 (toString s.ordinal), utf8 s.id.srcIP, utf8 (toString s.id.srcPort.toNat), utf8 s.id.dstIP,
    utf8 (toString s.id.dstPort.toNat), utf8 (Proto.text s.id.proto), s.mark]

/-- The id a stamp stands for. -/
def eventID (digest : Bytes → String) (s : Stamp FiveTuple UInt64 Bytes) : String :=
  "evt-" ++ digest (stampText s)

theorem stableEventID_eq {f : FlowFeature} (digest : Bytes → String) (hseq : f.packetSequence ≠ 0)
    {parts : List Bytes} (hparts : parts ≠ []) : stableEventID digest f parts =
      eventID digest ⟨f.firstTime, f.packetTimeUsec, f.packetSequence, f.tuple,
        (utf8 "|").intercalate parts⟩ := by
  rw [stableEventID, if_neg hseq, eventID, stampText]
  have hjoin : ∀ (fields : List Bytes), fields ≠ [] → (utf8 "|").intercalate (fields ++ parts) =
      (utf8 "|").intercalate (fields ++ [(utf8 "|").intercalate parts]) := by
    intro fields hfields
    rw [intercalate_append hparts hfields, intercalate_append (List.cons_ne_nil _ _) hfields,
      List.intercalate_singleton]
  rw [hjoin _ (List.cons_ne_nil _ _)]
  rfl

theorem mem_detectIDs {f : FlowFeature} {digest : Bytes → String} {id : String}
    (hseq : f.packetSequence ≠ 0) :
    id ∈ detectIDs digest f ↔ ∃ m ∈ hitMarks f.fingerprintHits f.intelHits,
      id = eventID digest ⟨f.firstTime, f.packetTimeUsec, f.packetSequence, f.tuple, m⟩ := by
  have hparts : ∀ parts ∈ f.fingerprintHits.map FingerprintHit.parts ++ f.intelHits.map intelParts,
      parts ≠ [] := by
    intro parts hmem
    rcases List.mem_append.mp hmem with hmem | hmem
    · obtain ⟨hit, -, rfl⟩ := List.mem_map.mp hmem
      exact List.cons_ne_nil _ _
    · obtain ⟨hit, -, rfl⟩ := List.mem_map.mp hmem
      exact List.cons_ne_nil _ _
  rw [detectIDs, List.mem_eraseDups, List.mem_map, hitMarks]
  constructor
  · rintro ⟨parts, hmem, rfl⟩
    exact ⟨_, List.mem_map_of_mem hmem, stableEventID_eq digest hseq (hparts parts hmem)⟩
  · rintro ⟨m, hm, rfl⟩
    obtain ⟨parts, hmem, rfl⟩ := List.mem_map.mp hm
    exact ⟨parts, hmem, stableEventID_eq digest hseq (hparts parts hmem)⟩

theorem utf8_inj {s t : String} (h : utf8 s = utf8 t) : s = t := by
  rw [← String.toByteArray_inj, ← String.utf8Encode_toList, ← String.utf8Encode_toList]
  exact congrArg List.toByteArray h

/-- The fields of a stamp's text before the mark. -/
def stampFields (s : Stamp FiveTuple UInt64 Bytes) : List Bytes :=
  [toString s.first.toNat, toString s.time.toNat, toString s.ordinal, s.id.srcIP,
    toString s.id.srcPort.toNat, s.id.dstIP, toString s.id.dstPort.toNat, Proto.text s.id.proto].map utf8

theorem bar_notMem_stampFields {s : Stamp FiveTuple UInt64 Bytes}
    (hs : '|' ∉ s.id.srcIP.toList ∧ '|' ∉ s.id.dstIP.toList) :
    ∀ field ∈ stampFields s, 124 ∉ field := by
  have hproto : '|' ∉ (Proto.text s.id.proto).toList := by
    cases s.id.proto <;> decide
  intro field hfield
  obtain ⟨text, htext, rfl⟩ := List.mem_map.mp hfield
  refine bar_notMem_utf8 ?_
  simp only [List.mem_cons, List.not_mem_nil, or_false] at htext
  rcases htext with rfl | rfl | rfl | rfl | rfl | rfl | rfl | rfl
  · exact notMem_toString (by decide) _
  · exact notMem_toString (by decide) _
  · exact notMem_toString (by decide) _
  · exact hs.1
  · exact notMem_toString (by decide) _
  · exact hs.2
  · exact notMem_toString (by decide) _
  · exact hproto

/-- The text gives the stamp back, if the addresses have no bar. -/
theorem stampText_inj {s t : Stamp FiveTuple UInt64 Bytes}
    (hs : '|' ∉ s.id.srcIP.toList ∧ '|' ∉ s.id.dstIP.toList)
    (ht : '|' ∉ t.id.srcIP.toList ∧ '|' ∉ t.id.dstIP.toList) (h : stampText s = stampText t) : s = t := by
  have hnat : ∀ {m n : Nat}, utf8 (toString m) = utf8 (toString n) → m = n :=
    fun hmn => toString_inj (congrArg String.toList (utf8_inj hmn))
  obtain ⟨hfields, hmark⟩ := @intercalate_fields_inj UInt8 124 s.mark t.mark (stampFields s)
    (stampFields t) rfl (bar_notMem_stampFields hs) (bar_notMem_stampFields ht) h
  simp only [stampFields, List.map_cons, List.map_nil, List.cons.injEq, and_true] at hfields
  obtain ⟨hfirst, htime, hordinal, hsrc, hsport, hdst, hdport, hproto⟩ := hfields
  have hid : s.id = t.id := FiveTuple.ext (utf8_inj hsrc) (UInt16.toNat_inj.mp (hnat hsport))
    (utf8_inj hdst) (UInt16.toNat_inj.mp (hnat hdport))
    (Proto.text_inj (congrArg String.toList (utf8_inj hproto)))
  exact Stamp.ext (UInt64.toNat_inj.mp (hnat hfirst)) (UInt64.toNat_inj.mp (hnat htime))
    (hnat hordinal) hid hmark

end TaNode.Flow

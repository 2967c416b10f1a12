import Mathlib.Algebra.Order.Group.Nat
import Mathlib.Algebra.Order.Monoid.Prod
import TaNode.Flow.Numbering

/-! The two tables of the aggregator over any sequence of calls.

    A flow and its pair are counted together but evicted apart, each by its own last reading of the
    clock. In a call the pair is read after the flow, so a pair is never older than its flows and is
    still there when they are:

        flow   a ──▶ b    lastSeen t₂   ≤   lastSeen t₃    pair  a ⇄ b
                          counters      ≤   counters of the direction

    The counters have 64 bits. Those of a pair live longer than its flows, so they may wrap around and
    fall behind a flow that began anew.

    What the caller gets back is a copy: the context of a packet is put on the copy and never on the
    stored flow. -/

namespace TaNode.Flow
open Correlation

/-! ### Counters -/

/-- Packets, payload bytes and bytes on the wire. -/
abbrev Counts := Nat × Nat × Nat

/-- What a packet adds. -/
def weight (pf : PacketFeature) : Counts := (1, pf.payload.length, pf.wireLen.toNat)

def FlowFeature.counts (f : FlowFeature) : Counts :=
  (f.packets.toNat, f.bytes.toNat, f.wireBytes.toNat)

/-- The counters of one direction. -/
def PairStats.counts (ps : PairStats) (forward : Bool) : Counts :=
  if forward then (ps.clientPackets.toNat, ps.clientBytes.toNat, ps.clientWireBytes.toNat)
  else (ps.serverPackets.toNat, ps.serverBytes.toNat, ps.serverWireBytes.toNat)

/-- A sum of counters as the code keeps it. -/
def Counts.wrap (c : Counts) : Counts := (c.1 % 2 ^ 64, c.2.1 % 2 ^ 64, c.2.2 % 2 ^ 64)

/-- A wrapped sum is the sum if it is not less than what was added, -/
theorem Counts.wrap_eq {c w : Counts} (hc : c.wrap = c) (h : w ≤ (c + w).wrap) :
    (c + w).wrap = c + w := by
  obtain ⟨c₁, c₂, c₃⟩ := c
  obtain ⟨w₁, w₂, w₃⟩ := w
  simp only [wrap, Prod.mk.injEq, Prod.mk_add_mk, Prod.mk_le_mk] at hc h ⊢
  omega

/-- and then so is a smaller one. -/
theorem Counts.wrap_eq_of_le {c d w : Counts} (hle : c ≤ d) (h : (d + w).wrap = d + w) :
    (c + w).wrap = c + w := by
  obtain ⟨c₁, c₂, c₃⟩ := c
  obtain ⟨d₁, d₂, d₃⟩ := d
  obtain ⟨w₁, w₂, w₃⟩ := w
  simp only [wrap, Prod.mk.injEq, Prod.mk_add_mk, Prod.mk_le_mk] at hle h ⊢
  omega

section
variable (parseIP : String → Bytes)

/-- The key of the pair of a five-tuple, and whether it is the client that sends. -/
def FiveTuple.pairKey (t : FiveTuple) : String :=
  Flow.pairKey parseIP t.srcIP t.srcPort t.dstIP t.dstPort t.proto

def FiveTuple.forward (t : FiveTuple) : Bool :=
  isForward parseIP t.srcIP t.srcPort t.dstIP t.dstPort t.proto

variable {parseIP} {now : Int} {pf : PacketFeature} {st : FlowState} {ps : PairState}

theorem wrap_counts (ps : PairStats) (forward : Bool) : (ps.counts forward).wrap = ps.counts forward := by
  cases forward <;> simp [PairStats.counts, Counts.wrap]

theorem counts_touch :
    (touch now pf st).feature.counts = (st.feature.counts + weight pf).wrap := by
  have hpackets : ((1 : UInt64)).toNat = 1 := rfl
  simp [touch, FlowFeature.counts, weight, Counts.wrap, hpackets]

theorem touchPair_lastSeen : (touchPair parseIP now pf ps).lastSeen = now := by
  rw [touchPair]
  dsimp only
  split_ifs <;> rfl

/-- A packet is counted in its direction, -/
theorem counts_touchPair : (touchPair parseIP now pf ps).counts ((tuple pf).forward parseIP) =
    (ps.counts ((tuple pf).forward parseIP) + weight pf).wrap := by
  have hpackets : (1 : UInt64).toNat = 1 := rfl
  have hforward : (tuple pf).forward parseIP =
      isForward parseIP pf.srcIP pf.srcPort pf.dstIP pf.dstPort pf.proto := rfl
  rw [touchPair, hforward]
  cases isForward parseIP pf.srcIP pf.srcPort pf.dstIP pf.dstPort pf.proto <;>
    simp [PairStats.counts, weight, Counts.wrap, hpackets]

/-- and only there. -/
theorem counts_touchPair_of_ne {forward : Bool} (h : forward ≠ (tuple pf).forward parseIP) :
    (touchPair parseIP now pf ps).counts forward = ps.counts forward := by
  rw [touchPair]
  cases hdirection : isForward parseIP pf.srcIP pf.srcPort pf.dstIP pf.dstPort pf.proto with
  | true => cases forward with
    | true => exact absurd hdirection.symm h
    | false => rfl
  | false => cases forward with
    | true => rfl
    | false => exact absurd hdirection.symm h

/-- Where the counter of its direction does not wrap, no counter of a pair falls. -/
theorem counts_le_touchPair (forward : Bool) (hfits : weight pf ≤
    (touchPair parseIP now pf ps).counts ((tuple pf).forward parseIP)) :
    ps.counts forward ≤ (touchPair parseIP now pf ps).counts forward := by
  by_cases hsame : forward = (tuple pf).forward parseIP
  · rw [hsame]
    rw [counts_touchPair] at hfits ⊢
    rw [Counts.wrap_eq (wrap_counts _ _) hfits]
    exact le_add_of_nonneg_right zero_le
  · rw [counts_touchPair_of_ne hsame]

/-- A flow that is not ahead of its pair stays so. -/
theorem counts_touch_le {now' : Int} (hle : st.feature.counts ≤ ps.counts ((tuple pf).forward parseIP))
    (hfits : weight pf ≤ (touchPair parseIP now pf ps).counts ((tuple pf).forward parseIP)) :
    (touch now' pf st).feature.counts ≤
      (touchPair parseIP now pf ps).counts ((tuple pf).forward parseIP) := by
  rw [counts_touchPair] at hfits ⊢
  have hsum := Counts.wrap_eq (wrap_counts _ _) hfits
  rw [counts_touch, hsum, Counts.wrap_eq_of_le hle hsum]
  exact add_le_add_left hle _

end

/-! ### Calls -/

inductive Call where
  | update (now : Readings) (pf : PacketFeature) (fpHits : List FingerprintHit)
      (intelHits : List Intel.ThreatIntel)
  | cleanup (now : Int)

/-- The readings of the clock in a call. -/
def Call.readings : Call → List Int
  | .update now _ _ _ => [now.cleanup, now.flow, now.pair]
  | .cleanup now => [now]

def Call.packets : Call → List PacketFeature
  | .update _ pf _ _ => [pf]
  | .cleanup _ => []

section
variable (parseIP : String → Bytes)

/-- What a call returns, nothing for a cleanup, and the tables it leaves. -/
def Call.run (a : Aggregator) : Call → Option FlowFeature × Aggregator
  | .update now pf fpHits intelHits => (Flow.update parseIP a now pf fpHits intelHits).map some id
  | .cleanup now => (none, cleanupLocked a now)

def after (a : Aggregator) (calls : List Call) : Aggregator :=
  calls.foldl (fun a c => (c.run parseIP a).2) a

/-- What the calls return, one after the other. -/
def results (a : Aggregator) : List Call → List (Option FlowFeature)
  | [] => []
  | c :: calls => (c.run parseIP a).1 :: results (c.run parseIP a).2 calls

/-- No counter of the pair of a packet wraps around: those that come out count at least the packet. -/
def Call.Fits (a : Aggregator) (c : Call) : Prop :=
  ∀ pf ∈ c.packets, ∀ f ∈ (c.run parseIP a).1, ∀ ps ∈ f.pairStats,
    weight pf ≤ ps.counts ((tuple pf).forward parseIP)

/-- No counter of a pair wraps around in any of the calls. -/
def Unwrapped (a : Aggregator) : List Call → Prop
  | [] => True
  | c :: calls => c.Fits parseIP a ∧ Unwrapped (c.run parseIP a).2 calls

/-- The table of flows is within its bounds, and each flow has a pair. -/
structure TablesConsistent (a : Aggregator) : Prop where
  capacity : a.flows.length ≤ a.maxFlows
  pairs : ∀ st ∈ a.flows, st.feature.tuple.pairKey parseIP ∈ a.pairs

/-- The pair of a flow has at least its counters, in the direction of the flow. -/
def Dominated (a : Aggregator) : Prop :=
  ∀ st ∈ a.flows, ∃ ps, a.pairs.lookup (st.feature.tuple.pairKey parseIP) = some ps ∧
    st.feature.counts ≤ ps.counts (st.feature.tuple.forward parseIP)

end

/-- The context on a feature is that of the packet it was returned for. A feature of an untracked flow
    lacks a part of it. -/
structure OwnContext (pf : PacketFeature) (fpHits : List FingerprintHit)
    (intelHits : List Intel.ThreatIntel) (f : FlowFeature) : Prop where
  fingerprintHits : f.fingerprintHits = fpHits
  intelHits : f.intelHits = intelHits
  rawPacket : f.rawPacket = pf.rawPacket
  rawPayload : f.rawPayload = pf.payload
  lengths : f.capturedLen = pf.capturedLen ∧ f.triggerWireLen = pf.wireLen
  messageDirection : f.messageDirection = pf.messageDirection
  httpMethod : f.httpMethod = pf.httpMethod ∨ f.httpMethod = []
  userAgent : f.userAgent = pf.userAgent ∨ f.userAgent = []
  httpHeaders : f.httpHeaders = pf.httpHeaders ∨ f.httpHeaders = []
  samples : (f.httpBodySample = pf.httpBodySample ∧ f.payloadSample = pf.payloadSample) ∨
    (f.httpBodySample = [] ∧ f.payloadSample = [])
  numbers : (f.httpStatusCode = pf.httpStatusCode ∧ f.dnsQType = pf.dnsQType ∧ f.icmpSeq = pf.icmpSeq) ∨
    (f.httpStatusCode = 0 ∧ f.dnsQType = 0 ∧ f.icmpSeq = 0)
  dnsAnswers : f.dnsAnswers = pf.dnsAnswers ∨ f.dnsAnswers = []

/-- What a call returns carries the context of its own packet. -/
def Call.Answers : Call → Option FlowFeature → Prop
  | .update _ pf fpHits intelHits, some f => OwnContext pf fpHits intelHits f
  | .cleanup _, none => True
  | _, _ => False

/-! ### One call -/

section
variable {parseIP : String → Bytes} {fits : Prop} {a : Aggregator} {rs : List Int}

/-- The tables between calls, with the readings of the clock that are still to come; `fits` says that
    no counter of a pair wraps around. -/
structure TablesInv (parseIP : String → Bytes) (fits : Prop) (rs : List Int) (a : Aggregator) :
    Prop where
  capacity : a.flows.length ≤ a.maxFlows
  keys : ∀ st ∈ a.flows, st.key = st.feature.tuple.key ∧ '-' ∉ st.feature.dstIP.toList
  pairs : ∀ st ∈ a.flows, ∃ ps, a.pairs.lookup (st.feature.tuple.pairKey parseIP) = some ps ∧
    (fits → st.feature.counts ≤ ps.counts (st.feature.tuple.forward parseIP)) ∧
      st.lastSeen ≤ ps.lastSeen
  past : ∀ key ps, a.pairs.lookup key = some ps → ∀ r ∈ rs, ps.lastSeen ≤ r

section
variable (h : TablesInv parseIP fits rs a)
include h

theorem TablesInv.consistent : TablesConsistent parseIP a := by
  refine ⟨h.capacity, fun st hst => ?_⟩
  obtain ⟨ps, hps, -, -⟩ := h.pairs st hst
  exact AList.lookup_isSome.mp (Option.isSome_of_eq_some hps)

theorem TablesInv.dominated (hfits : fits) : Dominated parseIP a := by
  intro st hst
  obtain ⟨ps, hps, hcounts, -⟩ := h.pairs st hst
  exact ⟨ps, hps, hcounts hfits⟩

theorem TablesInv.mono {rs' : List Int} (hsub : ∀ r ∈ rs', r ∈ rs) :
    TablesInv parseIP fits rs' a :=
  ⟨h.capacity, h.keys, h.pairs, fun key ps hps r hr => h.past key ps hps r (hsub r hr)⟩

omit h in
theorem tablesInv_new (maxFlows idleTimeout : Int) (rs : List Int) :
    TablesInv parseIP fits rs (newAggregator maxFlows idleTimeout) := by
  refine ⟨?_, by simp [newAggregator], by simp [newAggregator], by simp [newAggregator]⟩
  simp only [newAggregator, List.length_nil]
  split_ifs <;> omega

/-- A flow that stays has a pair that stays: the pair was seen no earlier. -/
theorem TablesInv.cleanup (now : Int) : TablesInv parseIP fits rs (cleanupLocked a now) := by
  refine ⟨?_, fun st hst => h.keys st (List.mem_filter.mp hst).1, fun st hst => ?_,
    fun key ps hps => h.past key ps (Table.lookup_deleteWhere.mp hps).1⟩
  · have hlen := List.length_filter_le (fun st => decide (¬now - st.lastSeen ≥ a.idleTimeout)) a.flows
    have hcap := h.capacity
    simp only [cleanupLocked]
    omega
  · obtain ⟨hmem, hstays⟩ := List.mem_filter.mp hst
    obtain ⟨ps, hps, hcounts, hseen⟩ := h.pairs st hmem
    refine ⟨ps, Table.lookup_deleteWhere.mpr ⟨hps, ?_⟩, hcounts, hseen⟩
    simp only [decide_eq_true_eq, decide_eq_false_iff_not] at hstays ⊢
    omega

omit h in
/-- A packet is counted for a flow that is not in the table: its own, taken out before, or a new one. -/
theorem TablesInv.count {now : Readings} {pf : PacketFeature} {fpHits : List FingerprintHit}
    {intelHits : List Intel.ThreatIntel} {st : FlowState} (h : TablesInv parseIP fits (now.pair :: rs) a)
    (hroom : a.flows.length < a.maxFlows) (hclock : now.flow ≤ now.pair) (hfuture : ∀ r ∈ rs, now.pair ≤ r)
    (hkey : st.key = flowKey pf) (htuple : st.feature.tuple = tuple pf) (hdash : '-' ∉ pf.dstIP.toList)
    (hpair : st.feature.counts = 0 ∨ ∃ ps, a.pairs.lookup ((tuple pf).pairKey parseIP) = some ps ∧
      (fits → st.feature.counts ≤ ps.counts ((tuple pf).forward parseIP)))
    (hfits : fits → ∀ ps ∈ (count parseIP a now pf fpHits intelHits st).1.pairStats,
      weight pf ≤ ps.counts ((tuple pf).forward parseIP)) :
    TablesInv parseIP fits rs (count parseIP a now pf fpHits intelHits st).2 := by
  obtain ⟨ps, hps⟩ : ∃ ps, ps = (a.pairs.lookup ((tuple pf).pairKey parseIP)).getD
    { firstTime := pf.packetTimeUsec } := ⟨_, rfl⟩
  have hpairs : (Flow.count parseIP a now pf fpHits intelHits st).2.pairs =
      a.pairs.insert ((tuple pf).pairKey parseIP) (touchPair parseIP now.pair pf ps) := by
    rw [hps]
    rfl
  have hown : fits → st.feature.counts ≤ ps.counts ((tuple pf).forward parseIP) := by
    intro hunwrapped
    rcases hpair with hzero | ⟨ps', hps', hle⟩
    · rw [hzero]
      exact zero_le
    · rw [hps, hps']
      exact hle hunwrapped
  have hcounted : fits → weight pf ≤
      (touchPair parseIP now.pair pf ps).counts ((tuple pf).forward parseIP) := fun hunwrapped =>
    hfits hunwrapped _ (by rw [hps]; rfl)
  refine ⟨?_, ?_, ?_, ?_⟩
  · simp only [count_flows, count_maxFlows, List.length_cons]
    omega
  · rw [count_flows, List.forall_mem_cons]
    refine ⟨⟨?_, ?_⟩, h.keys⟩
    · rw [touch_key, hkey, flowKey_eq, ← htuple]
      rfl
    · have hdst : st.feature.dstIP = pf.dstIP := congrArg FiveTuple.dstIP htuple
      exact hdst ▸ hdash
  · rw [count_flows, hpairs, List.forall_mem_cons]
    refine ⟨⟨touchPair parseIP now.pair pf ps, ?_, ?_, ?_⟩, fun st' hst' => ?_⟩
    · have htouch : (touch now.flow pf st).feature.tuple = tuple pf := htuple
      rw [htouch, AList.lookup_insert]
    · have htouch : (touch now.flow pf st).feature.tuple = tuple pf := htuple
      rw [htouch]
      exact fun hunwrapped => counts_touch_le (hown hunwrapped) (hcounted hunwrapped)
    · rw [touchPair_lastSeen]
      exact hclock
    · obtain ⟨ps', hps', hcounts, hseen⟩ := h.pairs st' hst'
      by_cases hsame : st'.feature.tuple.pairKey parseIP = (tuple pf).pairKey parseIP
      · rw [hsame] at hps' ⊢
        have hold : ps = ps' := by rw [hps, hps']; rfl
        refine ⟨touchPair parseIP now.pair pf ps, AList.lookup_insert _, ?_, ?_⟩
        · intro hunwrapped
          rw [← hold] at hcounts
          exact (hcounts hunwrapped).trans (counts_le_touchPair _ (hcounted hunwrapped))
        · rw [touchPair_lastSeen]
          exact hseen.trans (h.past _ ps' hps' _ List.mem_cons_self)
      · exact ⟨ps', by rw [AList.lookup_insert_ne hsame, hps'], hcounts, hseen⟩
  · intro key ps' hps' r hr
    rw [hpairs, Table.lookup_insert_iff] at hps'
    rcases hps' with ⟨-, rfl⟩ | ⟨-, hps'⟩
    · rw [touchPair_lastSeen]
      exact hfuture r hr
    · exact h.past key ps' hps' r (List.mem_cons_of_mem _ hr)

omit h in
/-- The three ways through `Update`: the flow is known, the table is full even after a cleanup, or the
    flow is new. -/
theorem update_cases (now : Readings) (pf : PacketFeature) (fpHits : List FingerprintHit)
    (intelHits : List Intel.ThreatIntel) :
    (∃ st ∈ a.flows, st.key = flowKey pf ∧ update parseIP a now pf fpHits intelHits =
      count parseIP { a with
        packetSeq := a.packetSeq + 1, flows := a.flows.filter (·.key ≠ flowKey pf) }
        now pf fpHits intelHits st) ∨
    ∃ b, (b = { a with packetSeq := a.packetSeq + 1 } ∨
        b = cleanupLocked { a with packetSeq := a.packetSeq + 1 } now.cleanup) ∧
      (update parseIP a now pf fpHits intelHits =
          (transientFeature pf fpHits intelHits b.packetSeq, b) ∨
        b.flows.length < b.maxFlows ∧ update parseIP a now pf fpHits intelHits =
          count parseIP b now pf fpHits intelHits (newFlow pf)) := by
  rw [update]
  dsimp only
  cases hfind : a.flows.find? (·.key = flowKey pf) with
  | some st =>
    exact .inl ⟨st, List.mem_of_find?_eq_some hfind, by simpa using List.find?_some hfind, rfl⟩
  | none =>
    refine .inr ⟨if a.flows.length ≥ a.maxFlows then
      cleanupLocked { a with packetSeq := a.packetSeq + 1 } now.cleanup
      else { a with packetSeq := a.packetSeq + 1 }, ?_, ?_⟩
    · split_ifs
      · exact .inr rfl
      · exact .inl rfl
    · generalize (if (a.flows.length : Int) ≥ a.maxFlows then
        cleanupLocked { a with packetSeq := a.packetSeq + 1 } now.cleanup
        else { a with packetSeq := a.packetSeq + 1 }) = b
      by_cases hfull : (b.flows.length : Int) ≥ b.maxFlows
      · exact .inl (if_pos hfull)
      · exact .inr ⟨not_le.mp hfull, if_neg hfull⟩

theorem TablesInv.remove {key : String} :
    TablesInv parseIP fits rs { a with flows := a.flows.filter (·.key ≠ key) } := by
  have hsub : ∀ st ∈ a.flows.filter (·.key ≠ key), st ∈ a.flows := fun st hst =>
    (List.mem_filter.mp hst).1
  refine ⟨?_, fun st hst => h.keys st (hsub st hst), fun st hst => h.pairs st (hsub st hst), h.past⟩
  have hlen := List.length_filter_le (fun st => decide (st.key ≠ key)) a.flows
  have hcap := h.capacity
  dsimp only
  omega

end

theorem TablesInv.update {now : Readings} {pf : PacketFeature} {fpHits : List FingerprintHit}
    {intelHits : List Intel.ThreatIntel} (h : TablesInv parseIP fits (now.pair :: rs) a)
    (hclock : now.flow ≤ now.pair) (hfuture : ∀ r ∈ rs, now.pair ≤ r) (hdash : '-' ∉ pf.dstIP.toList)
    (hfits : fits → ∀ ps ∈ (update parseIP a now pf fpHits intelHits).1.pairStats,
      weight pf ≤ ps.counts ((tuple pf).forward parseIP)) :
    TablesInv parseIP fits rs (update parseIP a now pf fpHits intelHits).2 := by
  have hnumbered : TablesInv parseIP fits (now.pair :: rs) { a with packetSeq := a.packetSeq + 1 } :=
    ⟨h.capacity, h.keys, h.pairs, h.past⟩
  rcases @update_cases parseIP a now pf fpHits intelHits with
    ⟨st, hst, hkey, heq⟩ | ⟨b, hb, heq⟩
  · obtain ⟨htext, hdst⟩ := h.keys st hst
    have htuple : st.feature.tuple = tuple pf := by
      refine FiveTuple.key_inj hdst hdash ?_
      rw [← htext, hkey, flowKey_eq]
    obtain ⟨ps, hps, hcounts, -⟩ := h.pairs st hst
    rw [htuple] at hps hcounts
    rw [heq] at hfits ⊢
    refine hnumbered.remove.count ?_ hclock hfuture hkey htuple hdash (.inr ⟨ps, hps, hcounts⟩) hfits
    -- the flow itself was taken out
    have hless : (a.flows.filter (·.key ≠ flowKey pf)).length < a.flows.length := by
      rw [List.length_filter_lt_length_iff_exists]
      exact ⟨st, hst, by simp [hkey]⟩
    have hcap := h.capacity
    dsimp only
    omega
  · have hcleaned : TablesInv parseIP fits (now.pair :: rs) b := by
      rcases hb with rfl | rfl
      · exact hnumbered
      · exact hnumbered.cleanup _
    rcases heq with heq | ⟨hroom, heq⟩
    · rw [heq]
      exact hcleaned.mono fun r hr => List.mem_cons_of_mem _ hr
    · rw [heq] at hfits ⊢
      exact hcleaned.count hroom hclock hfuture rfl rfl hdash (.inl rfl) hfits

/-- One call keeps the tables consistent. -/
theorem TablesInv.run {c : Call} (h : TablesInv parseIP fits (c.readings ++ rs) a)
    (hclock : (c.readings ++ rs).Pairwise (· ≤ ·)) (hdash : ∀ pf ∈ c.packets, '-' ∉ pf.dstIP.toList)
    (hfits : fits → c.Fits parseIP a) :
    TablesInv parseIP fits rs (c.run parseIP a).2 := by
  cases c with
  | update now pf fpHits intelHits =>
    simp only [Call.readings, List.cons_append, List.nil_append, List.pairwise_cons] at hclock
    have hpair : TablesInv parseIP fits (now.pair :: rs) a := h.mono fun r hr => by
      simp only [Call.readings, List.cons_append, List.nil_append]
      exact List.mem_cons_of_mem _ (List.mem_cons_of_mem _ hr)
    exact hpair.update (hclock.2.1 _ List.mem_cons_self) hclock.2.2.1
      (hdash pf (List.mem_singleton_self pf))
      fun hunwrapped => hfits hunwrapped pf (List.mem_singleton_self pf) _ rfl
  | cleanup now => exact (h.mono fun r hr => List.mem_append_right _ hr).cleanup now

/-- The feature of a packet has its number and its context. -/
theorem update_own (now : Readings) (pf : PacketFeature) (fpHits : List FingerprintHit)
    (intelHits : List Intel.ThreatIntel) :
    (update parseIP a now pf fpHits intelHits).1.packetSequence = a.packetSeq + 1 ∧
      (update parseIP a now pf fpHits intelHits).2.packetSeq = a.packetSeq + 1 ∧
      OwnContext pf fpHits intelHits (update parseIP a now pf fpHits intelHits).1 := by
  have hcount : ∀ (a : Aggregator) (st : FlowState),
      OwnContext pf fpHits intelHits (count parseIP a now pf fpHits intelHits st).1 := fun a st =>
    ⟨rfl, rfl, rfl, rfl, ⟨rfl, rfl⟩, rfl, .inl rfl, .inl rfl, .inl rfl, .inl ⟨rfl, rfl⟩,
      .inl ⟨rfl, rfl, rfl⟩, .inl rfl⟩
  have htransient : ∀ n, OwnContext pf fpHits intelHits (transientFeature pf fpHits intelHits n) :=
    fun n => ⟨rfl, rfl, rfl, rfl, ⟨rfl, rfl⟩, rfl, .inr rfl, .inr rfl, .inr rfl, .inr ⟨rfl, rfl⟩,
      .inr ⟨rfl, rfl, rfl⟩, .inr rfl⟩
  rcases @update_cases parseIP a now pf fpHits intelHits with
    ⟨st, hst, hkey, heq⟩ | ⟨b, hb, heq⟩
  · rw [heq]
    exact ⟨rfl, rfl, hcount _ _⟩
  · have hseq : b.packetSeq = a.packetSeq + 1 := by
      rcases hb with rfl | rfl
      · rfl
      · rfl
    rcases heq with heq | ⟨-, heq⟩
    · rw [heq]
      exact ⟨hseq, hseq, htransient _⟩
    · rw [heq]
      exact ⟨hseq, hseq, hcount _ _⟩

/-! ### All calls -/

/-- The numbers of the returned features. -/
def sequences (fs : List (Option FlowFeature)) : List Nat := fs.filterMap (·.map (·.packetSequence))

theorem sequences_results (parseIP : String → Bytes) : ∀ (calls : List Call) (a : Aggregator),
    (sequences (results parseIP a calls)).Pairwise (· < ·) ∧
      ∀ n ∈ sequences (results parseIP a calls), a.packetSeq < n
  | [], _ => ⟨List.Pairwise.nil, by simp [results, sequences]⟩
  | .cleanup now :: calls, a => sequences_results parseIP calls (cleanupLocked a now)
  | .update now pf fpHits intelHits :: calls, a => by
    obtain ⟨hnumber, hseq, -⟩ := @update_own parseIP a now pf fpHits intelHits
    obtain ⟨hsorted, hmore⟩ := sequences_results parseIP calls (update parseIP a now pf fpHits intelHits).2
    have hcons : sequences (results parseIP a (.update now pf fpHits intelHits :: calls)) =
        (a.packetSeq + 1) ::
          sequences (results parseIP (update parseIP a now pf fpHits intelHits).2 calls) := by
      rw [← hnumber]
      rfl
    rw [hseq] at hmore
    rw [hcons, List.pairwise_cons, List.forall_mem_cons]
    exact ⟨⟨hmore, hsorted⟩, Nat.lt_succ_self _, fun n hn => Nat.lt_of_succ_lt (hmore n hn)⟩

theorem answers_results (parseIP : String → Bytes) : ∀ (calls : List Call) (a : Aggregator),
    List.Forall₂ Call.Answers calls (results parseIP a calls)
  | [], _ => .nil
  | .cleanup _ :: calls, _ => .cons trivial (answers_results parseIP calls _)
  | .update now pf fpHits intelHits :: calls, _ =>
    .cons (update_own now pf fpHits intelHits).2.2 (answers_results parseIP calls _)

theorem TablesInv.after : ∀ {calls : List Call} {a : Aggregator},
    TablesInv parseIP fits (calls.flatMap Call.readings) a →
    (calls.flatMap Call.readings).Pairwise (· ≤ ·) →
    (∀ c ∈ calls, ∀ pf ∈ c.packets, '-' ∉ pf.dstIP.toList) → (fits → Unwrapped parseIP a calls) →
    TablesInv parseIP fits [] (after parseIP a calls)
  | [], _, h, _, _, _ => h
  | c :: calls, a, h, hclock, hdash, hfits => by
    rw [List.flatMap_cons] at h hclock
    have hrun := h.run hclock (hdash c List.mem_cons_self) fun hunwrapped => (hfits hunwrapped).1
    have hrest := TablesInv.after hrun (List.pairwise_append.mp hclock).2.1
      (fun c' hc' => hdash c' (List.mem_cons_of_mem c hc')) fun hunwrapped => (hfits hunwrapped).2
    exact hrest

/-- **The tables stay consistent and the features are the packets' own.** The clock may be read any
    number of times and need not move; the text of an address has no dash. A pair has at least the
    counters of its flows as long as no counter of a pair wraps around. -/
theorem tables_consistent (parseIP : String → Bytes) (maxFlows idleTimeout : Int) (calls : List Call)
    (hclock : (calls.flatMap Call.readings).Pairwise (· ≤ ·))
    (hdash : ∀ c ∈ calls, ∀ pf ∈ c.packets, '-' ∉ pf.dstIP.toList) :
    TablesConsistent parseIP (after parseIP (newAggregator maxFlows idleTimeout) calls) ∧
      (Unwrapped parseIP (newAggregator maxFlows idleTimeout) calls →
        Dominated parseIP (after parseIP (newAggregator maxFlows idleTimeout) calls)) ∧
      (sequences (results parseIP (newAggregator maxFlows idleTimeout) calls)).Pairwise (· < ·) ∧
      List.Forall₂ Call.Answers calls (results parseIP (newAggregator maxFlows idleTimeout) calls) := by
  have hafter := TablesInv.after (tablesInv_new maxFlows idleTimeout _) hclock hdash
    (id : Unwrapped parseIP (newAggregator maxFlows idleTimeout) calls → _)
  exact ⟨hafter.consistent, hafter.dominated, (sequences_results parseIP calls _).1,
    answers_results parseIP calls _⟩

end

/-- A packet from one address and port to another. -/
def packet (srcIP : String) (srcPort : UInt16) (dstIP : String) (dstPort : UInt16) (text : String)
    (wireLen : UInt32) : PacketFeature where
  srcIP := srcIP
  srcPort := srcPort
  dstIP := dstIP
  dstPort := dstPort
  proto := .tcp
  payload := utf8 text
  wireLen := wireLen

/-- A request and its reply, and a packet for which the table has no room. -/
def conversation : List Call :=
  [.update ⟨0, 1, 2⟩ (packet "10.0.0.2" 40000 "10.0.0.1" 80 "GET /" 60) [] [],
    .update ⟨3, 4, 5⟩ (packet "10.0.0.1" 80 "10.0.0.2" 40000 "HTTP/1.1 200 OK" 70) [] [],
    .cleanup 6,
    .update ⟨7, 7, 7⟩ (packet "10.0.0.3" 40001 "10.0.0.1" 80 "GET /" 60) [] []]

theorem tables_consistent_conversation :
    let a := after parseIP (newAggregator 2 60) conversation
    a.flows.length = 2 ∧ a.pairs.keys.length = 1 ∧
      sequences (results parseIP (newAggregator 2 60) conversation) = [1, 2, 3] ∧
      TablesConsistent parseIP a ∧ Dominated parseIP a := by
  have hresult := tables_consistent parseIP 2 60 conversation (by decide) (by decide)
  refine ⟨by decide +kernel, by decide +kernel, by decide +kernel, hresult.1, hresult.2.1 ?_⟩
  simp only [conversation, Unwrapped, Call.Fits, and_true]
  decide +kernel

/-! ### A pair that outlives its flow -/

/-- The longest packet a capture record can tell of, -/
def longest : PacketFeature := packet "10.0.0.1" 80 "10.0.0.2" 40000 "" 0xffffffff

/-- and the shortest one back. -/
def ack : PacketFeature := packet "10.0.0.2" 40000 "10.0.0.1" 80 "" 60

/-- The tables after `n` of the longest packets, at least one. -/
def loaded (n : Nat) : Aggregator :=
  { newAggregator 2 60 with
    flows := [{ newFlow longest with
      feature := { (newFlow longest).feature with
        packets := UInt64.ofNat n
        wireBytes := UInt64.ofNat (n * 0xffffffff) } }]
    pairs := AList.insert ((tuple longest).pairKey parseIP)
      { clientPackets := UInt64.ofNat n, clientWireBytes := UInt64.ofNat (n * 0xffffffff) } ∅
    packetSeq := n }

def longestCall : Call := .update ⟨0, 0, 0⟩ longest [] []

theorem loaded_one : (longestCall.run parseIP (newAggregator 2 60)).2 = loaded 1 := rfl

theorem loaded_succ (n : Nat) : (longestCall.run parseIP (loaded n)).2 = loaded (n + 1) := by
  have hpackets : UInt64.ofNat n + 1 = UInt64.ofNat (n + 1) := (UInt64.ofNat_add n 1).symm
  have hwire : UInt64.ofNat (n * 0xffffffff) + longest.wireLen.toUInt64 =
      UInt64.ofNat ((n + 1) * 0xffffffff) := by
    rw [Nat.succ_mul, UInt64.ofNat_add]
    rfl
  have hkey : (tuple longest).pairKey parseIP = pairKey parseIP longest.srcIP longest.srcPort
      longest.dstIP longest.dstPort longest.proto := rfl
  have hforward : isForward parseIP longest.srcIP longest.srcPort longest.dstIP longest.dstPort
      longest.proto = true := by decide +kernel
  simp only [longestCall, Call.run, Prod.map_snd, id, update, loaded, newFlow, List.find?_cons,
    decide_true, List.filter_cons, ne_eq, not_true_eq_false, decide_false, Bool.false_eq_true,
    if_false, List.filter_nil, count, touch, touchPair, hkey, AList.lookup_insert, Option.getD_some,
    hforward, if_true, AList.insert_insert, hpackets, hwire]
  rfl

theorem after_longest (n : Nat) :
    after parseIP (newAggregator 2 60) (List.replicate (n + 1) longestCall) = loaded (n + 1) := by
  induction n with
  | zero => exact loaded_one
  | succ n ih =>
    rw [List.replicate_succ', after, List.foldl_append]
    exact (congrArg (fun a => (longestCall.run parseIP a).2) ih).trans (loaded_succ (n + 1))

/-- The flow of the long packets is evicted, the reply keeps the pair. -/
def restart : List Call :=
  [.update ⟨50, 50, 50⟩ ack [] [], .cleanup 70, .update ⟨70, 70, 70⟩ longest [] []]

theorem restart_readings (n : Nat) :
    ((List.replicate n longestCall ++ restart).flatMap Call.readings).Pairwise (· ≤ ·) := by
  have hzero : ∀ n, ∀ r ∈ (List.replicate n longestCall).flatMap Call.readings, r = 0 := by
    intro n r hr
    obtain ⟨c, hc, hr⟩ := List.mem_flatMap.mp hr
    rw [List.eq_of_mem_replicate hc] at hr
    simpa [longestCall, Call.readings] using hr
  rw [List.flatMap_append, List.pairwise_append]
  refine ⟨List.pairwise_of_forall_mem_list fun r hr r' hr' => ?_, by decide, fun r hr => ?_⟩
  · rw [hzero n r hr, hzero n r' hr']
  · rw [hzero n r hr]
    decide

theorem restart_addresses (n : Nat) : ∀ c ∈ List.replicate n longestCall ++ restart,
    ∀ pf ∈ c.packets, '-' ∉ pf.dstIP.toList := by
  rw [List.forall_mem_append]
  refine ⟨fun c hc => ?_, by decide⟩
  rw [List.eq_of_mem_replicate hc]
  decide

/-- After 2^32 + 1 of the longest packets the pair counts 2^64 - 1 bytes on the wire. One more packet,
    the first of a new flow, leaves the pair with less than the flow. -/
theorem wire_bytes_wrap :
    let calls := List.replicate (2 ^ 32 + 1) longestCall ++ restart
    (calls.flatMap Call.readings).Pairwise (· ≤ ·) ∧
      (∀ c ∈ calls, ∀ pf ∈ c.packets, '-' ∉ pf.dstIP.toList) ∧
      ¬Dominated parseIP (after parseIP (newAggregator 2 60) calls) := by
  intro calls
  refine ⟨restart_readings _, restart_addresses _, ?_⟩
  have hafter : after parseIP (newAggregator 2 60) calls =
      after parseIP (loaded (2 ^ 32 + 1)) restart := by
    rw [after, List.foldl_append]
    exact congrArg (fun a => after parseIP a restart) (after_longest (2 ^ 32))
  rw [hafter, Dominated]
  decide +kernel

end TaNode.Flow

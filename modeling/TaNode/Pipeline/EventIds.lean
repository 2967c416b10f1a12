import TaNode.Flow.Numbering
import TaNode.Pipeline.Dispatch
import TaNode.Schemes.Schedule

/-! Event ids and scheduling: what decides whether two runs over one capture give the same ids.

    The aggregator numbers packets in the order in which the workers reach it, and the number goes
    into the id. So the ids of a run depend on its schedule as soon as a packet with a hit and some
    other parsed packet may come in either order:

        worker 0   p (hit)              Update 1 ──▶ "… | 1 | …"    or    Update 2 ──▶ "… | 2 | …"
        worker 1   q                    Update 2                          Update 1

    Packets of one worker keep their order, and so do packets that stand so far apart that the queue
    of the first does not hold what is between. For all other pairs some run has either order. -/

namespace TaNode.Pipeline
open Correlation TaNode.Flow

/-! ### Processing -/

/-- What does not change from run to run: the decoder of `gopacket`, the rules and the indicators, which
    look at what a packet says and not at when it was captured, the address parser, and the limits of
    the aggregator. -/
structure Setup where
  decode : Bytes → Option Dns
  rules : List PatternRule
  iocs : PacketFeature → List Intel.ThreatIntel
  timeless : ∀ pf t, iocs { pf with packetTimeUsec := t } = iocs pf
  digest : Bytes → String
  parseIP : String → Bytes
  maxFlows : Int
  idleTimeout : Int

/-- The clock readings of a run: for the packet at a place of the source, when it was parsed and when
    it reached the aggregator. -/
structure Clock where
  parsed : Nat → UInt64
  updated : Nat → Readings

/-- `process` as far as the ids of new events go. -/
def process (S : Setup) (clock : Clock) (a : Aggregator) (pkt : Frame × Nat) :
    List String × Aggregator :=
  match parse S.decode (clock.parsed pkt.2) pkt.1.packet with
  | .error _ => ([], a)
  | .ok pf =>
    let fpHits := fingerprints S.rules pf
    let intelHits := S.iocs pf
    let (f, a) := update S.parseIP a (clock.updated pkt.2) pf fpHits intelHits
    (if fpHits = [] ∧ intelHits = [] then [] else detectIDs S.digest f, a)

/-- The ids of packets that reach the aggregator one after the other. -/
def processAll (S : Setup) (clock : Clock) : Aggregator → List (Frame × Nat) → List String
  | _, [] => []
  | a, pkt :: rest =>
    (process S clock a pkt).1 ++ processAll S clock (process S clock a pkt).2 rest

/-- The ids that a whole run enqueues with revision 1. The first step of `process` ends with the call
    of `Update`, which the mutex of the aggregator makes one at a time; the second is the rest. -/
def eventIDs (S : Setup) (clock : Clock) {n : Nat} (s : Fanout (Frame × Nat) n) : List String :=
  processAll S clock (newAggregator S.maxFlows S.idleTimeout) (Fanout.order s.log)

/-! ### What the ids are made of -/

namespace Setup
variable (S : Setup)

/-- The parsed packet of a frame; its time is left open. -/
def parsed (f : Frame) : Option PacketFeature := (parse S.decode 0 f.packet).toOption

/-- The texts of the rules and indicators a packet hits. -/
def marks (pf : PacketFeature) : List Bytes := hitMarks (fingerprints S.rules pf) (S.iocs pf)

/-- The parsed packets of a list of frames, with their frames. -/
def items (σ : List (Frame × Nat)) : List ((Frame × Nat) × PacketFeature) :=
  σ.filterMap fun p => (S.parsed p.1).map (p, ·)

end Setup

/-- The time of a packet. -/
def time (now : Nat → UInt64) (p : Frame × Nat) : UInt64 := p.1.timestampUsec.getD (now p.2)

def sight (S : Setup) (now : Nat → UInt64) (x : (Frame × Nat) × PacketFeature) :
    Sight FiveTuple UInt64 Bytes := ⟨tuple x.2, time now x.1, S.marks x.2⟩

/-- The stamps that an order of the packets gives. -/
def stampsOf (S : Setup) (now : Nat → UInt64) (σ : List (Frame × Nat)) :
    List (Stamp FiveTuple UInt64 Bytes) :=
  Sight.stamps FiveTuple.key [] ((S.items σ).map (sight S now))

/-- The table of the aggregator has room for the flows of a source, so that it evicts none. -/
def Room (S : Setup) (source : List Frame) : Prop :=
  ((source.filterMap S.parsed).map flowKey).toFinset.card ≤
    (newAggregator S.maxFlows S.idleTimeout).maxFlows

variable {S : Setup} {clock : Clock} {now now' : Nat → UInt64} {σ : List (Frame × Nat)}
  {s : Stamp FiveTuple UInt64 Bytes}
variable {J J' : List ((Frame × Nat) × PacketFeature)} {x : (Frame × Nat) × PacketFeature}

/-- The first of a packet's flow stands before it or is the packet itself. -/
theorem find_flow :
    (J ++ x :: J').find? (flowKey ·.2 = flowKey x.2) =
      some ((J.find? (flowKey ·.2 = flowKey x.2)).getD x) := by
  rw [List.find?_append]
  cases J.find? (flowKey ·.2 = flowKey x.2) with
  | none => simp
  | some f => rfl

theorem first_sight (now : Nat → UInt64) (J : List ((Frame × Nat) × PacketFeature))
    (x : (Frame × Nat) × PacketFeature) :
    Sight.first FiveTuple.key (J.map (sight S now)) (sight S now x) =
      sight S now ((J.find? (flowKey ·.2 = flowKey x.2)).getD x) := by
  rw [Sight.first, List.find?_map]
  have hsame : (fun y => decide (flowKey y.2 = flowKey x.2)) =
      (fun y : Sight FiveTuple UInt64 Bytes => decide (y.id.key = (sight S now x).id.key)) ∘ sight S now :=
    rfl
  rw [hsame]
  cases J.find? _ <;> rfl

/-- A stamp is that of a hit of one of the packets: the time of the first of its flow, its own time,
    and its place in the order. -/
theorem mem_stampsOf : s ∈ stampsOf S now σ ↔ ∃ J x J', S.items σ = J ++ x :: J' ∧
    ∃ f, (S.items σ).find? (flowKey ·.2 = flowKey x.2) = some f ∧ ∃ m ∈ S.marks x.2,
      s = ⟨time now f.1, time now x.1, J.length + 1, tuple x.2, m⟩ := by
  rw [stampsOf, Sight.mem_stamps]
  constructor
  · rintro ⟨l₁, x, l₂, hl, m, hm, rfl⟩
    obtain ⟨J, K, hitems, rfl, hK⟩ := List.map_eq_append_iff.mp hl
    obtain ⟨y, J', rfl, rfl, rfl⟩ := List.map_eq_cons_iff.mp hK
    refine ⟨J, y, J', hitems, _, hitems ▸ find_flow, m, hm, ?_⟩
    rw [List.nil_append, first_sight, List.length_map]
    rfl
  · rintro ⟨J, x, J', hitems, f, hf, m, hm, rfl⟩
    rw [hitems, find_flow, Option.some.injEq] at hf
    refine ⟨J.map (sight S now), sight S now x, J'.map (sight S now), by simp [hitems], m, hm, ?_⟩
    rw [List.nil_append, first_sight, List.length_map, hf]
    rfl

/-- The packet with a hit is known by the ordinal of its stamp. -/
theorem items_unique {K K' : List ((Frame × Nat) × PacketFeature)}
    {y : (Frame × Nat) × PacketFeature} (h : J ++ x :: J' = K ++ y :: K')
    (hlen : J.length + 1 = K.length + 1) : x = y := by
  obtain ⟨-, hcons⟩ := List.append_inj h (Nat.succ.inj hlen)
  exact (List.cons.inj hcons).1

/-! ### The ids of a run are its stamps -/

/-- The packet as it is parsed in a run. -/
def stamped (now : Nat → UInt64) (x : (Frame × Nat) × PacketFeature) : PacketFeature :=
  { x.2 with packetTimeUsec := time now x.1 }

theorem parse_run (S : Setup) (now : Nat → UInt64) (p : Frame × Nat) :
    (parse S.decode (now p.2) p.1.packet).toOption =
      (S.parsed p.1).map fun pf => stamped now (p, pf) := by
  rw [parse_now, Setup.parsed]
  cases parse S.decode 0 p.1.packet <;> rfl

theorem marks_eq_nil (S : Setup) (pf : PacketFeature) :
    S.marks pf = [] ↔ fingerprints S.rules pf = [] ∧ S.iocs pf = [] := by
  simp [Setup.marks, hitMarks]

/-- The parsed packets of one more frame. -/
theorem items_cons (S : Setup) (p : Frame × Nat) (σ : List (Frame × Nat)) :
    S.items (p :: σ) = ((S.parsed p.1).map (p, ·)).toList ++ S.items σ := by
  rw [Setup.items, List.filterMap_cons]
  cases S.parsed p.1 <;> rfl

theorem parse_of_parsed {f : Frame} {pf : PacketFeature} (h : S.parsed f = some pf) :
    parse S.decode 0 f.packet = .ok pf := by
  rw [Setup.parsed] at h
  cases hparse : parse S.decode 0 f.packet with
  | error e =>
    rw [hparse] at h
    cases h
  | ok pf' =>
    rw [hparse] at h
    exact congrArg Except.ok (Option.some.inj h)

theorem dash_notMem_stamped {now : Nat → UInt64} (h : S.parsed x.1.1 = some x.2) :
    '-' ∉ (stamped now x).dstIP.toList :=
  (parse_addresses_notMem (by decide) (by decide) (by decide) (by decide) (parse_of_parsed h)).2

/-- One more packet: its ids are those of its stamps, and the aggregator has counted it. -/
theorem process_parsed {a : Aggregator} {seen : List ((Frame × Nat) × PacketFeature)}
    {p : Frame × Nat} {pf : PacketFeature} (hpf : S.parsed p.1 = some pf)
    (htracks : Tracks a (seen.map (stamped clock.parsed)))
    (hseen : ∀ x ∈ seen, S.parsed x.1.1 = some x.2)
    (hroom : (((seen ++ [(p, pf)]).map (stamped clock.parsed)).map flowKey).toFinset.card ≤ a.maxFlows) :
    (∀ id, id ∈ (process S clock a p).1 ↔ ∃ m ∈ S.marks pf, id = eventID S.digest
      ⟨(Sight.first FiveTuple.key (seen.map (sight S clock.parsed)) (sight S clock.parsed (p, pf))).time,
        time clock.parsed p, seen.length + 1, tuple pf, m⟩) ∧
      Tracks (process S clock a p).2 ((seen ++ [(p, pf)]).map (stamped clock.parsed)) ∧
      (process S clock a p).2.maxFlows = a.maxFlows := by
  have hparse : parse S.decode (clock.parsed p.2) p.1.packet =
      .ok (stamped clock.parsed (p, pf)) := by
    have hrun := parse_run S clock.parsed p
    rw [hpf] at hrun
    cases hcase : parse S.decode (clock.parsed p.2) p.1.packet with
    | error e =>
      rw [hcase] at hrun
      cases hrun
    | ok pf' =>
      rw [hcase] at hrun
      exact congrArg Except.ok (Option.some.inj hrun)
  have hdash : ∀ q ∈ stamped clock.parsed (p, pf) :: seen.map (stamped clock.parsed),
      '-' ∉ q.dstIP.toList := by
    intro q hq
    rcases List.mem_cons.mp hq with rfl | hq
    · exact dash_notMem_stamped (x := (p, pf)) hpf
    · obtain ⟨x, hx, rfl⟩ := List.mem_map.mp hq
      exact dash_notMem_stamped (hseen x hx)
  obtain ⟨hnumbered, htracks', hmax⟩ := @Tracks.update a (seen.map (stamped clock.parsed))
    (stamped clock.parsed (p, pf)) (clock.updated p.2) S.parseIP (fingerprints S.rules pf) (S.iocs pf)
    htracks hdash (by simpa using hroom)
  have hiocs : S.iocs (stamped clock.parsed (p, pf)) = S.iocs pf := S.timeless pf _
  have hfingerprints : fingerprints S.rules (stamped clock.parsed (p, pf)) =
      fingerprints S.rules pf := rfl
  rw [process, hparse]
  dsimp only
  rw [hiocs, hfingerprints]
  refine ⟨fun id => ?_, by simpa using htracks', hmax⟩
  have hfirst : (Sight.first FiveTuple.key (seen.map (sight S clock.parsed))
      (sight S clock.parsed (p, pf))).time = (update S.parseIP a (clock.updated p.2)
        (stamped clock.parsed (p, pf)) (fingerprints S.rules pf) (S.iocs pf)).1.firstTime := by
    rw [first_sight, hnumbered.first, List.find?_map]
    have hsame : (fun y => decide (flowKey y = flowKey (stamped clock.parsed (p, pf)))) ∘
        stamped clock.parsed = fun y => decide (flowKey y.2 = flowKey pf) := rfl
    rw [hsame]
    cases seen.find? _ <;> rfl
  have hlength : (seen.map (stamped clock.parsed)).length = seen.length := List.length_map _
  split
  · next hnone =>
    rw [(marks_eq_nil S pf).mpr hnone]
    simp
  · rw [mem_detectIDs (by rw [hnumbered.ordinal]; exact Nat.succ_ne_zero _), hnumbered.fingerprints,
      hnumbered.intel, hnumbered.time, hnumbered.ordinal, hnumbered.tuple, hfirst, hlength]
    rfl

/-- From an aggregator that has counted `seen`, the ids of packets are those of their stamps. -/
theorem mem_processAll {K : Finset String} {id : String} :
    ∀ {σ : List (Frame × Nat)} {a : Aggregator} {seen : List ((Frame × Nat) × PacketFeature)},
      K.card ≤ a.maxFlows → Tracks a (seen.map (stamped clock.parsed)) →
      (∀ x ∈ seen ++ S.items σ, S.parsed x.1.1 = some x.2 ∧ flowKey x.2 ∈ K) →
      (id ∈ processAll S clock a σ ↔
        ∃ s ∈ Sight.stamps FiveTuple.key (seen.map (sight S clock.parsed))
          ((S.items σ).map (sight S clock.parsed)), id = eventID S.digest s) := by
  intro σ
  induction σ with
  | nil =>
    intro a seen _ _ _
    simp [processAll, Setup.items, Sight.stamps]
  | cons p σ ih =>
    intro a seen hK htracks hitems
    rw [processAll, List.mem_append]
    cases hpf : S.parsed p.1 with
    | none =>
      have herror : process S clock a p = ([], a) := by
        have hrun := parse_run S clock.parsed p
        rw [hpf] at hrun
        rw [process]
        cases hcase : parse S.decode (clock.parsed p.2) p.1.packet with
        | error e => rfl
        | ok pf =>
          rw [hcase] at hrun
          cases hrun
      have hnone : S.items (p :: σ) = S.items σ := by
        rw [items_cons, hpf]
        rfl
      rw [hnone] at hitems ⊢
      rw [herror, ← ih hK htracks hitems]
      simp
    | some pf =>
      have hsome : S.items (p :: σ) = (p, pf) :: S.items σ := by
        rw [items_cons, hpf]
        rfl
      rw [hsome] at hitems ⊢
      have hroom : (((seen ++ [(p, pf)]).map (stamped clock.parsed)).map flowKey).toFinset.card ≤
          a.maxFlows := by
        refine le_trans (Int.ofNat_le.mpr (Finset.card_le_card ?_)) hK
        intro key hkey
        rw [List.mem_toFinset, List.map_map, List.mem_map] at hkey
        obtain ⟨x, hx, rfl⟩ := hkey
        refine (hitems x ?_).2
        rcases List.mem_append.mp hx with hx | hx
        · exact List.mem_append_left _ hx
        · rw [List.mem_singleton.mp hx]
          simp
      obtain ⟨hids, htracks', hmax⟩ := process_parsed hpf htracks
        (fun x hx => (hitems x (List.mem_append_left _ hx)).1) hroom
      have hrest := ih (hmax ▸ hK) htracks' (by simpa using hitems)
      rw [hids, hrest, List.map_cons, Sight.stamps]
      simp only [List.mem_append, List.mem_map, or_and_right, exists_or, List.map_append, List.map_cons,
        List.map_nil, List.length_map]
      refine or_congr_left ?_
      constructor
      · rintro ⟨m, hm, rfl⟩
        exact ⟨_, ⟨m, hm, rfl⟩, rfl⟩
      · rintro ⟨s, ⟨m, hm, rfl⟩, rfl⟩
        exact ⟨m, hm, rfl⟩

theorem mem_items : x ∈ S.items σ ↔ x.1 ∈ σ ∧ S.parsed x.1.1 = some x.2 := by
  obtain ⟨p, pf⟩ := x
  rw [Setup.items, List.mem_filterMap]
  constructor
  · rintro ⟨q, hq, hmap⟩
    obtain ⟨pf', hpf', heq⟩ := Option.map_eq_some_iff.mp hmap
    obtain ⟨rfl, rfl⟩ := Prod.mk.inj heq
    exact ⟨hq, hpf'⟩
  · rintro ⟨hp, hpf⟩
    exact ⟨p, hp, by rw [hpf]; rfl⟩

theorem items_append (S : Setup) (σ τ : List (Frame × Nat)) :
    S.items (σ ++ τ) = S.items σ ++ S.items τ := List.filterMap_append

theorem items_perm {τ : List (Frame × Nat)} (h : σ.Perm τ) (x : (Frame × Nat) × PacketFeature) :
    x ∈ S.items σ ↔ x ∈ S.items τ := (h.filterMap _).mem_iff

/-- The ids of a run, from the order in which its packets reached the aggregator. -/
theorem mem_eventIDs {source : List Frame} (hroom : Room S source) {n : Nat}
    {s : Fanout (Frame × Nat) n} (hperm : (Fanout.order s.log).Perm source.zipIdx) {id : String} :
    id ∈ eventIDs S clock s ↔
      ∃ st ∈ stampsOf S clock.parsed (Fanout.order s.log), id = eventID S.digest st := by
  refine @mem_processAll S clock _ id _ _ [] hroom (tracks_new _ _) ?_
  intro x hx
  obtain ⟨hmem, hpf⟩ := mem_items.mp hx
  refine ⟨hpf, List.mem_toFinset.mpr (List.mem_map_of_mem ?_)⟩
  refine List.mem_filterMap.mpr ⟨x.1.1, ?_, hpf⟩
  exact List.fst_mem_of_mem_zipIdx (hperm.subset hmem)

end TaNode.Pipeline

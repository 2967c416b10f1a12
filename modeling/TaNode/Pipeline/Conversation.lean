import Mathlib.Data.Sym.Sym2
import TaNode.Flow.Pairs
import TaNode.Pipeline.Dispatch

/-! The conversation of a packet, and the two keys it has.

    The aggregator and the tracker name a conversation by texts of their own, each with its two ends
    in another order:

        PairKey       9.9.9.9:80-10.0.0.1:5-tcp           by the bytes of the address, then the port
        canonicalKey  tcp|10.0.0.1:5|9.9.9.9:80           by the text, IPv6 in brackets

    An address in the form of `net.IP.String` is read back by `net.ParseIP`, so the bytes stand for
    the text, and each of the marks a key is joined at is missing from what stands after it. Both keys
    say the protocol and the unordered pair of ends, no more and no less. -/

namespace TaNode.Pipeline
open Correlation TaNode.Flow

/-! ### Conversations -/

/-- What `net.IP.String` writes for an address. -/
def IsAddress (s : String) : Prop :=
  ∃ ip : Bytes, (ip.length = 4 ∨ ip.length = 16) ∧ ipString ip = s

theorem parseIP_inj {s t : String} (hs : IsAddress s) (ht : IsAddress t)
    (h : parseIP s = parseIP t) : s = t := by
  obtain ⟨a, ha, rfl⟩ := hs
  obtain ⟨b, hb, rfl⟩ := ht
  rw [parseIP_ipString ha, parseIP_ipString hb] at h
  rw [← ipString_to16 ha, h, ipString_to16 hb]

theorem IsAddress.notMem {s : String} (hs : IsAddress s) : '|' ∉ s.toList ∧ '-' ∉ s.toList := by
  obtain ⟨ip, hip, rfl⟩ := hs
  exact ⟨notMem_ipString (by decide) (by decide) (by decide) (by decide) hip,
    notMem_ipString (by decide) (by decide) (by decide) (by decide) hip⟩

/-- The protocol and the two ends of a conversation, in no order. -/
def conversation (t : FiveTuple) : Proto × Sym2 (String × UInt16) :=
  (t.proto, s((t.srcIP, t.srcPort), (t.dstIP, t.dstPort)))

/-- The other direction of a packet, -/
def reversed (pf : PacketFeature) : PacketFeature :=
  { pf with srcIP := pf.dstIP, srcPort := pf.dstPort, dstIP := pf.srcIP, dstPort := pf.srcPort }

/-- and of a five-tuple. -/
def swapped (t : FiveTuple) : FiveTuple where
  srcIP := t.dstIP
  srcPort := t.dstPort
  dstIP := t.srcIP
  dstPort := t.srcPort
  proto := t.proto

/-- Both ends of a five-tuple have addresses. -/
structure Addressed (t : FiveTuple) : Prop where
  src : IsAddress t.srcIP
  dst : IsAddress t.dstIP

section
variable {t u : FiveTuple} {pf pg : PacketFeature}

theorem Addressed.swapped (h : Addressed t) : Addressed (swapped t) := ⟨h.dst, h.src⟩

theorem conversation_eq_iff : conversation t = conversation u ↔ t = u ∨ t = swapped u := by
  simp only [conversation, Prod.mk.injEq, Sym2.eq_iff, FiveTuple.ext_iff, swapped]
  tauto

/-! ### The key of the aggregator -/

/-- The order in which the aggregator has two ends. -/
def addressBefore (x y : String × UInt16) : Prop :=
  EndBefore (parseIP x.1, x.2) (parseIP y.1, y.2)

instance : DecidableRel addressBefore := fun x y =>
  inferInstanceAs (Decidable (EndBefore (parseIP x.1, x.2) (parseIP y.1, y.2)))

theorem pairKey_eq (t : FiveTuple) : t.pairKey parseIP =
    if addressBefore (t.dstIP, t.dstPort) (t.srcIP, t.srcPort) then (swapped t).key else t.key := rfl

theorem Addressed.total (h : Addressed t)
    (hsrc : ¬ addressBefore (t.srcIP, t.srcPort) (t.dstIP, t.dstPort))
    (hdst : ¬ addressBefore (t.dstIP, t.dstPort) (t.srcIP, t.srcPort)) :
    (t.srcIP, t.srcPort) = (t.dstIP, t.dstPort) := by
  obtain ⟨hip, hport⟩ := Prod.mk.injEq .. ▸ EndBefore.total hsrc hdst
  exact Prod.ext (parseIP_inj h.src h.dst hip) hport

theorem Addressed.pairKey_swapped (h : Addressed t) :
    (Pipeline.swapped t).pairKey parseIP = t.pairKey parseIP :=
  @ordered_swap _ _ addressBefore _ (t.srcIP, t.srcPort) (t.dstIP, t.dstPort) EndBefore.asymm h.total
    fun x y => FiveTuple.key ⟨x.1, x.2, y.1, y.2, t.proto⟩

/-- The ends of a pair key are those of its packet, in one order or the other. -/
theorem pairKey_cases (t : FiveTuple) :
    t.pairKey parseIP = t.key ∨ t.pairKey parseIP = (swapped t).key := by
  rw [pairKey_eq]
  split
  · exact .inr rfl
  · exact .inl rfl

theorem pairKey_iff (ht : Addressed t) (hu : Addressed u) :
    t.pairKey parseIP = u.pairKey parseIP ↔ conversation t = conversation u := by
  have hinj : ∀ {t u : FiveTuple}, Addressed t → Addressed u → t.key = u.key → t = u :=
    fun ht hu => FiveTuple.key_inj ht.dst.notMem.2 hu.dst.notMem.2
  rw [conversation_eq_iff]
  constructor
  · intro hkey
    rcases pairKey_cases t with hkt | hkt <;> rcases pairKey_cases u with hku | hku <;>
      rw [hkt, hku] at hkey
    · exact .inl (hinj ht hu hkey)
    · exact .inr (hinj ht hu.swapped hkey)
    · exact .inr (congrArg swapped (hinj ht.swapped hu hkey))
    · exact .inl (congrArg swapped (hinj ht.swapped hu.swapped hkey))
  · rintro (rfl | rfl)
    · rfl
    · exact hu.pairKey_swapped

/-- A packet between two ends goes forward when its source is the smaller one. -/
theorem forward_iff (h : Addressed t) (hne : (t.srcIP, t.srcPort) ≠ (t.dstIP, t.dstPort)) :
    t.forward parseIP ↔ ¬ addressBefore (t.dstIP, t.dstPort) (t.srcIP, t.srcPort) := by
  have hforward : t.forward parseIP ↔ t.pairKey parseIP = t.key := decide_eq_true_iff
  rw [hforward, pairKey_eq]
  split
  · next hbefore =>
    refine iff_of_false (fun hkey => hne ?_) (not_not_intro hbefore)
    have hself := FiveTuple.key_inj h.src.notMem.2 h.dst.notMem.2 hkey
    exact Prod.ext (congrArg FiveTuple.dstIP hself) (congrArg FiveTuple.dstPort hself)
  · next hbefore => exact iff_of_true rfl hbefore

theorem forward_one_direction (h : Addressed t)
    (hne : (t.srcIP, t.srcPort) ≠ (t.dstIP, t.dstPort)) :
    Xor (t.forward parseIP) ((swapped t).forward parseIP) := by
  rw [forward_iff h hne, forward_iff h.swapped hne.symm, xor_iff_iff_not, not_not]
  constructor
  · intro hdst
    by_contra hsrc
    exact hne (h.total hsrc hdst)
  · intro hsrc
    exact EndBefore.asymm hsrc

/-! ### The key of the tracker -/

theorem canonicalKey_reversed (pf : PacketFeature) :
    (canonicalKey (reversed pf)).1 = (canonicalKey pf).1 := canonicalKey_swap rfl rfl rfl

theorem canonicalKey_iff (hf : Addressed (tuple pf)) (hg : Addressed (tuple pg)) :
    (canonicalKey pf).1 = (canonicalKey pg).1 ↔ conversation (tuple pf) = conversation (tuple pg) := by
  constructor
  · intro hkey
    obtain ⟨hproto, hends⟩ := canonicalKey_endpoints ⟨hf.src.notMem.1, hf.dst.notMem.1⟩
      ⟨hg.src.notMem.1, hg.dst.notMem.1⟩ hkey
    rw [conversation_eq_iff]
    rcases hends.imp endpoints_inj endpoints_inj with
      ⟨⟨hsrc, hsport⟩, hdst, hdport⟩ | ⟨⟨hsrc, hsport⟩, hdst, hdport⟩
    · exact .inl (FiveTuple.ext hsrc hsport hdst hdport hproto)
    · exact .inr (FiveTuple.ext hsrc hsport hdst hdport hproto)
  · intro hconv
    rcases conversation_eq_iff.mp hconv with heq | heq
    · simp only [FiveTuple.ext_iff, tuple] at heq
      simp only [canonicalKey, heq]
    · simp only [FiveTuple.ext_iff, tuple, swapped] at heq
      exact canonicalKey_swap heq.2.2.2.2 (by rw [heq.1, heq.2.1]) (by rw [heq.2.2.1, heq.2.2.2.1])

/-! ### Both keys -/

/-- Neither key depends on the direction, each says the conversation of its packet, and of the two
    directions of a conversation one is forward. -/
theorem keys_say_conversation (hf : Addressed (tuple pf)) (hg : Addressed (tuple pg)) :
    ((tuple (reversed pf)).pairKey parseIP = (tuple pf).pairKey parseIP ∧
      (canonicalKey (reversed pf)).1 = (canonicalKey pf).1) ∧
    ((tuple pf).pairKey parseIP = (tuple pg).pairKey parseIP ↔
      (canonicalKey pf).1 = (canonicalKey pg).1) ∧
    ((canonicalKey pf).1 = (canonicalKey pg).1 ↔
      pf.proto = pg.proto ∧
        s((pf.srcIP, pf.srcPort), (pf.dstIP, pf.dstPort)) =
          s((pg.srcIP, pg.srcPort), (pg.dstIP, pg.dstPort))) ∧
    ((pf.srcIP, pf.srcPort) ≠ (pf.dstIP, pf.dstPort) →
      Xor ((tuple pf).forward parseIP) ((tuple (reversed pf)).forward parseIP)) := by
  refine ⟨⟨hf.pairKey_swapped, canonicalKey_reversed pf⟩, ?_, ?_, forward_one_direction hf⟩
  · rw [pairKey_iff hf hg, canonicalKey_iff hf hg]
  · rw [canonicalKey_iff hf hg]
    exact Prod.mk.injEq .. ▸ Iff.rfl

end

def dnsQuestion : PacketFeature where
  srcIP := "2001:db8::2"
  srcPort := 5353
  dstIP := "2001:db8::1"
  dstPort := 53
  proto := .udp

def dnsAnswer : PacketFeature where
  srcIP := "2001:db8::1"
  srcPort := 53
  dstIP := "2001:db8::2"
  dstPort := 5353
  proto := .udp

theorem question_and_answer : Addressed (tuple dnsQuestion) ∧ Addressed (tuple dnsAnswer) ∧
    (tuple dnsQuestion).pairKey parseIP = (tuple dnsAnswer).pairKey parseIP ∧
      (canonicalKey dnsQuestion).1 = (canonicalKey dnsAnswer).1 ∧
      Xor ((tuple dnsQuestion).forward parseIP) ((tuple (reversed dnsQuestion)).forward parseIP) := by
  have hclient : IsAddress "2001:db8::2" :=
    ⟨[0x20, 1, 0xd, 0xb8, 0, 0, 0, 0, 0, 0, 0, 0, 0, 0, 0, 2], by decide, by decide +kernel⟩
  have hserver : IsAddress "2001:db8::1" :=
    ⟨[0x20, 1, 0xd, 0xb8, 0, 0, 0, 0, 0, 0, 0, 0, 0, 0, 0, 1], by decide, by decide +kernel⟩
  have hf : Addressed (tuple dnsQuestion) := ⟨hclient, hserver⟩
  have hg : Addressed (tuple dnsAnswer) := ⟨hserver, hclient⟩
  obtain ⟨-, hkeys, hconversation, hforward⟩ := keys_say_conversation hf hg
  have hsession := hconversation.mpr ⟨rfl, Sym2.eq_swap⟩
  exact ⟨hf, hg, hkeys.mpr hsession, hsession, hforward (by decide)⟩

end TaNode.Pipeline

import TaNode.Correlation.Tracker
import TaNode.Parser.Frame
import TaNode.Schemes.Fanout

/-! The packet pipeline: frames of a capture are spread over workers by a hash of their flow.

    `flowHash` hashes the address bytes, ports and protocol of a frame with the endpoints in an order
    of its own; the tracker keys sessions by the texts of the same endpoints in the order of the
    texts. Two frames of one session are frames with the same two endpoints, in either direction, and
    these have one hash:

        a:p → b:q   bytes  min/max ──▶ flowHash ──▶ worker
        b:q → a:p   text   min/max ──▶ canonicalKey

    So the worker of a session gets its packets in the order of the source, and works on them in that
    order. -/

namespace TaNode.Pipeline
open Correlation

/-! ### The flow hash -/

/-- `fnv.New64a` -/
def fnv1a (data : Bytes) : UInt64 :=
  data.foldl (fun h b => (h ^^^ b.toUInt64) * 1099511628211) 14695981039346656037

/-- `binary.BigEndian.PutUint16` -/
def putUint16 (n : UInt16) : Bytes := [(n >>> 8).toUInt8, n.toUInt8]

/-- The hash of two endpoints and a protocol, the endpoint with the smaller address first, of two
    with one address the one with the smaller port. -/
def endpointsHash (src dst : Bytes) (sport dport : UInt16) (proto : UInt8) : UInt64 :=
  let hash (src dst : Bytes) (sport dport : UInt16) : UInt64 :=
    fnv1a (src ++ dst ++ (putUint16 sport ++ putUint16 dport ++ [proto]))
  if dst < src ∨ src = dst ∧ sport > dport then hash dst src dport sport
  else hash src dst sport dport

def flowHash (pkt : Frame) : UInt64 :=
  match (pkt.layer WireLayer.ipv4?).or (pkt.layer WireLayer.ipv6?) with
  | none => fnv1a pkt.data
  | some (src, dst, proto) =>
    match pkt.layer WireLayer.tcp? with
    | some tcp => endpointsHash src dst tcp.srcPort tcp.dstPort 6
    | none =>
      match pkt.layer WireLayer.udp? with
      | some (sport, dport, _) => endpointsHash src dst sport dport 17
      | none => endpointsHash src dst 0 0 proto

/-- The order of two ends: by the address, and of one address by the port. -/
def EndBefore (x y : Bytes × UInt16) : Prop := x.1 < y.1 ∨ y.1 = x.1 ∧ y.2 > x.2

instance : DecidableRel EndBefore := fun _ _ => inferInstanceAs (Decidable (_ ∨ _))

theorem EndBefore.asymm {x y : Bytes × UInt16} (h : EndBefore x y) : ¬ EndBefore y x := by
  rintro (hgt | ⟨heq, hport⟩) <;> rcases h with hlt | ⟨heq', hport'⟩
  · exact List.lt_asymm hlt hgt
  · exact List.lt_irrefl x.1 (heq' ▸ hgt)
  · exact List.lt_irrefl x.1 (heq ▸ hlt)
  · exact UInt16.lt_asymm hport hport'

theorem EndBefore.total {x y : Bytes × UInt16} (h : ¬ EndBefore x y) (h' : ¬ EndBefore y x) :
    x = y := by
  obtain ⟨hlt, hport⟩ := not_or.mp h
  obtain ⟨hgt, hport'⟩ := not_or.mp h'
  have heq : x.1 = y.1 := List.le_antisymm (List.not_lt.mp hgt) (List.not_lt.mp hlt)
  exact Prod.ext heq (UInt16.le_antisymm (UInt16.not_lt.mp fun hp => hport' ⟨heq, hp⟩)
    (UInt16.not_lt.mp fun hp => hport ⟨heq.symm, hp⟩))

/-- Both directions have one hash. -/
theorem endpointsHash_swap (src dst : Bytes) (sport dport : UInt16) (proto : UInt8) :
    endpointsHash dst src dport sport proto = endpointsHash src dst sport dport proto :=
  @ordered_swap _ _ EndBefore _ (src, sport) (dst, dport) EndBefore.asymm EndBefore.total
    fun x y => fnv1a (x.1 ++ y.1 ++ (putUint16 x.2 ++ putUint16 y.2 ++ [proto]))

/-! ### Session keys -/

variable {a b : String} {α : Type}

/-- An endpoint's text gives its address and its port back. -/
theorem endpoint_inj {p q : UInt16} (h : endpoint a p = endpoint b q) : a = b ∧ p = q := by
  have hport : ∀ p : UInt16, ':' ∉ (toString p.toNat).toList := fun p => notMem_toString (by decide) _
  have hsplit : ∀ (a : String) (p : UInt16), (endpoint a p).toList =
      (if ':' ∈ a.toList then '[' :: a.toList ++ [']'] else a.toList) ++
        ':' :: (toString p.toNat).toList := by
    intro a p
    rw [endpoint]
    by_cases ha : ':' ∈ a.toList
    · rw [if_pos (by simpa using ha), if_pos ha]
      simp
    · rw [if_neg (by simpa using ha), if_neg ha]
      simp
  have hlist := congrArg String.toList h
  rw [hsplit, hsplit] at hlist
  obtain ⟨haddress, hports⟩ := split_at_mark (hport p) (hport q) hlist
  refine ⟨String.toList_inj.mp ?_, UInt16.toNat_inj.mp (toString_inj hports)⟩
  split at haddress <;> split at haddress
  · simpa using haddress
  · next ha hb => exact absurd (haddress ▸ by simp [ha]) hb
  · next ha hb => exact absurd (haddress ▸ by simp [hb]) ha
  · exact haddress

theorem endpoints_inj {a' b' : String} {m n m' n' : UInt16}
    (h : endpoint a m = endpoint a' m' ∧ endpoint b n = endpoint b' n') :
    (a = a' ∧ m = m') ∧ b = b' ∧ n = n' := ⟨endpoint_inj h.1, endpoint_inj h.2⟩

theorem bar_notMem_endpoint (ha : '|' ∉ a.toList) (p : UInt16) : '|' ∉ (endpoint a p).toList := by
  have hport := notMem_toString (c := '|') (by decide) p.toNat
  rw [toList_toString] at hport
  rw [endpoint]
  split
  · simp [ha, hport]
  · simp [ha, hport]

/-- The text of a session key. -/
def keyText (p : Proto) (a b : String) : String := Proto.text p ++ "|" ++ a ++ "|" ++ b

theorem keyText_inj {p q : Proto} {a' b' : String} (ha : '|' ∉ a.toList ∧ '|' ∉ a'.toList)
    (hb : '|' ∉ b.toList ∧ '|' ∉ b'.toList) (h : keyText p a b = keyText q a' b') :
    p = q ∧ a = a' ∧ b = b' := by
  have hparts : ∀ (p : Proto) (a b : String), (keyText p a b).toList =
      ((Proto.text p).toList ++ '|' :: a.toList) ++ '|' :: b.toList := by
    intro p a b
    simp [keyText]
  have hlist := congrArg String.toList h
  rw [hparts, hparts] at hlist
  obtain ⟨hfront, hlast⟩ := split_at_mark hb.1 hb.2 hlist
  obtain ⟨hproto, hfirst⟩ := split_at_mark ha.1 ha.2 hfront
  exact ⟨Proto.text_inj hproto, String.toList_inj.mp hfirst, String.toList_inj.mp hlast⟩

/-- A session key is made of the protocol and the two endpoints in some order. -/
theorem canonicalKey_cases (pf : PacketFeature) : (canonicalKey pf).1 =
        keyText pf.proto (endpoint pf.srcIP pf.srcPort) (endpoint pf.dstIP pf.dstPort) ∨
      (canonicalKey pf).1 =
        keyText pf.proto (endpoint pf.dstIP pf.dstPort) (endpoint pf.srcIP pf.srcPort) := by
  rw [canonicalKey]
  split
  · exact .inr rfl
  · exact .inl rfl

/-- Packets with one session key have one protocol and the same two endpoints, in one order or the
    other. -/
theorem canonicalKey_endpoints {pf pg : PacketFeature}
    (hf : '|' ∉ pf.srcIP.toList ∧ '|' ∉ pf.dstIP.toList)
    (hg : '|' ∉ pg.srcIP.toList ∧ '|' ∉ pg.dstIP.toList)
    (h : (canonicalKey pf).1 = (canonicalKey pg).1) :
    pf.proto = pg.proto ∧ ((endpoint pf.srcIP pf.srcPort = endpoint pg.srcIP pg.srcPort ∧
          endpoint pf.dstIP pf.dstPort = endpoint pg.dstIP pg.dstPort) ∨
        endpoint pf.srcIP pf.srcPort = endpoint pg.dstIP pg.dstPort ∧
          endpoint pf.dstIP pf.dstPort = endpoint pg.srcIP pg.srcPort) := by
  have hbars : ∀ {a b : String} {m n : UInt16}, '|' ∉ a.toList → '|' ∉ b.toList →
      '|' ∉ (endpoint a m).toList ∧ '|' ∉ (endpoint b n).toList :=
    fun ha hb => ⟨bar_notMem_endpoint ha _, bar_notMem_endpoint hb _⟩
  rcases canonicalKey_cases pf with hkey | hkey <;> rcases canonicalKey_cases pg with hkey' | hkey' <;>
    rw [hkey, hkey'] at h
  · exact (keyText_inj (hbars hf.1 hg.1) (hbars hf.2 hg.2) h).imp_right .inl
  · exact (keyText_inj (hbars hf.1 hg.2) (hbars hf.2 hg.1) h).imp_right .inr
  · exact (keyText_inj (hbars hf.2 hg.1) (hbars hf.1 hg.2) h).imp_right fun hends => .inr hends.symm
  · exact (keyText_inj (hbars hf.2 hg.2) (hbars hf.1 hg.1) h).imp_right fun hends => .inl hends.symm

/-! ### One session, one hash -/

/-- The protocol number the hash has for a transport protocol. -/
def protoNumber : Proto → UInt8
  | .tcp => 6
  | .udp => 17
  | _ => 0

theorem flowHash_of_transport {pkt : Frame} {n : Bytes × Bytes × UInt8}
    {p : UInt16 × UInt16 × Proto} (hn : pkt.network = some n) (hp : pkt.transport = some p) :
    flowHash pkt = endpointsHash n.1 n.2.1 p.1 p.2.1 (protoNumber p.2.2) := by
  rw [flowHash, ← Frame.network, hn]
  rw [Frame.transport] at hp
  cases htcp : pkt.layer WireLayer.tcp? with
  | some tcp =>
    rw [htcp] at hp
    cases hp
    rfl
  | none =>
    rw [htcp] at hp
    cases hudp : pkt.layer WireLayer.udp? with
    | none =>
      rw [hudp] at hp
      cases hp
    | some udp =>
      rw [hudp] at hp
      cases hp
      rfl

/-- TCP or UDP packets of one IP version with one session key have one hash. -/
theorem flowHash_eq {decode : Bytes → Option Dns} {now now' : UInt64} {p q : Frame}
    {pf pg : PacketFeature} (hp : p.transport.isSome) (hq : q.transport.isSome)
    (hversion : p.version = q.version) (hpf : parse decode now p.packet = .ok pf)
    (hpg : parse decode now' q.packet = .ok pg) (hkey : (canonicalKey pf).1 = (canonicalKey pg).1) :
    flowHash p = flowHash q := by
  obtain ⟨tp, htp⟩ := Option.isSome_iff_exists.mp hp
  obtain ⟨tq, htq⟩ := Option.isSome_iff_exists.mp hq
  obtain ⟨np, hnp⟩ := network_of_parse hpf
  obtain ⟨nq, hnq⟩ := network_of_parse hpg
  obtain ⟨v, hvp, hsrcp, hdstp⟩ := Frame.network_version hnp
  obtain ⟨v', hvq, hsrcq, hdstq⟩ := Frame.network_version hnq
  obtain rfl : v = v' := Option.some.inj (hvp.symm.trans (hversion.trans hvq))
  have hp' := parse_header hnp htp hpf
  have hq' := parse_header hnq htq hpg
  simp only [PacketFeature.header, Header.mk.injEq] at hp' hq'
  obtain ⟨-, hps, hpsp, hpd, hpdp, hpp, -⟩ := hp'
  obtain ⟨-, hqs, hqsp, hqd, hqdp, hqp, -⟩ := hq'
  obtain ⟨hproto, hends⟩ := canonicalKey_endpoints
    (parse_addresses_notMem (by decide) (by decide) (by decide) (by decide) hpf)
    (parse_addresses_notMem (by decide) (by decide) (by decide) (by decide) hpg) hkey
  rw [flowHash_of_transport hnp htp, flowHash_of_transport hnq htq, ← hpp, ← hqp, hproto]
  rw [hps, hpsp, hpd, hpdp, hqs, hqsp, hqd, hqdp] at hends
  rcases hends.imp endpoints_inj endpoints_inj with
    ⟨⟨hsrc, hsport⟩, hdst, hdport⟩ | ⟨⟨hsrc, hsport⟩, hdst, hdport⟩
  · rw [v.ipString_inj hsrcp hsrcq hsrc, v.ipString_inj hdstp hdstq hdst, hsport, hdport]
  · rw [v.ipString_inj hsrcp hdstq hsrc, v.ipString_inj hdstp hsrcq hdst, hsport, hdport,
      endpointsHash_swap]

/-! ### Runs -/

/-- The backlog a worker may have. -/
def queueSize : Nat := 4096

/-- The number of workers that are started. -/
def workerCount (workers : Int64) : Nat := if workers ≤ 0 then 1 else workers.toInt.toNat

theorem workerCount_pos (workers : Int64) : 0 < workerCount workers := by
  rw [workerCount]
  split
  · exact Nat.one_pos
  · next h =>
    rw [Int64.le_iff_toInt_le, Int64.toInt_zero] at h
    omega

/-- The worker of a frame; a frame stands here with its place in the source. -/
def route (workers : Int64) (pkt : Frame × Nat) : Fin (workerCount workers) :=
  ⟨(flowHash pkt.1).toNat % workerCount workers, Nat.mod_lt _ (workerCount_pos workers)⟩

/-- `Run` over a source that closes, without cancellation. A call of `process` takes `steps` steps,
    and the run ends with `Tracker.Flush`. -/
abbrev Execution (workers : Int64) (steps : Nat) (source : List Frame) :
    (Nat → Fanout (Frame × Nat) (workerCount workers)) → Prop :=
  Fanout.Execution (route workers) queueSize steps source.zipIdx

theorem zipIdx_nodup (l : List α) : l.zipIdx.Nodup := by
  refine List.Nodup.of_map Prod.snd ?_
  rw [List.zipIdx_map_snd]
  exact List.nodup_range'

theorem split_at {l : List α} {i : Nat} {a : α} (h : l[i]? = some a) :
    l = l.take i ++ a :: l.drop (i + 1) := by
  obtain ⟨hi, rfl⟩ := List.getElem?_eq_some_iff.mp h
  rw [← List.drop_eq_getElem_cons hi, List.take_append_drop]

/-- What stands between two places of a list. -/
def between {α : Type} (l : List α) (i j : Nat) : List α := (l.take j).drop (i + 1)

/-- A list splits at two of its places. -/
theorem split_at_two {l : List α} {i j : Nat} {a b : α} (hij : i < j) (ha : l[i]? = some a)
    (hb : l[j]? = some b) : l = l.take i ++ a :: (between l i j ++ b :: l.drop (j + 1)) := by
  have hb' : (l.drop (i + 1))[j - (i + 1)]? = some b := by
    rw [List.getElem?_drop, Nat.add_sub_cancel' (Nat.succ_le_of_lt hij)]
    exact hb
  have hrest := split_at hb'
  rw [List.drop_drop, show i + 1 + (j - (i + 1) + 1) = j + 1 by omega, ← List.drop_take] at hrest
  rw [between, ← hrest]
  exact split_at ha

theorem getElem?_zipIdx {l : List α} {i : Nat} {a : α} (h : l[i]? = some a) :
    l.zipIdx[i]? = some (a, i) := by
  simp [List.getElem?_zipIdx, h]

/-- Every execution ends, with each packet processed once before the flush, and the packets of a
    conversation are processed in their order in the source: no step of the later one comes before
    the last of the earlier one. -/
theorem conversation_in_order (workers : Int64) (steps : Nat) (hsteps : 0 < steps)
    (source : List Frame) (r : Nat → Fanout (Frame × Nat) (workerCount workers))
    (h : Execution workers steps source r) :
    (∃ t, (r t).ended = true) ∧
    (∀ t, (r t).ended = true → (r t).log.Perm (source.zipIdx.flatMap (actions steps))) ∧
    ∀ decode now now' i j p q pf pg, i < j → source[i]? = some p → source[j]? = some q →
      p.transport.isSome → q.transport.isSome → p.version = q.version →
      parse decode now p.packet = .ok pf → parse decode now' q.packet = .ok pg →
      (canonicalKey pf).1 = (canonicalKey pg).1 →
      ∀ t, ∀ k < steps, ∀ m, ((q, j), m) ∈ (r t).log →
        [((p, i), k), ((q, j), m)].Sublist (r t).log := by
  refine ⟨h.ends (by decide) hsteps, ?_, ?_⟩
  · intro t hended
    exact ((h.run t).log_of_ended hsteps hended (workerCount_pos workers)).2
  · intro decode now now' i j p q pf pg hij hi hj hp hq hversion hpf hpg hkey t k hk m hm
    have hsource := split_at_two hij (getElem?_zipIdx hi) (getElem?_zipIdx hj)
    have hroute : route workers (p, i) = route workers (q, j) := by
      simp only [route, flowHash_eq hp hq hversion hpf hpg hkey]
    exact (h.run t).inOrder hsteps hsource (zipIdx_nodup source) (.inl hroute) hk hm

/-- The opening segment of a connection, -/
def opening : Frame where
  data := []
  timestampUsec := some 1000
  length := 54
  layers := [(.ipv4 40 6 ⟨[10, 0, 0, 2], rfl⟩ ⟨[10, 0, 0, 1], rfl⟩, 20),
    (.tcp { srcPort := 40000, dstPort := 80, seq := 7, synFlag := true }, 20)]

/-- and the answer to it. -/
def answer : Frame where
  data := []
  timestampUsec := some 1500
  length := 54
  layers := [(.ipv4 40 6 ⟨[10, 0, 0, 1], rfl⟩ ⟨[10, 0, 0, 2], rfl⟩, 20),
    (.tcp { srcPort := 80, dstPort := 40000, seq := 9, ack := 8, synFlag := true, ackFlag := true }, 20)]

theorem conversation_in_order_handshake : ∃ r, Execution 4 2 [opening, answer] r ∧
    ∃ t, (r t).ended = true ∧ [((opening, 0), 1), ((answer, 1), 0)].Sublist (r t).log := by
  obtain ⟨r, hr⟩ := Fanout.Execution.exists (route 4) queueSize 2 [opening, answer].zipIdx
  obtain ⟨⟨t, ht⟩, hlog, horder⟩ := conversation_in_order 4 2 (by decide) [opening, answer] r hr
  refine ⟨r, hr, t, ht, ?_⟩
  refine horder (fun _ => none) 0 0 0 1 opening answer _ _ (by decide) rfl rfl rfl rfl rfl rfl rfl
    (by decide +kernel) t 1 (by decide) 0 ?_
  rw [(hlog t ht).mem_iff]
  simp [actions, List.range_succ]

end TaNode.Pipeline

import TaNode.Correlation.History
import TaNode.Correlation.Twin

/-! What a tracker holds is bounded, and what it does not hold is marked.

    Beside the tracker runs a ledger: for every session the segments that were given to the two sides
    of each of its transactions. A side is what its segments make of an empty one, so its bounds are
    invariants of `appendSide`, and a segment of which a byte or the index entry was not kept has left
    a mark that is in every later snapshot.

        ledger  [ (req₀, resp₀), (req₁, resp₁), … ]
                     │      │
        tracker [ transaction₀,   transaction₁,  … ] ──▶ snapshots -/

namespace TaNode.Correlation

variable {sessions : List SessionState} {t : Tracker} {tx : TransactionState} {g : Given}
  {gs : List Given} {now : UInt64} {order : Order} {ev : ThreatEvent} {b : Books}
  {ex : ExchangeContext}

/-- A packet with its packet sequence. -/
abbrev NumberedPacket := PacketFeature × UInt64

namespace SideState
variable {lib : Lib} {limits : Limits} {side : SideState} {pf : PacketFeature}

/-! ### The size of a side -/

/-- A side within the limits. -/
structure Bounded (limits : Limits) (side : SideState) : Prop where
  data : side.window.length ≤ limits.maxReassemblyBytesPerSide
  seen : side.seen.length ≤ limits.maxPacketsPerTransaction
  packets : side.context.packets.length ≤ limits.maxPacketsPerTransaction

theorem reassemble_keeps (limits : Limits) (side : SideState) (pf : PacketFeature) :
    (reassemble limits side pf).1.seen = side.seen ∧
      (reassemble limits side pf).1.context.packets = side.context.packets ∧
      (side.context.truncated = true → (reassemble limits side pf).1.context.truncated = true) := by
  have hanchor : (side.anchor pf.sequence).seen = side.seen ∧
      (side.anchor pf.sequence).context = side.context := by
    rw [anchor]
    split <;> exact ⟨rfl, rfl⟩
  have hopened : (side.opened pf.sequence).seen = side.seen ∧
      (side.opened pf.sequence).context = side.context := by
    rw [opened]
    split
    · exact hanchor
    · exact hanchor
  rcases reassemble_fst limits side pf with ⟨_, heq⟩ | ⟨_, heq⟩
  · rw [heq]
    exact ⟨hanchor.1, congrArg (·.packets) hanchor.2, fun _ => rfl⟩
  · rw [heq]
    refine ⟨hopened.1, congrArg (·.packets) hopened.2, fun h => ?_⟩
    simp only [write, hopened.2, h, Bool.true_or]

theorem length_count_seen (h : side.seen.length ≤ limits.maxPacketsPerTransaction) :
    (side.count limits pf).seen.length ≤ limits.maxPacketsPerTransaction := by
  simp only [count]
  split
  · rename_i hroom
    rw [List.length_insert]
    split
    · exact h
    · exact hroom
  · exact h

theorem length_index_packets {n : UInt64} {again : Bool}
    (h : side.context.packets.length ≤ limits.maxPacketsPerTransaction) :
    (side.index lib limits pf n again).context.packets.length ≤
      limits.maxPacketsPerTransaction := by
  simp only [index]
  split
  · rename_i hroom
    rw [List.length_append, List.length_singleton]
    omega
  · exact h

theorem Bounded.appendSide (h : side.Bounded limits) (hs : side.Sound limits) (pf : PacketFeature)
    (n : UInt64) : (appendSide lib limits side pf n).Bounded limits := by
  obtain ⟨again, heq⟩ := appendSide_eq lib limits side pf n
  have hkeeps := reassemble_keeps limits (side.count limits pf) pf
  refine ⟨(hs.appendSide pf n).bounded, ?_, ?_⟩
  · rw [heq]
    split
    · exact length_count_seen h.seen
    · exact Nat.le_trans (Nat.le_of_eq (congrArg List.length hkeeps.1)) (length_count_seen h.seen)
  · rw [heq]
    split
    · exact length_index_packets h.packets
    · exact length_index_packets
        (Nat.le_trans (Nat.le_of_eq (congrArg List.length hkeeps.2.1)) h.packets)

theorem bounded_appendAll : ∀ (segs : List NumberedPacket) {side : SideState}, side.Sound limits →
    side.Bounded limits → (appendAll lib limits side segs).Bounded limits
  | [], _, _, h => h
  | seg :: segs, _, hs, h =>
    bounded_appendAll segs (hs.appendSide seg.1 seg.2) (h.appendSide hs seg.1 seg.2)

/-! ### What a side does not keep -/

/-- A side holds a byte for position `k` of a segment. -/
def Retains (side : SideState) (pf : PacketFeature) (k : Nat) : Prop :=
  ∃ i : Nat, (i : Int) = side.offset pf.sequence + k ∧ (side.window.get i).isSome

/-- A segment of which a byte or, with a packet index, the entry is not kept. -/
def Loses (lib : Lib) (limits : Limits) (side : SideState) (seg : NumberedPacket) : Prop :=
  let after := Correlation.appendSide lib limits side seg.1 seg.2
  (∃ k < seg.1.payload.length, ¬after.Retains seg.1 k) ∨
    limits.storePacketIndex = true ∧
      ¬∃ again, after.context.packets = side.context.packets ++ [packetEntry lib seg.1 seg.2 again]

theorem truncated_appendSide (n : UInt64) (h : side.context.truncated = true) :
    (Correlation.appendSide lib limits side pf n).context.truncated = true := by
  obtain ⟨again, heq⟩ := appendSide_eq lib limits side pf n
  have hcount : (side.count limits pf).context.truncated = true := by
    simp only [count, h, Bool.true_or]
  rw [heq]
  split
  · simp only [index, hcount, Bool.true_or]
  · simp only [index, (reassemble_keeps limits _ pf).2.2 hcount, Bool.true_or]

theorem truncated_appendAll : ∀ (segs : List NumberedPacket) {side : SideState},
    side.context.truncated = true →
      (Correlation.appendAll lib limits side segs).context.truncated = true
  | [], _, h => h
  | seg :: segs, _, h => truncated_appendAll segs (truncated_appendSide seg.2 h)

theorem packetCount_appendSide (n : UInt64) :
    (Correlation.appendSide lib limits side pf n).context.packetCount =
      side.context.packetCount + 1 := by
  obtain ⟨again, heq⟩ := appendSide_eq lib limits side pf n
  rw [heq]
  split
  · rfl
  · obtain ⟨_, _, hcontext⟩ := reassemble_context limits (side.count limits pf) pf
    simp only [index, hcontext]
    rfl

theorem packetCount_appendAll : ∀ (segs : List NumberedPacket) (side : SideState),
    (Correlation.appendAll lib limits side segs).context.packetCount =
      side.context.packetCount + segs.length
  | [], _ => rfl
  | seg :: segs, side => by
    refine (packetCount_appendAll segs _).trans ?_
    rw [packetCount_appendSide, List.length_cons, Nat.add_right_comm, Nat.add_assoc]

theorem opened_offset (seq : UInt32) : (side.opened seq).offset seq = side.cell seq := by
  rw [offset_eq, opened, cell]
  by_cases h : side.ahead seq < 2 ^ 31
  · rw [if_pos h, if_pos h, ← ahead, if_pos h]
  · simp only [if_neg h, rebase, UInt32.sub_self, UInt32.toNat_zero]
    rfl

/-- A segment that is neither turned away nor cut is kept with all its bytes. -/
theorem retains_or_truncated (limits : Limits) (side : SideState) (pf : PacketFeature) {k : Nat}
    (hk : k < pf.payload.length) : (reassemble limits side pf).1.Retains pf k ∨
      (reassemble limits side pf).1.context.truncated = true := by
  rcases reassemble_fst limits side pf with ⟨_, heq⟩ | ⟨_, heq⟩
  · rw [heq]
    exact .inr rfl
  · rw [heq]
    by_cases hcut : limits.maxReassemblyBytesPerSide < side.cell pf.sequence + pf.payload.length
    · right
      simp only [write, hcut, decide_true, Bool.or_true]
    · refine .inl ⟨side.cell pf.sequence + k, ?_, ?_⟩
      · rw [Int.natCast_add, ← opened_offset]
        rfl
      · simp only [write]
        rw [get_filling, if_pos (by omega), Nat.add_sub_cancel_left,
          List.getElem?_eq_getElem hk, Option.isSome_or, Option.isSome_some, Bool.or_true]

theorem truncated_of_loses {seg : NumberedPacket} (h : side.Loses lib limits seg) :
    (Correlation.appendSide lib limits side seg.1 seg.2).context.truncated = true := by
  obtain ⟨again, heq⟩ := appendSide_eq lib limits side seg.1 seg.2
  rcases h with ⟨k, hk, hlost⟩ | ⟨hstore, hlost⟩
  · rw [heq, if_neg (List.ne_nil_of_length_pos (Nat.zero_lt_of_lt hk))] at hlost ⊢
    rcases retains_or_truncated limits (side.count limits seg.1) seg.1 hk with hr | ht
    · exact absurd hr hlost
    · simp only [index, ht, Bool.true_or]
  · -- the entry is left out only when the index is full
    have hpackets : (if seg.1.payload = [] then side.count limits seg.1
        else (reassemble limits (side.count limits seg.1) seg.1).1).context.packets =
          side.context.packets := by
      split
      · rfl
      · exact (reassemble_keeps limits _ _).2.1
    rw [heq] at hlost ⊢
    by_cases hroom : side.context.packets.length < limits.maxPacketsPerTransaction
    · refine absurd ⟨again, ?_⟩ hlost
      simp only [index, hpackets, hstore, hroom, and_self, if_true]
    · simp only [index, hpackets, hstore, hroom, decide_false, Bool.not_false, Bool.and_self,
        Bool.or_true]

/-- Some segment was not kept when it was given to the side. -/
def Lost (lib : Lib) (limits : Limits) (segs : List NumberedPacket) : Prop :=
  ∃ pre seg post, segs = pre ++ seg :: post ∧
    (Correlation.appendAll lib limits {} pre).Loses lib limits seg

/-- The side has counted the segment and is marked. -/
theorem truncated_of_lost {segs : List NumberedPacket} (h : Lost lib limits segs) :
    0 < (Correlation.appendAll lib limits {} segs).context.packetCount ∧
      (Correlation.appendAll lib limits {} segs).context.truncated = true := by
  obtain ⟨pre, seg, post, rfl, hlost⟩ := h
  constructor
  · rw [packetCount_appendAll, List.length_append, List.length_cons]
    omega
  · rw [appendAll_append]
    exact truncated_appendAll post (truncated_of_loses hlost)

end SideState

open SideState

variable {lib : Lib} {limits : Limits} {st st' : SessionState}

/-! ### The number of transactions and sessions -/

theorem length_makeSlot {txs : List TransactionState}
    (h : txs.length ≤ limits.maxTransactionsPerSession) :
    (makeSlot limits txs).length + 1 ≤ limits.maxTransactionsPerSession := by
  have hpos := limits.maxTransactionsPerSession.2
  rw [makeSlot]
  split
  · next hfull =>
    rw [List.length_eraseIdx_of_lt (slot_lt hfull)]
    omega
  · omega

theorem length_newTransaction (usec : UInt64)
    (h : st.transactions.length ≤ limits.maxTransactionsPerSession) :
    (newTransaction lib limits st usec).1.transactions.length ≤
      limits.maxTransactionsPerSession := by
  simp only [newTransaction, List.length_append, List.length_singleton]
  exact length_makeSlot h

theorem length_attach (pf : PacketFeature) (n : UInt64)
    (h : st.transactions.length ≤ limits.maxTransactionsPerSession) :
    (attach lib limits st pf n).1.transactions.length ≤ limits.maxTransactionsPerSession := by
  have hmodify : ∀ (st : SessionState) i f,
      st.transactions.length ≤ limits.maxTransactionsPerSession.val →
        (st.modify i f).transactions.length ≤ limits.maxTransactionsPerSession.val :=
    fun st i f hst => Nat.le_trans (Nat.le_of_eq (List.length_modify ..)) hst
  exact attach_rule (I := fun st => st.transactions.length ≤ limits.maxTransactionsPerSession.val)
    (fun _ _ _ hst => hst) (fun _ _ hst => length_newTransaction _ hst)
    (fun st i => hmodify st i _) (fun st i => hmodify st i _) h

theorem length_makeRoom (order : Order) (h : sessions.length ≤ limits.maxSessions) :
    (makeRoom lib limits order sessions).1.length + 1 ≤ limits.maxSessions := by
  have hpos := limits.maxSessions.2
  rw [makeRoom]
  split
  · rename_i hfull
    have hne : sessions ≠ [] := List.ne_nil_of_length_pos (Nat.lt_of_lt_of_le hpos hfull)
    obtain ⟨o, hmem, ho⟩ := oldestSession_exists order hne
    rw [ho]
    have hlt : (sessions.filter (·.key ≠ o.key)).length < sessions.length :=
      List.length_filter_lt_length_iff_exists.mpr ⟨o, hmem, by simp⟩
    dsimp only
    omega
  · rename_i hroom
    exact Nat.lt_of_not_le hroom

theorem length_locate (order : Order) (h : sessions.length ≤ limits.maxSessions)
    (pf : PacketFeature) :
    (locate lib limits order sessions pf).2.1.length + 1 ≤ limits.maxSessions := by
  have hothers : (sessions.filter (·.key ≠ (canonicalKey pf).1)).length ≤ limits.maxSessions :=
    Nat.le_trans (List.length_filter_le _ _) h
  rw [locate]
  cases hfind : sessions.find? (·.key = (canonicalKey pf).1) with
  | none => exact length_makeRoom order hothers
  | some st =>
    dsimp only
    split
    · exact length_makeRoom order hothers
    · have hlt : (sessions.filter (·.key ≠ (canonicalKey pf).1)).length < sessions.length :=
        List.length_filter_lt_length_iff_exists.mpr
          ⟨st, List.mem_of_find?_eq_some hfind, by simpa using List.find?_some hfind⟩
      dsimp only
      omega

theorem length_cleanupLocked (order : Order) (t : Tracker) (now : UInt64) :
    (cleanupLocked lib limits order t now).1.sessions.length ≤ t.sessions.length := by
  rw [cleanupLocked]
  split
  · exact Nat.le_refl _
  · split
    · exact Nat.le_refl _
    · refine Nat.le_trans (List.length_filterMap_le _ _) ?_
      exact Nat.le_of_eq (by rw [List.length_map, (order.perm _).length_eq])

theorem length_observe (orders : Orders) (h : t.sessions.length ≤ limits.maxSessions)
    (pf : PacketFeature) (n : UInt64) :
    (observe lib limits orders t pf n).1.sessions.length ≤ limits.maxSessions := by
  rw [observe_sessions, List.length_cons]
  exact length_locate _ (Nat.le_trans (length_cleanupLocked _ _ _) h) pf

/-! ### The ledger -/

/-- The packets that were given to the two sides of a transaction. -/
structure Given where
  request : List NumberedPacket := []
  response : List NumberedPacket := []

def Given.ask (packet : NumberedPacket) (g : Given) : Given :=
  { g with request := g.request ++ [packet] }

def Given.answer (packet : NumberedPacket) (g : Given) : Given :=
  { g with response := g.response ++ [packet] }

/-- A transaction whose sides are what its packets make of empty ones. -/
structure Made (lib : Lib) (limits : Limits) (tx : TransactionState) (g : Given) : Prop where
  request : tx.request = appendAll lib limits {} g.request
  response : tx.response = appendAll lib limits {} g.response

/-- The entries of a session after a new transaction, as `newTransaction` makes room for it. -/
def openGiven (limits : Limits) (txs : List TransactionState) (gs : List Given) : List Given :=
  (if limits.maxTransactionsPerSession ≤ txs.length then
    gs.eraseIdx ((txs.findIdx? (·.final)).getD 0)
  else gs) ++ [({} : Given)]

/-- The entries of a session after a response, as `responseTransaction` finds its transaction. -/
def respondGiven (limits : Limits) (txs : List TransactionState) (packet : NumberedPacket)
    (gs : List Given) : List Given :=
  match txs.findIdx? (!·.final) with
  | some i => gs.modify i (.answer packet)
  | none => (openGiven limits txs gs).modify (makeSlot limits txs).length (.answer packet)

/-- The entries of a session after a packet, as `attach` gives the packet to a transaction. -/
def attachGiven (limits : Limits) (st : SessionState) (packet : NumberedPacket) (gs : List Given) :
    List Given :=
  let source := endpoint packet.1.srcIP packet.1.srcPort
  if packet.1.proto ≠ .tcp then gs
  else match packet.1.messageDirection with
    | .request =>
      (openGiven limits st.transactions gs).modify (makeSlot limits st.transactions).length
        (.ask packet)
    | .response => respondGiven limits st.transactions packet gs
    | .none =>
      if packet.1.payload = [] then gs
      else match continuationTransaction st source with
        | none => gs
        | some i =>
          let fresh := (st.transactions[i]?.map (·.response.context.packetCount)) = some 0
          if st.client ≠ "" ∧ source = st.client ∧ fresh then gs.modify i (.ask packet)
          else gs.modify i (.answer packet)

/-- A tracker with the ledger of each session key. -/
structure Books where
  tracker : Tracker := {}
  given : String → List Given := fun _ => []

/-- A packet is entered for its session; a new session starts without entries. -/
def Books.observe (b : Books) (lib : Lib) (limits : Limits) (orders : Orders)
    (packet : NumberedPacket) : Books where
  tracker := (Correlation.observe lib limits orders b.tracker packet.1 packet.2).1
  given key :=
    if key = (canonicalKey packet.1).1 then
      attachGiven limits (tally (found lib limits orders b.tracker packet.1).1 packet.1).1 packet
        (if creates lib limits orders b.tracker packet.1 then [] else b.given key)
    else b.given key

inductive BookStep (lib : Lib) (limits : Limits) : Books → Books → Prop where
  | observe {b : Books} (orders : Orders) (packet : NumberedPacket) :
      BookStep lib limits b (b.observe lib limits orders packet)
  | register {b : Books} (order : Order) (obs : Observation) (ev : ThreatEvent) :
      BookStep lib limits b { b with tracker := (register order b.tracker obs ev).1 }
  | flush {b : Books} (order : Order) :
      BookStep lib limits b { b with tracker := (flush lib limits order b.tracker).1 }

/-- A session with an entry for each transaction. -/
def Booked (lib : Lib) (limits : Limits) (st : SessionState) (gs : List Given) : Prop :=
  List.Forall₂ (Made lib limits) st.transactions gs

theorem Made.ask (h : Made lib limits tx g) (packet : NumberedPacket) :
    Made lib limits (appendRequest lib limits packet.1 packet.2 tx) (g.ask packet) where
  request := by
    rw [Given.ask, appendAll_append, ← h.request]
    rfl
  response := h.response

theorem Made.answer (h : Made lib limits tx g) (packet : NumberedPacket) :
    Made lib limits (appendResponse lib limits packet.1 packet.2 tx) (g.answer packet) where
  request := h.request
  response := by
    rw [Given.answer, appendAll_append, ← h.response]
    rfl

theorem Booked.newTransaction (h : Booked lib limits st gs) (usec : UInt64) :
    Booked lib limits (newTransaction lib limits st usec).1
      (openGiven limits st.transactions gs) := by
  refine List.rel_append ?_ (.cons ⟨rfl, rfl⟩ .nil)
  rw [makeSlot]
  split
  · exact forall₂_eraseIdx h _
  · exact h

theorem Booked.modify (h : Booked lib limits st gs) (i : Nat)
    {f : TransactionState → TransactionState} {f' : Given → Given}
    (hf : ∀ tx g, Made lib limits tx g → Made lib limits (f tx) (f' g)) :
    Booked lib limits (st.modify i f) (gs.modify i f') :=
  forall₂_modify_modify h (fun _ _ h => h) hf i

theorem Booked.respond (h : Booked lib limits st gs) (packet : NumberedPacket) (usec : UInt64) :
    Booked lib limits ((responseTransaction lib limits st usec).1.modify
        (responseTransaction lib limits st usec).2 (appendResponse lib limits packet.1 packet.2))
      (respondGiven limits st.transactions packet gs) := by
  have hanswer : ∀ tx g, Made lib limits tx g → _ := fun tx g hm => hm.answer packet
  rw [responseTransaction, respondGiven]
  cases st.transactions.findIdx? (!·.final) with
  | some i => exact h.modify i hanswer
  | none => exact (h.newTransaction usec).modify _ hanswer

theorem Booked.attach (h : Booked lib limits st gs) (packet : NumberedPacket) :
    Booked lib limits (attach lib limits st packet.1 packet.2).1
      (attachGiven limits st packet gs) := by
  have hask : ∀ tx g, Made lib limits tx g → _ := fun tx g hm => hm.ask packet
  have hanswer : ∀ tx g, Made lib limits tx g → _ := fun tx g hm => hm.answer packet
  have hclient : ∀ client, Booked lib limits { st with client := client } gs := fun _ => h
  rw [Correlation.attach, attachGiven]
  dsimp only
  split
  · exact h
  cases packet.1.messageDirection with
  | request => exact ((hclient _).newTransaction _).modify _ hask
  | response =>
    dsimp only
    split
    · exact (hclient _).respond packet _
    · exact h.respond packet _
  | none =>
    dsimp only
    split
    · exact h
    · cases continuationTransaction st (endpoint packet.1.srcIP packet.1.srcPort) with
      | none => exact h
      | some i =>
        dsimp only
        split
        · exact h.modify i hask
        · exact h.modify i hanswer

/-! ### The calls -/

/-- The sides of a transaction are not touched. -/
def SameSides (a b : TransactionState) : Prop := b.request = a.request ∧ b.response = a.response

/-- A session whose transactions keep their sides. -/
structure Steady (st st' : SessionState) : Prop where
  key : st'.key = st.key
  sides : List.Forall₂ SameSides st.transactions st'.transactions

theorem SameSides.refl (a : TransactionState) : SameSides a a := ⟨rfl, rfl⟩

theorem Steady.of_transactions (key : st'.key = st.key)
    (same : st'.transactions = st.transactions) : Steady st st' :=
  ⟨key, same ▸ List.forall₂_same.mpr fun tx _ => .refl tx⟩

theorem Steady.booked (h : Steady st st') (hb : Booked lib limits st gs) :
    Booked lib limits st' gs := by
  have hflip : List.Forall₂ (fun b a => SameSides a b) st'.transactions st.transactions :=
    h.sides.flip
  refine (List.forall₂_iff_get.mpr ⟨hflip.length_eq.trans hb.length_eq, fun k h₁ h₂ => ?_⟩)
  have hk : k < st.transactions.length := hflip.length_eq ▸ h₁
  have hsame := hflip.get h₁ hk
  have hmade := hb.get hk h₂
  exact ⟨hsame.1.trans hmade.request, hsame.2.trans hmade.response⟩

theorem expireTransaction_sides (now : UInt64) (st : SessionState) (tx : TransactionState) :
    SameSides tx (expireTransaction lib limits now st tx).1 := by
  rw [expireTransaction]
  split
  · exact reviseTransaction_sides st { tx with final := true }
  · exact .refl tx

theorem expired_steady (now : UInt64) (st : SessionState) :
    Steady st (expired lib limits now st) := by
  refine ⟨rfl, ?_⟩
  rw [expired, List.map_map]
  exact List.forall₂_map_right_iff.mpr (List.forall₂_same.mpr fun tx _ =>
    expireTransaction_sides now st tx)

theorem sweep_steady (h : (sweep lib limits now st).1 = some st') : Steady st st' := by
  simp only [sweep] at h
  split at h
  · cases h
  · cases h
    exact expired_steady now st

theorem cleanupLocked_steady (h : st' ∈ (cleanupLocked lib limits order t now).1.sessions) :
    ∃ st ∈ t.sessions, Steady st st' := by
  obtain ⟨st, hst, rfl | hswept⟩ := cleanupLocked_mem h
  · exact ⟨_, hst, .of_transactions rfl rfl⟩
  · exact ⟨st, hst, sweep_steady hswept⟩

theorem settle_steady (st : SessionState) (chosen : Option Nat) (pf : PacketFeature) :
    Steady st (settle lib limits st chosen pf).1 := by
  refine ⟨(settle_named st chosen pf).1, ?_⟩
  rcases @settle_cases lib limits st chosen pf with ⟨-, heq⟩ | ⟨-, heq | ⟨i, tx, -, htx, heq⟩⟩ <;>
    rw [heq]
  · exact List.forall₂_map_right_iff.mpr (List.forall₂_same.mpr fun tx _ =>
      reviseTransaction_sides st { tx with final := true })
  · exact List.forall₂_same.mpr fun tx _ => .refl tx
  · refine forall₂_modify .refl fun tx' htx' => ?_
    obtain rfl := Option.some.inj (htx.symm.trans htx')
    exact reviseTransaction_sides st { tx with lastUsec := pf.packetTimeUsec }

theorem Registers.steady {t' : Tracker} {obs : Observation} (h : Registers t obs ev t')
    (hst' : st' ∈ t'.sessions) : ∃ st ∈ t.sessions, Steady st st' := by
  obtain ⟨st, hst, rfl | rfl | ⟨i, rfl⟩⟩ := h.origin hst'
  · exact ⟨_, hst, .of_transactions rfl rfl⟩
  · exact ⟨st, hst, .of_transactions rfl rfl⟩
  · exact ⟨st, hst, rfl, forall₂_modify .refl fun tx _ => ⟨rfl, rfl⟩⟩

theorem Registers.length {t' : Tracker} {obs : Observation} (h : Registers t obs ev t')
    (hkeyed : Keyed t.sessions) : t'.sessions.length ≤ t.sessions.length := by
  have hreplace : ∀ {st st' : SessionState}, st ∈ t.sessions →
      (st' :: t.sessions.filter (·.key ≠ st.key)).length = t.sessions.length :=
    fun here => ((hkeyed.perm_filter here).length_eq).symm
  cases h with
  | nothing _ same => exact same ▸ Nat.le_refl _
  | hit st here _ _ changed | stored st here _ _ _ _ _ _ changed =>
    rw [changed]
    exact Nat.le_of_eq (hreplace here)

/-- A tracker within the limits on sessions and transactions. -/
structure Fits (limits : Limits) (t : Tracker) : Prop where
  keyed : Keyed t.sessions
  sessions : t.sessions.length ≤ limits.maxSessions
  transactions : ∀ st ∈ t.sessions, st.transactions.length ≤ limits.maxTransactionsPerSession

theorem fits_new : Fits limits {} :=
  ⟨List.nodup_nil, Nat.zero_le _, fun _ hst => (List.not_mem_nil hst).elim⟩

theorem Steady.length (h : Steady st st') : st'.transactions.length = st.transactions.length :=
  h.sides.length_eq.symm

/-- The session of a packet before the packet comes from the map, or has no transactions. -/
theorem found_transactions (orders : Orders) (t : Tracker) (pf : PacketFeature) :
    (∃ st ∈ t.sessions, Steady st (found lib limits orders t pf).1) ∨
      (found lib limits orders t pf).1.transactions = [] := by
  rcases @found_origin lib limits orders t pf with ⟨-, hst⟩ | ⟨-, hst⟩
  · exact .inr (hst ▸ newSession_transactions lib pf)
  · exact .inl (cleanupLocked_steady hst)

/-- The other sessions come from the map. -/
theorem others_steady (orders : Orders) (h : Keyed t.sessions) (pf : PacketFeature)
    (hst : st ∈ (found lib limits orders t pf).2.1) : ∃ st₀ ∈ t.sessions, Steady st₀ st :=
  cleanupLocked_steady ((found_spec orders h pf).others.subset hst)

theorem Fits.observe (h : Fits limits t) (orders : Orders) (pf : PacketFeature) (n : UInt64) :
    Fits limits (observe lib limits orders t pf n).1 := by
  refine ⟨observe_keyed orders h.keyed pf n, length_observe orders h.sessions pf n, ?_⟩
  rw [observe_sessions]
  intro st hst
  rcases List.mem_cons.mp hst with rfl | hother
  · rw [observed, (settle_steady _ _ _).length]
    refine length_attach _ _ ?_
    rw [(tally_kept _ pf).transactions]
    rcases @found_transactions lib limits orders t pf with ⟨st₀, hst₀, hsteady⟩ | hnone
    · rw [hsteady.length]
      exact h.transactions st₀ hst₀
    · rw [hnone]
      exact Nat.zero_le _
  · obtain ⟨st₀, hst₀, hsteady⟩ := others_steady orders h.keyed pf hother
    rw [hsteady.length]
    exact h.transactions st₀ hst₀

theorem Fits.register (h : Fits limits t) (order : Order) (obs : Observation) (ev : ThreatEvent) :
    Fits limits (register order t obs ev).1 := by
  have hspec := register_spec order t obs ev
  refine ⟨hspec.keyed h.keyed, Nat.le_trans (hspec.length h.keyed) h.sessions, fun st hst => ?_⟩
  obtain ⟨st₀, hst₀, hsteady⟩ := hspec.steady hst
  rw [hsteady.length]
  exact h.transactions st₀ hst₀

/-- What holds of the books between two calls. -/
structure Balanced (lib : Lib) (limits : Limits) (b : Books) : Prop where
  fits : Fits limits b.tracker
  booked : ∀ st ∈ b.tracker.sessions, Booked lib limits st (b.given st.key)

theorem Balanced.steady (h : Balanced lib limits b)
    (hst : ∃ st₀ ∈ b.tracker.sessions, Steady st₀ st) : Booked lib limits st (b.given st.key) := by
  obtain ⟨st₀, hst₀, hsteady⟩ := hst
  rw [hsteady.key]
  exact hsteady.booked (h.booked st₀ hst₀)

theorem Balanced.observe (h : Balanced lib limits b) (orders : Orders) (packet : NumberedPacket) :
    Balanced lib limits (b.observe lib limits orders packet) := by
  have hfits := @Fits.observe _ lib limits h.fits orders packet.1 packet.2
  have hkept := tally_kept (found lib limits orders b.tracker packet.1).1 packet.1
  -- the packet's session before the packet
  have hbefore : Booked lib limits (found lib limits orders b.tracker packet.1).1
      (if creates lib limits orders b.tracker packet.1 then []
        else b.given (canonicalKey packet.1).1) := by
    rcases @found_origin lib limits orders b.tracker packet.1 with ⟨hnew, hst⟩ | ⟨hold, hst⟩
    · rw [if_pos hnew, hst]
      exact .nil
    · rw [if_neg (by rw [hold]; exact Bool.false_ne_true)]
      have hbooked := h.steady (cleanupLocked_steady hst)
      rwa [found_key] at hbooked
  have htallied : Booked lib limits (tally (found lib limits orders b.tracker packet.1).1
      packet.1).1 _ := (Steady.of_transactions hkept.key hkept.transactions).booked hbefore
  have hkey : (observed lib limits orders b.tracker packet.1 packet.2).1.key =
      (canonicalKey packet.1).1 :=
    (observed_follows orders b.tracker packet.1 packet.2).key_id.1.trans (found_key ..)
  have hsessions : (b.observe lib limits orders packet).tracker.sessions =
    (observed lib limits orders b.tracker packet.1 packet.2).1 ::
      (found lib limits orders b.tracker packet.1).2.1 := rfl
  refine ⟨hfits, ?_⟩
  have hkeyed := hfits.keyed
  rw [observe_sessions, Keyed, List.map_cons, List.nodup_cons, hkey] at hkeyed
  rw [hsessions]
  intro st hst
  rcases List.mem_cons.mp hst with rfl | hother
  · rw [hkey]
    simp only [Books.observe, if_true]
    exact (settle_steady _ _ _).booked (htallied.attach packet)
  · -- the entries of the other sessions are as before
    have hne : st.key ≠ (canonicalKey packet.1).1 :=
      fun heq => hkeyed.1 (heq ▸ List.mem_map_of_mem hother)
    simp only [Books.observe, if_neg hne]
    exact h.steady (others_steady orders h.fits.keyed packet.1 hother)

theorem Balanced.register (h : Balanced lib limits b) (order : Order) (obs : Observation)
    (ev : ThreatEvent) :
    Balanced lib limits { b with tracker := (register order b.tracker obs ev).1 } :=
  ⟨h.fits.register order obs ev,
    fun _ hst => h.steady ((register_spec order b.tracker obs ev).steady hst)⟩

theorem BookStep.balanced {b' : Books} (hs : BookStep lib limits b b') (h : Balanced lib limits b) :
    Balanced lib limits b' := by
  cases hs with
  | observe orders packet => exact h.observe orders packet
  | register order obs ev => exact h.register order obs ev
  | flush order =>
    exact ⟨⟨List.nodup_nil, Nat.zero_le _, fun _ hst => (List.not_mem_nil hst).elim⟩,
      fun _ hst => (List.not_mem_nil hst).elim⟩

theorem balanced_of_run (hrun : Reachable (· = {}) (BookStep lib limits) b) :
    Balanced lib limits b := by
  refine Reachable.invariant (fun s hs => ?_) (fun _ _ h hs => hs.balanced h) hrun
  subst hs
  exact ⟨fits_new, fun _ hst => (List.not_mem_nil hst).elim⟩

/-! ### Snapshots -/

/-- A snapshot of a transaction of the session, whether it was final yet or not. -/
def Shown (lib : Lib) (st : SessionState) (ex : ExchangeContext) : Prop :=
  ∃ tx ∈ st.transactions, ∃ final, ex = exchange lib { tx with final := final }

theorem exchange_sides {a b : TransactionState} (h : SameSides a b) (final : Bool) :
    exchange lib { b with final := final } = exchange lib { a with final := final } := by
  simp only [exchange, h.1, h.2]

theorem Steady.shown_iff (h : Steady st st') : Shown lib st' ex ↔ Shown lib st ex := by
  constructor
  · rintro ⟨tx, htx, final, rfl⟩
    obtain ⟨k, hk, rfl⟩ := List.getElem_of_mem htx
    have hk' : k < st.transactions.length := h.sides.length_eq ▸ hk
    exact ⟨_, List.getElem_mem hk', final, exchange_sides (h.sides.get hk' hk) final⟩
  · rintro ⟨tx, htx, final, rfl⟩
    obtain ⟨k, hk, rfl⟩ := List.getElem_of_mem htx
    have hk' : k < st'.transactions.length := h.sides.length_eq ▸ hk
    exact ⟨_, List.getElem_mem hk', final, (exchange_sides (h.sides.get hk hk') final).symm⟩

/-- An event that comes out with a snapshot of one of the sessions. -/
def ShownIn (lib : Lib) (sessions : List SessionState) (ev : ThreatEvent) : Prop :=
  ∃ st ∈ sessions, ∃ ex, ev.exchange = some ex ∧ Shown lib st ex

theorem reviseTransaction_shows (h : ev ∈ (reviseTransaction lib limits st tx).2) :
    ev.exchange = some (exchange lib tx) := by
  simp only [reviseTransaction] at h
  split at h
  · cases h
  · split at h
    · cases h
    · obtain ⟨ev₀, -, rfl⟩ := List.mem_map.mp h
      exact exchange_reviseEvent _ _ _ _

theorem finalizeSession_shows (h : ev ∈ finalizeSession lib limits st) :
    ∃ ex, ev.exchange = some ex ∧ Shown lib st ex := by
  obtain ⟨tx, htx, hev⟩ := List.mem_flatMap.mp h
  exact ⟨_, reviseTransaction_shows hev, tx, htx, true, rfl⟩

theorem sweep_shows (h : ev ∈ (sweep lib limits now st).2) :
    ∃ ex, ev.exchange = some ex ∧ Shown lib st ex := by
  have hexpired : ev ∈ (st.transactions.map (expireTransaction lib limits now st)).flatMap (·.2) →
      ∃ ex, ev.exchange = some ex ∧ Shown lib st ex := by
    intro hev
    rw [List.flatMap_map] at hev
    obtain ⟨tx, htx, hev⟩ := List.mem_flatMap.mp hev
    rw [expireTransaction] at hev
    split at hev
    · exact ⟨_, reviseTransaction_shows hev, tx, htx, true, rfl⟩
    · cases hev
  simp only [sweep] at h
  split at h
  · rcases List.mem_append.mp h with hev | hev
    · exact hexpired hev
    · obtain ⟨ex, hex, hshown⟩ := finalizeSession_shows hev
      exact ⟨ex, hex, (expired_steady now st).shown_iff.mp hshown⟩
  · exact hexpired h

theorem cleanupLocked_shows (h : ev ∈ (cleanupLocked lib limits order t now).2) :
    ShownIn lib t.sessions ev := by
  obtain ⟨st, hst, hev⟩ := cleanupLocked_updates h
  exact ⟨st, hst, sweep_shows hev⟩

theorem makeRoom_shows (h : ev ∈ (makeRoom lib limits order sessions).2) :
    ShownIn lib sessions ev := by
  rw [makeRoom] at h
  split at h
  · split at h
    · rename_i o ho
      exact ⟨o, oldestSession_mem ho, finalizeSession_shows h⟩
    · cases h
  · cases h

theorem locate_shows {pf : PacketFeature} (h : ev ∈ (locate lib limits order sessions pf).2.2) :
    ShownIn lib sessions ev := by
  have hroom : ev ∈ (makeRoom lib limits order
      (sessions.filter (·.key ≠ (canonicalKey pf).1))).2 → ShownIn lib sessions ev := by
    intro hev
    obtain ⟨st, hst, hshown⟩ := makeRoom_shows hev
    exact ⟨st, (List.mem_filter.mp hst).1, hshown⟩
  rw [locate] at h
  split at h
  · rename_i st hfind
    split at h
    · rcases List.mem_append.mp h with hev | hev
      · exact ⟨st, List.mem_of_find?_eq_some hfind, finalizeSession_shows hev⟩
      · exact hroom hev
    · cases h
  · exact hroom h

theorem settle_shows {chosen : Option Nat} {pf : PacketFeature}
    (h : ev ∈ (settle lib limits st chosen pf).2) :
    ∃ ex, ev.exchange = some ex ∧ Shown lib (settle lib limits st chosen pf).1 ex := by
  simp only [(settle_steady st chosen pf).shown_iff]
  rcases @settle_cases lib limits st chosen pf with ⟨-, heq⟩ | ⟨-, heq | ⟨i, tx, -, htx, heq⟩⟩ <;>
    rw [heq] at h
  · obtain ⟨tx, htx, hev⟩ := List.mem_flatMap.mp h
    exact ⟨_, reviseTransaction_shows hev, tx, htx, true, rfl⟩
  · cases h
  · exact ⟨_, reviseTransaction_shows h, tx, List.mem_of_getElem? htx, tx.final, rfl⟩

/-- The snapshots an observation hands out: its own, and those of the revised events. -/
def Observation.snapshots (obs : Observation) : List ExchangeContext :=
  obs.exchange.toList ++ obs.updates.filterMap (·.exchange)

/-- The books have the transaction a snapshot is of, with the packets of its sides. -/
def Taken (lib : Lib) (b : Books) (g : Given) (ex : ExchangeContext) : Prop :=
  ∃ st ∈ b.tracker.sessions, ∃ (i : Nat) (tx : TransactionState),
    st.transactions[i]? = some tx ∧ (b.given st.key)[i]? = some g ∧
      ∃ final, ex = exchange lib { tx with final := final }

section
variable (h : Balanced lib limits b)
include h

theorem Balanced.taken (hst : st ∈ b.tracker.sessions) (hshown : Shown lib st ex) :
    ∃ g, Taken lib b g ex := by
  obtain ⟨tx, htx, final, rfl⟩ := hshown
  obtain ⟨k, hk, rfl⟩ := List.getElem_of_mem htx
  have hk' : k < (b.given st.key).length := (h.booked st hst).length_eq ▸ hk
  exact ⟨_, st, hst, k, _, List.getElem?_eq_getElem hk, List.getElem?_eq_getElem hk', final, rfl⟩

theorem Balanced.taken_of_shownIn (hshown : ShownIn lib b.tracker.sessions ev)
    (hex : ev.exchange = some ex) : ∃ g, Taken lib b g ex := by
  obtain ⟨st, hst, ex', hex', hshown⟩ := hshown
  obtain rfl := Option.some.inj (hex.symm.trans hex')
  exact h.taken hst hshown

/-- A snapshot of `Observe` is of a transaction as it is before or after the call. -/
theorem Balanced.observe_taken (orders : Orders) (packet : NumberedPacket)
    (hex : ex ∈ (Correlation.observe lib limits orders b.tracker packet.1 packet.2).2.snapshots) :
    ∃ g, Taken lib b g ex ∨ Taken lib (b.observe lib limits orders packet) g ex := by
  have hafter := h.observe orders packet
  have hmem : (observed lib limits orders b.tracker packet.1 packet.2).1 ∈
      (b.observe lib limits orders packet).tracker.sessions := List.mem_cons_self
  rcases List.mem_append.mp hex with hown | hrevised
  · obtain ⟨tx, htx, rfl⟩ := Option.map_eq_some_iff.mp (Option.mem_toList.mp hown)
    have htx' : tx ∈ (observed lib limits orders b.tracker packet.1 packet.2).1.transactions :=
      chosen_mem htx
    obtain ⟨g, hg⟩ := hafter.taken hmem ⟨tx, htx', tx.final, rfl⟩
    exact ⟨g, .inr hg⟩
  · obtain ⟨ev, hev, hev'⟩ := List.mem_filterMap.mp hrevised
    rw [observe_updates, List.append_assoc] at hev
    rcases List.mem_append.mp hev with hclean | hev
    · obtain ⟨g, hg⟩ := h.taken_of_shownIn (cleanupLocked_shows hclean) hev'
      exact ⟨g, .inl hg⟩
    rcases List.mem_append.mp hev with hlocate | hsettle
    · -- cleanup has left the sides of the sessions that are closed here as they were
      obtain ⟨st, hst, ex', hex', hshown⟩ := locate_shows hlocate
      obtain ⟨st₀, hst₀, hsteady⟩ := cleanupLocked_steady hst
      obtain ⟨g, hg⟩ := h.taken_of_shownIn ⟨st₀, hst₀, ex', hex', hsteady.shown_iff.mp hshown⟩ hev'
      exact ⟨g, .inl hg⟩
    · obtain ⟨ex', hex', hshown⟩ := settle_shows hsettle
      obtain ⟨g, hg⟩ := hafter.taken_of_shownIn ⟨_, hmem, ex', hex', hshown⟩ hev'
      exact ⟨g, .inr hg⟩

theorem Balanced.flush_taken (order : Order) (hev : ev ∈ (flush lib limits order b.tracker).2)
    (hex : ev.exchange = some ex) : ∃ g, Taken lib b g ex := by
  obtain ⟨st, hst, hev⟩ := List.mem_flatMap.mp hev
  exact h.taken_of_shownIn ⟨st, (order.perm _).mem_iff.mp hst, finalizeSession_shows hev⟩ hex

theorem Balanced.made {i : Nat} (hst : st ∈ b.tracker.sessions)
    (htx : st.transactions[i]? = some tx) (hg : (b.given st.key)[i]? = some g) :
    Made lib limits tx g := by
  have hrel := forall₂_getElem? (h.booked st hst) i
  rw [htx, hg] at hrel
  cases hrel with
  | some hmade => exact hmade

omit h in
/-- A side that has counted a packet is shown, with its mark. -/
theorem exchange_truncated (lib : Lib) (tx : TransactionState) :
    (0 < tx.request.context.packetCount → tx.request.context.truncated = true →
        ∃ m, (exchange lib tx).request = some m ∧ m.truncated = true) ∧
      (0 < tx.response.context.packetCount → tx.response.context.truncated = true →
        ∃ m, (exchange lib tx).response = some m ∧ m.truncated = true) := by
  constructor
  · intro hcount hmark
    refine ⟨snapshotSide tx.request, ?_, hmark⟩
    simp only [exchange, hcount, gt_iff_lt, if_true]
    split
    · rfl
    · rfl
  · intro hcount hmark
    simp only [exchange, hcount, gt_iff_lt, if_true]
    exact ⟨_, rfl, hmark⟩

/-- A packet that was not kept shows in every snapshot of its transaction. -/
theorem Balanced.truncated (htaken : Taken lib b g ex) :
    (Lost lib limits g.request → ∃ m, ex.request = some m ∧ m.truncated = true) ∧
      (Lost lib limits g.response → ∃ m, ex.response = some m ∧ m.truncated = true) := by
  obtain ⟨st, hst, i, tx, htx, hg, final, rfl⟩ := htaken
  have hmade := h.made hst htx hg
  obtain ⟨hrequest, hresponse⟩ := exchange_truncated lib { tx with final := final }
  constructor
  · intro hlost
    obtain ⟨hcount, hmark⟩ := truncated_of_lost hlost
    rw [← hmade.request] at hcount hmark
    exact hrequest hcount hmark
  · intro hlost
    obtain ⟨hcount, hmark⟩ := truncated_of_lost hlost
    rw [← hmade.response] at hcount hmark
    exact hresponse hcount hmark

theorem Balanced.bounded (hst : st ∈ b.tracker.sessions) (htx : tx ∈ st.transactions) :
    tx.request.Bounded limits ∧ tx.response.Bounded limits := by
  have hempty : ({} : SideState).Bounded limits :=
    ⟨Nat.zero_le _, Nat.zero_le _, Nat.zero_le _⟩
  obtain ⟨k, hk, rfl⟩ := List.getElem_of_mem htx
  have hk' : k < (b.given st.key).length := (h.booked st hst).length_eq ▸ hk
  have hmade := (h.booked st hst).get hk hk'
  constructor
  · rw [List.get_eq_getElem] at hmade
    rw [hmade.request]
    exact bounded_appendAll _ sound_new hempty
  · rw [List.get_eq_getElem] at hmade
    rw [hmade.response]
    exact bounded_appendAll _ sound_new hempty

end

/-- **Whatever the traffic, the tracker holds no more than its options allow**, and a side of which a
    byte or an index entry was not kept says so in every snapshot from then on. -/
theorem buffers_bounded (lib : Lib) (opts : Options) {b : Books}
    (hrun : Reachable (· = {}) (BookStep lib opts.limits) b) :
    b.tracker.sessions.length ≤ opts.limits.maxSessions ∧
    (∀ st ∈ b.tracker.sessions,
      st.transactions.length ≤ opts.limits.maxTransactionsPerSession ∧
      ∀ tx ∈ st.transactions,
        tx.request.Bounded opts.limits ∧ tx.response.Bounded opts.limits) ∧
    (∀ g ex, Taken lib b g ex →
      (Lost lib opts.limits g.request → ∃ m, ex.request = some m ∧ m.truncated = true) ∧
      (Lost lib opts.limits g.response → ∃ m, ex.response = some m ∧ m.truncated = true)) ∧
    (∀ orders packet,
      ∀ ex ∈ (observe lib opts.limits orders b.tracker packet.1 packet.2).2.snapshots,
        ∃ g, Taken lib b g ex ∨ Taken lib (b.observe lib opts.limits orders packet) g ex) ∧
    (∀ order, ∀ ev ∈ (flush lib opts.limits order b.tracker).2, ∀ ex, ev.exchange = some ex →
      ∃ g, Taken lib b g ex) := by
  have h := balanced_of_run hrun
  refine ⟨h.fits.sessions, fun st hst => ⟨h.fits.transactions st hst, fun tx htx => h.bounded hst htx⟩,
    fun g ex htaken => h.truncated htaken, ?_, ?_⟩
  · intro orders packet ex hex
    exact h.observe_taken orders packet hex
  · intro order ev hev ex hex
    exact h.flush_taken order hev hex

/-- Sides of four bytes. -/
def fourBytes : Options := { maxReassemblyBytesPerSide := 4 }

/-- A request of six bytes. -/
def sixBytes : NumberedPacket := (fromClient 1 .request [1, 2, 3, 4, 5, 6], 0)

/-- The last two bytes of the request are lost, and its snapshot says so. -/
theorem buffers_bounded_cut : ∃ (b : Books) (g : Given) (ex : ExchangeContext),
    Reachable (· = {}) (BookStep sampleLib fourBytes.limits) b ∧ Taken sampleLib b g ex ∧
    Lost sampleLib fourBytes.limits g.request ∧ ∃ m, ex.request = some m ∧ m.truncated = true := by
  let b := Books.observe {} sampleLib fourBytes.limits {} sixBytes
  have hrun : Reachable (· = {}) (BookStep sampleLib fourBytes.limits) b :=
    .next (.start rfl) (.observe {} sixBytes)
  have htaken : Taken sampleLib b ⟨[sixBytes], []⟩ _ :=
    ⟨(observed sampleLib fourBytes.limits {} {} sixBytes.1 0).1, List.mem_cons_self, 0, _, rfl,
      by rfl, false, rfl⟩
  have hlost : Lost sampleLib fourBytes.limits [sixBytes] := by
    refine ⟨[], sixBytes, [], rfl, .inl ⟨4, by decide, ?_⟩⟩
    rintro ⟨i, hi, hget⟩
    have hoffset : (i : Int) = 4 := hi.trans (by decide +kernel)
    obtain rfl : i = 4 := by omega
    exact absurd hget (by decide +kernel)
  obtain ⟨-, -, htruncated, -, -⟩ := buffers_bounded sampleLib fourBytes hrun
  exact ⟨b, _, _, hrun, htaken, hlost, (htruncated _ _ htaken).1 hlost⟩

end TaNode.Correlation

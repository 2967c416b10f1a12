import TaNode.Correlation.History
import TaNode.Correlation.Twin

/-! Responses and the requests they answer, over one connection.

    The requests of a connection open transactions in order, and the responses come back in order, so
    the first transaction that is not final is the one whose response is under way:

        handshake  done … done  open open …        transactions
                                 │    │
                                 r₁   r₂ …         responses to come

    The handshake is the first transaction of its connection: the SYN is labelled a request and the
    SYN-ACK a response, which is never complete. Only when the handshake transaction is final, that is
    when it has waited too long, do the responses go to their requests. -/

namespace TaNode.Correlation

/-! ### A response laid out in order -/

/-- A side that holds exactly these bytes, from the sequence number `base` on. -/
structure Laid (limits : Limits) (base : UInt32) (bytes : Bytes) (side : SideState) : Prop where
  sound : side.Sound limits
  set : side.seqSet = true → side.baseSeq = base
  unset : side.seqSet = false → bytes = []
  get : ∀ j, side.window.get j = bytes[j]?
  stop : side.expectedEnd = bytes.length
  limited : side.limited = false
  truncated : side.context.truncated = false

section
variable {lib : Lib} {limits : Limits} {base : UInt32} {bytes : Bytes} {side : SideState}
  {pf : PacketFeature}

theorem laid_new (limits : Limits) (base : UInt32) : Laid limits base [] {} :=
  ⟨SideState.sound_new, fun h => by simp at h, fun _ => rfl, fun _ => rfl, rfl, rfl, rfl⟩

theorem Laid.front (h : Laid limits base bytes side) : side.window.front = bytes.length := by
  refine side.window.front_eq (fun i hi => ?_) ?_
  · rw [h.get, List.getElem?_eq_getElem hi]
    rfl
  · rw [h.get, List.getElem?_eq_none (Nat.le_refl _)]

theorem Laid.payload (h : Laid limits base bytes side) : side.payload = bytes := by
  rw [h.sound.payload_eq]
  refine List.ext_getElem? fun i => ?_
  rw [Window.getElem?_take_front, h.front]
  split
  · exact h.get i
  · rw [List.getElem?_eq_none (by omega)]

theorem Laid.responseComplete (h : Laid limits base bytes side) :
    responseComplete lib side = httpMessageComplete lib bytes true := by
  rw [Correlation.responseComplete, h.truncated, h.sound.incomplete_eq, h.limited, h.front, h.stop,
    h.payload]
  simp

/-- The next segment in order, captured whole and within the limits. -/
structure Next (limits : Limits) (base : UInt32) (bytes : Bytes) (pf : PacketFeature) : Prop where
  sequence : pf.sequence = base + UInt32.ofNat bytes.length
  whole : pf.capturedShort = false
  near : bytes.length < 2 ^ 31
  room : bytes.length + pf.payload.length ≤ limits.maxReassemblyBytesPerSide.val

theorem Laid.ahead (h : Laid limits base bytes side) (hn : Next limits base bytes pf) :
    side.ahead pf.sequence = bytes.length := by
  rw [SideState.ahead, SideState.anchor]
  cases hset : side.seqSet with
  | true =>
    rw [if_pos rfl, h.set hset, hn.sequence]
    have hcancel : base + UInt32.ofNat bytes.length - base = UInt32.ofNat bytes.length := by
      rw [UInt32.add_comm, UInt32.add_sub_cancel]
    rw [hcancel, UInt32.toNat_ofNat']
    have := hn.near
    omega
  | false =>
    rw [if_neg (by simp), h.unset hset]
    simp

theorem Laid.reassemble (h : Laid limits base bytes side) (hn : Next limits base bytes pf) :
    Laid limits base (bytes ++ pf.payload) (reassemble limits side pf).1 := by
  have hahead := h.ahead hn
  have hnear := hn.near
  have hroom := hn.room
  have hsound := h.sound.reassemble pf
  rcases reassemble_fst limits side pf with ⟨hrej, _⟩ | ⟨_, heq⟩
  · rw [SideState.Rejects, hahead, if_pos hnear, h.payload] at hrej
    omega
  rw [SideState.opened, SideState.known, SideState.cell, hahead, if_pos hnear, if_pos hnear,
    if_pos hnear] at heq
  rw [heq] at hsound ⊢
  have hgap : pf.captureGap = 0 := by rw [PacketFeature.captureGap, hn.whole]; rfl
  have hanchor : (side.anchor pf.sequence).baseSeq = base := by
    rw [SideState.anchor]
    cases hset : side.seqSet with
    | true => exact h.set hset
    | false =>
      rw [if_neg (by simp)]
      have := hn.sequence
      rw [h.unset hset] at this
      simpa using this
  have hconflict : ((side.anchor pf.sequence).filling limits bytes.length pf.payload).conflict =
      false := by
    refine Bool.eq_false_iff.mpr fun hc => ?_
    have hbound : (side.anchor pf.sequence).window.length ≤ limits.maxReassemblyBytesPerSide.val := by
      rw [SideState.anchor_window]
      exact h.sound.bounded
    obtain ⟨k, v, x, _, hx, _⟩ := (SideState.conflict_filling hbound _ _).mp hc
    rw [SideState.anchor_window, h.get, List.getElem?_eq_none (by omega)] at hx
    simp at hx
  have hstop : (side.anchor pf.sequence).expectedEnd = bytes.length := by
    rw [SideState.anchor]
    split
    · exact h.stop
    · exact h.stop
  have hmarks : (side.anchor pf.sequence).limited = false ∧
      (side.anchor pf.sequence).context.truncated = false := by
    rw [SideState.anchor]
    split
    · exact ⟨h.limited, h.truncated⟩
    · exact ⟨h.limited, h.truncated⟩
  have hcut : ¬ limits.maxReassemblyBytesPerSide.val < bytes.length + pf.payload.length := by omega
  refine ⟨hsound, fun _ => hanchor, fun hset => ?_, fun j => ?_, ?_, ?_, ?_⟩
  · simp [SideState.write, SideState.anchor_seqSet] at hset
  · simp only [SideState.write]
    rw [SideState.get_filling, SideState.anchor_window, h.get]
    rcases Nat.lt_or_ge j bytes.length with hj | hj
    · rw [List.getElem?_append_left hj, List.getElem?_eq_getElem hj]
      rfl
    · rw [List.getElem?_append_right hj, List.getElem?_eq_none hj, Option.none_or]
      split
      · rfl
      · rw [List.getElem?_eq_none (by omega)]
  · simp only [SideState.write, hstop, hgap, List.length_append]
    omega
  · simp only [SideState.write, hmarks.1, hcut, hconflict, decide_false, Bool.or_false]
  · simp only [SideState.write, hmarks.2, hcut, decide_false, Bool.or_false]

/-- A side with other counters holds the same bytes. -/
theorem Laid.recount (h : Laid limits base bytes side) {seen : List (UInt32 × Nat)}
    {context : ExchangeMessageContext} (htrunc : context.truncated = false)
    (hinc : context.reassemblyIncomplete = side.context.reassemblyIncomplete) :
    Laid limits base bytes { side with seen := seen, context := context } :=
  ⟨⟨h.sound.unset, h.sound.bounded, h.sound.within, h.sound.payload_eq,
    hinc.trans h.sound.incomplete_eq⟩, h.set, h.unset, h.get, h.stop, h.limited, htrunc⟩

/-- A packet that comes next in order is counted and its bytes are added. -/
theorem Laid.appendSide (h : Laid limits base bytes side) (hn : Next limits base bytes pf)
    (hne : pf.payload ≠ []) (hroom : side.Room limits) (n : UInt64) :
    Laid limits base (bytes ++ pf.payload) (appendSide lib limits side pf n) ∧
      (appendSide lib limits side pf n).context.packetCount = side.context.packetCount + 1 ∧
      (appendSide lib limits side pf n).context.packets.length ≤ side.context.packets.length + 1 := by
  have hcount : Laid limits base bytes (side.count limits pf) :=
    h.recount (by simp [h.truncated, hn.whole]) rfl
  have hlaid := hcount.reassemble hn
  have hroom' : (side.count limits pf).Room limits := hroom
  obtain ⟨_, _, hcontext⟩ := reassemble_context limits (side.count limits pf) pf
  rw [Correlation.appendSide]
  dsimp only
  rw [if_neg hne]
  refine ⟨?_, ?_, ?_⟩
  · refine hlaid.recount ?_ rfl
    rw [hlaid.truncated]
    cases hstore : limits.storePacketIndex with
    | false => rfl
    | true =>
      have := (hroom'.reassemble pf) hstore
      simp [this]
  · simp only [SideState.index, hcontext]
    rfl
  · simp only [SideState.index, hcontext]
    split
    · rw [List.length_append]
      exact Nat.le_refl _
    · exact Nat.le_succ _

end

/-! ### Conversations -/

/-- A request, the events registered on it, and its response in segments. -/
structure Exchange where
  request : Arrival
  events : List ThreatEvent := []
  response : List Arrival

/-- A request, or the next segment of the response that is under way. -/
inductive Item where
  | ask (ex : Exchange)
  | answer

/-- A response that is not complete: the transaction of its request and the events there, the
    segments so far and those to come. -/
structure Outstanding where
  transactionID : String
  events : List ThreatEvent
  taken : List Arrival
  left : List Arrival

/-- A packet of a conversation: the tracker before it, the response it belongs to, and its
    observation. -/
structure Entry where
  tracker : Tracker
  packet : Arrival
  answers : Option Outstanding
  observation : Observation

def registerAll (order : Order) (t : Tracker) (obs : Observation) (events : List ThreatEvent) :
    Tracker :=
  events.foldl (fun t ev => (register order t obs ev).1) t

/-- The packets of a conversation in any interleaving: responses come in the order of their requests,
    one after the other. -/
def converse (lib : Lib) (limits : Limits) (order : Order) :
    Tracker → List Outstanding → List Item → List Entry
  | _, _, [] => []
  | t, queue, .ask ex :: items =>
    let a := ex.request
    let done := observe lib limits a.orders t a.pf a.seq
    ⟨t, a, none, done.2⟩ :: converse lib limits order (registerAll order done.1 done.2 ex.events)
      (queue ++ [⟨done.2.transactionID, ex.events, [], ex.response⟩]) items
  | t, ⟨id, events, taken, a :: left⟩ :: queue, .answer :: items =>
    let done := observe lib limits a.orders t a.pf a.seq
    ⟨t, a, some ⟨id, events, taken, a :: left⟩, done.2⟩ :: converse lib limits order done.1
      (if left = [] then queue else ⟨id, events, taken ++ [a], left⟩ :: queue) items
  -- no response is under way
  | t, queue, .answer :: items => converse lib limits order t queue items

/-- The reassembled bytes of some segments. -/
def bytes (segs : List Arrival) : Bytes := segs.flatMap (·.pf.payload)

/-- The response of an exchange is exactly these segments. -/
def Exactly (segs : List Arrival) (ex : Option ExchangeContext) : Prop :=
  ∃ r, ex.bind (·.response) = some r ∧ r.reassembledHex = hexText (bytes segs) ∧
    r.packetCount = segs.length

/-- A segment goes to the transaction of its request, after the segments before it; the last one
    revises the events of the request with the whole response. -/
structure Answers (o : Outstanding) (a : Arrival) (obs : Observation) : Prop where
  transaction : obs.transactionID = o.transactionID
  response : Exactly (o.taken ++ [a]) obs.exchange
  revised : o.left.length = 1 → ∀ ev ∈ o.events, ∃ u ∈ obs.updates, u.eventID = ev.eventID ∧
    u.contextFinal = true ∧ Exactly (o.taken ++ [a]) u.exchange

/-! ### One connection -/

/-- The ends of a connection. -/
structure Ends where
  clientIP : String
  clientPort : UInt16
  serverIP : String
  serverPort : UInt16

def Ends.client (ends : Ends) : String := endpoint ends.clientIP ends.clientPort

def Ends.server (ends : Ends) : String := endpoint ends.serverIP ends.serverPort

/-- A packet of the client that does not close the connection. -/
structure FromClient (ends : Ends) (pf : PacketFeature) : Prop where
  tcp : pf.proto = .tcp
  src : pf.srcIP = ends.clientIP ∧ pf.srcPort = ends.clientPort
  dst : pf.dstIP = ends.serverIP ∧ pf.dstPort = ends.serverPort
  stays : Closes pf = false

/-- A packet of the server that does not close the connection. -/
structure FromServer (ends : Ends) (pf : PacketFeature) : Prop where
  tcp : pf.proto = .tcp
  src : pf.srcIP = ends.serverIP ∧ pf.srcPort = ends.serverPort
  dst : pf.dstIP = ends.clientIP ∧ pf.dstPort = ends.clientPort
  stays : Closes pf = false

/-- The SYN and the SYN-ACK, labelled as the parser labels them. -/
structure Handshake (ends : Ends) (syn synAck : PacketFeature) : Prop where
  syn : FromClient ends syn ∧ Opens syn = true ∧ syn.messageDirection = .request
  synAck : FromServer ends synAck ∧ Opens synAck = false ∧ synAck.messageDirection = .response ∧
    synAck.payload = []

/-- Segments that follow one another in the number space from `base` on. -/
def Ordered (base : UInt32) (segs : List Arrival) : Prop :=
  ∀ taken a left, segs = taken ++ a :: left →
    a.pf.sequence = base + UInt32.ofNat (bytes taken).length

/-- A request in one segment, and a response in segments in order, captured whole and within the
    limits, which is complete with its last segment. -/
structure Exchange.Valid (lib : Lib) (limits : Limits) (ends : Ends) (ex : Exchange) : Prop where
  request : FromClient ends ex.request.pf ∧ Opens ex.request.pf = false ∧
    ex.request.pf.messageDirection = .request
  response : ∀ a ∈ ex.response, FromServer ends a.pf ∧ Opens a.pf = false ∧
    a.pf.messageDirection ≠ .request ∧ a.pf.payload ≠ [] ∧ a.pf.capturedShort = false
  ordered : ∃ base, Ordered base ex.response
  within : (bytes ex.response).length ≤ limits.maxReassemblyBytesPerSide.val ∧
    (bytes ex.response).length < 2 ^ 31
  indexed : limits.storePacketIndex = true →
    ex.response.length ≤ limits.maxPacketsPerTransaction.val
  complete : ex.response ≠ [] ∧ httpMessageComplete lib (bytes ex.response) true = true
  pending : ∀ taken left, ex.response = taken ++ left → taken ≠ [] → left ≠ [] →
    httpMessageComplete lib (bytes taken) true = false

/-- The session is not idle, no transaction but the first has waited too long, and when a response
    segment comes the first transaction, the handshake, is final. -/
structure Clear (lib : Lib) (limits : Limits) (e : Entry) : Prop where
  calm : ∀ st ∈ e.tracker.sessions,
    overdue limits e.packet.pf.packetTimeUsec { st with transactions := st.transactions.tail } = false
  handshake : e.answers.isSome → ∀ tx ∈
    (found lib limits e.packet.orders e.tracker e.packet.pf).1.transactions.head?, tx.final = true

instance (ends : Ends) (pf : PacketFeature) : Decidable (FromClient ends pf) :=
  decidable_of_iff (_ ∧ _ ∧ _ ∧ _)
    ⟨fun h => ⟨h.1, h.2.1, h.2.2.1, h.2.2.2⟩, fun h => ⟨h.tcp, h.src, h.dst, h.stays⟩⟩

instance (ends : Ends) (pf : PacketFeature) : Decidable (FromServer ends pf) :=
  decidable_of_iff (_ ∧ _ ∧ _ ∧ _)
    ⟨fun h => ⟨h.1, h.2.1, h.2.2.1, h.2.2.2⟩, fun h => ⟨h.tcp, h.src, h.dst, h.stays⟩⟩

instance (ends : Ends) (syn synAck : PacketFeature) : Decidable (Handshake ends syn synAck) :=
  decidable_of_iff (_ ∧ _) ⟨fun h => ⟨h.1, h.2⟩, fun h => ⟨h.syn, h.synAck⟩⟩

instance (lib : Lib) (limits : Limits) (e : Entry) : Decidable (Clear lib limits e) :=
  decidable_of_iff (_ ∧ _) ⟨fun h => ⟨h.1, h.2⟩, fun h => ⟨h.calm, h.handshake⟩⟩

section
variable {lib : Lib} {limits : Limits} {ends : Ends} {pf : PacketFeature}

theorem FromClient.source (h : FromClient ends pf) : endpoint pf.srcIP pf.srcPort = ends.client := by
  rw [h.src.1, h.src.2, Ends.client]

theorem FromServer.source (h : FromServer ends pf) : endpoint pf.srcIP pf.srcPort = ends.server := by
  rw [h.src.1, h.src.2, Ends.server]

/-- The key of a connection does not depend on the direction. -/
theorem canonicalKey_eq {pf' : PacketFeature} (h : FromClient ends pf) (h' : FromServer ends pf') :
    (canonicalKey pf').1 = (canonicalKey pf).1 := by
  refine canonicalKey_swap (h'.tcp.trans h.tcp.symm) ?_ ?_
  · rw [h'.src.1, h'.src.2, h.dst.1, h.dst.2]
  · rw [h'.dst.1, h'.dst.2, h.src.1, h.src.2]

theorem canonicalKey_client {pf' : PacketFeature} (h : FromClient ends pf)
    (h' : FromClient ends pf') : (canonicalKey pf').1 = (canonicalKey pf).1 := by
  rw [canonicalKey, canonicalKey]
  rw [h.src.1, h.src.2, h.dst.1, h.dst.2, h'.src.1, h'.src.2, h'.dst.1, h'.dst.2, h.tcp, h'.tcp]

end

/-! ### Packets of a row of transactions -/

section
variable {lib : Lib} {limits : Limits} {pf : PacketFeature} {st : SessionState}
  {front rest : List TransactionState} {tx : TransactionState}

theorem modify_middle (f : TransactionState → TransactionState) :
    (front ++ tx :: rest).modify front.length f = front ++ f tx :: rest := by
  induction front with
  | nil => rfl
  | cons a front ih => exact congrArg (a :: ·) ih

theorem getElem?_middle : (front ++ tx :: rest)[front.length]? = some tx := by
  rw [List.getElem?_append_right (Nat.le_refl _), Nat.sub_self]
  rfl

/-- A request gets a transaction at the end of the row. -/
theorem attach_ask (htcp : pf.proto = .tcp) (hdir : pf.messageDirection = .request)
    (hlen : st.transactions.length < limits.maxTransactionsPerSession.val) (n : UInt64) :
    attach lib limits st pf n = ({ st with
          client := endpoint pf.srcIP pf.srcPort
          nextTxn := st.nextTxn + 1
          transactions := st.transactions ++
            [appendRequest lib limits pf n (nextTransaction lib st pf.packetTimeUsec)] },
        some st.transactions.length) := by
  rw [attach]
  dsimp only
  rw [if_neg (not_not.mpr htcp), hdir]
  dsimp only
  simp only [newTransaction, makeSlot, if_neg (Nat.not_le.mpr hlen), SessionState.modify,
    modify_middle]
  rfl

theorem findIdx?_middle (hfront : ∀ x ∈ front, x.final = true) (hopen : tx.final = false) :
    (front ++ tx :: rest).findIdx? (!·.final) = some front.length := by
  refine List.findIdx?_eq_some_iff_getElem.mpr ⟨by simp, by simp [hopen], fun j hj => ?_⟩
  rw [List.getElem_append_left hj]
  simp [hfront _ (List.getElem_mem hj)]

/-- A segment of the server goes to the first open transaction. -/
theorem attach_answer (htcp : pf.proto = .tcp) (hdir : pf.messageDirection ≠ .request)
    (hne : pf.messageDirection = .none → pf.payload ≠ []) (hclient : st.client ≠ "")
    (hsource : endpoint pf.srcIP pf.srcPort ≠ st.client)
    (hrow : st.transactions = front ++ tx :: rest) (hfront : ∀ x ∈ front, x.final = true)
    (hopen : tx.final = false) (n : UInt64) :
    attach lib limits st pf n =
      ({ st with transactions := front ++ appendResponse lib limits pf n tx :: rest },
        some front.length) := by
  have hidx : (front ++ tx :: rest).findIdx? (!·.final) = some front.length :=
    findIdx?_middle hfront hopen
  rw [attach]
  dsimp only
  rw [if_neg (not_not.mpr htcp)]
  cases hlabel : pf.messageDirection with
  | request => exact absurd hlabel hdir
  | response =>
    dsimp only
    rw [if_neg hclient, responseTransaction, hrow, hidx]
    dsimp only [SessionState.modify]
    rw [hrow, modify_middle]
  | none =>
    dsimp only
    rw [if_neg (hne hlabel), continuationTransaction, if_neg fun h => hsource h.2, hrow, hidx]
    dsimp only [SessionState.modify]
    rw [if_neg fun h => hsource h.2.1, hrow, modify_middle]

/-- The transaction of the packet is revised where it is. -/
theorem settle_middle (hstays : Closes pf = false) (hrow : st.transactions = front ++ tx :: rest) :
    settle lib limits st (some front.length) pf = ({ st with transactions := front ++
          (reviseTransaction lib limits st { tx with lastUsec := pf.packetTimeUsec }).1 :: rest },
        (reviseTransaction lib limits st { tx with lastUsec := pf.packetTimeUsec }).2) := by
  rw [settle, if_neg (by simpa [Closes] using hstays), Option.bind_some, hrow, getElem?_middle]
  dsimp only [Option.map, SessionState.modify]
  rw [hrow, modify_middle]

theorem reviseTransaction_silent (h : tx.events = []) :
    reviseTransaction lib limits st tx = (tx, []) := by
  rw [reviseTransaction]
  simp [h]

/-- The transaction of a request, right after it. -/
def askedBy (lib : Lib) (limits : Limits) (st : SessionState) (pf : PacketFeature) (n : UInt64) :
    TransactionState :=
  appendRequest lib limits pf n (nextTransaction lib st pf.packetTimeUsec)

/-- The session after a request. -/
theorem settle_ask (htcp : pf.proto = .tcp) (hdir : pf.messageDirection = .request)
    (hstays : Closes pf = false)
    (hlen : st.transactions.length < limits.maxTransactionsPerSession.val) (n : UInt64) :
    (attach lib limits st pf n).2 = some st.transactions.length ∧
      (settle lib limits (attach lib limits st pf n).1 (attach lib limits st pf n).2 pf).1 =
        { st with
          client := endpoint pf.srcIP pf.srcPort
          nextTxn := st.nextTxn + 1
          transactions := st.transactions ++ [askedBy lib limits st pf n] } := by
  have hattach := @attach_ask lib limits pf st htcp hdir hlen n
  rw [hattach]
  refine ⟨rfl, ?_⟩
  dsimp only
  rw [settle_middle hstays rfl, reviseTransaction_silent rfl]
  rfl

/-- The session a response segment leaves before its transaction is revised. -/
def answering (lib : Lib) (limits : Limits) (st : SessionState) (pf : PacketFeature) (n : UInt64)
    (front : List TransactionState) (tx : TransactionState) (rest : List TransactionState) :
    SessionState :=
  { st with transactions := front ++ appendResponse lib limits pf n tx :: rest }

/-- The transaction of a response segment, before it is revised. -/
def answeredBy (lib : Lib) (limits : Limits) (pf : PacketFeature) (n : UInt64)
    (tx : TransactionState) : TransactionState :=
  { appendResponse lib limits pf n tx with lastUsec := pf.packetTimeUsec }

/-- The session after a response segment, and the revisions. -/
theorem settle_answer (htcp : pf.proto = .tcp) (hdir : pf.messageDirection ≠ .request)
    (hstays : Closes pf = false) (hne : pf.messageDirection = .none → pf.payload ≠ [])
    (hclient : st.client ≠ "") (hsource : endpoint pf.srcIP pf.srcPort ≠ st.client)
    (hrow : st.transactions = front ++ tx :: rest) (hfront : ∀ x ∈ front, x.final = true)
    (hopen : tx.final = false) (n : UInt64) :
    (attach lib limits st pf n).2 = some front.length ∧
      settle lib limits (attach lib limits st pf n).1 (attach lib limits st pf n).2 pf =
        ({ st with transactions := front ++
            (reviseTransaction lib limits (answering lib limits st pf n front tx rest)
              (answeredBy lib limits pf n tx)).1 :: rest },
          (reviseTransaction lib limits (answering lib limits st pf n front tx rest)
            (answeredBy lib limits pf n tx)).2) := by
  have hattach := @attach_answer lib limits pf st front rest tx htcp hdir hne hclient hsource hrow
    hfront hopen n
  rw [hattach]
  refine ⟨rfl, ?_⟩
  dsimp only
  rw [settle_middle hstays rfl]
  rfl

end

/-! ### Packets of the only session -/

section
variable {lib : Lib} {limits : Limits} {ends : Ends} {pf : PacketFeature} {t : Tracker}
  {st : SessionState} {head : TransactionState} {row : List TransactionState}

/-- A cleanup that finds nothing but the first transaction overdue can make that one final. -/
theorem cleanup_single (ht : t.sessions = [st]) (hrow : st.transactions = head :: row)
    {now : UInt64} (hcalm : overdue limits now { st with transactions := row } = false)
    (order : Order) :
    ∃ head', (cleanupLocked lib limits order t now).1.sessions =
        [{ st with transactions := head' :: row }] ∧
      head'.id = head.id ∧ (head.final = true → head'.final = true) := by
  have hsame : [{ st with transactions := head :: row }] = t.sessions := by rw [ht, ← hrow]
  rw [cleanupLocked]
  split
  · exact ⟨head, hsame.symm, rfl, fun h => h⟩
  · split
    · exact ⟨head, hsame.symm, rfl, fun h => h⟩
    · obtain ⟨hidle, hwait⟩ := Bool.or_eq_false_iff.mp hcalm
      have hexpire : row.map (expireTransaction lib limits now st) = row.map fun tx => (tx, []) := by
        refine List.map_congr_left fun tx htx => ?_
        have hnot := List.any_eq_false.mp hwait tx htx
        rw [decide_eq_true_eq] at hnot
        rw [expireTransaction, if_neg hnot]
      have hvisit : order.visit t.sessions = [st] := by
        have := order.perm t.sessions
        rw [ht] at this ⊢
        exact List.perm_singleton.mp this
      obtain ⟨hid, hfinal⟩ := @expireTransaction_each lib limits st now head
      refine ⟨(expireTransaction lib limits now st head).1, ?_, hid, hfinal⟩
      rw [hvisit]
      simp only [List.map_cons, List.map_nil, sweep, hrow, hexpire, List.filterMap_cons,
        List.filterMap_nil]
      rw [if_neg (of_decide_eq_false hidle)]
      simp [Function.comp_def]

/-- The session as the packet finds it. -/
theorem found_single (ht : t.sessions = [st]) (hrow : st.transactions = head :: row)
    (hcalm : overdue limits pf.packetTimeUsec { st with transactions := row } = false)
    (hkey : st.key = (canonicalKey pf).1) (hopens : Opens pf = false) (orders : Orders) :
    ∃ head', (found lib limits orders t pf).1 = { st with transactions := head' :: row } ∧
      (found lib limits orders t pf).2.1 = [] ∧ head'.id = head.id ∧
      (head.final = true → head'.final = true) := by
  obtain ⟨head', hclean, hid, hfinal⟩ := @cleanup_single lib limits t st head row ht hrow
    pf.packetTimeUsec hcalm orders.cleanup
  refine ⟨head', ?_, ?_, hid, hfinal⟩
  all_goals
    rw [found, hclean, locate]
    simp [hkey, hopens]

/-- What an `Observe` of the only session comes to. -/
theorem observe_single {orders : Orders} {n : UInt64} {st' : SessionState}
    {updates : List ThreatEvent} {i : Nat} {tx : TransactionState}
    (hothers : (found lib limits orders t pf).2.1 = [])
    (hattach : (attach lib limits (tally (found lib limits orders t pf).1 pf).1 pf n).2 = some i)
    (hsettle : observed lib limits orders t pf n = (st', updates))
    (htx : st'.transactions[i]? = some tx) :
    (observe lib limits orders t pf n).1.sessions = [st'] ∧
      (observe lib limits orders t pf n).2.sessionID = st'.id ∧
      (observe lib limits orders t pf n).2.transactionID = tx.id ∧
      (observe lib limits orders t pf n).2.exchange = some (exchange lib tx) ∧
      ∀ u ∈ updates, u ∈ (observe lib limits orders t pf n).2.updates := by
  have hchosen : chosen lib limits orders t pf n = some tx := by
    rw [chosen, hattach, hsettle]
    exact htx
  obtain ⟨hsid, htid, _⟩ := @observe_names lib limits orders t pf n
  have hexchange : (observe lib limits orders t pf n).2.exchange =
      (chosen lib limits orders t pf n).map (exchange lib) := rfl
  refine ⟨?_, ?_, ?_, ?_, fun u hu => ?_⟩
  · rw [observe_sessions, hothers, hsettle]
  · rw [hsid, hsettle]
  · rw [htid, hchosen]
    rfl
  · rw [hexchange, hchosen]
    rfl
  · rw [observe_updates, hsettle]
    exact List.mem_append_right _ hu

/-- A request of the client opens a transaction at the end of the row. -/
theorem observe_ask (ht : t.sessions = [st]) (hrow : st.transactions = head :: row)
    (hcalm : overdue limits pf.packetTimeUsec { st with transactions := row } = false)
    (hkey : st.key = (canonicalKey pf).1) (hpf : FromClient ends pf) (hopens : Opens pf = false)
    (hdir : pf.messageDirection = .request)
    (hlen : row.length + 1 < limits.maxTransactionsPerSession.val) (orders : Orders) (n : UInt64) :
    ∃ st' head' tx, (observe lib limits orders t pf n).1.sessions = [st'] ∧
      (observe lib limits orders t pf n).2.sessionID = st'.id ∧
      (observe lib limits orders t pf n).2.transactionID = tx.id ∧ st'.key = st.key ∧
      st'.client = ends.client ∧ st'.transactions = head' :: (row ++ [tx]) ∧
      tx.final = false ∧ tx.response = ({} : SideState) := by
  obtain ⟨head', hfound, hothers, _, _⟩ :=
    @found_single lib limits pf t st head row ht hrow hcalm hkey hopens orders
  have hkept := tally_kept (found lib limits orders t pf).1 pf
  rw [hfound] at hkept
  have hrow' : (tally (found lib limits orders t pf).1 pf).1.transactions = head' :: row := by
    rw [hfound, hkept.transactions]
  have hlen' : (tally (found lib limits orders t pf).1 pf).1.transactions.length <
      limits.maxTransactionsPerSession.val := by
    rw [hrow']
    exact hlen
  obtain ⟨hattach, hsettle⟩ := @settle_ask lib limits pf _ hpf.tcp hdir hpf.stays hlen' n
  let tx := askedBy lib limits (tally (found lib limits orders t pf).1 pf).1 pf n
  obtain ⟨hsessions, hsid, htid, _, _⟩ := observe_single hothers hattach
    (Prod.ext hsettle rfl : observed lib limits orders t pf n = (_, _)) getElem?_middle
  refine ⟨_, head', tx, hsessions, hsid, htid, ?_, hpf.source,
    congrArg (fun l => l ++ [tx]) hrow', rfl, rfl⟩
  rw [hfound]
  exact hkept.key

/-- A response segment of the server goes to the first open transaction behind the handshake. -/
theorem observe_answer {done rest : List TransactionState} {tx : TransactionState}
    (ht : t.sessions = [st]) (hrow : st.transactions = head :: (done ++ tx :: rest))
    (hcalm : overdue limits pf.packetTimeUsec
      { st with transactions := done ++ tx :: rest } = false)
    (hkey : st.key = (canonicalKey pf).1) (hclient : st.client = ends.client)
    (hends : ends.client ≠ ends.server) (hpf : FromServer ends pf) (hopens : Opens pf = false)
    (hdir : pf.messageDirection ≠ .request) (hne : pf.payload ≠ []) (orders : Orders) (n : UInt64)
    (hhead : ∀ x ∈ (found lib limits orders t pf).1.transactions.head?, x.final = true)
    (hdone : ∀ x ∈ done, x.final = true) (hopen : tx.final = false) :
    ∃ st' head' before, (observe lib limits orders t pf n).1.sessions = [st'] ∧
      st'.key = st.key ∧ st'.client = ends.client ∧
      st'.transactions = head' :: (done ++
        (reviseTransaction lib limits before (answeredBy lib limits pf n tx)).1 :: rest) ∧
      (observe lib limits orders t pf n).2.transactionID = tx.id ∧
      (observe lib limits orders t pf n).2.exchange = some (exchange lib
        (reviseTransaction lib limits before (answeredBy lib limits pf n tx)).1) ∧
      ∀ u ∈ (reviseTransaction lib limits before (answeredBy lib limits pf n tx)).2,
        u ∈ (observe lib limits orders t pf n).2.updates := by
  obtain ⟨head', hfound, hothers, _, _⟩ :=
    @found_single lib limits pf t st head (done ++ tx :: rest) ht hrow hcalm hkey hopens orders
  have hfinal : head'.final = true := by
    rw [hfound] at hhead
    exact hhead head' rfl
  have hkept := tally_kept (found lib limits orders t pf).1 pf
  have hcl := tally_client (found lib limits orders t pf).1 pf
  rw [hfound] at hkept hcl
  have hrow' : (tally (found lib limits orders t pf).1 pf).1.transactions =
      (head' :: done) ++ tx :: rest := by
    rw [hfound, hkept.transactions]
    rfl
  have hclient' : (tally (found lib limits orders t pf).1 pf).1.client = ends.client := by
    rw [hfound, hcl]
    exact hclient
  have hfront : ∀ x ∈ head' :: done, x.final = true := by
    intro x hx
    rcases List.mem_cons.mp hx with rfl | hx
    · exact hfinal
    · exact hdone x hx
  obtain ⟨hattach, hsettle⟩ := @settle_answer lib limits pf
    (tally (found lib limits orders t pf).1 pf).1 (head' :: done) rest tx hpf.tcp
      hdir hpf.stays (fun _ => hne)
    (by rw [hclient']; exact endpoint_ne_empty _ _)
    (by rw [hclient', hpf.source]; exact hends.symm) hrow' hfront hopen n
  obtain ⟨hsessions, _, htid, hex, hup⟩ := observe_single hothers hattach hsettle getElem?_middle
  refine ⟨_, head', _, hsessions, ?_, hclient', rfl, htid.trans reviseTransaction_id, hex, hup⟩
  rw [hfound]
  exact hkept.key

end

/-! ### Events on a request -/

variable {events : List ThreatEvent}

section
variable {lib : Lib} {limits : Limits} {t : Tracker} {st : SessionState} {obs : Observation}
  {front : List TransactionState} {tx : TransactionState}

/-- A transaction that holds events with the ids of these. -/
def Holding (tx : TransactionState) (events : List ThreatEvent) : Prop :=
  ∀ ev ∈ events, ∃ held ∈ tx.events, held.eventID = ev.eventID

theorem mem_putEvent (ev : ThreatEvent) : ∀ events : List ThreatEvent, ev ∈ putEvent ev events
  | [] => List.mem_singleton_self ev
  | d :: events => by
    rw [putEvent]
    split
    · exact List.mem_cons_self
    · split
      · exact List.mem_cons_self
      · exact List.mem_cons_of_mem _ (mem_putEvent ev events)

theorem putEvent_keeps (ev : ThreatEvent) {x : ThreatEvent} (hx : x ∈ events) :
    ∃ held ∈ putEvent ev events, held.eventID = x.eventID := by
  induction events with
  | nil => exact (List.not_mem_nil hx).elim
  | cons d events ih =>
    rw [putEvent]
    split
    · exact ⟨x, List.mem_cons_of_mem _ hx, rfl⟩
    · split
      · rename_i heq
        rcases List.mem_cons.mp hx with rfl | hrest
        · exact ⟨ev, List.mem_cons_self, heq⟩
        · exact ⟨x, List.mem_cons_of_mem _ hrest, rfl⟩
      · rcases List.mem_cons.mp hx with rfl | hrest
        · exact ⟨x, List.mem_cons_self, rfl⟩
        · obtain ⟨held, hheld, hid⟩ := ih hrest
          exact ⟨held, List.mem_cons_of_mem _ hheld, hid⟩

/-- `Register` with the observation of the last transaction puts the event there. -/
theorem register_last (hfree : lib.CollisionFree) (ht : t.sessions = [st]) (hn : Named lib st)
    (hrow : st.transactions = front ++ [tx]) (hsid : obs.sessionID = st.id)
    (htid : obs.transactionID = tx.id) (order : Order) (ev : ThreatEvent) :
    ∃ st' tx', (register order t obs ev).1.sessions = [st'] ∧ st'.key = st.key ∧ st'.id = st.id ∧
      st'.client = st.client ∧ Named lib st' ∧ st'.transactions = front ++ [tx'] ∧
      tx'.id = tx.id ∧ tx'.final = tx.final ∧ tx'.response = tx.response ∧ Holding tx' [ev] ∧
      Holding tx' tx.events := by
  have hst : st ∈ t.sessions := by rw [ht]; exact List.mem_singleton_self st
  have htx : tx ∈ st.transactions := by rw [hrow]; simp
  have hr := register_spec order t obs ev
  obtain ⟨hevent, _⟩ := register_event order t obs ev
  generalize hev : (register order t obs ev).2 = ev' at hr hevent
  have hall : ∀ st' ∈ (register order t obs ev).1.sessions, Named lib st' := by
    intro st' hst'
    obtain ⟨st₀, hst₀, hf⟩ := @Registers.follows lib _ _ _ _ _ hr hst'
    rw [ht] at hst₀
    exact hf.named hfree (List.mem_singleton.mp hst₀ ▸ hn)
  cases hr with
  | nothing none _ => exact absurd hsid.symm (none st hst)
  | hit st₁ here _ none _ =>
    rw [ht] at here
    obtain rfl := List.mem_singleton.mp here
    rcases none with hempty | hmissing
    · obtain ⟨k, _, hk⟩ := hn.numbered tx htx
      exact absurd (hk.symm.trans (htid.symm.trans hempty)) (txnID_ne_empty _ _ _)
    · exact absurd htid.symm (hmissing tx htx)
  | stored st₁ here _ i tx₁ htx₁ txid _ changed =>
    rw [ht] at here
    obtain rfl := List.mem_singleton.mp here
    -- the ids of a session are distinct, so it is the last one
    have hi : i = front.length := by
      obtain ⟨hlt, _⟩ := List.getElem?_eq_some_iff.mp htx₁
      refine (List.getElem?_inj (by rw [List.length_map]; exact hlt) hn.distinct).mp ?_
      rw [List.getElem?_map, List.getElem?_map, htx₁, hrow, getElem?_middle, Option.map_some,
        Option.map_some, txid, htid]
    let put : TransactionState := { tx with events := putEvent ev' tx.events }
    have hput : (putOn st₁ i ev').transactions = front ++ [put] := by
      rw [putOn, SessionState.modify]
      dsimp only
      rw [hrow, hi, modify_middle]
    have hsessions : (register order t obs ev).1.sessions = [putOn st₁ i ev'] := by
      rw [changed, ht]
      simp
    refine ⟨putOn st₁ i ev', put, hsessions, rfl, rfl, rfl, hall _ (by rw [hsessions]; simp), hput,
      rfl, rfl, rfl, ?_, ?_⟩
    · intro x hx
      rw [List.mem_singleton.mp hx]
      exact ⟨ev', mem_putEvent ev' _, hevent⟩
    · exact fun x hx => putEvent_keeps ev' hx

theorem registerAll_last (hfree : lib.CollisionFree) (order : Order) :
    ∀ {events : List ThreatEvent} {t : Tracker} {st : SessionState} {tx : TransactionState},
      t.sessions = [st] → Named lib st → st.transactions = front ++ [tx] →
      obs.sessionID = st.id → obs.transactionID = tx.id →
      ∃ st' tx', (registerAll order t obs events).sessions = [st'] ∧ st'.key = st.key ∧
        st'.client = st.client ∧ Named lib st' ∧ st'.transactions = front ++ [tx'] ∧
        tx'.id = tx.id ∧ tx'.final = tx.final ∧ tx'.response = tx.response ∧
        Holding tx' events ∧ Holding tx' tx.events
  | [], t, st, tx, ht, hn, hrow, _, _ =>
    ⟨st, tx, ht, rfl, rfl, hn, hrow, rfl, rfl, rfl, fun _ h => (List.not_mem_nil h).elim,
      fun x hx => ⟨x, hx, rfl⟩⟩
  | ev :: events, t, st, tx, ht, hn, hrow, hsid, htid => by
    obtain ⟨st₁, tx₁, ht₁, hkey₁, hid₁, hclient₁, hn₁, hrow₁, htxid₁, hfin₁, hresp₁, hev₁, hold₁⟩ :=
      register_last hfree ht hn hrow hsid htid order ev
    obtain ⟨st₂, tx₂, ht₂, hkey₂, hclient₂, hn₂, hrow₂, htxid₂, hfin₂, hresp₂, hev₂, hold₂⟩ :=
      @registerAll_last hfree order events _ st₁ tx₁ ht₁ hn₁ hrow₁ (hsid.trans hid₁.symm)
        (htid.trans htxid₁.symm)
    have hthrough : ∀ evs, Holding tx₁ evs → Holding tx₂ evs := by
      intro evs h x hx
      obtain ⟨held, hheld, hid⟩ := h x hx
      obtain ⟨held', hheld', hid'⟩ := hold₂ held hheld
      exact ⟨held', hheld', hid'.trans hid⟩
    refine ⟨st₂, tx₂, ht₂, hkey₂.trans hkey₁, hclient₂.trans hclient₁, hn₂, hrow₂,
      htxid₂.trans htxid₁, hfin₂.trans hfin₁, hresp₂.trans hresp₁, fun x hx => ?_, hthrough _ hold₁⟩
    rcases List.mem_cons.mp hx with rfl | hrest
    · exact hthrough _ hev₁ x (List.mem_singleton_self x)
    · exact hev₂ x hrest

/-- A revision keeps the events of a transaction. -/
theorem reviseTransaction_holding (tx : TransactionState) :
    Holding (reviseTransaction lib limits st tx).1 tx.events := by
  rw [reviseTransaction]
  split
  · exact fun x hx => ⟨x, hx, rfl⟩
  · split
    · exact fun x hx => ⟨x, hx, rfl⟩
    · exact fun x hx => ⟨_, List.mem_map_of_mem hx, (reviseEvent_revises _ _ _).eventID x⟩

/-- The revision of a final transaction has every event with the exchange as it is. -/
theorem reviseTransaction_emits {tx : TransactionState} (hfinal : tx.final = true)
    {x : ThreatEvent} (hx : x ∈ tx.events) :
    ∃ u ∈ (reviseTransaction lib limits st tx).2, u.eventID = x.eventID ∧ u.contextFinal = true ∧
      u.exchange = some (exchange lib tx) := by
  have hrev := reviseEvent_revises (exchange lib tx) (summary st) tx.final
  rw [reviseTransaction]
  dsimp only
  rw [if_neg (List.ne_nil_of_mem hx), if_neg (by simp [hfinal])]
  exact ⟨_, List.mem_map_of_mem hx, hrev.eventID x, (hrev.contextFinal x).trans hfinal,
    exchange_reviseEvent _ _ _ _⟩

end

/-! ### The row of a conversation -/

/-- An open transaction and the response it waits for. -/
structure Waits (lib : Lib) (limits : Limits) (ends : Ends) (tx : TransactionState)
    (o : Outstanding) : Prop where
  id : tx.id = o.transactionID
  isOpen : tx.final = false
  events : Holding tx o.events
  left : o.left ≠ []
  response : ∃ (ex : Exchange) (base : UInt32), ex.Valid lib limits ends ∧
    ex.response = o.taken ++ o.left ∧ Ordered base ex.response ∧
    Laid limits base (bytes o.taken) tx.response
  count : tx.response.context.packetCount = o.taken.length
  index : tx.response.context.packets.length ≤ o.taken.length

/-- The transactions of a conversation: the handshake, those whose response is complete, and those
    that wait for the responses of the queue. -/
structure Row (lib : Lib) (limits : Limits) (ends : Ends) (key : String) (st : SessionState)
    (head : TransactionState) (done opens : List TransactionState) (queue : List Outstanding) :
    Prop where
  key : st.key = key
  client : st.client = ends.client
  named : Named lib st
  row : st.transactions = head :: (done ++ opens)
  done : ∀ tx ∈ done, tx.final = true
  opens : List.Forall₂ (Waits lib limits ends) opens queue

section
variable {lib : Lib} {limits : Limits} {ends : Ends} {key : String} {t : Tracker}
  {st : SessionState} {head tx : TransactionState} {done opens rest : List TransactionState}
  {queue : List Outstanding} {o : Outstanding} {a : Arrival} {left : List Arrival}

theorem bytes_append (segs segs' : List Arrival) : bytes (segs ++ segs') = bytes segs ++ bytes segs' :=
  List.flatMap_append ..

theorem bytes_snoc (segs : List Arrival) (a : Arrival) :
    bytes (segs ++ [a]) = bytes segs ++ a.pf.payload := by
  rw [bytes_append]
  simp [bytes]

/-- The next segment of a response that a transaction waits for. -/
theorem Waits.laid (h : Waits lib limits ends tx o) (hleft : o.left = a :: left) :
    ∃ (ex : Exchange) (base : UInt32), ex.Valid lib limits ends ∧
      ex.response = o.taken ++ [a] ++ left ∧ Ordered base ex.response ∧
      Laid limits base (bytes (o.taken ++ [a])) (appendSide lib limits tx.response a.pf a.seq) ∧
      (appendSide lib limits tx.response a.pf a.seq).context.packetCount = o.taken.length + 1 ∧
      (appendSide lib limits tx.response a.pf a.seq).context.packets.length ≤ o.taken.length + 1 := by
  obtain ⟨ex, base, hvalid, hresp, hordered, hlaid⟩ := h.response
  rw [hleft] at hresp
  have hbytes : (bytes ex.response).length =
      (bytes o.taken).length + (a.pf.payload.length + (bytes left).length) := by
    rw [hresp, bytes_append, List.length_append]
    simp [bytes]
  have hmem : a ∈ ex.response := by rw [hresp]; simp
  obtain ⟨_, _, _, hne, hwhole⟩ := hvalid.response a hmem
  obtain ⟨hmax, hnear⟩ := hvalid.within
  have hnext : Next limits base (bytes o.taken) a.pf :=
    ⟨hordered _ _ _ hresp, hwhole, by omega, by omega⟩
  have hroom : tx.response.Room limits := by
    intro hstore
    have hlen := hvalid.indexed hstore
    have hindex := h.index
    rw [hresp, List.length_append, List.length_cons] at hlen
    omega
  obtain ⟨hlaid', hcount, hpackets⟩ := @Laid.appendSide lib limits base _ _ a.pf hlaid hnext hne
    hroom a.seq
  have hindex := h.index
  refine ⟨ex, base, hvalid, by rw [hresp]; simp, hordered, by rw [bytes_snoc]; exact hlaid', ?_, ?_⟩
  · rw [hcount, h.count]
  · omega

/-- The exchange of a transaction whose response side holds exactly these segments. -/
theorem exactly_exchange {segs : List Arrival} {base : UInt32}
    (hlaid : Laid limits base (bytes segs) tx.response)
    (hcount : tx.response.context.packetCount = segs.length) (hne : segs ≠ []) :
    Exactly segs (some (exchange lib tx)) := by
  have hpos : tx.response.context.packetCount > 0 := by
    rw [hcount]
    exact List.length_pos_iff.mpr hne
  rw [Exactly, exchange]
  dsimp only
  rw [if_pos hpos]
  exact ⟨_, rfl, congrArg hexText hlaid.payload, hcount⟩

/-- What a response segment does to the transaction that waits for it. -/
theorem Waits.answer (h : Waits lib limits ends tx o) (hleft : o.left = a :: left)
    (before : SessionState) {obs : Observation} (hid : obs.transactionID = tx.id)
    (hex : obs.exchange = some (exchange lib
      (reviseTransaction lib limits before (answeredBy lib limits a.pf a.seq tx)).1))
    (hup : ∀ u ∈ (reviseTransaction lib limits before (answeredBy lib limits a.pf a.seq tx)).2,
      u ∈ obs.updates) :
    Answers o a obs ∧
      if left = [] then
        (reviseTransaction lib limits before (answeredBy lib limits a.pf a.seq tx)).1.final = true
      else
        Waits lib limits ends
          (reviseTransaction lib limits before (answeredBy lib limits a.pf a.seq tx)).1
          { o with taken := o.taken ++ [a], left := left } := by
  obtain ⟨ex, base, hvalid, hresp, hordered, hlaid, hcount, hindex⟩ := h.laid hleft
  obtain ⟨_, hside⟩ := @reviseTransaction_sides lib limits before
    (answeredBy lib limits a.pf a.seq tx)
  have hsideOf : (answeredBy lib limits a.pf a.seq tx).response =
      appendSide lib limits tx.response a.pf a.seq := rfl
  have hfinal : (answeredBy lib limits a.pf a.seq tx).final =
      httpMessageComplete lib (bytes (o.taken ++ [a])) true := by
    rw [answeredBy, appendResponse]
    dsimp only
    rw [h.isOpen, Bool.false_or, hlaid.responseComplete]
  have hheld : Holding (answeredBy lib limits a.pf a.seq tx) o.events := h.events
  have hlen : (o.taken ++ [a]).length = o.taken.length + 1 := by simp
  have hne : o.taken ++ [a] ≠ [] := by simp
  refine ⟨⟨hid.trans h.id, ?_, fun hone ev hev => ?_⟩, ?_⟩
  · rw [hex]
    exact exactly_exchange (by rw [hside, hsideOf]; exact hlaid)
      (by rw [hside, hsideOf, hcount, hlen]) hne
  · -- the last segment completes the response, and the transaction is revised as final
    have hnil : left = [] := by
      rw [hleft, List.length_cons] at hone
      exact List.eq_nil_of_length_eq_zero (by omega)
    rw [hnil, List.append_nil] at hresp
    rw [← hresp, hvalid.complete.2] at hfinal
    obtain ⟨held, hmem, hheldID⟩ := hheld ev hev
    obtain ⟨u, hu, huID, hufinal, huex⟩ := @reviseTransaction_emits lib limits before _ hfinal held hmem
    refine ⟨u, hup u hu, huID.trans hheldID, hufinal, ?_⟩
    rw [huex]
    exact exactly_exchange (by rw [hsideOf]; exact hlaid) (by rw [hsideOf, hcount, hlen]) hne
  · split
    · rename_i hnil
      rw [hnil, List.append_nil] at hresp
      rw [reviseTransaction_final, hfinal, ← hresp]
      exact hvalid.complete.2
    · rename_i hmore
      refine ⟨reviseTransaction_id.trans h.id, ?_, ?_, hmore, ?_, ?_, ?_⟩
      · rw [reviseTransaction_final, hfinal]
        exact hvalid.pending _ _ hresp hne hmore
      · intro ev hev
        obtain ⟨held, hmem, hheldID⟩ := hheld ev hev
        obtain ⟨held', hmem', hheldID'⟩ := reviseTransaction_holding _ held hmem
        exact ⟨held', hmem', hheldID'.trans hheldID⟩
      · exact ⟨ex, base, hvalid, hresp, hordered, by rw [hside, hsideOf]; exact hlaid⟩
      · rw [hside, hsideOf, hcount, hlen]
      · rw [hside, hsideOf, hlen]
        exact hindex

/-! ### Whole conversations -/

/-- The number of requests. -/
def asks : List Item → Nat
  | [] => 0
  | .ask _ :: items => asks items + 1
  | .answer :: items => asks items

theorem keyed_single (ht : t.sessions = [st]) : Keyed t.sessions := by
  rw [ht]
  exact List.nodup_singleton _

theorem named_single (ht : t.sessions = [st]) (hn : Named lib st) :
    ∀ x ∈ t.sessions, Named lib x := by
  rw [ht]
  intro x hx
  rw [List.mem_singleton.mp hx]
  exact hn

/-- A request adds a transaction that waits to the row. -/
theorem Row.ask (hfree : lib.CollisionFree) (hrow : Row lib limits ends key st head done opens queue)
    (ht : t.sessions = [st]) {ex : Exchange} (hvalid : ex.Valid lib limits ends)
    (hkey : key = (canonicalKey ex.request.pf).1)
    (hcalm : overdue limits ex.request.pf.packetTimeUsec
      { st with transactions := done ++ opens } = false)
    (hlen : (done ++ opens).length + 1 < limits.maxTransactionsPerSession.val) (order : Order) :
    ∃ st' head' tx,
      let result := observe lib limits ex.request.orders t ex.request.pf ex.request.seq
      (registerAll order result.1 result.2 ex.events).sessions = [st'] ∧
        Row lib limits ends key st' head' done (opens ++ [tx])
          (queue ++ [⟨result.2.transactionID, ex.events, [], ex.response⟩]) := by
  obtain ⟨hpf, hopens, hdir⟩ := hvalid.request
  obtain ⟨st₁, head', tx₁, hs₁, hsid, htid, hkey₁, hclient₁, hrow₁, hopen₁, hresp₁⟩ :=
    @observe_ask lib limits ends ex.request.pf t st head (done ++ opens) ht hrow.row hcalm
      (hrow.key.trans hkey) hpf hopens hdir hlen ex.request.orders ex.request.seq
  have hn₁ : Named lib st₁ := by
    refine @observe_named lib limits hfree ex.request.orders t (keyed_single ht)
      (named_single ht hrow.named) ex.request.pf ex.request.seq st₁ ?_
    rw [hs₁]
    exact List.mem_singleton_self st₁
  obtain ⟨st₂, tx₂, hs₂, hkey₂, hclient₂, hn₂, hrow₂, hid₂, hopen₂, hresp₂, hheld₂, _⟩ :=
    @registerAll_last lib _ (head' :: (done ++ opens)) hfree order ex.events _ st₁ tx₁ hs₁ hn₁ hrow₁
      hsid htid
  obtain ⟨base, hordered⟩ := hvalid.ordered
  refine ⟨st₂, head', tx₂, hs₂, hkey₂.trans (hkey₁.trans hrow.key), hclient₂.trans hclient₁, hn₂, ?_,
    hrow.done, ?_⟩
  · rw [hrow₂, List.cons_append, List.append_assoc]
  · refine List.rel_append hrow.opens (.cons ⟨?_, ?_, hheld₂, hvalid.complete.1, ?_, ?_, ?_⟩ .nil)
    · exact hid₂.trans htid.symm
    · exact hopen₂.trans hopen₁
    · refine ⟨ex, base, hvalid, rfl, hordered, ?_⟩
      rw [hresp₂, hresp₁]
      exact laid_new limits base
    · rw [hresp₂, hresp₁]
      rfl
    · rw [hresp₂, hresp₁]
      exact Nat.le_refl 0

/-- A response segment goes to the first transaction that waits. -/
theorem Row.answer (hfree : lib.CollisionFree) (hends : ends.client ≠ ends.server)
    (hrow : Row lib limits ends key st head done opens (o :: queue)) (ht : t.sessions = [st])
    (hleft : o.left = a :: left) (hkey : key = (canonicalKey a.pf).1)
    (hcalm : overdue limits a.pf.packetTimeUsec { st with transactions := done ++ opens } = false)
    (hhead : ∀ x ∈ (found lib limits a.orders t a.pf).1.transactions.head?, x.final = true) :
    Answers o a (observe lib limits a.orders t a.pf a.seq).2 ∧
      ∃ st' head' done' opens', (observe lib limits a.orders t a.pf a.seq).1.sessions = [st'] ∧
        (done' ++ opens').length = (done ++ opens).length ∧
        Row lib limits ends key st' head' done' opens' (if left = [] then queue else
          { o with taken := o.taken ++ [a], left := left } :: queue) := by
  obtain ⟨tx, rest, hwaits, hrest, rfl⟩ := List.forall₂_cons_right_iff.mp hrow.opens
  obtain ⟨ex, base, hvalid, hresp, _, _⟩ := hwaits.laid hleft
  obtain ⟨hpf, hopens, hdir, hne, _⟩ := hvalid.response a (by rw [hresp]; simp)
  obtain ⟨st', head', before, hs, hkey', hclient', hrow', htid, hex, hup⟩ :=
    @observe_answer lib limits ends a.pf t st head done rest tx ht hrow.row hcalm
      (hrow.key.trans hkey) hrow.client hends hpf hopens hdir hne a.orders a.seq hhead hrow.done
      hwaits.isOpen
  obtain ⟨hanswers, hafter⟩ := hwaits.answer hleft before htid hex hup
  have hn' : Named lib st' := by
    refine @observe_named lib limits hfree a.orders t (keyed_single ht)
      (named_single ht hrow.named) a.pf a.seq st' ?_
    rw [hs]
    exact List.mem_singleton_self st'
  refine ⟨hanswers, ?_⟩
  generalize hrev : (reviseTransaction lib limits before (answeredBy lib limits a.pf a.seq tx)).1 =
    tx' at hrow' hafter
  by_cases hnil : left = []
  · rw [if_pos hnil] at hafter ⊢
    refine ⟨st', head', done ++ [tx'], rest, hs, by simp, hkey'.trans hrow.key, hclient', hn', ?_, ?_,
      hrest⟩
    · rw [hrow', List.append_assoc]
      rfl
    · intro x hx
      rcases List.mem_append.mp hx with hold | hnew
      · exact hrow.done x hold
      · rw [List.mem_singleton.mp hnew]
        exact hafter
  · rw [if_neg hnil] at hafter ⊢
    exact ⟨st', head', done, tx' :: rest, hs, by simp, hkey'.trans hrow.key, hclient', hn', hrow',
      hrow.done, .cons hafter hrest⟩

/-- Where no response is under way nothing comes. -/
theorem converse_idle (order : Order) (t : Tracker) (items : List Item) :
    converse lib limits order t [] (.answer :: items) = converse lib limits order t [] items := by
  rw [converse]
  intro _ _ _ _ _ _ h
  simp at h

/-- Every segment of a conversation goes where its request went. -/
theorem converse_answers (hfree : lib.CollisionFree) (hends : ends.client ≠ ends.server)
    (order : Order) {syn : PacketFeature} (hsyn : FromClient ends syn) :
    ∀ {items : List Item} {t : Tracker} {queue : List Outstanding} {st : SessionState}
      {head : TransactionState} {done opens : List TransactionState},
      t.sessions = [st] → Row lib limits ends (canonicalKey syn).1 st head done opens queue →
      (∀ ex, Item.ask ex ∈ items → ex.Valid lib limits ends) →
      (done ++ opens).length + asks items + 1 ≤ limits.maxTransactionsPerSession.val →
      (∀ e ∈ converse lib limits order t queue items, Clear lib limits e) →
      ∀ e ∈ converse lib limits order t queue items, ∀ o, e.answers = some o →
        Answers o e.packet e.observation
  | [], _, _, _, _, _, _, _, _, _, _, _ => fun e he => (List.not_mem_nil he).elim
  | .ask ex :: items, t, queue, st, head, done, opens, ht, hrow, hvalid, hlen, hclear => by
    rw [converse] at hclear ⊢
    have hex := hvalid ex List.mem_cons_self
    have hcalm := (hclear _ List.mem_cons_self).calm st (by rw [ht]; exact List.mem_singleton_self st)
    dsimp only at hcalm
    rw [hrow.row, List.tail_cons] at hcalm
    rw [asks] at hlen
    obtain ⟨st', head', tx, ht', hrow'⟩ := hrow.ask hfree ht hex
      (canonicalKey_client hex.request.1 hsyn) hcalm (by omega) order
    intro e he o ho
    rcases List.mem_cons.mp he with rfl | hrest
    · simp at ho
    · refine converse_answers hfree hends order hsyn ht' hrow'
        (fun ex' h => hvalid ex' (List.mem_cons_of_mem _ h)) ?_
        (fun e he => hclear e (List.mem_cons_of_mem _ he)) e hrest o ho
      rw [← List.append_assoc, List.length_append, List.length_singleton]
      omega
  | .answer :: items, t, [], st, head, done, opens, ht, hrow, hvalid, hlen, hclear => by
    rw [converse_idle] at hclear ⊢
    exact converse_answers hfree hends order hsyn ht hrow
      (fun ex h => hvalid ex (List.mem_cons_of_mem _ h)) hlen hclear
  | .answer :: items, t, ⟨id, events, taken, []⟩ :: queue, st, head, done, opens, ht, hrow, hvalid,
      hlen, hclear => by
    obtain ⟨tx, rest, hwaits, _, _⟩ := List.forall₂_cons_right_iff.mp hrow.opens
    exact absurd rfl hwaits.left
  | .answer :: items, t, ⟨id, events, taken, a :: left⟩ :: queue, st, head, done, opens, ht, hrow,
      hvalid, hlen, hclear => by
    rw [converse] at hclear ⊢
    have hfirst := hclear _ List.mem_cons_self
    have hcalm := hfirst.calm st (by rw [ht]; exact List.mem_singleton_self st)
    dsimp only at hcalm
    rw [hrow.row, List.tail_cons] at hcalm
    obtain ⟨tx, rest, hwaits, _, _⟩ := List.forall₂_cons_right_iff.mp hrow.opens
    obtain ⟨ex, base, hex, hresp, _, _⟩ := hwaits.laid rfl
    have hpf := (hex.response a (by rw [hresp]; simp)).1
    obtain ⟨hanswers, st', head', done', opens', ht', hlen', hrow'⟩ := hrow.answer hfree hends ht rfl
      (canonicalKey_eq hsyn hpf).symm hcalm (hfirst.handshake rfl)
    intro e he o ho
    rcases List.mem_cons.mp he with rfl | hrest
    · rw [← Option.some.inj ho]
      exact hanswers
    · exact converse_answers hfree hends order hsyn ht' hrow'
        (fun ex' h => hvalid ex' (List.mem_cons_of_mem _ h)) (by rw [hlen']; exact hlen)
        (fun e he => hclear e (List.mem_cons_of_mem _ he)) e hrest o ho

/-! ### From the handshake on -/

/-- A cleanup leaves the only session alone when nothing in it is due. -/
theorem cleanup_calm {now : UInt64} (hone : t.sessions.length ≤ 1)
    (hcalm : ∀ st ∈ t.sessions, overdue limits now st = false) (order : Order) :
    (cleanupLocked lib limits order t now).1.sessions = t.sessions := by
  rw [cleanupLocked]
  split
  · rfl
  · split
    · rfl
    · rcases hl : t.sessions with _ | ⟨st, _ | _⟩
      · simp [List.perm_nil.mp (order.perm [])]
      · have hvisit : order.visit [st] = [st] := List.perm_singleton.mp (order.perm [st])
        simp [hvisit, sweep_of_not_overdue (hcalm st (by simp [hl]))]
      · simp [hl] at hone

/-- The SYN opens the session and its first transaction. -/
theorem observe_syn {pf : PacketFeature} (hpf : FromClient ends pf)
    (hdir : pf.messageDirection = .request) (orders : Orders) (n : UInt64) :
    ∃ st tx, (observe lib limits orders {} pf n).1.sessions = [st] ∧ st.key = (canonicalKey pf).1 ∧
      st.client = ends.client ∧ st.transactions = [tx] ∧ tx.final = false := by
  obtain ⟨hnew, hnone⟩ : (found lib limits orders {} pf).1 = newSession lib pf ∧
      (found lib limits orders {} pf).2.1 = [] := by
    rw [found, cleanup_calm (by simp) (by simp), locate]
    simp [makeRoom, limits.maxSessions.2.ne']
  have hkept := tally_kept (newSession lib pf) pf
  rw [← hnew] at hkept
  have hrow : (tally (found lib limits orders {} pf).1 pf).1.transactions = [] := by
    rw [hkept.transactions, hnew]
    rfl
  obtain ⟨_, hsettle⟩ := @settle_ask lib limits pf (tally (found lib limits orders {} pf).1 pf).1
    hpf.tcp hdir hpf.stays (by rw [hrow]; exact limits.maxTransactionsPerSession.2) n
  have hsessions := (@observe_sessions lib limits orders {} pf n).trans
    (congrArg₂ List.cons hsettle hnone)
  refine ⟨_, _, hsessions, ?_, hpf.source, congrArg (· ++ [_]) hrow, rfl⟩
  exact hkept.key.trans (congrArg (·.key) hnew)

/-- The SYN-ACK goes to the first transaction. -/
theorem observe_synAck {pf : PacketFeature} {tx : TransactionState} (ht : t.sessions = [st])
    (hrow : st.transactions = [tx]) (hopen : tx.final = false) (hclient : st.client = ends.client)
    (hkey : st.key = (canonicalKey pf).1) (hends : ends.client ≠ ends.server)
    (hpf : FromServer ends pf) (hopens : Opens pf = false) (hdir : pf.messageDirection = .response)
    (hq : quiet limits t pf = true) (orders : Orders) (n : UInt64) :
    ∃ st' tx', (observe lib limits orders t pf n).1.sessions = [st'] ∧ st'.key = st.key ∧
      st'.client = ends.client ∧ st'.transactions = [tx'] := by
  obtain ⟨hst, hnone⟩ : (found lib limits orders t pf).1 = st ∧
      (found lib limits orders t pf).2.1 = [] := by
    simp only [quiet, Bool.and_eq_true, List.all_eq_true, Bool.not_eq_true'] at hq
    rw [found, cleanup_calm (by simp [ht]) hq.1.1, locate]
    simp [ht, hkey, hopens]
  have hkept := tally_kept st pf
  have hclient' := (tally_client st pf).trans hclient
  rw [← hst] at hclient' hkept
  have hrow' : (tally (found lib limits orders t pf).1 pf).1.transactions = [] ++ [tx] := by
    rw [hkept.transactions, hst, hrow]
    rfl
  obtain ⟨_, hsettle⟩ := @settle_answer lib limits pf (tally (found lib limits orders t pf).1 pf).1
    [] [] tx hpf.tcp (by rw [hdir]; decide) hpf.stays (fun h => by rw [hdir] at h; simp at h)
    (by rw [hclient']; exact endpoint_ne_empty _ _)
    (by rw [hclient', hpf.source]; exact hends.symm) hrow'
    (fun _ h => (List.not_mem_nil h).elim) hopen n
  have hsessions := (@observe_sessions lib limits orders t pf n).trans
    (congrArg₂ List.cons (congrArg Prod.fst hsettle) hnone)
  exact ⟨_, _, hsessions, hkept.key.trans (congrArg (·.key) hst), hclient', rfl⟩

/-- After the handshake the row is its transaction alone. -/
theorem row_handshake (hfree : lib.CollisionFree) (hends : ends.client ≠ ends.server)
    {syn synAck : Arrival} (hshake : Handshake ends syn.pf synAck.pf)
    (hq : quiet limits (play lib limits {} [syn]) synAck.pf = true) :
    ∃ st head, (play lib limits {} [syn, synAck]).sessions = [st] ∧
      Row lib limits ends (canonicalKey syn.pf).1 st head [] [] [] := by
  obtain ⟨hsyn, -, hdir⟩ := hshake.syn
  obtain ⟨hack, hack', hackdir, _⟩ := hshake.synAck
  obtain ⟨st, tx, hs, hkey, hclient, hrow, hopen⟩ :=
    @observe_syn lib limits ends syn.pf hsyn hdir syn.orders syn.seq
  obtain ⟨st', tx', hs', hkey', hclient', hrow'⟩ := @observe_synAck lib limits ends _ st synAck.pf tx
    hs hrow hopen hclient (hkey.trans (canonicalKey_eq hsyn hack).symm) hends hack hack' hackdir hq
    synAck.orders synAck.seq
  have hempty : ∀ x ∈ ({} : Tracker).sessions, Named lib x := fun _ h => (List.not_mem_nil h).elim
  have hnamed := @observe_named lib limits hfree syn.orders {} List.nodup_nil hempty syn.pf syn.seq
  have hnamed' := @observe_named lib limits hfree synAck.orders _ (keyed_single hs) hnamed synAck.pf
    synAck.seq st' (by rw [hs']; exact List.mem_singleton_self st')
  exact ⟨st', tx', hs', hkey'.trans hkey, hclient', hnamed', hrow',
    fun _ h => (List.not_mem_nil h).elim, .nil⟩

end

/-- In every conversation in which the handshake transaction is final before a response segment
    comes, and no request waits too long, every segment goes to the transaction of its request, and
    the events of a request get a revision with exactly its response. -/
theorem responses_reach_requests (lib : Lib) (hfree : lib.CollisionFree) (limits : Limits)
    (order : Order) (ends : Ends) (hends : ends.client ≠ ends.server) (syn synAck : Arrival)
    (hshake : Handshake ends syn.pf synAck.pf)
    (hquick : quiet limits (play lib limits {} [syn]) synAck.pf = true) (items : List Item)
    (hvalid : ∀ ex, Item.ask ex ∈ items → ex.Valid lib limits ends)
    (hcount : asks items + 1 ≤ limits.maxTransactionsPerSession.val)
    (hclear : ∀ e ∈ converse lib limits order (play lib limits {} [syn, synAck]) [] items,
      Clear lib limits e) :
    ∀ e ∈ converse lib limits order (play lib limits {} [syn, synAck]) [] items,
      ∀ o, e.answers = some o → Answers o e.packet e.observation := by
  obtain ⟨st, head, hs, hrow⟩ := row_handshake hfree hends hshake hquick
  exact converse_answers hfree hends order hshake.syn.1 hs hrow hvalid
    (by simpa using hcount) hclear

/-! ### A small conversation -/

/-- A response in one segment. -/
theorem Exchange.valid_single {lib : Lib} {limits : Limits} {ends : Ends} {request a : Arrival}
    (hrequest : FromClient ends request.pf ∧ Opens request.pf = false ∧ request.pf.messageDirection = .request)
    (hresponse : FromServer ends a.pf ∧ Opens a.pf = false ∧ a.pf.messageDirection ≠ .request ∧ a.pf.payload ≠ [] ∧ a.pf.capturedShort = false)
    (hwithin : a.pf.payload.length ≤ limits.maxReassemblyBytesPerSide.val ∧ a.pf.payload.length < 2 ^ 31)
    (hcomplete : httpMessageComplete lib a.pf.payload true = true) :
    Exchange.Valid lib limits ends ⟨request, events, [a]⟩ := by
  have hbytes : bytes [a] = a.pf.payload := by simp [bytes]
  refine ⟨hrequest, ?_, ⟨a.pf.sequence, ?_⟩, by rw [hbytes]; exact hwithin,
    fun _ => limits.maxPacketsPerTransaction.2,
    ⟨List.cons_ne_nil _ _, by rw [hbytes]; exact hcomplete⟩, ?_⟩
  · intro x hx
    rw [List.mem_singleton.mp hx]
    exact hresponse
  · intro taken x left h
    cases taken with
    | nil =>
      obtain ⟨rfl, _⟩ := List.cons.inj h
      simp [bytes]
    | cons y taken => simp at h
  · intro taken left h htaken hleft
    cases taken with
    | nil => exact absurd rfl htaken
    | cons y taken =>
      obtain ⟨_, hrest⟩ := List.cons.inj h
      exact absurd (List.append_eq_nil_iff.mp hrest.symm).2 hleft

/-- A frame of one connection, from its client or its server. -/
def frame (server : Bool) (usec : UInt64) (seq : UInt32) (syn ack : Bool) (payload : Bytes) :
    Packet where
  data := payload
  timestampUsec := some usec
  length := payload.length
  layers :=
    [(.ipv4 0 (if server then "10.0.0.2" else "10.0.0.1")
        (if server then "10.0.0.1" else "10.0.0.2"), 20),
     (.tcp
       { srcPort := if server then 80 else 40000
         dstPort := if server then 40000 else 80
         seq := seq
         synFlag := syn
         ackFlag := ack
         payload := payload }, 20)]

/-- The parser's feature of such a frame. -/
def captured (server : Bool) (usec : UInt64) (seq : UInt32) (syn ack : Bool) (payload : Bytes) :
    Arrival where
  pf := ((parse (fun _ => none) 0 (frame server usec seq syn ack payload)).toOption).getD {}

def sampleEnds : Ends := ⟨"10.0.0.1", 40000, "10.0.0.2", 80⟩

def sampleSyn : Arrival := captured false 1000000 0 true false []

def sampleSynAck : Arrival := captured true 1001000 0 true true []

/-- A request with an event at `usec`, and its response. -/
def sampleExchange (usec : UInt64) : Exchange where
  request := captured false usec 1 false true (utf8 "GET / HTTP/1.1\r\n\r\n")
  events := [{ eventID := "e" }]
  response := [captured true (usec + 100000) 1 false true okResponse]

/-- The entries of the exchange after the handshake, under the default limits. -/
def sampleEntries (usec : UInt64) : List Entry :=
  converse sampleLib ({} : Options).limits .listed
    (play sampleLib ({} : Options).limits {} [sampleSyn, sampleSynAck]) []
    [.ask (sampleExchange usec), .answer]

theorem sampleExchange_valid (usec : UInt64)
    (hrequest : FromClient sampleEnds (sampleExchange usec).request.pf ∧
      Opens (sampleExchange usec).request.pf = false ∧
      (sampleExchange usec).request.pf.messageDirection = .request)
    (hresponse : ∀ a ∈ (sampleExchange usec).response, FromServer sampleEnds a.pf ∧
      Opens a.pf = false ∧ a.pf.messageDirection ≠ .request ∧ a.pf.capturedShort = false ∧
      a.pf.payload = okResponse) :
    (sampleExchange usec).Valid sampleLib ({} : Options).limits sampleEnds := by
  obtain ⟨hfrom, hopens, hdir, hshort, hpayload⟩ := hresponse _ (List.mem_singleton_self _)
  refine Exchange.valid_single hrequest ⟨hfrom, hopens, hdir, ?_, hshort⟩ ?_ ?_
  · rw [hpayload]
    decide +kernel
  · rw [hpayload]
    decide +kernel
  · rw [hpayload]
    decide +kernel

theorem responses_reach_requests_late :
    (sampleEntries 40000000).length = 2 ∧
      ∀ e ∈ sampleEntries 40000000, ∀ o, e.answers = some o → Answers o e.packet e.observation :=
  ⟨by decide +kernel,
    responses_reach_requests sampleLib sampleLib_collisionFree ({} : Options).limits .listed
      sampleEnds (by decide +kernel) sampleSyn sampleSynAck (by decide +kernel) (by decide +kernel)
      [.ask (sampleExchange 40000000), .answer]
      (by
        intro ex hex
        obtain rfl : ex = sampleExchange 40000000 := by simpa using hex
        exact sampleExchange_valid _ (by decide +kernel) (by decide +kernel))
      (by decide +kernel)
      (by decide +kernel : ∀ e ∈ sampleEntries 40000000, Clear sampleLib ({} : Options).limits e)⟩

/-- With the request right after the handshake the response goes to the transaction the SYN
    opened. -/
theorem handshake_takes_response :
    Handshake sampleEnds sampleSyn.pf sampleSynAck.pf ∧
    (sampleExchange 2000000).Valid sampleLib ({} : Options).limits sampleEnds ∧
    ∃ e ∈ sampleEntries 2000000, ∃ o, e.answers = some o ∧ ¬ Answers o e.packet e.observation := by
  refine ⟨by decide +kernel,
    sampleExchange_valid _ (by decide +kernel) (by decide +kernel), ?_⟩
  have hother : ∃ e ∈ sampleEntries 2000000, ∃ o ∈ e.answers,
      e.observation.transactionID ≠ o.transactionID := by decide +kernel
  obtain ⟨e, he, o, ho, hne⟩ := hother
  exact ⟨e, he, o, ho, fun h => hne h.transaction⟩

end TaNode.Correlation

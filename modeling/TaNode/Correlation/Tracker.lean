import TaNode.Correlation.Reassembly
import TaNode.Schemes.Text

/-! The session tracker: packets in, contexts and revised events out.

    A tracker keeps a map of sessions, each with a queue of transactions; a transaction has a request
    and a response side and the events registered on it. `Observe` finds the session of a packet,
    gives the packet to a transaction, and revises that transaction's events; `Register` puts an event
    on the transaction of an observation; `Flush` closes everything.

        Observe   cleanup ▶ locate ▶ attach ▶ settle ▶ observation
                  timeouts  reset     request / response   revisions
                            eviction  continuation

    Go ranges over a map in any order; an `Order` is the order of one such loop. -/

namespace TaNode.Correlation

/-! ### Addresses and ids -/

/-- `net.JoinHostPort` -/
def endpoint (ip : String) (port : UInt16) : String :=
  if ip.toList.contains ':' then "[" ++ ip ++ "]:" ++ toString port.toNat
  else ip ++ ":" ++ toString port.toNat

def Proto.text : Proto → String
  | .none => ""
  | .tcp => "tcp"
  | .udp => "udp"
  | .icmp => "icmp"

theorem Proto.text_inj {p q : Proto} (h : (Proto.text p).toList = (Proto.text q).toList) : p = q := by
  cases p <;> cases q <;> first | rfl | exact absurd h (by decide)

/-- The session key, its two endpoints in order, and whether the source is the first. -/
def canonicalKey (pf : PacketFeature) : String × String × String × Bool :=
  let a := endpoint pf.srcIP pf.srcPort
  let b := endpoint pf.dstIP pf.dstPort
  if b < a then (Proto.text pf.proto ++ "|" ++ b ++ "|" ++ a, b, a, false)
  else (Proto.text pf.proto ++ "|" ++ a ++ "|" ++ b, a, b, true)

/-- The key does not depend on which of the endpoints is the source. -/
theorem canonicalKey_swap {pf pg : PacketFeature} (hproto : pg.proto = pf.proto)
    (hsrc : endpoint pg.srcIP pg.srcPort = endpoint pf.dstIP pf.dstPort)
    (hdst : endpoint pg.dstIP pg.dstPort = endpoint pf.srcIP pf.srcPort) :
    (canonicalKey pg).1 = (canonicalKey pf).1 := by
  simp only [canonicalKey, apply_ite Prod.fst]
  rw [hproto, hsrc, hdst]
  exact ordered_swap String.lt_asymm
    (fun hab hba => String.le_antisymm (String.not_lt.mp hba) (String.not_lt.mp hab))
    fun a b => Proto.text pf.proto ++ "|" ++ a ++ "|" ++ b

/-- An id of two parts under a label. -/
def stableID (lib : Lib) (label first second : String) : String :=
  label ++ "-" ++ lib.digest (first ++ "|" ++ second)

/-! ### States -/

structure SessionState where
  key : String
  id : String
  firstUsec : UInt64
  lastUsec : UInt64
  endpointA : String
  endpointB : String
  client : String := ""
  directionClient : String := ""
  directionConflict : Bool := false
  midstream : Bool
  aPackets : Nat := 0
  bPackets : Nat := 0
  aWireBytes : Nat := 0
  bWireBytes : Nat := 0
  hitCount : Nat := 0
  nextTxn : Nat := 0
  transactions : List TransactionState := []

structure Tracker where
  sessions : List SessionState := []
  lastCleanup : UInt64 := 0

/-- The order in which a loop visits the session map. -/
structure Order where
  visit : List SessionState → List SessionState
  perm : ∀ l, (visit l).Perm l

/-- The order of the list itself. -/
def Order.listed : Order := ⟨id, fun _ => List.Perm.refl _⟩

inductive DirectionSource where
  | unknown | protocol | handshake | session
  deriving DecidableEq, Repr

inductive DirectionConfidence where
  | unknown | medium | high
  deriving DecidableEq, Repr

inductive TransportDirection where
  | unknown | clientToServer | serverToClient
  deriving DecidableEq, Repr

/-- The message direction `none` is "unknown". -/
structure DirectionAssessment where
  messageDirection : MessageDirection := .none
  directionSource : DirectionSource := .unknown
  directionConfidence : DirectionConfidence := .unknown
  transportDirection : TransportDirection := .unknown
  deriving DecidableEq, Repr

structure Observation where
  direction : DirectionAssessment
  sessionID : String
  transactionID : String := ""
  exchange : Option ExchangeContext := none
  sessionSummary : SessionSummary
  contextFinal : Bool := false
  updates : List ThreatEvent

/-! ### Directions -/

def packetDirection (pf : PacketFeature) : DirectionAssessment :=
  if pf.messageDirection = .none then {}
  else
    let bare := pf.proto = .tcp ∧ pf.tcpSYN ∧ pf.httpMethod = [] ∧ pf.sni = [] ∧
      ¬ (utf8 "HTTP/").isPrefixOf pf.payload
    { messageDirection := pf.messageDirection
      directionSource := if bare then .handshake else .protocol
      directionConfidence := .high }

/-- The client a packet speaks for, by its flags or its direction. -/
def roleCandidate (pf : PacketFeature) : String :=
  let source := endpoint pf.srcIP pf.srcPort
  let dest := endpoint pf.dstIP pf.dstPort
  if pf.tcpSYN then if pf.tcpACK then dest else source
  else match pf.messageDirection with
    | .request => source
    | .response => dest
    | .none => ""

def assessDirection (st : SessionState) (pf : PacketFeature) : SessionState × DirectionAssessment :=
  let d := packetDirection pf
  if pf.proto ≠ .tcp then (st, d)
  else
    let candidate := roleCandidate pf
    let st :=
      if candidate = "" then st
      else if st.directionClient = "" then { st with directionClient := candidate }
      else if st.directionClient ≠ candidate then { st with directionConflict := true }
      else st
    let d :=
      if st.directionClient ≠ "" ∧ ¬ st.directionConflict then
        { d with transportDirection :=
            if endpoint pf.srcIP pf.srcPort = st.directionClient then .clientToServer
            else .serverToClient }
      else d
    (st, d)

/-- Where a byte string first occurs in another. -/
def indexOf (sep s : Bytes) : Option Nat := (cut sep s).map (·.1.length)

/-- The content length of a message with a plain length-framed body. -/
def framedLength (lib : Lib) (tx : TransactionState) (request : Bool) (head : Bytes) : Option Int :=
  if request then
    match lib.readRequest head with
    | none => none
    | some msg =>
      if msg.transferEncoding ≠ [] ∨ msg.upgrade ≠ "" ∨ msg.method = "CONNECT" then none
      else some msg.contentLength
  else
    let special := match lib.readRequest tx.request.payload with
      | none => false
      | some req => req.method = "HEAD" ∨ req.method = "CONNECT" ∨ req.upgrade ≠ ""
    if special then none
    else match lib.readResponse head with
      | none => none
      | some msg =>
        if msg.transferEncoding ≠ [] ∨ msg.statusCode = 101 then none else some msg.contentLength

def inferHTTPContinuation (lib : Lib) (d : DirectionAssessment) (st : SessionState)
    (tx : TransactionState) (pf : PacketFeature) : DirectionAssessment :=
  if pf.capturedShort then d
  else if d.messageDirection ≠ .none ∨ st.directionConflict ∨ st.directionClient = "" ∨
      pf.payload = [] ∨ pf.tcpSYN ∨ pf.tcpFIN ∨ pf.tcpRST then d
  else
    let request : Bool := endpoint pf.srcIP pf.srcPort = st.directionClient
    let side := if request then tx.request else tx.response
    if ¬ side.seqSet ∨ side.context.truncated ∨ side.limited then d
    else match indexOf (utf8 "\r\n\r\n") side.payload with
      | none => d
      | some headEnd =>
        match framedLength lib tx request (side.payload.take (headEnd + 4)) with
        | none => d
        | some length =>
          let offset := side.offset pf.tcpSeq
          if length ≤ 0 then d
          else if offset < headEnd + 4 ∨ offset + pf.payload.length > headEnd + 4 + length then d
          else { d with
            messageDirection := if request then .request else .response
            directionSource := .session
            directionConfidence := .medium }

/-! ### Revisions -/

def summary (st : SessionState) : SessionSummary :=
  let swapped : Bool := st.client = st.endpointB
  { firstTimeUsec := st.firstUsec.toNat
    lastTimeUsec := st.lastUsec.toNat
    hitCount := st.hitCount
    midstream := st.midstream
    clientPackets := if swapped then st.bPackets else st.aPackets
    serverPackets := if swapped then st.aPackets else st.bPackets
    clientWireBytes := if swapped then st.bWireBytes else st.aWireBytes
    serverWireBytes := if swapped then st.aWireBytes else st.bWireBytes }

/-- The first packet of each side, in the fields older readers look at. -/
def applyLegacyExchange (ev : ThreatEvent) (ex : Option ExchangeContext) : ThreatEvent :=
  match ev.rawPacket, ex with
  | some raw, some ex =>
    let request := (ex.request.bind (·.packets.head?)).or raw.request
    let response := (ex.response.bind (·.packets.head?)).or raw.response
    { ev with rawPacket := some { raw with request := request, response := response } }
  | _, _ => ev

/-- The next revision of an event. -/
def reviseEvent (ex : ExchangeContext) (sum : SessionSummary) (final : Bool) (ev : ThreatEvent) :
    ThreatEvent :=
  applyLegacyExchange
    { ev with
      contextRevision := ev.contextRevision + 1
      contextFinal := final
      exchange := some ex
      sessionSummary := some sum } (some ex)

/-- The events come out in order of their ids, the order they are kept in. -/
def reviseTransaction (lib : Lib) (limits : Limits) (st : SessionState) (tx : TransactionState) :
    TransactionState × List ThreatEvent :=
  let interval := UInt64.ofNat (limits.revisionInterval / 1000)
  if tx.events = [] then (tx, [])
  else if ¬ tx.final ∧ tx.lastReviseUsec ≠ 0 ∧ tx.lastUsec - tx.lastReviseUsec < interval then
    (tx, [])
  else
    let events := tx.events.map (reviseEvent (exchange lib tx) (summary st) tx.final)
    ({ tx with lastReviseUsec := tx.lastUsec, events := events }, events)

/-- The last revision of a transaction. -/
def closeTransaction (lib : Lib) (limits : Limits) (st : SessionState) (tx : TransactionState) :
    TransactionState × List ThreatEvent :=
  reviseTransaction lib limits st { tx with final := true }

/-- The session is dropped afterwards, so only the revisions are left of it. -/
def finalizeSession (lib : Lib) (limits : Limits) (st : SessionState) : List ThreatEvent :=
  st.transactions.flatMap fun tx => (closeTransaction lib limits st tx).2

/-! ### Cleanup -/

/-- A transaction that has waited too long for its response is closed. -/
def expireTransaction (lib : Lib) (limits : Limits) (now : UInt64) (st : SessionState)
    (tx : TransactionState) : TransactionState × List ThreatEvent :=
  if ¬ tx.final ∧ tx.lastUsec ≤ now ∧
      UInt64.ofNat (limits.responseWait / 1000) ≤ now - tx.lastUsec then
    closeTransaction lib limits st tx
  else (tx, [])

/-- One session of the cleanup loop: what is left of it, and the revisions. -/
def sweep (lib : Lib) (limits : Limits) (now : UInt64) (st : SessionState) :
    Option SessionState × List ThreatEvent :=
  let waited := st.transactions.map (expireTransaction lib limits now st)
  let updates := waited.flatMap (·.2)
  let st := { st with transactions := waited.map (·.1) }
  if st.lastUsec ≤ now ∧ UInt64.ofNat (limits.sessionIdleTimeout / 1000) ≤ now - st.lastUsec then
    (none, updates ++ finalizeSession lib limits st)
  else (some st, updates)

def cleanupLocked (lib : Lib) (limits : Limits) (order : Order) (t : Tracker) (now : UInt64) :
    Tracker × List ThreatEvent :=
  if now = 0 then (t, [])
  else if t.lastCleanup ≠ 0 ∧ t.lastCleanup ≤ now ∧ now - t.lastCleanup < 1000000 then (t, [])
  else
    let swept := (order.visit t.sessions).map (sweep lib limits now)
    ({ sessions := swept.filterMap (·.1), lastCleanup := now }, swept.flatMap (·.2))

/-! ### Locating the session -/

/-- A packet that opens a connection. -/
def Opens (pf : PacketFeature) : Bool := pf.proto = .tcp ∧ pf.tcpSYN ∧ ¬ pf.tcpACK

def newSession (lib : Lib) (pf : PacketFeature) : SessionState :=
  let (key, a, b, _) := canonicalKey pf
  { key := key
    id := stableID lib "ses" key (toString pf.packetTimeUsec.toNat)
    firstUsec := pf.packetTimeUsec
    lastUsec := pf.packetTimeUsec
    endpointA := a
    endpointB := b
    midstream := !Opens pf
    client := if Opens pf then endpoint pf.srcIP pf.srcPort else "" }

/-- The session that was used the longest time ago, the first such one of the loop. -/
def oldestSession (order : Order) (sessions : List SessionState) : Option SessionState :=
  (order.visit sessions).foldl (fun oldest st =>
    match oldest with
    | none => some st
    | some o => if st.lastUsec < o.lastUsec then some st else some o) none

/-- At the session limit the oldest session makes room. -/
def makeRoom (lib : Lib) (limits : Limits) (order : Order) (sessions : List SessionState) :
    List SessionState × List ThreatEvent :=
  if limits.maxSessions ≤ sessions.length then
    match oldestSession order sessions with
    | some oldest =>
      (sessions.filter (·.key ≠ oldest.key), finalizeSession lib limits oldest)
    | none => (sessions, [])
  else (sessions, [])

/-- The session of a packet, taken out of the map, and the other sessions. -/
def locate (lib : Lib) (limits : Limits) (order : Order) (sessions : List SessionState)
    (pf : PacketFeature) : SessionState × List SessionState × List ThreatEvent :=
  let key := (canonicalKey pf).1
  let others := sessions.filter (·.key ≠ key)
  match sessions.find? (·.key = key) with
  | some st =>
    if Opens pf then
      let (others, updates) := makeRoom lib limits order others
      (newSession lib pf, others, finalizeSession lib limits st ++ updates)
    else (st, others, [])
  | none =>
    let (others, updates) := makeRoom lib limits order others
    (newSession lib pf, others, updates)

/-! ### Attaching the packet -/

/-- The time, the direction and the counters of a packet. -/
def tally (st : SessionState) (pf : PacketFeature) : SessionState × DirectionAssessment :=
  let st := { st with lastUsec := max st.lastUsec pf.packetTimeUsec }
  let (st, direction) := assessDirection st pf
  let st :=
    if (canonicalKey pf).2.2.2 then
      { st with aPackets := st.aPackets + 1, aWireBytes := st.aWireBytes + pf.wireLen.toNat }
    else { st with bPackets := st.bPackets + 1, bWireBytes := st.bWireBytes + pf.wireLen.toNat }
  (st, direction)

/-- At the limit the first final transaction is removed, and without one the first. -/
def makeSlot (limits : Limits) (txs : List TransactionState) : List TransactionState :=
  if limits.maxTransactionsPerSession ≤ txs.length then
    txs.eraseIdx ((txs.findIdx? (·.final)).getD 0)
  else txs

/-- The transaction that is opened next. -/
def nextTransaction (lib : Lib) (st : SessionState) (usec : UInt64) : TransactionState :=
  { id := stableID lib "txn" st.id (toString (st.nextTxn + 1)), lastUsec := usec }

/-- A new transaction at the end of the queue, and its index. -/
def newTransaction (lib : Lib) (limits : Limits) (st : SessionState) (usec : UInt64) :
    SessionState × Nat :=
  let txs := makeSlot limits st.transactions
  ({ st with nextTxn := st.nextTxn + 1, transactions := txs ++ [nextTransaction lib st usec] },
    txs.length)

/-- The first transaction that is not final, or a new one. -/
def responseTransaction (lib : Lib) (limits : Limits) (st : SessionState) (usec : UInt64) :
    SessionState × Nat :=
  match st.transactions.findIdx? (!·.final) with
  | some i => (st, i)
  | none => newTransaction lib limits st usec

/-- The last open transaction without a response for the client's packets, the first open one for
    the others. -/
def continuationTransaction (st : SessionState) (source : String) : Option Nat :=
  if st.client ≠ "" ∧ source = st.client then
    (st.transactions.reverse.findIdx?
      fun tx => !tx.final && tx.response.context.packetCount == 0).map
      (st.transactions.length - 1 - ·)
  else st.transactions.findIdx? (!·.final)

def appendRequest (lib : Lib) (limits : Limits) (pf : PacketFeature) (packetSequence : UInt64)
    (tx : TransactionState) : TransactionState :=
  { tx with request := appendSide lib limits tx.request pf packetSequence }

/-- A complete response makes the transaction final. -/
def appendResponse (lib : Lib) (limits : Limits) (pf : PacketFeature) (packetSequence : UInt64)
    (tx : TransactionState) : TransactionState :=
  let response := appendSide lib limits tx.response pf packetSequence
  { tx with response := response, final := tx.final || responseComplete lib response }

/-- Changes one transaction of a session. -/
def SessionState.modify (st : SessionState) (i : Nat) (f : TransactionState → TransactionState) :
    SessionState :=
  { st with transactions := st.transactions.modify i f }

/-- Gives a packet to a transaction; the result names its index. -/
def attach (lib : Lib) (limits : Limits) (st : SessionState) (pf : PacketFeature)
    (packetSequence : UInt64) : SessionState × Option Nat :=
  let source := endpoint pf.srcIP pf.srcPort
  if pf.proto ≠ .tcp then (st, none)
  else match pf.messageDirection with
    | .request =>
      let (st, i) := newTransaction lib limits { st with client := source } pf.packetTimeUsec
      (st.modify i (appendRequest lib limits pf packetSequence), some i)
    | .response =>
      let st := if st.client = "" then { st with client := endpoint pf.dstIP pf.dstPort } else st
      let (st, i) := responseTransaction lib limits st pf.packetTimeUsec
      (st.modify i (appendResponse lib limits pf packetSequence), some i)
    | .none =>
      if pf.payload = [] then (st, none)
      else match continuationTransaction st source with
        | none => (st, none)
        | some i =>
          let fresh := (st.transactions[i]?.map (·.response.context.packetCount)) = some 0
          if st.client ≠ "" ∧ source = st.client ∧ fresh then
            (st.modify i (appendRequest lib limits pf packetSequence), some i)
          else (st.modify i (appendResponse lib limits pf packetSequence), some i)

/-- The direction of a continuation segment, from the transaction as it is before the segment. -/
def refineDirection (lib : Lib) (st : SessionState) (pf : PacketFeature)
    (direction : DirectionAssessment) : DirectionAssessment :=
  if pf.proto = .tcp ∧ pf.messageDirection = .none ∧ pf.payload ≠ [] then
    match (continuationTransaction st (endpoint pf.srcIP pf.srcPort)).bind (st.transactions[·]?) with
    | some tx => inferHTTPContinuation lib direction st tx pf
    | none => direction
  else direction

/-! ### Revising after a packet -/

/-- A connection that is closed closes all its transactions; otherwise the transaction of the packet
    is revised. -/
def settle (lib : Lib) (limits : Limits) (st : SessionState) (chosen : Option Nat)
    (pf : PacketFeature) : SessionState × List ThreatEvent :=
  if pf.proto = .tcp ∧ (pf.tcpFIN ∨ pf.tcpRST) then
    let closed := st.transactions.map (closeTransaction lib limits st)
    ({ st with transactions := closed.map (·.1) }, closed.flatMap (·.2))
  else match chosen.bind fun i => st.transactions[i]?.map fun tx => (i, tx) with
    | some (i, tx) =>
      let (tx, updates) := reviseTransaction lib limits st { tx with lastUsec := pf.packetTimeUsec }
      (st.modify i fun _ => tx, updates)
    | none => (st, [])

/-! ### The calls -/

/-- The loops of one `Observe`: the cleanup, and the search for the oldest session. -/
structure Orders where
  cleanup : Order := .listed
  oldest : Order := .listed

def observe (lib : Lib) (limits : Limits) (orders : Orders) (t : Tracker) (pf : PacketFeature)
    (packetSequence : UInt64) : Tracker × Observation :=
  let cleaned := cleanupLocked lib limits orders.cleanup t pf.packetTimeUsec
  let located := locate lib limits orders.oldest cleaned.1.sessions pf
  let tallied := tally located.1 pf
  let attached := attach lib limits tallied.1 pf packetSequence
  let settled := settle lib limits attached.1 attached.2 pf
  let tx := attached.2.bind (settled.1.transactions[·]?)
  ({ cleaned.1 with sessions := settled.1 :: located.2.1 },
    { sessionID := settled.1.id
      sessionSummary := summary settled.1
      updates := cleaned.2 ++ located.2.2 ++ settled.2
      direction := refineDirection lib tallied.1 pf tallied.2
      transactionID := (tx.map (·.id)).getD ""
      exchange := tx.map (exchange lib)
      contextFinal := (tx.map (·.final)).getD false })

/-- Puts an event into the map of a transaction. -/
def putEvent (ev : ThreatEvent) : List ThreatEvent → List ThreatEvent
  | [] => [ev]
  | e :: es =>
    if ev.eventID < e.eventID then ev :: e :: es
    else if ev.eventID = e.eventID then ev :: es
    else e :: putEvent ev es

/-- The session with an id, and the index of the transaction with an id in it. -/
def findTransaction (order : Order) (t : Tracker) (sessionID transactionID : String) :
    Option (SessionState × Option Nat) :=
  match (order.visit t.sessions).find? (·.id = sessionID) with
  | none => none
  | some st =>
    if transactionID = "" then some (st, none)
    else some (st, st.transactions.findIdx? (·.id = transactionID))

/-- The event as an observation describes it. -/
def contextualize (obs : Observation) (ev : ThreatEvent) : ThreatEvent :=
  { ev with
    sessionID := obs.sessionID
    transactionID := obs.transactionID
    contextRevision := 1
    contextFinal := obs.contextFinal
    exchange := obs.exchange
    sessionSummary := some obs.sessionSummary }

def register (order : Order) (t : Tracker) (obs : Observation) (ev : ThreatEvent) :
    Tracker × ThreatEvent :=
  let ev := contextualize obs ev
  match findTransaction order t obs.sessionID obs.transactionID with
  | none => (t, ev)
  | some (st, found) =>
    let st := { st with hitCount := st.hitCount + 1 }
    let others := t.sessions.filter (·.key ≠ st.key)
    let ev := { ev with sessionSummary := some (summary st) }
    match found with
    | none => ({ t with sessions := st :: others }, ev)
    | some i =>
      let ev := applyLegacyExchange ev ev.exchange
      let st := st.modify i fun tx => { tx with events := putEvent ev tx.events }
      ({ t with sessions := st :: others }, ev)

def flush (lib : Lib) (limits : Limits) (order : Order) (t : Tracker) :
    Tracker × List ThreatEvent :=
  ({ t with sessions := [] }, (order.visit t.sessions).flatMap (finalizeSession lib limits))

end TaNode.Correlation

import TaNode.Event.ThreatEvent
import TaNode.Parser.Feature
import TaNode.Schemes.Window

/-! One side of an exchange: the packets of one direction and the bytes put together from them.

    A side keeps a window of the TCP stream around its lowest sequence number. A segment is placed by
    the signed 32-bit distance of its sequence number from the base; one that begins before the base
    moves the base back. Only the filled front of the window is shown as payload.

        base                 base + expectedEnd
         │ a b c · · f g · ·  │
         └payload┘   └ held back until the hole is filled

    What a limit cut off, what two segments said differently and what the capture did not hold leave a
    mark that no later segment takes away. -/

namespace TaNode.Correlation

/-! ### Limits -/

/-- The options as configured; durations are in nanoseconds. -/
structure Options where
  maxSessions : Int := 0
  maxTransactionsPerSession : Int := 0
  maxPacketsPerTransaction : Int := 0
  maxReassemblyBytesPerSide : Int := 0
  maxOutOfOrderBytes : Int := 0
  responseWait : Int := 0
  sessionIdleTimeout : Int := 0
  storePacketIndex : Bool := false
  revisionInterval : Int := 0

/-- The options a tracker works with: every number is positive. -/
structure Limits where
  maxSessions : { n : Nat // 0 < n }
  maxTransactionsPerSession : { n : Nat // 0 < n }
  maxPacketsPerTransaction : { n : Nat // 0 < n }
  maxReassemblyBytesPerSide : { n : Nat // 0 < n }
  maxOutOfOrderBytes : { n : Nat // 0 < n }
  responseWait : { n : Nat // 0 < n }
  sessionIdleTimeout : { n : Nat // 0 < n }
  storePacketIndex : Bool
  revisionInterval : { n : Nat // 0 < n }

/-- An option, or the default where it is not positive. -/
def orDefault (n : Int) (default : { n : Nat // 0 < n }) : { n : Nat // 0 < n } :=
  if h : n ≤ 0 then default else ⟨n.toNat, by omega⟩

/-- The limits `New` sets. -/
def Options.limits (opts : Options) : Limits where
  maxSessions := orDefault opts.maxSessions ⟨100000, by decide⟩
  maxTransactionsPerSession := orDefault opts.maxTransactionsPerSession ⟨16, by decide⟩
  maxPacketsPerTransaction := orDefault opts.maxPacketsPerTransaction ⟨128, by decide⟩
  maxReassemblyBytesPerSide := orDefault opts.maxReassemblyBytesPerSide ⟨256 * 1024, by decide⟩
  maxOutOfOrderBytes := orDefault opts.maxOutOfOrderBytes ⟨64 * 1024, by decide⟩
  responseWait := orDefault opts.responseWait ⟨30 * 10 ^ 9, by decide⟩
  sessionIdleTimeout := orDefault opts.sessionIdleTimeout ⟨120 * 10 ^ 9, by decide⟩
  storePacketIndex := opts.storePacketIndex
  revisionInterval := orDefault opts.revisionInterval ⟨10 * 10 ^ 9, by decide⟩

/-- The limits of a tracker with default options. -/
def defaults : Limits := ({} : Options).limits

/-! ### Library functions -/

/-- What the tracker reads of an `http.Response`. -/
structure HttpResponse where
  statusCode : Int
  contentLength : Int
  transferEncoding : List String
  /-- the body can be read to its end -/
  wholeBody : Bool

/-- What the tracker reads of an `http.Request`. -/
structure HttpRequest where
  method : String
  contentLength : Int
  transferEncoding : List String
  upgrade : String

/-- The library functions the tracker calls. -/
structure Lib where
  /-- the hexadecimal digits of the first 16 bytes of SHA-256 -/
  digest : String → String
  /-- a time in microseconds as RFC 3339 text -/
  formatTime : UInt64 → String
  readResponse : Bytes → Option HttpResponse
  readRequest : Bytes → Option HttpRequest

/-- A whole response, without a body. -/
def okResponse : Bytes := utf8 "HTTP/1.1 200 OK\r\nContent-Length: 0\r\n\r\n"

/-- A library that knows this response. -/
def sampleLib : Lib where
  digest := id
  formatTime _ := ""
  readResponse p := if okResponse.isPrefixOf p then some ⟨200, 0, [], true⟩ else none
  readRequest _ := none

def eventTime (lib : Lib) (usec : UInt64) : String := if usec = 0 then "" else lib.formatTime usec

def httpMessageComplete (lib : Lib) (payload : Bytes) (response : Bool) : Bool :=
  if response then
    match lib.readResponse payload with
    | none => false
    | some msg =>
      if msg.statusCode < 200 then false
      else if msg.contentLength < 0 ∧ msg.transferEncoding = [] then false
      else msg.wholeBody
  else false

/-! ### A side -/

structure SideState where
  context : ExchangeMessageContext := {}
  payload : Bytes := []
  /-- the keys "seq:len" -/
  seen : List (UInt32 × Nat) := []
  baseSeq : UInt32 := 0
  seqSet : Bool := false
  /-- `data` and `present` -/
  window : Window UInt8 := .empty
  expectedEnd : Nat := 0
  limited : Bool := false

namespace SideState

/-- The first segment sets the base. -/
def anchor (side : SideState) (seq : UInt32) : SideState :=
  if side.seqSet then side else { side with baseSeq := seq, seqSet := true }

/-- `int(int32(seq - side.baseSeq))` -/
def offset (side : SideState) (seq : UInt32) : Int := (seq - side.baseSeq).toInt32.toInt

/-- A segment outside the limits leaves its mark only. -/
def reject (side : SideState) : SideState :=
  { side with
    limited := true
    context := { side.context with truncated := true, reassemblyIncomplete := true } }

/-- Moves the base back by `n` bytes. -/
def rebase (side : SideState) (seq : UInt32) (n : Nat) : SideState :=
  { side with
    window := side.window.prepend 0 n, expectedEnd := side.expectedEnd + n, baseSeq := seq }

/-- The segment's bytes below the limit, stored from the cell `offset` on. -/
def filling (limits : Limits) (side : SideState) (offset : Nat) (payload : Bytes) :
    Filling UInt8 :=
  let stop := min (offset + payload.length) limits.maxReassemblyBytesPerSide
  Filling.store { window := side.window.grow 0 stop } offset (payload.take (stop - offset))

/-- Stores the segment's bytes and shows the new front. -/
def write (limits : Limits) (side : SideState) (contiguous offset : Nat) (pf : PacketFeature) :
    SideState :=
  let f := side.filling limits offset pf.payload
  let cut := limits.maxReassemblyBytesPerSide < offset + pf.payload.length
  let limited := side.limited || cut || f.conflict
  let expectedEnd := max side.expectedEnd (offset + pf.payload.length + pf.captureGap)
  let n := f.window.scan contiguous
  { side with
    window := f.window
    payload := f.window.data.take n
    expectedEnd := expectedEnd
    limited := limited
    context := { side.context with
      truncated := side.context.truncated || cut
      reassemblyIncomplete := limited || n < expectedEnd } }

/-- Places a segment at a cell, unless it is too far ahead of the front; the second result says
    whether it brought nothing new. -/
def place (limits : Limits) (side : SideState) (contiguous offset : Nat) (pf : PacketFeature) :
    SideState × Bool :=
  if contiguous < offset ∧ limits.maxOutOfOrderBytes < offset - contiguous then
    (side.reject, false)
  else
    let stop := min (offset + pf.payload.length) limits.maxReassemblyBytesPerSide
    (side.write limits contiguous offset pf,
      !(side.filling limits offset pf.payload).added && offset < stop)

end SideState

def reassemble (limits : Limits) (side : SideState) (pf : PacketFeature) : SideState × Bool :=
  let seq := pf.sequence
  let side := side.anchor seq
  let offset := side.offset seq
  if offset < 0 then
    let n := offset.natAbs
    if limits.maxOutOfOrderBytes < n ∨ limits.maxReassemblyBytesPerSide < n + side.window.length then
      (side.reject, false)
    else
      (side.rebase seq n).place limits 0 0 pf
  else
    side.place limits side.payload.length offset.toNat pf

/-- The index entry of a packet. -/
def packetEntry (lib : Lib) (pf : PacketFeature) (packetSequence : UInt64)
    (retransmission : Bool) : RawMessageContext :=
  let wireLen := if pf.wireLen < pf.capturedLen then pf.capturedLen else pf.wireLen
  { captureTime := eventTime lib pf.packetTimeUsec
    captureTimeUsec := pf.packetTimeUsec.toNat
    packetSequence := packetSequence.toNat
    packetHex := hexText pf.rawPacket
    payloadHex := hexText pf.payload
    payloadText := payloadText pf.payload
    capturedLength := pf.capturedLen.toNat
    wireLength := wireLen.toNat
    captureTruncated := pf.capturedLen > 0 && wireLen > pf.capturedLen
    tcpSeq := pf.tcpSeq.toNat
    tcpAck := pf.tcpAck.toNat
    retransmission := retransmission }

namespace SideState

/-- The counters, the capture mark and the key of a packet. -/
def count (limits : Limits) (side : SideState) (pf : PacketFeature) : SideState :=
  { side with
    seen :=
      if side.seen.length < limits.maxPacketsPerTransaction then
        side.seen.insert (pf.tcpSeq, pf.payload.length)
      else side.seen
    context := { side.context with
      packetCount := side.context.packetCount + 1
      capturedBytes := side.context.capturedBytes + pf.capturedLen.toNat
      wireBytes := side.context.wireBytes + pf.wireLen.toNat
      captureStartTimeUsec :=
        if side.context.captureStartTimeUsec = 0 then pf.packetTimeUsec.toNat
        else side.context.captureStartTimeUsec
      captureEndTimeUsec := pf.packetTimeUsec.toNat
      truncated := side.context.truncated || pf.capturedShort } }

/-- The retransmission counter and the packet index. -/
def index (lib : Lib) (limits : Limits) (side : SideState) (pf : PacketFeature)
    (packetSequence : UInt64) (retransmission : Bool) : SideState :=
  let room := side.context.packets.length < limits.maxPacketsPerTransaction
  { side with
    context := { side.context with
      retransmissions := side.context.retransmissions + if retransmission then 1 else 0
      packets :=
        if limits.storePacketIndex ∧ room then
          side.context.packets ++ [packetEntry lib pf packetSequence retransmission]
        else side.context.packets
      truncated := side.context.truncated || (limits.storePacketIndex && !room) } }

end SideState

def appendSide (lib : Lib) (limits : Limits) (side : SideState) (pf : PacketFeature)
    (packetSequence : UInt64) : SideState :=
  let key := (pf.tcpSeq, pf.payload.length)
  let (after, retransmission) :=
    if pf.payload = [] then (side.count limits pf, decide (key ∈ side.seen))
    else reassemble limits (side.count limits pf) pf
  after.index lib limits pf packetSequence retransmission

def responseComplete (lib : Lib) (side : SideState) : Bool :=
  !side.context.truncated && !side.context.reassemblyIncomplete &&
    httpMessageComplete lib side.payload true

/-! ### Exchanges -/

structure TransactionState where
  id : String
  lastUsec : UInt64
  lastReviseUsec : UInt64 := 0
  request : SideState := {}
  response : SideState := {}
  /-- the map from event ids to events, in order of the ids -/
  events : List ThreatEvent := []
  final : Bool := false

def snapshotSide (side : SideState) : ExchangeMessageContext :=
  { side.context with
    reassembledHex := hexText side.payload, reassembledText := payloadText side.payload }

/-- Why a response counts as complete or not. -/
def completenessReason (lib : Lib) (side : SideState) : String :=
  if side.context.truncated then "capture_or_evidence_truncated"
  else if side.context.reassemblyIncomplete then "tcp_gap_or_conflicting_overlap"
  else if ¬ httpMessageComplete lib side.payload true then "application_framing_unverified"
  else "verified_http_framing"

def exchange (lib : Lib) (tx : TransactionState) : ExchangeContext :=
  let request := if tx.request.context.packetCount > 0 then some (snapshotSide tx.request) else none
  if tx.response.context.packetCount > 0 then
    { request := request
      response := some { snapshotSide tx.response with
        completenessReason := completenessReason lib tx.response }
      responseStatus := if responseComplete lib tx.response then "complete" else "partial" }
  else
    { request := request, responseStatus := if tx.final then "not_captured" else "pending" }

/-! ### Sequence numbers -/

/-- The signed distance: ahead below half the number space, behind from there on. -/
theorem SideState.offset_eq (side : SideState) (seq : UInt32) : side.offset seq =
      if (seq - side.baseSeq).toNat < 2 ^ 31 then ((seq - side.baseSeq).toNat : Int)
      else ((seq - side.baseSeq).toNat : Int) - 2 ^ 32 := by
  rw [offset]
  generalize seq - side.baseSeq = d
  have h : d.toInt32.toInt = d.toBitVec.toInt := rfl
  rw [h, BitVec.toInt_eq_toNat_cond]
  have hd : d.toBitVec.toNat = d.toNat := rfl
  rw [hd]
  by_cases hlt : d.toNat < 2 ^ 31
  · rw [if_pos hlt, if_pos (by omega)]
  · rw [if_neg hlt, if_neg (by omega)]
    rfl

namespace SideState
variable {limits : Limits} {side : SideState}

/-! ### Storing a segment -/

theorem length_filling (offset : Nat) (payload : Bytes) :
    (side.filling limits offset payload).window.length =
      max side.window.length (min (offset + payload.length) limits.maxReassemblyBytesPerSide) := by
  simp [filling, Filling.length_store]

/-- Behind the limit nothing is stored. -/
theorem filling_of_limit_le {offset : Nat} (h : limits.maxReassemblyBytesPerSide.val ≤ offset)
    (payload : Bytes) :
    side.filling limits offset payload =
      { window := side.window.grow 0 (min (offset + payload.length)
          limits.maxReassemblyBytesPerSide) } := by
  rw [filling, show min (offset + payload.length) limits.maxReassemblyBytesPerSide.val - offset = 0 by omega]
  rfl

/-- Filled cells stay, the other cells below the limit take the segment's bytes. -/
theorem get_filling (offset : Nat) (payload : Bytes) (j : Nat) :
    (side.filling limits offset payload).window.get j = (side.window.get j).or
      (if offset ≤ j ∧ j < limits.maxReassemblyBytesPerSide then payload[j - offset]? else none) := by
  rcases Nat.lt_or_ge offset limits.maxReassemblyBytesPerSide with h | h
  · rw [filling, Filling.get_store _ (by simp; omega)]
    simp only [Window.get_grow]
    congr 1
    by_cases hj : offset ≤ j
    · by_cases hm : j < limits.maxReassemblyBytesPerSide
      · simp only [hj, hm, and_self, if_true]
        by_cases hl : j - offset < payload.length
        · rw [List.getElem?_take_of_lt (by omega)]
        · rw [List.getElem?_eq_none (by simp; omega), List.getElem?_eq_none (by omega)]
      · simp only [hj, hm, and_false, if_true, if_false]
        rw [List.getElem?_eq_none (by simp; omega)]
    · simp [hj]
  · rw [filling_of_limit_le h, Window.get_grow, if_neg (by omega), Option.or_none]

/-- A conflict is a stored byte in the segment's range that differs from the segment's. -/
theorem conflict_filling (hlen : side.window.length ≤ limits.maxReassemblyBytesPerSide)
    (offset : Nat) (payload : Bytes) :
    (side.filling limits offset payload).conflict = true ↔
      ∃ k v x, payload[k]? = some v ∧ side.window.get (offset + k) = some x ∧ x ≠ v := by
  rcases Nat.lt_or_ge offset limits.maxReassemblyBytesPerSide with h | h
  · rw [filling, Filling.conflict_store _ (by simp; omega)]
    simp only [Bool.false_eq_true, false_or, Window.get_grow]
    constructor
    · rintro ⟨k, v, x, hk, hx, hne⟩
      refine ⟨k, v, x, ?_, hx, hne⟩
      rw [List.getElem?_take] at hk
      split at hk
      · exact hk
      · simp at hk
    · rintro ⟨k, v, x, hk, hx, hne⟩
      have hcell := side.window.lt_length_of_get hx
      have hk' := (List.getElem?_eq_some_iff.mp hk).1
      exact ⟨k, v, x, by rw [List.getElem?_take_of_lt (by omega)]; exact hk, hx, hne⟩
  · rw [filling_of_limit_le h]
    simp only [Bool.false_eq_true, false_iff, not_exists, not_and]
    intro k v x hk hx
    have := side.window.lt_length_of_get hx
    omega

/-! ### Placing a segment -/

/-- The distance of a segment from the base, as it is once the base is set. -/
def ahead (side : SideState) (seq : UInt32) : Nat := (seq - (side.anchor seq).baseSeq).toNat

/-- The state a segment is stored in: behind half the number space the base moves back to it. -/
def opened (side : SideState) (seq : UInt32) : SideState :=
  if side.ahead seq < 2 ^ 31 then side.anchor seq
  else (side.anchor seq).rebase seq (2 ^ 32 - side.ahead seq)

/-- The cell of a segment's first byte in the state it is stored in. -/
def cell (side : SideState) (seq : UInt32) : Nat :=
  if side.ahead seq < 2 ^ 31 then side.ahead seq else 0

/-- The cells of that state that are known to be filled. -/
def known (side : SideState) (seq : UInt32) : Nat :=
  if side.ahead seq < 2 ^ 31 then side.payload.length else 0

/-- The segments a limit turns away: too far ahead of the front, or too far before the base. -/
def Rejects (limits : Limits) (side : SideState) (seq : UInt32) : Prop :=
  if side.ahead seq < 2 ^ 31 then
    limits.maxOutOfOrderBytes < side.ahead seq - side.payload.length
  else
    limits.maxOutOfOrderBytes < 2 ^ 32 - side.ahead seq ∨
      limits.maxReassemblyBytesPerSide < 2 ^ 32 - side.ahead seq + side.window.length

@[simp] theorem anchor_window (seq : UInt32) : (side.anchor seq).window = side.window := by
  rw [anchor]; split <;> rfl

@[simp] theorem anchor_payload (seq : UInt32) : (side.anchor seq).payload = side.payload := by
  rw [anchor]; split <;> rfl

theorem ahead_lt (side : SideState) (seq : UInt32) : side.ahead seq < 2 ^ 32 :=
  (seq - (side.anchor seq).baseSeq).toNat_lt

end SideState

/-- A segment is turned away or stored in the state that is opened for it. -/
theorem reassemble_fst (limits : Limits) (side : SideState) (pf : PacketFeature) :
    (side.Rejects limits pf.sequence ∧
      (reassemble limits side pf).1 = (side.anchor pf.sequence).reject) ∨
    (¬ side.Rejects limits pf.sequence ∧
      (reassemble limits side pf).1 = (side.opened pf.sequence).write limits
        (side.known pf.sequence) (side.cell pf.sequence) pf) := by
  have hlt := side.ahead_lt pf.sequence
  have hoff := (side.anchor pf.sequence).offset_eq pf.sequence
  rw [← SideState.ahead] at hoff
  rw [SideState.Rejects, reassemble, SideState.opened, SideState.known, SideState.cell]
  dsimp only
  rw [hoff]
  by_cases h : side.ahead pf.sequence < 2 ^ 31
  · simp only [h, if_true]
    rw [if_neg (by omega), SideState.place]
    simp only [SideState.anchor_payload, Int.toNat_natCast]
    split
    · exact Or.inl ⟨by omega, rfl⟩
    · exact Or.inr ⟨by omega, rfl⟩
  · simp only [h, if_false]
    have hn : ((side.ahead pf.sequence : Int) - 2 ^ 32).natAbs = 2 ^ 32 - side.ahead pf.sequence := by
      omega
    rw [if_pos (by omega), hn, SideState.anchor_window, SideState.place]
    split
    · rename_i hrej
      exact Or.inl ⟨hrej, rfl⟩
    · rename_i hrej
      rw [if_neg (by omega)]
      exact Or.inr ⟨hrej, rfl⟩

end TaNode.Correlation

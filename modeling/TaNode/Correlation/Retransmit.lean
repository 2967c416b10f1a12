import TaNode.Correlation.Twin

/-! Retransmissions: a run with a repeated segment beside the run without it.

    A segment that goes to a side which holds its bytes, or to none, leaves the session the same,
    and so does everything that follows:

        t ──────────────── after ────▶ u
        │ repeat                       ≈
        t' ─────────────── after ────▶ u'

    The side is chosen by labels and by what is final, before anybody looks at the bytes; a repeated
    request always opens a transaction of its own. -/

namespace TaNode.Correlation

variable {pf : PacketFeature} {tx : TransactionState}

section
variable {lib : Lib} {limits : Limits} {side : SideState}

/-! ### A segment whose bytes are there -/

/-- The side holds the bytes of a segment and everything else the segment says. -/
structure SideState.Repeats (limits : Limits) (side : SideState) (pf : PacketFeature) : Prop where
  used : side.context.packetCount ≠ 0
  set : side.seqSet = true
  near : side.ahead pf.sequence < 2 ^ 31
  accepted : ¬ side.Rejects limits pf.sequence
  bytes : ∀ k < pf.payload.length, side.window.get (side.ahead pf.sequence + k) = pf.payload[k]?
  span : side.ahead pf.sequence + pf.payload.length + pf.captureGap ≤ side.expectedEnd
  mark : pf.capturedShort = true → side.context.truncated = true

instance (side : SideState) (seq : UInt32) : Decidable (side.Rejects limits seq) :=
  inferInstanceAs (Decidable (if side.ahead seq < 2 ^ 31 then _ < _ else _ < _ ∨ _ < _))

instance (side : SideState) (pf : PacketFeature) : Decidable (side.Repeats limits pf) :=
  decidable_of_iff (side.context.packetCount ≠ 0 ∧ side.seqSet = true ∧
      side.ahead pf.sequence < 2 ^ 31 ∧ ¬ side.Rejects limits pf.sequence ∧
      (∀ k < pf.payload.length, side.window.get (side.ahead pf.sequence + k) = pf.payload[k]?) ∧
      side.ahead pf.sequence + pf.payload.length + pf.captureGap ≤ side.expectedEnd ∧
      (pf.capturedShort = true → side.context.truncated = true))
    ⟨fun ⟨h₁, h₂, h₃, h₄, h₅, h₆, h₇⟩ => ⟨h₁, h₂, h₃, h₄, h₅, h₆, h₇⟩,
      fun ⟨h₁, h₂, h₃, h₄, h₅, h₆, h₇⟩ => ⟨h₁, h₂, h₃, h₄, h₅, h₆, h₇⟩⟩

theorem SideState.Repeats.filling (hr : side.Repeats limits pf) (hs : side.Sound limits)
    (hne : pf.payload ≠ []) :
    side.ahead pf.sequence + pf.payload.length ≤ side.window.length ∧
      side.filling limits (side.ahead pf.sequence) pf.payload = { window := side.window } := by
  have hlast : side.ahead pf.sequence + (pf.payload.length - 1) < side.window.length := by
    have hpos := List.length_pos_iff.mpr hne
    have hget := hr.bytes (pf.payload.length - 1) (by omega)
    rw [List.getElem?_eq_getElem (by omega)] at hget
    exact side.window.lt_length_of_get hget
  have hlen : side.ahead pf.sequence + pf.payload.length ≤ side.window.length := by omega
  refine ⟨hlen, ?_⟩
  have hbound := hs.bounded
  rw [SideState.filling, Nat.min_eq_left (by omega), side.window.grow_of_le 0 hlen,
    Nat.add_sub_cancel_left, List.take_length]
  refine Filling.store_of_held _ fun k v hk => ?_
  rw [← hk]
  exact hr.bytes k (List.getElem?_eq_some_iff.mp hk).1

theorem SideState.Repeats.write (hr : side.Repeats limits pf) (hs : side.Sound limits)
    (hne : pf.payload ≠ []) :
    SameSide side (side.write limits side.payload.length (side.ahead pf.sequence) pf) := by
  obtain ⟨hlen, hfill⟩ := hr.filling hs hne
  have hcut : ¬ limits.maxReassemblyBytesPerSide.val < side.ahead pf.sequence + pf.payload.length := by
    have := hs.bounded
    omega
  have hend : max side.expectedEnd
      (side.ahead pf.sequence + pf.payload.length + pf.captureGap) = side.expectedEnd :=
    Nat.max_eq_left hr.span
  have hscan : side.window.scan side.payload.length = side.window.front := by
    refine side.window.scan_eq_front fun i hi => ?_
    rw [hs.length_payload] at hi
    exact side.window.isSome_get_of_lt_front hi
  constructor
  all_goals simp only [SideState.write, hfill, hcut, hend, hscan, decide_false, Bool.or_false]
  · exact hs.payload_eq.symm
  · exact hs.incomplete_eq.symm

theorem SideState.Repeats.appendSide (hr : side.Repeats limits pf) (hs : side.Sound limits)
    (hne : pf.payload ≠ []) (hroom : side.Room limits) (n : UInt64) :
    SameSide side (appendSide lib limits side pf n) := by
  have hcount : SameSide side (side.count limits pf) := by
    refine ⟨rfl, rfl, rfl, rfl, rfl, rfl, ?_, rfl, ?_⟩
    · simp only [SideState.count]
      cases hshort : pf.capturedShort with
      | false => simp
      | true => simp [hr.mark hshort]
    · simp [SideState.count, hr.used]
  have hreassemble : SameSide side (reassemble limits side pf).1 := by
    rcases reassemble_fst limits side pf with ⟨hrej, _⟩ | ⟨_, heq⟩
    · exact absurd hrej hr.accepted
    · rw [heq, SideState.opened, SideState.known, SideState.cell, if_pos hr.near, if_pos hr.near,
        if_pos hr.near, SideState.anchor, if_pos hr.set]
      exact hr.write hs hne
  have hroom' : (side.count limits pf).Room limits := hroom
  rw [Correlation.appendSide]
  dsimp only
  rw [if_neg hne]
  exact (hreassemble.trans (hcount.reassemble pf)).trans
    (sameSide_index (hroom'.reassemble pf) pf n _)

end

section
variable {lib : Lib} {limits : Limits} {t : Tracker} {pf : PacketFeature}

/-! ### The repeated segment -/

/-- The side of a session that a segment would be appended to; a request always opens a new
    transaction. -/
def SessionState.routed (st : SessionState) (pf : PacketFeature) : Option SideState :=
  let source := endpoint pf.srcIP pf.srcPort
  match pf.messageDirection with
  | .request => none
  | .response => (st.transactions.find? (!·.final)).map (·.response)
  | .none => (continuationTransaction st source).bind fun i => st.transactions[i]?.map fun tx =>
      if st.client ≠ "" ∧ source = st.client then tx.request else tx.response

/-- A payload segment of a connection that stays open, which goes to a side that holds its bytes, or
    to no side: without an open transaction an unlabelled segment is dropped. -/
structure Repeated (limits : Limits) (t : Tracker) (pf : PacketFeature) : Prop where
  tcp : pf.proto = .tcp
  payload : pf.payload ≠ []
  goesOn : Opens pf = false ∧ Closes pf = false
  side : ∃ st ∈ t.session (canonicalKey pf).1, (∃ side ∈ st.routed pf, side.Repeats limits pf) ∨
    st.routed pf = none ∧ pf.messageDirection = .none

theorem sameSession_modify {st : SessionState} {i : Nat} (htx : st.transactions[i]? = some tx)
    {f : TransactionState → TransactionState} (h : SameTx tx (f tx)) :
    SameSession st (st.modify i f) := by
  refine ⟨rfl, rfl, rfl, rfl, List.forall₂_iff_get.mpr ⟨by simp [SessionState.modify], ?_⟩⟩
  intro k h₁ h₂
  simp only [SessionState.modify, List.get_eq_getElem, List.getElem_modify]
  split
  · rename_i hk
    subst hk
    obtain ⟨_, hget⟩ := List.getElem?_eq_some_iff.mp htx
    rw [hget]
    exact h
  · exact .refl _

theorem SameSession.trans {a b c : SessionState} (h₁ : SameSession a b) (h₂ : SameSession b c) :
    SameSession a c := by
  refine ⟨h₂.key.trans h₁.key, h₂.id.trans h₁.id, h₂.client.trans h₁.client,
    h₂.nextTxn.trans h₁.nextTxn, ?_⟩
  have hcomp := List.forall₂_iff_get.mp h₁.transactions
  have hcomp' := List.forall₂_iff_get.mp h₂.transactions
  refine List.forall₂_iff_get.mpr ⟨hcomp.1.trans hcomp'.1, fun k hk hk' => ?_⟩
  have hx := hcomp.2 k hk (by omega)
  have hy := hcomp'.2 k (by omega) hk'
  exact ⟨hy.id.trans hx.id, hy.final.trans hx.final, hx.request.trans hy.request,
    hx.response.trans hy.response⟩

theorem sameTx_appendRequest (hfit : Fit lib limits tx) (hroom : tx.Room limits)
    (hne : pf.payload ≠ []) (hr : tx.request.Repeats limits pf) (n : UInt64) :
    SameTx tx (appendRequest lib limits pf n tx) :=
  ⟨rfl, rfl, hr.appendSide hfit.request hne hroom.1 n, .refl _⟩

theorem sameTx_appendResponse (hfit : Fit lib limits tx) (hroom : tx.Room limits)
    (hne : pf.payload ≠ []) (hr : tx.response.Repeats limits pf) (n : UInt64) :
    SameTx tx (appendResponse lib limits pf n tx) := by
  have hside : SameSide tx.response (appendSide lib limits tx.response pf n) :=
    hr.appendSide hfit.response hne hroom.2 n
  refine ⟨rfl, ?_, .refl _, hside⟩
  rw [appendResponse]
  dsimp only
  rw [hside.responseComplete]
  -- an open transaction with a response has no complete one
  cases hfinal : tx.final with
  | true => rfl
  | false => rw [hfit.pending hfinal hr.used, Bool.or_false]

/-- A repeated segment leaves its session the same. -/
theorem sameSession_attach {st : SessionState} (hfit : FitSession lib limits st)
    (hroom : st.Room limits) (htcp : pf.proto = .tcp) (hne : pf.payload ≠ [])
    {side : SideState} (hside : st.routed pf = some side) (hr : side.Repeats limits pf)
    (n : UInt64) : SameSession st (attach lib limits st pf n).1 := by
  rw [SessionState.routed] at hside
  rw [attach]
  dsimp only at hside ⊢
  rw [if_neg (not_not.mpr htcp)]
  cases hdir : pf.messageDirection with
  | request => simp [hdir] at hside
  | response =>
    rw [hdir] at hside
    obtain ⟨tx, hfind, rfl⟩ := Option.map_eq_some_iff.mp hside
    have hmem := List.mem_of_find?_eq_some hfind
    obtain ⟨i, hidx, hget⟩ : ∃ i, st.transactions.findIdx? (!·.final) = some i ∧
        st.transactions[i]? = some tx := by
      rw [List.find?_eq_some_iff_getElem] at hfind
      obtain ⟨hopen, i, hi, hget, hbefore⟩ := hfind
      refine ⟨i, List.findIdx?_eq_some_iff_getElem.mpr ⟨hi, by rw [hget]; exact hopen, ?_⟩, ?_⟩
      · exact fun j hj => by simpa using hbefore j hj
      · rw [List.getElem?_eq_getElem hi, hget]
    have hclient := hfit.client (List.ne_nil_of_mem hmem)
    dsimp only
    rw [if_neg hclient, responseTransaction, hidx]
    exact sameSession_modify hget
      (sameTx_appendResponse (hfit.fit tx hmem) (hroom tx hmem) hne hr n)
  | none =>
    rw [hdir] at hside
    dsimp only at hside ⊢
    rw [if_neg hne]
    obtain ⟨i, hidx, hget⟩ := Option.bind_eq_some_iff.mp hside
    obtain ⟨tx, htx, rfl⟩ := Option.map_eq_some_iff.mp hget
    have hmem := List.mem_of_getElem? htx
    rw [hidx]
    dsimp only
    by_cases hclient : st.client ≠ "" ∧ endpoint pf.srcIP pf.srcPort = st.client
    · -- the client's packets go to a transaction without a response
      have hfresh : tx.response.context.packetCount = 0 := by
        rw [continuationTransaction, if_pos hclient] at hidx
        obtain ⟨j, hj, rfl⟩ := Option.map_eq_some_iff.mp hidx
        obtain ⟨hlt, hp, _⟩ := List.findIdx?_eq_some_iff_getElem.mp hj
        rw [List.length_reverse] at hlt
        rw [List.getElem_reverse] at hp
        rw [List.getElem?_eq_getElem (by omega)] at htx
        rw [Option.some.inj htx] at hp
        simp only [Bool.and_eq_true, beq_iff_eq] at hp
        exact hp.2
      rw [if_pos hclient] at hr
      rw [htx, if_pos ⟨hclient.1, hclient.2, by rw [Option.map_some, hfresh]⟩]
      exact sameSession_modify htx
        (sameTx_appendRequest (hfit.fit tx hmem) (hroom tx hmem) hne hr n)
    · rw [if_neg hclient] at hr
      rw [if_neg fun h => hclient ⟨h.1, h.2.1⟩]
      exact sameSession_modify htx
        (sameTx_appendResponse (hfit.fit tx hmem) (hroom tx hmem) hne hr n)

/-- A segment without a side is dropped. -/
theorem attach_dropped {st : SessionState} (hlabel : pf.messageDirection = .none)
    (hside : st.routed pf = none) (n : UInt64) : (attach lib limits st pf n).1 = st := by
  rw [SessionState.routed, hlabel] at hside
  rw [attach, hlabel]
  dsimp only at hside ⊢
  split_ifs
  · rfl
  · rfl
  · cases hidx : continuationTransaction st (endpoint pf.srcIP pf.srcPort) with
    | none => rfl
    | some i =>
      rw [hidx, Option.bind_some, Option.map_eq_none_iff] at hside
      have hkeep : ∀ f, st.modify i f = st := fun f => by
        rw [SessionState.modify, List.modify_eq_self (List.getElem?_eq_none_iff.mp hside)]
      dsimp only
      split <;> exact hkeep _

theorem sameSession_settle (st : SessionState) (chosen : Option Nat) (hopen : Closes pf = false) :
    SameSession st (settle lib limits st chosen pf).1 := by
  rw [settle, if_neg (by simpa [Closes] using hopen)]
  cases chosen with
  | none => exact .refl _
  | some i =>
    rw [Option.bind_some]
    cases htx : st.transactions[i]? with
    | none => exact .refl _
    | some tx =>
      obtain ⟨hreq, hresp⟩ := @reviseTransaction_sides lib limits st
        { tx with lastUsec := pf.packetTimeUsec }
      have hsame : SameTx tx
          (reviseTransaction lib limits st { tx with lastUsec := pf.packetTimeUsec }).1 :=
        ⟨reviseTransaction_id, reviseTransaction_final, by rw [hreq]; exact .refl _,
          by rw [hresp]; exact .refl _⟩
      exact sameSession_modify htx hsame

theorem sameSession_tally (st : SessionState) (pf : PacketFeature) :
    SameSession st (tally st pf).1 := by
  have h := tally_kept st pf
  refine ⟨h.key, h.id, tally_client st pf, h.nextTxn, ?_⟩
  rw [h.transactions]
  exact List.forall₂_same.mpr fun tx _ => .refl tx

/-- A repeated segment leaves the session of its connection the same. -/
theorem Repeated.sameAt {a : Arrival} (hr : Repeated limits t a.pf) (hk : Keyed t.sessions)
    (hfit : ∀ st ∈ t.sessions, FitSession lib limits st)
    (hs : Spares lib limits (canonicalKey a.pf).1 t a) :
    SameAt (canonicalKey a.pf).1 t (observe lib limits a.orders t a.pf a.seq).1 := by
  obtain ⟨st, hsession, hside⟩ := hr.side
  obtain ⟨hst, hkey⟩ := mem_of_session hsession
  have hroom := (hs st hst hkey).2
  rw [if_pos rfl] at hroom
  rw [SameAt, hs.session_observe hk, if_pos rfl, hsession, met, hr.goesOn.1]
  have hkept := tally_kept st a.pf
  have hfit' : FitSession lib limits (tally st a.pf).1 := by
    refine ⟨?_, ?_⟩
    · rw [hkept.transactions]
      exact (hfit st hst).fit
    · rw [hkept.transactions, tally_client]
      exact (hfit st hst).client
  have hroom' : (tally st a.pf).1.Room limits := by
    rw [SessionState.Room, hkept.transactions]
    exact hroom
  have hroute : (tally st a.pf).1.routed a.pf = st.routed a.pf := by
    rw [SessionState.routed, SessionState.routed, continuationTransaction, continuationTransaction,
      hkept.transactions, tally_client]
  have hattach : SameSession (tally st a.pf).1 (attach lib limits (tally st a.pf).1 a.pf a.seq).1 := by
    rcases hside with ⟨side, hside, hrepeats⟩ | ⟨hnone, hlabel⟩
    · exact sameSession_attach hfit' hroom' hr.tcp hr.payload (hroute.trans hside) hrepeats a.seq
    · rw [attach_dropped hlabel (hroute.trans hnone)]
      exact .refl _
  exact .some (((sameSession_tally st a.pf).trans hattach).trans (sameSession_settle _ _ hr.goesOn.2))

/-- A segment labelled request opens a transaction, whatever its bytes. -/
theorem arrive_request (st : SessionState) (htcp : pf.proto = .tcp)
    (hlabel : pf.messageDirection = .request) (n : UInt64) :
    (arrive lib limits st pf n).nextTxn = st.nextTxn + 1 := by
  rw [arrive, (@settle_named lib limits _ _ pf).2.2, ← (tally_kept st pf).nextTxn]
  simp [attach, htcp, hlabel, newTransaction, SessionState.modify]

end

/-- A segment of the connection from a port of the client. -/
def segment (port : UInt16) (server : Bool) (usec : UInt64) (seq : UInt32) (label : MessageDirection)
    (payload : Bytes) : Arrival where
  pf :=
    { packetTimeUsec := usec
      srcIP := if server then "10.0.0.2" else "10.0.0.1"
      srcPort := if server then 80 else port
      dstIP := if server then "10.0.0.1" else "10.0.0.2"
      dstPort := if server then port else 80
      proto := .tcp
      tcpACK := true
      tcpSeq := seq
      messageDirection := label
      payload := payload }

end TaNode.Correlation

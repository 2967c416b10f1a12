import Mathlib.Data.List.Nodup
import TaNode.Correlation.Evidence
import TaNode.Correlation.Moves

/-! Two runs side by side that differ in counters, times and events only.

    Two sessions are the same as far as pairing goes if their transactions have the same ids, the
    same state of completion and the same bytes. The same packets keep two such sessions the same:

        t  ──── trace ────▶  u
        ≈                    ≈     same transactions, same payloads
        t' ──── trace ────▶  u'

    as long as no timeout, session limit or packet index touches the session in one of the runs. -/

namespace TaNode.Correlation

variable {f : TransactionState → TransactionState} {x y tx : TransactionState} {now : UInt64}
  {st : SessionState}

/-! ### The same side -/

/-- Two sides with the same bytes and marks. -/
structure SameSide (a b : SideState) : Prop where
  payload : b.payload = a.payload
  window : b.window = a.window
  baseSeq : b.baseSeq = a.baseSeq
  seqSet : b.seqSet = a.seqSet
  expectedEnd : b.expectedEnd = a.expectedEnd
  limited : b.limited = a.limited
  truncated : b.context.truncated = a.context.truncated
  incomplete : b.context.reassemblyIncomplete = a.context.reassemblyIncomplete
  fresh : b.context.packetCount = 0 ↔ a.context.packetCount = 0

/-- The packet index of a side has room for one more packet. -/
def SideState.Room (limits : Limits) (side : SideState) : Prop :=
  limits.storePacketIndex = true →
    side.context.packets.length < limits.maxPacketsPerTransaction.val

section
variable {lib : Lib} {limits : Limits} {a b side : SideState}

theorem SameSide.refl (a : SideState) : SameSide a a :=
  ⟨rfl, rfl, rfl, rfl, rfl, rfl, rfl, rfl, Iff.rfl⟩

theorem SameSide.responseComplete (h : SameSide a b) :
    responseComplete lib b = responseComplete lib a := by
  rw [Correlation.responseComplete, Correlation.responseComplete, h.truncated, h.incomplete,
    h.payload]

section
variable (h : SameSide a b)
include h

theorem SameSide.count (pf : PacketFeature) : SameSide (a.count limits pf) (b.count limits pf) :=
  ⟨h.payload, h.window, h.baseSeq, h.seqSet, h.expectedEnd, h.limited,
    congrArg (· || pf.capturedShort) h.truncated, h.incomplete, by simp [SideState.count]⟩

theorem SameSide.index (ha : a.Room limits) (hb : b.Room limits) (pf : PacketFeature) (n m : UInt64)
    (again again' : Bool) :
    SameSide (a.index lib limits pf n again) (b.index lib limits pf m again') := by
  refine ⟨h.payload, h.window, h.baseSeq, h.seqSet, h.expectedEnd, h.limited, ?_, h.incomplete,
    h.fresh⟩
  simp only [SideState.index, h.truncated]
  cases hstore : limits.storePacketIndex with
  | false => simp
  | true => simp [ha hstore, hb hstore]

theorem SameSide.anchor (seq : UInt32) : SameSide (a.anchor seq) (b.anchor seq) := by
  rw [SideState.anchor, SideState.anchor, h.seqSet]
  split
  · exact h
  · exact ⟨h.payload, h.window, rfl, rfl, h.expectedEnd, h.limited, h.truncated, h.incomplete,
      h.fresh⟩

theorem SameSide.reject : SameSide a.reject b.reject :=
  ⟨h.payload, h.window, h.baseSeq, h.seqSet, h.expectedEnd, rfl, rfl, rfl, h.fresh⟩

theorem SameSide.ahead (seq : UInt32) : b.ahead seq = a.ahead seq := by
  rw [SideState.ahead, SideState.ahead, (h.anchor seq).baseSeq]

omit h in
theorem SameSide.opened (h : SameSide a b) (seq : UInt32) :
    SameSide (a.opened seq) (b.opened seq) := by
  rw [SideState.opened, SideState.opened, h.ahead]
  have ha := h.anchor seq
  split
  · exact ha
  · exact ⟨ha.payload, congrArg (fun w : Window UInt8 => w.prepend 0 (2 ^ 32 - a.ahead seq))
      ha.window, rfl, ha.seqSet, congrArg (· + _) ha.expectedEnd, ha.limited, ha.truncated,
      ha.incomplete, ha.fresh⟩

theorem SameSide.write (contiguous offset : Nat) (pf : PacketFeature) :
    SameSide (a.write limits contiguous offset pf) (b.write limits contiguous offset pf) := by
  have hf : b.filling limits offset pf.payload = a.filling limits offset pf.payload := by
    rw [SideState.filling, SideState.filling, h.window]
  constructor
  all_goals simp only [SideState.write, hf, h.expectedEnd, h.limited, h.truncated]
  · exact h.baseSeq
  · exact h.seqSet
  · exact h.fresh

end

theorem SameSide.reassemble (h : SameSide a b) (pf : PacketFeature) :
    SameSide (reassemble limits a pf).1 (reassemble limits b pf).1 := by
  have hrej : b.Rejects limits pf.sequence ↔ a.Rejects limits pf.sequence := by
    rw [SideState.Rejects, SideState.Rejects, h.ahead, h.payload, h.window]
  have hknown : b.known pf.sequence = a.known pf.sequence := by
    rw [SideState.known, SideState.known, h.ahead, h.payload]
  have hcell : b.cell pf.sequence = a.cell pf.sequence := by
    rw [SideState.cell, SideState.cell, h.ahead]
  rcases reassemble_fst limits a pf with ⟨ha, haeq⟩ | ⟨ha, haeq⟩
  · rcases reassemble_fst limits b pf with ⟨_, hbeq⟩ | ⟨hb, _⟩
    · rw [haeq, hbeq]
      exact (h.anchor _).reject
    · exact absurd (hrej.mpr ha) hb
  · rcases reassemble_fst limits b pf with ⟨hb, _⟩ | ⟨_, hbeq⟩
    · exact absurd (hrej.mp hb) ha
    · rw [haeq, hbeq, hknown, hcell]
      exact (h.opened _).write _ _ pf

/-- Reassembly changes two marks of the context and nothing else of it. -/
theorem reassemble_context (limits : Limits) (side : SideState) (pf : PacketFeature) :
    ∃ truncated incomplete, (reassemble limits side pf).1.context =
      { side.context with truncated := truncated, reassemblyIncomplete := incomplete } := by
  have hanchor : (side.anchor pf.sequence).context = side.context := by
    rw [SideState.anchor]
    split
    · rfl
    · rfl
  have hopened : (side.opened pf.sequence).context = side.context := by
    rw [SideState.opened]
    split
    · exact hanchor
    · exact hanchor
  rcases reassemble_fst limits side pf with ⟨_, heq⟩ | ⟨_, heq⟩
  · rw [heq, ← hanchor]
    exact ⟨_, _, rfl⟩
  · rw [heq, ← hopened]
    exact ⟨_, _, rfl⟩

theorem SideState.Room.reassemble (h : side.Room limits) (pf : PacketFeature) :
    (Correlation.reassemble limits side pf).1.Room limits := by
  intro hstore
  obtain ⟨_, _, heq⟩ := reassemble_context limits side pf
  rw [heq]
  exact h hstore

theorem SameSide.appendSide (h : SameSide a b) (ha : a.Room limits) (hb : b.Room limits)
    (pf : PacketFeature) (n m : UInt64) :
    SameSide (appendSide lib limits a pf n) (appendSide lib limits b pf m) := by
  have hcount : SameSide (a.count limits pf) (b.count limits pf) := h.count pf
  rw [Correlation.appendSide, Correlation.appendSide]
  dsimp only
  split
  · exact hcount.index ha hb pf n m _ _
  · have ha' : (a.count limits pf).Room limits := ha
    have hb' : (b.count limits pf).Room limits := hb
    exact (hcount.reassemble pf).index (ha'.reassemble pf) (hb'.reassemble pf) pf n m _ _

theorem SameSide.trans {c : SideState} (h₁ : SameSide a b) (h₂ : SameSide b c) : SameSide a c :=
  ⟨h₂.payload.trans h₁.payload, h₂.window.trans h₁.window, h₂.baseSeq.trans h₁.baseSeq,
    h₂.seqSet.trans h₁.seqSet, h₂.expectedEnd.trans h₁.expectedEnd, h₂.limited.trans h₁.limited,
    h₂.truncated.trans h₁.truncated, h₂.incomplete.trans h₁.incomplete, h₂.fresh.trans h₁.fresh⟩

theorem sameSide_index (h : side.Room limits) (pf : PacketFeature) (n : UInt64) (again : Bool) :
    SameSide side (side.index lib limits pf n again) := by
  refine ⟨rfl, rfl, rfl, rfl, rfl, rfl, ?_, rfl, Iff.rfl⟩
  simp only [SideState.index]
  cases hstore : limits.storePacketIndex with
  | false => simp
  | true => simp [h hstore]

end

/-! ### The same session -/

structure SameTx (a b : TransactionState) : Prop where
  id : b.id = a.id
  final : b.final = a.final
  request : SameSide a.request b.request
  response : SameSide a.response b.response

/-- Two sessions with the same names and the same transactions. -/
structure SameSession (a b : SessionState) : Prop where
  key : b.key = a.key
  id : b.id = a.id
  client : b.client = a.client
  nextTxn : b.nextTxn = a.nextTxn
  transactions : List.Forall₂ SameTx a.transactions b.transactions

def TransactionState.Room (limits : Limits) (tx : TransactionState) : Prop :=
  tx.request.Room limits ∧ tx.response.Room limits

def SessionState.Room (limits : Limits) (st : SessionState) : Prop :=
  ∀ tx ∈ st.transactions, tx.Room limits

theorem SameTx.refl (a : TransactionState) : SameTx a a := ⟨rfl, rfl, .refl _, .refl _⟩

theorem SameSession.refl (a : SessionState) : SameSession a a :=
  ⟨rfl, rfl, rfl, rfl, List.forall₂_same.mpr fun tx _ => .refl tx⟩

section
variable {α β : Type} {R S : α → β → Prop} {l : List α} {l' : List β}

section
variable (h : List.Forall₂ R l l')
include h

theorem forall₂_findIdx? {p : α → Bool} {q : β → Bool} (hp : ∀ a b, R a b → q b = p a) :
    l'.findIdx? q = l.findIdx? p := by
  induction h with
  | nil => rfl
  | cons hab _ ih => rw [List.findIdx?_cons, List.findIdx?_cons, hp _ _ hab, ih]

theorem forall₂_eraseIdx (i : Nat) : List.Forall₂ R (l.eraseIdx i) (l'.eraseIdx i) := by
  induction h generalizing i with
  | nil => exact .nil
  | cons hab hrest ih =>
    cases i with
    | zero => exact hrest
    | succ i => exact .cons hab (ih i)

theorem forall₂_modify_modify {f : α → α} {g : β → β} (hkeep : ∀ a b, R a b → S a b)
    (hfg : ∀ a b, R a b → S (f a) (g b)) (i : Nat) :
    List.Forall₂ S (l.modify i f) (l'.modify i g) := by
  induction h generalizing i with
  | nil => cases i <;> exact .nil
  | cons hab hrest ih =>
    cases i with
    | zero => exact .cons (hfg _ _ hab) (hrest.imp hkeep)
    | succ i => exact .cons (hkeep _ _ hab) (ih i)

theorem forall₂_getElem? (i : Nat) : Option.Rel R l[i]? l'[i]? := by
  induction h generalizing i with
  | nil => exact .none
  | cons hab _ ih =>
    cases i with
    | zero => exact .some hab
    | succ i => exact ih i

end

end

section
variable {lib : Lib} {limits : Limits} {a b : SessionState}

theorem makeSlot_same {l l' : List TransactionState} (h : List.Forall₂ SameTx l l') :
    List.Forall₂ SameTx (makeSlot limits l) (makeSlot limits l') := by
  rw [makeSlot, makeSlot, ← h.length_eq, forall₂_findIdx? h fun _ _ hab => hab.final]
  split
  · exact forall₂_eraseIdx h _
  · exact h

theorem SameSession.newTransaction (h : SameSession a b) (usec : UInt64) :
    SameSession (newTransaction lib limits a usec).1 (newTransaction lib limits b usec).1 ∧
      (newTransaction lib limits b usec).2 = (newTransaction lib limits a usec).2 := by
  have hslot := @makeSlot_same limits _ _ h.transactions
  have hnext : nextTransaction lib b usec = nextTransaction lib a usec := by
    rw [nextTransaction, nextTransaction, h.id, h.nextTxn]
  refine ⟨⟨h.key, h.id, h.client, congrArg (· + 1) h.nextTxn, ?_⟩, hslot.length_eq.symm⟩
  simp only [Correlation.newTransaction, hnext]
  exact List.rel_append hslot (.cons (.refl _) .nil)

theorem SameSession.responseTransaction (h : SameSession a b) (usec : UInt64) :
    SameSession (responseTransaction lib limits a usec).1 (responseTransaction lib limits b usec).1 ∧
      (responseTransaction lib limits b usec).2 = (responseTransaction lib limits a usec).2 := by
  rw [Correlation.responseTransaction, Correlation.responseTransaction,
    forall₂_findIdx? h.transactions fun _ _ hab => by rw [hab.final]]
  split
  · exact ⟨h, rfl⟩
  · exact h.newTransaction usec

theorem SameSession.continuationTransaction (h : SameSession a b) (source : String) :
    continuationTransaction b source = continuationTransaction a source := by
  have hfresh : ∀ x y : TransactionState, SameTx x y →
      (!y.final && y.response.context.packetCount == 0) =
        (!x.final && x.response.context.packetCount == 0) := by
    intro x y hxy
    rw [hxy.final, Bool.eq_iff_iff]
    simp [hxy.response.fresh]
  rw [Correlation.continuationTransaction, Correlation.continuationTransaction, h.client,
    ← h.transactions.length_eq,
    forall₂_findIdx? (List.forall₂_reverse_iff.mpr h.transactions) hfresh,
    forall₂_findIdx? h.transactions fun _ _ hab => by rw [hab.final]]

theorem room_newTransaction (h : a.Room limits) (usec : UInt64) :
    (newTransaction lib limits a usec).1.Room limits := by
  intro tx htx
  rcases newTransaction_mem htx with hold | rfl
  · exact h tx hold
  · exact ⟨fun _ => limits.maxPacketsPerTransaction.2, fun _ => limits.maxPacketsPerTransaction.2⟩

theorem room_responseTransaction (h : a.Room limits) (usec : UInt64) :
    (responseTransaction lib limits a usec).1.Room limits := by
  rw [responseTransaction]
  split
  · exact h
  · exact room_newTransaction h usec

/-- One transaction of each session gets the same packet on the same side. -/
theorem SameSession.modify (h : SameSession a b) (ha : a.Room limits) (hb : b.Room limits)
    {g : TransactionState → TransactionState}
    (hf : ∀ x y, SameTx x y → x.Room limits → y.Room limits → SameTx (f x) (g y)) (i : Nat) :
    SameSession (a.modify i f) (b.modify i g) := by
  refine ⟨h.key, h.id, h.client, h.nextTxn, ?_⟩
  have hroom : List.Forall₂ (fun x y => SameTx x y ∧ x.Room limits ∧ y.Room limits)
      a.transactions b.transactions := by
    refine List.forall₂_iff_get.mpr ⟨h.transactions.length_eq, fun k h₁ h₂ => ?_⟩
    exact ⟨(List.forall₂_iff_get.mp h.transactions).2 k h₁ h₂, ha _ (List.get_mem _ _),
      hb _ (List.get_mem _ _)⟩
  exact forall₂_modify_modify hroom (fun _ _ h => h.1) (fun x y h => hf x y h.1 h.2.1 h.2.2) i

theorem SameTx.appendRequest (h : SameTx x y) (hx : x.Room limits) (hy : y.Room limits)
    (pf : PacketFeature) (n m : UInt64) :
    SameTx (appendRequest lib limits pf n x) (appendRequest lib limits pf m y) :=
  ⟨h.id, h.final, h.request.appendSide hx.1 hy.1 pf n m, h.response⟩

theorem SameTx.appendResponse (h : SameTx x y) (hx : x.Room limits) (hy : y.Room limits)
    (pf : PacketFeature) (n m : UInt64) :
    SameTx (appendResponse lib limits pf n x) (appendResponse lib limits pf m y) := by
  have hresp : SameSide (appendSide lib limits x.response pf n)
    (appendSide lib limits y.response pf m) := h.response.appendSide hx.2 hy.2 pf n m
  refine ⟨h.id, ?_, h.request, hresp⟩
  rw [Correlation.appendResponse, Correlation.appendResponse, h.final, hresp.responseComplete]

/-- A packet keeps two sessions the same. -/
theorem SameSession.attach (h : SameSession a b) (ha : a.Room limits) (hb : b.Room limits)
    (pf : PacketFeature) (n m : UInt64) :
    SameSession (attach lib limits a pf n).1 (attach lib limits b pf m).1 ∧
      (attach lib limits b pf m).2 = (attach lib limits a pf n).2 := by
  have hreq : ∀ x y : TransactionState, SameTx x y → x.Room limits → y.Room limits →
      SameTx (Correlation.appendRequest lib limits pf n x)
        (Correlation.appendRequest lib limits pf m y) :=
    fun x y hxy hx hy => hxy.appendRequest hx hy pf n m
  have hresp : ∀ x y : TransactionState, SameTx x y → x.Room limits → y.Room limits →
      SameTx (Correlation.appendResponse lib limits pf n x)
        (Correlation.appendResponse lib limits pf m y) :=
    fun x y hxy hx hy => hxy.appendResponse hx hy pf n m
  have hclient : ∀ client, SameSession { a with client := client } { b with client := client } :=
    fun client => ⟨h.key, h.id, rfl, h.nextTxn, h.transactions⟩
  rw [Correlation.attach, Correlation.attach]
  dsimp only
  split
  · exact ⟨h, rfl⟩
  cases pf.messageDirection with
  | request =>
    dsimp only
    obtain ⟨hnew, hidx⟩ := @SameSession.newTransaction lib limits _ _
      (hclient (endpoint pf.srcIP pf.srcPort)) pf.packetTimeUsec
    rw [hidx]
    exact ⟨hnew.modify (room_newTransaction ha _) (room_newTransaction hb _) hreq _, rfl⟩
  | response =>
    dsimp only
    rw [h.client]
    split
    · let client := endpoint pf.dstIP pf.dstPort
      have ha' : SessionState.Room limits { a with client := client } := ha
      have hb' : SessionState.Room limits { b with client := client } := hb
      obtain ⟨hnew, hidx⟩ := @SameSession.responseTransaction lib limits _ _ (hclient client)
        pf.packetTimeUsec
      rw [hidx]
      exact ⟨hnew.modify (room_responseTransaction ha' _) (room_responseTransaction hb' _) hresp _,
        rfl⟩
    · obtain ⟨hnew, hidx⟩ := @SameSession.responseTransaction lib limits _ _ h pf.packetTimeUsec
      rw [hidx]
      exact ⟨hnew.modify (room_responseTransaction ha _) (room_responseTransaction hb _) hresp _, rfl⟩
  | none =>
    dsimp only
    split
    · exact ⟨h, rfl⟩
    · rw [h.continuationTransaction]
      cases Correlation.continuationTransaction a (endpoint pf.srcIP pf.srcPort) with
      | none => exact ⟨h, rfl⟩
      | some i =>
        have hfresh : (b.transactions[i]?.map (·.response.context.packetCount)) = some 0 ↔
            (a.transactions[i]?.map (·.response.context.packetCount)) = some 0 := by
          have hrel := forall₂_getElem? h.transactions i
          generalize a.transactions[i]? = x at hrel
          generalize b.transactions[i]? = y at hrel
          cases hrel with
          | none => exact Iff.rfl
          | some hxy => simp [hxy.response.fresh]
        dsimp only
        rw [h.client]
        simp only [hfresh]
        split
        · exact ⟨h.modify ha hb hreq i, rfl⟩
        · exact ⟨h.modify ha hb hresp i, rfl⟩

theorem reviseTransaction_sides (st : SessionState) (tx : TransactionState) :
    (reviseTransaction lib limits st tx).1.request = tx.request ∧
      (reviseTransaction lib limits st tx).1.response = tx.response := by
  simp only [reviseTransaction]
  split
  · exact ⟨rfl, rfl⟩
  · split
    · exact ⟨rfl, rfl⟩
    · exact ⟨rfl, rfl⟩

/-- A revision leaves a transaction the same. -/
theorem SameTx.revise (h : SameTx x y) (st st' : SessionState) :
    SameTx (reviseTransaction lib limits st x).1 (reviseTransaction lib limits st' y).1 := by
  obtain ⟨hx₁, hx₂⟩ := @reviseTransaction_sides lib limits st x
  obtain ⟨hy₁, hy₂⟩ := @reviseTransaction_sides lib limits st' y
  refine ⟨?_, ?_, by rw [hx₁, hy₁]; exact h.request, by rw [hx₂, hy₂]; exact h.response⟩
  · rw [reviseTransaction_id, reviseTransaction_id, h.id]
  · rw [reviseTransaction_final, reviseTransaction_final, h.final]

theorem SameSession.settle (h : SameSession a b) (chosen : Option Nat) (pf : PacketFeature) :
    SameSession (settle lib limits a chosen pf).1 (settle lib limits b chosen pf).1 := by
  rw [Correlation.settle, Correlation.settle]
  split
  · refine ⟨h.key, h.id, h.client, h.nextTxn, ?_⟩
    simp only [List.map_map]
    refine List.forall₂_map_left_iff.mpr (List.forall₂_map_right_iff.mpr ?_)
    refine h.transactions.imp fun x y hxy => SameTx.revise ?_ a b
    exact ⟨hxy.id, rfl, hxy.request, hxy.response⟩
  · cases chosen with
    | none => exact h
    | some i =>
      have hrel := forall₂_getElem? h.transactions i
      simp only [Option.bind_some]
      generalize a.transactions[i]? = x at hrel
      generalize b.transactions[i]? = y at hrel
      cases hrel with
      | none => exact h
      | @some x y hxy =>
        refine ⟨h.key, h.id, h.client, h.nextTxn, ?_⟩
        refine forall₂_modify_modify h.transactions (fun _ _ h => h) (fun _ _ _ => ?_) i
        refine SameTx.revise ?_ a b
        exact ⟨hxy.id, hxy.final, hxy.request, hxy.response⟩

theorem tally_client (st : SessionState) (pf : PacketFeature) :
    (tally st pf).1.client = st.client := by
  have hassess : ∀ st : SessionState, (assessDirection st pf).1.client = st.client := by
    intro st
    rw [assessDirection]
    split
    · rfl
    · dsimp only
      split_ifs <;> rfl
  rw [tally]
  dsimp only
  split
  · exact hassess _
  · exact hassess _

theorem SameSession.tally (h : SameSession a b) (pf : PacketFeature) :
    SameSession (tally a pf).1 (tally b pf).1 := by
  have ha := tally_kept a pf
  have hb := tally_kept b pf
  refine ⟨?_, ?_, ?_, ?_, ?_⟩
  · rw [ha.key, hb.key, h.key]
  · rw [ha.id, hb.id, h.id]
  · rw [tally_client, tally_client, h.client]
  · rw [ha.nextTxn, hb.nextTxn, h.nextTxn]
  · rw [ha.transactions, hb.transactions]
    exact h.transactions

/-- The session of a packet after the packet. -/
def arrive (lib : Lib) (limits : Limits) (st : SessionState) (pf : PacketFeature) (n : UInt64) :
    SessionState :=
  (settle lib limits (attach lib limits (tally st pf).1 pf n).1
    (attach lib limits (tally st pf).1 pf n).2 pf).1

theorem SameSession.arrive (h : SameSession a b) (ha : a.Room limits) (hb : b.Room limits)
    (pf : PacketFeature) (n m : UInt64) :
    SameSession (arrive lib limits a pf n) (arrive lib limits b pf m) := by
  have ha' : (Correlation.tally a pf).1.Room limits := by
    rw [SessionState.Room, (tally_kept a pf).transactions]
    exact ha
  have hb' : (Correlation.tally b pf).1.Room limits := by
    rw [SessionState.Room, (tally_kept b pf).transactions]
    exact hb
  obtain ⟨hattach, hchosen⟩ := @SameSession.attach lib limits _ _ (h.tally pf) ha' hb' pf n m
  rw [Correlation.arrive, Correlation.arrive, hchosen]
  exact hattach.settle _ pf

end

/-! ### Packets that no limit touches -/

/-- A timeout of the cleanup is due in a session. -/
def overdue (limits : Limits) (now : UInt64) (st : SessionState) : Bool :=
  decide (st.lastUsec ≤ now ∧ UInt64.ofNat (limits.sessionIdleTimeout / 1000) ≤ now - st.lastUsec) ||
    st.transactions.any fun tx => decide (¬ tx.final ∧ tx.lastUsec ≤ now ∧
      UInt64.ofNat (limits.responseWait / 1000) ≤ now - tx.lastUsec)

/-- No timeout is due, no session has to make room, and no packet index is full. -/
def quiet (limits : Limits) (t : Tracker) (pf : PacketFeature) : Bool :=
  (t.sessions.all fun st => !overdue limits pf.packetTimeUsec st) &&
    decide ((t.sessions.filter (·.key ≠ (canonicalKey pf).1)).length < limits.maxSessions.val) &&
    (!limits.storePacketIndex || (pool t.sessions).all fun tx =>
      decide (tx.request.context.packets.length < limits.maxPacketsPerTransaction.val ∧
        tx.response.context.packets.length < limits.maxPacketsPerTransaction.val))

section
variable {lib : Lib} {limits : Limits} {t t' : Tracker} {pf : PacketFeature}

theorem sweep_of_not_overdue (h : overdue limits now st = false) :
    sweep lib limits now st = (some st, []) := by
  obtain ⟨hidle, hwait⟩ := Bool.or_eq_false_iff.mp h
  have hexpire : ∀ tx ∈ st.transactions, expireTransaction lib limits now st tx = (tx, []) := by
    intro tx htx
    have hnot := List.any_eq_false.mp hwait tx htx
    rw [decide_eq_true_eq] at hnot
    rw [expireTransaction, if_neg hnot]
  have hmap : st.transactions.map (expireTransaction lib limits now st) =
      st.transactions.map fun tx => (tx, []) := List.map_congr_left hexpire
  rw [sweep]
  simp only [hmap, List.map_map, List.flatMap_map]
  rw [if_neg (of_decide_eq_false hidle)]
  simp [Function.comp_def]

theorem Keyed.eq {sessions : List SessionState} (h : Keyed sessions) {a b : SessionState}
    (ha : a ∈ sessions) (hb : b ∈ sessions) (hkey : a.key = b.key) : a = b :=
  List.inj_on_of_nodup_map h ha hb hkey

theorem room_newSession (limits : Limits) (pf : PacketFeature) :
    (newSession lib pf).Room limits := fun _ htx => (List.not_mem_nil htx).elim

/-! ### Sessions of a run -/

/-- What holds of a transaction between two packets: its sides are sound, and an open one has no
    complete response. -/
structure Fit (lib : Lib) (limits : Limits) (tx : TransactionState) : Prop where
  request : tx.request.Sound limits
  response : tx.response.Sound limits
  pending : tx.final = false → tx.response.context.packetCount ≠ 0 →
    responseComplete lib tx.response = false

/-- A session with fit transactions, and a client once there is one. -/
structure FitSession (lib : Lib) (limits : Limits) (st : SessionState) : Prop where
  fit : ∀ tx ∈ st.transactions, Fit lib limits tx
  client : st.transactions ≠ [] → st.client ≠ ""

theorem Fit.next (st : SessionState) (usec : UInt64) : Fit lib limits (nextTransaction lib st usec) :=
  ⟨SideState.sound_new, SideState.sound_new, fun _ h => absurd rfl h⟩

theorem Fit.appendRequest (h : Fit lib limits tx) (n : UInt64) :
    Fit lib limits (appendRequest lib limits pf n tx) :=
  ⟨h.request.appendSide pf n, h.response, h.pending⟩

theorem Fit.appendResponse (h : Fit lib limits tx) (n : UInt64) :
    Fit lib limits (appendResponse lib limits pf n tx) := by
  refine ⟨h.request, h.response.appendSide pf n, fun hopen _ => ?_⟩
  exact (Bool.or_eq_false_iff.mp hopen).2

theorem Fit.revise (h : Fit lib limits tx) (st : SessionState) :
    Fit lib limits (reviseTransaction lib limits st tx).1 := by
  obtain ⟨hreq, hresp⟩ := @reviseTransaction_sides lib limits st tx
  refine ⟨by rw [hreq]; exact h.request, by rw [hresp]; exact h.response, ?_⟩
  rw [reviseTransaction_final, hresp]
  exact h.pending

theorem Fit.close (h : Fit lib limits tx) (st : SessionState) :
    Fit lib limits (closeTransaction lib limits st tx).1 := by
  have hfinal : Fit lib limits { tx with final := true } :=
    ⟨h.request, h.response, fun hopen => absurd hopen (by simp)⟩
  exact hfinal.revise st

theorem FitSession.new (pf : PacketFeature) : FitSession lib limits (newSession lib pf) :=
  ⟨fun _ htx => (List.not_mem_nil htx).elim, fun h => absurd rfl h⟩

theorem FitSession.sweep {st' : SessionState} (h : FitSession lib limits st)
    (hsome : (sweep lib limits now st).1 = some st') : FitSession lib limits st' := by
  simp only [Correlation.sweep] at hsome
  split at hsome
  · simp at hsome
  · rw [← Option.some.inj hsome]
    refine ⟨fun tx htx => ?_, fun hne => h.client ?_⟩
    · simp only [List.map_map, List.mem_map, Function.comp_apply] at htx
      obtain ⟨tx₀, htx₀, rfl⟩ := htx
      rw [expireTransaction]
      split
      · exact (h.fit tx₀ htx₀).close st
      · exact h.fit tx₀ htx₀
    · exact fun hnil => hne (by simp [hnil])

theorem FitSession.cleanup {order : Order} {st' : SessionState}
    (h : ∀ st ∈ t.sessions, FitSession lib limits st)
    (hst' : st' ∈ (cleanupLocked lib limits order t now).1.sessions) :
    FitSession lib limits st' := by
  obtain ⟨st, hst, rfl | hswept⟩ := cleanupLocked_mem hst'
  · exact h _ hst
  · exact (h st hst).sweep hswept

theorem mem_modify {l : List TransactionState} {i : Nat} (h : tx ∈ l.modify i f) :
    tx ∈ l ∨ ∃ a ∈ l, tx = f a := by
  obtain ⟨k, hk, rfl⟩ := List.mem_iff_getElem.mp h
  rw [List.length_modify] at hk
  rw [List.getElem_modify]
  split
  · exact Or.inr ⟨_, List.getElem_mem hk, rfl⟩
  · exact Or.inl (List.getElem_mem hk)

theorem FitSession.modify (h : FitSession lib limits st)
    (hf : ∀ tx, Fit lib limits tx → Fit lib limits (f tx)) (i : Nat) :
    FitSession lib limits (st.modify i f) := by
  refine ⟨fun tx htx => ?_, fun hne => h.client fun hnil => hne ?_⟩
  · rcases mem_modify htx with hold | ⟨a, ha, rfl⟩
    · exact h.fit tx hold
    · exact hf a (h.fit a ha)
  · rw [SessionState.modify, hnil]
    cases i <;> rfl

theorem FitSession.newTransaction (h : FitSession lib limits st) (hclient : st.client ≠ "")
    (usec : UInt64) : FitSession lib limits (newTransaction lib limits st usec).1 := by
  refine ⟨fun tx htx => ?_, fun _ => hclient⟩
  rcases newTransaction_mem htx with hold | rfl
  · exact h.fit tx hold
  · exact .next _ _

theorem FitSession.attach (h : FitSession lib limits st) (n : UInt64) :
    FitSession lib limits (attach lib limits st pf n).1 := by
  refine attach_rule ?_ ?_ ?_ ?_ h
  · exact fun st ip port h => ⟨h.fit, fun _ => endpoint_ne_empty ip port⟩
  · exact fun st hne h => h.newTransaction hne _
  · exact fun st i h => h.modify (fun tx htx => htx.appendRequest n) i
  · exact fun st i h => h.modify (fun tx htx => htx.appendResponse n) i

theorem FitSession.settle (h : FitSession lib limits st) (chosen : Option Nat) :
    FitSession lib limits (settle lib limits st chosen pf).1 := by
  rcases @settle_cases lib limits st chosen pf with ⟨-, heq⟩ | ⟨-, heq | ⟨i, tx, -, htx, heq⟩⟩ <;>
    rw [heq]
  · refine ⟨fun tx htx => ?_, fun hne => h.client fun hnil => hne (by simp [hnil])⟩
    obtain ⟨tx₀, htx₀, rfl⟩ := List.mem_map.mp htx
    exact (h.fit tx₀ htx₀).close st
  · exact h
  · have hfit := h.fit tx (List.mem_of_getElem? htx)
    have htouched : Fit lib limits { tx with lastUsec := pf.packetTimeUsec } :=
      ⟨hfit.request, hfit.response, hfit.pending⟩
    exact h.modify (fun _ _ => htouched.revise st) _

theorem FitSession.arrive (h : FitSession lib limits st) (n : UInt64) :
    FitSession lib limits (arrive lib limits st pf n) := by
  have htally : FitSession lib limits (tally st pf).1 := by
    refine ⟨?_, ?_⟩
    · rw [(tally_kept st pf).transactions]
      exact h.fit
    · rw [(tally_kept st pf).transactions, tally_client]
      exact h.client
  exact (htally.attach n).settle _

theorem FitSession.observe (h : ∀ st ∈ t.sessions, FitSession lib limits st)
    (hkeyed : Keyed t.sessions) (orders : Orders) (n : UInt64) :
    ∀ st ∈ (observe lib limits orders t pf n).1.sessions, FitSession lib limits st := by
  intro st hst
  have hspec := @found_spec lib limits t orders hkeyed pf
  rw [observe_sessions] at hst
  rcases List.mem_cons.mp hst with rfl | hother
  · refine FitSession.arrive ?_ n
    rcases hspec.origin with hold | hnew
    · exact FitSession.cleanup h hold
    · rw [hnew]
      exact .new pf
  · exact FitSession.cleanup h (hspec.others.subset hother)

end

/-! ### Traces -/

/-- A packet of a trace, with its number and the orders of its loops. -/
structure Arrival where
  pf : PacketFeature
  seq : UInt64 := 0
  orders : Orders := {}

def play (lib : Lib) (limits : Limits) (t : Tracker) (trace : List Arrival) : Tracker :=
  trace.foldl (fun t a => (observe lib limits a.orders t a.pf a.seq).1) t

section
variable {lib : Lib} {limits : Limits}

/-- What every trace keeps. -/
theorem play_invariant (lib : Lib) (limits : Limits) (trace : List Arrival) :
    Keyed (play lib limits {} trace).sessions ∧
      ∀ st ∈ (play lib limits {} trace).sessions, FitSession lib limits st := by
  induction trace using List.reverseRecOn with
  | nil => exact ⟨List.nodup_nil, fun _ hst => (List.not_mem_nil hst).elim⟩
  | append_singleton trace a ih =>
    rw [play, List.foldl_append]
    exact ⟨observe_keyed a.orders ih.1 a.pf a.seq, FitSession.observe ih.2 ih.1 a.orders a.seq⟩

/-! ### One connection -/

/-- The session of a connection. -/
def Tracker.session (t : Tracker) (key : String) : Option SessionState :=
  t.sessions.find? (·.key = key)

/-- A packet leaves the session of a connection alone: no timeout is due in it, its packet indexes
    have room for a packet of its own, and no other connection's packet makes it go. -/
def Spares (lib : Lib) (limits : Limits) (key : String) (t : Tracker) (a : Arrival) : Prop :=
  ∀ st ∈ t.sessions, st.key = key → overdue limits a.pf.packetTimeUsec st = false ∧
    if (canonicalKey a.pf).1 = key then st.Room limits
    else key ∈ (found lib limits a.orders t a.pf).2.1.map (·.key)

instance (limits : Limits) (st : SessionState) : Decidable (st.Room limits) :=
  inferInstanceAs (Decidable (∀ tx ∈ st.transactions,
    (limits.storePacketIndex = true → _ < _) ∧ (limits.storePacketIndex = true → _ < _)))

instance (lib : Lib) (limits : Limits) (key : String) (t : Tracker) (a : Arrival) :
    Decidable (Spares lib limits key t a) :=
  inferInstanceAs (Decidable (∀ st ∈ t.sessions, st.key = key → _ = false ∧
    if (canonicalKey a.pf).1 = key then st.Room limits else key ∈ List.map _ _))

/-- Every packet of the trace leaves the session of a connection alone. -/
def SparedBy (lib : Lib) (limits : Limits) (key : String) : Tracker → List Arrival → Prop
  | _, [] => True
  | t, a :: trace => Spares lib limits key t a ∧
      SparedBy lib limits key (observe lib limits a.orders t a.pf a.seq).1 trace

instance (lib : Lib) (limits : Limits) (key : String) :
    ∀ t trace, Decidable (SparedBy lib limits key t trace)
  | _, [] => isTrue trivial
  | t, a :: trace =>
    have := instDecidableSparedBy lib limits key (observe lib limits a.orders t a.pf a.seq).1 trace
    inferInstanceAs (Decidable (_ ∧ _))

/-- The session that a packet meets: the one of its connection, unless it opens a new one. -/
def met (lib : Lib) (pf : PacketFeature) : Option SessionState → SessionState
  | some st => if Opens pf then newSession lib pf else st
  | none => newSession lib pf

variable {t t' : Tracker} {key : String} {a b : Arrival}

theorem Keyed.session (h : Keyed t.sessions) (hst : st ∈ t.sessions) (hkey : st.key = key) :
    t.session key = some st := by
  cases hfind : t.session key with
  | none => simpa [hkey] using List.find?_eq_none.mp hfind st hst
  | some st' =>
    have hkey' : st'.key = key := by simpa using List.find?_some hfind
    rw [h.eq (List.mem_of_find?_eq_some hfind) hst (hkey'.trans hkey.symm)]

theorem mem_of_session (h : t.session key = some st) : st ∈ t.sessions ∧ st.key = key :=
  ⟨List.mem_of_find?_eq_some h, by simpa using List.find?_some h⟩

theorem session_eq_none : t.session key = none ↔ ∀ st ∈ t.sessions, st.key ≠ key := by
  simp [Tracker.session]

theorem mem_cleanup_of_not_overdue (h : overdue limits now st = false) (hst : st ∈ t.sessions)
    (order : Order) : st ∈ (cleanupLocked lib limits order t now).1.sessions := by
  rw [cleanupLocked]
  split
  · exact hst
  · split
    · exact hst
    · refine List.mem_filterMap.mpr ⟨_, List.mem_map.mpr ⟨st, (order.perm _).mem_iff.mpr hst, rfl⟩, ?_⟩
      rw [sweep_of_not_overdue h]

/-- The cleanup leaves the session alone. -/
theorem Spares.session_cleanup (hs : Spares lib limits key t a) (hk : Keyed t.sessions) :
    (cleanupLocked lib limits a.orders.cleanup t a.pf.packetTimeUsec).1.session key =
      t.session key := by
  cases h : t.session key with
  | none =>
    refine session_eq_none.mpr fun st' hst' hkey => ?_
    obtain ⟨st, hst, rfl | hswept⟩ := cleanupLocked_mem hst'
    · exact session_eq_none.mp h _ hst hkey
    · exact session_eq_none.mp h st hst ((sweep_key hswept).symm.trans hkey)
  | some st =>
    obtain ⟨hst, hkey⟩ := mem_of_session h
    exact (hk.cleanupLocked _ _).session (mem_cleanup_of_not_overdue (hs st hst hkey).1 hst _) hkey

theorem found_eq_met (orders : Orders) (pf : PacketFeature) :
    (found lib limits orders t pf).1 = met lib pf
      ((cleanupLocked lib limits orders.cleanup t pf.packetTimeUsec).1.session (canonicalKey pf).1) := by
  rw [found, locate, Tracker.session]
  cases (List.find? _ _) with
  | none => rfl
  | some st =>
    dsimp only [met]
    split <;> rfl

theorem met_key (t : Tracker) (pf : PacketFeature) :
    (met lib pf (t.session (canonicalKey pf).1)).key = (canonicalKey pf).1 := by
  cases h : t.session (canonicalKey pf).1 with
  | none => rfl
  | some st =>
    rw [met]
    split
    · rfl
    · exact (mem_of_session h).2

theorem arrive_key (st : SessionState) (pf : PacketFeature) (n : UInt64) :
    (arrive lib limits st pf n).key = st.key := by
  rw [arrive, (@settle_named lib limits _ _ pf).1, (@attach_named lib limits _ pf n).1,
    (tally_kept st pf).key]

/-- What a packet does to the session of a connection that it leaves alone. -/
theorem Spares.session_observe (hs : Spares lib limits key t a) (hk : Keyed t.sessions) :
    (observe lib limits a.orders t a.pf a.seq).1.session key =
      if (canonicalKey a.pf).1 = key then
        some (arrive lib limits (met lib a.pf (t.session key)) a.pf a.seq)
      else t.session key := by
  have hkeyed := @observe_keyed lib limits t a.orders hk a.pf a.seq
  have hclean := hs.session_cleanup hk
  have hothers := (@found_spec lib limits t a.orders hk a.pf).others
  have hhead : (observed lib limits a.orders t a.pf a.seq).1 =
      arrive lib limits (found lib limits a.orders t a.pf).1 a.pf a.seq := rfl
  have hfound := @found_eq_met lib limits t a.orders a.pf
  split
  · rename_i hkey
    subst hkey
    rw [hclean] at hfound
    rw [← hfound, ← hhead]
    refine hkeyed.session List.mem_cons_self ?_
    rw [hhead, arrive_key, hfound, met_key]
  · rename_i hkey
    cases h : t.session key with
    | none =>
      refine session_eq_none.mpr fun st hst => ?_
      rw [observe_sessions] at hst
      rcases List.mem_cons.mp hst with rfl | hother
      · rw [hhead, arrive_key, hfound, met_key]
        exact hkey
      · exact session_eq_none.mp (hclean.trans h) st (hothers.subset hother)
    | some st =>
      obtain ⟨hst, hstkey⟩ := mem_of_session h
      obtain ⟨hdue, hstays⟩ := hs st hst hstkey
      rw [if_neg hkey] at hstays
      obtain ⟨st', hst', hkey'⟩ := List.mem_map.mp hstays
      have hsame : st' = st := (hk.cleanupLocked _ _).eq (hothers.subset hst')
        (mem_cleanup_of_not_overdue hdue hst _) (hkey'.trans hstkey.symm)
      exact hkeyed.session (List.mem_cons_of_mem _ (hsame ▸ hst')) hstkey

/-- The connection has the same session in both trackers, or none. -/
def SameAt (key : String) (t t' : Tracker) : Prop :=
  Option.Rel SameSession (t.session key) (t'.session key)

theorem Spares.room (hs : Spares lib limits key t a) (hkey : (canonicalKey a.pf).1 = key) :
    (met lib a.pf (t.session key)).Room limits := by
  cases h : t.session key with
  | none => exact room_newSession limits a.pf
  | some st =>
    obtain ⟨hst, hstkey⟩ := mem_of_session h
    have hroom := (hs st hst hstkey).2
    rw [if_pos hkey] at hroom
    rw [met]
    split
    · exact room_newSession limits a.pf
    · exact hroom

/-- The same packet keeps the session the same. -/
theorem SameAt.observe (h : SameAt key t t') (hk : Keyed t.sessions) (hk' : Keyed t'.sessions)
    (hs : Spares lib limits key t a) (hs' : Spares lib limits key t' b) (hpf : b.pf = a.pf) :
    SameAt key (observe lib limits a.orders t a.pf a.seq).1
      (observe lib limits b.orders t' b.pf b.seq).1 := by
  have hroom := hs.room
  have hroom' := hs'.room
  rw [SameAt, hs.session_observe hk, hs'.session_observe hk']
  rw [hpf] at hroom' ⊢
  split
  · rename_i hkey
    have hmet : SameSession (met lib a.pf (t.session key)) (met lib a.pf (t'.session key)) := by
      rw [SameAt] at h
      generalize t.session key = x at h
      generalize t'.session key = y at h
      cases h with
      | none => exact .refl _
      | some hxy =>
        rw [met, met]
        split
        · exact .refl _
        · exact hxy
    exact .some (hmet.arrive (hroom hkey) (hroom' hkey) a.pf a.seq b.seq)
  · exact h

/-- The same packets keep the session the same. -/
theorem SameAt.play {trace trace' : List Arrival} (h : SameAt key t t') (hk : Keyed t.sessions)
    (hk' : Keyed t'.sessions) (hpf : List.Forall₂ (fun a b => b.pf = a.pf) trace trace')
    (hs : SparedBy lib limits key t trace) (hs' : SparedBy lib limits key t' trace') :
    SameAt key (play lib limits t trace) (play lib limits t' trace') := by
  induction hpf generalizing t t' with
  | nil => exact h
  | cons hab _ ih =>
    exact ih (h.observe hk hk' hs.1 hs'.1 hab) (observe_keyed _ hk _ _) (observe_keyed _ hk' _ _)
      hs.2 hs'.2

/-- The session of a connection has the same transactions with the same reassembled bytes. -/
def SamePairing (key : String) (t t' : Tracker) : Prop :=
  Option.Rel (fun st st' => st'.nextTxn = st.nextTxn ∧
    List.Forall₂ (fun x y => y.id = x.id ∧ y.request.payload = x.request.payload ∧
      y.response.payload = x.response.payload) st.transactions st'.transactions)
    (t.session key) (t'.session key)

theorem SamePairing.nextTxn (h : SamePairing key t t') :
    (t.session key).map (·.nextTxn) = (t'.session key).map (·.nextTxn) := by
  rw [SamePairing] at h
  generalize t.session key = x at h ⊢
  generalize t'.session key = y at h ⊢
  cases h with
  | none => rfl
  | some hsame => exact congrArg some hsame.1.symm

theorem SameAt.samePairing (h : SameAt key t t') : SamePairing key t t' := by
  rw [SameAt] at h
  rw [SamePairing]
  generalize t.session key = x at h
  generalize t'.session key = y at h
  cases h with
  | none => exact .none
  | some hsame =>
    exact .some ⟨hsame.nextTxn, hsame.transactions.imp fun x y hxy =>
      ⟨hxy.id, hxy.request.payload, hxy.response.payload⟩⟩

end

end TaNode.Correlation

import Mathlib.Data.List.Chain
import TaNode.Correlation.Growth
import TaNode.Correlation.Lifetimes

/-! How often an open transaction is revised.

    A revision of an open transaction stores the time of the packet that brought it, and a later
    packet brings the next one only if the unsigned difference of the two times has reached the
    interval:

        revised at   t₁ ───────────── t₂          t₂ - t₁ ≥ interval
                      └── throttled ──┘

    That spaces the revisions by the interval as long as no packet comes from before the revision it
    is compared with. If one does the difference wraps, and the packet brings a revision at once.
    Time 0 stands for a transaction that was never revised. -/

namespace TaNode.Correlation

variable {a b tx : TransactionState} {i : Nat} {ev : ThreatEvent} {pf : PacketFeature} {t : Tracker}

/-! ### Revisions and their times -/

/-- Whether a packet brought a revision of the transaction with an id that was not its last. -/
def Met.revises (m : Met) (id : String) : Bool :=
  m.obs.updates.any fun ev => !ev.contextFinal && ev.transactionID == id

/-- The times of the packets that brought such revisions, in order. -/
def revisions (ms : List Met) (id : String) : List UInt64 :=
  (ms.filter (·.revises id)).map (·.packet.packetTimeUsec)

/-- Two packet times, in microseconds, at least the interval apart. -/
def Apart (limits : Limits) (a b : UInt64) : Prop :=
  limits.revisionInterval.val ≤ 1000 * ((a.toNat : Int) - b.toNat).natAbs

/-- Consecutive revisions of a transaction are at least the interval apart. -/
def Spaced (limits : Limits) (ms : List Met) : Prop :=
  ∀ id, (revisions ms id).IsChain (Apart limits)

section
variable (lib : Lib) (limits : Limits) (orders : Orders) (t : Tracker) (pf : PacketFeature)
  (n : UInt64)

/-- The transaction a packet is given to. -/
def givenTo : Option TransactionState :=
  let attached := attach lib limits (tally (found lib limits orders t pf).1 pf).1 pf n
  attached.2.bind (attached.1.transactions[·]?)

/-- The transaction whose times the throttle of an `Observe` subtracts. -/
def throttleCheck : Option TransactionState :=
  if Closes pf then none
  else ((givenTo lib limits orders t pf n).map fun tx =>
    { tx with lastUsec := pf.packetTimeUsec }).filter fun tx =>
      tx.events ≠ [] ∧ ¬ tx.final ∧ tx.lastReviseUsec ≠ 0

/-- The unsigned subtraction of an `Observe` goes below zero. -/
def wraps : Bool :=
  (throttleCheck lib limits orders t pf n).any fun tx => tx.lastUsec < tx.lastReviseUsec

/-- A packet that is not from before the last revision of the open transaction it is given to. -/
def Timely : Prop :=
  ∀ tx ∈ givenTo lib limits orders t pf n, ¬Closes pf → tx.final = false → tx.events ≠ [] →
    pf.packetTimeUsec ≠ 0 ∧ tx.lastReviseUsec ≤ pf.packetTimeUsec

instance : Decidable (Timely lib limits orders t pf n) := by
  unfold Timely
  infer_instance

end

/-- An interval of whole microseconds, in a 64-bit duration. -/
def Limits.WholeInterval (limits : Limits) : Prop :=
  1000 ∣ limits.revisionInterval.val ∧ limits.revisionInterval.val < 2 ^ 63

/-! ### Ageing -/

/-- A transaction after a call that did not revise it while it was open. -/
structure Aged (a b : TransactionState) : Prop where
  id : b.id = a.id
  events : ∀ ev ∈ b.events, ∃ ev₀ ∈ a.events, ev.transactionID = ev₀.transactionID
  still : b.final = false → a.final = false ∧ b.lastReviseUsec = a.lastReviseUsec

/-- A transaction with a number the session has not used, never revised. -/
structure Unused (lib : Lib) (st : SessionState) (b : TransactionState) : Prop where
  number : ∃ k, st.nextTxn < k ∧ b.id = txnID lib st.id k
  events : b.events = []
  still : b.final = false → b.lastReviseUsec = 0

/-- A session after a call that revised none of its open transactions. -/
structure Ages (lib : Lib) (st st' : SessionState) : Prop where
  follows : Follows lib st st'
  nextTxn : st.nextTxn ≤ st'.nextTxn
  each : ∀ b ∈ st'.transactions, (∃ a ∈ st.transactions, Aged a b) ∨ Unused lib st b

variable {lib : Lib} {limits : Limits} {st st' : SessionState}

theorem Aged.refl (a : TransactionState) : Aged a a :=
  ⟨rfl, fun ev hev => ⟨ev, hev, rfl⟩, fun h => ⟨h, rfl⟩⟩

variable {c : TransactionState} {f : TransactionState → TransactionState}

theorem Aged.trans (h₁ : Aged a b) (h₂ : Aged b c) : Aged a c := by
  refine ⟨h₂.id.trans h₁.id, fun ev hev => ?_, fun hopen => ?_⟩
  · obtain ⟨ev₁, hev₁, heq₁⟩ := h₂.events ev hev
    obtain ⟨ev₀, hev₀, heq₀⟩ := h₁.events ev₁ hev₁
    exact ⟨ev₀, hev₀, heq₁.trans heq₀⟩
  · obtain ⟨hb, heq₁⟩ := h₂.still hopen
    obtain ⟨ha, heq₀⟩ := h₁.still hb
    exact ⟨ha, heq₁.trans heq₀⟩

theorem Aged.events_ne_nil (h : Aged a b) (hb : b.events ≠ []) : a.events ≠ [] := by
  obtain ⟨ev, hev⟩ := List.exists_mem_of_ne_nil _ hb
  obtain ⟨ev₀, hev₀, -⟩ := h.events ev hev
  exact List.ne_nil_of_mem hev₀

theorem Unused.aged (h : Unused lib st b) (haged : Aged b c) : Unused lib st c := by
  obtain ⟨k, hk, hid⟩ := h.number
  refine ⟨⟨k, hk, haged.id.trans hid⟩, ?_, fun hopen => ?_⟩
  · by_contra hne
    exact haged.events_ne_nil hne h.events
  · obtain ⟨hb, heq⟩ := haged.still hopen
    exact heq.trans (h.still hb)

theorem Ages.of_kept (h : Kept st st') : Ages lib st st' :=
  ⟨.same h, Nat.le_of_eq h.nextTxn.symm, fun b hb => .inl ⟨b, h.transactions ▸ hb, Aged.refl b⟩⟩

theorem Ages.trans {st'' : SessionState} (h₁ : Ages lib st st') (h₂ : Ages lib st' st'') :
    Ages lib st st'' := by
  refine ⟨h₁.follows.trans h₂.follows, Nat.le_trans h₁.nextTxn h₂.nextTxn, fun c hc => ?_⟩
  rcases h₂.each c hc with ⟨b, hb, hbc⟩ | hnew
  · rcases h₁.each b hb with ⟨a, ha, hab⟩ | hunused
    · exact .inl ⟨a, ha, hab.trans hbc⟩
    · exact .inr (hunused.aged hbc)
  · obtain ⟨k, hk, hid⟩ := hnew.number
    exact .inr ⟨⟨k, Nat.lt_of_le_of_lt h₁.nextTxn hk, by rw [hid, h₁.follows.key_id.2]⟩,
      hnew.events, hnew.still⟩

/-- A member of a list with one member changed, by its index. -/
theorem mem_modify_cases {l : List TransactionState} (h : b ∈ l.modify i f) :
    (∃ a, l[i]? = some a ∧ b = f a) ∨ ∃ j, j ≠ i ∧ l[j]? = some b := by
  obtain ⟨j, hj, rfl⟩ := List.getElem_of_mem h
  rw [List.length_modify] at hj
  rw [List.getElem_modify]
  split
  · rename_i hij
    subst hij
    exact .inl ⟨l[i], List.getElem?_eq_getElem hj, rfl⟩
  · rename_i hij
    exact .inr ⟨j, fun h => hij h.symm, List.getElem?_eq_getElem hj⟩

/-- One transaction ages in place. -/
theorem Ages.modify (i : Nat) (hfollows : Follows lib st (st.modify i f))
    (h : ∀ a, st.transactions[i]? = some a → Aged a (f a)) : Ages lib st (st.modify i f) := by
  refine ⟨hfollows, Nat.le_refl _, fun b hb => .inl ?_⟩
  rcases mem_modify_cases hb with ⟨a, ha, rfl⟩ | ⟨j, -, hj⟩
  · exact ⟨a, List.mem_of_getElem? ha, h a ha⟩
  · exact ⟨b, List.mem_of_getElem? hj, Aged.refl b⟩

/-! ### The parts of `Observe` -/

theorem reviseTransaction_final_updates (h : ev ∈ (reviseTransaction lib limits st tx).2) :
    ev.contextFinal = tx.final := by
  simp only [reviseTransaction] at h
  split at h
  · cases h
  · split at h
    · cases h
    · obtain ⟨ev₀, -, rfl⟩ := List.mem_map.mp h
      exact (reviseEvent_revises _ _ _).contextFinal ev₀

/-- Revising a final transaction ages it: the throttle is for open ones. -/
theorem reviseTransaction_aged (hfinal : tx.final = true) :
    Aged tx (reviseTransaction lib limits st tx).1 := by
  refine ⟨reviseTransaction_id, ?_, fun hopen => ?_⟩
  · simp only [reviseTransaction]
    split
    · exact fun ev hev => ⟨ev, hev, rfl⟩
    · split
      · exact fun ev hev => ⟨ev, hev, rfl⟩
      · intro ev hev
        obtain ⟨ev₀, hev₀, rfl⟩ := List.mem_map.mp hev
        exact ⟨ev₀, hev₀, (reviseEvent_revises _ _ _).transactionID ev₀⟩
  · rw [reviseTransaction_final, hfinal] at hopen
    cases hopen

theorem closeTransaction_aged (tx : TransactionState) :
    Aged tx (closeTransaction lib limits st tx).1 := by
  have hclosed : Aged tx { tx with final := true } :=
    ⟨rfl, fun ev hev => ⟨ev, hev, rfl⟩, fun h => by cases h⟩
  exact hclosed.trans (reviseTransaction_aged rfl)

theorem closeTransaction_updates (h : ev ∈ (closeTransaction lib limits st tx).2) :
    ev.contextFinal = true :=
  reviseTransaction_final_updates h

theorem sweep_ages {now : UInt64} (h : (sweep lib limits now st).1 = some st') :
    Ages lib st st' := by
  have hfollows := sweep_follows h
  simp only [sweep] at h
  split at h
  · cases h
  · obtain rfl := Option.some.inj h
    refine ⟨hfollows, Nat.le_refl _, fun b hb => .inl ?_⟩
    rw [List.map_map] at hb
    obtain ⟨a, ha, rfl⟩ := List.mem_map.mp hb
    refine ⟨a, ha, ?_⟩
    simp only [Function.comp, expireTransaction]
    split
    · exact closeTransaction_aged a
    · exact Aged.refl a

theorem newTransaction_ages (usec : UInt64) :
    Ages lib st (newTransaction lib limits st usec).1 := by
  refine ⟨newTransaction_follows usec, Nat.le_succ _, fun b hb => ?_⟩
  rcases newTransaction_mem hb with hold | rfl
  · exact .inl ⟨b, hold, Aged.refl b⟩
  · exact .inr ⟨⟨st.nextTxn + 1, Nat.lt_succ_self _, rfl⟩, rfl, fun _ => rfl⟩

theorem appendRequest_aged (pf : PacketFeature) (n : UInt64) (tx : TransactionState) :
    Aged tx (appendRequest lib limits pf n tx) :=
  ⟨rfl, fun ev hev => ⟨ev, hev, rfl⟩, fun h => ⟨h, rfl⟩⟩

theorem appendResponse_aged (pf : PacketFeature) (n : UInt64) (tx : TransactionState) :
    Aged tx (appendResponse lib limits pf n tx) :=
  ⟨rfl, fun ev hev => ⟨ev, hev, rfl⟩, fun h => ⟨(Bool.or_eq_false_iff.mp h).1, rfl⟩⟩

theorem modify_request_ages (i : Nat) (pf : PacketFeature) (n : UInt64) :
    Ages lib st (st.modify i (appendRequest lib limits pf n)) :=
  .modify i (modify_follows i fun _ => ⟨rfl, fun h => h⟩) fun a _ => appendRequest_aged pf n a

theorem modify_response_ages (i : Nat) (pf : PacketFeature) (n : UInt64) :
    Ages lib st (st.modify i (appendResponse lib limits pf n)) :=
  .modify i (modify_follows i fun tx => ⟨rfl, (appendResponse_touched pf n tx).final⟩)
    fun a _ => appendResponse_aged pf n a

theorem attach_ages (pf : PacketFeature) (n : UInt64) :
    Ages lib st (attach lib limits st pf n).1 := by
  refine attach_rule ?_ ?_ ?_ ?_ (.of_kept ⟨rfl, rfl, rfl, rfl⟩)
  · exact fun _ _ _ h => h.trans (.of_kept ⟨rfl, rfl, rfl, rfl⟩)
  · exact fun _ _ h => h.trans (newTransaction_ages _)
  · exact fun _ i h => h.trans (modify_request_ages i pf n)
  · exact fun _ i h => h.trans (modify_response_ages i pf n)

/-- The session of a packet once the packet is attached. -/
theorem attached_ages (pf : PacketFeature) (n : UInt64) :
    Ages lib st (attach lib limits (tally st pf).1 pf n).1 :=
  (Ages.of_kept (tally_kept st pf)).trans (attach_ages pf n)

/-- What comes after a packet is attached: only last revisions, or one revision of its open
    transaction, which the throttle let through. -/
inductive AfterPacket (lib : Lib) (limits : Limits) (st : SessionState) (chosen : Option Nat)
    (pf : PacketFeature) : Prop where
  | quiet (ages : Ages lib st (settle lib limits st chosen pf).1)
      (last : ∀ ev ∈ (settle lib limits st chosen pf).2, ev.contextFinal = true)
  | revised (i : Nat) (tx : TransactionState) (f : ThreatEvent → ThreatEvent)
      (isOpen : Closes pf = false) (index : chosen = some i) (here : st.transactions[i]? = some tx)
      (opened : tx.final = false) (events : tx.events ≠ [])
      (due : tx.lastReviseUsec ≠ 0 →
        UInt64.ofNat (limits.revisionInterval / 1000) ≤ pf.packetTimeUsec - tx.lastReviseUsec)
      (after : (settle lib limits st chosen pf).1 = st.modify i fun _ =>
        { tx with
          lastUsec := pf.packetTimeUsec
          lastReviseUsec := pf.packetTimeUsec
          events := tx.events.map f })
      (updates : (settle lib limits st chosen pf).2 = tx.events.map f) (revises : Revises f false)

/-- Revising the transaction of a packet: no revision of an open transaction comes out, or all its
    events do. -/
theorem reviseTransaction_cases (st : SessionState) (tx : TransactionState) (usec : UInt64) :
    (Aged tx (reviseTransaction lib limits st { tx with lastUsec := usec }).1 ∧
      ∀ ev ∈ (reviseTransaction lib limits st { tx with lastUsec := usec }).2,
        ev.contextFinal = true) ∨
    tx.final = false ∧ tx.events ≠ [] ∧ (tx.lastReviseUsec ≠ 0 →
        UInt64.ofNat (limits.revisionInterval / 1000) ≤ usec - tx.lastReviseUsec) ∧
      ∃ f, Revises f false ∧ reviseTransaction lib limits st { tx with lastUsec := usec } =
        ({ tx with lastUsec := usec, lastReviseUsec := usec, events := tx.events.map f },
          tx.events.map f) := by
  have hstamped : Aged tx { tx with lastUsec := usec } :=
    ⟨rfl, fun ev hev => ⟨ev, hev, rfl⟩, fun h => ⟨h, rfl⟩⟩
  by_cases hfinal : tx.final = true
  · exact .inl ⟨hstamped.trans (reviseTransaction_aged hfinal),
      fun ev hev => (reviseTransaction_final_updates hev).trans hfinal⟩
  · have hopen : tx.final = false := by simpa using hfinal
    simp only [reviseTransaction]
    split
    · exact .inl ⟨hstamped, fun ev hev => (List.not_mem_nil hev).elim⟩
    · rename_i hevents
      split
      · exact .inl ⟨hstamped, fun ev hev => (List.not_mem_nil hev).elim⟩
      · rename_i hthrottle
        refine .inr ⟨hopen, hevents, fun hne => ?_, _, ?_, rfl⟩
        · exact UInt64.not_lt.mp fun hlt => hthrottle ⟨hfinal, hne, hlt⟩
        · rw [hopen]
          exact reviseEvent_revises _ _ _

theorem settle_settled (st : SessionState) (chosen : Option Nat) (pf : PacketFeature) :
    AfterPacket lib limits st chosen pf := by
  have hfollows := @settle_follows lib limits st chosen pf
  rcases @settle_cases lib limits st chosen pf with
    ⟨-, heq⟩ | ⟨hstays, heq | ⟨i, tx, rfl, htx, heq⟩⟩
  · rw [heq] at hfollows
    refine .quiet ?_ ?_
    · rw [heq]
      refine ⟨hfollows, Nat.le_refl _, fun b hb => .inl ?_⟩
      obtain ⟨a, ha, rfl⟩ := List.mem_map.mp hb
      exact ⟨a, ha, closeTransaction_aged a⟩
    · rw [heq]
      intro ev hev
      obtain ⟨tx, -, hev⟩ := List.mem_flatMap.mp hev
      exact closeTransaction_updates hev
  · exact .quiet (heq ▸ .of_kept ⟨rfl, rfl, rfl, rfl⟩) (fun ev hev => by rw [heq] at hev; cases hev)
  · rw [heq] at hfollows
    rcases reviseTransaction_cases st tx pf.packetTimeUsec with
      ⟨haged, hlast⟩ | ⟨hopen, hevents, hdue, f, hf, hrevised⟩
    · refine .quiet ?_ (by rw [heq]; exact hlast)
      rw [heq]
      refine .modify i hfollows fun a ha => ?_
      obtain rfl := Option.some.inj (htx.symm.trans ha)
      exact haged
    · rw [hrevised] at heq
      exact .revised i tx f hstays rfl htx hopen hevents hdue
        (congrArg Prod.fst heq) (congrArg Prod.snd heq) hf

/-- Revisions from timeouts, resets and evictions are last ones. -/
theorem finalizeSession_last (h : ev ∈ finalizeSession lib limits st) : ev.contextFinal = true := by
  obtain ⟨tx, -, hev⟩ := List.mem_flatMap.mp h
  exact closeTransaction_updates hev

theorem cleanupLocked_last {order : Order} {now : UInt64}
    (h : ev ∈ (cleanupLocked lib limits order t now).2) : ev.contextFinal = true := by
  have hexpired : ∀ st : SessionState,
      ev ∈ (st.transactions.map (expireTransaction lib limits now st)).flatMap (·.2) →
      ev.contextFinal = true := by
    intro st hev
    rw [List.flatMap_map] at hev
    obtain ⟨tx, -, hev⟩ := List.mem_flatMap.mp hev
    rw [expireTransaction] at hev
    split at hev
    · exact closeTransaction_updates hev
    · cases hev
  obtain ⟨st, -, hev⟩ := cleanupLocked_updates h
  simp only [sweep] at hev
  split at hev
  · rcases List.mem_append.mp hev with hev | hev
    · exact hexpired st hev
    · exact finalizeSession_last hev
  · exact hexpired st hev

theorem makeRoom_last {order : Order} {sessions : List SessionState}
    (h : ev ∈ (makeRoom lib limits order sessions).2) : ev.contextFinal = true := by
  rw [makeRoom] at h
  split at h
  · split at h
    · exact finalizeSession_last h
    · cases h
  · cases h

theorem found_last {orders : Orders} (h : ev ∈ (found lib limits orders t pf).2.2) :
    ev.contextFinal = true := by
  rw [found, locate] at h
  split at h
  · split at h
    · rcases List.mem_append.mp h with hev | hev
      · exact finalizeSession_last hev
      · exact makeRoom_last hev
    · cases h
  · exact makeRoom_last h

/-- A revision that is not the last comes from the packet's own transaction. -/
theorem revises_iff {orders : Orders} {n : UInt64} {key : String} {life : Nat} {id : String} :
    Met.revises ⟨key, life, pf, (observe lib limits orders t pf n).2⟩ id = true ↔
      ∃ ev ∈ (observed lib limits orders t pf n).2, ev.contextFinal = false ∧
        ev.transactionID = id := by
  simp only [Met.revises, observe_updates, List.any_eq_true, Bool.and_eq_true, Bool.not_eq_true',
    beq_iff_eq, List.mem_append]
  constructor
  · rintro ⟨ev, (hev | hev) | hev, hopen, hid⟩
    · rw [cleanupLocked_last hev] at hopen
      cases hopen
    · rw [found_last hev] at hopen
      cases hopen
    · exact ⟨ev, hev, hopen, hid⟩
  · rintro ⟨ev, hev, hopen, hid⟩
    exact ⟨ev, .inr hev, hopen, hid⟩

/-! ### What a session remembers -/

theorem revisions_append (ms : List Met) (m : Met) (id : String) : revisions (ms ++ [m]) id =
      revisions ms id ++ if m.revises id then [m.packet.packetTimeUsec] else [] := by
  rw [revisions, List.filter_append, List.map_append, ← revisions]
  cases hm : m.revises id with
  | true => simp [hm]
  | false => simp [hm]

/-- A session beside the packets of its lifetime: an open transaction holds the time of its last
    revision, and the revisions so far are spaced. -/
structure Remembers (lib : Lib) (limits : Limits) (st : SessionState) (ms : List Met) : Prop where
  named : Named lib st
  labelled : ∀ tx ∈ st.transactions, ∀ ev ∈ tx.events, ev.transactionID = tx.id
  used : ∀ id, revisions ms id ≠ [] → ∃ k ≤ st.nextTxn, id = txnID lib st.id k
  nonzero : ∀ id, 0 ∉ revisions ms id
  last : ∀ tx ∈ st.transactions, tx.final = false →
    tx.lastReviseUsec = (revisions ms tx.id).getLastD 0
  spaced : Spaced limits ms

/-- The throttle lets a revision through only when the interval is over. -/
theorem apart_of_due (hwhole : limits.WholeInterval) {a b : UInt64} (hle : a ≤ b)
    (hdue : UInt64.ofNat (limits.revisionInterval / 1000) ≤ b - a) : Apart limits a b := by
  obtain ⟨⟨k, hk⟩, hbound⟩ := hwhole
  have hmod : limits.revisionInterval.val / 1000 % 2 ^ 64 = k := by omega
  rw [UInt64.le_iff_toNat_le, UInt64.toNat_sub_of_le _ _ hle, UInt64.toNat_ofNat', hmod] at hdue
  rw [UInt64.le_iff_toNat_le] at hle
  rw [Apart]
  omega

/-- Transactions of a session with one id are one. -/
theorem Named.index (h : Named lib st) {j : Nat} (hi : st.transactions[i]? = some a)
    (hj : st.transactions[j]? = some b) (hid : a.id = b.id) : i = j := by
  have hlt : i < (st.transactions.map (·.id)).length := by
    rw [List.length_map]
    exact (List.getElem?_eq_some_iff.mp hi).1
  refine (List.getElem?_inj hlt h.distinct).mp ?_
  rw [List.getElem?_map, List.getElem?_map, hi, hj, Option.map_some, Option.map_some, hid]

theorem eq_or_mem_of_putEvent {x : ThreatEvent} : ∀ {events : List ThreatEvent},
    x ∈ putEvent ev events → x = ev ∨ x ∈ events
  | [], h => .inl (List.mem_singleton.mp h)
  | e :: events, h => by
    rw [putEvent] at h
    split at h
    · exact List.mem_cons.mp h
    · split at h
      · rcases List.mem_cons.mp h with rfl | hrest
        · exact .inl rfl
        · exact .inr (List.mem_cons_of_mem _ hrest)
      · rcases List.mem_cons.mp h with rfl | hrest
        · exact .inr List.mem_cons_self
        · exact (eq_or_mem_of_putEvent hrest).imp_right (List.mem_cons_of_mem _)

namespace Remembers
variable {ms : List Met}

theorem ages (hfree : lib.CollisionFree) (h : Remembers lib limits st ms) (hages : Ages lib st st') :
    Remembers lib limits st' ms := by
  refine ⟨hages.follows.named hfree h.named, fun b hb ev hev => ?_, fun id hid => ?_, h.nonzero,
    fun b hb hopen => ?_, h.spaced⟩
  · rcases hages.each b hb with ⟨a, ha, haged⟩ | hunused
    · obtain ⟨ev₀, hev₀, heq⟩ := haged.events ev hev
      rw [heq, haged.id]
      exact h.labelled a ha ev₀ hev₀
    · rw [hunused.events] at hev
      cases hev
  · obtain ⟨k, hk, heq⟩ := h.used id hid
    exact ⟨k, Nat.le_trans hk hages.nextTxn, by rw [hages.follows.key_id.2, heq]⟩
  · rcases hages.each b hb with ⟨a, ha, haged⟩ | hunused
    · obtain ⟨hopen₀, heq⟩ := haged.still hopen
      rw [heq, haged.id]
      exact h.last a ha hopen₀
    · -- a number that was not used has no revisions
      obtain ⟨k, hk, hid⟩ := hunused.number
      have hnone : revisions ms b.id = [] := by
        by_contra hne
        obtain ⟨j, hj, hjd⟩ := h.used b.id hne
        have := (stableID_inj hfree (hid.symm.trans hjd)).2
        omega
      rw [hnone, hunused.still hopen]
      rfl

/-- A packet that brought no revision of an open transaction. -/
theorem quiet (h : Remembers lib limits st ms) {m : Met} (hm : ∀ id, m.revises id = false) :
    Remembers lib limits st (ms ++ [m]) := by
  have hsame : ∀ id, revisions (ms ++ [m]) id = revisions ms id := by
    intro id
    rw [revisions_append, hm id]
    exact List.append_nil _
  refine ⟨h.named, h.labelled, fun id => ?_, fun id => ?_, fun tx => ?_, fun id => ?_⟩
  · rw [hsame]
    exact h.used id
  · rw [hsame]
    exact h.nonzero id
  · rw [hsame]
    exact h.last tx
  · rw [hsame]
    exact h.spaced id

/-- A packet that brought a revision of the open transaction it was given to. -/
theorem revised (hfree : lib.CollisionFree) (hwhole : limits.WholeInterval)
    (h : Remembers lib limits st ms) (m : Met) {f : ThreatEvent → ThreatEvent}
    (here : st.transactions[i]? = some tx) (hopen : tx.final = false)
    (hdue : tx.lastReviseUsec ≠ 0 →
      UInt64.ofNat (limits.revisionInterval / 1000) ≤ m.packet.packetTimeUsec - tx.lastReviseUsec)
    (hf : Revises f false) (htime : m.packet.packetTimeUsec ≠ 0)
    (hlate : tx.lastReviseUsec ≤ m.packet.packetTimeUsec)
    (hm : ∀ id, m.revises id = true ↔ id = tx.id) :
    Remembers lib limits (st.modify i fun _ =>
      { tx with
        lastUsec := m.packet.packetTimeUsec
        lastReviseUsec := m.packet.packetTimeUsec
        events := tx.events.map f }) (ms ++ [m]) := by
  have htx := List.mem_of_getElem? here
  have hself : revisions (ms ++ [m]) tx.id = revisions ms tx.id ++ [m.packet.packetTimeUsec] := by
    rw [revisions_append, (hm tx.id).mpr rfl, if_pos rfl]
  have hother : ∀ id, id ≠ tx.id → revisions (ms ++ [m]) id = revisions ms id := by
    intro id hne
    rw [revisions_append, if_neg fun hrev => hne ((hm id).mp hrev)]
    exact List.append_nil _
  have hfollows : Follows lib st (st.modify i fun _ =>
      { tx with
        lastUsec := m.packet.packetTimeUsec
        lastReviseUsec := m.packet.packetTimeUsec
        events := tx.events.map f }) := by
    refine .change rfl rfl rfl (forall₂_modify (fun _ => ⟨rfl, fun h => h⟩) fun a ha => ?_)
    obtain rfl := Option.some.inj (here.symm.trans ha)
    exact ⟨rfl, fun h => h⟩
  refine ⟨hfollows.named hfree h.named, fun b hb ev hev => ?_, fun id hid => ?_, fun id => ?_,
    fun b hb hb' => ?_, fun id => ?_⟩
  · rcases mem_modify_cases hb with ⟨a, ha, rfl⟩ | ⟨j, -, hj⟩
    · obtain ⟨ev₀, hev₀, rfl⟩ := List.mem_map.mp hev
      exact (hf.transactionID ev₀).trans (h.labelled tx htx ev₀ hev₀)
    · exact h.labelled b (List.mem_of_getElem? hj) ev hev
  · by_cases heq : id = tx.id
    · rw [heq]
      exact h.named.numbered tx htx
    · exact h.used id (hother id heq ▸ hid)
  · by_cases heq : id = tx.id
    · rw [heq, hself]
      intro hmem
      rcases List.mem_append.mp hmem with hold | hnew
      · exact h.nonzero tx.id hold
      · exact htime (List.mem_singleton.mp hnew).symm
    · rw [hother id heq]
      exact h.nonzero id
  · rcases mem_modify_cases hb with ⟨a, ha, rfl⟩ | ⟨j, hji, hj⟩
    · dsimp only
      rw [hself, List.getLastD_concat]
    · -- another transaction has another id
      have hne : b.id ≠ tx.id := fun heq =>
        hji (h.named.index hj here heq)
      rw [hother b.id hne]
      exact h.last b (List.mem_of_getElem? hj) hb'
  · by_cases heq : id = tx.id
    · rw [heq, hself]
      refine List.isChain_append.mpr ⟨h.spaced tx.id, List.isChain_singleton _, ?_⟩
      intro x hx y hy
      obtain rfl := Option.some.inj hy
      have hlast : tx.lastReviseUsec = x := by
        rw [h.last tx htx hopen, List.getLastD_eq_getLast?, hx]
        rfl
      have hne : x ≠ 0 := fun hzero =>
        h.nonzero tx.id (hzero ▸ List.mem_of_getLast? hx)
      exact apart_of_due hwhole (hlast ▸ hlate) (hlast ▸ hdue (hlast ▸ hne))
    · rw [hother id heq]
      exact h.spaced id

theorem put (hfree : lib.CollisionFree) (h : Remembers lib limits st ms)
    (here : st.transactions[i]? = some tx) (hev : ev.transactionID = tx.id) :
    Remembers lib limits (putOn st i ev) ms := by
  have hhit : Follows lib st { st with hitCount := st.hitCount + 1 } := .same ⟨rfl, rfl, rfl, rfl⟩
  have hfollows : Follows lib st (putOn st i ev) :=
    hhit.trans (modify_follows i fun tx => ⟨rfl, fun h => h⟩)
  refine ⟨hfollows.named hfree h.named, fun b hb e he => ?_, h.used, h.nonzero,
    fun b hb hopen => ?_, h.spaced⟩
  · rcases mem_modify_cases hb with ⟨a, ha, rfl⟩ | ⟨j, -, hj⟩
    · obtain rfl := Option.some.inj (here.symm.trans ha)
      rcases eq_or_mem_of_putEvent he with rfl | hold
      · exact hev
      · exact h.labelled tx (List.mem_of_getElem? ha) e hold
    · exact h.labelled b (List.mem_of_getElem? hj) e he
  · rcases mem_modify_cases hb with ⟨a, ha, rfl⟩ | ⟨j, -, hj⟩
    · exact h.last a (List.mem_of_getElem? ha) hopen
    · exact h.last b (List.mem_of_getElem? hj) hopen

end Remembers

theorem Timely.not_wraps {orders : Orders} {n : UInt64} (h : Timely lib limits orders t pf n) :
    wraps lib limits orders t pf n = false := by
  rw [← Bool.not_eq_true, wraps, Option.any_eq_true]
  rintro ⟨tx, hcheck, hlt⟩
  rw [throttleCheck] at hcheck
  split at hcheck
  · cases hcheck
  · next hcloses =>
    obtain ⟨hmap, hfilter⟩ := Option.filter_eq_some_iff.mp hcheck
    obtain ⟨a, hgiven, rfl⟩ := Option.map_eq_some_iff.mp hmap
    obtain ⟨hevents, hopen, -⟩ := of_decide_eq_true hfilter
    obtain ⟨-, hle⟩ := h a hgiven hcloses (by simpa using hopen) hevents
    exact absurd (of_decide_eq_true hlt) (UInt64.not_lt.mpr hle)

theorem remembers_rule (hfree : lib.CollisionFree) (hwhole : limits.WholeInterval) :
    SessionRule lib limits (Timely lib limits) (Remembers lib limits) where
  fresh pf :=
    ⟨newSession_named lib pf, fun _ htx => (List.not_mem_nil htx).elim, fun _ h => absurd rfl h,
      fun _ => List.not_mem_nil, fun _ htx => (List.not_mem_nil htx).elim, fun _ => .nil⟩
  swept hswept h := h.ages hfree (sweep_ages hswept)
  hit h := h.ages hfree (.of_kept ⟨rfl, rfl, rfl, rfl⟩)
  put _ here hev h := h.put hfree here hev
  packet := by
    intro t orders pf n ms life htimely h
    have hattached := h.ages hfree (@attached_ages lib limits _ pf n)
    have hsettled := @settle_settled lib limits
      (attach lib limits (tally (found lib limits orders t pf).1 pf).1 pf n).1
      (attach lib limits (tally (found lib limits orders t pf).1 pf).1 pf n).2 pf
    cases hsettled with
    | quiet hages hlast =>
      refine (hattached.ages hfree hages).quiet fun id => ?_
      rw [← Bool.not_eq_true, revises_iff]
      rintro ⟨ev, hev, hopen, -⟩
      rw [hlast ev hev] at hopen
      cases hopen
    | revised i tx f hcloses hindex here hopen hevents hdue hafter hupdates hf =>
      obtain ⟨htime, hlate⟩ := htimely tx (Option.bind_eq_some_iff.mpr ⟨i, hindex, here⟩)
        (by simp [hcloses]) hopen hevents
      rw [observed, hafter]
      refine hattached.revised hfree hwhole
        ⟨(canonicalKey pf).1, life, pf, (observe lib limits orders t pf n).2⟩ here hopen hdue hf htime hlate
        fun id => ?_
      rw [revises_iff, observed, hupdates]
      constructor
      · rintro ⟨ev, hev, -, rfl⟩
        obtain ⟨ev₀, hev₀, rfl⟩ := List.mem_map.mp hev
        exact (hf.transactionID ev₀).trans
          (hattached.labelled tx (List.mem_of_getElem? here) ev₀ hev₀)
      · rintro rfl
        obtain ⟨ev₀, hev₀⟩ := List.exists_mem_of_ne_nil _ hevents
        exact ⟨f ev₀, List.mem_map_of_mem hev₀, hf.contextFinal ev₀, (hf.transactionID ev₀).trans
          (hattached.labelled tx (List.mem_of_getElem? here) ev₀ hev₀)⟩

/-- In a run whose packets come in time, consecutive revisions of an open transaction are at least
    the interval apart, and the subtraction of the throttle never wraps. -/
theorem revisions_spaced (lib : Lib) (hfree : lib.CollisionFree) (limits : Limits)
    (hwhole : limits.WholeInterval) {tr : Diary} (hrun : DiaryRun lib limits (Timely lib limits) tr) :
    (∀ key life, Spaced limits (tr.lifetime key life)) ∧
      ∀ orders pf n, Timely lib limits orders tr.tracker pf n →
        wraps lib limits orders tr.tracker pf n = false :=
  ⟨((remembers_rule hfree hwhole).run (fun _ _ h => h.spaced) (fun _ => .nil) hrun).shown,
    fun _ _ _ h => h.not_wraps⟩

/-- A request at one second with an event on its transaction. -/
def hitDiary : Diary :=
  let asked := Diary.observe sampleLib defaults {} {} (fromClient 1000000 .request [71]) 0
  asked.register .listed (observe sampleLib defaults {} {} (fromClient 1000000 .request [71]) 0).2
    { eventID := "e" }

/-- The diary goes on with segments of the client at some times. -/
def hitDiary.goesOn (times : List UInt64) : Diary :=
  times.foldl (fun tr usec => tr.observe sampleLib defaults {} (fromClient usec .none [69]) 0) hitDiary

/-- The times of the revisions of the request's transaction. -/
def hitDiary.revised (times : List UInt64) : List UInt64 :=
  revisions ((hitDiary.goesOn times).lifetime (canonicalKey hitSegment).1 0)
    (observe sampleLib defaults {} {} (fromClient 1000000 .request [71]) 0).2.transactionID

theorem hitDiary_run (meets : Condition)
    (h : meets {} {} (fromClient 1000000 .request [71]) 0) : DiaryRun sampleLib defaults meets hitDiary :=
  .next (.next (.start rfl) (.observe {} _ 0 h)) (.register .listed _ _)

/-- Segments at two, five and twelve seconds: the second is throttled. -/
theorem revisions_spaced_waits : hitDiary.revised [2000000, 5000000, 12000000] = [2000000, 12000000] ∧
    Spaced defaults ((hitDiary.goesOn [2000000, 5000000, 12000000]).lifetime
      (canonicalKey hitSegment).1 0) := by
  have hrun : DiaryRun sampleLib defaults (Timely sampleLib defaults)
      (hitDiary.goesOn [2000000, 5000000, 12000000]) :=
    .next (.next (.next (hitDiary_run _ (by decide +kernel))
      (.observe {} _ 0 (by decide +kernel))) (.observe {} _ 0 (by decide +kernel)))
      (.observe {} _ 0 (by decide +kernel))
  exact ⟨by decide +kernel,
    (revisions_spaced sampleLib sampleLib_collisionFree defaults ⟨by decide, by decide⟩ hrun).1 _ _⟩

/-- A segment from a tenth of a second before the last revision is not throttled. -/
theorem revisions_not_spaced : ∃ tr, DiaryRun sampleLib defaults (fun _ _ _ _ => True) tr ∧
    wraps sampleLib defaults {} tr.tracker (fromClient 11900000 .none [69]) 0 = true ∧
    ¬ Spaced defaults ((tr.observe sampleLib defaults {} (fromClient 11900000 .none [69]) 0).lifetime
      (canonicalKey hitSegment).1 0) := by
  refine ⟨hitDiary.goesOn [12000000], .next (hitDiary_run _ trivial) (.observe {} _ 0 trivial),
    by decide +kernel, fun hspaced => ?_⟩
  have hchain : (hitDiary.revised [12000000, 11900000]).IsChain (Apart defaults) := hspaced _
  have htimes : hitDiary.revised [12000000, 11900000] = [12000000, 11900000] := by decide +kernel
  rw [htimes] at hchain
  exact absurd (List.isChain_pair.mp hchain) (by rw [Apart]; decide)

end TaNode.Correlation

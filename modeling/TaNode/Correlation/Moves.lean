import TaNode.Correlation.Tracker
import TaNode.Schemes.Pool

/-! What the tracker does to its transactions, told once for every call.

    All transactions of all sessions are one pool. Whatever a call does, a transaction of the pool
    stays as it is as far as its events go, or all its events get their next revision and come out;
    transactions leave, and new ones come without events. So `Observe` and `Flush` are advances of
    the pool, with the revisions they return as output:

        cleanup      expire some, close and drop idle sessions
        locate       close and drop the reset and the evicted session
        attach       drop one at the limit, a new one joins, the packet touches one
        settle       revise it, or close all -/

namespace TaNode.Correlation

/-! ### Moves of one transaction -/

/-- What a revision does to an event. -/
structure Revises (f : ThreatEvent → ThreatEvent) (final : Bool) : Prop where
  eventID : ∀ ev, (f ev).eventID = ev.eventID
  sessionID : ∀ ev, (f ev).sessionID = ev.sessionID
  transactionID : ∀ ev, (f ev).transactionID = ev.transactionID
  contextRevision : ∀ ev, (f ev).contextRevision = ev.contextRevision + 1
  contextFinal : ∀ ev, (f ev).contextFinal = final

/-- A transaction after a change to its sides: the events are the same, and it stays final. -/
structure Touched (a b : TransactionState) : Prop where
  id : b.id = a.id
  events : b.events = a.events
  final : a.final = true → b.final = true

/-- Which transactions may be revised and which may leave: at least the open ones may be revised,
    and the final ones may leave. -/
structure Policy where
  revises : TransactionState → Prop
  drops : TransactionState → Prop
  open_revises : ∀ tx, tx.final = false → revises tx
  final_drops : ∀ tx, tx.final = true → drops tx

/-- One transaction within a call: nothing comes out and its state of completion stays, or all its
    events are revised and come out. -/
inductive TxMove (P : Policy) : TransactionState → List ThreatEvent → TransactionState → Prop where
  | quiet {a b : TransactionState} (touched : Touched a b)
      (same : b.final = a.final ∨ a.events = []) : TxMove P a [] b
  | revise {a b : TransactionState} {f : ThreatEvent → ThreatEvent} (may : P.revises a)
      (id : b.id = a.id) (final : a.final = true → b.final = true)
      (events : b.events = a.events.map f) (revises : Revises f b.final) : TxMove P a b.events b

/-- The advances of a pool of transactions under a policy. -/
abbrev Moves (P : Policy) :
    List TransactionState → List ThreatEvent → List TransactionState → Prop :=
  Advance (TxMove P) (fun tx => tx.events = []) P.drops

theorem Touched.refl (a : TransactionState) : Touched a a := ⟨rfl, rfl, fun h => h⟩

theorem Touched.trans {a b c : TransactionState} (h₁ : Touched a b) (h₂ : Touched b c) :
    Touched a c :=
  ⟨h₂.id.trans h₁.id, h₂.events.trans h₁.events, fun h => h₂.final (h₁.final h)⟩

theorem applyLegacyExchange_fields (ev : ThreatEvent) (ex : Option ExchangeContext) :
    ∃ raw, applyLegacyExchange ev ex = { ev with rawPacket := raw } := by
  unfold applyLegacyExchange
  split
  · exact ⟨_, rfl⟩
  · exact ⟨ev.rawPacket, rfl⟩

variable (ex : ExchangeContext) (sum : SessionSummary) (final : Bool)

theorem reviseEvent_eq (ev : ThreatEvent) : ∃ raw, reviseEvent ex sum final ev = { ev with
      contextRevision := ev.contextRevision + 1, contextFinal := final, exchange := some ex
      sessionSummary := some sum, rawPacket := raw } :=
  applyLegacyExchange_fields _ _

theorem reviseEvent_revises : Revises (reviseEvent ex sum final) final := by
  constructor <;> intro ev <;> obtain ⟨raw, heq⟩ := reviseEvent_eq ex sum final ev <;> rw [heq]

theorem exchange_reviseEvent (ev : ThreatEvent) :
    (reviseEvent ex sum final ev).exchange = some ex := by
  obtain ⟨raw, heq⟩ := reviseEvent_eq ex sum final ev
  rw [heq]

section
variable {lib : Lib} {limits : Limits} {st : SessionState} {a b : TransactionState} {P : Policy}
  {order : Order} {t t' : Tracker} {now : UInt64} {st' : SessionState} {ev : ThreatEvent}
  {sessions : List SessionState} {txs : List TransactionState} {obs : Observation}

theorem reviseTransaction_id : (reviseTransaction lib limits st b).1.id = b.id := by
  simp only [reviseTransaction]
  split <;> [rfl; split <;> rfl]

theorem reviseTransaction_final : (reviseTransaction lib limits st b).1.final = b.final := by
  simp only [reviseTransaction]
  split <;> [rfl; split <;> rfl]

/-- Revising a touched transaction is a move of the transaction as it was before. -/
theorem reviseTransaction_move (h : Touched a b) (hmay : P.revises a) :
    TxMove P a (reviseTransaction lib limits st b).2 (reviseTransaction lib limits st b).1 := by
  rw [reviseTransaction]
  split
  · rename_i hnil
    exact .quiet h (Or.inr (by rw [← h.events]; exact hnil))
  · split
    · -- a throttled transaction is not final, so it was not final before
      rename_i hthrottle
      refine .quiet h (Or.inl ?_)
      have hb : b.final = false := by simpa using hthrottle.1
      cases ha : a.final with
      | false => exact hb
      | true => rw [h.final ha] at hb; simp at hb
    · let f := reviseEvent (exchange lib b) (summary st) b.final
      exact @TxMove.revise P a { b with lastReviseUsec := b.lastUsec, events := b.events.map f } f
        hmay h.id h.final (congrArg (List.map f) h.events) (reviseEvent_revises _ _ _)

theorem closeTransaction_move (h : Touched a b) (hmay : P.revises a) :
    TxMove P a (closeTransaction lib limits st b).2 (closeTransaction lib limits st b).1 :=
  reviseTransaction_move (h.trans ⟨rfl, rfl, fun _ => rfl⟩) hmay

theorem closeTransaction_final : (closeTransaction lib limits st b).1.final = true :=
  reviseTransaction_final

theorem expireTransaction_move (now : UInt64) (tx : TransactionState) :
    TxMove P tx (expireTransaction lib limits now st tx).2
      (expireTransaction lib limits now st tx).1 := by
  rw [expireTransaction]
  split
  · rename_i hwait
    exact closeTransaction_move (Touched.refl tx) (P.open_revises tx (by simpa using hwait.1))
  · exact .quiet (Touched.refl tx) (Or.inl rfl)

/-! ### Moves of one session -/

theorem finalizeSession_moves (hmay : ∀ tx ∈ st.transactions, P.revises tx) :
    Moves P st.transactions (finalizeSession lib limits st) [] :=
  Advance.close fun tx htx =>
    ⟨_, closeTransaction_move (Touched.refl tx) (hmay tx htx), P.final_drops _ closeTransaction_final⟩

/-- A session of the cleanup loop after its waiting transactions expired. -/
def expired (lib : Lib) (limits : Limits) (now : UInt64) (st : SessionState) : SessionState :=
  { st with transactions := (st.transactions.map (expireTransaction lib limits now st)).map (·.1) }

/-- The transactions the cleanup closes with an idle session. -/
def sweepCloses (lib : Lib) (limits : Limits) (now : UInt64) (st : SessionState) :
    List TransactionState :=
  if (sweep lib limits now st).1.isNone then (expired lib limits now st).transactions else []

/-- The transactions of what is left of a session. -/
def left (st : Option SessionState) : List TransactionState := (st.map (·.transactions)).getD []

theorem sweep_moves (now : UInt64) (hmay : ∀ tx ∈ sweepCloses lib limits now st, P.revises tx) :
    Moves P st.transactions (sweep lib limits now st).2 (left (sweep lib limits now st).1) := by
  have hexpire : Moves P st.transactions
      ((st.transactions.map (expireTransaction lib limits now st)).flatMap (·.2))
      (expired lib limits now st).transactions := by
    rw [expired, List.flatMap_map, List.map_map]
    refine Advance.each (List.forall₂_same.mpr fun tx _ => ?_)
    exact expireTransaction_move now tx
  rw [sweepCloses] at hmay
  rw [sweep] at hmay ⊢
  split
  · rename_i hidle
    simp only [hidle, and_self, if_true, Option.isNone_none] at hmay
    exact hexpire.trans (finalizeSession_moves hmay)
  · exact hexpire

/-! ### Moves of the session map -/

/-- The pool of a session map. -/
def pool (sessions : List SessionState) : List TransactionState :=
  sessions.flatMap (·.transactions)

theorem pool_perm {l l' : List SessionState} (h : l.Perm l') : (pool l).Perm (pool l') :=
  h.flatMap_right _

theorem pool_sweep (now : UInt64) : ∀ sessions : List SessionState,
    (∀ st ∈ sessions, ∀ tx ∈ sweepCloses lib limits now st, P.revises tx) →
      Moves P (pool sessions) ((sessions.map (sweep lib limits now)).flatMap (·.2))
        (pool ((sessions.map (sweep lib limits now)).filterMap (·.1)))
  | [], _ => Advance.refl []
  | st :: sessions, hmay => by
    have h := (sweep_moves now (hmay st List.mem_cons_self)).append
      (pool_sweep now sessions fun st' hst' => hmay st' (List.mem_cons_of_mem _ hst'))
    have hpool : pool ((List.map (sweep lib limits now) (st :: sessions)).filterMap (·.1)) =
        left (sweep lib limits now st).1 ++
          pool ((sessions.map (sweep lib limits now)).filterMap (·.1)) := by
      rw [List.map_cons, List.filterMap_cons]
      cases hs : (sweep lib limits now st).1 with
      | none => rfl
      | some st' => rfl
    rw [hpool]
    exact h

/-- The transactions a cleanup closes with idle sessions; a cleanup that is not due closes none. -/
def cleanupCloses (lib : Lib) (limits : Limits) (t : Tracker) (now : UInt64) :
    List TransactionState :=
  if now = 0 then []
  else if t.lastCleanup ≠ 0 ∧ t.lastCleanup ≤ now ∧ now - t.lastCleanup < 1000000 then []
  else t.sessions.flatMap (sweepCloses lib limits now)

/-- A session after the cleanup is one from before, as it was or as its sweep left it. -/
theorem cleanupLocked_mem (h : st' ∈ (cleanupLocked lib limits order t now).1.sessions) :
    ∃ st ∈ t.sessions, st' = st ∨ (sweep lib limits now st).1 = some st' := by
  rw [cleanupLocked] at h
  split at h
  · exact ⟨st', h, .inl rfl⟩
  · split at h
    · exact ⟨st', h, .inl rfl⟩
    · obtain ⟨swept, hmem, hsome⟩ := List.mem_filterMap.mp h
      obtain ⟨st, hst, rfl⟩ := List.mem_map.mp hmem
      exact ⟨st, (order.perm _).mem_iff.mp hst, .inr hsome⟩

/-- The revisions of the cleanup are those of the sweeps. -/
theorem cleanupLocked_updates (h : ev ∈ (cleanupLocked lib limits order t now).2) :
    ∃ st ∈ t.sessions, ev ∈ (sweep lib limits now st).2 := by
  rw [cleanupLocked] at h
  split at h
  · cases h
  · split at h
    · cases h
    · dsimp only at h
      rw [List.flatMap_map] at h
      obtain ⟨st, hst, hev⟩ := List.mem_flatMap.mp h
      exact ⟨st, (order.perm _).mem_iff.mp hst, hev⟩

theorem cleanupLocked_moves (order : Order) (t : Tracker) (now : UInt64)
    (hmay : ∀ tx ∈ cleanupCloses lib limits t now, P.revises tx) :
    Moves P (pool t.sessions) (cleanupLocked lib limits order t now).2
      (pool (cleanupLocked lib limits order t now).1.sessions) := by
  rw [cleanupCloses] at hmay
  rw [cleanupLocked]
  split
  · exact Advance.refl _
  · rename_i hnow
    rw [if_neg hnow] at hmay
    split
    · exact Advance.refl _
    · rename_i hdue
      rw [if_neg hdue] at hmay
      refine Advance.after (.perm (pool_perm (order.perm _).symm)) (pool_sweep now _ ?_)
      intro st hst tx htx
      exact hmay tx (List.mem_flatMap.mpr ⟨st, (order.perm _).mem_iff.mp hst, htx⟩)

/-- The sessions of a map have different keys. -/
def Keyed (sessions : List SessionState) : Prop := (sessions.map (·.key)).Nodup

/-- Taking one session out of the map. -/
theorem Keyed.perm_filter (h : Keyed sessions) (hst : st ∈ sessions) :
    sessions.Perm (st :: sessions.filter (·.key ≠ st.key)) := by
  induction sessions with
  | nil => simp at hst
  | cons s sessions ih =>
    rw [Keyed, List.map_cons, List.nodup_cons] at h
    rcases List.mem_cons.mp hst with rfl | hmem
    · have hrest : sessions.filter (·.key ≠ st.key) = sessions := by
        refine List.filter_eq_self.mpr fun x hx => ?_
        have : x.key ≠ st.key := fun he => h.1 (he ▸ List.mem_map_of_mem hx)
        simpa using this
      rw [List.filter_cons_of_neg (by simp), hrest]
    · have hne : s.key ≠ st.key := fun he => h.1 (he ▸ List.mem_map_of_mem hmem)
      rw [List.filter_cons_of_pos (by simpa using hne)]
      exact ((ih h.2 hmem).cons s).trans (List.Perm.swap _ _ _)

theorem Keyed.filter (h : Keyed sessions) (p : SessionState → Bool) : Keyed (sessions.filter p) :=
  h.sublist (List.filter_sublist.map _)

theorem sweep_key (h : (sweep lib limits now st).1 = some st') : st'.key = st.key := by
  simp only [sweep] at h
  split at h
  · simp at h
  · rw [← Option.some.inj h]

theorem Keyed.sweep (h : Keyed sessions) (now : UInt64) :
    Keyed ((sessions.map (sweep lib limits now)).filterMap (·.1)) := by
  have hsub : List.Sublist
      (((sessions.map (Correlation.sweep lib limits now)).filterMap (·.1)).map (·.key))
      (sessions.map (·.key)) := by
    induction sessions with
    | nil => exact List.Sublist.refl _
    | cons st sessions ih =>
      have htail := ih (List.nodup_cons.mp h).2
      rw [List.map_cons, List.filterMap_cons]
      cases hs : (Correlation.sweep lib limits now st).1 with
      | none => exact htail.cons _
      | some st' =>
        rw [List.map_cons, List.map_cons, sweep_key hs]
        exact htail.cons_cons _
  exact h.sublist hsub

theorem Keyed.cleanupLocked (h : Keyed t.sessions) (order : Order) (now : UInt64) :
    Keyed (cleanupLocked lib limits order t now).1.sessions := by
  rw [Correlation.cleanupLocked]
  split
  · exact h
  · split
    · exact h
    · exact Keyed.sweep (((order.perm _).map _).nodup_iff.mpr h) now

theorem foldl_oldest (l : List SessionState) (best : SessionState) : ∃ o ∈ best :: l,
    l.foldl (fun oldest st => match oldest with
      | none => some st
      | some o => if st.lastUsec < o.lastUsec then some st else some o) (some best) = some o := by
  induction l generalizing best with
  | nil => exact ⟨best, List.mem_cons_self, rfl⟩
  | cons st l ih =>
    rw [List.foldl_cons]
    dsimp only
    split
    · obtain ⟨o, hmem, ho⟩ := ih st
      exact ⟨o, List.mem_cons_of_mem _ hmem, ho⟩
    · obtain ⟨o, hmem, ho⟩ := ih best
      exact ⟨o, List.mem_cons.mpr ((List.mem_cons.mp hmem).imp_right (List.mem_cons_of_mem _)), ho⟩

theorem oldestSession_exists (order : Order) (h : sessions ≠ []) :
    ∃ o ∈ sessions, oldestSession order sessions = some o := by
  rw [oldestSession]
  cases hvisit : order.visit sessions with
  | nil => exact absurd (List.nil_perm.mp (hvisit ▸ order.perm sessions)) h
  | cons st l =>
    obtain ⟨o, hmem, ho⟩ := foldl_oldest l st
    exact ⟨o, (order.perm sessions).mem_iff.mp (hvisit ▸ hmem), ho⟩

theorem oldestSession_mem {o : SessionState} (h : oldestSession order sessions = some o) :
    o ∈ sessions := by
  have hne : sessions ≠ [] := by
    rintro rfl
    rw [oldestSession, List.perm_nil.mp (order.perm [])] at h
    cases h
  obtain ⟨_, hmem, ho⟩ := oldestSession_exists order hne
  rwa [Option.some.inj (h.symm.trans ho)]

/-- The transactions that are closed to make room. -/
def roomCloses (limits : Limits) (order : Order) (sessions : List SessionState) :
    List TransactionState :=
  if limits.maxSessions ≤ sessions.length then left (oldestSession order sessions) else []

/-- What is left after a session made room, with the evicted session's revisions. -/
theorem makeRoom_spec (order : Order) (h : Keyed sessions)
    (hmay : ∀ tx ∈ roomCloses limits order sessions, P.revises tx) :
    Moves P (pool sessions) (makeRoom lib limits order sessions).2
        (pool (makeRoom lib limits order sessions).1) ∧
      (makeRoom lib limits order sessions).1.Sublist sessions := by
  rw [roomCloses] at hmay
  rw [makeRoom]
  split
  · rename_i hfull
    rw [if_pos hfull] at hmay
    cases ho : oldestSession order sessions with
    | none => exact ⟨Advance.refl _, List.Sublist.refl _⟩
    | some o =>
      rw [ho] at hmay
      refine ⟨?_, List.filter_sublist⟩
      have hperm := pool_perm (h.perm_filter (oldestSession_mem ho))
      exact Advance.after (.perm hperm) ((finalizeSession_moves hmay).frame _)
  · exact ⟨Advance.refl _, List.Sublist.refl _⟩

theorem newSession_key (lib : Lib) (pf : PacketFeature) :
    (newSession lib pf).key = (canonicalKey pf).1 := rfl

theorem newSession_transactions (lib : Lib) (pf : PacketFeature) :
    (newSession lib pf).transactions = [] := rfl

/-- The session of a packet beside the others: an old one that is taken out of the map, or a new
    one. -/
structure Located (P : Policy) (lib : Lib) (pf : PacketFeature)
    (sessions : List SessionState) (st : SessionState) (others : List SessionState)
    (updates : List ThreatEvent) : Prop where
  moves : Moves P (pool sessions) updates (st.transactions ++ pool others)
  keyed : Keyed (st :: others)
  others : others.Sublist sessions
  origin : st ∈ sessions ∨ st = newSession lib pf

/-- The transactions that are closed while the session of a packet is looked up: those of a session
    that a new connection resets, and those of the session that makes room. -/
def locateCloses (limits : Limits) (order : Order) (sessions : List SessionState)
    (pf : PacketFeature) : List TransactionState :=
  let others := sessions.filter (·.key ≠ (canonicalKey pf).1)
  match sessions.find? (·.key = (canonicalKey pf).1) with
  | some st => if Opens pf then st.transactions ++ roomCloses limits order others else []
  | none => roomCloses limits order others

theorem locate_spec (order : Order) (h : Keyed sessions) (pf : PacketFeature)
    (hmay : ∀ tx ∈ locateCloses limits order sessions pf, P.revises tx) :
    Located P lib pf sessions (locate lib limits order sessions pf).1
      (locate lib limits order sessions pf).2.1 (locate lib limits order sessions pf).2.2 := by
  have hkey : ∀ {l : List SessionState} {st : SessionState}, Keyed l → st.key = (canonicalKey pf).1 →
      l.Sublist (sessions.filter (·.key ≠ (canonicalKey pf).1)) → Keyed (st :: l) := by
    intro l st hl hst hsub
    refine List.nodup_cons.mpr ⟨fun hmem => ?_, hl⟩
    obtain ⟨x, hx, hxkey⟩ := List.mem_map.mp hmem
    have hxk : x.key = (canonicalKey pf).1 := hxkey.trans hst
    simpa [hxk] using (List.mem_filter.mp (hsub.subset hx)).2
  have hothers := h.filter fun st => st.key ≠ (canonicalKey pf).1
  have hroom : (∀ tx ∈ roomCloses limits order (sessions.filter (·.key ≠ (canonicalKey pf).1)),
      P.revises tx) → _ := @makeRoom_spec lib limits P _ order hothers
  have hnew : ∀ {l}, l.Sublist (sessions.filter (·.key ≠ (canonicalKey pf).1)) →
      Keyed (newSession lib pf :: l) :=
    fun hsub => hkey (hothers.sublist (hsub.map _)) (newSession_key lib pf) hsub
  rw [locateCloses] at hmay
  rw [locate]
  cases hfind : sessions.find? (·.key = (canonicalKey pf).1) with
  | none =>
    rw [hfind] at hmay
    have hall : sessions.filter (·.key ≠ (canonicalKey pf).1) = sessions := by
      refine List.filter_eq_self.mpr fun x hx => ?_
      simpa using List.find?_eq_none.mp hfind x hx
    obtain ⟨hmoves, hsub⟩ := hroom hmay
    refine ⟨?_, hnew hsub, hsub.trans List.filter_sublist, Or.inr rfl⟩
    rw [newSession_transactions, List.nil_append]
    rw [hall] at hmoves ⊢
    exact hmoves
  | some st =>
    rw [hfind] at hmay
    have hmem := List.mem_of_find?_eq_some hfind
    have hst : st.key = (canonicalKey pf).1 := by simpa using List.find?_some hfind
    have hperm := pool_perm (h.perm_filter hmem)
    rw [hst] at hperm
    dsimp only at hmay ⊢
    split
    · -- a reset: the old session is closed
      rename_i hopens
      rw [if_pos hopens] at hmay
      obtain ⟨hmoves, hsub⟩ := hroom fun tx htx => hmay tx (List.mem_append_right _ htx)
      refine ⟨?_, hnew hsub, hsub.trans List.filter_sublist, Or.inr rfl⟩
      refine Advance.after (.perm hperm) ?_
      have hclose : Moves P st.transactions (finalizeSession lib limits st) [] :=
        finalizeSession_moves fun tx htx => hmay tx (List.mem_append_left _ htx)
      exact (hclose.frame _).trans hmoves
    · exact ⟨.perm hperm, hkey hothers hst (List.Sublist.refl _), List.filter_sublist, Or.inl hmem⟩

/-! ### Moves of a packet's session -/

/-- A session with the same name and the same transactions. -/
structure Kept (st st' : SessionState) : Prop where
  key : st'.key = st.key
  id : st'.id = st.id
  nextTxn : st'.nextTxn = st.nextTxn
  transactions : st'.transactions = st.transactions

theorem assessDirection_kept (st : SessionState) (pf : PacketFeature) :
    Kept st (assessDirection st pf).1 := by
  rw [assessDirection]
  split
  · exact ⟨rfl, rfl, rfl, rfl⟩
  · dsimp only
    split_ifs <;> exact ⟨rfl, rfl, rfl, rfl⟩

theorem tally_kept (st : SessionState) (pf : PacketFeature) : Kept st (tally st pf).1 := by
  have h := assessDirection_kept { st with lastUsec := max st.lastUsec pf.packetTimeUsec } pf
  rw [tally]
  dsimp only
  split
  · exact ⟨h.key, h.id, h.nextTxn, h.transactions⟩
  · exact ⟨h.key, h.id, h.nextTxn, h.transactions⟩

/-- The transaction that makes room for a new one. -/
def evicted (limits : Limits) (txs : List TransactionState) : Option TransactionState :=
  if limits.maxTransactionsPerSession ≤ txs.length then
    txs[(txs.findIdx? (·.final)).getD 0]?
  else none

theorem evicted_mem {tx : TransactionState} (h : evicted limits txs = some tx) : tx ∈ txs := by
  rw [evicted] at h
  split at h
  · exact List.mem_of_getElem? h
  · simp at h

/-- A full table has a transaction to evict. -/
theorem slot_lt (hfull : limits.maxTransactionsPerSession ≤ txs.length) :
    (txs.findIdx? (·.final)).getD 0 < txs.length := by
  cases hidx : txs.findIdx? (·.final) with
  | none => exact Nat.lt_of_lt_of_le limits.maxTransactionsPerSession.2 hfull
  | some i => exact (List.findIdx?_eq_some_iff_getElem.mp hidx).1

theorem makeSlot_moves (hevict : ∀ tx, evicted limits txs = some tx → P.drops tx) :
    Moves P txs [] (makeSlot limits txs) := by
  rw [makeSlot]
  split
  · rename_i hfull
    refine Advance.eraseIdx (List.getElem?_eq_getElem (slot_lt hfull)) (hevict _ ?_)
    rw [evicted, if_pos hfull, List.getElem?_eq_getElem (slot_lt hfull)]
  · exact Advance.refl _

/-- A packet's transaction: none, or an open one at an index of `base`, changed by a touch. -/
inductive Attached (base after : List TransactionState) : Option Nat → Prop where
  | none (same : after = base) : Attached base after none
  | some {i : Nat} {a : TransactionState} {f : TransactionState → TransactionState}
      (here : base[i]? = some a) (isOpen : a.final = false) (touched : ∀ tx, Touched tx (f tx))
      (changed : after = base.modify i f) : Attached base after (some i)

theorem appendRequest_touched (pf : PacketFeature) (n : UInt64) (tx : TransactionState) :
    Touched tx (appendRequest lib limits pf n tx) := ⟨rfl, rfl, fun h => h⟩

theorem appendResponse_touched (pf : PacketFeature) (n : UInt64) (tx : TransactionState) :
    Touched tx (appendResponse lib limits pf n tx) :=
  ⟨rfl, rfl, fun h => by rw [appendResponse, h, Bool.true_or]⟩

theorem newTransaction_moves (usec : UInt64)
    (hevict : ∀ tx, evicted limits st.transactions = some tx → P.drops tx) :
    Moves P st.transactions [] (newTransaction lib limits st usec).1.transactions := by
  have hjoin : Moves P (makeSlot limits st.transactions) []
      (nextTransaction lib st usec :: makeSlot limits st.transactions) := .join rfl
  exact (makeSlot_moves hevict).after (hjoin.before (.perm (List.perm_append_singleton _ _).symm))

theorem newTransaction_here (st : SessionState) (usec : UInt64) :
    (newTransaction lib limits st usec).1.transactions[(newTransaction lib limits st usec).2]? =
      some (nextTransaction lib st usec) := by
  simp [newTransaction]

theorem makeSlot_sublist (txs : List TransactionState) : (makeSlot limits txs).Sublist txs := by
  rw [makeSlot]
  split
  · exact List.eraseIdx_sublist _ _
  · exact List.Sublist.refl _

theorem newTransaction_mem {usec : UInt64} {tx : TransactionState}
    (h : tx ∈ (newTransaction lib limits st usec).1.transactions) :
    tx ∈ st.transactions ∨ tx = nextTransaction lib st usec := by
  rcases List.mem_append.mp h with hold | hnew
  · exact Or.inl ((makeSlot_sublist _).subset hold)
  · exact Or.inr (List.mem_singleton.mp hnew)

/-- The response goes to an open transaction; if there is none, the one that makes room is final. -/
theorem responseTransaction_spec (P : Policy) (st : SessionState) (usec : UInt64) :
    Moves P st.transactions [] (responseTransaction lib limits st usec).1.transactions ∧
      (∃ a, (responseTransaction lib limits st usec).1.transactions[
        (responseTransaction lib limits st usec).2]? = some a ∧ a.final = false) ∧
      ∀ tx ∈ (responseTransaction lib limits st usec).1.transactions,
        tx ∈ st.transactions ∨ tx.final = false := by
  rw [responseTransaction]
  cases hidx : st.transactions.findIdx? (!·.final) with
  | none =>
    have hall := List.findIdx?_eq_none_iff.mp hidx
    refine ⟨newTransaction_moves usec fun tx hev => P.final_drops tx ?_,
      ⟨_, newTransaction_here st usec, rfl⟩, fun tx htx => ?_⟩
    · simpa using hall tx (evicted_mem hev)
    · rcases newTransaction_mem htx with hold | rfl
      · exact Or.inl hold
      · exact Or.inr rfl
  | some i =>
    obtain ⟨hlt, hopen, _⟩ := List.findIdx?_eq_some_iff_getElem.mp hidx
    exact ⟨Advance.refl _, ⟨_, List.getElem?_eq_getElem hlt, by simpa using hopen⟩,
      fun tx htx => Or.inl htx⟩

/-- A continuation goes to an open transaction. -/
theorem continuationTransaction_spec {source : String} {i : Nat}
    (h : continuationTransaction st source = some i) :
    ∃ a, st.transactions[i]? = some a ∧ a.final = false := by
  rw [continuationTransaction] at h
  split at h
  · obtain ⟨j, hj, rfl⟩ := Option.map_eq_some_iff.mp h
    obtain ⟨hlt, hopen, _⟩ := List.findIdx?_eq_some_iff_getElem.mp hj
    rw [List.length_reverse] at hlt
    rw [List.getElem_reverse] at hopen
    refine ⟨_, List.getElem?_eq_getElem (by omega), ?_⟩
    simp only [Bool.and_eq_true, Bool.not_eq_true'] at hopen
    exact hopen.1
  · obtain ⟨hlt, hopen, _⟩ := List.findIdx?_eq_some_iff_getElem.mp h
    exact ⟨_, List.getElem?_eq_getElem hlt, by simpa using hopen⟩

theorem endpoint_ne_empty (ip : String) (port : UInt16) : endpoint ip port ≠ "" := by
  intro h
  have := congrArg String.toList h
  rw [endpoint] at this
  split at this
  · simp at this
  · simp at this

/-- A rule for `attach`: it sets the client, opens a transaction and gives the packet to one, each at
    most once. -/
theorem attach_rule {I : SessionState → Prop} {pf : PacketFeature} {n : UInt64}
    (client : ∀ st ip port, I st → I { st with client := endpoint ip port })
    (opens : ∀ st, st.client ≠ "" → I st → I (newTransaction lib limits st pf.packetTimeUsec).1)
    (request : ∀ st i, I st → I (st.modify i (appendRequest lib limits pf n)))
    (response : ∀ st i, I st → I (st.modify i (appendResponse lib limits pf n))) (h : I st) :
    I (attach lib limits st pf n).1 := by
  have hrespond : ∀ st, st.client ≠ "" → I st →
      I (responseTransaction lib limits st pf.packetTimeUsec).1 := by
    intro st hne hst
    rw [responseTransaction]
    split
    · exact hst
    · exact opens st hne hst
  rw [attach]
  dsimp only
  split
  · exact h
  cases pf.messageDirection with
  | request => exact request _ _ (opens _ (endpoint_ne_empty _ _) (client _ _ _ h))
  | response =>
    dsimp only
    split
    · exact response _ _ (hrespond _ (endpoint_ne_empty _ _) (client _ _ _ h))
    · next hne => exact response _ _ (hrespond _ hne h)
  | none =>
    dsimp only
    split
    · exact h
    · split
      · exact h
      · split
        · exact request _ _ h
        · exact response _ _ h

/-- The packet touches at most one transaction, after room was made and a new one joined. -/
theorem attach_spec (st : SessionState) (pf : PacketFeature) (n : UInt64)
    (hevict : pf.proto = .tcp → pf.messageDirection = .request →
      ∀ tx, evicted limits st.transactions = some tx → P.drops tx) :
    ∃ base, Moves P st.transactions [] base ∧
      Attached base (attach lib limits st pf n).1.transactions (attach lib limits st pf n).2 ∧
      ∀ tx ∈ base, tx ∈ st.transactions ∨ tx.final = false := by
  rw [attach]
  dsimp only
  split
  · exact ⟨_, Advance.refl _, .none rfl, fun tx htx => Or.inl htx⟩
  rename_i htcp
  simp only [ne_eq, Decidable.not_not] at htcp
  cases hdir : pf.messageDirection with
  | request =>
    refine ⟨_, newTransaction_moves _ (hevict htcp hdir),
      .some (newTransaction_here _ _) rfl (appendRequest_touched pf n) rfl, fun tx htx => ?_⟩
    rcases newTransaction_mem htx with hold | rfl
    · exact Or.inl hold
    · exact Or.inr rfl
  | response =>
    dsimp only
    split
    · obtain ⟨hmoves, ⟨a, ha, hopen⟩, hmem⟩ := @responseTransaction_spec lib limits P
        { st with client := endpoint pf.dstIP pf.dstPort } pf.packetTimeUsec
      exact ⟨_, hmoves, .some ha hopen (appendResponse_touched pf n) rfl, hmem⟩
    · obtain ⟨hmoves, ⟨a, ha, hopen⟩, hmem⟩ := @responseTransaction_spec lib limits P st
        pf.packetTimeUsec
      exact ⟨_, hmoves, .some ha hopen (appendResponse_touched pf n) rfl, hmem⟩
  | none =>
    dsimp only
    split
    · exact ⟨_, Advance.refl _, .none rfl, fun tx htx => Or.inl htx⟩
    · cases hcont : continuationTransaction st (endpoint pf.srcIP pf.srcPort) with
      | none => exact ⟨_, Advance.refl _, .none rfl, fun tx htx => Or.inl htx⟩
      | some i =>
        obtain ⟨a, ha, hopen⟩ := continuationTransaction_spec hcont
        dsimp only
        split
        · exact ⟨_, Advance.refl _, .some ha hopen (appendRequest_touched pf n) rfl,
            fun tx htx => Or.inl htx⟩
        · exact ⟨_, Advance.refl _, .some ha hopen (appendResponse_touched pf n) rfl,
            fun tx htx => Or.inl htx⟩

/-- A list beside itself with one member changed. -/
theorem forall₂_modify {R : TransactionState → TransactionState → Prop} (refl : ∀ tx, R tx tx)
    {l : List TransactionState} {i : Nat} {f : TransactionState → TransactionState}
    (h : ∀ tx, l[i]? = some tx → R tx (f tx)) : List.Forall₂ R l (l.modify i f) := by
  refine List.forall₂_iff_get.mpr ⟨by simp, fun k h₁ h₂ => ?_⟩
  simp only [List.get_eq_getElem, List.getElem_modify]
  split
  · rename_i hk
    subst hk
    exact h _ (List.getElem?_eq_getElem h₁)
  · exact refl _

theorem Attached.forall₂ {base after : List TransactionState} {chosen : Option Nat}
    (h : Attached base after chosen) : List.Forall₂ Touched base after := by
  cases h with
  | none same =>
    rw [same]
    exact List.forall₂_same.mpr fun tx _ => Touched.refl tx
  | some _ _ touched changed =>
    rw [changed]
    exact forall₂_modify Touched.refl fun tx _ => touched tx

/-- A packet that closes its connection. -/
def Closes (pf : PacketFeature) : Bool := pf.proto = .tcp ∧ (pf.tcpFIN ∨ pf.tcpRST)

/-- What `settle` does: it closes all transactions, or revises that of the packet if there is one. -/
theorem settle_cases (st : SessionState) (chosen : Option Nat) (pf : PacketFeature) :
    (Closes pf = true ∧ settle lib limits st chosen pf =
      ({ st with transactions := st.transactions.map fun tx => (closeTransaction lib limits st tx).1 },
        st.transactions.flatMap fun tx => (closeTransaction lib limits st tx).2)) ∨
    Closes pf = false ∧ (settle lib limits st chosen pf = (st, []) ∨
      ∃ i tx, chosen = some i ∧ st.transactions[i]? = some tx ∧ settle lib limits st chosen pf =
        (st.modify i fun _ =>
            (reviseTransaction lib limits st { tx with lastUsec := pf.packetTimeUsec }).1,
          (reviseTransaction lib limits st { tx with lastUsec := pf.packetTimeUsec }).2)) := by
  rw [settle]
  split
  · next hcloses =>
    refine .inl ⟨by simpa [Closes] using hcloses, ?_⟩
    simp [List.flatMap_map]
  · next hstays =>
    refine .inr ⟨by simpa [Closes] using hstays, ?_⟩
    split
    · next i tx hchosen =>
      obtain ⟨j, rfl, hj⟩ := Option.bind_eq_some_iff.mp hchosen
      obtain ⟨tx', htx', heq⟩ := Option.map_eq_some_iff.mp hj
      obtain ⟨rfl, rfl⟩ := Prod.mk.inj heq
      exact .inr ⟨_, _, rfl, htx', rfl⟩
    · exact .inl rfl

/-- After the packet is attached, one transaction is revised or all are closed. -/
theorem settle_moves {base : List TransactionState} {chosen : Option Nat}
    (h : Attached base st.transactions chosen) (pf : PacketFeature)
    (hmay : Closes pf = true → ∀ tx ∈ base, P.revises tx) :
    Moves P base (settle lib limits st chosen pf).2
      (settle lib limits st chosen pf).1.transactions := by
  rw [settle]
  split
  · rename_i hcloses
    dsimp only
    rw [List.flatMap_map, List.map_map]
    refine Advance.each (List.Forall₂.imp (fun a b hab => ?_)
      ((List.forall₂_and_left _ _).mpr ⟨hmay (by simpa [Closes] using hcloses), h.forall₂⟩))
    exact closeTransaction_move hab.2 hab.1
  · cases h with
    | none same => exact same ▸ Advance.refl _
    | @some i a f here hopen touched changed =>
      have hget : st.transactions[i]? = some (f a) := by
        rw [changed, List.getElem?_modify_eq, here]
        rfl
      have hchosen : ((some i).bind fun i => st.transactions[i]?.map fun tx => (i, tx)) =
          some (i, f a) := by
        rw [Option.bind_some, hget]
        rfl
      have hmove : TxMove P a _ _ := @reviseTransaction_move lib limits st a
        { f a with lastUsec := pf.packetTimeUsec } P
        ((touched a).trans ⟨rfl, rfl, fun h => h⟩) (P.open_revises a hopen)
      rw [hchosen]
      dsimp only [SessionState.modify]
      rw [changed, List.modify_modify_eq]
      exact Advance.modify here hmove

/-- Attaching a packet keeps the names of its session. -/
theorem attach_named (st : SessionState) (pf : PacketFeature) (n : UInt64) :
    (attach lib limits st pf n).1.key = st.key ∧ (attach lib limits st pf n).1.id = st.id :=
  attach_rule (I := fun st' => st'.key = st.key ∧ st'.id = st.id) (fun _ _ _ h => h)
    (fun _ _ h => h) (fun _ _ h => h) (fun _ _ h => h) ⟨rfl, rfl⟩

theorem settle_named (st : SessionState) (chosen : Option Nat) (pf : PacketFeature) :
    (settle lib limits st chosen pf).1.key = st.key ∧
      (settle lib limits st chosen pf).1.id = st.id ∧
      (settle lib limits st chosen pf).1.nextTxn = st.nextTxn := by
  rcases @settle_cases lib limits st chosen pf with ⟨-, h⟩ | ⟨-, h | ⟨i, tx, -, -, h⟩⟩ <;>
    rw [h] <;> exact ⟨rfl, rfl, rfl⟩

/-! ### Moves of the calls -/

/-- The session of a packet, the others and the revisions so far, once an `Observe` has found it. -/
def found (lib : Lib) (limits : Limits) (orders : Orders) (t : Tracker) (pf : PacketFeature) :
    SessionState × List SessionState × List ThreatEvent :=
  locate lib limits orders.oldest
    (cleanupLocked lib limits orders.cleanup t pf.packetTimeUsec).1.sessions pf

/-- The session of a packet after the packet. -/
def observed (lib : Lib) (limits : Limits) (orders : Orders) (t : Tracker) (pf : PacketFeature)
    (n : UInt64) : SessionState × List ThreatEvent :=
  let st := (tally (found lib limits orders t pf).1 pf).1
  settle lib limits (attach lib limits st pf n).1 (attach lib limits st pf n).2 pf

theorem observe_sessions (orders : Orders) (t : Tracker) (pf : PacketFeature) (n : UInt64) :
    (observe lib limits orders t pf n).1.sessions =
      (observed lib limits orders t pf n).1 :: (found lib limits orders t pf).2.1 := rfl

theorem observe_updates (orders : Orders) (t : Tracker) (pf : PacketFeature) (n : UInt64) :
    (observe lib limits orders t pf n).2.updates =
      (cleanupLocked lib limits orders.cleanup t pf.packetTimeUsec).2 ++
        (found lib limits orders t pf).2.2 ++ (observed lib limits orders t pf n).2 := rfl

/-- The transaction a request removes at the limit. -/
def evictedBy (lib : Lib) (limits : Limits) (orders : Orders) (t : Tracker) (pf : PacketFeature) :
    Option TransactionState :=
  if pf.proto = .tcp ∧ pf.messageDirection = .request then
    evicted limits (found lib limits orders t pf).1.transactions
  else none

/-- The transactions a call closes that were there before it: with idle sessions, with the reset and
    the evicted session, and with the connection that the packet closes. -/
def closedBy (lib : Lib) (limits : Limits) (orders : Orders) (t : Tracker) (pf : PacketFeature) :
    List TransactionState :=
  cleanupCloses lib limits t pf.packetTimeUsec ++
    locateCloses limits orders.oldest
      (cleanupLocked lib limits orders.cleanup t pf.packetTimeUsec).1.sessions pf ++
    if Closes pf then (found lib limits orders t pf).1.transactions else []

theorem observe_moves (P : Policy) (orders : Orders) (h : Keyed t.sessions) (pf : PacketFeature)
    (n : UInt64) (hclose : ∀ tx ∈ closedBy lib limits orders t pf, P.revises tx)
    (hevict : ∀ tx, evictedBy lib limits orders t pf = some tx → P.drops tx) :
    Moves P (pool t.sessions) (observe lib limits orders t pf n).2.updates
      (pool (observe lib limits orders t pf n).1.sessions) := by
  simp only [closedBy, List.mem_append, or_imp, forall_and] at hclose
  obtain ⟨⟨hclean, hlocate⟩, hsettle⟩ := hclose
  have hcleaned := @cleanupLocked_moves lib limits P orders.cleanup t pf.packetTimeUsec hclean
  have hfound : Located P lib pf _ (found lib limits orders t pf).1 _ _ :=
    locate_spec orders.oldest (h.cleanupLocked orders.cleanup pf.packetTimeUsec) pf hlocate
  have hkept := tally_kept (found lib limits orders t pf).1 pf
  obtain ⟨base, hbase, hattached, hmem⟩ := @attach_spec lib limits P
    (tally (found lib limits orders t pf).1 pf).1 pf n (by
      intro htcp hreq tx hev
      rw [hkept.transactions] at hev
      exact hevict tx (by rw [evictedBy, if_pos ⟨htcp, hreq⟩]; exact hev))
  rw [hkept.transactions] at hbase
  have hmay : Closes pf = true → ∀ tx ∈ base, P.revises tx := by
    intro hcl tx htx
    rw [if_pos hcl] at hsettle
    rcases hmem tx htx with hold | hopen
    · exact hsettle tx (by rwa [hkept.transactions] at hold)
    · exact P.open_revises tx hopen
  rw [observe_updates, observe_sessions]
  exact (hcleaned.trans hfound.moves).trans
    ((hbase.after (settle_moves hattached pf hmay)).frame (pool (found lib limits orders t pf).2.1))

/-- The policy under which everything may happen. -/
def Policy.free : Policy := ⟨fun _ => True, fun _ => True, fun _ _ => trivial, fun _ _ => trivial⟩

theorem found_spec (orders : Orders) (h : Keyed t.sessions) (pf : PacketFeature) :
    Located Policy.free lib pf
      (cleanupLocked lib limits orders.cleanup t pf.packetTimeUsec).1.sessions
      (found lib limits orders t pf).1 (found lib limits orders t pf).2.1
      (found lib limits orders t pf).2.2 :=
  locate_spec orders.oldest (h.cleanupLocked _ _) pf fun _ _ => trivial

theorem observe_keyed (orders : Orders) (h : Keyed t.sessions) (pf : PacketFeature) (n : UInt64) :
    Keyed (observe lib limits orders t pf n).1.sessions := by
  have hfound := (@found_spec lib limits t orders h pf).keyed
  have hkept := (tally_kept (found lib limits orders t pf).1 pf).key
  rw [Keyed, List.map_cons, ← hkept, ← (@attach_named lib limits _ pf n).1,
    ← (@settle_named lib limits _ (attach lib limits _ pf n).2 pf).1] at hfound
  rw [observe_sessions, Keyed, List.map_cons]
  exact hfound

theorem flush_moves (P : Policy) (order : Order) (t : Tracker)
    (hclose : ∀ tx ∈ pool t.sessions, P.revises tx) :
    Moves P (pool t.sessions) (flush lib limits order t).2 [] := by
  have hperm := pool_perm (order.perm t.sessions)
  refine Advance.after (.perm hperm.symm) ?_
  replace hclose : ∀ tx ∈ pool (order.visit t.sessions), P.revises tx :=
    fun tx htx => hclose tx (hperm.mem_iff.mp htx)
  rw [flush]
  dsimp only
  generalize order.visit t.sessions = sessions at hclose
  induction sessions with
  | nil => exact Advance.refl _
  | cons st sessions ih =>
    rw [List.flatMap_cons]
    have hst : Moves P st.transactions (finalizeSession lib limits st) [] :=
      finalizeSession_moves fun tx htx => hclose tx (List.mem_append_left _ htx)
    exact hst.append (ih fun tx htx => hclose tx (List.mem_append_right _ htx))

/-! ### Registering an event -/

/-- The event `Register` returns. -/
theorem register_event (order : Order) (t : Tracker) (obs : Observation) (ev : ThreatEvent) :
    (register order t obs ev).2.eventID = ev.eventID ∧
      (register order t obs ev).2.sessionID = obs.sessionID ∧
      (register order t obs ev).2.transactionID = obs.transactionID ∧
      (register order t obs ev).2.contextRevision = 1 ∧
      (register order t obs ev).2.contextFinal = obs.contextFinal := by
  rw [register]
  dsimp only
  split
  · exact ⟨rfl, rfl, rfl, rfl, rfl⟩
  · split
    · exact ⟨rfl, rfl, rfl, rfl, rfl⟩
    · dsimp only
      obtain ⟨raw, heq⟩ := applyLegacyExchange_fields _ _
      rw [heq]
      exact ⟨rfl, rfl, rfl, rfl, rfl⟩

/-- One more event on a transaction of a session. -/
def putOn (st : SessionState) (i : Nat) (ev : ThreatEvent) : SessionState :=
  SessionState.modify { st with hitCount := st.hitCount + 1 } i
    fun tx => { tx with events := putEvent ev tx.events }

/-- What `Register` does to the sessions: nothing, one more hit on a session, or also a new event on
    the transaction that the observation names. -/
inductive Registers (t : Tracker) (obs : Observation) (ev : ThreatEvent) (t' : Tracker) : Prop where
  | nothing (none : ∀ st ∈ t.sessions, st.id ≠ obs.sessionID) (same : t' = t)
  | hit (st : SessionState) (here : st ∈ t.sessions) (id : st.id = obs.sessionID)
      (none : obs.transactionID = "" ∨ ∀ tx ∈ st.transactions, tx.id ≠ obs.transactionID)
      (changed : t' = { t with sessions :=
        { st with hitCount := st.hitCount + 1 } :: t.sessions.filter (·.key ≠ st.key) })
  | stored (st : SessionState) (here : st ∈ t.sessions) (id : st.id = obs.sessionID) (i : Nat)
      (tx : TransactionState) (htx : st.transactions[i]? = some tx)
      (txid : tx.id = obs.transactionID) (named : obs.transactionID ≠ "")
      (changed : t' = { t with sessions := putOn st i ev :: t.sessions.filter (·.key ≠ st.key) })

theorem register_spec (order : Order) (t : Tracker) (obs : Observation) (ev : ThreatEvent) :
    Registers t obs (register order t obs ev).2 (register order t obs ev).1 := by
  rw [register, findTransaction]
  dsimp only
  cases hfind : (order.visit t.sessions).find? (·.id = obs.sessionID) with
  | none =>
    refine .nothing (fun st hst => ?_) rfl
    simpa using List.find?_eq_none.mp hfind st ((order.perm _).mem_iff.mpr hst)
  | some st =>
    have hst := (order.perm _).mem_iff.mp (List.mem_of_find?_eq_some hfind)
    have hid : st.id = obs.sessionID := by simpa using List.find?_some hfind
    dsimp only
    by_cases hempty : obs.transactionID = ""
    · rw [if_pos hempty]
      exact .hit st hst hid (Or.inl hempty) rfl
    · rw [if_neg hempty]
      cases hidx : st.transactions.findIdx? (·.id = obs.transactionID) with
      | none =>
        refine .hit st hst hid (Or.inr fun tx htx => ?_) rfl
        simpa using List.findIdx?_eq_none_iff.mp hidx tx htx
      | some i =>
        obtain ⟨hlt, htx, _⟩ := List.findIdx?_eq_some_iff_getElem.mp hidx
        exact .stored st hst hid i _ (List.getElem?_eq_getElem hlt) (by simpa using htx) hempty rfl

/-- A session is one that was there, with one more hit or an event at most. -/
theorem Registers.origin (h : Registers t obs ev t') (hst' : st' ∈ t'.sessions) : ∃ st ∈ t.sessions,
      st' = st ∨ st' = { st with hitCount := st.hitCount + 1 } ∨ ∃ i, st' = putOn st i ev := by
  cases h with
  | nothing _ same => exact ⟨st', same ▸ hst', .inl rfl⟩
  | hit st here _ _ changed =>
    rw [changed] at hst'
    rcases List.mem_cons.mp hst' with rfl | hother
    · exact ⟨st, here, .inr (.inl rfl)⟩
    · exact ⟨st', (List.mem_filter.mp hother).1, .inl rfl⟩
  | stored st here _ i _ _ _ _ changed =>
    rw [changed] at hst'
    rcases List.mem_cons.mp hst' with rfl | hother
    · exact ⟨st, here, .inr (.inr ⟨i, rfl⟩)⟩
    · exact ⟨st', (List.mem_filter.mp hother).1, .inl rfl⟩

/-- The pool after `Register`: the same members, or one of them with one more event. -/
theorem Registers.pool (h : Registers t obs ev t') (hkeyed : Keyed t.sessions) :
    (pool t'.sessions).Perm (pool t.sessions) ∨
      ∃ st ∈ t.sessions, ∃ tx ∈ st.transactions, ∃ rest, st.id = obs.sessionID ∧
        tx.id = obs.transactionID ∧ (pool t.sessions).Perm (tx :: rest) ∧
        (pool t'.sessions).Perm ({ tx with events := putEvent ev tx.events } :: rest) := by
  cases h with
  | nothing _ same => exact Or.inl (same ▸ List.Perm.refl _)
  | hit st here _ _ changed =>
    left
    rw [changed]
    exact (pool_perm (hkeyed.perm_filter here)).symm
  | stored st here id i tx htx txid _ changed =>
    right
    obtain ⟨h₁, h₂⟩ := perm_modify htx fun tx => { tx with events := putEvent ev tx.events }
    refine ⟨st, here, tx, List.mem_of_getElem? htx,
      st.transactions.eraseIdx i ++ Correlation.pool (t.sessions.filter (·.key ≠ st.key)),
      id, txid, ?_, ?_⟩
    · exact (pool_perm (hkeyed.perm_filter here)).trans (h₁.append_right _)
    · rw [changed]
      exact h₂.append_right _

theorem Registers.keyed (h : Registers t obs ev t') (hkeyed : Keyed t.sessions) :
    Keyed t'.sessions := by
  cases h with
  | nothing _ same => exact same ▸ hkeyed
  | hit st here _ _ changed | stored st here _ _ _ _ _ _ changed =>
    have := ((hkeyed.perm_filter here).map fun s : SessionState => s.key).nodup_iff.mp hkeyed
    rw [changed]
    exact this

end

end TaNode.Correlation

import TaNode.Correlation.Pairing

/-! How many events a tracker keeps.

    Sessions, transactions, packets and bytes have limits; the events of a transaction have none.
    `Register` keeps a copy of every event, and the packet that closes the connection revises all of
    them:

        calls      request   segment, hit 0   segment, hit 1   …   segment, hit k - 1     FIN
        copies        0             1                2                     k
        updates                                                                            k

    So no number is a bound, whatever the options are. -/

namespace TaNode.Correlation

variable {lib : Lib} {limits : Limits} {k : Nat} {t : Tracker} {tx : TransactionState}
  {st : SessionState} {pf : PacketFeature}

/-- The event copies of some transactions. -/
def copyCount (txs : List TransactionState) : Nat := (txs.map (·.events.length)).sum

/-- Calls of `Observe` and `Register`. -/
inductive Call (lib : Lib) (limits : Limits) : Tracker → Tracker → Prop where
  | observe {t : Tracker} (orders : Orders) (pf : PacketFeature) (n : UInt64) :
      Call lib limits t (Correlation.observe lib limits orders t pf n).1
  | register {t : Tracker} (order : Order) (obs : Observation) (ev : ThreatEvent) :
      Call lib limits t (Correlation.register order t obs ev).1

/-! ### A run of hits -/

def hitRequest : PacketFeature := fromClient 1 .request [71]

/-- A segment of the client that goes on with the request. -/
def hitSegment : PacketFeature := fromClient 1 .none [69]

/-- The end of the connection. -/
def hitEnd : PacketFeature := { fromClient 1 .none [] with tcpFIN := true }

/-- The event a rule makes of the segment `k`. -/
def hitEvent (k : Nat) : ThreatEvent := { eventID := toString k }

/-- A request and `k` more segments, each of which is a hit. -/
def hits (lib : Lib) (limits : Limits) : Nat → Tracker
  | 0 => (observe lib limits {} {} hitRequest 0).1
  | k + 1 =>
    let observed := observe lib limits {} (hits lib limits k) hitSegment 0
    (register .listed observed.1 observed.2 (hitEvent k)).1

theorem hits_run : ∀ k, Reachable (· = {}) (Call lib limits) (hits lib limits k)
  | 0 => .next (.start rfl) (.observe {} hitRequest 0)
  | k + 1 => .next (.next (hits_run k) (.observe {} hitSegment 0)) (.register .listed _ (hitEvent k))

/-- One open transaction of the client, with the events of `k` segments. -/
structure Hot (k : Nat) (t : Tracker) (st : SessionState) (tx : TransactionState) : Prop where
  cleaned : t.lastCleanup = 1
  sessions : t.sessions = [st]
  key : st.key = (canonicalKey hitSegment).1
  client : st.client = endpoint hitSegment.srcIP hitSegment.srcPort
  transactions : st.transactions = [tx]
  named : tx.id ≠ ""
  opened : tx.final = false
  unanswered : tx.response = {}
  events : Holding tx ((List.range k).map hitEvent)

theorem found_first : found lib limits {} {} hitRequest = (newSession lib hitRequest, [], []) := by
  have hroom : makeRoom lib limits .listed [] = ([], []) := by
    rw [makeRoom, List.length_nil, if_neg (Nat.not_le.mpr limits.maxSessions.2)]
  change locate lib limits .listed [] hitRequest = _
  simp [locate, hroom]

theorem hot_zero : ∃ st tx, Hot 0 (hits lib limits 0) st tx := by
  have hkept := tally_kept (newSession lib hitRequest) hitRequest
  obtain ⟨-, hsettle⟩ := @settle_ask lib limits hitRequest
    (tally (newSession lib hitRequest) hitRequest).1 rfl rfl rfl
    (by rw [hkept.transactions]; exact limits.maxTransactionsPerSession.2) 0
  have hsessions : (hits lib limits 0).sessions = [(observed lib limits {} {} hitRequest 0).1] := by
    rw [hits, observe_sessions, found_first]
  rw [observed, found_first, hsettle] at hsessions
  exact ⟨_, _, rfl, hsessions, hkept.key, rfl, congrArg (· ++ _) hkept.transactions,
    txnID_ne_empty _ _ _, rfl, rfl, fun _ h => by simp at h⟩

/-- A packet of the client finds the session as it is. -/
theorem Hot.found (h : Hot k t st tx) (hkey : (canonicalKey pf).1 = (canonicalKey hitSegment).1)
    (htime : pf.packetTimeUsec = 1) (hstays : Opens pf = false) :
    cleanupLocked lib limits .listed t pf.packetTimeUsec = (t, []) ∧
      Correlation.found lib limits {} t pf = (st, [], []) := by
  have hclean : cleanupLocked lib limits .listed t pf.packetTimeUsec = (t, []) := by
    rw [cleanupLocked, htime, if_neg (by decide), if_pos (by rw [h.cleaned]; decide)]
  refine ⟨hclean, ?_⟩
  rw [Correlation.found, hclean, h.sessions, locate]
  simp [h.key, hkey, hstays]

/-- A segment of the client goes to its last open transaction without a response. -/
theorem attach_continue (htcp : pf.proto = .tcp)
    (hdir : pf.messageDirection = .none) (hne : pf.payload ≠ [])
    (hclient : st.client = endpoint pf.srcIP pf.srcPort) (hrow : st.transactions = [tx])
    (hopen : tx.final = false) (hresponse : tx.response = {}) (n : UInt64) :
    attach lib limits st pf n =
      ({ st with transactions := [appendRequest lib limits pf n tx] }, some 0) := by
  have hsource : st.client ≠ "" ∧ endpoint pf.srcIP pf.srcPort = st.client :=
    ⟨hclient ▸ endpoint_ne_empty _ _, hclient.symm⟩
  have hidx : continuationTransaction st (endpoint pf.srcIP pf.srcPort) = some 0 := by
    rw [continuationTransaction, if_pos hsource, hrow]
    simp [hopen, hresponse]
  rw [attach]
  dsimp only
  rw [if_neg (not_not.mpr htcp), hdir]
  dsimp only
  rw [if_neg hne, hidx]
  dsimp only
  rw [if_pos ⟨hsource.1, hsource.2, by rw [hrow]; simp [hresponse]⟩]
  simp only [SessionState.modify, hrow]
  rfl

theorem Hot.observe (h : Hot k t st tx) : ∃ st' tx',
      Hot k (observe lib limits {} t hitSegment 0).1 st' tx' ∧
      (observe lib limits {} t hitSegment 0).2.sessionID = st'.id ∧
      (observe lib limits {} t hitSegment 0).2.transactionID = tx'.id := by
  obtain ⟨hclean, hfound⟩ := @Hot.found lib limits _ _ _ _ hitSegment h rfl rfl rfl
  have hkept := tally_kept st hitSegment
  have hclient := (tally_client st hitSegment).trans h.client
  have hattach := @attach_continue lib limits tx (tally st hitSegment).1 hitSegment rfl rfl
    (by decide) hclient (hkept.transactions.trans h.transactions) h.opened h.unanswered 0
  have hchosen : (attach lib limits (tally (Correlation.found lib limits {} t hitSegment).1
      hitSegment).1 hitSegment 0).2 = some 0 := by
    rw [hfound, hattach]
  let asked : SessionState := { (tally st hitSegment).1 with
    transactions := [appendRequest lib limits hitSegment 0 tx] }
  let tx' : TransactionState := { appendRequest lib limits hitSegment 0 tx with
    lastUsec := hitSegment.packetTimeUsec }
  have hsettle : observed lib limits {} t hitSegment 0 =
      ({ asked with transactions := [(reviseTransaction lib limits asked tx').1] },
        (reviseTransaction lib limits asked tx').2) := by
    rw [observed, hfound, hattach]
    exact @settle_middle lib limits hitSegment asked [] [] _ rfl rfl
  obtain ⟨hsessions, hsession, htxn, -, -⟩ := observe_single (by rw [hfound]) hchosen hsettle rfl
  refine ⟨_, _, ⟨?_, hsessions, hkept.key.trans h.key, hclient, rfl, ?_, ?_, ?_, ?_⟩, hsession, htxn⟩
  · rw [Correlation.observe, hclean]
    exact h.cleaned
  · rw [reviseTransaction_id]
    exact h.named
  · rw [reviseTransaction_final]
    exact h.opened
  · rw [(reviseTransaction_sides asked tx').2]
    exact h.unanswered
  · intro ev hev
    obtain ⟨held, hheld, hid⟩ := h.events ev hev
    obtain ⟨held', hheld', hid'⟩ := reviseTransaction_holding tx' held hheld
    exact ⟨held', hheld', hid'.trans hid⟩

theorem Hot.register {obs : Observation} (h : Hot k t st tx) (hsession : obs.sessionID = st.id)
    (htxn : obs.transactionID = tx.id) :
    ∃ st' tx', Hot (k + 1) (register .listed t obs (hitEvent k)).1 st' tx' := by
  have hfind : findTransaction .listed t obs.sessionID obs.transactionID = some (st, some 0) := by
    simp [findTransaction, Order.listed, h.sessions, hsession, htxn, h.named, h.transactions]
  obtain ⟨hid, -⟩ := register_event .listed t obs (hitEvent k)
  have hregister : (Correlation.register .listed t obs (hitEvent k)).1 = { t with
      sessions := [{ st with
        hitCount := st.hitCount + 1
        transactions := [{ tx with
          events := putEvent (Correlation.register .listed t obs (hitEvent k)).2 tx.events }] }] } := by
    rw [Correlation.register, hfind]
    simp [h.sessions, SessionState.modify, h.transactions]
  generalize (Correlation.register .listed t obs (hitEvent k)).2 = ev at hid hregister
  rw [hregister]
  refine ⟨_, _, h.cleaned, rfl, h.key, h.client, rfl, h.named, h.opened, h.unanswered,
    fun x hx => ?_⟩
  rw [List.range_succ, List.map_append, List.mem_append, List.map_singleton] at hx
  rcases hx with hx | hx
  · obtain ⟨held, hheld, heq⟩ := h.events x hx
    obtain ⟨held', hheld', heq'⟩ := putEvent_keeps ev hheld
    exact ⟨held', hheld', heq'.trans heq⟩
  · rw [List.mem_singleton.mp hx]
    exact ⟨ev, mem_putEvent ev _, hid⟩

theorem hot_hits : ∀ k, ∃ st tx, Hot k (hits lib limits k) st tx
  | 0 => hot_zero
  | k + 1 => by
    obtain ⟨st, tx, h⟩ := hot_hits k
    obtain ⟨st', tx', h', hsession, htxn⟩ := h.observe
    exact h'.register hsession htxn

/-- Different events make as many copies. -/
theorem Hot.le_length (h : Hot k t st tx) : k ≤ tx.events.length := by
  have hnodup : ((List.range k).map (toString : Nat → String)).Nodup :=
    List.nodup_range.map fun m n hmn => toString_inj (congrArg String.toList hmn)
  have hsub : (List.range k).map (toString : Nat → String) ⊆ tx.events.map (·.eventID) := by
    intro id hid
    obtain ⟨j, hj, rfl⟩ := List.mem_map.mp hid
    obtain ⟨held, hheld, heq⟩ := h.events _ (List.mem_map_of_mem hj)
    exact List.mem_map.mpr ⟨held, hheld, heq⟩
  have hle := (List.subperm_of_subset hnodup hsub).length_le
  rwa [List.length_map, List.length_map, List.length_range] at hle

theorem Hot.copyCount (h : Hot k t st tx) : copyCount (pool t.sessions) = tx.events.length := by
  rw [pool, h.sessions, List.flatMap_singleton, h.transactions]
  rfl

/-! ### No bound -/

/-- A transaction that is closed puts out every copy, however short the last revision is ago. -/
theorem length_closeTransaction : (closeTransaction lib limits st tx).2.length = tx.events.length := by
  rw [closeTransaction, reviseTransaction]
  split_ifs with hnone hrecent
  · rw [hnone]
  · exact absurd rfl hrecent.1
  · exact List.length_map _

theorem Hot.updates (h : Hot k t st tx) :
    (Correlation.observe lib limits {} t hitEnd 0).2.updates.length = tx.events.length := by
  obtain ⟨hclean, hfound⟩ := @Hot.found lib limits _ _ _ _ hitEnd h rfl rfl rfl
  have hrow := (tally_kept st hitEnd).transactions.trans h.transactions
  have hclosed : observed lib limits {} t hitEnd 0 =
      settle lib limits (tally st hitEnd).1 none hitEnd := by
    rw [observed, hfound]
    rfl
  have hout : (settle lib limits (tally st hitEnd).1 none hitEnd).2 =
      (closeTransaction lib limits (tally st hitEnd).1 tx).2 := by
    rw [settle, if_pos (by decide), hrow]
    exact List.append_nil _
  rw [observe_updates, hfound, hclosed, hout, show ({} : Orders).cleanup = .listed from rfl, hclean,
    List.nil_append, List.nil_append, length_closeTransaction]

/-- **The copies have no bound**, whatever the options are: some run has more, and the packet that
    ends its connection makes as many revisions. -/
theorem event_copies_never_bounded (lib : Lib) (opts : Options) (bound : Nat) :
    ∃ t, Reachable (· = {}) (Call lib opts.limits) t ∧ bound < copyCount (pool t.sessions) ∧
      bound < (observe lib opts.limits {} t hitEnd 0).2.updates.length := by
  obtain ⟨st, tx, h⟩ := @hot_hits lib opts.limits (bound + 1)
  refine ⟨_, hits_run (bound + 1), ?_, ?_⟩
  · rw [h.copyCount]
    exact h.le_length
  · rw [h.updates]
    exact h.le_length

/-- No function of the options bounds the copies. -/
theorem event_copies_unbounded : ¬∃ bound : Options → Nat, ∀ (opts : Options) (t : Tracker),
    Reachable (· = {}) (Call sampleLib opts.limits) t →
      copyCount (pool t.sessions) ≤ bound opts := by
  rintro ⟨bound, hbound⟩
  obtain ⟨st, tx, h⟩ := @hot_hits sampleLib ({} : Options).limits (bound {} + 1)
  have hle := hbound {} _ (hits_run (bound {} + 1))
  rw [h.copyCount] at hle
  exact absurd (h.le_length.trans hle) (Nat.not_succ_le_self _)

end TaNode.Correlation

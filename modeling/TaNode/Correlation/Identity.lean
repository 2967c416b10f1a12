import Mathlib.Data.List.Nodup
import TaNode.Correlation.Moves

/-! Names: what an observation points at.

    A session is named by its key and its first time, a transaction by its session and its number,
    both through a digest. If no two texts have the same digest, names are unique in the tracker, and
    the session and the transaction that an observation names are those its packet went to:

        session      "ses-" digest (key | time)          one session a key
        transaction  "txn-" digest (session | number)    numbers go up

    Within a call a session is only changed in place, loses transactions or gets the next one
    (`Follows`); what an observation says of its transaction is kept by each of these. -/

namespace TaNode.Correlation

/-- No two texts have the same digest. -/
def Lib.CollisionFree (lib : Lib) : Prop := ∀ a b, lib.digest a = lib.digest b → a = b

/-! ### Ids -/

theorem stableID_inj {lib : Lib} (hfree : lib.CollisionFree) {label a b : String} {m n : Nat}
    (h : stableID lib label a (toString m) = stableID lib label b (toString n)) :
    a = b ∧ m = n := by
  have hdigest : lib.digest (a ++ "|" ++ toString m) = lib.digest (b ++ "|" ++ toString n) := by
    have := congrArg String.toList h
    simp only [stableID, String.toList_append] at this
    exact String.toList_inj.mp (List.append_cancel_left this)
  have hjoin := congrArg String.toList (hfree _ _ hdigest)
  simp only [String.toList_append, List.append_assoc] at hjoin
  obtain ⟨hfirst, hsecond⟩ := split_at_mark (notMem_toString (by decide) m)
      (notMem_toString (by decide) n) hjoin
  exact ⟨String.toList_inj.mp hfirst, toString_inj hsecond⟩

/-- The id of a session's transaction number `k`. -/
def txnID (lib : Lib) (session : String) (k : Nat) : String :=
  stableID lib "txn" session (toString k)

/-! ### Named sessions -/

/-- A session with the ids it got when it and its transactions were made. -/
structure Named (lib : Lib) (st : SessionState) : Prop where
  session : ∃ usec : Nat, st.id = stableID lib "ses" st.key (toString usec)
  numbered : ∀ tx ∈ st.transactions, ∃ k ≤ st.nextTxn, tx.id = txnID lib st.id k
  distinct : (st.transactions.map (·.id)).Nodup

theorem newSession_named (lib : Lib) (pf : PacketFeature) : Named lib (newSession lib pf) :=
  ⟨⟨_, rfl⟩, fun _ htx => (List.not_mem_nil htx).elim, List.nodup_nil⟩

/-- Sessions of different keys have different ids. -/
theorem eq_of_id {lib : Lib} (hfree : lib.CollisionFree) {sessions : List SessionState}
    (hkeyed : Keyed sessions) (hnamed : ∀ st ∈ sessions, Named lib st) {st st' : SessionState}
    (h : st ∈ sessions) (h' : st' ∈ sessions) (hid : st.id = st'.id) : st = st' := by
  obtain ⟨_, hst⟩ := (hnamed st h).session
  obtain ⟨_, hst'⟩ := (hnamed st' h').session
  rw [hst, hst'] at hid
  exact List.inj_on_of_nodup_map hkeyed h h' (stableID_inj hfree hid).1

/-! ### What a call does to a session -/

/-- A session later in a run: its transactions are changed in place, some are gone, and new ones have
    the next numbers. -/
inductive Follows (lib : Lib) : SessionState → SessionState → Prop where
  | change {st st' : SessionState} (key : st'.key = st.key) (id : st'.id = st.id)
      (nextTxn : st'.nextTxn = st.nextTxn)
      (each : List.Forall₂ (fun a b => b.id = a.id ∧ (a.final = true → b.final = true))
        st.transactions st'.transactions) : Follows lib st st'
  | erase {st st' : SessionState} (key : st'.key = st.key) (id : st'.id = st.id)
      (nextTxn : st'.nextTxn = st.nextTxn)
      (sub : st'.transactions.Sublist st.transactions) : Follows lib st st'
  | opened {st st' : SessionState} (key : st'.key = st.key) (id : st'.id = st.id)
      (nextTxn : st'.nextTxn = st.nextTxn + 1) (tx : TransactionState)
      (txid : tx.id = txnID lib st.id (st.nextTxn + 1))
      (last : st'.transactions = st.transactions ++ [tx]) : Follows lib st st'
  | trans {st₁ st₂ st₃ : SessionState} : Follows lib st₁ st₂ → Follows lib st₂ st₃ →
      Follows lib st₁ st₃

variable {lib : Lib} {limits : Limits} {st st' : SessionState}

/-- The same session but for data that no name depends on. -/
theorem Follows.same (h : Kept st st') : Follows lib st st' :=
  .erase h.key h.id h.nextTxn (h.transactions ▸ List.Sublist.refl _)

theorem Follows.key_id (h : Follows lib st st') : st'.key = st.key ∧ st'.id = st.id := by
  induction h with
  | change key id | erase key id | opened key id => exact ⟨key, id⟩
  | trans _ _ ih₁ ih₂ => exact ⟨ih₂.1.trans ih₁.1, ih₂.2.trans ih₁.2⟩

theorem map_id_of_each {a b : List TransactionState}
    (each : List.Forall₂ (fun a b => b.id = a.id ∧ (a.final = true → b.final = true)) a b) :
    b.map (·.id) = a.map (·.id) := by
  induction each with
  | nil => rfl
  | cons hab _ ih => rw [List.map_cons, List.map_cons, hab.1, ih]

theorem Follows.named (hfree : lib.CollisionFree) (h : Follows lib st st') (hn : Named lib st) :
    Named lib st' := by
  induction h with
  | @change st st' key id nextTxn each =>
    have hids := map_id_of_each each
    refine ⟨by rw [key, id]; exact hn.session, fun tx htx => ?_, by rw [hids]; exact hn.distinct⟩
    obtain ⟨a, ha, haid⟩ := List.mem_map.mp (hids ▸ List.mem_map_of_mem htx)
    rw [nextTxn, id, ← haid]
    exact hn.numbered a ha
  | @erase st st' key id nextTxn sub =>
    refine ⟨by rw [key, id]; exact hn.session, fun tx htx => ?_, hn.distinct.sublist (sub.map _)⟩
    rw [nextTxn, id]
    exact hn.numbered tx (sub.subset htx)
  | @opened st st' key id nextTxn tx txid last =>
    refine ⟨by rw [key, id]; exact hn.session, fun tx' htx' => ?_, ?_⟩
    · rw [nextTxn, id]
      rw [last] at htx'
      rcases List.mem_append.mp htx' with hold | hnew
      · obtain ⟨k, hk, hid⟩ := hn.numbered tx' hold
        exact ⟨k, by omega, hid⟩
      · exact ⟨_, Nat.le_refl _, List.mem_singleton.mp hnew ▸ txid⟩
    · -- the new number is above all the old ones
      rw [last, List.map_append, List.map_singleton]
      refine List.nodup_append.mpr ⟨hn.distinct, List.nodup_singleton _, ?_⟩
      intro x hx y hy hxy
      obtain ⟨a, ha, rfl⟩ := List.mem_map.mp hx
      obtain ⟨k, hk, hid⟩ := hn.numbered a ha
      rw [List.mem_singleton.mp hy, hid, txid] at hxy
      have := (stableID_inj hfree hxy).2
      omega
  | trans _ _ ih₁ ih₂ => exact ih₂ (ih₁ hn)

/-- What a session still says of an observation: if the context was final, the transaction number has
    been used, and the transaction is final if it is still there. -/
def Backs (lib : Lib) (obs : Observation) (st : SessionState) : Prop :=
  obs.contextFinal = true →
    (∃ k ≤ st.nextTxn, obs.transactionID = txnID lib st.id k) ∧
      ∀ tx ∈ st.transactions, tx.id = obs.transactionID → tx.final = true

theorem Follows.backs (hfree : lib.CollisionFree) {obs : Observation} (h : Follows lib st st')
    (hb : Backs lib obs st) : Backs lib obs st' := by
  induction h with
  | @change st st' key id nextTxn each =>
    intro hfinal
    obtain ⟨hused, htxs⟩ := hb hfinal
    refine ⟨by rw [nextTxn, id]; exact hused, fun tx htx htxid => ?_⟩
    obtain ⟨i, hi, rfl⟩ := List.mem_iff_getElem.mp htx
    have hlen := each.length_eq
    have hab := List.forall₂_iff_get.mp each |>.2 i (by omega) hi
    exact hab.2 (htxs _ (List.get_mem _ _) (hab.1 ▸ htxid))
  | @erase st st' key id nextTxn sub =>
    intro hfinal
    obtain ⟨hused, htxs⟩ := hb hfinal
    exact ⟨by rw [nextTxn, id]; exact hused, fun tx htx => htxs tx (sub.subset htx)⟩
  | @opened st st' key id nextTxn tx txid last =>
    intro hfinal
    obtain ⟨⟨k, hk, hused⟩, htxs⟩ := hb hfinal
    refine ⟨⟨k, by omega, by rw [id]; exact hused⟩, fun tx' htx' htxid => ?_⟩
    rw [last] at htx'
    rcases List.mem_append.mp htx' with hold | hnew
    · exact htxs tx' hold htxid
    · rw [List.mem_singleton.mp hnew, txid, hused] at htxid
      have := (stableID_inj hfree htxid).2
      omega
  | trans _ _ ih₁ ih₂ => exact ih₂ (ih₁ hb)

/-! ### The parts of `Observe` -/

theorem expireTransaction_each (now : UInt64) (tx : TransactionState) :
    (expireTransaction lib limits now st tx).1.id = tx.id ∧
      (tx.final = true → (expireTransaction lib limits now st tx).1.final = true) := by
  rw [expireTransaction]
  split
  · exact ⟨reviseTransaction_id, fun _ => closeTransaction_final⟩
  · exact ⟨rfl, fun h => h⟩

theorem sweep_follows {now : UInt64} (h : (sweep lib limits now st).1 = some st') :
    Follows lib st st' := by
  simp only [sweep] at h
  split at h
  · simp at h
  · rw [← Option.some.inj h]
    refine .change rfl rfl rfl ?_
    rw [List.map_map]
    exact List.forall₂_map_right_iff.mpr (List.forall₂_same.mpr fun tx _ =>
      expireTransaction_each now tx)

theorem cleanupLocked_follows {order : Order} {t : Tracker} {now : UInt64}
    (h : st' ∈ (cleanupLocked lib limits order t now).1.sessions) :
    ∃ st ∈ t.sessions, Follows lib st st' := by
  obtain ⟨st, hst, rfl | hswept⟩ := cleanupLocked_mem h
  · exact ⟨_, hst, .same ⟨rfl, rfl, rfl, rfl⟩⟩
  · exact ⟨st, hst, sweep_follows hswept⟩

/-- Whether an `Observe` makes a new session for its packet. -/
def creates (lib : Lib) (limits : Limits) (orders : Orders) (t : Tracker) (pf : PacketFeature) :
    Bool :=
  Opens pf || ((cleanupLocked lib limits orders.cleanup t pf.packetTimeUsec).1.sessions.find?
    (·.key = (canonicalKey pf).1)).isNone

theorem found_origin (orders : Orders) (t : Tracker) (pf : PacketFeature) :
    creates lib limits orders t pf = true ∧ (found lib limits orders t pf).1 = newSession lib pf ∨
      creates lib limits orders t pf = false ∧ (found lib limits orders t pf).1 ∈
        (cleanupLocked lib limits orders.cleanup t pf.packetTimeUsec).1.sessions := by
  rw [creates, found, locate]
  split
  · rename_i hfind
    split
    · rename_i hopens
      exact Or.inl ⟨by rw [hopens, Bool.true_or], rfl⟩
    · rename_i hopens
      exact Or.inr ⟨by rw [hfind, Option.isNone_some, Bool.or_false, eq_false_of_ne_true hopens],
        List.mem_of_find?_eq_some hfind⟩
  · rename_i hfind
    exact Or.inl ⟨by rw [hfind, Option.isNone_none, Bool.or_true], rfl⟩

theorem found_key (orders : Orders) (t : Tracker) (pf : PacketFeature) :
    (found lib limits orders t pf).1.key = (canonicalKey pf).1 := by
  rw [found, locate]
  split
  · rename_i hfind
    split
    · rfl
    · simpa using List.find?_some hfind
  · rfl

theorem newTransaction_follows (usec : UInt64) :
    Follows lib st (newTransaction lib limits st usec).1 := by
  have herase : Follows lib st { st with transactions := makeSlot limits st.transactions } :=
    .erase rfl rfl rfl (makeSlot_sublist _)
  exact herase.trans (.opened rfl rfl rfl (nextTransaction lib st usec) rfl rfl)

theorem modify_follows (i : Nat) {f : TransactionState → TransactionState}
    (h : ∀ tx, (f tx).id = tx.id ∧ (tx.final = true → (f tx).final = true)) :
    Follows lib st (st.modify i f) :=
  .change rfl rfl rfl (forall₂_modify (fun _ => ⟨rfl, fun h => h⟩) fun tx _ => h tx)

theorem attach_follows (pf : PacketFeature) (n : UInt64) :
    Follows lib st (attach lib limits st pf n).1 := by
  refine attach_rule ?_ ?_ ?_ ?_ (.same ⟨rfl, rfl, rfl, rfl⟩)
  · exact fun _ _ _ h => h.trans (.same ⟨rfl, rfl, rfl, rfl⟩)
  · exact fun _ _ h => h.trans (newTransaction_follows _)
  · exact fun _ i h => h.trans (modify_follows i fun _ => ⟨rfl, fun h => h⟩)
  · exact fun _ i h =>
      h.trans (modify_follows i fun tx => ⟨rfl, (appendResponse_touched pf n tx).final⟩)

theorem settle_follows {chosen : Option Nat} (pf : PacketFeature) :
    Follows lib st (settle lib limits st chosen pf).1 := by
  rcases @settle_cases lib limits st chosen pf with ⟨-, heq⟩ | ⟨-, heq | ⟨i, tx, -, htx, heq⟩⟩ <;>
    rw [heq]
  · exact .change rfl rfl rfl (List.forall₂_map_right_iff.mpr (List.forall₂_same.mpr fun tx _ =>
      ⟨reviseTransaction_id, fun _ => closeTransaction_final⟩))
  · exact .same ⟨rfl, rfl, rfl, rfl⟩
  · refine .change rfl rfl rfl (forall₂_modify (fun _ => ⟨rfl, fun h => h⟩) fun tx' htx' => ?_)
    obtain rfl := Option.some.inj (htx.symm.trans htx')
    exact ⟨reviseTransaction_id, fun h => reviseTransaction_final.trans h⟩

/-! ### The calls -/

theorem observed_follows (orders : Orders) (t : Tracker) (pf : PacketFeature) (n : UInt64) :
    Follows lib (found lib limits orders t pf).1 (observed lib limits orders t pf n).1 :=
  (Follows.same (tally_kept _ pf)).trans ((attach_follows pf n).trans (settle_follows pf))

/-- A session after `Observe` follows one from before, or is made for the packet. -/
theorem observe_follows (orders : Orders) {t : Tracker} (hkeyed : Keyed t.sessions)
    (pf : PacketFeature) (n : UInt64)
    (h : st' ∈ (observe lib limits orders t pf n).1.sessions) :
    (∃ st ∈ t.sessions, Follows lib st st') ∨
      creates lib limits orders t pf = true ∧ Follows lib (newSession lib pf) st' ∧
        st'.id = (observe lib limits orders t pf n).2.sessionID := by
  rw [observe_sessions] at h
  rcases List.mem_cons.mp h with rfl | hother
  · have hfollows := @observed_follows lib limits orders t pf n
    rcases @found_origin lib limits orders t pf with ⟨hcreates, hnew⟩ | ⟨_, hold⟩
    · exact Or.inr ⟨hcreates, hnew ▸ hfollows, rfl⟩
    · obtain ⟨st, hst, hclean⟩ := cleanupLocked_follows hold
      exact Or.inl ⟨st, hst, hclean.trans hfollows⟩
  · have hsub := (@found_spec lib limits _ orders hkeyed pf).others
    exact Or.inl (cleanupLocked_follows (hsub.subset hother))

theorem observe_named (hfree : lib.CollisionFree) (orders : Orders) {t : Tracker}
    (hkeyed : Keyed t.sessions) (hnamed : ∀ st ∈ t.sessions, Named lib st) (pf : PacketFeature)
    (n : UInt64) : ∀ st ∈ (observe lib limits orders t pf n).1.sessions, Named lib st := by
  intro st hst
  rcases observe_follows orders hkeyed pf n hst with ⟨st₀, hst₀, hfollows⟩ | ⟨_, hfollows, _⟩
  · exact hfollows.named hfree (hnamed st₀ hst₀)
  · exact hfollows.named hfree (newSession_named lib pf)

/-- What the tracker says of an observation it has just made: the transaction with the id is the one
    the observation describes. -/
def Shows (t : Tracker) (obs : Observation) : Prop :=
  ∀ st ∈ t.sessions, st.id = obs.sessionID → ∀ tx ∈ st.transactions, tx.id = obs.transactionID →
    tx.final = obs.contextFinal

theorem txnID_ne_empty (lib : Lib) (session : String) (k : Nat) : txnID lib session k ≠ "" := by
  intro h
  have := congrArg String.toList h
  simp [txnID, stableID] at this

/-- The transaction of an observation, in the session after the packet. -/
def chosen (lib : Lib) (limits : Limits) (orders : Orders) (t : Tracker) (pf : PacketFeature)
    (n : UInt64) : Option TransactionState :=
  (attach lib limits (tally (found lib limits orders t pf).1 pf).1 pf n).2.bind
    ((observed lib limits orders t pf n).1.transactions[·]?)

theorem observe_names (orders : Orders) (t : Tracker) (pf : PacketFeature) (n : UInt64) :
    (observe lib limits orders t pf n).2.sessionID = (observed lib limits orders t pf n).1.id ∧
      (observe lib limits orders t pf n).2.transactionID =
        ((chosen lib limits orders t pf n).map (·.id)).getD "" ∧
      (observe lib limits orders t pf n).2.contextFinal =
        ((chosen lib limits orders t pf n).map (·.final)).getD false := ⟨rfl, rfl, rfl⟩

theorem chosen_mem {orders : Orders} {t : Tracker} {pf : PacketFeature} {n : UInt64}
    {tx : TransactionState} (h : chosen lib limits orders t pf n = some tx) :
    tx ∈ (observed lib limits orders t pf n).1.transactions := by
  obtain ⟨i, _, hi⟩ := Option.bind_eq_some_iff.mp h
  exact List.mem_of_getElem? hi

section
variable (hfree : lib.CollisionFree) (orders : Orders) {t : Tracker} (hkeyed : Keyed t.sessions)
  (hnamed : ∀ st ∈ t.sessions, Named lib st) (pf : PacketFeature) (n : UInt64)
include hfree hkeyed hnamed

/-- The session an observation names is the packet's. -/
theorem observe_session (hst : st ∈ (observe lib limits orders t pf n).1.sessions)
    (hid : st.id = (observe lib limits orders t pf n).2.sessionID) :
    st = (observed lib limits orders t pf n).1 := by
  refine eq_of_id hfree (observe_keyed orders hkeyed pf n)
    (observe_named hfree orders hkeyed hnamed pf n) hst ?_ hid
  rw [observe_sessions]
  exact List.mem_cons_self

theorem observe_shows :
    Shows (observe lib limits orders t pf n).1 (observe lib limits orders t pf n).2 := by
  intro st hst hid tx htx htxid
  have hname := observe_named hfree orders hkeyed hnamed pf n st hst
  obtain ⟨k, _, hk⟩ := hname.numbered tx htx
  obtain rfl := observe_session hfree orders hkeyed hnamed pf n hst hid
  obtain ⟨_, htxn, hfinal⟩ := @observe_names lib limits orders t pf n
  rw [htxn] at htxid
  rw [hfinal]
  cases hc : chosen lib limits orders t pf n with
  | none =>
    rw [hc] at htxid
    exact absurd (hk.symm.trans htxid) (txnID_ne_empty _ _ _)
  | some tx' =>
    rw [hc] at htxid
    rw [List.inj_on_of_nodup_map hname.distinct htx (chosen_mem hc) htxid]
    rfl

theorem observe_backs : ∀ st ∈ (observe lib limits orders t pf n).1.sessions,
    st.id = (observe lib limits orders t pf n).2.sessionID →
      Backs lib (observe lib limits orders t pf n).2 st := by
  intro st hst hid hfinal
  have hname := observe_named hfree orders hkeyed hnamed pf n st hst
  refine ⟨?_, fun tx htx htxid => ?_⟩
  · obtain rfl := observe_session hfree orders hkeyed hnamed pf n hst hid
    obtain ⟨_, htxn, hfin⟩ := @observe_names lib limits orders t pf n
    rw [hfin] at hfinal
    rw [htxn]
    cases hc : chosen lib limits orders t pf n with
    | none => simp [hc] at hfinal
    | some tx => exact hname.numbered tx (chosen_mem hc)
  · rw [observe_shows hfree orders hkeyed hnamed pf n st hst hid tx htx htxid, hfinal]

end

theorem Registers.follows {t t' : Tracker} {obs : Observation} {ev : ThreatEvent}
    (h : Registers t obs ev t') (hst' : st' ∈ t'.sessions) :
    ∃ st ∈ t.sessions, Follows lib st st' := by
  obtain ⟨st, hst, rfl | rfl | ⟨i, rfl⟩⟩ := h.origin hst'
  · exact ⟨_, hst, .same ⟨rfl, rfl, rfl, rfl⟩⟩
  · exact ⟨st, hst, .same ⟨rfl, rfl, rfl, rfl⟩⟩
  · have hhit : Follows lib st { st with hitCount := st.hitCount + 1 } := .same ⟨rfl, rfl, rfl, rfl⟩
    exact ⟨st, hst, hhit.trans (modify_follows i fun tx => ⟨rfl, fun h => h⟩)⟩

end TaNode.Correlation

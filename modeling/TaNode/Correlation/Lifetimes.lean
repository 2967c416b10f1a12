import TaNode.Correlation.History

/-! The lifetimes of sessions.

    A session lives from the packet that makes its state until a new connection, a timeout or the
    session limit removes it; a later packet of the same key starts the next lifetime. A diary is a
    run of the tracker with every packet it met, each beside the lifetime it fell into, which is the
    number of the packet that made the session:

        packets    0     1     2     3     4     5
        key a     SYN   data        data  SYN   data
        lifetime   0     0           0     4     4

    What holds between a session and the packets of its lifetime, whatever a call does to the
    session, holds in every run (`SessionRule.run`). -/

namespace TaNode.Correlation

/-! ### Diaries -/

/-- A packet the tracker has met: its session by key and lifetime, and the answer of `Observe`. -/
structure Met where
  key : String
  life : Nat
  packet : PacketFeature
  obs : Observation

structure Diary where
  tracker : Tracker := {}
  /-- the lifetime of the session that has a key now -/
  born : String → Nat := fun _ => 0
  met : List Met := []

/-- The packets of one lifetime, in order. -/
def Diary.lifetime (tr : Diary) (key : String) (life : Nat) : List Met :=
  tr.met.filter fun m => m.key = key ∧ m.life = life

/-- The lifetime a packet falls into. -/
def Diary.lifeOf (lib : Lib) (limits : Limits) (orders : Orders) (tr : Diary) (pf : PacketFeature) :
    Nat :=
  if creates lib limits orders tr.tracker pf then tr.met.length else tr.born (canonicalKey pf).1

def Diary.observe (lib : Lib) (limits : Limits) (orders : Orders) (tr : Diary) (pf : PacketFeature)
    (n : UInt64) : Diary :=
  let done := Correlation.observe lib limits orders tr.tracker pf n
  let key := (canonicalKey pf).1
  let life := tr.lifeOf lib limits orders pf
  { tracker := done.1
    born := fun k => if k = key then life else tr.born k
    met := tr.met ++ [⟨key, life, pf, done.2⟩] }

def Diary.register (order : Order) (tr : Diary) (obs : Observation) (ev : ThreatEvent) : Diary :=
  { tr with tracker := (Correlation.register order tr.tracker obs ev).1 }

def Diary.flush (lib : Lib) (limits : Limits) (order : Order) (tr : Diary) : Diary :=
  { tr with tracker := (Correlation.flush lib limits order tr.tracker).1 }

/-- A condition on an `Observe`, with the tracker as it is before the call. -/
abbrev Condition := Orders → Tracker → PacketFeature → UInt64 → Prop

/-- One call, where the packets meet a condition. -/
inductive DiaryStep (lib : Lib) (limits : Limits) (meets : Condition) : Diary → Diary → Prop where
  | observe {tr : Diary} (orders : Orders) (pf : PacketFeature) (n : UInt64)
      (met : meets orders tr.tracker pf n) : DiaryStep lib limits meets tr (tr.observe lib limits orders pf n)
  | register {tr : Diary} (order : Order) (obs : Observation) (ev : ThreatEvent) :
      DiaryStep lib limits meets tr (tr.register order obs ev)
  | flush {tr : Diary} (order : Order) : DiaryStep lib limits meets tr (tr.flush lib limits order)

/-- The diaries of a tracker that starts empty. -/
abbrev DiaryRun (lib : Lib) (limits : Limits) (meets : Condition) : Diary → Prop :=
  Reachable (· = {}) (DiaryStep lib limits meets)

/-! ### The rule -/

/-- What each call must keep between a session and the packets of its lifetime. -/
structure SessionRule (lib : Lib) (limits : Limits) (meets : Condition)
    (holds : SessionState → List Met → Prop) : Prop where
  fresh : ∀ pf, holds (newSession lib pf) []
  swept : ∀ {now : UInt64} {st st' : SessionState} {ms : List Met},
    (sweep lib limits now st).1 = some st' → holds st ms → holds st' ms
  hit : ∀ {st : SessionState} {ms : List Met}, holds st ms →
    holds { st with hitCount := st.hitCount + 1 } ms
  put : ∀ {st : SessionState} {ms : List Met} {i : Nat} {tx : TransactionState} (ev : ThreatEvent),
    st.transactions[i]? = some tx → ev.transactionID = tx.id → holds st ms →
    holds (putOn st i ev) ms
  packet : ∀ {t : Tracker} (orders : Orders) {pf : PacketFeature} (n : UInt64) {ms : List Met}
    (life : Nat), meets orders t pf n → holds (found lib limits orders t pf).1 ms →
    holds (observed lib limits orders t pf n).1
      (ms ++ [⟨(canonicalKey pf).1, life, pf, (Correlation.observe lib limits orders t pf n).2⟩])

/-- A rule for sessions, carried along a diary: it holds of every session and the packets of its
    lifetime, and what follows from it for the packets holds of every lifetime, ended or not. -/
structure Diary.Obeys (holds : SessionState → List Met → Prop) (shows : List Met → Prop)
    (tr : Diary) : Prop where
  keyed : Keyed tr.tracker.sessions
  dated : ∀ m ∈ tr.met, m.life < tr.met.length
  born : ∀ st ∈ tr.tracker.sessions, tr.born st.key < tr.met.length
  live : ∀ st ∈ tr.tracker.sessions, holds st (tr.lifetime st.key (tr.born st.key))
  shown : ∀ key life, shows (tr.lifetime key life)

section
variable {lib : Lib} {limits : Limits} {meets : Condition}
  {holds : SessionState → List Met → Prop} {shows : List Met → Prop} {tr tr' : Diary}
  {orders : Orders} {pf : PacketFeature}

theorem observed_key (n : UInt64) (t : Tracker) :
    (observed lib limits orders t pf n).1.key = (canonicalKey pf).1 :=
  (observed_follows orders t pf n).key_id.1.trans (found_key orders t pf)

theorem observe_sessions_diary (n : UInt64) : (tr.observe lib limits orders pf n).tracker.sessions =
      (observed lib limits orders tr.tracker pf n).1 ::
        (found lib limits orders tr.tracker pf).2.1 := rfl

theorem born_observe (n : UInt64) (key : String) : (tr.observe lib limits orders pf n).born key =
      if key = (canonicalKey pf).1 then tr.lifeOf lib limits orders pf else tr.born key := rfl

theorem lifetime_observe_self (n : UInt64) :
    (tr.observe lib limits orders pf n).lifetime (canonicalKey pf).1
        (tr.lifeOf lib limits orders pf) =
      tr.lifetime (canonicalKey pf).1 (tr.lifeOf lib limits orders pf) ++
        [⟨(canonicalKey pf).1, tr.lifeOf lib limits orders pf, pf,
          (Correlation.observe lib limits orders tr.tracker pf n).2⟩] := by
  simp [Diary.lifetime, Diary.observe, List.filter_append]

theorem lifetime_observe_other (n : UInt64) {key : String} {life : Nat}
    (h : ¬ (key = (canonicalKey pf).1 ∧ life = tr.lifeOf lib limits orders pf)) :
    (tr.observe lib limits orders pf n).lifetime key life = tr.lifetime key life := by
  have hnot : ¬ ((canonicalKey pf).1 = key ∧ tr.lifeOf lib limits orders pf = life) :=
    fun hc => h ⟨hc.1.symm, hc.2.symm⟩
  simp [Diary.lifetime, Diary.observe, List.filter_append, hnot]

namespace Diary.Obeys

/-- What holds of a session before a call holds of it after the cleanup. -/
theorem cleaned (h : tr.Obeys holds shows) (rule : SessionRule lib limits meets holds)
    {order : Order} {now : UInt64} {st : SessionState}
    (hst : st ∈ (cleanupLocked lib limits order tr.tracker now).1.sessions) :
    tr.born st.key < tr.met.length ∧ holds st (tr.lifetime st.key (tr.born st.key)) := by
  obtain ⟨st₀, hst₀, rfl | hswept⟩ := cleanupLocked_mem hst
  · exact ⟨h.born st hst₀, h.live st hst₀⟩
  · have hkey := (sweep_follows hswept).key_id.1
    rw [hkey]
    exact ⟨h.born st₀ hst₀, rule.swept hswept (h.live st₀ hst₀)⟩

/-- The session of a packet has a lifetime that has begun, and the rule holds of it. -/
theorem found (h : tr.Obeys holds shows) (rule : SessionRule lib limits meets holds) :
    tr.lifeOf lib limits orders pf ≤ tr.met.length ∧ holds (found lib limits orders tr.tracker pf).1
        (tr.lifetime (canonicalKey pf).1 (tr.lifeOf lib limits orders pf)) := by
  rw [Diary.lifeOf]
  rcases @found_origin lib limits orders tr.tracker pf with ⟨hnew, hst⟩ | ⟨hold, hst⟩
  · -- no packet so far has the new lifetime
    have hnone : tr.lifetime (canonicalKey pf).1 tr.met.length = [] :=
      List.filter_eq_nil_iff.mpr fun m hm hlife => by
        have := h.dated m hm
        have := (of_decide_eq_true hlife).2
        omega
    rw [if_pos hnew, hst, hnone]
    exact ⟨Nat.le_refl _, rule.fresh pf⟩
  · obtain ⟨hborn, hholds⟩ := h.cleaned rule hst
    rw [found_key] at hborn hholds
    rw [hold]
    exact ⟨Nat.le_of_lt hborn, hholds⟩

theorem observe (h : tr.Obeys holds shows) (rule : SessionRule lib limits meets holds)
    (hshows : ∀ st ms, holds st ms → shows ms) (n : UInt64) (hmeets : meets orders tr.tracker pf n) :
    (tr.observe lib limits orders pf n).Obeys holds shows := by
  obtain ⟨hlife, hfound⟩ := @Obeys.found lib limits meets holds shows tr orders pf h rule
  have hpacket := rule.packet orders n (tr.lifeOf lib limits orders pf) hmeets hfound
  have hlength : (tr.observe lib limits orders pf n).met.length = tr.met.length + 1 :=
    List.length_append
  have hspec := @found_spec lib limits _ orders h.keyed pf
  have hother : ∀ st ∈ (Correlation.found lib limits orders tr.tracker pf).2.1,
      st.key ≠ (canonicalKey pf).1 ∧ tr.born st.key < tr.met.length ∧
        holds st (tr.lifetime st.key (tr.born st.key)) := by
    intro st hst
    refine ⟨fun heq => ?_, h.cleaned rule (hspec.others.subset hst)⟩
    have hnodup := List.nodup_cons.mp hspec.keyed
    exact hnodup.1 (List.mem_map.mpr ⟨st, hst, heq.trans (found_key orders _ pf).symm⟩)
  refine ⟨observe_keyed orders h.keyed pf n, ?_, ?_, ?_, ?_⟩
  · intro m hm
    rw [hlength]
    rcases List.mem_append.mp hm with hold | hnew
    · exact Nat.lt_succ_of_lt (h.dated m hold)
    · rw [List.mem_singleton.mp hnew]
      exact Nat.lt_succ_of_le hlife
  · intro st hst
    rw [observe_sessions_diary] at hst
    rw [hlength, born_observe]
    rcases List.mem_cons.mp hst with rfl | hst
    · rw [if_pos (observed_key n _)]
      exact Nat.lt_succ_of_le hlife
    · obtain ⟨hne, hborn, -⟩ := hother st hst
      rw [if_neg hne]
      exact Nat.lt_succ_of_lt hborn
  · intro st hst
    rw [observe_sessions_diary] at hst
    rw [born_observe]
    rcases List.mem_cons.mp hst with rfl | hst
    · rw [observed_key, if_pos rfl, lifetime_observe_self]
      exact hpacket
    · obtain ⟨hne, -, hholds⟩ := hother st hst
      rw [if_neg hne, lifetime_observe_other n fun hc => hne hc.1]
      exact hholds
  · intro key life
    by_cases hself : key = (canonicalKey pf).1 ∧ life = tr.lifeOf lib limits orders pf
    · rw [hself.1, hself.2, lifetime_observe_self]
      exact hshows _ _ hpacket
    · rw [lifetime_observe_other n hself]
      exact h.shown key life

/-- A registration changes one session in place. -/
theorem register (h : tr.Obeys holds shows) (rule : SessionRule lib limits meets holds)
    (order : Order) (obs : Observation) (ev : ThreatEvent) :
    (tr.register order obs ev).Obeys holds shows := by
  have hspec := register_spec order tr.tracker obs ev
  have heach : ∀ st ∈ (Correlation.register order tr.tracker obs ev).1.sessions,
      tr.born st.key < tr.met.length ∧ holds st (tr.lifetime st.key (tr.born st.key)) := by
    have hkept : ∀ {st : SessionState} {key : String},
        st ∈ tr.tracker.sessions.filter (·.key ≠ key) →
        tr.born st.key < tr.met.length ∧ holds st (tr.lifetime st.key (tr.born st.key)) :=
      fun hst => ⟨h.born _ (List.mem_filter.mp hst).1, h.live _ (List.mem_filter.mp hst).1⟩
    intro st' hst'
    cases hspec with
    | nothing _ same =>
      rw [same] at hst'
      exact ⟨h.born st' hst', h.live st' hst'⟩
    | hit st here _ _ changed =>
      rw [changed] at hst'
      rcases List.mem_cons.mp hst' with rfl | hst'
      · exact ⟨h.born st here, rule.hit (h.live st here)⟩
      · exact hkept hst'
    | stored st here _ i tx htx txid _ changed =>
      have hev : (Correlation.register order tr.tracker obs ev).2.transactionID = tx.id :=
        (register_event order tr.tracker obs ev).2.2.1.trans txid.symm
      rw [changed] at hst'
      rcases List.mem_cons.mp hst' with rfl | hst'
      · exact ⟨h.born st here, rule.put _ htx hev (h.live st here)⟩
      · exact hkept hst'
  exact ⟨hspec.keyed h.keyed, h.dated, fun st hst => (heach st hst).1,
    fun st hst => (heach st hst).2, h.shown⟩

end Diary.Obeys

/-- The induction over a diary: what every call keeps of each session holds in every run. -/
theorem SessionRule.run (rule : SessionRule lib limits meets holds)
    (hshows : ∀ st ms, holds st ms → shows ms) (hnil : shows [])
    (hrun : DiaryRun lib limits meets tr) : tr.Obeys holds shows := by
  refine Reachable.invariant (fun s hs => ?_) (fun s s' hs hstep => ?_) hrun
  · subst hs
    exact ⟨List.nodup_nil, fun _ hm => (List.not_mem_nil hm).elim,
      fun _ hst => (List.not_mem_nil hst).elim, fun _ hst => (List.not_mem_nil hst).elim,
      fun _ _ => hnil⟩
  · cases hstep with
    | observe orders pf n hmeets => exact hs.observe rule hshows n hmeets
    | register order obs ev => exact hs.register rule order obs ev
    | flush order =>
      exact ⟨List.nodup_nil, hs.dated, fun _ hst => (List.not_mem_nil hst).elim,
        fun _ hst => (List.not_mem_nil hst).elim, hs.shown⟩

end

end TaNode.Correlation

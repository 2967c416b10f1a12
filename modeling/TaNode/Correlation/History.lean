import TaNode.Correlation.Identity
import TaNode.Schemes.Runs

/-! Runs of a tracker: calls in any order, with everything they put out.

    A history is the tracker, the observations it has made and the revisions it has emitted. Rules
    say which runs are meant: with which observations `Register` is called, whether an event id may
    come twice, and which transactions a call may close or evict.

        Observe ──▶ observations ──▶ Register
           │                            │
           └────────▶ emitted ◀─────────┘ ◀──── Flush -/

namespace TaNode.Correlation

/-- The observations that `Register` is called with: any one made before, one whose session no later
    packet has created again, or the one made last. -/
inductive Uses where
  | any | current | latest
  deriving DecidableEq, Repr

structure Rules where
  uses : Uses
  once : Bool
  policy : Policy

structure History where
  tracker : Tracker := {}
  observed : List Observation := []
  current : List Observation := []
  registered : List String := []
  waiting : List String := []
  emitted : List ThreatEvent := []

def History.usable (h : History) : Uses → List Observation
  | .any => h.observed
  | .current => h.current
  | .latest => h.observed.take 1

/-- The tracker still has the transaction of an observation. -/
def tracked (t : Tracker) (obs : Observation) : Bool :=
  t.sessions.any fun st => st.id = obs.sessionID ∧
    st.transactions.any (·.id = obs.transactionID)

/-- The event ids that wait for a final revision, after some revisions came out. -/
def stillWaiting (waiting : List String) (updates : List ThreatEvent) : List String :=
  waiting.filter fun e => !updates.any fun ev => ev.eventID = e ∧ ev.contextFinal

def afterObserve (lib : Lib) (limits : Limits) (orders : Orders) (h : History) (pf : PacketFeature)
    (n : UInt64) : History :=
  let done := observe lib limits orders h.tracker pf n
  { h with
    tracker := done.1
    observed := done.2 :: h.observed
    current := done.2 ::
      if creates lib limits orders h.tracker pf then
        h.current.filter (·.sessionID ≠ done.2.sessionID)
      else h.current
    waiting := stillWaiting h.waiting done.2.updates
    emitted := h.emitted ++ done.2.updates }

def afterRegister (order : Order) (h : History) (obs : Observation) (ev : ThreatEvent) : History :=
  let done := register order h.tracker obs ev
  let pending : Bool := done.2.contextFinal = false ∧ done.2.transactionID ≠ "" ∧
    tracked h.tracker obs
  { h with
    tracker := done.1
    registered := ev.eventID :: h.registered
    waiting := if pending then ev.eventID :: h.waiting else h.waiting
    emitted := h.emitted ++ [done.2] }

def afterFlush (lib : Lib) (limits : Limits) (order : Order) (h : History) : History :=
  let done := flush lib limits order h.tracker
  { h with
    tracker := done.1
    waiting := stillWaiting h.waiting done.2
    emitted := h.emitted ++ done.2 }

/-- One call, as the rules allow it. -/
inductive Step (lib : Lib) (limits : Limits) (rules : Rules) : History → History → Prop where
  | observe {h : History} (orders : Orders) (pf : PacketFeature) (n : UInt64)
      (closes : ∀ tx ∈ closedBy lib limits orders h.tracker pf, rules.policy.revises tx)
      (evicts : ∀ tx, evictedBy lib limits orders h.tracker pf = some tx → rules.policy.drops tx) :
      Step lib limits rules h (afterObserve lib limits orders h pf n)
  | register {h : History} (order : Order) (obs : Observation) (ev : ThreatEvent)
      (usable : obs ∈ h.usable rules.uses)
      (new : rules.once = true → ev.eventID ∉ h.registered) :
      Step lib limits rules h (afterRegister order h obs ev)
  | flush {h : History} (order : Order)
      (closes : ∀ tx ∈ pool h.tracker.sessions, rules.policy.revises tx) :
      Step lib limits rules h (afterFlush lib limits order h)

/-- The histories of a tracker that starts empty. -/
abbrev Run (lib : Lib) (limits : Limits) (rules : Rules) : History → Prop :=
  Reachable (· = {}) (Step lib limits rules)

section
variable {lib : Lib} {limits : Limits} {rules : Rules} {h h' : History}

/-! ### The session map of a run -/

theorem Step.keyed (hs : Step lib limits rules h h') (hk : Keyed h.tracker.sessions) :
    Keyed h'.tracker.sessions := by
  cases hs with
  | observe orders pf n _ _ => exact observe_keyed orders hk pf n
  | register order obs ev _ _ => exact (register_spec order h.tracker obs ev).keyed hk
  | flush order _ => exact List.nodup_nil

/-- What holds of every history under its rules when names are unique. -/
structure Coherent (lib : Lib) (h : History) : Prop where
  keyed : Keyed h.tracker.sessions
  named : ∀ st ∈ h.tracker.sessions, Named lib st
  backed : ∀ obs ∈ h.current, ∀ st ∈ h.tracker.sessions, st.id = obs.sessionID → Backs lib obs st
  latest : ∀ obs ∈ h.usable .latest, Shows h.tracker obs

theorem Registers.shows {t t' : Tracker} {obs obs' : Observation} {ev : ThreatEvent}
    (hr : Registers t obs ev t') (hshows : Shows t obs') : Shows t' obs' := by
  have hrest : ∀ {st : SessionState} {key : String}, st ∈ t.sessions.filter (·.key ≠ key) →
      st ∈ t.sessions := fun hmem => (List.mem_filter.mp hmem).1
  cases hr with
  | nothing _ same => exact same ▸ hshows
  | hit st here _ _ changed =>
    intro st' hst'
    rw [changed] at hst'
    rcases List.mem_cons.mp hst' with rfl | hother
    · exact hshows st here
    · exact hshows st' (hrest hother)
  | stored st here _ i _ _ _ _ changed =>
    intro st' hst'
    rw [changed] at hst'
    rcases List.mem_cons.mp hst' with rfl | hother
    · intro hid tx htx
      obtain ⟨k, hk, rfl⟩ := List.mem_iff_getElem.mp htx
      simp only [putOn, SessionState.modify, List.getElem_modify]
      simp only [putOn, SessionState.modify, List.length_modify] at hk
      split
      · exact hshows st here hid st.transactions[k] (List.getElem_mem hk)
      · exact hshows st here hid _ (List.getElem_mem hk)
    · exact hshows st' (hrest hother)

theorem Step.coherent (hfree : lib.CollisionFree) (hs : Step lib limits rules h h')
    (hc : Coherent lib h) : Coherent lib h' := by
  cases hs with
  | observe orders pf n _ _ =>
    refine ⟨observe_keyed orders hc.keyed pf n,
      observe_named hfree orders hc.keyed hc.named pf n, ?_, ?_⟩
    · intro obs hobs st' hst' hid
      rcases List.mem_cons.mp hobs with rfl | hold
      · exact observe_backs hfree orders hc.keyed hc.named pf n st' hst' hid
      · rcases observe_follows orders hc.keyed pf n hst' with ⟨st, hst, hf⟩ | ⟨hcreates, _, hnew⟩
        · have hcur : obs ∈ h.current := by
            split at hold
            · exact (List.mem_filter.mp hold).1
            · exact hold
          exact hf.backs hfree (hc.backed obs hcur st hst (hf.key_id.2.symm.trans hid))
        · -- the session was made for the packet, so older observations do not name it
          rw [if_pos hcreates] at hold
          have hne := (List.mem_filter.mp hold).2
          exact absurd (hid.symm.trans hnew) (by simpa using hne)
    · intro obs hobs
      obtain rfl := List.mem_singleton.mp hobs
      exact observe_shows hfree orders hc.keyed hc.named pf n
  | register order obs ev _ _ =>
    have hr := register_spec order h.tracker obs ev
    refine ⟨hr.keyed hc.keyed, fun st' hst' => ?_, fun obs' hobs' st' hst' hid => ?_,
      fun obs' hobs' => hr.shows (hc.latest obs' hobs')⟩
    · obtain ⟨st, hst, hf⟩ := @Registers.follows lib _ _ _ _ _ hr hst'
      exact hf.named hfree (hc.named st hst)
    · obtain ⟨st, hst, hf⟩ := @Registers.follows lib _ _ _ _ _ hr hst'
      exact hf.backs hfree (hc.backed obs' hobs' st hst (hf.key_id.2.symm.trans hid))
  | flush order _ =>
    exact ⟨List.nodup_nil, fun _ hst => (List.not_mem_nil hst).elim,
      fun _ _ _ hst => (List.not_mem_nil hst).elim, fun _ _ _ hst => (List.not_mem_nil hst).elim⟩

theorem Run.keyed (hrun : Run lib limits rules h) : Keyed h.tracker.sessions := by
  induction hrun with
  | start hs => exact hs ▸ List.nodup_nil
  | next _ hs ih => exact hs.keyed ih

theorem Run.coherent (hfree : lib.CollisionFree) (hrun : Run lib limits rules h) :
    Coherent lib h := by
  refine Reachable.invariant (fun s hs => ?_) (fun _ _ hc hs => hs.coherent hfree hc) hrun
  subst hs
  exact ⟨List.nodup_nil, fun _ hst => (List.not_mem_nil hst).elim,
    fun _ hobs => (List.not_mem_nil hobs).elim, fun _ hobs => (List.not_mem_nil hobs).elim⟩

end

/-! ### A client and a server -/

/-- A segment from the client. -/
def fromClient (usec : UInt64) (label : MessageDirection) (payload : Bytes) : PacketFeature where
  packetTimeUsec := usec
  srcIP := "10.0.0.1"
  srcPort := 40000
  dstIP := "10.0.0.2"
  dstPort := 80
  proto := .tcp
  tcpACK := true
  messageDirection := label
  payload := payload

/-- A segment from the server. -/
def fromServer (usec : UInt64) (label : MessageDirection) (payload : Bytes) : PacketFeature where
  packetTimeUsec := usec
  srcIP := "10.0.0.2"
  srcPort := 80
  dstIP := "10.0.0.1"
  dstPort := 40000
  proto := .tcp
  tcpACK := true
  messageDirection := label
  payload := payload

theorem sampleLib_collisionFree : sampleLib.CollisionFree := fun _ _ h => h

/-- A history that goes on with an `Observe` in list order. -/
def History.observe (h : History) (limits : Limits) (pf : PacketFeature) : History :=
  afterObserve sampleLib limits {} h pf 0

/-- A history that goes on with a `Register` for the observation made last, if there is one. -/
def History.register (h : History) (e : String) : History :=
  match h.observed with
  | obs :: _ => afterRegister .listed h obs { eventID := e }
  | [] => h

/-- A history that goes on with a `Flush`. -/
def History.flush (h : History) (limits : Limits) : History :=
  afterFlush sampleLib limits .listed h

section
variable {limits : Limits} {rules : Rules} {h : History}

theorem Run.observe (hrun : Run sampleLib limits rules h) {pf : PacketFeature}
    (closes : ∀ tx ∈ closedBy sampleLib limits {} h.tracker pf, rules.policy.revises tx)
    (evicts : ∀ tx, evictedBy sampleLib limits {} h.tracker pf = some tx → rules.policy.drops tx) :
    Run sampleLib limits rules (h.observe limits pf) :=
  .next hrun (.observe {} pf 0 closes evicts)

/-- After a packet an event may be registered with its observation. -/
theorem Run.register {pf : PacketFeature} (hrun : Run sampleLib limits rules (h.observe limits pf))
    {e : String} (new : e ∉ h.registered) :
    Run sampleLib limits rules ((h.observe limits pf).register e) := by
  refine .next hrun (.register .listed _ _ ?_ fun _ => new)
  cases rules.uses with
  | any | current | latest => exact List.mem_cons_self

theorem Run.flush (hrun : Run sampleLib limits rules h)
    (closes : ∀ tx ∈ pool h.tracker.sessions, rules.policy.revises tx) :
    Run sampleLib limits rules (h.flush limits) :=
  .next hrun (.flush .listed closes)

end

end TaNode.Correlation

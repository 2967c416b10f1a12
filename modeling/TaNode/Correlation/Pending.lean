import TaNode.Correlation.Revisions

/-! Contexts that are not final when an event is registered, and their final revision.

    A waiting event is held by an open transaction. The transaction becomes final with a revision of
    all its events, or it leaves: and on every way out but one it is closed first.

        complete, FIN/RST, wait, idle, reset, session eviction, Flush     ──▶ final revision
        transaction eviction at the limit                                 ──▶ nothing

    So every waiting event gets its final revision in a run where no open transaction with events is
    evicted. -/

namespace TaNode.Correlation

/-- Only transactions that are final or hold no events leave without a revision. -/
def Policy.keeping : Policy :=
  ⟨fun _ => True, fun tx => tx.final = true ∨ tx.events = [], fun _ _ => trivial, fun _ h => Or.inl h⟩

/-- An open transaction of the pool holds the event. -/
def Held (e : String) (l : List TransactionState) : Prop :=
  ∃ tx ∈ l, tx.final = false ∧ about e tx.events ≠ []

/-- A final revision of the event. -/
def Finalized (e : String) (E : List ThreatEvent) : Prop :=
  ∃ ev ∈ E, ev.eventID = e ∧ ev.contextFinal = true

section
variable {e : String} {a b : TransactionState} {l l' : List TransactionState}
  {E out : List ThreatEvent}

theorem Finalized.append_left (h : Finalized e E) (out : List ThreatEvent) :
    Finalized e (E ++ out) := by
  obtain ⟨ev, hev, hid⟩ := h
  exact ⟨ev, List.mem_append_left _ hev, hid⟩

theorem Held.cons (h : Held e l) (a : TransactionState) : Held e (a :: l) := by
  obtain ⟨tx, htx, hheld⟩ := h
  exact ⟨tx, List.mem_cons_of_mem _ htx, hheld⟩

/-- A transaction that holds the event comes to its final revision, or holds it still. -/
theorem TxMove.held {P : Policy} (hmove : TxMove P a out b) (hopen : a.final = false)
    (hheld : about e a.events ≠ []) :
    Finalized e out ∨ b.final = false ∧ about e b.events ≠ [] := by
  rcases hmove.event (e := e) with ⟨hsame, _, hfin⟩ | ⟨_, _, hout, f, hf, hmap⟩
  · exact Or.inr ⟨(hfin.resolve_right hheld).trans hopen, hsame ▸ hheld⟩
  · have hb : about e b.events ≠ [] := by
      rw [hmap]
      exact fun hnil => hheld (List.map_eq_nil_iff.mp hnil)
    cases hfinal : b.final with
    | false => exact Or.inr ⟨rfl, hb⟩
    | true =>
      obtain ⟨c, hc⟩ := List.exists_mem_of_ne_nil _ hb
      have hcf : c.contextFinal = true := by
        obtain ⟨d, _, rfl⟩ := List.mem_map.mp (hmap ▸ hc)
        rw [hf.contextFinal, hfinal]
      obtain ⟨hmem, hid⟩ := List.mem_filter.mp (hout ▸ hc)
      exact Or.inl ⟨c, hmem, by simpa using hid, hcf⟩

theorem Held.moves (hmoves : Moves .keeping l out l') (h : Held e l) :
    Finalized e out ∨ Held e l' := by
  refine @Advance.invariant _ _ _ _ _ _ _ _ (fun l E => Finalized e E ∨ Held e l) ?_ ?_ ?_ ?_
    hmoves [] (Or.inr h)
  · rintro l l' E hp (hdone | ⟨tx, htx, hheld⟩)
    · exact Or.inl hdone
    · exact Or.inr ⟨tx, hp.mem_iff.mp htx, hheld⟩
  · rintro a b out l E hmove (hdone | ⟨tx, htx, hopen, hheld⟩)
    · exact Or.inl (hdone.append_left out)
    · rcases List.mem_cons.mp htx with rfl | hother
      · rcases hmove.held hopen hheld with ⟨ev, hev, hid⟩ | hb
        · exact Or.inl ⟨ev, List.mem_append_right _ hev, hid⟩
        · exact Or.inr ⟨b, List.mem_cons_self, hb⟩
      · exact Or.inr ⟨tx, List.mem_cons_of_mem _ hother, hopen, hheld⟩
  · rintro a l E hdrop (hdone | ⟨tx, htx, hopen, hheld⟩)
    · exact Or.inl hdone
    · rcases List.mem_cons.mp htx with rfl | hother
      · -- what leaves is final or holds nothing
        rcases hdrop with hfinal | hnil
        · rw [hopen] at hfinal
          exact absurd hfinal (by decide)
        · exact absurd (by rw [hnil]; rfl) hheld
      · exact Or.inr ⟨tx, hother, hopen, hheld⟩
  · rintro a l E _ (hdone | hheld)
    · exact Or.inl hdone
    · exact Or.inr (hheld.cons a)

theorem mem_stillWaiting {waiting : List String} (h : e ∈ stillWaiting waiting out) :
    e ∈ waiting ∧ ¬ Finalized e out := by
  obtain ⟨hmem, hnone⟩ := List.mem_filter.mp h
  refine ⟨hmem, fun ⟨ev, hev, hid, hfinal⟩ => ?_⟩
  simp only [Bool.not_eq_true', List.any_eq_false, decide_eq_true_eq, not_and] at hnone
  exact hnone ev hev hid hfinal

/-- Waiting events that nobody has to wait for any longer drop out. -/
theorem waiting_moves {waiting : List String} (hmoves : Moves .keeping l out l')
    (h : ∀ e ∈ waiting, Held e l) : ∀ e ∈ stillWaiting waiting out, Held e l' := by
  intro e he
  obtain ⟨hmem, hnot⟩ := mem_stillWaiting he
  exact ((h e hmem).moves hmoves).resolve_left hnot

/-! ### Registering -/

theorem about_putEvent_ne_nil (ev : ThreatEvent) (events : List ThreatEvent) :
    about ev.eventID (putEvent ev events) ≠ [] := by
  induction events with
  | nil => simp [putEvent, about]
  | cons d events ih =>
    rw [putEvent]
    split
    · simp [about]
    · split
      · simp [about]
      · obtain ⟨c, hc⟩ := List.exists_mem_of_ne_nil _ ih
        obtain ⟨hmem, hid⟩ := List.mem_filter.mp hc
        exact List.ne_nil_of_mem (List.mem_filter.mpr ⟨List.mem_cons_of_mem _ hmem, hid⟩)

/-- `Register` keeps what the pool holds. -/
theorem Held.register {t t' : Tracker} {obs : Observation} {ev : ThreatEvent}
    (hr : Registers t obs ev t') (hkeyed : Keyed t.sessions) (h : Held e (pool t.sessions)) :
    Held e (pool t'.sessions) := by
  obtain ⟨tx, htx, hopen, hheld⟩ := h
  rcases hr.pool hkeyed with hsame | ⟨_, _, tx₀, _, rest, _, _, hold, hnew⟩
  · exact ⟨tx, hsame.mem_iff.mpr htx, hopen, hheld⟩
  · rcases List.mem_cons.mp (hold.mem_iff.mp htx) with rfl | hother
    · refine ⟨_, hnew.mem_iff.mpr List.mem_cons_self, hopen, ?_⟩
      by_cases he : ev.eventID = e
      · exact he ▸ about_putEvent_ne_nil ev _
      · rw [about_putEvent he]
        exact hheld
    · exact ⟨tx, hnew.mem_iff.mpr (List.mem_cons_of_mem _ hother), hopen, hheld⟩

/-- An event registered on a tracked transaction is held by it. -/
theorem register_held {lib : Lib} (hfree : lib.CollisionFree) {t t' : Tracker} {obs : Observation}
    {ev : ThreatEvent} (hr : Registers t obs ev t') (hkeyed : Keyed t.sessions)
    (hnamed : ∀ st ∈ t.sessions, Named lib st) (htracked : tracked t obs = true)
    (hname : obs.transactionID ≠ "") (hshows : Shows t obs) (hopen : obs.contextFinal = false) :
    Held ev.eventID (pool t'.sessions) := by
  simp only [tracked, List.any_eq_true, decide_eq_true_eq] at htracked
  obtain ⟨st, hst, hid, tx, htx, htxid⟩ := htracked
  cases hr with
  | nothing none _ => exact absurd hid (none st hst)
  | hit st' here id none _ =>
    obtain rfl := eq_of_id hfree hkeyed hnamed hst here (hid.trans id.symm)
    rcases none with hempty | hmissing
    · exact absurd hempty hname
    · exact absurd htxid (hmissing tx htx)
  | stored st' here id i tx' htx' txid _ changed =>
    let put := fun tx : TransactionState => { tx with events := putEvent ev tx.events }
    have hmem : put tx' ∈ (putOn st' i ev).transactions := by
      refine List.mem_of_getElem? (i := i) ?_
      rw [putOn, SessionState.modify]
      dsimp only
      rw [List.getElem?_modify_eq, htx']
      rfl
    refine ⟨put tx', ?_, ?_, about_putEvent_ne_nil ev _⟩
    · rw [changed]
      exact List.mem_append_left _ hmem
    · exact (hshows st' here id tx' (List.mem_of_getElem? htx') txid).trans hopen

end

/-! ### Runs -/

section
variable {lib : Lib} {limits : Limits} {h h' : History}

theorem Step.held (hfree : lib.CollisionFree)
    (hs : Step lib limits ⟨.latest, false, .keeping⟩ h h') (hc : Coherent lib h)
    (hw : ∀ e ∈ h.waiting, Held e (pool h.tracker.sessions)) :
    ∀ e ∈ h'.waiting, Held e (pool h'.tracker.sessions) := by
  cases hs with
  | observe orders pf n closes evicts =>
    exact waiting_moves (observe_moves .keeping orders hc.keyed pf n closes evicts) hw
  | register order obs ev usable _ =>
    have hr := register_spec order h.tracker obs ev
    obtain ⟨hevent, _, htxn, _, hfin⟩ := register_event order h.tracker obs ev
    intro e he
    rw [afterRegister] at he
    dsimp only at he
    split at he
    · rename_i hpending
      simp only [decide_eq_true_eq] at hpending
      obtain ⟨hopen, hname, htracked⟩ := hpending
      rcases List.mem_cons.mp he with rfl | hold
      · rw [htxn] at hname
        rw [hfin] at hopen
        exact hevent ▸ register_held hfree hr hc.keyed hc.named htracked hname
          (hc.latest obs usable) hopen
      · exact (hw e hold).register hr hc.keyed
    · exact (hw e he).register hr hc.keyed
  | flush order closes => exact waiting_moves (flush_moves .keeping order _ closes) hw

/-- In every run that registers events with the observation made last and evicts no open transaction
    with events, a `Flush` leaves no event waiting for a final revision. -/
theorem pending_context_finalized (lib : Lib) (hfree : lib.CollisionFree) (limits : Limits)
    (h : History) (hrun : Run lib limits ⟨.latest, false, .keeping⟩ h) (order : Order) :
    (afterFlush lib limits order h).waiting = [] := by
  have hheld : ∀ e ∈ h.waiting, Held e (pool h.tracker.sessions) := by
    induction hrun with
    | start hs => exact hs ▸ fun e he => (List.not_mem_nil he).elim
    | next hrun hs ih => exact hs.held hfree (Run.coherent hfree hrun) ih
  refine List.eq_nil_iff_forall_not_mem.mpr fun e he => ?_
  obtain ⟨tx, htx, _⟩ := waiting_moves
    (flush_moves .keeping order h.tracker fun _ _ => trivial) hheld e he
  exact List.not_mem_nil htx

end

/-- A request with an event that waits, and a `Flush` without a response. -/
theorem pending_context_finalized_asked :
    let limits := ({} : Options).limits
    (asked limits).waiting = ["e"] ∧ ((asked limits).flush limits).waiting = [] := by
  intro limits
  have hstart : Run sampleLib limits ⟨.latest, false, .keeping⟩ {} := .start rfl
  have hevicts : ∀ tx, evictedBy sampleLib limits {} {}
      (fromClient 5 .request (utf8 "GET / HTTP/1.1")) = some tx → Policy.keeping.drops tx := by
    intro tx htx
    have hnone : evictedBy sampleLib limits {} {}
        (fromClient 5 .request (utf8 "GET / HTTP/1.1")) = none := by rfl
    rw [hnone] at htx
    exact absurd htx (by simp)
  have hasked : Run sampleLib limits ⟨.latest, false, .keeping⟩ (asked limits) :=
    (hstart.observe (fun _ _ => trivial) hevicts).register List.not_mem_nil
  exact ⟨by decide +kernel, pending_context_finalized sampleLib sampleLib_collisionFree limits
    (asked limits) hasked .listed⟩

/-- With one transaction a session, a second request evicts the first one's transaction: the event
    there never gets a final revision. -/
theorem evicted_context_lost :
    ∃ h, Run sampleLib ({ maxTransactionsPerSession := 1 } : Options).limits
        ⟨.latest, false, .free⟩ h ∧
      (afterFlush sampleLib ({ maxTransactionsPerSession := 1 } : Options).limits .listed h).waiting
        = ["e"] := by
  let limits := ({ maxTransactionsPerSession := 1 } : Options).limits
  have hstart : Run sampleLib limits ⟨.latest, false, .free⟩ {} := .start rfl
  have hasked : Run sampleLib limits ⟨.latest, false, .free⟩ (asked limits) :=
    (hstart.observe (fun _ _ => trivial) fun _ _ => trivial).register List.not_mem_nil
  exact ⟨(asked limits).observe limits (fromClient 6 .request (utf8 "GET /b HTTP/1.1")),
    hasked.observe (fun _ _ => trivial) fun _ _ => trivial, by decide +kernel⟩

end TaNode.Correlation

import TaNode.Correlation.History

/-! The revisions of an event, from `Register` to the end of a run.

    An event id is held by at most one transaction, and the copy there carries the number of the
    revision that came out last. So the numbers go 1, 2, 3, …, under one session and one transaction.
    If names are unique and observations are used before their session is created again, an event
    whose context was final is held by a final transaction:

        emitted      1 ──▶ 2 ──▶ … ──▶ n            final? no … no, yes … yes
        pool         the only copy, revision n       in a final transaction once it was final

    A final transaction is revised again whenever its session closes, so a final revision is the last
    one only where nothing closes a final transaction that holds events. -/

namespace TaNode.Correlation

variable {ev : ThreatEvent} {obs : Observation}

/-- The events with an id, in order. -/
def about (e : String) (events : List ThreatEvent) : List ThreatEvent :=
  events.filter (·.eventID = e)

/-- The copies of an event that a pool holds. -/
def copies (e : String) (l : List TransactionState) : List ThreatEvent :=
  about e (l.flatMap (·.events))

/-! ### One event in a pool -/

section
variable {e : String} {P : Policy} {a b : TransactionState} {l l' : List TransactionState}
  {E out : List ThreatEvent}

theorem about_append (E₁ E₂ : List ThreatEvent) : about e (E₁ ++ E₂) = about e E₁ ++ about e E₂ :=
  List.filter_append ..

theorem about_map {f : ThreatEvent → ThreatEvent} (hf : ∀ ev, (f ev).eventID = ev.eventID)
    (E : List ThreatEvent) : about e (E.map f) = (about e E).map f := by
  rw [about, about, List.filter_map]
  congr 1
  exact List.filter_congr fun ev _ => by rw [Function.comp_apply, hf]

theorem copies_cons : copies e (a :: l) = about e a.events ++ copies e l := by
  rw [copies, copies, List.flatMap_cons, about_append]

theorem copies_perm (h : l.Perm l') : (copies e l).Perm (copies e l') :=
  (h.flatMap_right _).filter _

theorem about_mem_copies {tx : TransactionState} (h : tx ∈ l) (hev : ev ∈ about e tx.events) :
    ev ∈ copies e l := by
  obtain ⟨hmem, hid⟩ := List.mem_filter.mp hev
  exact List.mem_filter.mpr ⟨List.mem_flatMap.mpr ⟨tx, h, hmem⟩, hid⟩

/-- What a move of one transaction means for an event: its copies stay and it does not come out, or
    they are revised and come out. -/
theorem TxMove.event (h : TxMove P a out b) :
    (about e b.events = about e a.events ∧ about e out = [] ∧
      (b.final = a.final ∨ about e a.events = [])) ∨
    (P.revises a ∧ (a.final = true → b.final = true) ∧ about e out = about e b.events ∧
      ∃ f, Revises f b.final ∧ about e b.events = (about e a.events).map f) := by
  cases h with
  | quiet touched same =>
    refine Or.inl ⟨by rw [touched.events], rfl, same.imp_right fun hnil => ?_⟩
    rw [hnil]
    rfl
  | revise may id final events revises =>
    exact Or.inr ⟨may, final, rfl, _, revises, by rw [events, about_map revises.eventID]⟩

/-- The revisions of an event so far, under the names of its first context, and the only copy. -/
structure Trail (e : String) (name : String × String) (l : List TransactionState)
    (E : List ThreatEvent) : Prop where
  count : (about e E).map (·.contextRevision) = List.range' 1 (about e E).length
  names : ∀ ev ∈ about e E, (ev.sessionID, ev.transactionID) = name
  one : (copies e l).length ≤ 1
  held : ∀ c ∈ copies e l, c.contextRevision = (about e E).length ∧
    (c.sessionID, c.transactionID) = name

variable {name : String × String}

/-- Fewer copies of an event, and nothing new. -/
theorem Trail.shrink (h : Trail e name l E) (hsub : (copies e l').Subperm (copies e l)) :
    Trail e name l' E :=
  ⟨h.count, h.names, Nat.le_trans hsub.length_le h.one, fun c hc => h.held c (hsub.subset hc)⟩

/-- Where the only copy of an event is. -/
theorem Trail.only (h : Trail e name (a :: l) E) :
    about e a.events = [] ∨ ∃ c, about e a.events = [c] ∧ copies e l = [] := by
  have hone := h.one
  rw [copies_cons, List.length_append] at hone
  match hev : about e a.events with
  | [] => exact Or.inl rfl
  | [c] =>
    rw [hev, List.length_singleton] at hone
    exact Or.inr ⟨c, rfl, List.eq_nil_of_length_eq_zero (by omega)⟩
  | c :: d :: rest =>
    rw [hev] at hone
    simp only [List.length_cons] at hone
    omega

theorem Trail.step (hmove : TxMove P a out b) (h : Trail e name (a :: l) E) :
    Trail e name (b :: l) (E ++ out) := by
  rcases hmove.event (e := e) with ⟨hsame, hout, _⟩ | ⟨_, _, hout, f, hf, hmap⟩
  · have hE : about e (E ++ out) = about e E := by rw [about_append, hout, List.append_nil]
    have hcopies : copies e (b :: l) = copies e (a :: l) := by
      rw [copies_cons, copies_cons, hsame]
    exact ⟨by rw [hE]; exact h.count, by rw [hE]; exact h.names, by rw [hcopies]; exact h.one,
      by rw [hE, hcopies]; exact h.held⟩
  · rcases h.only with hnil | ⟨c, hc, hrest⟩
    · rw [hnil, List.map_nil] at hmap
      rw [hmap] at hout
      have hE : about e (E ++ out) = about e E := by rw [about_append, hout, List.append_nil]
      have hcopies : copies e (b :: l) = copies e (a :: l) := by
        rw [copies_cons, copies_cons, hmap, hnil]
      exact ⟨by rw [hE]; exact h.count, by rw [hE]; exact h.names, by rw [hcopies]; exact h.one,
        by rw [hE, hcopies]; exact h.held⟩
    · -- the copy is here: its next revision comes out and is the only copy
      obtain ⟨hrev, hname⟩ := h.held c (by rw [copies_cons, hc]; simp)
      rw [hc, List.map_singleton] at hmap
      have hE : about e (E ++ out) = about e E ++ [f c] := by rw [about_append, hout, hmap]
      have hcopies : copies e (b :: l) = [f c] := by
        rw [copies_cons, hmap, hrest, List.append_nil]
      have hfname : ((f c).sessionID, (f c).transactionID) = name := by
        rw [hf.sessionID, hf.transactionID, hname]
      refine ⟨?_, ?_, by rw [hcopies]; exact Nat.le_refl 1, ?_⟩
      · rw [hE, List.map_append, h.count, List.length_append, List.map_singleton,
          hf.contextRevision, hrev, List.length_singleton, List.range'_concat, Nat.one_mul,
          Nat.add_comm 1]
      · rw [hE]
        intro ev hev
        rcases List.mem_append.mp hev with hold | hnew
        · exact h.names ev hold
        · rw [List.mem_singleton.mp hnew, hfname]
      · rw [hE, hcopies]
        intro d hd
        rw [List.mem_singleton.mp hd, hf.contextRevision, hrev, List.length_append,
          List.length_singleton]
        exact ⟨rfl, hfname⟩

theorem Trail.moves (hmoves : Moves P l out l') (h : Trail e name l E) :
    Trail e name l' (E ++ out) := by
  refine hmoves.invariant (Trail e name) ?_ (fun hm => Trail.step hm) ?_ ?_ h
  · intro l l' E hp h
    exact h.shrink (copies_perm hp).symm.subperm
  · intro a l E _ h
    refine h.shrink ?_
    rw [copies_cons]
    exact (List.sublist_append_right _ _).subperm
  · intro a l E hnil h
    refine h.shrink ?_
    rw [copies_cons, hnil]
    exact List.Subperm.refl _

/-- An event nobody has registered. -/
def Silent (e : String) (l : List TransactionState) (E : List ThreatEvent) : Prop :=
  copies e l = [] ∧ about e E = []

theorem Silent.moves (hmoves : Moves P l out l') (h : Silent e l E) : Silent e l' (E ++ out) := by
  refine hmoves.invariant (Silent e) ?_ ?_ ?_ ?_ h
  · intro l l' E hp h
    exact ⟨List.Perm.eq_nil (h.1 ▸ (copies_perm hp).symm), h.2⟩
  · intro a b out l E hmove h
    obtain ⟨ha, hl⟩ := List.append_eq_nil_iff.mp (copies_cons ▸ h.1)
    have hb : about e b.events = [] ∧ about e out = [] := by
      rcases hmove.event (e := e) with ⟨hsame, hout, _⟩ | ⟨_, _, hout, f, _, hmap⟩
      · exact ⟨hsame.trans ha, hout⟩
      · rw [ha, List.map_nil] at hmap
        exact ⟨hmap, hout.trans hmap⟩
    exact ⟨by rw [copies_cons, hb.1, hl]; rfl, by rw [about_append, h.2, hb.2]; rfl⟩
  · intro a l E _ h
    exact ⟨(List.append_eq_nil_iff.mp (copies_cons ▸ h.1)).2, h.2⟩
  · intro a l E hnil h
    refine ⟨?_, h.2⟩
    rw [copies_cons, hnil, h.1]
    rfl

/-! ### Registering -/

theorem about_putEvent {events : List ThreatEvent} (hne : ev.eventID ≠ e) :
    about e (putEvent ev events) = about e events := by
  induction events with
  | nil => simp [putEvent, about, hne]
  | cons d events ih =>
    rw [putEvent]
    split
    · simp [about, hne]
    · split
      · rename_i heq
        have hd : d.eventID ≠ e := heq ▸ hne
        simp [about, hne, hd]
      · rw [about, about] at ih
        rw [about, about, List.filter_cons, List.filter_cons, ih]

theorem about_putEvent_self {events : List ThreatEvent} (h : about ev.eventID events = []) :
    about ev.eventID (putEvent ev events) = [ev] := by
  induction events with
  | nil => simp [putEvent, about]
  | cons d events ih =>
    have hd : d.eventID ≠ ev.eventID := by
      intro heq
      simp [about, heq] at h
    have hrest : about ev.eventID events = [] := by simpa [about, hd] using h
    rw [putEvent]
    split
    · rw [about, List.filter_cons_of_pos (by simp)]
      exact congrArg _ h
    · rw [if_neg (Ne.symm hd), about, List.filter_cons_of_neg (by simpa using hd)]
      exact ih hrest

/-- `Register` leaves the copies of the other events alone. -/
theorem register_copies_ne {t t' : Tracker} (h : Registers t obs ev t') (hkeyed : Keyed t.sessions)
    (hne : ev.eventID ≠ e) : (copies e (pool t'.sessions)).Perm (copies e (pool t.sessions)) := by
  rcases h.pool hkeyed with hsame | ⟨_, _, tx, _, rest, _, _, hold, hnew⟩
  · exact copies_perm hsame
  · refine (copies_perm hnew).trans (.trans ?_ (copies_perm hold).symm)
    rw [copies_cons, copies_cons, about_putEvent hne]

/-- An event that was nowhere is held once after `Register`, on the transaction the observation
    names, or still nowhere. -/
theorem register_copies_new {t t' : Tracker} (h : Registers t obs ev t') (hkeyed : Keyed t.sessions)
    (hnone : copies ev.eventID (pool t.sessions) = []) :
    copies ev.eventID (pool t'.sessions) = [] ∨ copies ev.eventID (pool t'.sessions) = [ev] ∧
        ∃ st ∈ t.sessions, ∃ tx ∈ st.transactions, st.id = obs.sessionID ∧
          tx.id = obs.transactionID ∧ ∀ tx' ∈ pool t'.sessions, about ev.eventID tx'.events ≠ [] →
            tx'.final = tx.final := by
  rcases h.pool hkeyed with hsame | ⟨st, hst, tx, htx, rest, hid, htxid, hold, hnew⟩
  · exact Or.inl (List.Perm.eq_nil (hnone ▸ copies_perm hsame))
  · have hcons : copies ev.eventID (tx :: rest) = [] :=
      List.Perm.eq_nil (hnone ▸ (copies_perm hold).symm)
    obtain ⟨htxnil, hrest⟩ := List.append_eq_nil_iff.mp (copies_cons ▸ hcons)
    refine Or.inr ⟨?_, st, hst, tx, htx, hid, htxid, fun tx' htx' hheld => ?_⟩
    · refine List.perm_singleton.mp ((copies_perm hnew).trans ?_)
      rw [copies_cons, about_putEvent_self htxnil, hrest]
      exact List.Perm.refl _
    · rcases List.mem_cons.mp (hnew.mem_iff.mp htx') with rfl | hother
      · rfl
      · -- the other transactions do not hold the event
        obtain ⟨d, hd⟩ := List.exists_mem_of_ne_nil _ hheld
        exact absurd (about_mem_copies hother hd) (by rw [hrest]; exact List.not_mem_nil)

end

/-! ### The numbers and names of a run -/

section
variable {lib : Lib} {limits : Limits} {rules : Rules} {h h' : History}

/-- Registered events have a trail, the others are silent. -/
def Traced (h : History) : Prop :=
  ∀ e, (e ∈ h.registered → ∃ name, Trail e name (pool h.tracker.sessions) h.emitted) ∧
    (e ∉ h.registered → Silent e (pool h.tracker.sessions) h.emitted)

theorem traced_register (ht : Traced h) (hk : Keyed h.tracker.sessions) (order : Order)
    (obs : Observation) (hnew : ev.eventID ∉ h.registered) :
    Traced (afterRegister order h obs ev) := by
  have hr := register_spec order h.tracker obs ev
  obtain ⟨hevent, _, _, hrev, _⟩ := register_event order h.tracker obs ev
  intro e
  by_cases he : e = ev.eventID
  · subst he
    obtain ⟨hcopies, habout⟩ := (ht ev.eventID).2 hnew
    rw [← hevent] at hcopies habout
    have hE : about ev.eventID (afterRegister order h obs ev).emitted =
        [(register order h.tracker obs ev).2] := by
      rw [afterRegister, about_append, ← hevent, habout]
      simp [about]
    refine ⟨fun _ => ⟨((register order h.tracker obs ev).2.sessionID,
      (register order h.tracker obs ev).2.transactionID), by rw [hE]; simp [hrev], ?_, ?_, ?_⟩,
      fun hnot => absurd List.mem_cons_self hnot⟩
    · rw [hE]
      intro x hx
      rw [List.mem_singleton.mp hx]
    · rcases register_copies_new hr hk hcopies with hnil | ⟨hone, _⟩
      · rw [hevent] at hnil
        exact Nat.le_trans (Nat.le_of_eq (congrArg List.length hnil)) (Nat.zero_le 1)
      · rw [hevent] at hone
        exact Nat.le_of_eq (congrArg List.length hone)
    · intro c hc
      rcases register_copies_new hr hk hcopies with hnil | ⟨hone, _⟩
      · rw [hevent] at hnil
        exact absurd (hnil ▸ hc) List.not_mem_nil
      · rw [hevent] at hone
        have hc' : c ∈ [(register order h.tracker obs ev).2] := hone ▸ hc
        rw [List.mem_singleton.mp hc', hE]
        exact ⟨hrev, rfl⟩
  · have hE : about e (afterRegister order h obs ev).emitted = about e h.emitted := by
      rw [afterRegister, about_append]
      simp [about, hevent, Ne.symm he]
    have hcopies := register_copies_ne hr hk (hevent ▸ Ne.symm he)
    refine ⟨fun hmem => ?_, fun hnot => ?_⟩
    · obtain ⟨name, htrail⟩ := (ht e).1 ((List.mem_cons.mp hmem).resolve_left he)
      have htrail' := htrail.shrink hcopies.subperm
      exact ⟨name, by rw [hE]; exact htrail'.count, by rw [hE]; exact htrail'.names, htrail'.one,
        by rw [hE]; exact htrail'.held⟩
    · obtain ⟨hnone, habout⟩ := (ht e).2 fun hmem => hnot (List.mem_cons_of_mem _ hmem)
      exact ⟨List.Perm.eq_nil (hnone ▸ hcopies), hE.trans habout⟩

/-- Moves keep the trails. -/
theorem Traced.moves {P : Policy} {out : List ThreatEvent} (ht : Traced h)
    (hmoves : Moves P (pool h.tracker.sessions) out (pool h'.tracker.sessions))
    (hreg : h'.registered = h.registered) (hE : h'.emitted = h.emitted ++ out) : Traced h' := by
  intro e
  rw [hreg, hE]
  refine ⟨fun hmem => ?_, fun hnot => ((ht e).2 hnot).moves hmoves⟩
  obtain ⟨name, htrail⟩ := (ht e).1 hmem
  exact ⟨name, htrail.moves hmoves⟩

theorem Run.traced (honce : rules.once = true) (hrun : Run lib limits rules h) : Traced h := by
  induction hrun with
  | start hs => exact hs ▸ fun e => ⟨fun hmem => (List.not_mem_nil hmem).elim, fun _ => ⟨rfl, rfl⟩⟩
  | next hrun hs ih =>
    have hk := Run.keyed hrun
    cases hs with
    | observe orders pf n closes evicts =>
      exact ih.moves (observe_moves rules.policy orders hk pf n closes evicts) rfl rfl
    | register order obs ev _ new => exact traced_register ih hk order obs (new honce)
    | flush order closes => exact ih.moves (flush_moves rules.policy order _ closes) rfl rfl

/-! ### The final revisions of a run -/

/-- After a final revision only revisions with `Q` come out, and the event is held by a final
    transaction. -/
structure Settled (Q : ThreatEvent → Prop) (e : String) (l : List TransactionState)
    (E : List ThreatEvent) : Prop where
  ordered : (about e E).Pairwise fun x y => x.contextFinal = true → Q y
  holder : ∀ x ∈ about e E, x.contextFinal = true → ∀ tx ∈ l, about e tx.events ≠ [] →
    tx.final = true

/-- A policy under which a final transaction with events is revised only to events with `Q`. -/
def Policy.Allows (P : Policy) (Q : ThreatEvent → Prop) : Prop :=
  ∀ tx ev, P.revises tx → tx.events ≠ [] → tx.final = true → ev.contextFinal = true → Q ev

variable {P : Policy} {Q : ThreatEvent → Prop} {e : String} {name : String × String}
  {a b : TransactionState} {l l' : List TransactionState} {E out : List ThreatEvent}

theorem Settled.step (hQ : P.Allows Q) (hmove : TxMove P a out b) (ht : Trail e name (a :: l) E)
    (h : Settled Q e (a :: l) E) : Settled Q e (b :: l) (E ++ out) := by
  have hrest : ∀ x ∈ about e E, x.contextFinal = true → ∀ tx ∈ l, about e tx.events ≠ [] →
      tx.final = true := fun x hx hfinal tx htx => h.holder x hx hfinal tx (List.mem_cons_of_mem _ htx)
  rcases hmove.event (e := e) with ⟨hsame, hout, hfin⟩ | ⟨hmay, hfin, hout, f, hf, hmap⟩
  · have hE : about e (E ++ out) = about e E := by rw [about_append, hout, List.append_nil]
    refine ⟨by rw [hE]; exact h.ordered, fun x hx hfinal tx htx hheld => ?_⟩
    rw [hE] at hx
    rcases List.mem_cons.mp htx with rfl | hother
    · rw [hsame] at hheld
      rw [hfin.resolve_right hheld]
      exact h.holder x hx hfinal a List.mem_cons_self hheld
    · exact hrest x hx hfinal tx hother hheld
  · rcases ht.only with hnil | ⟨c, hc, hnone⟩
    · rw [hnil, List.map_nil] at hmap
      have hE : about e (E ++ out) = about e E := by
        rw [about_append, hout, hmap, List.append_nil]
      refine ⟨by rw [hE]; exact h.ordered, fun x hx hfinal tx htx hheld => ?_⟩
      rw [hE] at hx
      rcases List.mem_cons.mp htx with rfl | hother
      · exact absurd hmap hheld
      · exact hrest x hx hfinal tx hother hheld
    · -- the event is here and nowhere else
      have hE : about e (E ++ out) = about e E ++ [f c] := by
        rw [about_append, hout, hmap, hc, List.map_singleton]
      have hheld : about e a.events ≠ [] := by rw [hc]; exact List.cons_ne_nil _ _
      have hevents : a.events ≠ [] := fun hnil => hheld (by rw [hnil]; rfl)
      refine ⟨?_, fun x hx hfinal tx htx hin => ?_⟩
      · rw [hE]
        refine List.pairwise_append.mpr ⟨h.ordered, List.pairwise_singleton _ _, ?_⟩
        intro x hx y hy hfinal
        rw [List.mem_singleton.mp hy]
        have ha := h.holder x hx hfinal a List.mem_cons_self hheld
        exact hQ a (f c) hmay hevents ha (by rw [hf.contextFinal, hfin ha])
      · rcases List.mem_cons.mp htx with rfl | hother
        · rw [hE] at hx
          rcases List.mem_append.mp hx with hold | hnew
          · exact hfin (h.holder x hold hfinal a List.mem_cons_self hheld)
          · rw [List.mem_singleton.mp hnew, hf.contextFinal] at hfinal
            exact hfinal
        · obtain ⟨d, hd⟩ := List.exists_mem_of_ne_nil _ hin
          exact absurd (about_mem_copies hother hd) (by rw [hnone]; exact List.not_mem_nil)

/-- Fewer or the same transactions. -/
theorem Settled.shrink (h : Settled Q e l E) (hsub : ∀ tx ∈ l', tx ∈ l ∨ tx.events = []) :
    Settled Q e l' E := by
  refine ⟨h.ordered, fun x hx hfinal tx htx hheld => ?_⟩
  rcases hsub tx htx with hold | hnil
  · exact h.holder x hx hfinal tx hold hheld
  · exact absurd (by rw [hnil]; rfl) hheld

theorem Settled.moves (hQ : P.Allows Q) (hmoves : Moves P l out l') (ht : Trail e name l E)
    (h : Settled Q e l E) : Settled Q e l' (E ++ out) := by
  refine (hmoves.invariant (fun l E => Trail e name l E ∧ Settled Q e l E) ?_ ?_ ?_ ?_ ⟨ht, h⟩).2
  · intro l l' E hp h
    exact ⟨h.1.shrink (copies_perm hp).symm.subperm,
      h.2.shrink fun tx htx => Or.inl (hp.mem_iff.mpr htx)⟩
  · intro a b out l E hmove h
    exact ⟨h.1.step hmove, h.2.step hQ hmove h.1⟩
  · intro a l E _ h
    refine ⟨h.1.shrink ?_, h.2.shrink fun tx htx => Or.inl (List.mem_cons_of_mem _ htx)⟩
    rw [copies_cons]
    exact (List.sublist_append_right _ _).subperm
  · intro a l E hnil h
    refine ⟨h.1.shrink ?_, h.2.shrink fun tx htx => ?_⟩
    · rw [copies_cons, hnil]
      exact List.Subperm.refl _
    · rcases List.mem_cons.mp htx with rfl | hold
      · exact Or.inr hnil
      · exact Or.inl hold

theorem Silent.settled (h : Silent e l E) : Settled Q e l E := by
  refine ⟨by rw [h.2]; exact List.Pairwise.nil, fun x hx => ?_⟩
  rw [h.2] at hx
  exact (List.not_mem_nil hx).elim

theorem settled_register (hs : ∀ e, Settled Q e (pool h.tracker.sessions) h.emitted) (ht : Traced h)
    (hc : Coherent lib h) (order : Order) (hobs : obs ∈ h.current)
    (hnew : ev.eventID ∉ h.registered) (e : String) :
    Settled Q e (pool (afterRegister order h obs ev).tracker.sessions)
      (afterRegister order h obs ev).emitted := by
  have hr := register_spec order h.tracker obs ev
  obtain ⟨hevent, _, _, _, hfin⟩ := register_event order h.tracker obs ev
  by_cases he : e = ev.eventID
  · subst he
    obtain ⟨hcopies, habout⟩ := (ht ev.eventID).2 hnew
    have hE : about ev.eventID (afterRegister order h obs ev).emitted =
        [(register order h.tracker obs ev).2] := by
      rw [afterRegister, about_append, habout]
      simp [about, hevent]
    refine ⟨by rw [hE]; exact List.pairwise_singleton _ _, fun x hx hfinal tx htx hheld => ?_⟩
    rw [hE] at hx
    rw [List.mem_singleton.mp hx, hfin] at hfinal
    rw [← hevent] at hcopies hheld
    rcases register_copies_new hr hc.keyed hcopies with hnil | ⟨_, st, hst, tx₀, htx₀, hid, htxid, hall⟩
    · obtain ⟨d, hd⟩ := List.exists_mem_of_ne_nil _ hheld
      exact absurd (about_mem_copies htx hd) (by
        rw [afterRegister]; dsimp only; rw [hnil]; exact List.not_mem_nil)
    · rw [hall tx htx hheld]
      exact (hc.backed obs hobs st hst hid hfinal).2 tx₀ htx₀ htxid
  · have hE : about e (afterRegister order h obs ev).emitted = about e h.emitted := by
      rw [afterRegister, about_append]
      simp [about, hevent, Ne.symm he]
    refine ⟨by rw [hE]; exact (hs e).ordered, fun x hx hfinal tx htx hheld => ?_⟩
    rw [hE] at hx
    rcases hr.pool hc.keyed with hsame | ⟨_, _, tx₀, _, rest, _, _, hold, hnew'⟩
    · exact (hs e).holder x hx hfinal tx (hsame.mem_iff.mp htx) hheld
    · rcases List.mem_cons.mp (hnew'.mem_iff.mp htx) with rfl | hother
      · rw [about_putEvent (hevent ▸ Ne.symm he)] at hheld
        exact (hs e).holder x hx hfinal tx₀ (hold.mem_iff.mpr List.mem_cons_self) hheld
      · exact (hs e).holder x hx hfinal tx (hold.mem_iff.mpr (List.mem_cons_of_mem _ hother)) hheld

theorem Run.settled (hfree : lib.CollisionFree) (honce : rules.once = true)
    (huses : rules.uses = .current) (hQ : rules.policy.Allows Q) (hrun : Run lib limits rules h) :
    ∀ e, Settled Q e (pool h.tracker.sessions) h.emitted := by
  have hadvance : ∀ {h h' : History} {out}, Traced h →
      (∀ e, Settled Q e (pool h.tracker.sessions) h.emitted) →
      Moves rules.policy (pool h.tracker.sessions) out (pool h'.tracker.sessions) →
      ∀ e, Settled Q e (pool h'.tracker.sessions) (h.emitted ++ out) := by
    intro h h' out ht hs hmoves e
    by_cases hreg : e ∈ h.registered
    · obtain ⟨name, htrail⟩ := (ht e).1 hreg
      exact (hs e).moves hQ hmoves htrail
    · exact (((ht e).2 hreg).moves hmoves).settled
  induction hrun with
  | start hs => exact hs ▸ fun e => Silent.settled ⟨rfl, rfl⟩
  | next hrun hs ih =>
    have ht := Run.traced honce hrun
    have hc := Run.coherent hfree hrun
    cases hs with
    | observe orders pf n closes evicts =>
      exact hadvance ht ih (observe_moves rules.policy orders hc.keyed pf n closes evicts)
    | register order obs ev usable new =>
      rw [huses] at usable
      exact settled_register ih ht hc order usable (new honce)
    | flush order closes => exact hadvance ht ih (flush_moves rules.policy order _ closes)

end

/-! ### Gap-free and monotone -/

/-- The revisions of an event are numbered 1, 2, 3, … under one session and one transaction, in every
    run that registers an event id once. A final context stays final if no session was created anew
    between an observation and its use, and no two texts have the same digest. -/
theorem revisions_gap_free (lib : Lib) (limits : Limits) :
    (∀ (uses : Uses) (h : History), Run lib limits ⟨uses, true, .free⟩ h → ∀ e : String,
      (about e h.emitted).map (·.contextRevision) = List.range' 1 (about e h.emitted).length ∧
      ∀ x ∈ about e h.emitted, ∀ y ∈ about e h.emitted,
        y.sessionID = x.sessionID ∧ y.transactionID = x.transactionID) ∧
    (lib.CollisionFree → ∀ h : History, Run lib limits ⟨.current, true, .free⟩ h → ∀ e : String,
      (about e h.emitted).Pairwise fun x y => x.contextFinal = true → y.contextFinal = true) := by
  refine ⟨fun uses h hrun e => ?_, fun hfree h hrun e => ?_⟩
  · have htraced := Run.traced rfl hrun
    by_cases hreg : e ∈ h.registered
    · obtain ⟨name, htrail⟩ := (htraced e).1 hreg
      refine ⟨htrail.count, fun x hx y hy => ?_⟩
      have hxy := (htrail.names y hy).trans (htrail.names x hx).symm
      exact ⟨congrArg Prod.fst hxy, congrArg Prod.snd hxy⟩
    · rw [((htraced e).2 hreg).2]
      exact ⟨rfl, fun x hx => (List.not_mem_nil hx).elim⟩
  · have hallows : Policy.free.Allows fun ev => ev.contextFinal = true :=
      fun _ _ _ _ _ hfinal => hfinal
    exact (Run.settled hfree rfl rfl hallows hrun e).ordered

/-- A request with an event. -/
def asked (limits : Limits) : History :=
  (({} : History).observe limits (fromClient 5 .request (utf8 "GET / HTTP/1.1"))).register "e"

/-- A request with an event, and its response. -/
def answered (limits : Limits) : History :=
  (asked limits).observe limits (fromServer 6 .response okResponse)

theorem answered_run (limits : Limits) (uses : Uses) :
    Run sampleLib limits ⟨uses, true, .free⟩ (answered limits) := by
  have hstart : Run sampleLib limits ⟨uses, true, .free⟩ {} := .start rfl
  have hasked : Run sampleLib limits ⟨uses, true, .free⟩ (asked limits) :=
    (hstart.observe (fun _ _ => trivial) fun _ _ => trivial).register List.not_mem_nil
  exact hasked.observe (fun _ _ => trivial) fun _ _ => trivial

theorem revisions_gap_free_answered :
    let h := answered ({} : Options).limits
    (about "e" h.emitted).length = 2 ∧
      (about "e" h.emitted).map (·.contextRevision) = List.range' 1 (about "e" h.emitted).length ∧
      (about "e" h.emitted).Pairwise fun x y => x.contextFinal = true → y.contextFinal = true := by
  intro h
  obtain ⟨hall, hcurrent⟩ := revisions_gap_free sampleLib ({} : Options).limits
  exact ⟨by decide +kernel, (hall .current h (answered_run _ _) "e").1,
    hcurrent sampleLib_collisionFree h (answered_run _ _) "e"⟩

/-- A capture is replayed after a `Flush`, so a session is created with the ids of an earlier one; an
    event registered with the earlier, final observation then gets a revision that is not final. -/
theorem replayed_context_opens_again :
    ∃ h, Run sampleLib ({} : Options).limits ⟨.any, true, .free⟩ h ∧
      ¬ (about "e" h.emitted).Pairwise
        fun x y => x.contextFinal = true → y.contextFinal = true := by
  let limits := ({} : Options).limits
  let request := fromClient 5 .request (utf8 "GET / HTTP/1.1")
  let reply := fromServer 6 .response okResponse
  let first := ({} : History).observe limits request
  let final := (observe sampleLib limits {} first.tracker reply 0).2
  let replayed := ((first.observe limits reply).flush limits).observe limits request
  let registered := afterRegister .listed replayed final { eventID := "e" }
  refine ⟨registered.observe limits (fromServer 7 .response (utf8 "HT")), ?_, by decide +kernel⟩
  have hfirst : Run sampleLib limits ⟨.any, true, .free⟩ first :=
    Run.observe (.start rfl) (fun _ _ => trivial) fun _ _ => trivial
  have hreply : Run sampleLib limits ⟨.any, true, .free⟩ (first.observe limits reply) :=
    hfirst.observe (fun _ _ => trivial) fun _ _ => trivial
  have hreplayed : Run sampleLib limits ⟨.any, true, .free⟩ replayed :=
    (hreply.flush fun _ _ => trivial).observe (fun _ _ => trivial) fun _ _ => trivial
  have hregistered : Run sampleLib limits ⟨.any, true, .free⟩ registered :=
    .next hreplayed (.register .listed final _ (List.mem_cons_of_mem _ List.mem_cons_self)
      fun _ => List.not_mem_nil)
  exact hregistered.observe (fun _ _ => trivial) fun _ _ => trivial

/-! ### Final revisions as the last ones -/

/-- Only transactions that are open or hold no events are closed. -/
def Policy.terminal : Policy :=
  ⟨fun tx => tx.final = false ∨ tx.events = [], fun _ => True, fun _ h => Or.inl h,
    fun _ _ => trivial⟩

/-- Where no call closes a transaction that is already final and holds events, a final revision of an
    event is its last one. -/
theorem final_revision_terminal (lib : Lib) (hfree : lib.CollisionFree) (limits : Limits)
    (h : History) (hrun : Run lib limits ⟨.current, true, .terminal⟩ h) (e : String) :
    (about e h.emitted).Pairwise fun x _ => x.contextFinal = false := by
  have hallows : Policy.terminal.Allows fun _ => False := by
    intro tx ev hmay hevents hfinal _
    rcases hmay with hopen | hnil
    · rw [hfinal] at hopen
      exact absurd hopen (by decide)
    · exact hevents hnil
  refine (Run.settled hfree rfl rfl hallows hrun e).ordered.imp fun hxy => ?_
  exact Bool.eq_false_iff.mpr hxy

theorem final_revision_terminal_answered :
    let h := answered ({} : Options).limits
    (about "e" h.emitted).map (·.contextFinal) = [false, true] ∧
      (about "e" h.emitted).Pairwise fun x _ => x.contextFinal = false := by
  intro h
  let limits := ({} : Options).limits
  have hclosed : ∀ tx ∈ closedBy sampleLib limits {} (asked limits).tracker
      (fromServer 6 .response okResponse), tx.final = false ∨ tx.events = [] := by
    decide +kernel
  have hstart : Run sampleLib limits ⟨.current, true, .terminal⟩ {} := .start rfl
  have hasked : Run sampleLib limits ⟨.current, true, .terminal⟩ (asked limits) :=
    (hstart.observe (fun tx htx => (List.not_mem_nil htx).elim) fun _ _ => trivial).register
      List.not_mem_nil
  exact ⟨by decide +kernel, final_revision_terminal sampleLib sampleLib_collisionFree limits h
    (hasked.observe hclosed fun _ _ => trivial) "e"⟩

/-- A request, its complete response, and a `Flush`: the flush emits a revision after the final
    one. -/
theorem flush_revises_final :
    ∃ h, Run sampleLib ({} : Options).limits ⟨.latest, true, .free⟩ h ∧
      ¬ (about "e" h.emitted).Pairwise fun x _ => x.contextFinal = false := by
  let limits := ({} : Options).limits
  exact ⟨(answered limits).flush limits, (answered_run limits .latest).flush fun _ _ => trivial,
    by decide +kernel⟩

end TaNode.Correlation

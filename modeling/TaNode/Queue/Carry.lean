import TaNode.Queue.Integrity
import TaNode.Queue.Readback

/-! What a payload decodes to depends on the tree below its root and on nothing else.

        root ──▶ ■ ──▶ ■         the tree: a set closed under references
                 └───▶ ■  □ □    everything else may come and go

    Two object tables that hold the same tree (`Carries`) give every payload rooted in it the same
    text. New events only add objects and `Collect` keeps whatever a root reaches, so the rows of a
    queue decode to the same text before and after every operation (`decode_run`). -/

namespace TaNode.Queue

variable {C : Codec} {db db' : Table String Stored} {X : String → Prop}
variable {q q' : Db} {row : Row} {ev : ThreatEvent}

/-- Both tables hold the same objects under the ids in `X`, and `X` is closed under references. -/
structure Carries (C : Codec) (db db' : Table String Stored) (X : String → Prop) : Prop where
  read : ∀ id, X id → ∃ raw, readObject C db id = .ok raw ∧ readObject C db' id = .ok raw
  refs : ∀ id raw n, X id → readObject C db id = .ok raw → decodeNode C raw = .ok n →
    (∀ c ∈ n.children, c.ref ≠ "" → X c.ref) ∧ ∀ c ∈ n.chunks, X c

theorem Carries.read_eq (h : Carries C db db' X) {id : String} (hx : X id) :
    readObject C db' id = readObject C db id := by
  obtain ⟨raw, hraw, hraw'⟩ := h.read id hx
  rw [hraw, hraw']

theorem Carries.readChunks (h : Carries C db db' X) : ∀ {ids : List String}, (∀ id ∈ ids, X id) →
    readChunks C db' ids = readChunks C db ids
  | [], _ => rfl
  | id :: ids, hids => by
    rw [List.forall_mem_cons] at hids
    rw [Queue.readChunks, Queue.readChunks, h.read_eq hids.1, h.readChunks hids.2]

/-- A node is rendered the same when its children and chunks are. -/
theorem renderNode_congr {g g' : Fragment → Except Err Bytes} {n : ContentNode}
    (hg : ∀ c ∈ n.children, g' c = g c)
    (hchunks : readChunks C db' n.chunks = readChunks C db n.chunks) :
    renderNode C db' g' n = renderNode C db g n := by
  have hfields : n.fields.mapM (fun m => do let t ← g' m.value; return memberText C.toJson m.key t) =
      n.fields.mapM fun m => do let t ← g m.value; return memberText C.toJson m.key t :=
    mapM_congr fun m hm => by rw [hg _ (List.mem_append_left _ (List.mem_map.mpr ⟨m, hm, rfl⟩))]
  have hitems : n.items.mapM g' = n.items.mapM g :=
    mapM_congr fun c hc => hg c (List.mem_append_right _ hc)
  rw [renderNode, renderNode, hfields, hitems, hchunks]

theorem Carries.render (h : Carries C db db' X) : ∀ (k : Nat) (visiting : List String)
    {f : Fragment}, (f.ref ≠ "" → X f.ref) → render C db' k visiting f = render C db k visiting f
  | 0, _, _, _ => rfl
  | k + 1, visiting, f, hf => by
    rw [Queue.render, Queue.render]
    split_ifs with hin hvis
    · rfl
    · rfl
    · rw [h.read_eq (hf hin)]
      refine except_bind_congr fun raw hraw => except_bind_congr fun n hdec => ?_
      obtain ⟨hchildren, hchunks⟩ := h.refs f.ref raw n (hf hin) hraw hdec
      exact renderNode_congr (fun c hc => h.render k _ (hchildren c hc)) (h.readChunks hchunks)

theorem Carries.decodePayload (h : Carries C db db' X) {payload : Bytes}
    (hroot : ∀ root, payloadRoot C payload = .ok root → root ≠ "" → X root) :
    decodePayload C db' payload = decodePayload C db payload := by
  rw [Queue.decodePayload, Queue.decodePayload]
  refine except_bind_congr fun root hr => ?_
  split_ifs with hlegacy
  · rfl
  · rw [h.render 257 [] fun _ => hroot root hr hlegacy]

/-! ### The rows of a queue -/

/-- Closed tables carry all they have into any table that extends them. -/
theorem carries_grow (hC : C.Lawful) {s : Store} (hs : s.Closed C)
    (hsub : Table.Sub s.objects db') : Carries C s.objects db' s.Has where
  read id hx := by
    obtain ⟨raw, hraw⟩ := readObject_closed hs hx
    exact ⟨raw, hraw, readObject_mono hsub hraw⟩
  refs id raw n _ hread hdec := decoded_closed hC hs hread hdec

/-- An intact database carries what is live into any table that has the same live objects. -/
theorem carries_live (hC : C.Lawful) (h : Intact C q)
    (hsame : ∀ x, q.graph.Live x → db'.lookup x = q.content.objects.lookup x) :
    Carries C q.content.objects db' q.graph.Live where
  read id hx := by
    obtain ⟨raw, hraw⟩ := readObject_closed h.closed ((graph_closed h).live_node hx)
    refine ⟨raw, hraw, ?_⟩
    rw [readObject, hsame id hx]
    exact hraw
  refs id raw n hx hread hdec := by
    obtain ⟨hwf, hedges, -⟩ := decoded_refs hC h.closed hread hdec
    have hlive : ∀ c ∈ nodeRefs n, q.graph.Live c := by
      intro c hc
      obtain ⟨r, hr, hpath⟩ := hx
      exact ⟨r, hr, hpath.tail ((hedges c).mpr hc)⟩
    exact ⟨fun c hc hne => hlive _ (child_mem_nodeRefs hc hne),
      fun c hc => hlive c (chunk_mem_nodeRefs hwf hc)⟩

/-- The root of a row's payload is stored, and live. -/
theorem Intact.root_of_row (h : Intact C q) {id : Int} {root : String}
    (hrow : q.events.rows.lookup id = some row) (hroot : payloadRoot C row.payload = .ok root)
    (hne : root ≠ "") : q.content.Has root ∧ q.graph.Live root := by
  have hreg := h.rooted id row root hrow hroot hne
  exact ⟨h.root_has _ _ hreg, root, ⟨row.key, hreg⟩, Relation.ReflTransGen.refl⟩

theorem decode_grow (hC : C.Lawful) (h : Intact C q) (hsub : Table.Sub q.content.objects db')
    {id : Int} (hrow : q.events.rows.lookup id = some row) :
    decodePayload C db' row.payload = decodePayload C q.content.objects row.payload :=
  (carries_grow hC h.closed hsub).decodePayload fun _ hroot hne =>
    (h.root_of_row hrow hroot hne).1

theorem decode_collect (hC : C.Lawful) (h : Intact C q) (scan : Store → List String) (limit : Int)
    {id : Int} (hrow : q.events.rows.lookup id = some row) :
    decodePayload C (collect scan limit q).2.content.objects row.payload =
      decodePayload C q.content.objects row.payload :=
  (carries_live hC h (collect_keeps_live h scan limit).2).decodePayload fun _ hroot hne =>
    (h.root_of_row hrow hroot hne).2

theorem enqueue_sub (hC : C.Lawful) (h : Intact C q) {backend : Backend} {now : Int} {u : Unit}
    (hop : enqueue C backend now ev q = .ok (u, q')) :
    Table.Sub q.content.objects q'.content.objects := by
  rcases enqueue_ok hop with ⟨rfl, -⟩ | ⟨-, -, payload, q₁, root, rows, b, hpay, hroot, hq, -, rfl⟩
  · exact Table.Sub.refl _
  · exact (newPayload_stored hC h hpay).sub

/-- Events with the same summary have the same key. -/
theorem queueRecordID_congr {ev' : ThreatEvent} (h : summarize ev' = summarize ev) :
    queueRecordID ev'.eventID ev'.contextRevision = queueRecordID ev.eventID ev.contextRevision := by
  have hkey := congrArg (fun e => queueRecordID e.eventID e.contextRevision) h
  exact hkey

/-- The payload of a new event decodes to the text of the event, if to anything. -/
theorem newPayload_honest (hC : C.Reads) {backend : Backend} {payload b : Bytes}
    (h : newPayload C backend ev q = .ok (payload, q'))
    (hdec : decodePayload C q'.content.objects payload = .ok b) :
    marshal C.toJson ev.toValue = some b := by
  rcases newPayload_cases h with ⟨hm, rfl⟩ | ⟨content, henc, rfl⟩
  · rw [decodePayload] at hdec
    obtain ⟨root, hroot, hdec⟩ := except_bind_ok.mp hdec
    rw [if_pos (payloadRoot_event hC.lawful hm hroot)] at hdec
    rw [hm, Except.ok.inj hdec]
  · exact decodePayload_honest hC henc (Table.Sub.refl _) hdec

/-- The event an operation enqueues, if it does, is one of `E`. -/
def Op.From (E : Set ThreatEvent) (op : Op) : Prop :=
  ∀ backend now ev, op = .enqueue backend now ev → ev ∈ E

/-- Two versions of a row that hold the same event under the same key. -/
structure SameEvent (row row' : Row) : Prop where
  key : row'.key = row.key
  payload : row'.payload = row.payload

/-- No operation changes what the rows of a queue decode to. -/
theorem decode_run (hC : C.Lawful) (h : Intact C q) {op : Op} (hop : op.run C q = .ok q') {id : Int}
    (hrow : q.events.rows.lookup id = some row) :
    decodePayload C q'.content.objects row.payload =
      decodePayload C q.content.objects row.payload := by
  cases op with
  | enqueue backend now ev =>
    obtain ⟨u, hop⟩ := except_map_snd_ok hop
    exact decode_grow hC h (enqueue_sub hC h hop) hrow
  | collect scan limit =>
    cases hop
    exact decode_collect hC h scan limit hrow
  | publish path first rest pushed =>
    obtain ⟨u, hop⟩ := except_map_snd_ok hop
    obtain ⟨-, -, range, hm⟩ := publish_ok hop
    rw [hm.content]
  | markPushed | markFailed | requeueIn | deleteEventFrom | bookkeeping => cases hop; rfl

/-- The rows of a queue and their summaries were there before, but for the status. -/
structure KeepsRows (q q' : Db) : Prop where
  row : ∀ id row', q'.events.rows.lookup id = some row' → ∃ row,
    q.events.rows.lookup id = some row ∧ SameEvent row row' ∧
      (row'.status = row.status ∨ row'.status = 0 ∨ row'.status = 2 ∨ row'.status = 3)
  summary : ∀ key s, q'.summary.lookup key = some s → q.summary.lookup key = some s

theorem KeepsRows.of_sub
    (hrow : ∀ id row, q'.events.rows.lookup id = some row → q.events.rows.lookup id = some row)
    (hsummary : ∀ key s, q'.summary.lookup key = some s → q.summary.lookup key = some s) :
    KeepsRows q q' :=
  ⟨fun id row h => ⟨row, hrow id row h, ⟨rfl, rfl⟩, .inl rfl⟩, hsummary⟩

theorem keepsRows_update {p : Row → Bool} {set : Row → Row} (hset : ∀ r, (set r).key = r.key)
    (hpayload : ∀ r, (set r).payload = r.payload)
    (hstatus : ∀ r, (set r).status = 0 ∨ (set r).status = 2 ∨ (set r).status = 3) :
    KeepsRows q { q with events := q.events.update p set hset } := by
  refine ⟨fun id row' hrow' => ?_, fun _ _ hs => hs⟩
  obtain ⟨row, hrow, rfl⟩ := (lookup_eventQueue_update hset).mp hrow'
  refine ⟨row, hrow, ?_⟩
  split_ifs
  · exact ⟨⟨hset row, hpayload row⟩, .inr (hstatus row)⟩
  · exact ⟨⟨rfl, rfl⟩, .inl rfl⟩

/-- Only `Enqueue` brings a row into a queue. -/
theorem run_cases {op : Op} (hop : op.run C q = .ok q') :
    (∃ backend now ev u, op = .enqueue backend now ev ∧ enqueue C backend now ev q = .ok (u, q')) ∨
      KeepsRows q q' := by
  cases op with
  | enqueue backend now ev =>
    obtain ⟨u, hop⟩ := except_map_snd_ok hop
    exact .inl ⟨backend, now, ev, u, rfl, hop⟩
  | markPushed eventID rev now =>
    cases hop
    exact .inr (keepsRows_update _ (fun _ => rfl) fun _ => .inr (.inl rfl))
  | markFailed eventID rev msg now =>
    cases hop
    exact .inr (keepsRows_update _ (fun _ => rfl) fun _ => .inr (.inr rfl))
  | requeueIn eventID now =>
    cases hop
    exact .inr (keepsRows_update _ (fun _ => rfl) fun _ => .inl rfl)
  | deleteEventFrom eventID =>
    cases hop
    exact .inr (.of_sub (fun id row h => (Table.lookup_deleteWhere.mp h).1)
      fun key s h => (Table.lookup_deleteWhere.mp h).1)
  | collect scan limit =>
    cases hop
    obtain ⟨content, hcontent⟩ := collect_content scan limit q
    rw [hcontent]
    exact .inr (.of_sub (fun _ _ h => h) fun _ _ h => h)
  | publish path first rest pushed =>
    obtain ⟨u, hop⟩ := except_map_snd_ok hop
    obtain ⟨-, -, range, hm⟩ := publish_ok hop
    exact .inr (.of_sub (fun id row h => ((hm.rows id row).mp h).1)
      fun key s h => ((hm.summary key s).mp h).1)
  | bookkeeping pending metadata seq =>
    cases hop
    exact .inr (.of_sub (fun _ _ h => h) fun _ _ h => h)

/-- Reads the texts of some events, as `json.Unmarshal` does. -/
def readEvents (events : List ThreatEvent) (b : Bytes) : Option ThreatEvent :=
  (events.find? fun ev => marshal Plain.json ev.toValue == some b).bind fun ev =>
    ThreatEvent.ofValue Plain.json ev.toValue

theorem readsEvents_of_distinct {events : List ThreatEvent}
    (h : events.Pairwise fun x y => marshal Plain.json x.toValue ≠ marshal Plain.json y.toValue) :
    ∀ ev ∈ events, (Plain.codec (readEvents events)).ReadsEvent ev := by
  intro ev hev b hb
  replace hb : marshal Plain.json ev.toValue = some b := hb
  change readEvents events b = ThreatEvent.ofValue Plain.json ev.toValue
  have hfind : events.find? (fun ev => marshal Plain.json ev.toValue == some b) = some ev := by
    induction h with
    | nil => cases hev
    | cons hne _ ih =>
      rcases List.mem_cons.mp hev with rfl | hrest
      · exact List.find?_cons_of_pos (beq_iff_eq.mpr hb)
      · refine (List.find?_cons_of_neg fun heq => ?_).trans (ih hrest)
        exact hne ev hrest ((beq_iff_eq.mp heq).trans hb.symm)
  rw [readEvents, hfind]
  rfl

end TaNode.Queue

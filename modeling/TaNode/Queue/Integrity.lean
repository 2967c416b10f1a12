import TaNode.Queue.Closure
import TaNode.Queue.Db
import TaNode.Schemes.Graph
import TaNode.Schemes.Runs

/-! Reference integrity of whole databases, under every operation.

    A database is intact when its content tables are closed, every manifest in `event_queue` has its
    root registered, and every registered root is stored. The world is the set of all databases the
    program works with: live queues, archive segments and migration targets. Records are copied from
    one to another; everything else happens inside one database.

        event_queue ──payload──▶ root ──queue_edges──▶ node ──▶ … ──▶ chunk
             └──event_id──▶ queue_roots ──hash──▲

    Garbage collection removes nodes that are neither roots nor referenced, so what a root reaches
    survives it (`collect_keeps_live`). -/

namespace TaNode.Queue

variable {C : Codec}
variable {q : EventQueue} {row : Row} {db db' : Db} {u : Unit} {ev : ThreatEvent} {payload : Bytes}
  {root path : String} {backend : Backend} {r : Record} {rs : List Record}

structure Intact (C : Codec) (db : Db) : Prop where
  closed : db.content.Closed C
  /-- a row with a manifest has its root registered under its key -/
  rooted : ∀ id row root, db.events.rows.lookup id = some row → payloadRoot C row.payload = .ok root →
    root ≠ "" → db.roots.lookup row.key = some root
  root_has : ∀ key root, db.roots.lookup key = some root → db.content.Has root

/-! ### Operations on rows -/

theorem lookup_eventQueue_update {p : Row → Bool} {set : Row → Row}
    (hset : ∀ r, (set r).key = r.key) {id : Int} :
    (q.update p set hset).rows.lookup id = some row ↔
      ∃ r, q.rows.lookup id = some r ∧ row = if p r then set r else r := by
  show ((q.rows.update fun _ r => if p r then set r else r).lookup id = some row) ↔ _
  rw [Table.lookup_update, Option.map_eq_some_iff]
  simp only [eq_comm]

section
variable (h : Intact C db)
include h

/-- An update that leaves keys and payloads alone. -/
theorem intact_update {p : Row → Bool} {set : Row → Row} (hset : ∀ r, (set r).key = r.key)
    (hpay : ∀ r, (set r).payload = r.payload) :
    Intact C { db with events := db.events.update p set hset } := by
  refine ⟨h.closed, fun id row root hrow hroot hne => ?_, h.root_has⟩
  obtain ⟨r, hr, rfl⟩ := (lookup_eventQueue_update hset).mp hrow
  have hk : (if p r then set r else r).key = r.key := by split_ifs <;> simp [hset]
  have hp : (if p r then set r else r).payload = r.payload := by split_ifs <;> simp [hpay]
  rw [hp] at hroot
  rw [hk]
  exact h.rooted id r root hr hroot hne

theorem intact_markPushed (eventID : String) (rev : Nat) (now : Int) :
    Intact C (markPushed eventID rev now db) := intact_update h _ fun _ => rfl

theorem intact_markFailed (eventID : String) (rev : Nat) (msg : String) (now : Int) :
    Intact C (markFailed eventID rev msg now db) := intact_update h _ fun _ => rfl

theorem intact_requeueIn (eventID : String) (now : Int) :
    Intact C (requeueIn eventID now db).2 := intact_update h _ fun _ => rfl

/-- The rows of an event go together with their roots. -/
theorem intact_deleteEventFrom (eventID : String) : Intact C (deleteEventFrom eventID db).2 := by
  refine ⟨h.closed, fun id row root hrow hroot hne => ?_, fun key root hr => ?_⟩
  · obtain ⟨hrow, hkeep⟩ := Table.lookup_deleteWhere.mp hrow
    exact Table.lookup_deleteWhere.mpr ⟨h.rooted id row root hrow hroot hne, hkeep⟩
  · exact h.root_has key root (Table.lookup_deleteWhere.mp hr).1

/-! ### Inserting -/

/-- The content tables may grow. -/
theorem intact_content {content : Store} (hc : content.Closed C)
    (hsub : Table.Sub db.content.objects content.objects) :
    Intact C { db with content := content } :=
  ⟨hc, h.rooted, fun key root hr => (h.root_has key root hr).mono hsub⟩

end

theorem insertRow_ok {insert : EventQueue → Except Err EventQueue} {time : Nat}
    (h : insertRow insert time db = .ok (u, db')) :
    time < 2 ^ 63 ∧ ∃ q, insert db.events = .ok q ∧ db' = { db with events := q } := by
  unfold insertRow at h
  split_ifs at h with ht
  obtain ⟨q, hq, h⟩ := except_bind_ok.mp h
  rw [except_pure_ok, Prod.mk.injEq] at h
  exact ⟨by omega, q, hq, h.2.symm⟩

theorem insertNew_ok {q' : EventQueue} (h : q.insertNew row = .ok q') :
    q.hasKey row.key = false ∧ q'.rows = q.rows.insert (q.seq + 1) row ∧
      q'.seq = max q.seq (q.seq + 1) := by
  unfold EventQueue.insertNew at h
  split_ifs at h with hkey hfull
  cases h
  exact ⟨hkey, rfl, rfl⟩

theorem insertWithId_ok {q' : EventQueue} {id : Int} (h : q.insertWithId id row = .ok q') :
    q.hasKey row.key = false ∧ q.rows.lookup id = none ∧ q'.rows = q.rows.insert id row ∧
      q'.seq = max q.seq id := by
  unfold EventQueue.insertWithId at h
  split_ifs at h with hkey
  split at h
  · next hid => cases h; exact ⟨hkey, hid, rfl, rfl⟩
  · simp at h

theorem saveSummary_ok {key : String} (h : saveSummary C key ev db = .ok (u, db')) :
    ∃ b, marshal C.toJson (summarize ev).toValue = some b ∧
      db' = { db with summary := db.summary.insert key b } := by
  unfold saveSummary at h
  cases hm : marshal C.toJson (summarize ev).toValue with
  | none => rw [hm] at h; simp at h
  | some b => rw [hm, Tx.modify_ok] at h; exact ⟨b, rfl, h⟩

theorem registerRoot_ok {key : String} (h : registerRoot C key payload db = .ok (u, db')) :
    ∃ root, payloadRoot C payload = .ok root ∧
      db' = { db with roots := if root = "" then db.roots else db.roots.insert key root } := by
  unfold registerRoot at h
  obtain ⟨root, hroot, h⟩ := Tx.lift_bind_ok.mp h
  refine ⟨root, hroot, ?_⟩
  split_ifs at h ⊢ with hempty
  · rw [Tx.pure_ok] at h; exact h.2.symm
  · rw [Tx.modify_ok] at h; exact h

/-- A new row whose root is stored and registered. -/
theorem intact_insert (h : Intact C db) {id : Int} (hkey : db.events.hasKey row.key = false)
    (hcontent : db'.content = db.content) (hrows : db'.events.rows = db.events.rows.insert id row)
    (hroot : payloadRoot C row.payload = .ok root) (hhas : root ≠ "" → db.content.Has root)
    (hroots : db'.roots = if root = "" then db.roots else db.roots.insert row.key root) :
    Intact C db' := by
  have hother : ∀ i r, db.events.rows.lookup i = some r → r.key ≠ row.key := by
    intro i r hr he
    rw [Bool.eq_false_iff, Ne, EventQueue.hasKey_iff] at hkey
    exact hkey ⟨i, r, hr, he⟩
  refine ⟨hcontent ▸ h.closed, fun i r root' hr hroot' hne => ?_, fun key root' hr => ?_⟩
  · rw [hrows, Table.lookup_insert_iff] at hr
    rw [hroots]
    rcases hr with ⟨rfl, rfl⟩ | ⟨-, hr⟩
    · rw [hroot] at hroot'
      cases hroot'
      rw [if_neg hne, AList.lookup_insert]
    · have hold := h.rooted i r root' hr hroot' hne
      split_ifs
      · exact hold
      · rw [AList.lookup_insert_ne (hother i r hr)]; exact hold
  · rw [hcontent]
    rw [hroots] at hr
    split_ifs at hr with hempty
    · exact h.root_has key root' hr
    · rw [Table.lookup_insert_iff] at hr
      rcases hr with ⟨-, rfl⟩ | ⟨-, hr⟩
      · exact hhas hempty
      · exact h.root_has key root' hr

/-- The payload of an event is its text, or what the encoder makes of it. -/
theorem newPayload_cases (hop : newPayload C backend ev db = .ok (payload, db')) :
    marshal C.toJson ev.toValue = some payload ∧ db' = db ∨ ∃ content,
      encodePayload C ev.toValue db.content = .ok (payload, content) ∧
        db' = { db with content := content } := by
  unfold newPayload at hop
  cases backend with
  | legacy =>
    cases hm : marshal C.toJson ev.toValue with
    | none => simp [hm] at hop
    | some b =>
      simp only [hm, Except.ok.injEq, Prod.mk.injEq] at hop
      exact .inl ⟨by rw [hop.1], hop.2.symm⟩
  | v2 =>
    obtain ⟨⟨p, content⟩, henc, hop⟩ := except_bind_ok.mp hop
    rw [except_pure_ok, Prod.mk.injEq] at hop
    obtain ⟨rfl, rfl⟩ := hop
    exact .inr ⟨content, henc, rfl⟩

/-- Storing the payload touches the content tables only. -/
theorem newPayload_content (hop : newPayload C backend ev db = .ok (payload, db')) :
    db' = { db with content := db'.content } := by
  rcases newPayload_cases hop with ⟨-, rfl⟩ | ⟨content, -, rfl⟩
  · rfl
  · rfl

/-- The text of an event is no manifest. -/
theorem payloadRoot_event (hC : C.Lawful) {b : Bytes} (hb : marshal C.toJson ev.toValue = some b)
    (hroot : payloadRoot C b = .ok root) : root = "" := by
  unfold payloadRoot at hroot
  cases hu : C.unmarshalManifest b with
  | none => rw [hu] at hroot; cases hroot
  | some m =>
    rw [hu] at hroot
    simp only [hC.unmarshalManifest_event ev b m hb hu, if_true, Except.ok.injEq] at hroot
    exact hroot.symm

theorem newPayload_stored (hC : C.Lawful) (h : Intact C db)
    (hop : newPayload C backend ev db = .ok (payload, db')) :
    PayloadStored C db.content db'.content payload := by
  rcases newPayload_cases hop with ⟨hm, rfl⟩ | ⟨content, henc, rfl⟩
  · exact ⟨h.closed, Table.Sub.refl _, fun root hr hne => absurd (payloadRoot_event hC hm hr) hne⟩
  · exact encodePayload_stored hC h.closed henc

/-- What `Enqueue` does to a record that is neither archived nor queued. -/
structure Enqueued (C : Codec) (backend : Backend) (now : Int) (ev : ThreatEvent) (db db' : Db) :
    Prop where
  archived : db.archived.lookup (queueRecordID ev.eventID ev.contextRevision) = none
  queued : db.events.hasKey (queueRecordID ev.eventID ev.contextRevision) = false
  inserted : ∃ payload db₁ root q b, newPayload C backend ev db = .ok (payload, db₁) ∧
    payloadRoot C payload = .ok root ∧ db₁.events.insertNew (newRow now ev payload) = .ok q ∧
    marshal C.toJson (summarize ev).toValue = some b ∧
    db' = { db₁ with
      events := q
      summary := db₁.summary.insert (queueRecordID ev.eventID ev.contextRevision) b
      roots := if root = "" then db₁.roots
        else db₁.roots.insert (queueRecordID ev.eventID ev.contextRevision) root }

/-- The two ways `Enqueue` returns without an error. -/
theorem enqueue_ok {now : Int} (h : enqueue C backend now ev db = .ok (u, db')) :
    (db' = db ∧ ((db.archived.lookup (queueRecordID ev.eventID ev.contextRevision)).isSome ∨
      db.events.hasKey (queueRecordID ev.eventID ev.contextRevision) = true)) ∨
    Enqueued C backend now ev db db' := by
  unfold enqueue at h
  rw [Tx.get_bind_ok] at h
  split_ifs at h with harch hqueued
  · rw [Tx.pure_ok] at h
    exact Or.inl ⟨h.2.symm, Or.inl harch⟩
  · rw [Tx.pure_ok] at h
    exact Or.inl ⟨h.2.symm, Or.inr hqueued⟩
  · obtain ⟨payload, db₁, hpay, h⟩ := Tx.bind_ok.mp h
    obtain ⟨⟨⟩, db₂, hins, h⟩ := Tx.bind_ok.mp h
    obtain ⟨⟨⟩, db₃, hsum, h⟩ := Tx.bind_ok.mp h
    obtain ⟨-, q, hq, rfl⟩ := insertRow_ok hins
    obtain ⟨b, hb, rfl⟩ := saveSummary_ok hsum
    obtain ⟨root, hroot, rfl⟩ := registerRoot_ok h
    exact Or.inr ⟨by simpa using harch, by simpa using hqueued, payload, db₁, root, q, b, hpay, hroot,
      hq, hb, rfl⟩

theorem intact_enqueue (hC : C.Lawful) (h : Intact C db) {now : Int}
    (hop : enqueue C backend now ev db = .ok (u, db')) : Intact C db' := by
  rcases enqueue_ok hop with ⟨rfl, -⟩ | ⟨-, -, payload, db₁, root, q, b, hpay, hroot, hq, -, rfl⟩
  · exact h
  · have hstored := newPayload_stored hC h hpay
    obtain ⟨hkey, hrows, -⟩ := insertNew_ok hq
    rw [newPayload_content hpay] at hkey hrows ⊢
    exact intact_insert (intact_content h hstored.closed hstored.sub) hkey rfl hrows hroot
      (fun hne => hstored.root root hroot hne) rfl

/-- A payload that decodes has its root stored. -/
theorem has_root_of_decode {s : Store} {out : Bytes} (hroot : payloadRoot C payload = .ok root)
    (hne : root ≠ "") (h : decodePayload C s.objects payload = .ok out) : s.Has root := by
  unfold decodePayload at h
  obtain ⟨root', hroot', h⟩ := except_bind_ok.mp h
  rw [hroot] at hroot'
  cases hroot'
  rw [if_neg hne, render, if_neg hne, if_neg (by simp)] at h
  obtain ⟨raw, hread, -⟩ := except_bind_ok.mp h
  exact has_of_read hread

theorem readPayload_ok (h : readPayload C payload db = .ok (ev, db')) :
    db' = db ∧ ∃ b, decodePayload C db.content.objects payload = .ok b ∧
      C.unmarshalEvent b = some ev := by
  unfold readPayload at h
  obtain ⟨b, hb, h⟩ := except_bind_ok.mp h
  split at h
  · simp at h
  · next ev' hev =>
    simp only [Except.ok.injEq, Prod.mk.injEq] at h
    exact ⟨h.2.symm, b, hb, by rw [hev, h.1]⟩

/-- What `insertRecord` does: the row is added, and its root is registered once it decodes. -/
theorem insertRecord_ok (h : insertRecord C r db = .ok (u, db')) : ∃ q out root b,
      db.events.insertWithId r.id r.toRow = .ok q ∧
      decodePayload C db.content.objects r.payload = .ok out ∧
      payloadRoot C r.payload = .ok root ∧
      (∃ ev, C.unmarshalEvent out = some ev ∧ marshal C.toJson (summarize ev).toValue = some b) ∧
      db' = { db with
        events := q, summary := db.summary.insert r.key b,
        roots := if root = "" then db.roots else db.roots.insert r.key root } := by
  unfold insertRecord at h
  obtain ⟨⟨⟩, db₁, hins, h⟩ := Tx.bind_ok.mp h
  obtain ⟨ev, db₂, hread, h⟩ := Tx.bind_ok.mp h
  obtain ⟨⟨⟩, db₃, hsum, h⟩ := Tx.bind_ok.mp h
  obtain ⟨-, q, hq, rfl⟩ := insertRow_ok hins
  obtain ⟨rfl, out, hout, hev⟩ := readPayload_ok hread
  obtain ⟨b, hb, rfl⟩ := saveSummary_ok hsum
  obtain ⟨root, hroot, rfl⟩ := registerRoot_ok h
  exact ⟨q, out, root, b, hq, hout, hroot, ⟨ev, hev, hb⟩, rfl⟩

theorem intact_insertRecord (h : Intact C db) (hop : insertRecord C r db = .ok (u, db')) :
    Intact C db' := by
  obtain ⟨q, out, root, b, hq, hout, hroot, -, rfl⟩ := insertRecord_ok hop
  obtain ⟨hkey, -, hrows, -⟩ := insertWithId_ok hq
  exact intact_insert h hkey rfl hrows hroot (fun hne => has_root_of_decode hroot hne hout) rfl

/-- A copy stores the payload first, then the record with its new payload. -/
theorem copyRecord_ok {src : Table String Stored} (h : copyRecord C src r db = .ok (u, db')) :
    ∃ payload content, copyPayload C src r.payload db.content = .ok (payload, content) ∧
      insertRecord C { r with payload := payload } { db with content := content } = .ok (u, db') := by
  unfold copyRecord at h
  obtain ⟨payload, db₁, hcopy, h⟩ := Tx.bind_ok.mp h
  obtain ⟨⟨p, content⟩, hc, hcopy⟩ := except_bind_ok.mp hcopy
  rw [except_pure_ok, Prod.mk.injEq] at hcopy
  obtain ⟨rfl, rfl⟩ := hcopy
  exact ⟨p, content, hc, h⟩

theorem intact_copyRecord (hC : C.Lawful) (h : Intact C db) {src : Store} (hsrc : src.Closed C)
    (hop : copyRecord C src.objects r db = .ok (u, db')) : Intact C db' := by
  obtain ⟨payload, content, hc, hins⟩ := copyRecord_ok hop
  have hstored := copyPayload_stored hC hsrc h.closed hc
  exact intact_insertRecord (intact_content h hstored.closed hstored.sub) hins

/-! ### Publishing -/

/-- The fields `Archive` compares before it moves a record. -/
structure Unchanged (r : Record) (row : Row) : Prop where
  key : row.key = r.key
  status : row.status = r.status
  retry : row.retry = r.retry
  error : row.error.getD "" = r.error
  created : row.created.getD 0 = r.created
  updated : row.updated.getD 0 = r.updated

theorem checkCurrent_ok (h : checkCurrent r db = .ok (u, db')) :
    db' = db ∧ ∃ row, db.events.rows.lookup r.id = some row ∧ Unchanged r row := by
  unfold checkCurrent at h
  rw [Tx.get_bind_ok] at h
  cases hl : db.events.rows.lookup r.id with
  | none => rw [hl] at h; simp at h
  | some row =>
    rw [hl] at h
    simp only at h
    split_ifs at h with hdiff
    · simp at h
    · rw [Tx.pure_ok] at h
      push Not at hdiff
      obtain ⟨h1, h2, h3, h4, h5, h6⟩ := hdiff
      exact ⟨h.2.symm, row, rfl, h1, h2, h3, h6, h5, h4⟩

theorem checkCurrent_loop (h : (rs.forM checkCurrent) db = .ok (u, db')) :
    db' = db ∧ ∀ r ∈ rs, ∃ row, db.events.rows.lookup r.id = some row ∧ Unchanged r row := by
  induction rs generalizing db with
  | nil =>
    rw [List.forM_eq_forM, List.forM_nil, Tx.pure_ok] at h
    exact ⟨h.2.symm, by simp⟩
  | cons r rs ih =>
    obtain ⟨db₁, h₁, h₂⟩ := Tx.forM_cons_ok.mp h
    obtain ⟨rfl, hr⟩ := checkCurrent_ok h₁
    obtain ⟨rfl, hrs⟩ := ih h₂
    exact ⟨rfl, List.forall_mem_cons.mpr ⟨hr, hrs⟩⟩

/-- What moving out the records `rs` does to each table. -/
structure MovedOut (path : String) (rs : List Record) (db db' : Db) : Prop where
  content : db'.content = db.content
  archives : db'.archives = db.archives
  pending : db'.pending = db.pending
  seq : db'.events.seq = db.events.seq
  rows : ∀ id row, db'.events.rows.lookup id = some row ↔
    db.events.rows.lookup id = some row ∧ ∀ r ∈ rs, ¬(r.id = id ∧ row.status = 2)
  roots : ∀ key root, db'.roots.lookup key = some root ↔
    db.roots.lookup key = some root ∧ ∀ r ∈ rs, r.key ≠ key
  archived : ∀ key loc, db'.archived.lookup key = some loc ↔
    db.archived.lookup key = some loc ∨ ∃ r ∈ rs, r.key = key ∧ loc = (path, r.id)
  summary : ∀ key b, db'.summary.lookup key = some b ↔
    db.summary.lookup key = some b ∧ ∀ r ∈ rs, r.key ≠ key

theorem lookup_erase_iff {κ ν : Type} [DecidableEq κ] {t : Table κ ν} {k k' : κ} {v : ν} :
    (t.erase k).lookup k' = some v ↔ k' ≠ k ∧ t.lookup k' = some v := by
  by_cases h : k' = k
  · subst h; simp [AList.lookup_erase]
  · rw [AList.lookup_erase_ne h]; simp [h]

theorem moveOut_ok (h : moveOut path r db = .ok (u, db')) :
    db.archived.lookup r.key = none ∧ MovedOut path [r] db db' := by
  unfold moveOut at h
  rw [Tx.get_bind_ok] at h
  split_ifs at h with hdup
  · simp at h
  rw [Tx.modify_ok] at h
  have hnone : db.archived.lookup r.key = none := by simpa using hdup
  subst h
  refine ⟨hnone, rfl, rfl, rfl, rfl, fun id row => ?_, fun key root => ?_, fun key loc => ?_,
    fun key b => ?_⟩
  · show (Table.deleteWhere _ _).lookup id = some row ↔ _
    rw [Table.lookup_deleteWhere, List.forall_mem_singleton, Bool.and_eq_false_iff]
    simp only [beq_eq_false_iff_ne, ne_comm (a := id), not_and_or]
  · show (db.roots.erase r.key).lookup key = some root ↔ _
    rw [lookup_erase_iff, List.forall_mem_singleton, and_comm, ne_comm]
  · show (db.archived.insert r.key (path, r.id)).lookup key = some loc ↔ _
    rw [Table.lookup_insert_iff]
    by_cases hk : key = r.key
    · subst hk; simp [hnone]
    · simp [hk, Ne.symm hk]
  · show (db.summary.erase r.key).lookup key = some b ↔ _
    rw [lookup_erase_iff, List.forall_mem_singleton, and_comm, ne_comm]

theorem MovedOut.trans {db₁ db₂ : Db} (h₁ : MovedOut path [r] db db₁)
    (h₂ : MovedOut path rs db₁ db₂) : MovedOut path (r :: rs) db db₂ := by
  refine ⟨h₂.content.trans h₁.content, h₂.archives.trans h₁.archives, h₂.pending.trans h₁.pending,
    h₂.seq.trans h₁.seq, fun id row => ?_, fun key root => ?_, fun key loc => ?_, fun key b => ?_⟩
  · rw [h₂.rows, h₁.rows]; simp [and_assoc]
  · rw [h₂.roots, h₁.roots]; simp [and_assoc]
  · rw [h₂.archived, h₁.archived]; simp [or_assoc]
  · rw [h₂.summary, h₁.summary]; simp [and_assoc]

theorem moveOut_loop (h : (rs.forM (moveOut path)) db = .ok (u, db')) :
    MovedOut path rs db db' := by
  induction rs generalizing db with
  | nil =>
    rw [List.forM_eq_forM, List.forM_nil, Tx.pure_ok] at h
    obtain ⟨-, rfl⟩ := h
    exact ⟨rfl, rfl, rfl, rfl, by simp, by simp, by simp, by simp⟩
  | cons r rs ih =>
    obtain ⟨db₁, h₁, h₂⟩ := Tx.forM_cons_ok.mp h
    exact (moveOut_ok h₁).2.trans (ih h₂)

/-- The publication transaction: the records are as they were selected, the segment is cataloged,
    and the records are moved out. -/
theorem publish_ok {first : Record} {rest : List Record}
    (h : publish path first rest db = .ok (u, db')) :
    (∀ r ∈ first :: rest, ∃ row, db.events.rows.lookup r.id = some row ∧ Unchanged r row) ∧
      db.archives.lookup path = none ∧
      ∃ range, MovedOut path (first :: rest)
        { db with archives := db.archives.insert path range } db' := by
  unfold publish at h
  obtain ⟨⟨⟩, db₁, hcheck, h⟩ := Tx.bind_ok.mp h
  obtain ⟨⟨⟩, db₂, harch, hmove⟩ := Tx.bind_ok.mp h
  obtain ⟨rfl, hcur⟩ := checkCurrent_loop hcheck
  unfold insertArchive at harch
  rw [Tx.get_bind_ok] at harch
  split_ifs at harch with hdup
  · simp at harch
  · rw [Tx.modify_ok] at harch
    subst harch
    exact ⟨hcur, by simpa using hdup, _, moveOut_loop hmove⟩

/-- Moving pushed records out takes each row together with its root. -/
theorem intact_publish (h : Intact C db) {first : Record} {rest : List Record}
    (hpushed : ∀ r ∈ first :: rest, r.status = 2) (hop : publish path first rest db = .ok (u, db')) :
    Intact C db' := by
  obtain ⟨hcur, -, range, hm⟩ := publish_ok hop
  refine ⟨hm.content ▸ h.closed, fun id row root hrow hroot hne => ?_, fun key root hr => ?_⟩
  · obtain ⟨hold, hkeep⟩ := (hm.rows id row).mp hrow
    refine (hm.roots row.key root).mpr ⟨h.rooted id row root hold hroot hne, fun r hr he => ?_⟩
    -- the only row with that key is the record's own, and it has status 2
    obtain ⟨row', hrow', hun⟩ := hcur r hr
    have hid : r.id = id := db.events.unique _ _ _ _ hrow' hold (by rw [hun.key, he])
    subst hid
    rw [hold] at hrow'
    cases hrow'
    exact hkeep r hr ⟨rfl, by rw [hun.status, hpushed r hr]⟩
  · rw [hm.content]
    exact h.root_has key root ((hm.roots key root).mp hr).1

/-! ### Collecting -/

/-- The reference graph of a database. -/
def Db.graph (db : Db) : RefGraph String where
  node := db.content.Has
  edge p c := (p, c) ∈ db.content.edges
  root h := ∃ key, db.roots.lookup key = some h

theorem graph_closed (h : Intact C db) : db.graph.Closed where
  root_node x := fun ⟨key, hx⟩ => h.root_has key x hx
  source := h.closed.parent
  target p c hpc := by
    obtain ⟨n, hn⟩ := h.closed.node p (h.closed.parent p c hpc)
    exact hn.children c ((hn.edges c).mp hpc)

theorem garbage_of_unreferenced {id : String} (h : unreferenced db id = true) :
    db.graph.Garbage id := by
  simp only [unreferenced, Bool.and_eq_true, Bool.not_eq_true', decide_eq_true_eq] at h
  obtain ⟨⟨-, hroot⟩, hedge⟩ := h
  refine ⟨fun ⟨key, hkey⟩ => ?_, fun p hp => hedge (p, id) hp rfl⟩
  have : db.roots.entries.any (fun e => e.2 == id) = true :=
    (Table.any_iff (p := fun (_ : String) (h : String) => h == id)).mpr ⟨key, id, hkey, by simp⟩
  rw [this] at hroot
  simp at hroot

/-- Deleting a node is removing it from the graph. -/
theorem graph_removeNode (db : Db) (id : String) : (removeNode db id).graph = db.graph.remove id := by
  simp only [Db.graph, RefGraph.remove, RefGraph.mk.injEq]
  refine ⟨?_, ?_, rfl⟩
  · funext y
    simp only [Store.Has, removeNode, lookup_erase_iff, exists_and_left, and_comm]
  · funext p c
    simp [removeNode]

theorem intact_removeNode (h : Intact C db) {id : String} (hg : db.graph.Garbage id) :
    Intact C (removeNode db id) := by
  have hclosed := (graph_closed h).remove hg
  rw [← graph_removeNode] at hclosed
  have hlookup : ∀ x, x ≠ id → (removeNode db id).content.objects.lookup x =
      db.content.objects.lookup x := fun x hx => AList.lookup_erase_ne hx
  refine ⟨⟨fun x hx => ?_, hclosed.source⟩, h.rooted, fun key root hr =>
    hclosed.root_node root ⟨key, hr⟩⟩
  obtain ⟨row, hrow⟩ := hx
  obtain ⟨hne, hrow'⟩ := lookup_erase_iff.mp hrow
  obtain ⟨n, ⟨raw, hread, hraw⟩, hwf, hedges, hchildren⟩ := h.closed.node x ⟨row, hrow'⟩
  have hedge : ∀ c, (x, c) ∈ (removeNode db id).content.edges ↔ c ∈ nodeRefs n := by
    intro c
    show (x, c) ∈ Finset.filter _ _ ↔ _
    rw [Finset.mem_filter, hedges]
    simp [hne]
  refine ⟨n, ⟨raw, ?_, hraw⟩, hwf, hedge, fun c hc => hclosed.target x c ((hedge c).mpr hc)⟩
  unfold readObject at hread ⊢
  rw [hlookup x hne]
  exact hread

/-- One pass: every node on the list stays unreferenced while the others go. -/
theorem collect_fold : ∀ {ids : List String}, Intact C db →
    (∀ id ∈ ids, db.graph.Garbage id) → Intact C (ids.foldl removeNode db) ∧
      ∀ x, db.graph.Live x → (ids.foldl removeNode db).graph.Live x ∧
        (ids.foldl removeNode db).content.objects.lookup x = db.content.objects.lookup x := by
  intro ids
  induction ids generalizing db with
  | nil => exact fun h _ => ⟨h, fun x hx => ⟨hx, rfl⟩⟩
  | cons id ids ih =>
    intro h hg
    have hid := hg id (by simp)
    have hrest : ∀ y ∈ ids, (removeNode db id).graph.Garbage y := by
      intro y hy
      obtain ⟨hr, he⟩ := hg y (List.mem_cons_of_mem _ hy)
      rw [graph_removeNode]
      exact ⟨hr, fun p hp => he p hp.1⟩
    obtain ⟨hint, hlive⟩ := ih (intact_removeNode h hid) hrest
    refine ⟨hint, fun x hx => ?_⟩
    have hx' : (removeNode db id).graph.Live x := by rw [graph_removeNode]; exact hx.remove hid
    obtain ⟨hl, hsame⟩ := hlive x hx'
    exact ⟨hl, hsame.trans (AList.lookup_erase_ne (hx.ne_garbage hid))⟩

theorem collectPass_spec (h : Intact C db) (scan : Store → List String) (limit : Nat) :
    Intact C (collectPass scan limit db).2 ∧
      ∀ x, db.graph.Live x → (collectPass scan limit db).2.graph.Live x ∧
        (collectPass scan limit db).2.content.objects.lookup x = db.content.objects.lookup x := by
  refine collect_fold h fun id hid => garbage_of_unreferenced ?_
  exact (List.mem_filter.mp (List.mem_of_mem_take hid)).2

theorem collectLoop_spec (scan : Store → List String) : ∀ (fuel limit : Nat) {db : Db},
    Intact C db → Intact C (collectLoop scan fuel limit db).2 ∧
      ∀ x, db.graph.Live x → (collectLoop scan fuel limit db).2.graph.Live x ∧
        (collectLoop scan fuel limit db).2.content.objects.lookup x = db.content.objects.lookup x
  | 0, limit, db, h => ⟨h, fun x hx => ⟨hx, rfl⟩⟩
  | fuel + 1, limit, db, h => by
    obtain ⟨hp, hlive⟩ := collectPass_spec h scan limit
    obtain ⟨hl, hlive'⟩ := collectLoop_spec scan fuel (limit - (collectPass scan limit db).1) hp
    unfold collectLoop
    split_ifs with hzero
    · exact ⟨h, fun x hx => ⟨hx, rfl⟩⟩
    · simp only
      split_ifs with hnone
      · exact ⟨h, fun x hx => ⟨hx, rfl⟩⟩
      · refine ⟨hl, fun x hx => ?_⟩
        obtain ⟨hx₁, he₁⟩ := hlive x hx
        obtain ⟨hx₂, he₂⟩ := hlive' x hx₁
        exact ⟨hx₂, he₂.trans he₁⟩

/-- Collecting touches the content tables only. -/
theorem collect_content (scan : Store → List String) (limit : Int) (db : Db) :
    ∃ content, (collect scan limit db).2 = { db with content := content } := by
  have hfold : ∀ (ids : List String) (db : Db),
      ∃ content, ids.foldl removeNode db = { db with content := content } := by
    intro ids
    induction ids with
    | nil => exact fun db => ⟨db.content, rfl⟩
    | cons id ids ih =>
      intro db
      obtain ⟨content, hc⟩ := ih (removeNode db id)
      exact ⟨content, hc⟩
  have hloop : ∀ (fuel limit : Nat) (db : Db),
      ∃ content, (collectLoop scan fuel limit db).2 = { db with content := content } := by
    intro fuel
    induction fuel with
    | zero => exact fun _ db => ⟨db.content, rfl⟩
    | succ fuel ih =>
      intro limit db
      unfold collectLoop
      split_ifs
      · exact ⟨db.content, rfl⟩
      · simp only
        split_ifs
        · exact ⟨db.content, rfl⟩
        · obtain ⟨c, hc⟩ := hfold (((scan db.content).filter (unreferenced db)).take limit) db
          obtain ⟨c', hc'⟩ := ih (limit - (collectPass scan limit db).1) (collectPass scan limit db).2
          refine ⟨c', hc'.trans ?_⟩
          show { (collectPass scan limit db).2 with content := c' } = _
          rw [show (collectPass scan limit db).2 = { db with content := c } from hc]
  exact hloop _ _ db

/-- Collecting keeps the database intact and every live object as it was. -/
theorem collect_keeps_live (h : Intact C db) (scan : Store → List String) (limit : Int) :
    Intact C (collect scan limit db).2 ∧ ∀ x, db.graph.Live x →
        (collect scan limit db).2.content.objects.lookup x = db.content.objects.lookup x := by
  obtain ⟨hi, hl⟩ := collectLoop_spec (C := C) scan _ _ h
  exact ⟨hi, fun x hx => (hl x hx).2⟩

/-! ### The world -/

/-- An operation on one database. -/
inductive Op where
  | enqueue (backend : Backend) (now : Int) (ev : ThreatEvent)
  | markPushed (eventID : String) (contextRevision : Nat) (now : Int)
  | markFailed (eventID : String) (contextRevision : Nat) (errMsg : String) (now : Int)
  | requeueIn (eventID : String) (now : Int)
  | deleteEventFrom (eventID : String)
  | collect (scan : Store → List String) (limit : Int)
  /-- the publication of `Archive`; its `SELECT` has found only pushed records -/
  | publish (path : String) (first : Record) (rest : List Record)
      (pushed : ∀ r ∈ first :: rest, r.status = 2)
  /-- archive intents, migration cursors and the row id sequence -/
  | bookkeeping (pending : Table String Unit) (metadata : Table String String) (seq : Int)

def Op.run (C : Codec) : Op → Db → Except Err Db
  | .enqueue backend now ev, db => (Queue.enqueue C backend now ev db).map Prod.snd
  | .markPushed eventID rev now, db => .ok (Queue.markPushed eventID rev now db)
  | .markFailed eventID rev msg now, db => .ok (Queue.markFailed eventID rev msg now db)
  | .requeueIn eventID now, db => .ok (Queue.requeueIn eventID now db).2
  | .deleteEventFrom eventID, db => .ok (Queue.deleteEventFrom eventID db).2
  | .collect scan limit, db => .ok (Queue.collect scan limit db).2
  | .publish path first rest _, db => (Queue.publish path first rest db).map Prod.snd
  | .bookkeeping pending metadata seq, db =>
    .ok { db with
      pending := pending, metadata := metadata, events := db.events.raiseSeq seq }

theorem except_map_snd_ok {α β : Type} {x : Except Err (α × β)} {b : β}
    (h : x.map Prod.snd = .ok b) : ∃ a, x = .ok (a, b) := by
  cases x with
  | error e => simp [Except.map] at h
  | ok p =>
    simp only [Except.map, Except.ok.injEq] at h
    exact ⟨p.1, by rw [← h]⟩

theorem intact_run (hC : C.Lawful) (h : Intact C db) {op : Op} (hop : op.run C db = .ok db') :
    Intact C db' := by
  cases op with
  | enqueue backend now ev =>
    obtain ⟨u, hop⟩ := except_map_snd_ok hop
    exact intact_enqueue hC h hop
  | markPushed eventID rev now => cases hop; exact intact_markPushed h _ _ _
  | markFailed eventID rev msg now => cases hop; exact intact_markFailed h _ _ _ _
  | requeueIn eventID now => cases hop; exact intact_requeueIn h _ _
  | deleteEventFrom eventID => cases hop; exact intact_deleteEventFrom h _
  | collect scan limit => cases hop; exact (collect_keeps_live h scan limit).1
  | publish path first rest pushed =>
    obtain ⟨u, hop⟩ := except_map_snd_ok hop
    exact intact_publish h pushed hop
  | bookkeeping pending metadata seq => cases hop; exact ⟨h.closed, h.rooted, h.root_has⟩

/-- All databases, by file. -/
abbrev World := String → Db

/-- A database without content tables entries, whose rows, if any, hold legacy JSON. -/
structure Legacy (C : Codec) (db : Db) : Prop where
  content : db.content = {}
  roots : db.roots = ∅
  rows : ∀ id row root, db.events.rows.lookup id = some row →
    payloadRoot C row.payload = .ok root → root = ""

/-- One committed transaction somewhere in the world; one that fails changes nothing. -/
inductive Step (C : Codec) : World → World → Prop
  | op {w : World} {db : Db} (name : String) (op : Op) (h : op.run C (w name) = .ok db) :
      Step C w (Function.update w name db)
  /-- a record of one database is copied into another, an archive segment or a migration target -/
  | copyRecord {w : World} {db : Db} {u : Unit} (src dst : String) (id : Int) (row : Row)
      (hrow : (w src).events.rows.lookup id = some row)
      (h : Queue.copyRecord C (w src).content.objects (scanRecord id row) (w dst) = .ok (u, db)) :
      Step C w (Function.update w dst db)
  /-- a record is inserted as it is, as the migration to the legacy backend does -/
  | insertRecord {w : World} {db : Db} {u : Unit} (dst : String) (r : Record)
      (h : Queue.insertRecord C r (w dst) = .ok (u, db)) : Step C w (Function.update w dst db)

theorem intact_legacy (h : Legacy C db) : Intact C db := by
  refine ⟨?_, fun id row root hrow hroot hne => absurd (h.rows id row root hrow hroot) hne, ?_⟩
  · rw [h.content]
    exact ⟨fun id ⟨row, hrow⟩ => by simp at hrow, fun p c hpc => by simp at hpc⟩
  · intro key root hr
    rw [h.roots] at hr
    simp at hr

theorem intact_newDb : Intact C newDb := intact_legacy ⟨rfl, rfl, by simp [newDb]⟩

theorem intact_world (hC : C.Lawful) {w : World}
    (hw : Reachable (fun w => ∀ name, Legacy C (w name)) (Step C) w) : ∀ name, Intact C (w name) := by
  refine Reachable.invariant (fun w h name => intact_legacy (h name))
    (fun w w' h hstep name => ?_) hw
  have hupdate : ∀ dst db, Intact C db → Intact C (Function.update w dst db name) := by
    intro dst db hdb
    by_cases he : name = dst
    · subst he; rw [Function.update_self]; exact hdb
    · rw [Function.update_of_ne he]; exact h name
  cases hstep with
  | op dst op hop => exact hupdate _ _ (intact_run hC (h dst) hop)
  | copyRecord src dst id row hrow hop =>
    exact hupdate _ _ (intact_copyRecord hC (h dst) (h src).closed hop)
  | insertRecord dst r hop => exact hupdate _ _ (intact_insertRecord (h dst) hop)

/-- The payload of a row of an intact database decodes or fails for another reason than a missing
    object. -/
theorem Intact.decode_found (hC : C.Lawful) (h : Intact C db) {id : Int}
    (hrow : db.events.rows.lookup id = some row) :
    Found (decodePayload C db.content.objects row.payload) :=
  decodePayload_found hC h.closed fun root hr hne =>
    h.root_has _ _ (h.rooted id row root hrow hr hne)

theorem loadEvent_notMissing (hC : C.Lawful) (h : Intact C db) (id : Int) :
    NotMissing (loadEvent C id db) := by
  unfold loadEvent
  cases hl : db.events.rows.lookup id with
  | none => simp [NotMissing]
  | some row =>
    refine Found.notMissing ((h.decode_found hC hl).bind fun b _ => ?_)
    split <;> simp [Err.isMissing]

/-- **Reference integrity.** In every reachable world every database is intact: manifests are
    rooted, and nodes have exactly their edges and children. So no event fails to load for want of
    content, and collecting never touches what a root reaches. -/
theorem reachable_intact (hC : C.Lawful) {w : World}
    (hw : Reachable (fun w => ∀ name, Legacy C (w name)) (Step C) w) (name : String) :
    Intact C (w name) ∧
    (∀ id raw n, readObject C (w name).content.objects id = .ok raw → decodeNode C raw = .ok n →
      (∀ c, (id, c) ∈ (w name).content.edges ↔ c ∈ nodeRefs n) ∧
        ∀ c ∈ nodeRefs n, (w name).content.Has c) ∧
    (∀ id, NotMissing (loadEvent C id (w name))) ∧
    ∀ scan limit x, (w name).graph.Live x → (w name).content.Has x ∧
      (collect scan limit (w name)).2.content.objects.lookup x =
        (w name).content.objects.lookup x := by
  have h := intact_world hC hw name
  exact ⟨h, fun id raw n hread hdec => (decoded_refs hC h.closed hread hdec).2,
    loadEvent_notMissing hC h, fun scan limit x hx =>
      ⟨(graph_closed h).live_node hx, (collect_keeps_live h scan limit).2 x hx⟩⟩

/-- A small event; its whole text becomes the root node. -/
def smallEvent : ThreatEvent := { eventID := "e1", eventTime := 7 }

/-- Revision `n` of it. -/
def revision (n : Nat) : ThreatEvent := { smallEvent with contextRevision := n }

/-- Reads the text of the small event. -/
def smallCodec : Codec := Plain.codec fun b =>
  if marshal Plain.json smallEvent.toValue = some b then some smallEvent else none

/-- A packet of 64 bytes, enough to be stored as a chunk. -/
def samplePacket : RawPacketContext := { packetHex := .join (List.replicate 16 "0a0b0c0d") }

def packetEvent : ThreatEvent := { eventID := "e1", eventTime := 7, rawPacket := some samplePacket }

/-- An event with the same packet and a text that is stored as a chunk, too. -/
def sharingEvent : ThreatEvent :=
  { packetEvent with eventID := "e2", iocDescription := .ofList (List.replicate 128 'd') }

/-- The two events are enqueued into an empty queue, the second one is deleted. -/
def sharedRun (C : Codec) : Except Err (Db × Db) := do
  let db ← Op.run C (.enqueue .v2 1 packetEvent) newDb
  let db ← Op.run C (.enqueue .v2 2 sharingEvent) db
  return (db, (deleteEventFrom "e2" db).2)

theorem reachable_sharedRun {db deleted : Db} (h : sharedRun C = .ok (db, deleted)) :
    Reachable (fun w => ∀ name, Legacy C (w name)) (Step C)
      (Function.update (fun _ => newDb) "queue.db" deleted) := by
  obtain ⟨db₁, h₁, hrest⟩ := except_bind_ok.mp h
  obtain ⟨db₂, h₂, hrest⟩ := except_bind_ok.mp hrest
  cases hrest
  have hfirst : Reachable (fun w => ∀ name, Legacy C (w name)) (Step C)
      (Function.update (fun _ => newDb) "queue.db" db₁) :=
    .next (.start fun _ => ⟨rfl, rfl, by simp [newDb]⟩) (.op "queue.db" _ h₁)
  have hsecond := hfirst.next (.op "queue.db" (.enqueue .v2 2 sharingEvent) h₂)
  rw [Function.update_idem] at hsecond
  have hthird := hsecond.next (.op "queue.db" (.deleteEventFrom "e2") rfl)
  rwa [Function.update_self, Function.update_idem] at hthird

/-- Of the seven nodes the collection leaves the four of the first event, three of which were shared. -/
theorem reachable_intact_shared : ∃ db deleted,
    sharedRun (Plain.codec fun _ => none) = .ok (db, deleted) ∧
    db.content.objects.keys.length = 7 ∧ db.content.edges.card = 6 ∧
    (collect (·.objects.keys) 10 deleted).2.content.objects.keys.length = 4 ∧
    Intact (Plain.codec fun _ => none) (collect (·.objects.keys) 10 deleted).2 := by
  have hrun : (sharedRun (Plain.codec fun _ => none)).toOption.map (fun p =>
      (p.1.content.objects.keys.length, p.1.content.edges.card,
        (collect (·.objects.keys) 10 p.2).2.content.objects.keys.length)) = some (7, 6, 4) := by
    decide +kernel
  obtain ⟨⟨db, deleted⟩, hok, hlen⟩ := Option.map_eq_some_iff.mp hrun
  rw [except_toOption_some] at hok
  simp only [Prod.mk.injEq] at hlen
  obtain ⟨hall, hedges, hleft⟩ := hlen
  refine ⟨db, deleted, hok, hall, hedges, hleft, ?_⟩
  have hcollected := (reachable_sharedRun hok).next (.op "queue.db" (.collect (·.objects.keys) 10) rfl)
  have hint := (reachable_intact (Plain.codec_lawful _) hcollected "queue.db").1
  rwa [Function.update_self, Function.update_self] at hint

end TaNode.Queue

import Mathlib.Algebra.BigOperators.Ring.Finset
import TaNode.Queue.Carry
import TaNode.Queue.Shard
import TaNode.Schemes.Rounds

/-! The push worker on one queue file: `drain` after `drain`, until every event is pushed or has used
    up its retries.

    A drain reads the ids of the first pending rows, loads each event, sends it, and marks the row
    by the key of the event it has loaded:

        PendingIDs ─▶ LoadEvent ─┬─▶ PushEvent ─┬─▶ MarkPushed        status 2
                                 │              └─▶ MarkFailed        one retry less
                                 └─▶ error: logged, next id           nothing changes

    A row that loads costs an attempt each time it is visited, so the rounds come to an end. One
    that does not load stays in front of the queue for ever, and takes a place in every batch. -/

namespace TaNode.Queue

variable {db db' : Db} {ev : ThreatEvent} {set : Row → Row} {row : Row} {maxRetry : Int}

/-- What `PushEvent` returns, and the clock when it does. -/
structure Response where
  error : Option String
  now : Int

/-- The queue, how many events have been sent, and the rows they came from. -/
structure Pushing where
  db : Db
  calls : Nat := 0
  sent : List Int := []

def pendingIDs (maxRetry limit : Int) (db : Db) : List Int :=
  (pendingEntries maxRetry limit db).map Prod.fst

def sendOne (r : Response) (ev : ThreatEvent) (db : Db) : Db :=
  match r.error with
  | some msg => markFailed ev.eventID ev.contextRevision msg r.now db
  | none => markPushed ev.eventID ev.contextRevision r.now db

section
variable (C : Codec) (responses : Nat → Response)

/-- The body of the loop of `drain`; the `n`-th event sent gets the response `responses n`. -/
def drainOne (s : Pushing) (id : Int) : Pushing :=
  match loadEvent C id s.db with
  | .error _ => s
  | .ok ev =>
    { db := sendOne (responses s.calls) ev s.db, calls := s.calls + 1, sent := s.sent ++ [id] }

def drain (maxRetry batch : Int) (s : Pushing) : Pushing :=
  (pendingIDs maxRetry batch s.db).foldl (drainOne C responses) s

/-- The worker after `n` drains. -/
def drains (maxRetry batch : Int) (db : Db) : Nat → Pushing
  | 0 => { db := db }
  | n + 1 => drain C responses maxRetry batch (drains maxRetry batch db n)

end

/-- The retries left in all pending rows. -/
def budget (maxRetry : Int) (db : Db) : Int :=
  ((db.events.select (isPending maxRetry)).map fun e => maxRetry - e.2.retry).sum

/-- Pushing comes to an end, whatever the endpoint answers. -/
structure PushingEnds (C : Codec) (maxRetry batch : Int) (db : Db) : Prop where
  /-- a drain that has something to do uses up retries -/
  decreases : ∀ responses n,
    pendingIDs maxRetry batch (drains C responses maxRetry batch db n).db ≠ [] →
    budget maxRetry (drains C responses maxRetry batch db (n + 1)).db <
      budget maxRetry (drains C responses maxRetry batch db n).db
  /-- no row is sent more often than it has retries left -/
  sends : ∀ responses n id row, db.events.rows.lookup id = some row →
    (drains C responses maxRetry batch db n).sent.count id ≤ (maxRetry - row.retry).toNat
  /-- every row is pushed or has used up its retries in the end -/
  settles : ∀ responses, ∃ N, ∀ n ≥ N, ∀ id row,
    (drains C responses maxRetry batch db n).db.events.rows.lookup id = some row →
    row.status = 2 ∨ maxRetry ≤ row.retry

/-- Every pending row loads. -/
def PendingLoads (C : Codec) (maxRetry : Int) (db : Db) : Prop :=
  ∀ id row, db.events.rows.lookup id = some row → isPending maxRetry row = true →
    ∃ ev, loadEvent C id db = .ok ev

/-! ### The states of a queue -/

/-- The rows of a queue carry their own key: what a row loads as is marked under the key of that row.
    And every row is pending, pushed or failed. -/
structure OwnRows (C : Codec) (db : Db) : Prop where
  key : ∀ id row ev, db.events.rows.lookup id = some row → loadEvent C id db = .ok ev →
    queueRecordID ev.eventID ev.contextRevision = row.key
  status : ∀ id row, db.events.rows.lookup id = some row →
    row.status = 0 ∨ row.status = 2 ∨ row.status = 3

/-- One operation on the queue; the events that are enqueued are taken from `E`. -/
def QueueStep (C : Codec) (E : Set ThreatEvent) (db db' : Db) : Prop :=
  ∃ op : Op, op.From E ∧ op.run C db = .ok db'

variable {C : Codec}

theorem loadEvent_ok {id : Int} :
    loadEvent C id db = .ok ev ↔ ∃ row b, db.events.rows.lookup id = some row ∧
      decodePayload C db.content.objects row.payload = .ok b ∧ C.unmarshalEvent b = some ev := by
  rw [loadEvent]
  cases db.events.rows.lookup id with
  | none => simp
  | some row =>
    simp only [except_bind_ok, Option.some.injEq]
    constructor
    · rintro ⟨b, hb, h⟩
      cases hu : C.unmarshalEvent b with
      | none => rw [hu] at h; cases h
      | some ev' => rw [hu] at h; cases h; exact ⟨row, b, rfl, hb, hu⟩
    · rintro ⟨_, b, rfl, hb, hu⟩
      exact ⟨b, hb, by rw [hu]⟩

/-- Rows that stay what they are stay their own. -/
theorem OwnRows.of_rows (h : OwnRows C db) (hkeeps : KeepsRows db db')
    (hdecode : ∀ id row, db.events.rows.lookup id = some row →
      decodePayload C db'.content.objects row.payload =
        decodePayload C db.content.objects row.payload) :
    OwnRows C db' := by
  refine ⟨fun id row' ev hrow' hload => ?_, fun id row' hrow' => ?_⟩
  · obtain ⟨row, hrow, hsame, -⟩ := hkeeps.row id row' hrow'
    obtain ⟨_, b, hl, hb, hev⟩ := loadEvent_ok.mp hload
    rw [hrow'] at hl
    cases hl
    rw [hsame.payload, hdecode id row hrow] at hb
    rw [h.key id row ev hrow (loadEvent_ok.mpr ⟨row, b, hrow, hb, hev⟩), hsame.key]
  · obtain ⟨row, hrow, -, hstatus⟩ := hkeeps.row id row' hrow'
    rcases hstatus with hstatus | hstatus
    · rw [hstatus]
      exact h.status id row hrow
    · exact hstatus

/-- A new row loads, if it does, as the event it was made from. -/
theorem OwnRows.enqueue (hC : C.Reads) (hi : Intact C db) (h : OwnRows C db) {backend : Backend}
    {now : Int} {u : Unit} (hread : C.ReadsEvent ev)
    (hop : enqueue C backend now ev db = .ok (u, db')) : OwnRows C db' := by
  have hsub := enqueue_sub hC.lawful hi hop
  rcases enqueue_ok hop with ⟨rfl, -⟩ | ⟨-, -, payload, db₁, root, q, b, hpay, hroot, hq, -, rfl⟩
  · exact h
  obtain ⟨-, hrows, -⟩ := insertNew_ok hq
  rw [newPayload_content hpay] at hrows
  have hold : ∀ id row', q.rows.lookup id = some row' →
      row' = newRow now ev payload ∨ db.events.rows.lookup id = some row' := by
    intro id row' hrow'
    rw [hrows, Table.lookup_insert_iff] at hrow'
    exact hrow'.imp And.right And.right
  refine ⟨fun id row' ev' hrow' hload => ?_, fun id row' hrow' => ?_⟩
  · obtain ⟨_, b, hl, hb, hev⟩ := loadEvent_ok.mp hload
    rw [hrow'] at hl
    cases hl
    rcases hold id row' hrow' with rfl | hrow
    · have hsame := (ThreatEvent.summarize_ofValue (hread.event (newPayload_honest hC hpay hb) hev)).1
      exact queueRecordID_congr hsame
    · rw [decode_grow hC.lawful hi hsub hrow] at hb
      exact h.key id row' ev' hrow (loadEvent_ok.mpr ⟨row', b, hrow, hb, hev⟩)
  · rcases hold id row' hrow' with rfl | hrow
    · exact .inl rfl
    · exact h.status id row' hrow

theorem OwnRows.run (hC : C.Reads) (hi : Intact C db) (h : OwnRows C db) {op : Op}
    (hread : ∀ backend now ev, op = .enqueue backend now ev → C.ReadsEvent ev)
    (hop : op.run C db = .ok db') : OwnRows C db' := by
  rcases run_cases hop with ⟨backend, now, ev, u, rfl, henqueue⟩ | hkeeps
  · exact h.enqueue hC hi (hread backend now ev rfl) henqueue
  · exact h.of_rows hkeeps fun id row => decode_run hC.lawful hi hop

/-- The rows of a queue stay their own. -/
theorem ownRows_reachable (hC : C.Reads) {E : Set ThreatEvent} (hE : ∀ ev ∈ E, C.ReadsEvent ev)
    (h : Reachable (fun db => Legacy C db ∧ OwnRows C db) (QueueStep C E) db) :
    Intact C db ∧ OwnRows C db := by
  have hstep : ∀ db db', Intact C db ∧ OwnRows C db → QueueStep C E db db' →
      Intact C db' ∧ OwnRows C db' := by
    rintro db db' ⟨hi, ho⟩ ⟨op, hin, hop⟩
    refine ⟨intact_run hC.lawful hi hop, ho.run hC hi (fun backend now ev he => ?_) hop⟩
    exact hE ev (hin backend now ev he)
  exact h.invariant (fun db hdb => ⟨intact_legacy hdb.1, hdb.2⟩) hstep

/-! ### One drain -/

/-- What a response does to the row it is about. -/
def Response.mark (r : Response) (row : Row) : Row :=
  match r.error with
  | some msg =>
    { row with status := 3, retry := row.retry + 1, error := some msg, updated := some r.now }
  | none => { row with status := 2, error := some "", updated := some r.now }

theorem Response.mark_status (r : Response) (row : Row) : (r.mark row).status = 2 ∨
    (r.mark row).status = 3 ∧ (r.mark row).retry = row.retry + 1 := by
  rw [mark]
  cases r.error with
  | none => exact .inl rfl
  | some msg => exact .inr ⟨rfl, rfl⟩

/-- Keys are unique, so an update by key is an update of one row. -/
theorem lookup_updateKey {key : String} {hset : ∀ r, (set r).key = r.key} {id : Int}
    (hrow : db.events.rows.lookup id = some row) (hkey : row.key = key) (id' : Int) :
    (db.updateKey key set hset).events.rows.lookup id' =
      if id' = id then some (set row) else db.events.rows.lookup id' := by
  have hupdate : (db.updateKey key set hset).events.rows.lookup id' =
      (db.events.rows.lookup id').map fun r => if r.key == key then set r else r :=
    Table.lookup_update
  rw [hupdate]
  split_ifs with hid
  · rw [hid, hrow, Option.map_some, if_pos (beq_iff_eq.mpr hkey)]
  · cases hl : db.events.rows.lookup id' with
    | none => rfl
    | some r =>
      have hne : (r.key == key) = false := by
        rw [beq_eq_false_iff_ne]
        intro he
        exact hid (db.events.unique id' id r row hl hrow (he.trans hkey.symm))
      rw [Option.map_some, hne]
      rfl

section
variable {db : Db} {id : Int} {row : Row} {ev : ThreatEvent} (r : Response)

theorem lookup_sendOne (hrow : db.events.rows.lookup id = some row)
    (hkey : queueRecordID ev.eventID ev.contextRevision = row.key) (id' : Int) :
    (sendOne r ev db).events.rows.lookup id' =
      if id' = id then some (r.mark row) else db.events.rows.lookup id' := by
  rw [sendOne, Response.mark]
  cases r.error with
  | none | some => exact lookup_updateKey hrow hkey.symm id'

theorem loadEvent_updateKey {key : String} {hset : ∀ r, (set r).key = r.key}
    (hpayload : ∀ r, (set r).payload = r.payload) (id : Int) :
    loadEvent C id (db.updateKey key set hset) = loadEvent C id db := by
  have hupdate : (db.updateKey key set hset).events.rows.lookup id =
      (db.events.rows.lookup id).map fun r => if r.key == key then set r else r :=
    Table.lookup_update
  rw [loadEvent, loadEvent, hupdate]
  cases db.events.rows.lookup id with
  | none => rfl
  | some r =>
    have hsame : (if (r.key == key) = true then set r else r).payload = r.payload := by
      split_ifs
      · exact hpayload r
      · rfl
    simp only [Option.map_some, hsame]
    rfl

/-- Marking a row changes nothing that loading looks at. -/
theorem loadEvent_sendOne (id : Int) : loadEvent C id (sendOne r ev db) = loadEvent C id db := by
  rw [sendOne]
  cases r.error with
  | none =>
    simp only [markPushed]
    exact loadEvent_updateKey (by intro row; rfl) id
  | some msg =>
    simp only [markFailed]
    exact loadEvent_updateKey (by intro row; rfl) id

theorem OwnRows.sendOne (h : OwnRows C db) : OwnRows C (sendOne r ev db) := by
  rw [Queue.sendOne]
  cases r.error with
  | none =>
    exact h.of_rows (keepsRows_update _ (fun _ => rfl) fun _ => .inr (.inl rfl)) fun _ _ _ => rfl
  | some msg =>
    exact h.of_rows (keepsRows_update _ (fun _ => rfl) fun _ => .inr (.inr rfl)) fun _ _ _ => rfl

end

/-- What visiting the rows `ids` does: those that load are marked, once each, and nothing else
    changes. -/
structure Visited (C : Codec) (ids : List Int) (s s' : Pushing) : Prop where
  own : OwnRows C s'.db
  load : ∀ id, loadEvent C id s'.db = loadEvent C id s.db
  marked : ∀ id ∈ ids, ∀ row ev, s.db.events.rows.lookup id = some row →
    loadEvent C id s.db = .ok ev → ∃ r : Response, s'.db.events.rows.lookup id = some (r.mark row)
  failed : ∀ id e, loadEvent C id s.db = .error e →
    s'.db.events.rows.lookup id = s.db.events.rows.lookup id
  other : ∀ id, id ∉ ids → s'.db.events.rows.lookup id = s.db.events.rows.lookup id
  sent : s'.sent = s.sent ++ ids.filter fun id => (loadEvent C id s.db).isOk

variable {s s' s'' : Pushing}

theorem visited_nil (h : OwnRows C s.db) : Visited C [] s s :=
  ⟨h, fun _ => rfl, by simp, fun _ _ _ => rfl, fun _ _ => rfl, by simp⟩

theorem visited_one (responses : Nat → Response) (h : OwnRows C s.db) (id : Int) :
    Visited C [id] s (drainOne C responses s id) := by
  rw [drainOne]
  cases hload : loadEvent C id s.db with
  | error e =>
    refine ⟨h, fun _ => rfl, ?_, fun _ _ _ => rfl, fun _ _ => rfl, ?_⟩
    · intro id' hid' row ev hrow hev
      rw [List.mem_singleton.mp hid', hload] at hev
      cases hev
    · simp [hload, Except.isOk, Except.toBool]
  | ok ev =>
    obtain ⟨row, b, hrow, hb, hev⟩ := loadEvent_ok.mp hload
    have hkey := h.key id row ev hrow hload
    refine ⟨h.sendOne _, fun id' => loadEvent_sendOne _ id', ?_, ?_, ?_, ?_⟩
    · intro id' hid' row' ev' hrow' _
      rw [List.mem_singleton.mp hid'] at hrow' ⊢
      rw [hrow] at hrow'
      cases hrow'
      exact ⟨_, by rw [lookup_sendOne _ hrow hkey, if_pos rfl]⟩
    · intro id' e he
      have hne : id' ≠ id := by
        rintro rfl
        rw [hload] at he
        cases he
      rw [lookup_sendOne _ hrow hkey, if_neg hne]
    · intro id' hid'
      rw [lookup_sendOne _ hrow hkey, if_neg (by simpa using hid')]
    · simp [hload, Except.isOk, Except.toBool]

theorem Visited.cons {id : Int} {ids : List Int} (hid : id ∉ ids) (h₁ : Visited C [id] s s')
    (h₂ : Visited C ids s' s'') : Visited C (id :: ids) s s'' := by
  refine ⟨h₂.own, fun i => (h₂.load i).trans (h₁.load i), ?_, ?_, ?_, ?_⟩
  · intro i hi row ev hrow hev
    rcases List.mem_cons.mp hi with rfl | hi
    · obtain ⟨r, hr⟩ := h₁.marked i (List.mem_singleton_self i) row ev hrow hev
      exact ⟨r, by rw [h₂.other i hid, hr]⟩
    · have hne : i ∉ [id] := by
        rw [List.mem_singleton]
        intro he
        exact hid (he ▸ hi)
      exact h₂.marked i hi row ev ((h₁.other i hne).trans hrow) ((h₁.load i).trans hev)
  · intro i e he
    rw [h₂.failed i e ((h₁.load i).trans he), h₁.failed i e he]
  · intro i hi
    rw [List.mem_cons, not_or] at hi
    rw [h₂.other i hi.2, h₁.other i (by simpa using hi.1)]
  · have hsame : (ids.filter fun i => (loadEvent C i s'.db).isOk) =
        ids.filter fun i => (loadEvent C i s.db).isOk :=
      List.filter_congr fun i _ => by rw [h₁.load i]
    rw [h₂.sent, h₁.sent, hsame, List.append_assoc, ← List.filter_append]
    rfl

theorem visited_foldl (responses : Nat → Response) : ∀ {ids : List Int} {s : Pushing},
    OwnRows C s.db → ids.Nodup → Visited C ids s (ids.foldl (drainOne C responses) s)
  | [], _, h, _ => visited_nil h
  | id :: ids, s, h, hnodup => by
    obtain ⟨hid, hnodup⟩ := List.nodup_cons.mp hnodup
    have hone := visited_one responses h id
    exact hone.cons hid (visited_foldl responses hone.own hnodup)

/-! ### All drains -/

theorem pendingIDs_nodup (maxRetry limit : Int) (db : Db) : (pendingIDs maxRetry limit db).Nodup := by
  have hids : pendingIDs maxRetry limit db =
      ((db.events.select (isPending maxRetry)).take (pendingLimit limit)).map (·.1) := by
    rw [pendingIDs, pendingEntries, List.map_map]
    rfl
  rw [hids, List.map_take]
  exact (List.take_sublist _ _).nodup (select_ids _ _)

theorem mem_pendingIDs {limit : Int} {id : Int} (h : id ∈ pendingIDs maxRetry limit db) :
    ∃ row, db.events.rows.lookup id = some row ∧ isPending maxRetry row = true := by
  obtain ⟨e, he, rfl⟩ := List.mem_map.mp h
  exact mem_pendingEntries he

/-- There is something to do as long as a row is pending. -/
theorem pendingIDs_ne_nil {limit : Int} {id : Int} (hrow : db.events.rows.lookup id = some row)
    (hpending : isPending maxRetry row = true) : pendingIDs maxRetry limit db ≠ [] := by
  have hmem : (⟨id, row⟩ : (_ : Int) × Row) ∈ db.events.select (isPending maxRetry) :=
    mem_select.mpr ⟨hrow, hpending⟩
  have hlimit : pendingLimit limit ≠ 0 := by
    rw [pendingLimit]
    split_ifs with hle
    · decide
    · omega
  rw [pendingIDs, pendingEntries]
  simp only [ne_eq, List.map_eq_nil_iff, List.take_eq_nil_iff, hlimit, false_or]
  exact List.ne_nil_of_mem hmem

theorem isPending_iff (hpos : 0 < maxRetry) :
    isPending maxRetry row = true ↔ (row.status = 0 ∨ row.status = 3) ∧ row.retry < maxRetry := by
  have hcap : ¬maxRetry ≤ 0 := by omega
  simp [isPending, hcap]

/-- The attempts a row has left: none when it is not pending. -/
def attempts (maxRetry : Int) : Option Row → Nat
  | none => 0
  | some row => if isPending maxRetry row then (maxRetry - row.retry).toNat else 0

theorem pending_of_attempts {found : Option Row} (h : attempts maxRetry found ≠ 0) :
    ∃ row, found = some row ∧ isPending maxRetry row = true := by
  cases found with
  | none => exact absurd rfl h
  | some row =>
    refine ⟨row, rfl, ?_⟩
    by_contra hnot
    rw [attempts, if_neg hnot] at h
    exact h rfl

theorem attempts_mark (hpos : 0 < maxRetry) (hpending : isPending maxRetry row = true)
    (r : Response) : attempts maxRetry (some (r.mark row)) < attempts maxRetry (some row) := by
  have hretry := ((isPending_iff hpos).mp hpending).2
  rw [attempts, attempts, if_pos hpending]
  split_ifs with hmarked
  · obtain ⟨hstatus, hless⟩ := (isPending_iff hpos).mp hmarked
    rcases r.mark_status row with hpushed | ⟨-, hnext⟩
    · omega
    · omega
  · omega

section
variable (responses : Nat → Response) (maxRetry batch : Int) {db : Db}

theorem own_drains (h : OwnRows C db) : ∀ n, OwnRows C (drains C responses maxRetry batch db n).db
  | 0 => h
  | n + 1 => (visited_foldl responses (own_drains h n) (pendingIDs_nodup _ _ _)).own

/-- What the drain after `n` others does. -/
theorem visited_drains (h : OwnRows C db) (n : Nat) :
    Visited C (pendingIDs maxRetry batch (drains C responses maxRetry batch db n).db)
      (drains C responses maxRetry batch db n) (drains C responses maxRetry batch db (n + 1)) :=
  visited_foldl responses (own_drains responses maxRetry batch h n) (pendingIDs_nodup _ _ _)

theorem load_drains (h : OwnRows C db) (id : Int) : ∀ n,
    loadEvent C id (drains C responses maxRetry batch db n).db = loadEvent C id db
  | 0 => rfl
  | n + 1 => ((visited_drains responses maxRetry batch h n).load id).trans (load_drains h id n)

/-- A row that does not load is never marked. -/
theorem stuck_drains (h : OwnRows C db) {id : Int} {e : Err} (he : loadEvent C id db = .error e) :
    ∀ n, (drains C responses maxRetry batch db n).db.events.rows.lookup id =
      db.events.rows.lookup id
  | 0 => rfl
  | n + 1 => by
    have hload := (load_drains responses maxRetry batch h id n).trans he
    rw [(visited_drains responses maxRetry batch h n).failed id e hload, stuck_drains h he n]

theorem pendingLoads_drains (hpos : 0 < maxRetry) (h : OwnRows C db)
    (hloads : PendingLoads C maxRetry db) :
    ∀ n, PendingLoads C maxRetry (drains C responses maxRetry batch db n).db
  | 0 => hloads
  | n + 1 => by
    have ih := pendingLoads_drains hpos h hloads n
    have hvisit := visited_drains responses maxRetry batch h n
    intro id row hrow hpending
    rw [hvisit.load id]
    by_cases hid : id ∈ pendingIDs maxRetry batch (drains C responses maxRetry batch db n).db
    · obtain ⟨row', hrow', hpending'⟩ := mem_pendingIDs hid
      exact ih id row' hrow' hpending'
    · rw [hvisit.other id hid] at hrow
      exact ih id row hrow hpending

/-- A drain is a round: it serves the pending rows in its window. -/
theorem round_drains (hpos : 0 < maxRetry) (h : OwnRows C db) (hloads : PendingLoads C maxRetry db)
    (n : Nat) : Round (fun id => attempts maxRetry
        ((drains C responses maxRetry batch db n).db.events.rows.lookup id))
      (fun id => attempts maxRetry
        ((drains C responses maxRetry batch db (n + 1)).db.events.rows.lookup id))
      (pendingIDs maxRetry batch (drains C responses maxRetry batch db n).db) where
  nodup := pendingIDs_nodup _ _ _
  spent id hid := by
    obtain ⟨row, hrow, hpending⟩ := mem_pendingIDs hid
    obtain ⟨ev, hev⟩ :=
      pendingLoads_drains responses maxRetry batch hpos h hloads n id row hrow hpending
    obtain ⟨r, hr⟩ := (visited_drains responses maxRetry batch h n).marked id hid row ev hrow hev
    rw [hrow, hr]
    exact attempts_mark hpos hpending r
  kept id hid := by rw [(visited_drains responses maxRetry batch h n).other id hid]

theorem sent_drains (hpos : 0 < maxRetry) (h : OwnRows C db) (hloads : PendingLoads C maxRetry db) :
    ∀ n, (drains C responses maxRetry batch db n).sent = (List.range n).flatMap fun k =>
      pendingIDs maxRetry batch (drains C responses maxRetry batch db k).db
  | 0 => rfl
  | n + 1 => by
    have hall : ∀ id ∈ pendingIDs maxRetry batch (drains C responses maxRetry batch db n).db,
        (loadEvent C id (drains C responses maxRetry batch db n).db).isOk = true := by
      intro id hid
      obtain ⟨row, hrow, hpending⟩ := mem_pendingIDs hid
      exact except_isOk.mpr
        (pendingLoads_drains responses maxRetry batch hpos h hloads n id row hrow hpending)
    rw [(visited_drains responses maxRetry batch h n).sent, List.filter_eq_self.mpr hall,
      sent_drains hpos h hloads n, List.range_succ, List.flatMap_append, List.flatMap_singleton]

/-- Drains neither add nor remove rows. -/
theorem rows_drains (h : OwnRows C db) (id : Int) : ∀ n,
    ((drains C responses maxRetry batch db n).db.events.rows.lookup id).isSome =
      (db.events.rows.lookup id).isSome
  | 0 => rfl
  | n + 1 => by
    have hvisit := visited_drains responses maxRetry batch h n
    rw [← rows_drains h id n]
    by_cases hid : id ∈ pendingIDs maxRetry batch (drains C responses maxRetry batch db n).db
    · obtain ⟨row, hrow, -⟩ := mem_pendingIDs hid
      cases hload : loadEvent C id (drains C responses maxRetry batch db n).db with
      | error e => rw [hvisit.failed id e hload]
      | ok ev =>
        obtain ⟨r, hr⟩ := hvisit.marked id hid row ev hrow hload
        rw [hr, hrow]
        rfl
    · rw [hvisit.other id hid]

end

theorem sum_filter {α : Type} (p : α → Bool) (f : α → Int) (l : List α) :
    ((l.filter p).map f).sum = (l.map fun a => if p a then f a else 0).sum := by
  simp [List.sum_map_ite]

/-- The budget is the sum of the attempts of all rows. -/
theorem budget_eq (hpos : 0 < maxRetry) {jobs : Finset Int}
    (hjobs : ∀ id, (db.events.rows.lookup id).isSome → id ∈ jobs) :
    budget maxRetry db = ∑ id ∈ jobs, (attempts maxRetry (db.events.rows.lookup id) : Int) := by
  have hlist : budget maxRetry db = ((db.events.rows.keys).map fun id =>
      (attempts maxRetry (db.events.rows.lookup id) : Int)).sum := by
    rw [budget, EventQueue.select, ((List.perm_insertionSort _ _).map _).sum_eq, sum_filter,
      AList.keys, List.keys, List.map_map]
    refine congrArg List.sum (List.map_congr_left fun e he => ?_)
    rw [Function.comp_apply, Table.lookup_eq_some_iff.mpr he, attempts]
    cases hpending : isPending maxRetry e.2 with
    | true =>
      have := ((isPending_iff hpos).mp hpending).2
      simp only [if_true]
      omega
    | false => rfl
  have hsub : db.events.rows.keys.toFinset ⊆ jobs := by
    intro id hid
    exact hjobs id (AList.lookup_isSome.mpr (AList.mem_keys.mp (List.mem_toFinset.mp hid)))
  rw [hlist, ← List.sum_toFinset _ (AList.keys_nodup _)]
  refine Finset.sum_subset hsub fun id _ hid => ?_
  have hnone : db.events.rows.lookup id = none := by
    rw [AList.lookup_eq_none]
    exact fun hmem => hid (List.mem_toFinset.mpr (AList.mem_keys.mpr hmem))
  rw [hnone]
  rfl

section
variable {maxRetry batch : Int} {db : Db}

theorem pushingEnds_of_loads (hpos : 0 < maxRetry) (h : OwnRows C db)
    (hloads : PendingLoads C maxRetry db) : PushingEnds C maxRetry batch db := by
  have hjobs : ∀ responses n id,
      ((drains C responses maxRetry batch db n).db.events.rows.lookup id).isSome →
      id ∈ db.events.rows.keys.toFinset := by
    intro responses n id hid
    rw [rows_drains responses maxRetry batch h id n] at hid
    exact List.mem_toFinset.mpr (AList.mem_keys.mpr (AList.lookup_isSome.mp hid))
  refine ⟨fun responses n hne => ?_, fun responses n id row hrow => ?_, fun responses => ?_⟩
  · obtain ⟨id, hid⟩ := List.exists_mem_of_ne_nil _ hne
    obtain ⟨row, hrow, -⟩ := mem_pendingIDs hid
    have hless := (round_drains responses maxRetry batch hpos h hloads n).sum_lt
      (hjobs responses n id (by rw [hrow]; rfl)) hid
    rw [budget_eq hpos (hjobs responses n), budget_eq hpos (hjobs responses (n + 1))]
    exact_mod_cast hless
  · have hcount := rounds_count_le (round_drains responses maxRetry batch hpos h hloads) id n
    rw [← sent_drains responses maxRetry batch hpos h hloads n] at hcount
    have hleft : attempts maxRetry (db.events.rows.lookup id) ≤ (maxRetry - row.retry).toNat := by
      rw [hrow, attempts]
      split_ifs <;> omega
    exact (Nat.le_add_right _ _).trans (hcount.trans hleft)
  · have hround := round_drains responses maxRetry batch hpos h hloads
    -- a row with attempts left is pending, so the window is not empty
    have hbusy : ∀ n, (∃ id ∈ db.events.rows.keys.toFinset,
        attempts maxRetry ((drains C responses maxRetry batch db n).db.events.rows.lookup id) ≠ 0) →
        ∃ id ∈ db.events.rows.keys.toFinset,
          id ∈ pendingIDs maxRetry batch (drains C responses maxRetry batch db n).db := by
      rintro n ⟨id, -, hleft⟩
      obtain ⟨row, hrow, hpending⟩ := pending_of_attempts hleft
      obtain ⟨id', hid'⟩ := List.exists_mem_of_ne_nil _ (pendingIDs_ne_nil hrow hpending)
      obtain ⟨row', hrow', -⟩ := mem_pendingIDs hid'
      exact ⟨id', hjobs responses n id' (by rw [hrow']; rfl), hid'⟩
    obtain ⟨N, hN⟩ := rounds_end hround hbusy
    refine ⟨N, fun n hn id row hrow => ?_⟩
    have hdone := hN n hn id (hjobs responses n id (by rw [hrow]; rfl))
    have hstatus := (own_drains responses maxRetry batch h n).status id row hrow
    by_contra hnot
    rw [not_or, not_le] at hnot
    have hpending : isPending maxRetry row = true :=
      (isPending_iff hpos).mpr ⟨by tauto, hnot.2⟩
    rw [hrow, attempts, if_pos hpending] at hdone
    omega

theorem loads_of_pushingEnds (hpos : 0 < maxRetry) (h : OwnRows C db)
    (hends : PushingEnds C maxRetry batch db) : PendingLoads C maxRetry db := by
  intro id row hrow hpending
  cases hload : loadEvent C id db with
  | ok ev => exact ⟨ev, rfl⟩
  | error e =>
    obtain ⟨N, hN⟩ := hends.settles fun _ => ⟨none, 0⟩
    have hsame := (stuck_drains (fun _ => ⟨none, 0⟩) maxRetry batch h hload N).trans hrow
    have hpend := (isPending_iff hpos).mp hpending
    rcases hN N (Nat.le_refl N) id row hsame with hpushed | hretry
    · omega
    · omega

/-- **Pushing terminates exactly when every pending row loads.** A row that cannot be restored is
    skipped without a mark, so it stays pending for ever. -/
theorem pushingEnds_iff_loads (hC : C.Reads) {E : Set ThreatEvent} (hE : ∀ ev ∈ E, C.ReadsEvent ev)
    (hpos : 0 < maxRetry) (_hbatch : 1 ≤ batch)
    (h : Reachable (fun db => Legacy C db ∧ OwnRows C db) (QueueStep C E) db) :
    PushingEnds C maxRetry batch db ↔ PendingLoads C maxRetry db := by
  have hown := (ownRows_reachable hC hE h).2
  exact ⟨loads_of_pushingEnds hpos hown, pushingEnds_of_loads hpos hown⟩

end

theorem reachable_enqueued {C : Codec} {first second : ThreatEvent} {db₁ : Db}
    (h₁ : Op.run C (.enqueue .v2 1 first) newDb = .ok db₁)
    (h₂ : Op.run C (.enqueue .v2 2 second) db₁ = .ok db) :
    Reachable (fun db => Legacy C db ∧ OwnRows C db) (QueueStep C {ev | ev ∈ [first, second]}) db := by
  have hnew : ∀ id row, newDb.events.rows.lookup id ≠ some row := by simp [newDb]
  refine .next (.next (.start ⟨⟨rfl, rfl, by simp [newDb]⟩, ?_, ?_⟩) ⟨_, fun _ _ ev' he => ?_, h₁⟩)
    ⟨_, fun _ _ ev' he => ?_, h₂⟩
  · exact fun id row _ hrow => absurd hrow (hnew id row)
  · exact fun id row hrow => absurd hrow (hnew id row)
  · cases he
    exact List.mem_cons_self
  · cases he
    exact List.mem_cons_of_mem _ List.mem_cons_self

/-- Two events, which load. -/
theorem pushingEnds_iff_loads_two :
    let C := Plain.codec (readEvents [smallEvent, sharingEvent])
    ∃ db₁ db, Op.run C (.enqueue .v2 1 smallEvent) newDb = .ok db₁ ∧
      Op.run C (.enqueue .v2 2 sharingEvent) db₁ = .ok db ∧ pendingIDs 3 10 db = [1, 2] ∧
      PushingEnds C 3 10 db := by
  intro C
  have hrun : ((Op.run C (.enqueue .v2 1 smallEvent) newDb).toOption.any fun db₁ =>
      (Op.run C (.enqueue .v2 2 sharingEvent) db₁).toOption.any fun db =>
        decide (pendingIDs 3 10 db = [1, 2]) &&
          db.events.rows.keys.all fun id => (loadEvent C id db).isOk) = true := by
    decide +kernel
  simp only [Option.any_eq_true, except_toOption_some, Bool.and_eq_true, decide_eq_true_eq,
    List.all_eq_true] at hrun
  obtain ⟨db₁, hfirst, db, hsecond, hids, hloads⟩ := hrun
  refine ⟨db₁, db, hfirst, hsecond, hids, ?_⟩
  refine (pushingEnds_iff_loads (Plain.codec_reads _) (readsEvents_of_distinct (by decide +kernel))
    (by decide) (by decide) (reachable_enqueued hfirst hsecond)).mpr fun id row hrow _ => ?_
  exact except_isOk.mp (hloads id (AList.mem_keys.mp (AList.lookup_isSome.mp (by rw [hrow]; rfl))))

/-- An event with a number that no `float64` holds. -/
def hugeEvent : ThreatEvent :=
  { smallEvent with eventID := "e2", rawFeature := [("k", .ref (.number (utf8 "1e400")))] }

/-- The event is accepted, and stays in the queue for ever; the one before it loads. -/
theorem hugeEvent_never_settles :
    let C := Plain.codec (readEvents [smallEvent, hugeEvent])
    ∃ db₁ db, Op.run C (.enqueue .v2 1 smallEvent) newDb = .ok db₁ ∧
      Op.run C (.enqueue .v2 2 hugeEvent) db₁ = .ok db ∧ (loadEvent C 1 db).isOk ∧
      Reachable (fun db => Legacy C db ∧ OwnRows C db)
        (QueueStep C {ev | ev ∈ [smallEvent, hugeEvent]}) db ∧
      (∀ ev ∈ [smallEvent, hugeEvent], C.ReadsEvent ev) ∧ ¬PushingEnds C 3 10 db := by
  intro C
  have hrun : ((Op.run C (.enqueue .v2 1 smallEvent) newDb).toOption.any fun db₁ =>
      (Op.run C (.enqueue .v2 2 hugeEvent) db₁).toOption.any fun db =>
        (loadEvent C 1 db).isOk && (db.events.rows.lookup 2).any (isPending 3) &&
          !(loadEvent C 2 db).isOk) = true := by
    decide +kernel
  simp only [Option.any_eq_true, except_toOption_some, Bool.and_eq_true] at hrun
  obtain ⟨db₁, hfirst, db, hsecond, ⟨hsmall, row, hrow, hpending⟩, hload⟩ := hrun
  have hreach := reachable_enqueued hfirst hsecond
  have hE : ∀ ev ∈ [smallEvent, hugeEvent], C.ReadsEvent ev :=
    readsEvents_of_distinct (by decide +kernel)
  refine ⟨db₁, db, hfirst, hsecond, hsmall, hreach, hE, fun hends => ?_⟩
  have hown := (ownRows_reachable (Plain.codec_reads _) hE hreach).2
  obtain ⟨ev, hev⟩ := loads_of_pushingEnds (by decide) hown hends 2 row hrow hpending
  rw [hev] at hload
  cases hload

end TaNode.Queue

import TaNode.Queue.Archive

/-! No record is lost or duplicated by archiving.

    The live operations all act through one frame (`Frame`): rows keep their id, key, time and
    payload, new rows come with new ids and keys that are not archived, and content only grows. So
    whatever `Archive` has read or verified about a row stays true until it publishes, and the
    publication transaction re-checks the columns that may have changed. -/

namespace TaNode.Queue

variable {C : Codec}
variable {db db' : Db} {u : Unit} {r : Record} {stage : Stage} {s s' : Sys} {path : String}

/-- The columns no operation on a queued record changes. -/
structure SameRecord (row row' : Row) : Prop where
  key : row'.key = row.key
  time : row'.time = row.time
  payload : row'.payload = row.payload

theorem SameRecord.refl (row : Row) : SameRecord row row := ⟨rfl, rfl, rfl⟩

/-- What every operation on the live queue leaves alone. -/
structure Frame (db db' : Db) : Prop where
  kept : ∀ id row, db.events.rows.lookup id = some row →
    ∃ row', db'.events.rows.lookup id = some row' ∧ SameRecord row row'
  old : ∀ id row', db'.events.rows.lookup id = some row' → id ≤ db.events.seq →
    ∃ row, db.events.rows.lookup id = some row ∧ SameRecord row row'
  fresh : ∀ id row', db'.events.rows.lookup id = some row' →
    db.events.hasKey row'.key = true ∨ db.archived.lookup row'.key = none
  seq : db.events.seq ≤ db'.events.seq
  sub : Table.Sub db.content.objects db'.content.objects
  archived : db'.archived = db.archived
  archives : db'.archives = db.archives

theorem frame_update {p : Row → Bool} {set : Row → Row} (hset : ∀ r, (set r).key = r.key)
    (hsame : ∀ r, SameRecord r (set r)) :
    Frame db { db with events := db.events.update p set hset } := by
  have hif : ∀ r, SameRecord r (if p r then set r else r) := by
    intro r; split_ifs
    · exact hsame r
    · exact SameRecord.refl r
  refine ⟨fun id row hrow => ?_, fun id row' hrow _ => ?_, fun id row' hrow => ?_, le_refl _,
    Table.Sub.refl _, rfl, rfl⟩
  · exact ⟨_, (lookup_eventQueue_update hset).mpr ⟨row, hrow, rfl⟩, hif row⟩
  · obtain ⟨r, hr, rfl⟩ := (lookup_eventQueue_update hset).mp hrow
    exact ⟨r, hr, hif r⟩
  · obtain ⟨r, hr, rfl⟩ := (lookup_eventQueue_update hset).mp hrow
    exact Or.inl (EventQueue.hasKey_iff.mpr ⟨id, r, hr, (hif r).key.symm⟩)

/-- Changes to the other tables. -/
theorem frame_of_rows (hevents : db'.events = db.events) (hcontent : db'.content = db.content)
    (harchived : db'.archived = db.archived) (harchives : db'.archives = db.archives) :
    Frame db db' := by
  refine ⟨fun id row h => ⟨row, ?_, SameRecord.refl row⟩, fun id row h _ => ⟨row, ?_,
    SameRecord.refl row⟩, fun id row h => Or.inl (EventQueue.hasKey_iff.mpr ⟨id, row, ?_, rfl⟩),
    ?_, ?_, harchived, harchives⟩
  · rw [hevents]; exact h
  · rw [← hevents]; exact h
  · rw [← hevents]; exact h
  · rw [hevents]
  · rw [hcontent]; exact Table.Sub.refl _

/-- Enqueuing adds at most one row, under the next id and a key that is nowhere yet. -/
theorem frame_enqueue (hC : C.Lawful) (hi : Intact C db) {backend : Backend} {now : Int}
    {ev : ThreatEvent} (h : enqueue C backend now ev db = .ok (u, db')) :
    Frame db db' ∧ (db'.events.hasKey (queueRecordID ev.eventID ev.contextRevision) = true ∨
      (db'.archived.lookup (queueRecordID ev.eventID ev.contextRevision)).isSome) := by
  rcases enqueue_ok h with ⟨rfl, hnow⟩ | ⟨harch, -, payload, db₁, root, q, b, hpay, -, hq, -, rfl⟩
  · exact ⟨frame_of_rows rfl rfl rfl rfl, hnow.symm⟩
  have hstored := newPayload_stored hC hi hpay
  obtain ⟨-, hrows, hseq⟩ := insertNew_ok hq
  rw [newPayload_content hpay] at hrows hseq ⊢
  have hlookup : ∀ id row, q.rows.lookup id = some row ↔
      (id = db.events.seq + 1 ∧ row = newRow now ev payload) ∨
        (id ≠ db.events.seq + 1 ∧ db.events.rows.lookup id = some row) := by
    intro id row; rw [hrows]; exact Table.lookup_insert_iff
  refine ⟨⟨fun id row hrow => ?_, fun id row' hrow hle => ?_, fun id row' hrow => ?_, ?_,
    hstored.sub, rfl, rfl⟩, Or.inl ?_⟩
  · refine ⟨row, (hlookup id row).mpr (Or.inr ⟨?_, hrow⟩), SameRecord.refl row⟩
    have := db.events.le_seq id row hrow
    omega
  · rcases (hlookup id row').mp hrow with ⟨rfl, -⟩ | ⟨-, hold⟩
    · omega
    · exact ⟨row', hold, SameRecord.refl row'⟩
  · rcases (hlookup id row').mp hrow with ⟨-, rfl⟩ | ⟨-, hold⟩
    · exact Or.inr harch
    · exact Or.inl (EventQueue.hasKey_iff.mpr ⟨id, row', hold, rfl⟩)
  · show db.events.seq ≤ q.seq
    rw [hseq]; exact le_max_left _ _
  · exact EventQueue.hasKey_iff.mpr ⟨_, _, (hlookup _ _).mpr (Or.inl ⟨rfl, rfl⟩), rfl⟩

/-! ### What `Archive` knows at each stage -/

/-- A record as it was selected: pushed, and the row of its id, if it still exists, has its key and
    time. -/
structure SelectedFrom (db : Db) (r : Record) : Prop where
  pushed : r.status = 2
  allocated : r.id ≤ db.events.seq
  row : ∀ row, db.events.rows.lookup r.id = some row → row.key = r.key ∧ row.time = r.time

/-- A segment holds nothing but the selected records, and what they refer to. -/
structure OnlyRecords (C : Codec) (segment : Db) (records : List Record) : Prop where
  intact : Intact C segment
  rows : ∀ id row, segment.events.rows.lookup id = some row →
    ∃ r ∈ records, r.id = id ∧ row.key = r.key

/-- A verified record: the row of its id, if it still exists, has the JSON of the saved one. -/
structure VerifiedRecord (C : Codec) (db segment : Db) (r : Record) : Prop where
  saved : ∃ saved original restored, segment.events.rows.lookup r.id = some saved ∧
    { scanRecord r.id saved with payload := [] } = { r with payload := [] } ∧
    decodePayload C segment.content.objects saved.payload = .ok restored ∧
    jsonEqual C original restored = true ∧
    ∀ row, db.events.rows.lookup r.id = some row →
      decodePayload C db.content.objects row.payload = .ok original

/-- The knowledge at each stage. Until it is published, the segment of a working archiver is not in
    the catalog. -/
def StageOk (C : Codec) (db : Db) (fs : String → Option File) : Stage → Prop
  | .idle | .recovering .. | .settled .. => True
  | .intent path _ => db.archives.lookup path = none
  | .selected path records => db.archives.lookup path = none ∧ ∀ r ∈ records, SelectedFrom db r
  | .copying path records todo segment => db.archives.lookup path = none ∧
      (∀ r ∈ records, SelectedFrom db r) ∧ (∀ r ∈ todo, r ∈ records) ∧
      OnlyRecords C segment records
  | .committed path records => db.archives.lookup path = none ∧
      (∀ r ∈ records, SelectedFrom db r) ∧
      ∃ segment synced, fs path = some ⟨some segment, synced⟩ ∧ OnlyRecords C segment records
  | .verifying path records todo => db.archives.lookup path = none ∧
      (∀ r ∈ records, SelectedFrom db r) ∧
      ∃ segment, fs path = some ⟨some segment, true⟩ ∧ OnlyRecords C segment records ∧
        ∀ r ∈ records, r ∈ todo ∨ VerifiedRecord C db segment r

theorem SelectedFrom.frame (hf : Frame db db') (h : SelectedFrom db r) : SelectedFrom db' r := by
  refine ⟨h.pushed, h.allocated.trans hf.seq, fun row' hrow => ?_⟩
  obtain ⟨row, hold, hsame⟩ := hf.old _ _ hrow h.allocated
  rw [hsame.key, hsame.time]
  exact h.row row hold

theorem VerifiedRecord.frame {segment : Db} (hf : Frame db db') (hsel : SelectedFrom db r)
    (h : VerifiedRecord C db segment r) : VerifiedRecord C db' segment r := by
  obtain ⟨saved, original, restored, hsaved, hview, hrest, heq, hmain⟩ := h.saved
  refine ⟨saved, original, restored, hsaved, hview, hrest, heq, fun row' hrow => ?_⟩
  obtain ⟨row, hold, hsame⟩ := hf.old _ _ hrow hsel.allocated
  rw [hsame.payload]
  exact decodePayload_mono hf.sub (hmain row hold)

theorem StageOk.frame {fs : String → Option File} (hf : Frame db db') (h : StageOk C db fs stage) :
    StageOk C db' fs stage := by
  have harch : ∀ path, db.archives.lookup path = none → db'.archives.lookup path = none := by
    intro path hp; rw [hf.archives]; exact hp
  cases stage with
  | idle | recovering | settled => trivial
  | intent path params => exact harch path h
  | selected path records => exact ⟨harch path h.1, fun r hr => (h.2 r hr).frame hf⟩
  | copying path records todo segment =>
    exact ⟨harch path h.1, fun r hr => (h.2.1 r hr).frame hf, h.2.2⟩
  | committed path records => exact ⟨harch path h.1, fun r hr => (h.2.1 r hr).frame hf, h.2.2⟩
  | verifying path records todo =>
    obtain ⟨hpath, hsel, segment, hfile, honly, hver⟩ := h
    exact ⟨harch path hpath, fun r hr => (hsel r hr).frame hf, segment, hfile, honly,
      fun r hr => (hver r hr).imp id fun hv => hv.frame hf (hsel r hr)⟩

/-! ### The invariant -/

structure SysInv (C : Codec) (s : Sys) : Prop where
  intact : Intact C s.db
  /-- an accepted key is queued or archived -/
  accepted : ∀ key ∈ s.acked, s.db.events.hasKey key = true ∨ (s.db.archived.lookup key).isSome
  /-- never both -/
  exclusive : ∀ key loc, s.db.archived.lookup key = some loc → s.db.events.hasKey key = false
  /-- a published segment is on disk, synced and intact -/
  published : ∀ path, (s.db.archives.lookup path).isSome →
    ∃ segment, s.fs path = some ⟨some segment, true⟩ ∧ Intact C segment
  /-- the catalog leads to a row -/
  located : ∀ key path id, s.db.archived.lookup key = some (path, id) →
    (s.db.archives.lookup path).isSome ∧ ∃ segment row, s.fs path = some ⟨some segment, true⟩ ∧
      segment.events.rows.lookup id = some row ∧ row.key = key
  /-- and every row of a published segment is in the catalog -/
  covered : ∀ path segment synced id row, (s.db.archives.lookup path).isSome →
    s.fs path = some ⟨some segment, synced⟩ → segment.events.rows.lookup id = some row →
    s.db.archived.lookup row.key = some (path, id)
  stage : StageOk C s.db s.fs s.stage

section
variable (h : SysInv C s)
include h

/-- An operation on the live queue. -/
theorem sysInv_frame {acked : Set String} (hi : Intact C db) (hf : Frame s.db db)
    (hacked : ∀ key ∈ acked, key ∈ s.acked ∨ db.events.hasKey key = true ∨ (db.archived.lookup key).isSome) :
    SysInv C { s with db := db, acked := acked } := by
  have hkeys : ∀ key, s.db.events.hasKey key = true → db.events.hasKey key = true := by
    intro key hk
    obtain ⟨id, row, hrow, rfl⟩ := EventQueue.hasKey_iff.mp hk
    obtain ⟨row', hrow', hsame⟩ := hf.kept id row hrow
    exact EventQueue.hasKey_iff.mpr ⟨id, row', hrow', hsame.key⟩
  refine ⟨hi, fun key hk => ?_, fun key loc hl => ?_, fun path hp => ?_, fun key path id hl => ?_,
    fun path segment synced id row hp hfile hrow => ?_, h.stage.frame hf⟩
  · rcases hacked key hk with hold | hnew
    · rcases h.accepted key hold with hq | ha
      · exact Or.inl (hkeys key hq)
      · exact Or.inr (by rw [hf.archived]; exact ha)
    · exact hnew
  · change db.archived.lookup key = some loc at hl
    rw [hf.archived] at hl
    have hno := h.exclusive key loc hl
    rw [Bool.eq_false_iff, Ne, EventQueue.hasKey_iff] at hno ⊢
    rintro ⟨id, row', hrow', rfl⟩
    rcases hf.fresh id row' hrow' with hq | hnone
    · exact hno (EventQueue.hasKey_iff.mp hq)
    · rw [hnone] at hl; simp at hl
  · exact h.published path (by rw [← hf.archives]; exact hp)
  · change db.archived.lookup key = some (path, id) at hl
    rw [hf.archived] at hl
    obtain ⟨hp, hrow⟩ := h.located key path id hl
    exact ⟨by rw [hf.archives]; exact hp, hrow⟩
  · change db.archived.lookup row.key = some (path, id)
    rw [hf.archived]
    exact h.covered path segment synced id row (by rw [← hf.archives]; exact hp) hfile hrow

theorem sysInv_stage (hs : StageOk C s.db s.fs stage) :
    SysInv C { s with stage := stage } :=
  ⟨h.intact, h.accepted, h.exclusive, h.published, h.located, h.covered, hs⟩

theorem sysInv_pending (pending : Table String Unit) (hs : StageOk C s.db s.fs stage) :
    SysInv C { s with db := { s.db with pending := pending }, stage := stage } := by
  have hf : Frame s.db { s.db with pending := pending } := frame_of_rows rfl rfl rfl rfl
  exact ⟨⟨h.intact.closed, h.intact.rooted, h.intact.root_has⟩, h.accepted, h.exclusive,
    h.published, h.located, h.covered, hs.frame hf⟩

/-- Files that are not published may change in any way. -/
theorem sysInv_files {fs : String → Option File}
    (hfs : ∀ path, (s.db.archives.lookup path).isSome → fs path = s.fs path)
    (hs : StageOk C s.db fs stage) : SysInv C { s with fs := fs, stage := stage } := by
  refine ⟨h.intact, h.accepted, h.exclusive, fun path hp => ?_, fun key path id hl => ?_,
    fun path segment synced id row hp hfile hrow => ?_, hs⟩
  · show ∃ segment, fs path = some ⟨some segment, true⟩ ∧ Intact C segment
    rw [hfs path hp]
    exact h.published path hp
  · obtain ⟨hp, hrow⟩ := h.located key path id hl
    refine ⟨hp, ?_⟩
    show ∃ segment row, fs path = some ⟨some segment, true⟩ ∧ _
    rw [hfs path hp]
    exact hrow
  · refine h.covered path segment synced id row hp ?_ hrow
    rw [← hfs path hp]
    exact hfile

omit h in
/-- Writing an unpublished file leaves the published ones alone. -/
theorem update_published (hunpub : s.db.archives.lookup path = none) (file : Option File) :
    ∀ p, (s.db.archives.lookup p).isSome → Function.update s.fs path file p = s.fs p := by
  intro p hp
  refine Function.update_of_ne ?_ _ _
  rintro rfl
  rw [hunpub] at hp
  simp at hp

theorem sysInv_file (hunpub : s.db.archives.lookup path = none) (file : Option File)
    (hs : StageOk C s.db (Function.update s.fs path file) stage) :
    SysInv C { s with fs := Function.update s.fs path file, stage := stage } :=
  sysInv_files h (update_published hunpub file) hs

end

/-! ### The steps of `Archive` -/

theorem selectPushed_selected {p : Params} (h : r ∈ selectPushed p db) : SelectedFrom db r := by
  unfold selectPushed at h
  obtain ⟨e, he, rfl⟩ := List.mem_map.mp h
  have he := List.mem_of_mem_take he
  unfold EventQueue.select at he
  rw [(List.perm_insertionSort _ _).mem_iff, List.mem_filter] at he
  obtain ⟨hmem, hcond⟩ := he
  have hrow : db.events.rows.lookup e.1 = some e.2 := Table.lookup_eq_some_iff.mpr hmem
  simp only [Bool.and_eq_true, beq_iff_eq] at hcond
  refine ⟨hcond.1, db.events.le_seq _ _ hrow, fun row hr => ?_⟩
  change db.events.rows.lookup e.1 = some row at hr
  rw [hrow] at hr
  cases hr
  exact ⟨rfl, rfl⟩

theorem copyRecord_only (hC : C.Lawful) {src : Store} (hsrc : src.Closed C) {records : List Record}
    {segment segment' : Db} {payload : Bytes} (hr : r ∈ records)
    (honly : OnlyRecords C segment records)
    (h : copyRecord C src.objects { r with payload := payload } segment = .ok (u, segment')) :
    OnlyRecords C segment' records := by
  refine ⟨intact_copyRecord hC honly.intact hsrc h, ?_⟩
  obtain ⟨payload', content, -, hins⟩ := copyRecord_ok h
  obtain ⟨q, -, -, -, hq, -, -, -, rfl⟩ := insertRecord_ok hins
  obtain ⟨-, -, hrows, -⟩ := insertWithId_ok hq
  intro id row hrow
  change q.rows.lookup id = some row at hrow
  rw [hrows, Table.lookup_insert_iff] at hrow
  rcases hrow with ⟨rfl, rfl⟩ | ⟨-, hrow⟩
  · exact ⟨r, hr, rfl, rfl⟩
  · exact honly.rows id row hrow

/-- A row stays as it is in the publication, or it is moved unchanged. -/
theorem row_of_publish {first : Record} {rest : List Record}
    (hstage : StageOk C s.db s.fs (.verifying path (first :: rest) []))
    (hpub : publish path first rest s.db = .ok (u, db)) (paths : List String) {id : Int} {row : Row}
    (hrow : s.db.events.rows.lookup id = some row) :
    db.events.rows.lookup id = some row ∨
      MovedUnchanged C s { s with db := db, stage := .recovering paths none } id row := by
  obtain ⟨-, hsel, segment, hfile, -, hver⟩ := hstage
  obtain ⟨hcur, -, range, hm⟩ := publish_ok hpub
  by_cases hmoved : ∃ r ∈ first :: rest, r.id = id ∧ row.status = 2
  case neg =>
    exact Or.inl ((hm.rows id row).mpr ⟨hrow, fun r hr he => hmoved ⟨r, hr, he⟩⟩)
  obtain ⟨r, hr, rfl, hstatus⟩ := hmoved
  obtain ⟨row', hrow', hun⟩ := hcur r hr
  rw [hrow] at hrow'
  cases hrow'
  obtain ⟨saved, original, restored, hsaved, hview, hrest, heq, hmain⟩ :=
    ((hver r hr).resolve_left (by simp)).saved
  have harchives : (db.archives.lookup path).isSome := by
    rw [hm.archives]
    show ((s.db.archives.insert path range).lookup path).isSome
    rw [AList.lookup_insert]; rfl
  refine Or.inr ⟨hstatus, path, segment, saved, original, restored,
    (hm.archived _ _).mpr (Or.inr ⟨r, hr, hun.key.symm, rfl⟩), harchives, hfile, hsaved, ?_,
    hmain row hrow, hrest, heq⟩
  rw [hview]
  obtain ⟨hkey, htime⟩ := (hsel r hr).row row hrow
  simp only [scanRecord, hun.key, htime, hun.status, hun.retry, hun.error, hun.created, hun.updated]

theorem sysInv_publish (h : SysInv C s) {first : Record} {rest : List Record} {paths : List String}
    (hstage : s.stage = .verifying path (first :: rest) [])
    (hpub : publish path first rest s.db = .ok (u, db)) :
    SysInv C { s with db := db, stage := .recovering paths none } := by
  have hok := h.stage
  rw [hstage] at hok
  obtain ⟨hunpub, hsel, segment, hfile, honly, hver⟩ := id hok
  have hpushed : ∀ r ∈ first :: rest, r.status = 2 := fun r hr => (hsel r hr).pushed
  obtain ⟨hcur, -, range, hm⟩ := publish_ok hpub
  have harchives : ∀ p, (db.archives.lookup p).isSome ↔
      p = path ∨ (s.db.archives.lookup p).isSome := by
    intro p
    rw [hm.archives]
    show ((s.db.archives.insert path range).lookup p).isSome ↔ _
    by_cases hp : p = path
    · subst hp; simp [AList.lookup_insert]
    · simp [AList.lookup_insert_ne hp, hp]
  refine ⟨intact_publish h.intact hpushed hpub, fun key hk => ?_, fun key loc hl => ?_,
    fun p hp => ?_, fun key p id hl => ?_, fun p seg synced id row hp hf hrow => ?_, trivial⟩
  · -- an accepted key stays, or its row was moved
    rcases h.accepted key hk with hq | ha
    · obtain ⟨id, row, hrow, rfl⟩ := EventQueue.hasKey_iff.mp hq
      rcases row_of_publish hok hpub paths hrow with
        hrow' | ⟨-, p, seg, saved, o, r', harch, -⟩
      · exact Or.inl (EventQueue.hasKey_iff.mpr ⟨id, row, hrow', rfl⟩)
      · exact Or.inr (by rw [harch]; rfl)
    · obtain ⟨loc, hloc⟩ := Option.isSome_iff_exists.mp ha
      exact Or.inr (by rw [(hm.archived key loc).mpr (Or.inl hloc)]; rfl)
  · -- a moved key has lost its only row
    rw [Bool.eq_false_iff, Ne, EventQueue.hasKey_iff]
    rintro ⟨id, row, hrow, rfl⟩
    obtain ⟨hold, hkeep⟩ := (hm.rows id row).mp hrow
    rcases (hm.archived _ _).mp hl with hl | ⟨r, hr, hkey, -⟩
    · have hno := h.exclusive _ _ hl
      rw [Bool.eq_false_iff, Ne, EventQueue.hasKey_iff] at hno
      exact hno ⟨id, row, hold, rfl⟩
    · obtain ⟨row', hrow', hun⟩ := hcur r hr
      have hid : r.id = id := s.db.events.unique _ _ _ _ hrow' hold (by rw [hun.key, hkey])
      subst hid
      change s.db.events.rows.lookup r.id = some row at hold
      rw [hold] at hrow'
      cases hrow'
      exact hkeep r hr ⟨rfl, by rw [hun.status, hpushed r hr]⟩
  · rcases (harchives p).mp hp with rfl | hp
    · exact ⟨segment, hfile, honly.intact⟩
    · exact h.published p hp
  · rcases (hm.archived _ _).mp hl with hl | ⟨r, hr, hkey, hloc⟩
    · obtain ⟨hp, hrow⟩ := h.located key p id hl
      exact ⟨(harchives p).mpr (Or.inr hp), hrow⟩
    · cases hloc
      obtain ⟨saved, o, r', hsaved, hview, -⟩ := ((hver r hr).resolve_left (by simp)).saved
      have hskey : saved.key = r.key := congrArg Record.key hview
      exact ⟨(harchives path).mpr (Or.inl rfl), segment, saved, hfile, hsaved, hskey.trans hkey⟩
  · rcases (harchives p).mp hp with rfl | hp
    · change s.fs p = some ⟨some seg, synced⟩ at hf
      rw [hfile] at hf
      cases hf
      obtain ⟨r, hr, rfl, hkey⟩ := honly.rows id row hrow
      exact (hm.archived _ _).mpr (Or.inr ⟨r, hr, hkey.symm, rfl⟩)
    · exact (hm.archived _ _).mpr (Or.inl (h.covered p seg synced id row hp hf hrow))

/-! ### Runs -/

variable {isArchivePath : String → Bool}

theorem sysInv_init (h : s.Init C) : SysInv C s := by
  have harch : ∀ key loc, s.db.archived.lookup key ≠ some loc := by
    intro key loc; rw [h.archived]; simp
  have hcat : ∀ path, ¬(s.db.archives.lookup path).isSome := by
    intro path; rw [h.archives]; simp
  refine ⟨intact_legacy h.legacy, fun key hk => ?_, fun key loc hl => absurd hl (harch key loc),
    fun path hp => absurd hp (hcat path), fun key path id hl => absurd hl (harch key _),
    fun path _ _ _ _ hp _ _ => absurd hp (hcat path), ?_⟩
  · rw [h.acked] at hk; exact absurd hk (Set.notMem_empty key)
  · rw [h.stage]; trivial

/-- Every effect keeps the invariant. -/
theorem sysInv_step (hC : C.Lawful) (h : SysInv C s) (hstep : SysStep C isArchivePath s s') :
    SysInv C s' := by
  have hok := h.stage
  cases hstep with
  | enqueue backend now ev hop =>
    obtain ⟨hf, hkey⟩ := frame_enqueue hC h.intact hop
    refine sysInv_frame h (intact_enqueue hC h.intact hop) hf fun key hk => ?_
    rcases hk with rfl | hk
    · exact Or.inr hkey
    · exact Or.inl hk
  | markPushed eventID rev now =>
    exact sysInv_frame h (intact_markPushed h.intact _ _ _)
      (frame_update _ fun _ => ⟨rfl, rfl, rfl⟩) fun key hk => Or.inl hk
  | markFailed eventID rev msg now =>
    exact sysInv_frame h (intact_markFailed h.intact _ _ _ _)
      (frame_update _ fun _ => ⟨rfl, rfl, rfl⟩) fun key hk => Or.inl hk
  | requeue eventID now =>
    exact sysInv_frame h (intact_requeueIn h.intact _ _)
      (frame_update _ fun _ => ⟨rfl, rfl, rfl⟩) fun key hk => Or.inl hk
  | collect scan limit hidle =>
    have hint := (collect_keeps_live h.intact scan limit).1
    obtain ⟨content, hc⟩ := collect_content scan limit s.db
    rw [hc] at hint ⊢
    refine ⟨hint, h.accepted, h.exclusive, h.published, h.located, h.covered, ?_⟩
    show StageOk C _ s.fs s.stage
    rw [hidle]; trivial
  | recover next paths hpaths hidle => exact sysInv_stage h trivial
  | removeOrphan hstage hvalid hunpub => exact sysInv_file h hunpub none trivial
  | statPublished hstage hvalid hpub hstat => exact sysInv_stage h trivial
  | forgetIntent hstage => exact sysInv_pending h _ trivial
  | recovered hstage => exact sysInv_stage h trivial
  | insertIntent path hstage hfresh => exact sysInv_pending h _ hfresh.2.1
  | select hstage hsome =>
    rw [hstage] at hok
    exact sysInv_stage h ⟨hok, fun r hr => selectPushed_selected hr⟩
  | openSegment hstage =>
    rw [hstage] at hok
    refine sysInv_file h hok.1 _ ⟨hok.1, hok.2, fun r hr => hr, intact_newDb, fun id row hrow => ?_⟩
    simp [newDb] at hrow
  | copyOne hstage hrow hcopy =>
    rw [hstage] at hok
    obtain ⟨hunpub, hsel, htodo, honly⟩ := hok
    exact sysInv_stage h ⟨hunpub, hsel, fun r hr => htodo r (List.mem_cons_of_mem _ hr),
      copyRecord_only hC h.intact.closed (htodo _ (by simp)) honly hcopy⟩
  | commitSegment hstage =>
    rw [hstage] at hok
    obtain ⟨hunpub, hsel, -, honly⟩ := hok
    exact sysInv_file h hunpub _ ⟨hunpub, hsel, _, _, Function.update_self .., honly⟩
  | sync hstage hfile =>
    rw [hstage] at hok
    obtain ⟨hunpub, hsel, segment, synced, hfile', honly⟩ := hok
    rw [hfile] at hfile'
    cases hfile'
    exact sysInv_file h hunpub _ ⟨hunpub, hsel, segment, Function.update_self .., honly,
      fun r hr => Or.inl hr⟩
  | verifyOne hstage hfile hver =>
    rw [hstage] at hok
    obtain ⟨hunpub, hsel, segment, hfile', honly, hdone⟩ := hok
    rw [hfile] at hfile'
    cases hfile'
    refine sysInv_stage h ⟨hunpub, hsel, _, hfile, honly, fun r hr => ?_⟩
    rcases hdone r hr with hr | hr
    · rcases List.mem_cons.mp hr with rfl | hr
      · obtain ⟨saved, row, original, restored, hsaved, hrow, horig, hrest, heq, hview⟩ :=
          hver.verified
        refine Or.inr ⟨saved, original, restored, hsaved, hview, hrest, heq, fun row' hrow' => ?_⟩
        rw [hrow] at hrow'
        cases hrow'
        exact horig
      · exact Or.inl hr
    · exact Or.inr hr
  | publish hstage hpub hpaths => exact sysInv_publish h hstage hpub
  | fail | failRecovery => exact sysInv_stage h trivial
  | crash fs hsynced hnothing =>
    refine sysInv_files h (fun path hp => ?_) trivial
    obtain ⟨segment, hfile, -⟩ := h.published path hp
    rw [hfile]
    exact hsynced path _ hfile rfl

/-- What a step does to the rows of the queue and to archived records: a row stays, with its key,
    time and payload, or it is moved unchanged; an archived record stays where it is. -/
structure StepOk (C : Codec) (s s' : Sys) : Prop where
  row : ∀ id row, s.db.events.rows.lookup id = some row →
    (∃ row', s'.db.events.rows.lookup id = some row' ∧ SameRecord row row') ∨
      MovedUnchanged C s s' id row
  archived : ∀ key path id, s.db.archived.lookup key = some (path, id) →
    s'.db.archived.lookup key = some (path, id) ∧ s'.fs path = s.fs path

theorem stepOk_frame {acked : Set String} (hf : Frame s.db db) :
    StepOk C s { s with db := db, acked := acked } :=
  ⟨fun id row hrow => Or.inl (hf.kept id row hrow), fun key path id hl =>
    ⟨by show db.archived.lookup key = _; rw [hf.archived]; exact hl, rfl⟩⟩

/-- Steps that leave rows and catalog alone, and change no published file. -/
theorem stepOk_files (h : SysInv C s) (hevents : s'.db.events = s.db.events)
    (harchived : s'.db.archived = s.db.archived)
    (hfs : ∀ path, (s.db.archives.lookup path).isSome → s'.fs path = s.fs path) :
    StepOk C s s' := by
  refine ⟨fun id row hrow => Or.inl ⟨row, by rw [hevents]; exact hrow, SameRecord.refl row⟩,
    fun key path id hl => ⟨by rw [harchived]; exact hl, hfs path (h.located key path id hl).1⟩⟩

theorem stepOk (hC : C.Lawful) (h : SysInv C s) (hstep : SysStep C isArchivePath s s') :
    StepOk C s s' := by
  have hok := h.stage
  cases hstep with
  | enqueue backend now ev hop => exact stepOk_frame (frame_enqueue hC h.intact hop).1
  | markPushed | markFailed | requeue => exact stepOk_frame (frame_update _ fun _ => ⟨rfl, rfl, rfl⟩)
  | collect scan limit hidle =>
    obtain ⟨content, hc⟩ := collect_content scan limit s.db
    rw [hc]
    exact stepOk_files h rfl rfl fun _ _ => rfl
  | removeOrphan hstage hvalid hunpub =>
    exact stepOk_files h rfl rfl (update_published hunpub none)
  | openSegment hstage | commitSegment hstage | sync hstage =>
    rw [hstage] at hok
    exact stepOk_files h rfl rfl (update_published hok.1 _)
  | publish hstage hpub hpaths =>
    rw [hstage] at hok
    obtain ⟨-, -, range, hm⟩ := publish_ok hpub
    refine ⟨fun id row hrow => ?_, fun key path id hl =>
      ⟨(hm.archived _ _).mpr (Or.inl hl), rfl⟩⟩
    exact (row_of_publish hok hpub _ hrow).imp_left fun hrow' => ⟨row, hrow', SameRecord.refl row⟩
  | crash fs hsynced hnothing =>
    refine stepOk_files h rfl rfl fun path hp => ?_
    obtain ⟨segment, hfile, -⟩ := h.published path hp
    rw [hfile]
    exact hsynced path _ hfile rfl
  | _ => exact stepOk_files h rfl rfl fun _ _ => rfl

/-- In a state with the invariant an accepted key is in exactly one place, the one the catalog
    leads to. -/
theorem one_place (h : SysInv C s) {key : String} (hk : key ∈ s.acked) :
    ∃ place, s.HoldsAt key place ∧ s.Cataloged key place ∧
      ∀ place', s.HoldsAt key place' → place' = place := by
  rcases h.accepted key hk with hq | ha
  · have hnone : s.db.archived.lookup key = none := by
      rw [Option.eq_none_iff_forall_ne_some]
      intro loc hl
      rw [h.exclusive key loc hl] at hq
      exact absurd hq (by simp)
    obtain ⟨id, row, hrow, rfl⟩ := EventQueue.hasKey_iff.mp hq
    refine ⟨.queue id, ⟨row, hrow, rfl⟩, hnone, fun place' hp => ?_⟩
    cases place' with
    | queue id' =>
      obtain ⟨row', hrow', hkey⟩ := hp
      rw [s.db.events.unique _ _ _ _ hrow' hrow hkey]
    | segment path id' =>
      obtain ⟨hpub, seg, synced, row', hf, hrow', hkey⟩ := hp
      have hcat := h.covered path seg synced id' row' hpub hf hrow'
      rw [hkey, hnone] at hcat
      exact absurd hcat (by simp)
  · obtain ⟨⟨path, id⟩, hloc⟩ := Option.isSome_iff_exists.mp ha
    obtain ⟨hpub, seg, row, hf, hrow, hkey⟩ := h.located key path id hloc
    refine ⟨.segment path id, ⟨hpub, seg, true, row, hf, hrow, hkey⟩, hloc, fun place' hp => ?_⟩
    cases place' with
    | queue id' =>
      obtain ⟨row', hrow', hkey'⟩ := hp
      have hno := h.exclusive key _ hloc
      rw [Bool.eq_false_iff, Ne, EventQueue.hasKey_iff] at hno
      exact absurd ⟨id', row', hrow', hkey'⟩ hno
    | segment path' id' =>
      obtain ⟨hpub', seg', synced, row', hf', hrow', hkey'⟩ := hp
      have hcat := h.covered path' seg' synced id' row' hpub' hf' hrow'
      rw [hkey', hloc] at hcat
      cases hcat
      rfl

/-- **Nothing is lost or duplicated.** In every reachable state every accepted key is in exactly one
    place, and every further effect leaves a queued row in the queue or moves it, pushed and
    unchanged, into a published segment, from where it never goes away. -/
theorem archive_one_place (hC : C.Lawful) {s : Sys}
    (hs : Reachable (Sys.Init C) (SysStep C isArchivePath) s) :
    (∀ key ∈ s.acked, ∃ place, s.HoldsAt key place ∧ s.Cataloged key place ∧
      ∀ place', s.HoldsAt key place' → place' = place) ∧
    ∀ s', SysStep C isArchivePath s s' → StepOk C s s' := by
  have h : SysInv C s :=
    hs.invariant (fun _ hinit => sysInv_init hinit) fun _ _ h hstep => sysInv_step hC h hstep
  exact ⟨fun key hk => one_place h hk, fun s' hstep => stepOk hC h hstep⟩

/-- An event that is queued, pushed and archived into the segment "b": the queue and the segment
    afterwards. -/
def archiveRun (C : Codec) (ev : ThreatEvent) : Option (Db × Db) := do
  let (_, db) ← (enqueue C .v2 1 ev newDb).toOption
  let db := markPushed ev.eventID ev.contextRevision 2 db
  let r ← (selectPushed ⟨9, 1⟩ db).head?
  let row ← db.events.rows.lookup r.id
  let (_, segment) ←
    (copyRecord C db.content.objects { r with payload := row.payload } newDb).toOption
  let saved ← segment.events.rows.lookup r.id
  let original ← (decodePayload C db.content.objects row.payload).toOption
  let restored ← (decodePayload C segment.content.objects saved.payload).toOption
  guard (db.pending.entries = [] ∧ db.archives.entries = [] ∧ selectPushed ⟨9, 1⟩ db = [r] ∧
    jsonEqual C original restored ∧
    { scanRecord r.id saved with payload := [] } = { r with payload := [] })
  let (_, db) ← (publish "b" r [] { db with pending := db.pending.insert "b" () }).toOption
  return ({ db with pending := db.pending.erase "b" }, segment)

/-- The states of a queue whose archive paths are all valid. -/
abbrev ArchiveRun (C : Codec) : Sys → Prop := Reachable (Sys.Init C) (SysStep C fun _ => true)

/-- A first archive dies and leaves a damaged file behind, which the next one removes. -/
theorem reachable_crashed {acked : Set String} (h : ArchiveRun C ⟨db, fun _ => none, .idle, acked⟩)
    (hnone : db.pending = ∅) (hunpub : ∀ path, db.archives.lookup path = none)
    (hne : selectPushed ⟨9, 1⟩ db ≠ []) :
    ∃ fs, fs "b" = none ∧ ArchiveRun C ⟨db, fs, .recovering [] (some ⟨9, 1⟩), acked⟩ := by
  have hback : (db.pending.insert "a" ()).erase "a" = db.pending := by rw [hnone]; rfl
  have hopened : ArchiveRun C ⟨{ db with pending := db.pending.insert "a" () },
        Function.update (fun _ => none) "a" (some ⟨some newDb, false⟩), _, acked⟩ :=
    (((h.next (.recover (some ⟨9, 1⟩) [] (by rw [hnone]; exact .refl _) rfl)).next
      (.insertIntent "a" rfl ⟨rfl, hunpub "a", by rw [hnone]; rfl⟩)).next (.select rfl hne)).next
      (.openSegment rfl)
  have hcrashed := hopened.next (.crash (Function.update (fun _ => none) "a" (some ⟨none, false⟩))
    (by grind [Function.update_apply]) (by grind [Function.update_apply]))
  have hpaths : ["a"].Perm (db.pending.insert "a" ()).keys := by rw [hnone]; exact .refl _
  have hforgot : ArchiveRun C ⟨{ db with pending := (db.pending.insert "a" ()).erase "a" }, _,
        .recovering [] (some ⟨9, 1⟩), acked⟩ :=
    ((hcrashed.next (.recover (some ⟨9, 1⟩) ["a"] hpaths rfl)).next
      (.removeOrphan rfl rfl (hunpub "a"))).next (.forgetIntent rfl)
  rw [hback] at hforgot
  exact ⟨_, by simp, hforgot⟩

/-- The run with a crash in the middle of a first archive. -/
theorem reachable_archiveRun {ev : ThreatEvent} {db segment : Db}
    (h : archiveRun C ev = some (db, segment)) : ∃ fs, fs "b" = some ⟨some segment, true⟩ ∧
    (∀ path, (db.archives.lookup path).isSome ↔ path = "b") ∧
    ArchiveRun C ⟨db, fs, .idle, {queueRecordID ev.eventID ev.contextRevision}⟩ := by
  simp only [archiveRun, Option.bind_eq_bind, Option.bind_eq_some_iff, Option.pure_def,
    Option.some.injEq, Prod.mk.injEq, Prod.exists, Option.guard_eq_some', except_toOption_some] at h
  obtain ⟨_, db₀, henq, r, -, row, hrow, _, segment', hcopy, saved, hsaved, original, horig, restored,
    hrest, _, ⟨hpending, harchives, hsel, heq, hview⟩, _, db', hpub, rfl, rfl⟩ := h
  generalize hdb : markPushed ev.eventID ev.contextRevision 2 db₀ = db₁ at *
  have hnone : db₁.pending = ∅ := AList.ext hpending
  have hunpub : ∀ path, db₁.archives.lookup path = none := fun path => by
    rw [show db₁.archives = ∅ from AList.ext harchives]; rfl
  have hne : selectPushed ⟨9, 1⟩ db₁ ≠ [] := by rw [hsel]; simp
  let key := queueRecordID ev.eventID ev.contextRevision
  have hqueued : ArchiveRun C ⟨db₁, fun _ => none, .idle, {key}⟩ := by
    have hstart : ArchiveRun C ⟨newDb, fun _ => none, .idle, ∅⟩ :=
      .start ⟨⟨rfl, rfl, by simp [newDb]⟩, rfl, rfl, rfl, rfl⟩
    rw [← hdb, ← insert_empty_eq]
    exact (hstart.next (.enqueue .v2 1 ev henq)).next (.markPushed _ _ 2)
  obtain ⟨fs, hfs, hcleared⟩ := reachable_crashed hqueued hnone hunpub hne
  have hselected : ArchiveRun C
      ⟨{ db₁ with pending := db₁.pending.insert "b" () }, fs, .selected "b" (selectPushed ⟨9, 1⟩ db₁),
        {key}⟩ :=
    (hcleared.next (.insertIntent "b" rfl ⟨hfs, hunpub "b", by rw [hnone]; rfl⟩)).next
      (.select rfl hne)
  rw [hsel] at hselected
  obtain ⟨fs', hfs', hcommitted⟩ : ∃ fs', fs' "b" = some ⟨some segment', false⟩ ∧
      ArchiveRun C ⟨{ db₁ with pending := db₁.pending.insert "b" () }, fs', .committed "b" [r], _⟩ :=
    ⟨_, Function.update_self .., ((hselected.next (.openSegment rfl)).next
      (.copyOne rfl hrow hcopy)).next (.commitSegment rfl)⟩
  have hsynced := hcommitted.next (.sync rfl hfs')
  obtain ⟨-, -, range, hm⟩ := publish_ok hpub
  have hkeys : ["b"].Perm db'.pending.keys := by
    rw [hm.pending]
    show ["b"].Perm (db₁.pending.insert "b" ()).keys
    rw [hnone]; exact .refl _
  have harchives' : db'.archives = db₁.archives.insert "b" range := hm.archives
  have hpublished : (db'.archives.lookup "b").isSome := by
    rw [harchives', AList.lookup_insert]; rfl
  have honly : ∀ path, (db'.archives.lookup path).isSome ↔ path = "b" := fun path => by
    refine ⟨fun hpath => ?_, fun hpath => hpath ▸ hpublished⟩
    by_contra hother
    rw [harchives', AList.lookup_insert_ne hother, hunpub] at hpath
    cases hpath
  exact ⟨_, Function.update_self .., honly, ((((hsynced.next (.verifyOne rfl (by simp)
    ⟨saved, row, original, restored, hsaved, hrow, horig, hrest, heq, hview⟩)).next
    (.publish rfl hpub hkeys)).next (.statPublished rfl rfl hpublished (by simp))).next
    (.forgetIntent rfl)).next (.recovered rfl)⟩

/-- The small event goes through the run: it ends up in the segment. -/
theorem archive_one_place_crash : ∃ s, ArchiveRun smallCodec s ∧
    "e1" ∈ s.acked ∧ s.Cataloged "e1" (.segment "b" 1) ∧
    ∃ place, s.HoldsAt "e1" place ∧ s.Cataloged "e1" place ∧
      ∀ place', s.HoldsAt "e1" place' → place' = place := by
  have hrun : (archiveRun smallCodec smallEvent).map (·.1.archived.lookup "e1") =
      some (some ("b", 1)) := by
    decide +kernel
  obtain ⟨⟨db, segment⟩, hok, hlookup⟩ := Option.map_eq_some_iff.mp hrun
  obtain ⟨fs, -, -, hreach⟩ := reachable_archiveRun hok
  exact ⟨_, hreach, rfl, hlookup, (archive_one_place (Plain.codec_lawful _) hreach).1 "e1" rfl⟩

end TaNode.Queue

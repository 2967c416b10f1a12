import Mathlib.Data.Set.Card
import TaNode.Queue.Db
import TaNode.Schemes.Text

/-! Administration: `DeleteEvent` and `RequeueEvent` find the rows of one event by a pattern.

    The rows of an event are its id and `id@revision:n`. The statement compares the key with the id and
    matches it against the escaped id followed by `@revision:*`:

        id            evt[1]
        pattern       evt[[]1]@revision:*
        keys          evt[1]    evt[1]@revision:2    evt[1]@revision:3

    Where no event id contains the mark itself, a key has it in one place only, so the prefix tells
    whose revision it is. But SQLite reads a pattern up to its first NUL: an id with a NUL gives the
    pattern of what is before it, which is the key of another event. -/

namespace TaNode.Queue

/-! ### Rows of an event -/

/-- The key is that of a revision of the event. -/
def IsRevision (eventID key : String) : Prop := ∃ revision, key = queueRecordID eventID revision

/-- The key of a record whose event id does not contain the mark of revisions. -/
def PlainKey (key : String) : Prop :=
  ∃ eventID revision, key = queueRecordID eventID revision ∧ ¬ "@revision:".toList <:+: eventID.toList

/-- No stored event id contains the mark of revisions. -/
structure PlainKeys (db : Db) : Prop where
  events : ∀ id row, db.events.rows.lookup id = some row → PlainKey row.key
  summary : ∀ key b, db.summary.lookup key = some b → PlainKey key
  roots : ∀ key hash, db.roots.lookup key = some hash → PlainKey key

variable {eventID key : String}

theorem toList_queueRecordID {revision : Nat} (h : ¬ revision ≤ 1) :
    (queueRecordID eventID revision).toList =
      eventID.toList ++ '@' :: ("revision:".toList ++ (toString revision).toList) := by
  rw [queueRecordID, if_neg h]
  simp

/-- In the key of a revision the mark stands once, so what is before it is the event id. -/
theorem eq_of_prefix {other : String} {revision : Nat}
    (hplain : ¬ "@revision:".toList <:+: other.toList)
    (h : eventID.toList ++ "@revision:".toList <+: (queueRecordID other revision).toList) :
    eventID = other ∧ ¬ revision ≤ 1 := by
  by_cases hrev : revision ≤ 1
  · rw [queueRecordID, if_pos hrev] at h
    exact absurd ((List.infix_append' _ _ []).trans (by simpa using h.isInfix)) hplain
  · refine ⟨?_, hrev⟩
    obtain ⟨rest, hrest⟩ := h
    rw [toList_queueRecordID hrev] at hrest
    have hlast : '@' ∉ "revision:".toList ++ (toString revision).toList := by
      rw [List.mem_append, not_or]
      exact ⟨by decide, notMem_toString (by decide) revision⟩
    by_cases hmark : '@' ∈ rest
    · -- a later mark would be the last one, and the event id would contain the first
      obtain ⟨before, behind, rfl, hbehind⟩ := split_at_last hmark
      have hsplit : (eventID.toList ++ "@revision:".toList ++ before) ++ '@' :: behind =
          other.toList ++ '@' :: ("revision:".toList ++ (toString revision).toList) := by
        rw [← hrest]
        simp
      obtain ⟨hother, -⟩ := split_at_mark hbehind hlast hsplit
      exact absurd ⟨_, _, hother⟩ hplain
    · have hsplit : eventID.toList ++ '@' :: ("revision:".toList ++ rest) =
          other.toList ++ '@' :: ("revision:".toList ++ (toString revision).toList) := by
        rw [← hrest]
        simp
      have hnone : '@' ∉ "revision:".toList ++ rest := by
        rw [List.mem_append, not_or]
        exact ⟨by decide, hmark⟩
      exact String.toList_inj.mp (split_at_mark hnone hlast hsplit).1

/-- The pattern of an id without NUL, as the escaped text of the id and the mark. -/
theorem revisionPattern_eq (eventID : String) :
    revisionPattern eventID = (eventID.toList ++ "@revision:".toList).flatMap globQuote ++ ['*'] := by
  have hmark : "@revision:".toList.flatMap globQuote = "@revision:".toList := by decide
  rw [revisionPattern, globEscaper, List.flatMap_append, hmark, List.append_assoc]
  rfl

theorem glob_revisionPattern (h : '\x00' ∉ eventID.toList) (key : String) :
    glob (revisionPattern eventID) key.toList = true ↔
      eventID.toList ++ "@revision:".toList <+: key.toList := by
  rw [revisionPattern_eq]
  refine glob_literal_star ?_ _
  rw [List.mem_append, not_or]
  exact ⟨h, by decide⟩

theorem matchesEvent_iff (h : '\x00' ∉ eventID.toList) (hkey : PlainKey key) :
    matchesEvent eventID key = true ↔ IsRevision eventID key := by
  rw [matchesEvent, Bool.or_eq_true, beq_iff_eq, glob_revisionPattern h]
  constructor
  · rintro (rfl | hprefix)
    · exact ⟨1, rfl⟩
    · obtain ⟨other, revision, rfl, hplain⟩ := hkey
      obtain ⟨rfl, -⟩ := eq_of_prefix hplain hprefix
      exact ⟨revision, rfl⟩
  · rintro ⟨revision, rfl⟩
    by_cases hrev : revision ≤ 1
    · exact .inl (by rw [queueRecordID, if_pos hrev])
    · refine .inr ⟨(toString revision).toList, ?_⟩
      rw [toList_queueRecordID hrev]
      simp

/-- An id with a NUL has a pattern that matches what is before the NUL. -/
theorem glob_revisionPattern_nul {before behind : List Char} (hnul : '\x00' ∉ before)
    (h : eventID.toList = before ++ '\x00' :: behind) (key : String) :
    glob (revisionPattern eventID) key.toList = true ↔ cText key.toList = before := by
  have hquote : globQuote '\x00' = ['\x00'] := by decide
  rw [revisionPattern, globEscaper, h, List.flatMap_append, List.flatMap_cons, hquote, List.append_assoc]
  exact glob_nul hnul _ _

/-! ### The statements -/

/-- The revisions of the event are gone from the three tables, and nothing else is changed. -/
structure DeletedExactly (eventID : String) (db db' : Db) : Prop where
  events : ∀ id row, db'.events.rows.lookup id = some row ↔
    db.events.rows.lookup id = some row ∧ ¬ IsRevision eventID row.key
  summary : ∀ key b, db'.summary.lookup key = some b ↔
    db.summary.lookup key = some b ∧ ¬ IsRevision eventID key
  roots : ∀ key hash, db'.roots.lookup key = some hash ↔
    db.roots.lookup key = some hash ∧ ¬ IsRevision eventID key
  rest : db' = { db with events := db'.events, summary := db'.summary, roots := db'.roots } ∧
    db'.events.seq = db.events.seq

/-- A row with a fresh retry budget. -/
def Row.reset (row : Row) (now : Int) : Row :=
  { row with status := 0, retry := 0, error := some "", updated := some now }

/-- The revisions of the event are pending again, and nothing else is changed. -/
structure RequeuedExactly (eventID : String) (now : Int) (db db' : Db) : Prop where
  events : ∀ id row, db'.events.rows.lookup id = some row ↔
    ∃ old, db.events.rows.lookup id = some old ∧
      (IsRevision eventID old.key ∧ row = old.reset now ∨ ¬ IsRevision eventID old.key ∧ row = old)
  rest : db' = { db with events := db'.events } ∧ db'.events.seq = db.events.seq

/-- The ids of the rows of an event. -/
def revisionRows (eventID : String) (db : Db) : Set Int :=
  { id | ∃ row, db.events.rows.lookup id = some row ∧ IsRevision eventID row.key }

/-- The answer for a number of rows. -/
def counted (n : Nat) : Except Err Nat := if n = 0 then .error .noRow else .ok n

/-- How many rows the event has in all files. -/
noncomputable def totalRows (eventID : String) (files : List Db) : Nat :=
  (files.map fun db => (revisionRows eventID db).ncard).sum

/-- `DeleteEvent` and `RequeueEvent` hit the rows of the event and no other, and say how many there
    were; the pattern stands for the ids that start with the event id and the mark. -/
structure AdminExact (eventID : String) (now : Int) (files : List Db) : Prop where
  pattern : ∀ key : String, glob (revisionPattern eventID) key.toList = true ↔
    eventID.toList ++ "@revision:".toList <+: key.toList
  deleted : List.Forall₂ (DeletedExactly eventID) files (deleteEvent eventID files).1 ∧
    (deleteEvent eventID files).2 = counted (totalRows eventID files)
  requeued : List.Forall₂ (RequeuedExactly eventID now) files (requeueEvent eventID now files).1 ∧
    (requeueEvent eventID now files).2 = counted (totalRows eventID files)

theorem matchesEvent_false_iff (hnul : '\x00' ∉ eventID.toList) (hkey : PlainKey key) :
    matchesEvent eventID key = false ↔ ¬ IsRevision eventID key := by
  rw [← matchesEvent_iff hnul hkey, Bool.not_eq_true]

section
variable (hnul : '\x00' ∉ eventID.toList) {db : Db} (hplain : PlainKeys db)
include hnul hplain

theorem deleteEventFrom_exact : DeletedExactly eventID db (deleteEventFrom eventID db).2 where
  events id row := by
    rw [deleteEventFrom, EventQueue.deleteWhere]
    dsimp only
    rw [Table.lookup_deleteWhere]
    exact and_congr_right fun h => matchesEvent_false_iff hnul (hplain.events id row h)
  summary key b := by
    rw [deleteEventFrom]
    dsimp only
    rw [Table.lookup_deleteWhere]
    exact and_congr_right fun h => matchesEvent_false_iff hnul (hplain.summary key b h)
  roots key hash := by
    rw [deleteEventFrom]
    dsimp only
    rw [Table.lookup_deleteWhere]
    exact and_congr_right fun h => matchesEvent_false_iff hnul (hplain.roots key hash h)
  rest := ⟨rfl, rfl⟩

theorem requeueIn_exact (now : Int) : RequeuedExactly eventID now db (requeueIn eventID now db).2 where
  events id row := by
    rw [requeueIn, EventQueue.update]
    dsimp only
    rw [Table.lookup_update, Option.map_eq_some_iff]
    refine exists_congr fun old => and_congr_right fun h => ?_
    have hiff := matchesEvent_iff hnul (hplain.events id old h)
    by_cases hmatch : matchesEvent eventID old.key = true
    · simp [hmatch, hiff.mp hmatch, Row.reset, eq_comm]
    · simp [hmatch, mt hiff.mpr hmatch, eq_comm]
  rest := ⟨rfl, rfl⟩

/-- `RowsAffected` is the number of rows of the event. -/
theorem count_eq_ncard :
    db.events.count (fun r => matchesEvent eventID r.key) = (revisionRows eventID db).ncard := by
  have hset : revisionRows eventID db =
      ↑((db.events.rows.entries.filter fun e => matchesEvent eventID e.2.key).map (·.1)).toFinset := by
    ext id
    rw [List.coe_toFinset, Set.mem_ofPred_eq, List.mem_map]
    constructor
    · rintro ⟨row, hrow, hrevision⟩
      refine ⟨⟨id, row⟩, List.mem_filter.mpr ⟨Table.lookup_eq_some_iff.mp hrow, ?_⟩, rfl⟩
      exact (matchesEvent_iff hnul (hplain.events id row hrow)).mpr hrevision
    · rintro ⟨⟨id', row⟩, hmem, rfl⟩
      obtain ⟨hmem, hmatch⟩ := List.mem_filter.mp hmem
      have hrow := Table.lookup_eq_some_iff.mpr hmem
      exact ⟨row, hrow, (matchesEvent_iff hnul (hplain.events id' row hrow)).mp hmatch⟩
  have hnodup : ((db.events.rows.entries.filter
      fun e => matchesEvent eventID e.2.key).map (·.1)).Nodup :=
    List.Sublist.nodup (List.Sublist.map _ List.filter_sublist) db.events.rows.nodupKeys
  rw [hset, Set.ncard_coe_finset, List.toFinset_card_of_nodup hnodup, List.length_map]
  rfl

end

/-- A statement that does the right thing on each file does it on all. -/
theorem onShards_exact {stmt : Db → Nat × Db} {P : Db → Db → Prop} {files : List Db}
    (hvalid : validEventID eventID = true) (hstmt : ∀ db ∈ files, P db (stmt db).2)
    (hcount : ∀ db ∈ files, (stmt db).1 = (revisionRows eventID db).ncard) :
    List.Forall₂ P files (onShards eventID stmt files).1 ∧
      (onShards eventID stmt files).2 = counted (totalRows eventID files) := by
  rw [onShards, if_pos hvalid]
  refine ⟨List.forall₂_map_right_iff.mpr (List.forall₂_same.mpr hstmt), ?_⟩
  dsimp only
  rw [List.map_congr_left hcount]
  rfl

/-- In files whose event ids do not contain the mark, delete and requeue hit exactly the rows of an
    event if and only if its id has no NUL. -/
theorem adminExact_iff (eventID : String) (hvalid : validEventID eventID = true) (now : Int)
    (files : List Db) (hplain : ∀ db ∈ files, PlainKeys db) :
    AdminExact eventID now files ↔ '\x00' ∉ eventID.toList := by
  constructor
  · intro h hmem
    obtain ⟨before, behind, heq, hnul⟩ := List.eq_append_cons_of_mem hmem
    -- the part before the NUL matches, and is too short to have the id as a prefix
    have hmatch := (glob_revisionPattern_nul hnul heq (String.ofList before)).mpr (by
      have := cText_of_notMem hnul []
      simpa [cText] using this)
    have hprefix := ((h.pattern _).mp hmatch).length_le
    simp [heq] at hprefix
  · intro hnul
    refine ⟨glob_revisionPattern hnul, ?_, ?_⟩
    · exact onShards_exact hvalid (fun db hdb => deleteEventFrom_exact hnul (hplain db hdb))
        fun db hdb => count_eq_ncard hnul (hplain db hdb)
    · exact onShards_exact hvalid (fun db hdb => requeueIn_exact hnul (hplain db hdb) now)
        fun db hdb => count_eq_ncard hnul (hplain db hdb)

/-- A database with one pending row for each key. -/
def pendingRows (keys : List String) : Db :=
  keys.foldl (fun db key =>
    match db.events.insertNew { key := key, time := 0, payload := [], status := 0 } with
    | .ok events => { db with events := events }
    | .error _ => db) newDb

/-- The rows of one event, whose id has a special character, beside one that the id as a pattern would
    match. -/
def bracketed : Db := pendingRows ["evt[1]", "evt[1]@revision:2", "evt1"]

theorem plainKeys_bracketed : PlainKeys bracketed where
  events id row h := by
    have hkeys : ∀ e ∈ bracketed.events.rows.entries,
        e.2.key = queueRecordID "evt[1]" 1 ∨ e.2.key = queueRecordID "evt[1]" 2 ∨
          e.2.key = queueRecordID "evt1" 1 := by decide +kernel
    rcases hkeys _ (Table.lookup_eq_some_iff.mp h) with hkey | hkey | hkey
    · exact ⟨_, _, hkey, by decide⟩
    · exact ⟨_, _, hkey, by decide⟩
    · exact ⟨_, _, hkey, by decide⟩
  summary key b h := by
    have hnone : bracketed.summary.entries = [] := by decide +kernel
    simp [Table.lookup_eq_some_iff, hnone] at h
  roots key hash h := by
    have hnone : bracketed.roots.entries = [] := by decide +kernel
    simp [Table.lookup_eq_some_iff, hnone] at h

theorem adminExact_iff_bracketed : AdminExact "evt[1]" 7 [bracketed] ∧
    ((deleteEvent "evt[1]" [bracketed]).1.map fun db => db.events.rows.entries.map (·.2.key)) =
      [["evt1"]] := by
  refine ⟨(adminExact_iff "evt[1]" (by decide) 7 [bracketed] ?_).mpr (by decide), by decide +kernel⟩
  intro db hdb
  rw [List.mem_singleton.mp hdb]
  exact plainKeys_bracketed

/-- Deleting an event that does not exist, whose id continues the one of another behind a NUL, deletes
    the other one. -/
theorem deleteEvent_beyond_nul : PlainKeys (pendingRows ["evt-1"]) ∧
    validEventID "evt-1\x00x" = true ∧ ¬ IsRevision "evt-1\x00x" "evt-1" ∧
    (deleteEvent "evt-1\x00x" [pendingRows ["evt-1"]]).2.toOption = some 1 ∧
    ((deleteEvent "evt-1\x00x" [pendingRows ["evt-1"]]).1.map
      fun db => db.events.rows.entries.map (·.2.key)) = [[]] := by
  refine ⟨⟨fun id row h => ?_, fun key b h => ?_, fun key hash h => ?_⟩, by decide, ?_, by decide +kernel,
    by decide +kernel⟩
  · have hkeys : ∀ e ∈ (pendingRows ["evt-1"]).events.rows.entries,
        e.2.key = queueRecordID "evt-1" 1 := by decide +kernel
    exact ⟨_, _, hkeys _ (Table.lookup_eq_some_iff.mp h), by decide⟩
  · have hnone : (pendingRows ["evt-1"]).summary.entries = [] := by decide +kernel
    simp [Table.lookup_eq_some_iff, hnone] at h
  · have hnone : (pendingRows ["evt-1"]).roots.entries = [] := by decide +kernel
    simp [Table.lookup_eq_some_iff, hnone] at h
  · rintro ⟨revision, h⟩
    have hprefix : "evt-1\x00x".toList <+: "evt-1".toList := by
      rw [h, queueRecordID]
      split
      · exact List.prefix_rfl
      · simp
    exact absurd hprefix (by decide)

end TaNode.Queue

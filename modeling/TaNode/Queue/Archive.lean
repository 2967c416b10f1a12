import TaNode.Queue.Integrity

/-! `Archive` and its crash recovery, one effect at a time, next to everything else that may touch
    the queue meanwhile.

    `Archive` works on two databases and the file system. Its effects are committed one by one, and
    the process may fail or crash between any two of them:

        recover ─▶ intent ─▶ select ─▶ open ─▶ copy* ─▶ commit ─▶ sync ─▶ verify* ─▶ publish
           ▲                                                                            │
           └──────────────── deferred recovery, also after a failure ◀──────────────────┘

    A crash forgets the stage. Files that were not synced yet may then hold anything or be gone;
    synced files and committed transactions survive. `Enqueue`, the marks and the administrative
    requeue interleave with every stage; `archiveMu` keeps `Collect` and a second archiver out. -/

namespace TaNode.Queue

/-- A segment file: its database, none when the file is damaged, and whether it has been synced. -/
structure File where
  db : Option Db
  synced : Bool

/-- The arguments of `Archive`. -/
structure Params where
  before : Int
  limit : Int

/-- Where the holder of `archiveMu` is. -/
inductive Stage where
  | idle
  /-- in `recoverArchivesLocked`, with these intents left; `Archive` goes on afterwards when there
      are parameters -/
  | recovering (paths : List String) (next : Option Params)
  /-- the file of the intent `path` is dealt with, the intent itself is not -/
  | settled (path : String) (paths : List String) (next : Option Params)
  /-- the intent to write `path` is committed -/
  | intent (path : String) (params : Params)
  | selected (path : String) (records : List Record)
  /-- inside the transaction on the segment, `todo` not copied yet -/
  | copying (path : String) (records todo : List Record) (segment : Db)
  | committed (path : String) (records : List Record)
  /-- the segment is synced, `todo` not verified yet -/
  | verifying (path : String) (records todo : List Record)

/-- The stages of `Archive` that end in the deferred recovery. -/
def Stage.working : Stage → Bool
  | .idle | .recovering .. | .settled .. => false
  | _ => true

/-- A queue, the segment files around it, and the keys `Enqueue` has accepted so far. -/
structure Sys where
  db : Db
  fs : String → Option File
  stage : Stage
  acked : Set String

/-- `SELECT … WHERE status=2 AND updated_at<? ORDER BY id LIMIT ?`, without the payloads. -/
def selectPushed (p : Params) (db : Db) : List Record :=
  let limit := if p.limit ≤ 0 ∨ p.limit > 1000 then 100 else p.limit.toNat
  ((db.events.select fun r => r.status == 2 && r.updated.any (· < p.before)).take limit).map
    fun e => { scanRecord e.1 e.2 with payload := [] }

section
variable (C : Codec)

/-- The verification of one record: the saved row and the original must agree. -/
structure Verified (main segment : Db) (r : Record) : Prop where
  verified : ∃ saved row original restored,
    segment.events.rows.lookup r.id = some saved ∧ main.events.rows.lookup r.id = some row ∧
    decodePayload C main.content.objects row.payload = .ok original ∧
    decodePayload C segment.content.objects saved.payload = .ok restored ∧
    jsonEqual C original restored = true ∧
    { scanRecord r.id saved with payload := [] } = { r with payload := [] }

/-- One effect. `isArchivePath` is the check of recovery on a path it finds in the table. -/
inductive SysStep (isArchivePath : String → Bool) : Sys → Sys → Prop
  -- the live queue, at any time
  | enqueue {s : Sys} {db : Db} {u : Unit} (backend : Backend) (now : Int) (ev : ThreatEvent)
      (h : Queue.enqueue C backend now ev s.db = .ok (u, db)) :
      SysStep isArchivePath s { s with
        db := db
        acked := insert (queueRecordID ev.eventID ev.contextRevision) s.acked }
  | markPushed {s : Sys} (eventID : String) (rev : Nat) (now : Int) :
      SysStep isArchivePath s { s with db := Queue.markPushed eventID rev now s.db }
  | markFailed {s : Sys} (eventID : String) (rev : Nat) (msg : String) (now : Int) :
      SysStep isArchivePath s { s with db := Queue.markFailed eventID rev msg now s.db }
  | requeue {s : Sys} (eventID : String) (now : Int) :
      SysStep isArchivePath s { s with db := (requeueIn eventID now s.db).2 }
  -- under `archiveMu`
  | collect {s : Sys} (scan : Store → List String) (limit : Int) (hidle : s.stage = .idle) :
      SysStep isArchivePath s { s with db := (Queue.collect scan limit s.db).2 }
  /-- `RecoverArchives`, or the start of `Archive` with its parameters -/
  | recover {s : Sys} (next : Option Params) (paths : List String)
      (hpaths : paths.Perm s.db.pending.keys) (hidle : s.stage = .idle) :
      SysStep isArchivePath s { s with stage := .recovering paths next }
  /-- an unpublished segment is removed -/
  | removeOrphan {s : Sys} {p : String} {paths : List String} {next : Option Params}
      (hstage : s.stage = .recovering (p :: paths) next) (hvalid : isArchivePath p = true)
      (hunpub : s.db.archives.lookup p = none) :
      SysStep isArchivePath s { s with
        fs := Function.update s.fs p none, stage := .settled p paths next }
  /-- a published segment must exist -/
  | statPublished {s : Sys} {p : String} {paths : List String} {next : Option Params}
      (hstage : s.stage = .recovering (p :: paths) next) (hvalid : isArchivePath p = true)
      (hpub : (s.db.archives.lookup p).isSome) (hstat : (s.fs p).isSome) :
      SysStep isArchivePath s { s with stage := .settled p paths next }
  | forgetIntent {s : Sys} {p : String} {paths : List String} {next : Option Params}
      (hstage : s.stage = .settled p paths next) :
      SysStep isArchivePath s { s with
        db := { s.db with pending := s.db.pending.erase p }, stage := .recovering paths next }
  | recovered {s : Sys} (hstage : s.stage = .recovering [] none) :
      SysStep isArchivePath s { s with stage := .idle }
  /-- the intent is committed under a fresh UUID -/
  | insertIntent {s : Sys} {params : Params} (path : String)
      (hstage : s.stage = .recovering [] (some params))
      (hfresh : s.fs path = none ∧ s.db.archives.lookup path = none ∧
        s.db.pending.lookup path = none) :
      SysStep isArchivePath s { s with
        db := { s.db with pending := s.db.pending.insert path () }, stage := .intent path params }
  | select {s : Sys} {path : String} {params : Params} (hstage : s.stage = .intent path params)
      (hsome : selectPushed params s.db ≠ []) :
      SysStep isArchivePath s { s with stage := .selected path (selectPushed params s.db) }
  | openSegment {s : Sys} {path : String} {records : List Record}
      (hstage : s.stage = .selected path records) :
      SysStep isArchivePath s { s with
        fs := Function.update s.fs path (some ⟨some newDb, false⟩)
        stage := .copying path records records newDb }
  | copyOne {s : Sys} {path : String} {records todo : List Record} {r : Record} {row : Row}
      {segment segment' : Db} {u : Unit} (hstage : s.stage = .copying path records (r :: todo) segment)
      (hrow : s.db.events.rows.lookup r.id = some row)
      (hcopy : copyRecord C s.db.content.objects { r with payload := row.payload } segment =
        .ok (u, segment')) :
      SysStep isArchivePath s { s with stage := .copying path records todo segment' }
  | commitSegment {s : Sys} {path : String} {records : List Record} {segment : Db}
      (hstage : s.stage = .copying path records [] segment) :
      SysStep isArchivePath s { s with
        fs := Function.update s.fs path (some ⟨some segment, false⟩)
        stage := .committed path records }
  | sync {s : Sys} {path : String} {records : List Record} {file : File}
      (hstage : s.stage = .committed path records) (hfile : s.fs path = some file) :
      SysStep isArchivePath s { s with
        fs := Function.update s.fs path (some { file with synced := true })
        stage := .verifying path records records }
  | verifyOne {s : Sys} {path : String} {records todo : List Record} {r : Record} {segment : Db}
      (hstage : s.stage = .verifying path records (r :: todo))
      (hfile : s.fs path = some ⟨some segment, true⟩) (hok : Verified C s.db segment r) :
      SysStep isArchivePath s { s with stage := .verifying path records todo }
  | publish {s : Sys} {path : String} {first : Record} {rest : List Record} {db : Db} {u : Unit}
      {paths : List String} (hstage : s.stage = .verifying path (first :: rest) [])
      (hpub : Queue.publish path first rest s.db = .ok (u, db)) (hpaths : paths.Perm db.pending.keys) :
      SysStep isArchivePath s { s with db := db, stage := .recovering paths none }
  /-- `Archive` gives up at any point; its transactions roll back and recovery runs -/
  | fail {s : Sys} {paths : List String} (hstage : s.stage.working = true)
      (hpaths : paths.Perm s.db.pending.keys) :
      SysStep isArchivePath s { s with stage := .recovering paths none }
  /-- recovery itself gives up -/
  | failRecovery {s : Sys} (hstage : s.stage.working = false) :
      SysStep isArchivePath s { s with stage := .idle }
  /-- the process dies; what was not synced may be damaged or lost -/
  | crash {s : Sys} (fs : String → Option File)
      (hsynced : ∀ p file, s.fs p = some file → file.synced = true → fs p = some file)
      (hnothing : ∀ p, s.fs p = none → fs p = none) :
      SysStep isArchivePath s { s with fs := fs, stage := .idle }

end

/-- A queue that never archived anything, its database empty or from the legacy backend. -/
structure Sys.Init (C : Codec) (s : Sys) : Prop where
  legacy : Legacy C s.db
  archived : s.db.archived = ∅
  archives : s.db.archives = ∅
  stage : s.stage = .idle
  acked : s.acked = ∅

/-- The two kinds of places a record can be in. -/
inductive Place where
  /-- a row of `event_queue` -/
  | queue (id : Int)
  /-- a row of a segment -/
  | segment (path : String) (id : Int)

/-- The record `key` is at a place: a row of the queue, or a row of a segment that is listed in
    `queue_archives` and exists on disk. -/
def Sys.HoldsAt (s : Sys) (key : String) : Place → Prop
  | .queue id => ∃ row, s.db.events.rows.lookup id = some row ∧ row.key = key
  | .segment path id => (s.db.archives.lookup path).isSome ∧ ∃ segment synced row,
      s.fs path = some ⟨some segment, synced⟩ ∧ segment.events.rows.lookup id = some row ∧
      row.key = key

/-- `queue_archived` leads to the place. -/
def Sys.Cataloged (s : Sys) (key : String) : Place → Prop
  | .queue _ => s.db.archived.lookup key = none
  | .segment path id => s.db.archived.lookup key = some (path, id)

/-- A row of the queue was moved to a segment unchanged: the columns are the same and the payloads
    decode to the same JSON value. -/
structure MovedUnchanged (C : Codec) (s s' : Sys) (id : Int) (row : Row) : Prop where
  pushed : row.status = 2
  moved : ∃ path segment saved original restored,
    s'.db.archived.lookup row.key = some (path, id) ∧ (s'.db.archives.lookup path).isSome ∧
    s'.fs path = some ⟨some segment, true⟩ ∧ segment.events.rows.lookup id = some saved ∧
    { scanRecord id saved with payload := [] } = { scanRecord id row with payload := [] } ∧
    decodePayload C s.db.content.objects row.payload = .ok original ∧
    decodePayload C segment.content.objects saved.payload = .ok restored ∧
    jsonEqual C original restored = true

/-! ### The worker -/

/-- The options `Maintain` decides by, durations in seconds. -/
structure MaintenanceOptions where
  archiveDir : String
  after : Int
  batch : Int
  highWater : Int
  lowWater : Int
  minFree : Nat

/-- What a pass of `Maintain` meets: the bytes in use, the bytes free in the archive directory,
    `none` for what cannot be read, and the clock. -/
structure Pass where
  used : Option Int
  free : Option Nat
  now : Int

namespace MaintenanceOptions
variable (o : MaintenanceOptions)

/-- The flag `pressure` after the storage is looked at. -/
def pressure (flag : Bool) (p : Pass) : Bool :=
  match p.used with
  | none => flag
  | some used => (flag || (0 < o.highWater && o.highWater ≤ used)) && !(used ≤ o.lowWater)

/-- The call of `Archive` in a pass. -/
def archives (flag : Bool) (p : Pass) : Option Params := do
  let free ← p.free
  if o.archiveDir = "" ∨ (0 < o.minFree ∧ free < o.minFree) then none
  else some ⟨if flag then p.now else p.now - o.after, if o.batch ≤ 0 then 100 else o.batch⟩

/-- The flag after some passes. -/
def run (passes : List Pass) : Bool := passes.foldl o.pressure false

/-- The storage was found over the high mark since it was last found at the low one. -/
def pressed (passes : List Pass) : Bool :=
  (passes.reverse.takeWhile fun p => p.used.all (o.lowWater < ·)).any
    fun p => p.used.any fun used => 0 < o.highWater && o.highWater ≤ used

theorem run_eq_pressed (passes : List Pass) : o.run passes = o.pressed passes := by
  induction passes using List.reverseRecOn with
  | nil => rfl
  | append_singleton passes p ih =>
    rw [run, List.foldl_append, ← run, ih, pressed, pressed, List.reverse_append,
      List.reverse_singleton, List.singleton_append, List.takeWhile_cons]
    cases hused : p.used with
    | none => simp [pressure, hused]
    | some used =>
      by_cases hlow : o.lowWater < used
      · simp [pressure, hused, hlow, Bool.or_comm]
      · simp [pressure, hused, hlow, not_lt.mp hlow]

/-- **Hysteresis.** Pressure only moves the cutoff of a pass to its own time, and it is there just
    when the storage was found over the high mark since it was last found at the low one. -/
theorem archives_run (passes : List Pass) (p : Pass) : o.archives (o.run (passes ++ [p])) p =
    (o.archives false p).map fun params =>
      if o.pressed (passes ++ [p]) then { params with before := p.now } else params := by
  rw [run_eq_pressed, archives, archives]
  cases p.free with
  | none => rfl
  | some free => cases o.pressed _ <;> simp [apply_ite (Option.map _)]

end MaintenanceOptions

end TaNode.Queue

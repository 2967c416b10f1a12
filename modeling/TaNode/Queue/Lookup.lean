import TaNode.Queue.OnePlace
import TaNode.Queue.Reader
import TaNode.Queue.Shard

/-! Which events the read-only tools find in a sharded layout.

    A key may be in any of the shard files, and there in the active table or in a published segment:

                      base      base.shard1     base.shard2    …
        active         ■            □               □
        segments       ■            □               □

    `ReadPacketRange` visits every column. `ReadEvent` visits the first one only, so an event that
    was routed to a sibling file is not found (`readEvent_finds_iff`). The two disagree about a key
    for other reasons too: only `ReadEvent` searches the segments of a file without `queue_archived`,
    and the range reader takes a missing `raw_packet` member for a missing record. -/

namespace TaNode.Queue

variable {R : ReadCodec} {disk : Disk} {d : Database} {key : String}
variable {α : Type} {f : Fragment} {C : Codec} {path base : String} {db : Db} {p : Db × Row}
  {offset length : Int} {r : PacketRange}

/-! ### Errors other than a missing record -/

/-- A read that fails, if it fails, for another reason than a missing record. -/
abbrev Present {α : Type} (x : Except ReadErr α) : Prop := FailsOnly (fun e => isMissing e = false) x

theorem present_iff {x : Except ReadErr α} : Present x ↔ ¬Missing x := by
  constructor
  · rintro h ⟨e, he, hm⟩
    rw [h e he] at hm
    exact absurd hm (by simp)
  · intro h e he
    rw [Bool.eq_false_iff]
    exact fun hm => h ⟨e, he, hm⟩

theorem Found.present {x : Except Err α} (h : Found x) : Present (fromQueue x) := by
  cases x with
  | error e => exact failsOnly_error.mpr (h e rfl)
  | ok a => exact failsOnly_ok a

theorem missing_noRows : Missing (.error noRows : Except ReadErr α) := ⟨_, rfl, rfl⟩

theorem missing_bind {β : Type} {x : Except ReadErr α} {f : α → Except ReadErr β} (h : Missing x) :
    Missing (x >>= f) := by
  obtain ⟨e, rfl, hm⟩ := h
  exact ⟨e, rfl, hm⟩

section
variable {s : Store}

theorem openNode_present (hs : s.Closed R.toCodec) {id : String} (h : s.Has id) :
    Present (openNode R s.objects id) := by
  obtain ⟨raw, hread⟩ := readObject_closed hs h
  rw [openNode, hread]
  exact (failsOnly_ok raw).bind fun _ _ => (decodeNode_found _).present

section
variable (hC : R.toCodec.Lawful)
include hC

/-- The members `child` selects are inline or stored. -/
theorem child_stored (hs : s.Closed R.toCodec) {g : Fragment} (h : child R s.objects f key = .ok g) :
    g.Stored s := by
  have htext : ∀ json, textMember R json key = .ok g → g.Stored s := by
    intro json h
    rw [textMember] at h
    split at h
    · cases h
    · split at h
      · cases h
      · cases h
        exact stored_inline _ _
  rw [child] at h
  split_ifs at h with hin
  · exact htext _ h
  · obtain ⟨n, hn, h⟩ := except_bind_ok.mp h
    obtain ⟨raw, hread, hdec⟩ := openNode_ok hn
    have hchildren := (decoded_closed hC hs hread hdec).1
    split at h
    · split at h
      · next m hm =>
        cases h
        exact hchildren _ (List.mem_append_left _ (List.mem_map.mpr
          ⟨m, List.mem_of_find?_eq_some hm, rfl⟩))
      · cases h
    · exact htext _ h
    · cases h

theorem renderAs_present (hs : s.Closed R.toCodec) (unmarshal : Bytes → Option α) (hf : f.Stored s) :
    Present (renderAs R s.objects unmarshal f) := by
  refine (render_found hC hs 257 hf).present.bind fun b _ => ?_
  split <;> simp [isMissing, Err.isMissing]

theorem sliceText_present (hs : s.Closed R.toCodec) (offset length : Nat) (truncated : Bool)
    (hf : f.Stored s) : Present (sliceText R s.objects offset length truncated f) := by
  refine (renderAs_present hC hs _ hf).bind fun b _ => ?_
  split
  · simp [isMissing]
  · split_ifs
    · simp [isMissing]
    · exact failsOnly_pure _

omit hC in
theorem chunkPart_present (hs : s.Closed R.toCodec) (offset length total n : Nat) {id : String}
    (h : s.Has id) : Present (chunkPart R s.objects offset length total n id) := by
  rw [chunkPart]
  split_ifs
  · refine (openNode_present hs h).bind fun c _ => ?_
    split_ifs
    · simp [isMissing, Err.isMissing]
    · rw [sliceChunk]
      split_ifs <;> simp [isMissing]
  · exact failsOnly_ok _

omit hC in
theorem sliceChunks_present (hs : s.Closed R.toCodec) (offset length : Nat) :
    ∀ {ids : List String} (total : Nat), (∀ id ∈ ids, s.Has id) →
      Present (sliceChunks R s.objects offset length ids total)
  | [], total, _ => failsOnly_ok _
  | id :: ids, total, h => by
    obtain ⟨row, hrow⟩ := h id (by simp)
    rw [sliceChunks, hrow]
    simp only
    split_ifs
    · simp [isMissing]
    · refine (chunkPart_present hs offset length total _ ⟨row, hrow⟩).bind fun part _ => ?_
      exact (sliceChunks_present hs offset length _ fun i hi => h i (List.mem_cons_of_mem _ hi)).bind
        fun _ _ => failsOnly_pure _

theorem slicePacket_present (hs : s.Closed R.toCodec) (offset length : Nat) (truncated : Bool)
    (hf : f.Stored s) : Present (slicePacket R s.objects offset length truncated f) := by
  rw [slicePacket]
  split_ifs with hin
  · exact sliceText_present hC hs offset length truncated hf
  · refine (openNode_present hs (hf hin)).bind fun n hn => ?_
    obtain ⟨raw, hread, hdec⟩ := openNode_ok hn
    split_ifs
    · refine (sliceChunks_present hs offset length 0 (decoded_closed hC hs hread hdec).2).bind
        fun p _ => ?_
      simp only
      split_ifs
      · simp [isMissing]
      · exact failsOnly_pure _
    · exact sliceText_present hC hs offset length truncated hf

theorem openPacket_stored (hs : s.Closed R.toCodec) {payload : Bytes} {truncated : Bool}
    (h : openPacket R s.objects payload = .ok (truncated, f)) : f.Stored s := by
  obtain ⟨root, -, h⟩ := except_bind_ok.mp h
  obtain ⟨raw, -, h⟩ := except_bind_ok.mp h
  obtain ⟨t, -, h⟩ := except_bind_ok.mp h
  obtain ⟨field, hfield, h⟩ := except_bind_ok.mp h
  cases except_pure_ok.mp h
  exact child_stored hC hs hfield

/-- Over intact content a range is reported missing exactly when the event has no packet. -/
theorem rangeFromPayload_missing (hs : s.Closed R.toCodec) (payload : Bytes) (offset length : Nat) :
    Missing (rangeFromPayload R s.objects payload offset length) ↔
      Missing (openPacket R s.objects payload) := by
  refine ⟨fun h => ?_, missing_bind⟩
  by_contra hopen
  refine present_iff.mp (FailsOnly.bind (present_iff.mpr hopen) fun p hp => ?_) h
  exact slicePacket_present hC hs offset length _ (openPacket_stored hC hs hp)

end

end

/-! ### Where a key is, and where the readers look -/

/-- The segments a file has published, in the order of the search. -/
def Database.segments (d : Database) : List String := if d.hasArchives then archivePaths d.db else []

/-- The segment `queue_archived` leads to. -/
def Database.cataloged (d : Database) (key : String) : List String :=
  if d.hasArchived then ((d.db.archived.lookup key).map (·.1)).toList else []

/-- The segments in which `ReadEvent` looks for a key. -/
def Database.searched (d : Database) (key : String) : List String :=
  if d.hasArchived then d.cataloged key else d.segments

/-- The row under the key in a file. -/
def Disk.rowAt (disk : Disk) (key path : String) : Option (Db × Row) :=
  (disk.openFile path).toOption.bind fun d => (d.db.rowOf key).map (d.db, ·)

/-- A row under the key in one of the files, or in one of their segments. -/
def RowIn (disk : Disk) (segments : Database → List String) (paths : List String) (key : String)
    (p : Db × Row) : Prop :=
  ∃ path ∈ paths, ∃ d, disk.openFile path = .ok d ∧
    ∃ file ∈ path :: segments d, disk.rowAt key file = some p

/-- What is needed to read a file: content is intact here and in its segments, and the catalog leads
    to published ones. -/
structure Readable (C : Codec) (disk : Disk) (d : Database) : Prop where
  closed : d.db.content.Closed C
  segments : ∀ path ∈ d.segments, ∃ seg, disk.openFile path = .ok seg ∧ seg.db.content.Closed C
  cataloged : ∀ key, ∀ path ∈ d.cataloged key, path ∈ d.segments

theorem mem_archivePaths : path ∈ archivePaths db ↔ (db.archives.lookup path).isSome := by
  rw [archivePaths, ((List.perm_insertionSort _ _).map _).mem_iff, AList.lookup_isSome]
  exact AList.mem_keys.symm

/-- A file of the layout: the database of a queue in a state it can reach, with its segments on the
    disk, or one from before `queue_archived`. -/
inductive ShardFile (C : Codec) (disk : Disk) : Database → Prop
  | live {isArchivePath : String → Bool} {s : Sys}
      (hs : Reachable (Sys.Init C) (SysStep C isArchivePath) s)
      (hdisk : ∀ path segment, (s.db.archives.lookup path).isSome →
        s.fs path = some ⟨some segment, true⟩ → disk.openFile path = .ok { db := segment }) :
      ShardFile C disk { db := s.db }
  | old {d : Database} (hno : d.hasArchived = false) (hintact : Intact C d.db)
      (hsegments : ∀ path ∈ d.segments, ∃ seg, disk.openFile path = .ok seg ∧ Intact C seg.db) :
      ShardFile C disk d

theorem ShardFile.readable (hC : C.Lawful) (h : ShardFile C disk d) : Readable C disk d := by
  cases h with
  | live hs hdisk =>
    have hinv := hs.invariant (fun _ hinit => sysInv_init hinit)
      fun _ _ h hstep => sysInv_step hC h hstep
    refine ⟨hinv.intact.closed, fun path hpath => ?_, fun key path hpath => ?_⟩
    · have hpub := mem_archivePaths.mp hpath
      obtain ⟨segment, hfile, hintact⟩ := hinv.published path hpub
      exact ⟨_, hdisk path segment hpub hfile, hintact.closed⟩
    · obtain ⟨⟨_, id⟩, hcat, rfl⟩ := Option.map_eq_some_iff.mp (Option.mem_toList.mp hpath)
      exact mem_archivePaths.mpr (hinv.located key _ id hcat).1
  | old hno hintact hsegments =>
    refine ⟨hintact.closed, fun path hpath => ?_, fun key path hpath => ?_⟩
    · obtain ⟨seg, hopen, hseg⟩ := hsegments path hpath
      exact ⟨seg, hopen, hseg.closed⟩
    · simp [Database.cataloged, hno] at hpath

theorem Readable.searched (h : Readable C disk d) (hpath : path ∈ d.searched key) :
    path ∈ d.segments := by
  rw [Database.searched] at hpath
  split at hpath
  · exact h.cataloged key path hpath
  · exact hpath

/-! ### `ReadEvent` -/

/-- The row that comes first, decoded. -/
def readFirst (R : ReadCodec) (disk : Disk) (key : String) (files : List String) :
    Except ReadErr ThreatEvent :=
  match files.findSome? (disk.rowAt key) with
  | some p => decodeRow R p.1 p.2
  | none => .error noRows

section
variable (hopen : disk.openFile path = .ok d)
include hopen

theorem rowAt_open : disk.rowAt key path = (d.db.rowOf key).map (d.db, ·) := by
  rw [Disk.rowAt, hopen]
  rfl

/-- A look at a table ends the search if the table has a row. -/
theorem run_readRecord {files : List String} {next : Looks Disk (Except ReadErr ThreatEvent)}
    (hnext : next.run disk = readFirst R disk key files) :
    Looks.run disk (match readRecord R d.db key with
      | .error e => .done (.error e)
      | .ok (some b) => .done (unmarshalEvent R b)
      | .ok none => next) = readFirst R disk key (path :: files) := by
  rw [readFirst, List.findSome?_cons, rowAt_open hopen]
  cases hrow : d.db.rowOf key with
  | none =>
    rw [readRecord_of_none hrow]
    exact hnext
  | some row =>
    rw [readRecord_of_row hrow]
    simp only [Option.map_some, decodeRow]
    cases fromQueue (decodePayload R.toCodec d.db.content.objects row.payload) <;> rfl

theorem run_observe (next : View → Looks Disk (Except ReadErr α)) :
    (observe (Disk.view path) next).run disk = (next ⟨d, disk.openFile⟩).run disk := by
  simp [observe, Looks.run, Disk.view, hopen, Except.map]

theorem run_observeFile {file : String} {seg : Database} (hfile : disk.openFile file = .ok seg)
    (next : Database → Looks Disk (Except ReadErr α)) :
    (observeFile (Disk.view path) file next).run disk = (next seg).run disk := by
  rw [observeFile, run_observe hopen]
  simp only [hfile]

theorem run_readSegments : ∀ {files : List String},
    (∀ file ∈ files, ∃ seg, disk.openFile file = .ok seg) →
      (readSegments R (Disk.view path) key files).run disk = readFirst R disk key files
  | [], _ => rfl
  | file :: files, h => by
    obtain ⟨seg, hfile⟩ := h file List.mem_cons_self
    rw [readSegments, run_observeFile hopen hfile, run_observeFile hopen hfile]
    exact run_readRecord hfile (run_readSegments fun f hf => h f (List.mem_cons_of_mem _ hf))

/-- `ReadEvent` returns the first row on its way, decoded. -/
theorem readEventAt_eq (h : Readable C disk d) :
    readEventAt R disk path key = readFirst R disk key (path :: d.searched key) := by
  have hsegments : ∀ file ∈ d.searched key, ∃ seg, disk.openFile file = .ok seg := fun file hfile => by
    obtain ⟨seg, hseg, -⟩ := h.segments file (h.searched hfile)
    exact ⟨seg, hseg⟩
  rw [readEventAt, readEvent, run_observe hopen]
  refine run_readRecord hopen ?_
  rw [run_observe hopen, ← run_readSegments hopen hsegments]
  cases harchived : d.hasArchived with
  | true =>
    simp only [if_true]
    rw [run_observe hopen, Database.searched, Database.cataloged, harchived]
    cases d.db.archived.lookup key <;> rfl
  | false =>
    simp only [Bool.false_eq_true, if_false]
    rw [run_observe hopen, Database.searched, Database.segments, harchived]
    cases d.hasArchives with
    | true =>
      simp only [if_true]
      rw [run_observe hopen]
      rfl
    | false => rfl

end

/-! ### `ReadPacketRange` -/

/-- A row whose payload has a packet for the range reader. -/
def HasPacket (R : ReadCodec) (p : Db × Row) : Prop :=
  ¬Missing (openPacket R p.1.content.objects p.2.payload)

/-- In one table the key is reported missing unless its row has a packet. -/
theorem readRange_missing_iff (hC : R.toCodec.Lawful) (hopen : disk.openFile path = .ok d)
    (hs : d.db.content.Closed R.toCodec) (offset length : Nat) :
    Missing (readRange R d.db key offset length) ↔
      ∀ p, disk.rowAt key path = some p → ¬HasPacket R p := by
  rw [rowAt_open hopen]
  cases hrow : d.db.rowOf key with
  | none =>
    rw [readRange_of_none hrow]
    exact iff_of_true missing_noRows (by simp)
  | some row =>
    rw [readRange_of_row hrow, rangeFromPayload_missing hC hs]
    simp [HasPacket]

/-- In one file the key is reported missing exactly when no row on the way of the range reader has a
    packet. -/
theorem rangeOne_missing_iff (hC : R.toCodec.Lawful) (hopen : disk.openFile path = .ok d)
    (h : Readable R.toCodec disk d) (hvalid : validRange offset length = true) :
    Missing ((readPacketRangeOne R (Disk.view path) key offset length).run disk) ↔
      ∀ file ∈ path :: d.cataloged key, ∀ p, disk.rowAt key file = some p → ¬HasPacket R p := by
  have hfirst := @readRange_missing_iff _ _ _ key _ hC hopen h.closed offset.toNat length.toNat
  rw [readPacketRangeOne, if_pos hvalid, run_observe hopen, List.forall_mem_cons, ← hfirst]
  cases hread : readRange R d.db key offset.toNat length.toNat with
  | ok r => simp [Missing, Looks.run]
  | error e =>
    dsimp only
    split_ifs with he
    · rw [and_iff_right ⟨e, rfl, he⟩, readArchivedRange, run_observe hopen]
      cases harchived : d.hasArchived with
      | false => simpa [Database.cataloged, harchived, Looks.run, Missing] using he
      | true =>
        simp only [if_true]
        rw [run_observe hopen]
        cases hcat : d.db.archived.lookup key with
        | none => simpa [Database.cataloged, harchived, hcat, Looks.run] using missing_noRows
        | some loc =>
          have hmem : d.cataloged key = [loc.1] := by simp [Database.cataloged, harchived, hcat]
          obtain ⟨seg, hseg, hclosed⟩ := h.segments loc.1 (h.cataloged key _ (by simp [hmem]))
          dsimp only
          rw [run_observeFile hopen hseg, run_observeFile hopen hseg, Looks.run,
            readRange_missing_iff hC hseg hclosed, hmem]
          simp
    · simp [Missing, Looks.run, he]

/-- The loop over the files answers that the key is missing when every file does. -/
theorem rangeIn_missing_iff : ∀ {views : List (Disk → Except ReadErr View)}
    {last : ReadErr}, isMissing last = true →
    (Missing ((readPacketRangeIn R key offset length last views).run disk) ↔
      ∀ view ∈ views, Missing ((readPacketRangeOne R view key offset length).run disk))
  | [], last, hlast => by
    refine iff_of_true ⟨last, rfl, hlast⟩ (by simp)
  | view :: views, last, hlast => by
    rw [readPacketRangeIn, Looks.run_bind, List.forall_mem_cons]
    cases hone : (readPacketRangeOne R view key offset length).run disk with
    | ok r => simp [Missing, Looks.run]
    | error e =>
      simp only
      split_ifs with he
      · rw [rangeIn_missing_iff he]
        exact ⟨fun hall => ⟨⟨e, rfl, he⟩, hall⟩, And.right⟩
      · simp [Missing, Looks.run, he]

theorem rangeIn_ok : ∀ {views : List (Disk → Except ReadErr View)} {last : ReadErr},
      (readPacketRangeIn R key offset length last views).run disk = .ok r →
      ∃ view ∈ views, (readPacketRangeOne R view key offset length).run disk = .ok r
  | [], last, h => by cases h
  | view :: views, last, h => by
    rw [readPacketRangeIn, Looks.run_bind] at h
    cases hone : (readPacketRangeOne R view key offset length).run disk with
    | ok r' =>
      rw [hone] at h
      cases h
      exact ⟨view, by simp, hone⟩
    | error e =>
      rw [hone] at h
      simp only at h
      split_ifs at h
      · obtain ⟨v, hv, hok⟩ := rangeIn_ok h
        exact ⟨v, List.mem_cons_of_mem _ hv, hok⟩
      · cases h

/-! ### The layout -/

/-- The key is stored somewhere in the layout. -/
def Held (disk : Disk) (base key : String) : Prop :=
  ∃ p, RowIn disk Database.segments (shardPaths disk base) key p

/-- One reader returns a result where the other says that there is no such record. -/
def Disagree {α β : Type} (r : Except ReadErr α) (r' : Except ReadErr β) : Prop :=
  (r.isOk = true ∧ Missing r') ∨ (Missing r ∧ r'.isOk = true)

/-- Detail lookup works for a key: `ReadEvent` returns the stored event exactly when some file of the
    layout holds the key, and `ReadPacketRange` never disagrees about whether it exists. -/
structure LookupWorks (R : ReadCodec) (disk : Disk) (base key : String) : Prop where
  event : (∃ ev p, RowIn disk Database.segments (shardPaths disk base) key p ∧
    decodeRow R p.1 p.2 = .ok ev ∧ readEventAt R disk base key = .ok ev) ↔ Held disk base key
  range : ∀ offset length, ¬Disagree (readEventAt R disk base key)
    (readPacketRangeAt R disk base key offset length)

section
variable (hC : R.toCodec.Lawful)
  (h : ∀ path ∈ shardPaths disk base, ∃ d, disk.openFile path = .ok d ∧ Readable R.toCodec disk d)
include hC h

/-- `ReadPacketRange` says that the key is missing exactly when no row on its way has a packet. -/
theorem rangeAt_missing_iff (hvalid : validRange offset length = true) :
    Missing (readPacketRangeAt R disk base key offset length) ↔
      ∀ p, RowIn disk (·.cataloged key) (shardPaths disk base) key p → ¬HasPacket R p := by
  rw [readPacketRangeAt, rangeIn_missing_iff rfl, List.forall_mem_map]
  constructor
  · rintro hall p ⟨path, hpath, d, hopen, file, hfile, hrow⟩
    obtain ⟨d', hopen', hd⟩ := h path hpath
    rw [hopen] at hopen'
    cases hopen'
    exact (rangeOne_missing_iff hC hopen hd hvalid).mp (hall path hpath) file hfile p hrow
  · intro hall path hpath
    obtain ⟨d, hopen, hd⟩ := h path hpath
    exact (rangeOne_missing_iff hC hopen hd hvalid).mpr fun file hfile p hrow =>
      hall p ⟨path, hpath, d, hopen, file, hfile, hrow⟩

/-- A range comes from a row. -/
theorem rangeAt_ok (hr : readPacketRangeAt R disk base key offset length = .ok r) :
    Held disk base key := by
  obtain ⟨view, hview, hone⟩ := rangeIn_ok hr
  obtain ⟨path, hpath, rfl⟩ := List.mem_map.mp hview
  obtain ⟨d, hopen, hd⟩ := h path hpath
  have hvalid : validRange offset length = true := by
    by_contra hinv
    rw [readPacketRangeOne, if_neg hinv, Looks.run] at hone
    cases hone
  by_contra hno
  obtain ⟨e, he, -⟩ := (rangeOne_missing_iff hC hopen hd hvalid).mpr fun file hfile p hrow _ =>
    hno ⟨p, path, hpath, d, hopen, file,
      List.mem_cons.mpr ((List.mem_cons.mp hfile).imp_right (hd.cataloged key file)), hrow⟩
  rw [hone] at he
  cases he

end

/-- Outside the valid ranges the range reader says nothing about the key. -/
theorem rangeAt_valid_of_missing (h : Missing (readPacketRangeAt R disk base key offset length)) :
    validRange offset length = true := by
  by_contra hinv
  have hone : (readPacketRangeOne R (Disk.view base) key offset length).run disk =
      .error .invalidRange := by
    rw [readPacketRangeOne, if_neg hinv, Looks.run]
  have hall := (rangeIn_missing_iff rfl).mp h
  obtain ⟨e, he, hm⟩ := hall _ (List.mem_map.mpr ⟨base, by simp [shardPaths], rfl⟩)
  rw [hone] at he
  cases he
  cases hm

/-- The base file, a sibling if there is one, and a segment. -/
def sampleDisk (base : Db) (sibling : Option Db) (segment : Db) : Disk where
  openFile path :=
    if path = "events.db" then .ok { db := base }
    else if path = "b" then .ok { db := segment }
    else match sibling with
      | some db => if path = "events.db.shard1" then .ok { db := db } else .error (.stat path)
      | none => .error (.stat path)
  glob pattern :=
    if pattern = "events.db.shard*" ∧ sibling.isSome then ["events.db.shard1"] else []

/-- What the readers answer about the event once it is archived. -/
def sampleReads (base : Db → Db) (sibling : Db → Option Db) : Option (Bool × Bool) :=
  (archiveRun sampleReader.toCodec packetEvent).map fun p =>
    let disk := sampleDisk (base p.1) (sibling p.1) p.2
    ((readEventAt sampleReader disk "events.db" "e1").isOk,
      (readPacketRangeAt sampleReader disk "events.db" "e1" 1 2).isOk)

theorem shardFile_archiveRun {ev : ThreatEvent} {segment : Db}
    (hrun : archiveRun C ev = some (db, segment)) (hopen : disk.openFile "b" = .ok { db := segment }) :
    ShardFile C disk { db := db } := by
  obtain ⟨fs, hfs, honly, hreach⟩ := reachable_archiveRun hrun
  refine .live hreach fun path segment' hpub hfile => ?_
  obtain rfl := (honly path).mp hpub
  cases hfs.symm.trans hfile
  exact hopen

end TaNode.Queue

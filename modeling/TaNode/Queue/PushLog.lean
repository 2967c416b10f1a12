import TaNode.Queue.Recent
import TaNode.Schemes.Firsts

/-! The push log shows one row an event. Which row that is depends on the order of the rows and on how
    many of them were fetched:

        rows of each file ──window──▶ fetched ──sort──▶ first row of each event

    The order goes by `updated_at`, which every push attempt sets, and not by revision. So the log
    shows the latest revision exactly when no fetched row of an older one is ahead of it. -/

namespace TaNode.Queue

variable {path : String} {fs : List Database} {d : Database} {limit : Int}

/-! ### The files of a listing -/

/-- The segments a database lists. -/
def segmentPaths (d : Database) : List String :=
  if d.hasArchives then d.db.archives.entries.map (·.1) else []

/-- A shard file and its segments. -/
def shardFiles (disk : Disk) (path : String) : Except ReadErr (List Database) := do
  let d ← disk.openFile path
  let segments ← (segmentPaths d).mapM disk.openFile
  return d :: segments

/-- Every file behind the given paths. -/
def filesOf (disk : Disk) : List String → Except ReadErr (List Database)
  | [] => .ok []
  | path :: paths => do
    let files ← shardFiles disk path
    let rest ← filesOf disk paths
    return files ++ rest

section
variable (R : ReadCodec)

/-- The rows one file contributes to a page, decoded. -/
def fetchFile (status : Option Int) (search : Bytes) (fetch : Int) (d : Database) :
    Except ReadErr (List Record) :=
  (fetchRows d status search fetch).mapM (decodeRecord R d)

/-- What a page is made of: the rows of every file and whether one of them gave a full window. -/
def gathered (fetch : Int) (parts : List (List Record)) : List Record × Bool :=
  (parts.flatten, parts.any fun part => (part.length : Int) == fetch)

end

variable {R : ReadCodec} {S : Sorter Record} {disk : Disk} {status : Option Int} {search : Bytes}
  {fetch : Int}

theorem queryDBRecords_eq (d : Database) : queryDBRecords R d status search fetch =
      (fetchFile R status search fetch d).map fun out => (out, segmentPaths d) := by
  rw [queryDBRecords, fetchFile]
  cases (fetchRows d status search fetch).mapM (decodeRecord R d) <;> rfl

theorem querySegments_eq : ∀ {paths : List String} {fs : List Database},
    paths.mapM disk.openFile = .ok fs →
    querySegments R disk status search fetch paths =
      (fs.mapM (fetchFile R status search fetch)).map (gathered fetch)
  | [], fs, h => by
    rw [List.mapM_nil, except_pure_ok] at h
    rw [← h]
    rfl
  | path :: paths, fs, h => by
    obtain ⟨d, rest, hd, hrest, rfl⟩ := mapM_cons_ok.mp h
    rw [querySegments, hd, querySegments_eq hrest, List.mapM_cons]
    simp only [bind, Except.bind, queryDBRecords_eq]
    cases fetchFile R status search fetch d with
    | error e => rfl
    | ok part => cases rest.mapM (fetchFile R status search fetch) <;> rfl

theorem queryShardRecords_eq (h : shardFiles disk path = .ok fs) :
    queryShardRecords R disk status search fetch path =
      (fs.mapM (fetchFile R status search fetch)).map (gathered fetch) := by
  obtain ⟨d, hd, h⟩ := except_bind_ok.mp h
  obtain ⟨segments, hsegments, h⟩ := except_bind_ok.mp h
  rw [except_pure_ok] at h
  subst h
  rw [queryShardRecords, hd, List.mapM_cons]
  simp only [bind, Except.bind, queryDBRecords_eq]
  cases fetchFile R status search fetch d with
  | error e => rfl
  | ok part =>
    simp only [Except.map, querySegments_eq hsegments]
    cases segments.mapM (fetchFile R status search fetch) <;> rfl

/-- The query over all shard files is a query over their files one by one. -/
theorem queryShards_eq : ∀ {paths : List String} {fs : List Database}, filesOf disk paths = .ok fs →
    queryShards R disk status search fetch paths =
      (fs.mapM (fetchFile R status search fetch)).map (gathered fetch)
  | [], fs, h => by
    cases h
    rfl
  | path :: paths, fs, h => by
    obtain ⟨files, hfiles, h⟩ := except_bind_ok.mp h
    obtain ⟨rest, hrest, h⟩ := except_bind_ok.mp h
    rw [except_pure_ok] at h
    subst h
    rw [queryShards, queryShardRecords_eq hfiles, queryShards_eq hrest, List.mapM_append]
    cases files.mapM (fetchFile R status search fetch) with
    | error e => rfl
    | ok parts =>
      cases rest.mapM (fetchFile R status search fetch) with
      | error e => rfl
      | ok parts' =>
        simp only [Except.map, bind, Except.bind, pure, Except.pure, gathered, List.flatten_append,
          List.any_append]

/-! ### Rows and entries -/

section
variable (R : ReadCodec)

/-- The id of the event a row holds. -/
def eventKey (r : Record) : Option String := (R.unmarshalEvent r.payload).map (·.eventID)

/-- The entry of a row. -/
def entry (now : Int) (summary : Bool) (r : Record) : PushLog := (pushLogFromRecord R now r summary).1

/-- The id an entry shows: the queue key when the row holds no event. -/
def shownID (r : Record) : String := (eventKey R r).getD r.key

/-- The revision an entry shows. -/
def shownRevision (r : Record) : Nat :=
  ((R.unmarshalEvent r.payload).map (·.contextRevision)).getD 0

/-- The event of a stored row, if it can be read. -/
def Listed.event (e : Listed) : Option ThreatEvent :=
  (Listed.decode R e).toOption.bind fun r => R.unmarshalEvent r.payload

/-- No stored row of the event has a higher revision. -/
def Newest (stored : List Listed) (id : String) (revision : Nat) : Prop :=
  ∀ e ∈ stored, ∀ ev, Listed.event R e = some ev → ev.eventID = id → ev.contextRevision ≤ revision

instance (stored : List Listed) (id : String) (revision : Nat) :
    Decidable (Newest R stored id revision) :=
  decidable_of_iff (stored.all fun e => (Listed.event R e).all fun ev =>
    decide (ev.eventID = id → ev.contextRevision ≤ revision)) (by
      simp only [List.all_eq_true, Newest]
      refine forall₂_congr fun e _ => ?_
      cases Listed.event R e with
      | none => simp
      | some ev =>
        refine ⟨fun h ev' he => ?_, fun h => decide_eq_true (h ev rfl)⟩
        cases he
        exact of_decide_eq_true h)

/-- One entry an event, of its latest revision. -/
structure OneLatest (now : Int) (summary : Bool) (stored : List Listed) (logs : List PushLog) :
    Prop where
  once : (logs.map (·.eventID)).Nodup
  row : ∀ log ∈ logs, ∃ e ∈ stored, ∃ r, Listed.decode R e = .ok r ∧ log = entry R now summary r
  latest : ∀ log ∈ logs, Newest R stored log.eventID log.contextRevision

/-- What the update times have to say about the fetched rows: a row that is not of the latest revision
    has one that is strictly ahead of it, and a row that holds no event shares its id with none. -/
structure LatestFirst (less : Record → Record → Bool) (stored : List Listed) (rows : List Record) :
    Prop where
  ahead : ∀ r ∈ rows, Newest R stored (shownID R r) (shownRevision R r) ∨
    eventKey R r ≠ none ∧ ∃ r' ∈ rows, eventKey R r' = eventKey R r ∧
      Newest R stored (shownID R r') (shownRevision R r') ∧ less r' r = true
  distinct : rows.Pairwise fun a b =>
    eventKey R a = none ∨ eventKey R b = none → shownID R a ≠ shownID R b

end

variable {now : Int} {summary : Bool} {stored : List Listed} {rows : List Record}
  {less : Record → Record → Bool}

theorem pushLogFromRecord_eq (r : Record) :
    pushLogFromRecord R now r summary = (entry R now summary r, eventKey R r) := by
  rw [entry, eventKey, pushLogFromRecord]
  cases R.unmarshalEvent r.payload with
  | none => rfl
  | some ev => cases summary <;> rfl

theorem entry_eventID (r : Record) : (entry R now summary r).eventID = shownID R r := by
  rw [entry, shownID, eventKey, pushLogFromRecord]
  cases R.unmarshalEvent r.payload with
  | none => rfl
  | some ev => cases summary <;> rfl

theorem entry_contextRevision (r : Record) :
    (entry R now summary r).contextRevision = shownRevision R r := by
  rw [entry, shownRevision, pushLogFromRecord]
  cases R.unmarshalEvent r.payload with
  | none => rfl
  | some ev => cases summary <;> rfl

theorem shownID_of_key {r : Record} {id : String} (h : eventKey R r = some id) : shownID R r = id := by
  rw [shownID, h]
  rfl

/-- The loop keeps the first row of each event. -/
theorem collapse_eq : ∀ (rows : List Record) (seen : List String),
    collapse R now summary rows seen = (firsts (eventKey R) rows seen).map (entry R now summary)
  | [], _ => rfl
  | r :: rows, seen => by
    rw [collapse, pushLogFromRecord_eq]
    cases h : eventKey R r with
    | none => rw [firsts_none h, List.map_cons, collapse_eq rows seen]
    | some k =>
      simp only
      split_ifs with hk
      · rw [firsts_seen h hk, collapse_eq rows seen]
      · rw [firsts_new h hk, List.map_cons, collapse_eq rows (k :: seen)]

theorem OneLatest.sublist {logs logs' : List PushLog} (h : OneLatest R now summary stored logs)
    (hsub : logs'.Sublist logs) : OneLatest R now summary stored logs' where
  once := h.once.sublist (hsub.map _)
  row log hlog := h.row log (hsub.subset hlog)
  latest log hlog := h.latest log (hsub.subset hlog)

/-- What a listing of sorted rows shows, in terms of the rows. -/
theorem oneLatest_iff (hstored : ∀ r ∈ rows, ∃ e ∈ stored, Listed.decode R e = .ok r) :
    OneLatest R now summary stored (collapse R now summary rows []) ↔
      ((firsts (eventKey R) rows []).map (shownID R)).Nodup ∧
        ∀ r ∈ firsts (eventKey R) rows [], Newest R stored (shownID R r) (shownRevision R r) := by
  rw [collapse_eq]
  have hids : ((firsts (eventKey R) rows []).map (entry R now summary)).map (·.eventID) =
      (firsts (eventKey R) rows []).map (shownID R) := by
    rw [List.map_map]
    exact List.map_congr_left fun r _ => entry_eventID r
  constructor
  · intro h
    refine ⟨hids ▸ h.once, fun r hr => ?_⟩
    have hlatest := h.latest _ (List.mem_map_of_mem hr)
    rw [entry_eventID, entry_contextRevision] at hlatest
    exact hlatest
  · rintro ⟨honce, hlatest⟩
    refine ⟨hids ▸ honce, fun log hlog => ?_, fun log hlog => ?_⟩
    · obtain ⟨r, hr, rfl⟩ := List.mem_map.mp hlog
      obtain ⟨e, he, hdecode⟩ := hstored r ((firsts_sublist _ _).subset hr)
      exact ⟨e, he, r, hdecode, rfl⟩
    · obtain ⟨r, hr, rfl⟩ := List.mem_map.mp hlog
      rw [entry_eventID, entry_contextRevision]
      exact hlatest r hr

/-! ### Which row is shown -/

/-- Any part of the sorted rows from the front shows latest revisions only. -/
theorem LatestFirst.shown (hless : Ranks less) (h : LatestFirst R less stored rows)
    {sorted : List Record} (hperm : sorted.Perm rows)
    (hsorted : sorted.Pairwise fun a b => less b a = false) (m : Nat) :
    ((firsts (eventKey R) (sorted.take m) []).map (shownID R)).Nodup ∧
      ∀ r ∈ firsts (eventKey R) (sorted.take m) [],
        Newest R stored (shownID R r) (shownRevision R r) := by
  constructor
  · have hdistinct := (hperm.pairwise_iff fun hab hor => (hab hor.symm).symm).mpr h.distinct
    have hsub : (firsts (eventKey R) (sorted.take m) []).Sublist sorted :=
      (firsts_sublist _ _).trans (List.take_sublist _ _)
    rw [List.Nodup, List.pairwise_map]
    refine (hdistinct.sublist hsub).imp₂ ?_ (firsts_pairwise (sorted.take m) [])
    intro a b hab hkeys
    cases ha : eventKey R a with
    | none => exact hab (.inl ha)
    | some j =>
      cases hb : eventKey R b with
      | none => exact hab (.inr hb)
      | some k =>
        rw [shownID_of_key ha, shownID_of_key hb]
        rintro rfl
        exact hkeys j ha hb
  · intro r hr
    have hmem := List.mem_of_mem_take ((firsts_sublist _ _).subset hr)
    rcases h.ahead r (hperm.subset hmem) with hnewest | ⟨hsome, r', hr', hid', -, hahead⟩
    · exact hnewest
    -- the row ahead of `r` would have been shown instead
    · exfalso
      obtain ⟨id, hid⟩ := Option.ne_none_iff_exists'.mp hsome
      rw [hid] at hid'
      obtain ⟨-, pre, post, hsplit, hpre⟩ := firsts_spec hr hid
      have hl : sorted = pre ++ r :: (post ++ sorted.drop m) := by
        rw [← List.cons_append, ← List.append_assoc, ← hsplit, List.take_append_drop]
      rw [hl, List.pairwise_append, List.pairwise_cons] at hsorted
      have hin := hperm.symm.subset hr'
      rw [hl, List.mem_append, List.mem_cons] at hin
      rcases hin with hin | rfl | hin
      · exact hpre r' hin hid'
      · rw [hless.irrefl] at hahead
        cases hahead
      · rw [hsorted.2.1.1 r' hin] at hahead
        cases hahead

/-- Where some row of an older revision is not behind one of the latest, some order of the rows that
    tie shows it. -/
theorem latestFirst_of_shown
    (h : ∀ S : Sorter Record, ((firsts (eventKey R) (S.sort less rows) []).map (shownID R)).Nodup ∧
      ∀ r ∈ firsts (eventKey R) (S.sort less rows) [],
        Newest R stored (shownID R r) (shownRevision R r)) :
    LatestFirst R less stored rows where
  ahead r hr := by
    obtain ⟨pre, post, hsplit, hpre⟩ : ∃ pre post, (Sorter.favour r).sort less rows =
      pre ++ r :: post ∧ ∀ b ∈ pre, less b r = true := Sorter.favour_spec hr
    obtain ⟨-, hnewest⟩ := h (.favour r)
    have hmem : r ∈ (Sorter.favour r).sort less rows := ((Sorter.favour r).perm less rows).symm.subset hr
    cases hid : eventKey R r with
    | none => exact .inl (hnewest r (mem_firsts_of_none hid hmem))
    | some id =>
      obtain ⟨b, hb, hbid⟩ := exists_firsts hmem hid (List.not_mem_nil)
      have hshown := hnewest b hb
      obtain ⟨-, pre', post', hsplit', hpre'⟩ := firsts_spec hb hbid
      rw [hsplit, List.append_eq_append_iff] at hsplit'
      -- the shown row `b` is `r` or stands ahead of it
      rcases hsplit' with ⟨between, rfl, hrest⟩ | ⟨between, rfl, hrest⟩
      · cases between with
        | nil =>
          cases hrest
          exact .inl hshown
        | cons c cs =>
          cases hrest
          exact absurd hid (hpre' r (by simp))
      · cases between with
        | nil =>
          cases hrest
          exact .inl hshown
        | cons c cs =>
          cases hrest
          refine .inr ⟨by simp, b, ?_, hbid, hshown, hpre b (by simp)⟩
          exact ((Sorter.favour r).perm less rows).subset ((firsts_sublist _ _).subset hb)
  distinct := by
    obtain ⟨hnodup, -⟩ := h (.insertion Record)
    refine (((Sorter.insertion Record).perm less rows).pairwise_iff
      fun hab hor => (hab hor.symm).symm).mp ?_
    rw [List.pairwise_iff_forall_sublist]
    intro a b hsub hor
    have hclash : ∀ c d, eventKey R c = none → (∃ k, eventKey R d = some k) →
        c ∈ (Sorter.insertion Record).sort less rows → d ∈ (Sorter.insertion Record).sort less rows →
        shownID R c ≠ shownID R d := by
      rintro c d hc ⟨k, hk⟩ hcm hdm heq
      obtain ⟨e, he, hek⟩ := exists_firsts hdm hk (List.not_mem_nil)
      rw [shownID_of_key hk, ← shownID_of_key hek] at heq
      have := List.inj_on_of_nodup_map hnodup (mem_firsts_of_none hc hcm) he heq
      rw [← this, hc] at hek
      cases hek
    have hmema := hsub.subset (List.mem_cons_self : a ∈ [a, b])
    have hmemb := hsub.subset (by simp : b ∈ [a, b])
    cases ha : eventKey R a with
    | none =>
      cases hb : eventKey R b with
      | none =>
        have hboth := hsub.filter fun r => (eventKey R r).isNone
        rw [← filter_firsts ((Sorter.insertion Record).sort less rows) []] at hboth
        have hpair := hboth.trans List.filter_sublist
        rw [List.filter_cons_of_pos (by rw [ha]; rfl), List.filter_cons_of_pos (by rw [hb]; rfl),
          List.filter_nil] at hpair
        have hids := hnodup.sublist (hpair.map (shownID R))
        simpa using hids
      | some k => exact hclash a b ha ⟨k, hb⟩ hmema hmemb
    | some j =>
      have hb := hor.resolve_left (by rw [ha]; simp)
      exact (hclash b a hb ⟨j, ha⟩ hmemb hmema).symm

theorem ranks_pushLess : Ranks pushLess where
  asymm a b h := by
    simp only [pushLess] at h ⊢
    split_ifs at h ⊢ <;> simp_all <;> omega
  trans a b c h₁ h₂ := by
    simp only [pushLess] at h₁ h₂ ⊢
    split_ifs at h₁ h₂ ⊢ <;> simp_all <;> omega

theorem ranks_recentLess : Ranks recentLess where
  asymm a b h := by
    simp only [recentLess] at h ⊢
    split_ifs at h ⊢ <;> simp_all <;> omega
  trans a b c h₁ h₂ := by
    simp only [recentLess] at h₁ h₂ ⊢
    split_ifs at h₁ h₂ ⊢ <;> simp_all <;> omega

/-! ### The rows that are read -/

/-- Every stored row of the given files. -/
def storedRows (summary : Bool) (fs : List Database) : List Listed :=
  fs.flatMap fun d => rowsOf d summary

theorem sqlLimit_sublist {α : Type} (n : Int) (xs : List α) : (sqlLimit n xs).Sublist xs := by
  rw [sqlLimit]
  split_ifs
  · exact List.Sublist.refl _
  · exact List.take_sublist _ _

theorem mem_fetchRows {r : Record} (h : r ∈ fetchRows d status search fetch) :
    (d, r) ∈ rowsOf d true := by
  obtain ⟨e, he, rfl⟩ := List.mem_map.mp h
  have hmem := (sqlLimit_sublist _ _).subset he
  rw [List.mem_insertionSort] at hmem
  exact List.mem_map.mpr ⟨e, List.mem_of_mem_filter hmem, rfl⟩

/-- The rows of a page are stored rows. -/
theorem queried_stored {paths : List String} {capped : Bool} (hfiles : filesOf disk paths = .ok fs)
    (h : queryShards R disk status search fetch paths = .ok (rows, capped)) :
    ∀ r ∈ rows, ∃ e ∈ storedRows true fs, Listed.decode R e = .ok r := by
  rw [queryShards_eq hfiles] at h
  cases hparts : fs.mapM (fetchFile R status search fetch) with
  | error e => rw [hparts] at h; cases h
  | ok parts =>
    rw [hparts] at h
    cases h
    intro r hr
    obtain ⟨part, hpart, hr⟩ := List.mem_flatten.mp hr
    obtain ⟨d, hd, hfetch⟩ := exists_of_mem_mapM hparts hpart
    obtain ⟨r₀, hr₀, hdecode⟩ := exists_of_mem_mapM hfetch hr
    exact ⟨(d, r₀), List.mem_flatMap.mpr ⟨d, hd, mem_fetchRows hr₀⟩, hdecode⟩

theorem newest_stored {out : List Record} (h : newestRecords R d summary limit = .ok out) :
    ∀ r ∈ out, ∃ e ∈ rowsOf d summary, Listed.decode R e = .ok r := by
  intro r hr
  obtain ⟨r₀, hr₀, hdecode⟩ := exists_of_mem_mapM h hr
  obtain ⟨e, he, rfl⟩ := List.mem_map.mp hr₀
  have hmem := (sqlLimit_sublist _ _).subset he
  rw [List.mem_insertionSort] at hmem
  exact ⟨_, List.mem_map.mpr ⟨e, hmem, rfl⟩, hdecode⟩

theorem merged_stored : ∀ {locs : List (String × Int)} {out out' : List Record},
    (∀ p ∈ locs, ∃ d ∈ fs, disk.openFile p.1 = .ok d) →
    (∀ r ∈ out, ∃ e ∈ storedRows summary fs, Listed.decode R e = .ok r) →
    mergeSegments R S disk limit summary locs out = .ok out' →
    ∀ r ∈ out', ∃ e ∈ storedRows summary fs, Listed.decode R e = .ok r
  | [], out, out', _, hout, h => by
    cases h
    exact hout
  | (path, maxID) :: locs, out, out', hlocs, hout, h => by
    obtain ⟨stop, -, h⟩ := except_bind_ok.mp h
    cases stop with
    | true =>
      cases h
      exact hout
    | false =>
      obtain ⟨d, hd, h'⟩ := hlocs (path, maxID) (by simp)
      obtain ⟨d', hd', hrest⟩ := except_bind_ok.mp h
      rw [h'] at hd'
      cases hd'
      obtain ⟨part, hpart, hrest⟩ := except_bind_ok.mp hrest
      refine merged_stored (fun p hp => hlocs p (List.mem_cons_of_mem _ hp)) ?_ hrest
      intro r hr
      have hmem := (S.perm _ _).subset (List.mem_of_mem_take hr)
      rcases List.mem_append.mp hmem with hmem | hmem
      · exact hout r hmem
      · obtain ⟨e, he, hdecode⟩ := newest_stored hpart r hmem
        exact ⟨e, List.mem_flatMap.mpr ⟨d, hd, he⟩, hdecode⟩

theorem location_mem {p : String × Int} (h : p ∈ d.locations) : p.1 ∈ segmentPaths d := by
  rw [Database.locations] at h
  rw [segmentPaths]
  split_ifs at h ⊢
  · obtain ⟨e, he, rfl⟩ := List.mem_map.mp h
    rw [List.mem_insertionSort] at he
    exact List.mem_map.mpr ⟨e, he, rfl⟩
  · simp at h

theorem recent_stored {out : List Record} (hfiles : shardFiles disk path = .ok fs)
    (h : recentRecords R S disk path limit summary = .ok out) :
    ∀ r ∈ out, ∃ e ∈ storedRows summary fs, Listed.decode R e = .ok r := by
  obtain ⟨d, hd, hfiles⟩ := except_bind_ok.mp hfiles
  obtain ⟨segments, hsegments, hfs⟩ := except_bind_ok.mp hfiles
  rw [except_pure_ok] at hfs
  subst hfs
  obtain ⟨d', hd', h⟩ := except_bind_ok.mp h
  rw [hd] at hd'
  cases hd'
  obtain ⟨active, hactive, h⟩ := except_bind_ok.mp h
  refine merged_stored ?_ ?_ h
  · intro p hp
    obtain ⟨seg, hseg, hopen⟩ := exists_mem_mapM hsegments (location_mem hp)
    exact ⟨seg, List.mem_cons_of_mem _ hseg, hopen⟩
  · intro r hr
    obtain ⟨e, he, hdecode⟩ := newest_stored hactive r hr
    exact ⟨e, List.mem_flatMap.mpr ⟨d, by simp, he⟩, hdecode⟩

theorem recents_stored : ∀ {paths : List String} {fs : List Database}
    {rows : List Record}, filesOf disk paths = .ok fs →
    recentOfShards R S disk limit summary paths = .ok rows →
    ∀ r ∈ rows, ∃ e ∈ storedRows summary fs, Listed.decode R e = .ok r
  | [], fs, rows, _, h => by
    cases h
    simp
  | path :: paths, fs, rows, hfiles, h => by
    obtain ⟨files, hfiles₁, hfiles⟩ := except_bind_ok.mp hfiles
    obtain ⟨rest, hfiles₂, hfs⟩ := except_bind_ok.mp hfiles
    rw [except_pure_ok] at hfs
    subst hfs
    obtain ⟨recs, hrecs, h⟩ := except_bind_ok.mp h
    obtain ⟨recs', hrecs', h⟩ := except_bind_ok.mp h
    rw [except_pure_ok] at h
    subst h
    intro r hr
    rcases List.mem_append.mp hr with hr | hr
    · obtain ⟨e, he, hdecode⟩ := recent_stored hfiles₁ hrecs r hr
      exact ⟨e, by rw [storedRows, List.flatMap_append]; exact List.mem_append_left _ he, hdecode⟩
    · obtain ⟨e, he, hdecode⟩ := recents_stored hfiles₂ hrecs' r hr
      exact ⟨e, by rw [storedRows, List.flatMap_append]; exact List.mem_append_right _ he, hdecode⟩

/-! ### The push log -/

theorem stat_ok (h : filesOf disk (shardPaths disk path) = .ok fs) : disk.stat path = .ok () := by
  rw [shardPaths] at h
  obtain ⟨files, hfiles, -⟩ := except_bind_ok.mp h
  obtain ⟨d, hd, -⟩ := except_bind_ok.mp hfiles
  rw [Disk.stat, hd]

/-- A page is cut out of the listing. -/
theorem listPushLogs_page (now : Int) {q : PushLogQuery} {capped : Bool}
    (hfiles : filesOf disk (shardPaths disk path) = .ok fs)
    (hstatus : statusFilter q.status = .ok status)
    (h : queryShards R disk status (trimSpace q.search) (fetchSize (max q.offset 0)
      (pageLimit q.limit)) (shardPaths disk path) = .ok (rows, capped)) :
    ∃ page more, listPushLogs R S disk path now q = .ok (page, more) ∧
      page.Sublist (pushEntries R S now rows) := by
  rw [listPushLogs, stat_ok hfiles, hstatus]
  simp only [bind, Except.bind]
  rw [h]
  simp only
  split_ifs
  · exact ⟨_, _, rfl, List.nil_sublist _⟩
  · exact ⟨_, _, rfl, (List.drop_sublist _ _).trans (List.take_sublist _ _)⟩

/-- Over all orders of rows that tie, the listing is right exactly when every fetched row of an older
    revision is behind one of the latest. -/
theorem pushEntries_latest_iff (now : Int)
    (hstored : ∀ r ∈ rows, ∃ e ∈ stored, Listed.decode R e = .ok r) :
    (∀ S, OneLatest R now true stored (pushEntries R S now rows)) ↔
      LatestFirst R pushLess stored rows := by
  have hmem : ∀ S : Sorter Record, ∀ r ∈ S.sort pushLess rows,
      ∃ e ∈ stored, Listed.decode R e = .ok r := fun S r hr =>
    hstored r ((S.perm pushLess rows).subset hr)
  constructor
  · intro h
    exact latestFirst_of_shown fun S => (oneLatest_iff (hmem S)).mp (h S)
  · intro h S
    refine (oneLatest_iff (hmem S)).mpr ?_
    have hshown := h.shown ranks_pushLess (S.perm pushLess rows) (S.sorted _ ranks_pushLess rows)
      (S.sort pushLess rows).length
    rw [List.take_length] at hshown
    exact hshown

/-- **The push log and the update times**: an unfiltered listing shows every event once, by its latest
    revision, exactly when no row it fetched of an older revision is level with or ahead of all
    fetched rows of the latest. -/
theorem pushLogs_latest_iff (R : ReadCodec) (disk : Disk) (path : String) (now : Int)
    (fs : List Database) (hfiles : filesOf disk (shardPaths disk path) = .ok fs) :
    (∀ (q : PushLogQuery) (rows : List Record) (capped : Bool), q.status = "" →
      trimSpace q.search = [] →
      queryShards R disk none [] (fetchSize (max q.offset 0) (pageLimit q.limit))
        (shardPaths disk path) = .ok (rows, capped) →
      ((∀ S, OneLatest R now true (storedRows true fs) (pushEntries R S now rows)) ↔
        LatestFirst R pushLess (storedRows true fs) rows) ∧
      (LatestFirst R pushLess (storedRows true fs) rows → ∀ S, ∃ page more,
        listPushLogs R S disk path now q = .ok (page, more) ∧
          OneLatest R now true (storedRows true fs) page)) ∧
    ∀ (limit : Int) (summary : Bool) (S : Sorter Record) (rows : List Record),
      recentOfShards R S disk (pageLimit limit * 4) summary (shardPaths disk path) = .ok rows →
      LatestFirst R recentLess (storedRows summary fs) rows →
      ∃ logs, recentPushLogs R S disk path limit now summary = .ok logs ∧
        OneLatest R now summary (storedRows summary fs) logs := by
  constructor
  · intro q rows capped hstatus hsearch hrows
    have hiff := pushEntries_latest_iff now (queried_stored hfiles hrows)
    refine ⟨hiff, fun hfirst S => ?_⟩
    have hfilter : statusFilter q.status = .ok none := by rw [hstatus]; rfl
    rw [← hsearch] at hrows
    obtain ⟨page, more, hpage, hsub⟩ := listPushLogs_page (S := S) now hfiles hfilter hrows
    exact ⟨page, more, hpage, (hiff.mpr hfirst S).sublist hsub⟩
  · intro limit summary S rows hrows hfirst
    refine ⟨(collapse R now summary ((S.sort recentLess rows).take (pageLimit limit * 4).toNat)
      []).take (pageLimit limit).toNat, ?_, ?_⟩
    · rw [recentPushLogs, stat_ok hfiles]
      simp only [bind, Except.bind]
      rw [hrows]
      rfl
    · have hshown := hfirst.shown ranks_recentLess (S.perm recentLess rows)
        (S.sorted _ ranks_recentLess rows) (pageLimit limit * 4).toNat
      have hmem : ∀ r ∈ (S.sort recentLess rows).take (pageLimit limit * 4).toNat,
          ∃ e ∈ storedRows summary fs, Listed.decode R e = .ok r := fun r hr =>
        recents_stored hfiles hrows r ((S.perm _ _).subset (List.mem_of_mem_take hr))
      exact ((oneLatest_iff hmem).mpr hshown).sublist (List.take_sublist _ _)

/-! ### Two delivery histories -/

/-- A reader that knows the given events by their text. -/
def knownReader (events : List ThreatEvent) : ReadCodec :=
  (Plain.codec fun b => events.find? fun ev => marshal Plain.json ev.toValue == some b).reader

/-- A disk with one queue file. -/
def oneFile (db : Db) : Disk where
  openFile path := if path = "events.db" then .ok { db := db } else .error (.stat path)
  glob _ := []

/-- Two revisions are queued and pushed one after the other. -/
def inOrder (C : Codec) : Except Err Db := do
  let (_, db) ← enqueue C .legacy 1 (revision 1) newDb
  let (_, db) ← enqueue C .legacy 2 (revision 2) db
  return markPushed "e1" 2 4 (markPushed "e1" 1 3 db)

/-- Two revisions are queued, the second is pushed, and then a push of the first one fails. -/
def lateRetry (C : Codec) : Except Err Db := do
  let (_, db) ← enqueue C .legacy 1 (revision 1) newDb
  let (_, db) ← enqueue C .legacy 2 (revision 2) db
  return markFailed "e1" 1 "timeout" 4 (markPushed "e1" 2 3 db)

def twoRevisions : ReadCodec := knownReader [revision 1, revision 2]

theorem filesOf_oneFile {db : Db} (h : segmentPaths { db := db } = []) :
    filesOf (oneFile db) (shardPaths (oneFile db) "events.db") = .ok [{ db := db }] := by
  have hopen : (oneFile db).openFile "events.db" = .ok { db := db } := rfl
  have hpaths : shardPaths (oneFile db) "events.db" = ["events.db"] := rfl
  rw [hpaths, filesOf, shardFiles, hopen]
  simp only [bind, Except.bind, h, List.mapM_nil, pure, Except.pure, filesOf, List.append_nil]

/-- Pushed in order, the event is shown by its second revision. -/
theorem pushLogs_latest_iff_inOrder : ∃ db, inOrder twoRevisions.toCodec = .ok db ∧
    ∃ page more, listPushLogs twoRevisions (.insertion Record) (oneFile db) "events.db" 5
        { limit := 50 } = .ok (page, more) ∧
      OneLatest twoRevisions 5 true (storedRows true [{ db := db }]) page := by
  have hrun : ((inOrder twoRevisions.toCodec).toOption.bind fun db =>
      (queryShards twoRevisions (oneFile db) none [] 200 ["events.db"]).toOption.map fun p =>
        (segmentPaths { db := db }).isEmpty &&
        decide (p.1.Pairwise fun a b => eventKey twoRevisions a = none ∨
          eventKey twoRevisions b = none → shownID twoRevisions a ≠ shownID twoRevisions b) &&
        decide (∀ r ∈ p.1, Newest twoRevisions (storedRows true [{ db := db }])
          (shownID twoRevisions r) (shownRevision twoRevisions r) ∨ eventKey twoRevisions r ≠ none ∧
          ∃ r' ∈ p.1, eventKey twoRevisions r' = eventKey twoRevisions r ∧
            Newest twoRevisions (storedRows true [{ db := db }]) (shownID twoRevisions r')
              (shownRevision twoRevisions r') ∧ pushLess r' r = true)) = some true := by
    decide +kernel
  obtain ⟨db, hdb, hrows⟩ := Option.bind_eq_some_iff.mp hrun
  obtain ⟨⟨rows, capped⟩, hrows, hfirst⟩ := Option.map_eq_some_iff.mp hrows
  rw [Bool.and_eq_true, Bool.and_eq_true, decide_eq_true_iff, decide_eq_true_iff,
    List.isEmpty_iff] at hfirst
  obtain ⟨⟨hempty, hdistinct⟩, hahead⟩ := hfirst
  rw [except_toOption_some] at hdb hrows
  obtain ⟨hpages, -⟩ := pushLogs_latest_iff twoRevisions (oneFile db) "events.db" 5 [{ db := db }]
    (filesOf_oneFile hempty)
  obtain ⟨-, hpage⟩ := hpages { limit := 50 } rows capped rfl rfl hrows
  exact ⟨db, hdb, hpage ⟨hahead, hdistinct⟩ (.insertion Record)⟩

/-- The ids and revisions a listing shows. -/
def shownPairs (logs : List PushLog) : List (String × Nat) :=
  logs.map fun l => (l.eventID, l.contextRevision)

/-- A listing that shows revision 1 of an event whose revision 2 is stored. -/
theorem not_oneLatest {logs : List PushLog} (hlogs : shownPairs logs = [("e1", 1)])
    (hstored : (stored.any fun e => (Listed.event R e).any fun ev =>
      ev.eventID == "e1" && ev.contextRevision == 2) = true) :
    ¬OneLatest R now summary stored logs := by
  intro h
  obtain ⟨log, rfl, hlog⟩ : ∃ log, logs = [log] ∧ (log.eventID, log.contextRevision) = ("e1", 1) :=
    List.map_eq_singleton_iff.mp hlogs
  obtain ⟨e, he, hany⟩ := List.any_eq_true.mp hstored
  cases hev : Listed.event R e with
  | none => rw [hev] at hany; cases hany
  | some ev =>
    rw [hev, Option.any_some, Bool.and_eq_true, beq_iff_eq, beq_iff_eq] at hany
    rw [Prod.mk.injEq] at hlog
    have hle := h.latest log (by simp) e he ev hev (hany.1.trans hlog.1.symm)
    omega

/-- The log then shows the first revision, though the second is stored. -/
theorem retried_revision_shown : ∃ db, lateRetry twoRevisions.toCodec = .ok db ∧
    (∃ page more, listPushLogs twoRevisions (.insertion Record) (oneFile db) "events.db" 5
        { limit := 50 } = .ok (page, more) ∧
      ¬OneLatest twoRevisions 5 true (storedRows true [{ db := db }]) page) ∧
    ∀ summary, ∃ logs, recentPushLogs twoRevisions (.insertion Record) (oneFile db) "events.db" 50 5
        summary = .ok logs ∧
      ¬OneLatest twoRevisions 5 summary (storedRows summary [{ db := db }]) logs := by
  have hrun : (lateRetry twoRevisions.toCodec).isOk = true := by decide +kernel
  have hstored : ∀ summary, ((lateRetry twoRevisions.toCodec).toOption.map fun db =>
      (storedRows summary [{ db := db }]).any fun e => (Listed.event twoRevisions e).any fun ev =>
        ev.eventID == "e1" && ev.contextRevision == 2) = some true := by decide +kernel
  have hpage : ((lateRetry twoRevisions.toCodec).toOption.bind fun db =>
      (listPushLogs twoRevisions (.insertion Record) (oneFile db) "events.db" 5
        { limit := 50 }).toOption.map fun p => shownPairs p.1) = some [("e1", 1)] := by
    decide +kernel
  have hrecent : ∀ summary, ((lateRetry twoRevisions.toCodec).toOption.bind fun db =>
      (recentPushLogs twoRevisions (.insertion Record) (oneFile db) "events.db" 50 5
        summary).toOption.map shownPairs) = some [("e1", 1)] := by decide +kernel
  obtain ⟨db, hdb⟩ := except_isOk.mp hrun
  rw [hdb] at hpage
  simp only [hdb] at hstored hrecent
  refine ⟨db, hdb, ?_, fun summary => ?_⟩
  · obtain ⟨⟨page, more⟩, hok, hshown⟩ := Option.map_eq_some_iff.mp hpage
    exact ⟨page, more, except_toOption_some.mp hok,
      not_oneLatest hshown (Option.some.inj (hstored true))⟩
  · obtain ⟨logs, hok, hshown⟩ := Option.map_eq_some_iff.mp (hrecent summary)
    exact ⟨logs, except_toOption_some.mp hok,
      not_oneLatest hshown (Option.some.inj (hstored summary))⟩

end TaNode.Queue

import TaNode.Queue.PushLog

/-! Paging through the push log: the pages at offsets `0, L, 2L, …`, each cut out of a listing of its
    own.

        page k:  first 4(k+1)L matching rows of each file ──▶ listing k ──▶ entries kL … (k+1)L

    A page is a page of the listing of all matching rows as long as it reads all of them, or the
    newest row of each of the first `(k+1)L` events and no ties. An event with many revisions pushes
    others out of that window, and their entries are skipped or shown twice. -/

namespace TaNode.Queue

section
variable (R : ReadCodec) (S : Sorter Record) (disk : Disk) (path : String) (now : Int)
  (size : Nat) (status : String) (search : Bytes)

/-- The request for page `k`. -/
def pageAt (k : Nat) : Except ReadErr (List PushLog × Bool) :=
  listPushLogs R S disk path now ⟨(k * size : Nat), size, status, search⟩

/-- The entries of page `k`. -/
def entriesAt (k : Nat) : List PushLog :=
  match pageAt R S disk path now size status search k with
  | .ok (page, _) => page
  | .error _ => []

/-- What the rows list: every event once, and every row that holds none. -/
def listedIDs (rows : List Record) : List String :=
  (rows.filterMap (eventKey R)).dedup ++ (rows.filter fun r => (eventKey R r).isNone).map (·.key)

/-- Asking for pages until `has_more` is false gives each of the ids once. -/
def Tiles (ids : List String) : Prop :=
  ∃ last, (∀ k < last, ∃ page, pageAt R S disk path now size status search k = .ok (page, true)) ∧
    (∃ page, pageAt R S disk path now size status search last = .ok (page, false)) ∧
    (((List.range (last + 1)).flatMap (entriesAt R S disk path now size status search)).map
      (·.eventID)).Perm ids

end

/-- The rows of each file that a page reads. -/
def windows (fetch : Nat) (parts : List (List Record)) : List Record :=
  (parts.map (List.take fetch)).flatten

/-- The newest row of each event, newest first. -/
def newestRows (R : ReadCodec) (S : Sorter Record) (rows : List Record) : List Record :=
  firsts (eventKey R) (S.sort pushLess rows) []

/-- None of some rows ties with another row of the files. -/
def Untied (parts : List (List Record)) (some : List Record) : Prop :=
  parts.flatten.Pairwise fun a b => a ∈ some ∨ b ∈ some → pushLess a b = true ∨ pushLess b a = true

/-- A page sees its entries: it reads all rows, or no row it reads ties with another and it reads the
    newest row of every event up to its end. -/
def PageReads (R : ReadCodec) (S : Sorter Record) (size : Nat) (parts : List (List Record)) (k : Nat) :
    Prop :=
  let fetch := min (4 * ((k + 1) * size)) 20000
  (∀ part ∈ parts, part.length ≤ fetch) ∨
    Untied parts (windows fetch parts) ∧
      ∀ r ∈ (newestRows R S parts.flatten).take ((k + 1) * size), r ∈ windows fetch parts

/-- When paging works, in terms of the matching rows of each file: no file has more than a page can
    ever read, and each page sees its entries. -/
structure Pageable (R : ReadCodec) (S : Sorter Record) (size : Nat) (parts : List (List Record)) :
    Prop where
  bounded : ∀ part ∈ parts, part.length < 20000
  reads : ∀ k, PageReads R S size parts k

variable {R : ReadCodec} {S : Sorter Record} {disk : Disk} {path : String} {now : Int} {size : Nat}
  {parts : List (List Record)}

/-! ### Rows of a window -/

theorem fetchRows_take (d : Database) (status : Option Int) (search : Bytes) (fetch : Nat) :
    fetchRows d status search fetch = (fetchRows d status search (-1)).take fetch := by
  simp only [fetchRows, sqlLimit]
  rw [if_neg (by omega), if_pos (by decide), Int.toNat_natCast, List.map_take]

theorem fetchFile_take {d : Database} {status : Option Int} {search : Bytes} {part : List Record}
    (h : fetchFile R status search (-1) d = .ok part) (fetch : Nat) :
    fetchFile R status search fetch d = .ok (part.take fetch) := by
  rw [fetchFile] at h ⊢
  rw [fetchRows_take]
  rw [mapM_ok_iff] at h ⊢
  exact List.forall₂_take fetch h

theorem fetchFiles_take {status : Option Int} {search : Bytes} : ∀ {fs : List Database}
    {parts : List (List Record)}, fs.mapM (fetchFile R status search (-1)) = .ok parts →
    ∀ fetch : Nat, fs.mapM (fetchFile R status search fetch) = .ok (parts.map (List.take fetch))
  | [], parts, h, fetch => by
    rw [List.mapM_nil, except_pure_ok] at h
    rw [← h]
    rfl
  | d :: fs, parts, h, fetch => by
    obtain ⟨part, rest, hpart, hrest, rfl⟩ := mapM_cons_ok.mp h
    exact mapM_cons_ok.mpr ⟨_, _, fetchFile_take hpart fetch, fetchFiles_take hrest fetch, rfl⟩

theorem windows_sublist (fetch : Nat) : ∀ parts : List (List Record),
    (windows fetch parts).Sublist parts.flatten
  | [] => List.Sublist.refl _
  | part :: parts => by
    rw [windows, List.map_cons, List.flatten_cons, List.flatten_cons]
    exact (List.take_sublist _ _).append (windows_sublist fetch parts)

/-- What is left of the rows when every window is full. -/
theorem windows_all {fetch : Nat} (h : ∀ part ∈ parts, part.length ≤ fetch) :
    windows fetch parts = parts.flatten := by
  rw [windows]
  congr 1
  conv_rhs => rw [← List.map_id parts]
  exact List.map_congr_left fun part hpart => List.take_of_length_le (h part hpart)

/-! ### Sorting a window -/

/-- Without ties, the sorted rows of a window are the sorted rows of all files, thinned out. -/
theorem sort_windows {fetch : Nat} (huntied : Untied parts (windows fetch parts)) :
    S.sort pushLess (windows fetch parts) = (S.sort pushLess parts.flatten).filter
      fun r => decide (r ∈ windows fetch parts) := by
  have hown : (parts.flatten.filter fun r => decide (r ∈ windows fetch parts)).Pairwise
      fun a b => pushLess a b = true ∨ pushLess b a = true := by
    rw [List.pairwise_filter]
    exact huntied.imp fun h ha _ => h (.inl (of_decide_eq_true ha))
  have hnodup : (parts.flatten.filter fun r => decide (r ∈ windows fetch parts)).Nodup := by
    refine hown.imp ?_
    rintro a b h rfl
    rw [ranks_pushLess.irrefl] at h
    simp at h
  have hsub : (windows fetch parts).Sublist
      (parts.flatten.filter fun r => decide (r ∈ windows fetch parts)) := by
    have h := (windows_sublist fetch parts).filter fun r => decide (r ∈ windows fetch parts)
    rwa [List.filter_eq_self.mpr fun r hr => decide_eq_true hr] at h
  have hall : (parts.flatten.filter fun r => decide (r ∈ windows fetch parts)).Perm
      (windows fetch parts) := by
    rw [List.perm_ext_iff_of_nodup hnodup (hnodup.sublist hsub)]
    exact fun r => ⟨fun h => of_decide_eq_true (List.mem_filter.mp h).2, fun h => hsub.subset h⟩
  have hthin := ((S.perm pushLess parts.flatten).filter
    fun r => decide (r ∈ windows fetch parts)).trans hall
  refine List.Perm.eq_of_pairwise ?_ (S.sorted _ ranks_pushLess _)
    ((S.sorted _ ranks_pushLess _).filter _) ((S.perm _ _).trans hthin.symm)
  intro a b ha hb hab hba
  by_contra hne
  have hsymm : Std.Symm fun a b => pushLess a b = true ∨ pushLess b a = true := ⟨fun _ _ h => h.symm⟩
  rcases hown.forall (hsub.subset ((S.perm _ _).subset ha)) (hsub.subset (hthin.subset hb)) hne with
    h | h
  · rw [hba] at h
    cases h
  · rw [hab] at h
    cases h

/-- A page that sees its entries lists the events up to its end as the listing of all rows does. -/
theorem pushEntries_take {k : Nat} (now : Int) (h : PageReads R S size parts k) :
    (pushEntries R S now (windows (min (4 * ((k + 1) * size)) 20000) parts)).take ((k + 1) * size) =
      ((newestRows R S parts.flatten).map (entry R now true)).take ((k + 1) * size) := by
  rcases h with hall | ⟨huntied, hreads⟩
  · rw [windows_all hall, pushEntries, collapse_eq]
    rfl
  · rw [pushEntries, collapse_eq, sort_windows huntied, ← List.map_take, ← List.map_take]
    congr 1
    exact firsts_filter _ _ [] fun r hr => decide_eq_true (hreads r hr)

/-! ### The ids of a listing -/

theorem shownIDs_split : ∀ rows : List Record, (rows.map (shownID R)).Perm
    (rows.filterMap (eventKey R) ++ (rows.filter fun r => (eventKey R r).isNone).map (·.key))
  | [] => List.Perm.refl _
  | r :: rows => by
    cases h : eventKey R r with
    | none =>
      rw [List.map_cons, List.filterMap_cons_none h, List.filter_cons_of_pos (by rw [h]; rfl),
        List.map_cons, shownID, h]
      exact ((shownIDs_split rows).cons _).trans List.perm_middle.symm
    | some k =>
      rw [List.map_cons, List.filterMap_cons_some h, List.filter_cons_of_neg (by rw [h]; simp),
        shownID_of_key h]
      exact (shownIDs_split rows).cons _

/-- The listing of rows in any order shows what is to be listed. -/
theorem listedIDs_perm {rows sorted : List Record} (hperm : sorted.Perm rows) :
    ((firsts (eventKey R) sorted []).map (shownID R)).Perm (listedIDs R rows) := by
  refine (shownIDs_split _).trans (List.Perm.append ?_ ?_)
  · have hnodup : ((firsts (eventKey R) sorted []).filterMap (eventKey R)).Nodup := by
      rw [List.Nodup, List.pairwise_filterMap]
      refine (firsts_pairwise sorted []).imp fun h j hj k hk => ?_
      rintro rfl
      exact h j hj hk
    rw [List.perm_ext_iff_of_nodup hnodup (List.nodup_dedup _)]
    intro k
    rw [List.mem_dedup, List.mem_filterMap, List.mem_filterMap]
    constructor
    · rintro ⟨r, hr, hk⟩
      exact ⟨r, hperm.subset ((firsts_sublist _ _).subset hr), hk⟩
    · rintro ⟨r, hr, hk⟩
      exact exists_firsts (hperm.symm.subset hr) hk (List.not_mem_nil)
  · rw [filter_firsts]
    exact (hperm.filter _).map _

/-! ### One page -/

variable {k : Nat}

/-- A page end that fits an `int`. -/
theorem pageEnd_eq (hk : (k + 1) * size < 2 ^ 60) :
    pageEnd (k * size : Nat) size = ((k + 1) * size : Nat) := by
  have hend : ((k * size : Nat) : Int) + (size : Int) = ((k + 1) * size : Nat) := by
    rw [Nat.succ_mul, Int.natCast_add]
  rw [pageEnd, hend]
  exact Int.bmod_eq_of_le (by omega) (by omega)

theorem fetchSize_eq (hk : (k + 1) * size < 2 ^ 60) :
    fetchSize (k * size : Nat) size = (min (4 * ((k + 1) * size)) 20000 : Nat) := by
  have hfetch : (((k + 1) * size : Nat) * fetchBuffer).bmod (2 ^ 64) =
      (4 * ((k + 1) * size) : Nat) := by
    rw [fetchBuffer, Int.bmod_eq_of_le (by omega) (by omega)]
    omega
  simp only [fetchSize, pageEnd_eq hk, hfetch, maxFetch]
  split_ifs <;> omega

variable {status : String} {search : Bytes} {filter : Option Int} {fs : List Database}

/-- The answer to the request for page `k`. -/
theorem pageAt_eq (hfiles : filesOf disk (shardPaths disk path) = .ok fs)
    (hstatus : statusFilter status = .ok filter)
    (hparts : fs.mapM (fetchFile R filter (trimSpace search) (-1)) = .ok parts)
    (hsize : 1 ≤ size ∧ size ≤ 200) (hk : (k + 1) * size < 2 ^ 60) :
    pageAt R S disk path now size status search k =
      .ok (((pushEntries R S now (windows (min (4 * ((k + 1) * size)) 20000) parts)).take
          ((k + 1) * size)).drop (k * size),
        parts.any (fun part => decide (min (4 * ((k + 1) * size)) 20000 ≤ part.length)) ||
          decide ((k + 1) * size <
            (pushEntries R S now (windows (min (4 * ((k + 1) * size)) 20000) parts)).length)) := by
  have hlimit : pageLimit size = size := by rw [pageLimit, if_neg (by omega)]
  have hoffset : max ((k * size : Nat) : Int) 0 = (k * size : Nat) := by omega
  rw [pageAt, listPushLogs, stat_ok hfiles]
  simp only [hlimit, hoffset, hstatus, bind, Except.bind, fetchSize_eq hk, pageEnd_eq hk]
  rw [queryShards_eq hfiles, fetchFiles_take hparts]
  have hcapped : ((parts.map (List.take (min (4 * ((k + 1) * size)) 20000))).any fun part =>
      (part.length : Int) == (min (4 * ((k + 1) * size)) 20000 : Nat)) =
      parts.any fun part => decide (min (4 * ((k + 1) * size)) 20000 ≤ part.length) := by
    rw [List.any_map]
    congr 1
    funext part
    rw [Function.comp_apply, List.length_take, Bool.eq_iff_iff, beq_iff_eq, decide_eq_true_iff]
    omega
  simp only [Except.map, gathered, hcapped, Int.toNat_natCast, gt_iff_lt, ge_iff_le, Int.ofNat_lt,
    Int.ofNat_le]
  rw [windows]
  split_ifs with hpast
  · rw [List.drop_eq_nil_of_le (by rw [List.length_take]; omega)]
    rfl
  · rfl

/-! ### All pages -/

section
variable (hfiles : filesOf disk (shardPaths disk path) = .ok fs)
  (hstatus : statusFilter status = .ok filter)
  (hparts : fs.mapM (fetchFile R filter (trimSpace search) (-1)) = .ok parts)
  (hsize : 1 ≤ size ∧ size ≤ 200) (h : Pageable R S size parts)
include hfiles hstatus hparts hsize h

/-- A page in order is a page of the listing of all matching rows. -/
theorem entriesAt_eq (hk : (k + 1) * size < 2 ^ 60) :
    entriesAt R S disk path now size status search k =
      (((newestRows R S parts.flatten).map (entry R now true)).take ((k + 1) * size)).drop (k * size) := by
  rw [entriesAt, pageAt_eq hfiles hstatus hparts hsize hk]
  simp only
  rw [pushEntries_take now (h.reads k)]

omit h in
/-- When `has_more` is false, the end of the page is the end of the listing. -/
theorem length_of_last (hk : (k + 1) * size < 2 ^ 60) {page : List PushLog}
    (hlast : pageAt R S disk path now size status search k = .ok (page, false)) :
    (newestRows R S parts.flatten).length ≤ (k + 1) * size := by
  rw [pageAt_eq hfiles hstatus hparts hsize hk, Except.ok.injEq, Prod.mk.injEq, Bool.or_eq_false_iff,
    List.any_eq_false, decide_eq_false_iff_not] at hlast
  obtain ⟨-, hcapped, hlength⟩ := hlast
  have hall : windows (min (4 * ((k + 1) * size)) 20000) parts = parts.flatten := by
    refine windows_all fun part hpart => ?_
    have := hcapped part hpart
    rw [decide_eq_true_iff] at this
    omega
  rw [hall, pushEntries, collapse_eq, List.length_map, Nat.not_lt] at hlength
  exact hlength

omit hfiles hstatus hparts h in
theorem bound_of_rows (hrows : parts.flatten.length < 2 ^ 50) :
    (5000 + parts.flatten.length + 1) * size < 2 ^ 60 :=
  calc (5000 + parts.flatten.length + 1) * size
      ≤ (5000 + parts.flatten.length + 1) * 200 := Nat.mul_le_mul_left _ hsize.2
    _ < 2 ^ 60 := by omega

/-- Some page ends the listing: no window is full, and no entry is left. -/
theorem exists_last (hrows : parts.flatten.length < 2 ^ 50) : ∃ page,
    pageAt R S disk path now size status search (5000 + parts.flatten.length) = .ok (page, false) := by
  have hbound := bound_of_rows hsize hrows
  have hend : 5000 + parts.flatten.length + 1 ≤ (5000 + parts.flatten.length + 1) * size :=
    Nat.le_mul_of_pos_right _ hsize.1
  rw [pageAt_eq hfiles hstatus hparts hsize hbound]
  refine ⟨_, congrArg Except.ok (Prod.ext rfl ?_)⟩
  simp only [Bool.or_eq_false_iff, List.any_eq_false, decide_eq_false_iff_not, decide_eq_true_iff]
  constructor
  · intro part hpart
    have := h.bounded part hpart
    omega
  · rw [pushEntries, collapse_eq, List.length_map]
    have hfirsts : (firsts (eventKey R) (S.sort pushLess (windows
        (min (4 * ((5000 + parts.flatten.length + 1) * size)) 20000) parts)) []).length ≤ _ :=
      (firsts_sublist _ _).length_le
    rw [(S.perm _ _).length_eq] at hfirsts
    have hwindows := (windows_sublist
      (min (4 * ((5000 + parts.flatten.length + 1) * size)) 20000) parts).length_le
    omega

end

/-- Where every window holds all rows, each page sees its entries. -/
theorem pageable_of_short (hshort : ∀ part ∈ parts, part.length ≤ 4 * size ∧ part.length < 20000) :
    Pageable R S size parts where
  bounded part hpart := (hshort part hpart).2
  reads k := by
    have hsize' : size ≤ (k + 1) * size := Nat.le_mul_of_pos_left _ (Nat.succ_pos k)
    exact .inl fun part hpart => by have := hshort part hpart; omega

/-- A disk with a queue file and one shard file. -/
def twoFiles (db shard : Db) : Disk where
  openFile path := if path = "events.db" then .ok { db := db }
    else if path = "events.db.shard1" then .ok { db := shard } else .error (.stat path)
  glob _ := ["events.db.shard1"]

theorem filesOf_twoFiles {db shard : Db} (h : segmentPaths { db := db } = [])
    (h' : segmentPaths { db := shard } = []) :
    filesOf (twoFiles db shard) (shardPaths (twoFiles db shard) "events.db") =
      .ok [{ db := db }, { db := shard }] := by
  have hopen : (twoFiles db shard).openFile "events.db" = .ok { db := db } := rfl
  have hopen' : (twoFiles db shard).openFile "events.db.shard1" = .ok { db := shard } := rfl
  have hglob : ["events.db.shard1"].filter (fun m =>
      isAtoi (String.ofList (m.toList.drop ("events.db" ++ ".shard").length))) =
      ["events.db.shard1"] := by decide +kernel
  rw [shardPaths, twoFiles, hglob, ← twoFiles]
  simp only [filesOf, shardFiles, hopen, hopen', h, h', bind, Except.bind, List.mapM_nil, pure,
    Except.pure, List.cons_append, List.nil_append]

/-- Two events of one second. -/
def tiedEvents : List ThreatEvent :=
  [{ eventID := "x", eventTime := 7 }, { eventID := "y", eventTime := 7 }]

/-- An event, and after it eight revisions of another one. -/
def crowd : List ThreatEvent :=
  { eventID := "y", eventTime := 7 } ::
    (List.range 8).map fun n => { eventID := "x", eventTime := 7, contextRevision := n + 1 }

/-- Enqueues the events one second after the other. -/
def enqueueAll (C : Codec) : Int → List ThreatEvent → Db → Except Err Db
  | _, [], db => .ok db
  | now, ev :: evs, db => do
    let (_, db) ← enqueue C .legacy now ev db
    enqueueAll C (now + 1) evs db

end TaNode.Queue

import Mathlib.Order.CompletePartialOrder
import Mathlib.Data.Set.BooleanAlgebra
import TaNode.Queue.Listing

/-! `recentRecords` is exact: it returns the records with the largest ids of the active table and
    all segments, though it stops opening segments early.

    The invariant of its loop is that what it holds is the front of what it has read. A segment it
    opens is merged in. When it stops, the segments that are left have no larger `max_id` than the
    one it stopped at, so every row of theirs stands behind a full front. -/

namespace TaNode.Queue

/-- A row of a listing, with the database it is read in. -/
abbrev Listed := Database × Record

/-- The rows of one file as a listing selects them. -/
def rowsOf (d : Database) (summary : Bool) : List Listed :=
  d.db.events.rows.entries.map fun e => (d, scanRecord e.1 (d.listed summary e.2))

/-- The rows of the active table and of every segment. -/
def history (d : Database) (seg : String → Database) (summary : Bool) : List Listed :=
  rowsOf d summary ++ d.locations.flatMap fun p => rowsOf (seg p.1) summary

/-- The `n` rows with the largest ids, in descending order. -/
def largest (n : Nat) (rows : List Listed) : List Listed :=
  (rows.insertionSort fun a b => b.2.id ≤ a.2.id).take n

/-- A row as the listing returns it. -/
def Listed.decode (R : ReadCodec) (e : Listed) : Except ReadErr Record := decodeRecord R e.1 e.2

/-- The row ids of a file. -/
def Database.ids (d : Database) : Set Int := {id | (d.db.events.rows.lookup id).isSome}

/-- The catalog of `d` is right: each segment opens and its `max_id` is its largest row id, and no
    two files share a row id. -/
structure Segmented (disk : Disk) (d : Database) (seg : String → Database) : Prop where
  opens : ∀ p ∈ d.locations, disk.openFile p.1 = .ok (seg p.1)
  greatest : ∀ p ∈ d.locations, IsGreatest (seg p.1).ids p.2
  apart : ∀ p ∈ d.locations, Disjoint d.ids (seg p.1).ids
  disjoint : ∀ p ∈ d.locations, ∀ q ∈ d.locations, p.1 ≠ q.1 →
    Disjoint (seg p.1).ids (seg q.1).ids

/-- Larger ids first. -/
def ById (a b : Listed) : Prop := b.2.id ≤ a.2.id

instance : DecidableRel ById := fun a b => inferInstanceAs (Decidable (b.2.id ≤ a.2.id))

instance : IsTrans Listed ById := ⟨fun _ _ _ h₁ h₂ => Int.le_trans h₂ h₁⟩

instance : Std.Total ById := ⟨fun a b => Int.le_total b.2.id a.2.id⟩

variable {R : ReadCodec} {S : Sorter Record} {disk : Disk} {d : Database} {path : String}
  {seg : String → Database} {summary : Bool} {limit : Int} {seen ps : List Listed}
  {out out' : List Record}

/-! ### Rows -/

theorem mem_rowsOf {e : Listed} (h : e ∈ rowsOf d summary) :
    ∃ id row, d.db.events.rows.lookup id = some row ∧
      e = (d, scanRecord id (d.listed summary row)) := by
  obtain ⟨f, hf, rfl⟩ := List.mem_map.mp h
  exact ⟨f.1, f.2, Table.lookup_eq_some_iff.mpr hf, rfl⟩

theorem id_mem_ids {e : Listed} (h : e ∈ rowsOf d summary) : e.2.id ∈ d.ids := by
  obtain ⟨id, row, hrow, rfl⟩ := mem_rowsOf h
  exact Option.isSome_iff_exists.mpr ⟨row, hrow⟩

/-- A file has one row under an id. -/
theorem rowsOf_inj {a b : Listed} (ha : a ∈ rowsOf d summary) (hb : b ∈ rowsOf d summary)
    (hid : a.2.id = b.2.id) : a = b := by
  obtain ⟨i, r, hi, rfl⟩ := mem_rowsOf ha
  obtain ⟨j, s, hj, rfl⟩ := mem_rowsOf hb
  obtain rfl : i = j := hid
  rw [hi] at hj
  rw [Option.some.inj hj]

/-- No two rows of the history share an id. -/
theorem history_inj (h : Segmented disk d seg) {a b : Listed} (ha : a ∈ history d seg summary)
    (hb : b ∈ history d seg summary) (hid : a.2.id = b.2.id) : a = b := by
  have hcross : ∀ p ∈ d.locations, ∀ x ∈ rowsOf d summary, ∀ y ∈ rowsOf (seg p.1) summary,
      x.2.id ≠ y.2.id := by
    intro p hp x hx y hy hxy
    exact Set.disjoint_left.mp (h.apart p hp) (id_mem_ids hx) (hxy ▸ id_mem_ids hy)
  rcases List.mem_append.mp ha with ha | ha <;> rcases List.mem_append.mp hb with hb | hb
  · exact rowsOf_inj ha hb hid
  · obtain ⟨p, hp, hb⟩ := List.mem_flatMap.mp hb
    exact absurd hid (hcross p hp a ha b hb)
  · obtain ⟨p, hp, ha⟩ := List.mem_flatMap.mp ha
    exact absurd hid.symm (hcross p hp b hb a ha)
  · obtain ⟨p, hp, ha⟩ := List.mem_flatMap.mp ha
    obtain ⟨q, hq, hb⟩ := List.mem_flatMap.mp hb
    by_cases hpq : p.1 = q.1
    · rw [hpq] at ha
      exact rowsOf_inj ha hb hid
    · exact absurd (hid ▸ id_mem_ids hb)
        (Set.disjoint_left.mp (h.disjoint p hp q hq hpq) (id_mem_ids ha))

/-! ### What the loop holds -/

/-- `out` is the decoded front of the rows in `seen`. -/
def Holding (R : ReadCodec) (n : Nat) (seen : List Listed) (out : List Record) : Prop :=
  ∃ ps, Front ById n seen ps ∧ List.Forall₂ (fun e r => Listed.decode R e = .ok r) ps out

/-- Decoding keeps the id. -/
theorem id_of_decode {e : Listed} {r : Record} (h : Listed.decode R e = .ok r) : r.id = e.2.id := by
  obtain ⟨b, -, hr⟩ := except_bind_ok.mp h
  rw [← except_pure_ok.mp hr]

theorem ranks_idLess : Ranks idLess := ranks_desc fun r : Record => r.id

theorem ids_of_decode (h : List.Forall₂ (fun e r => Listed.decode R e = .ok r) ps out) :
    out.map (·.id) = ps.map (·.2.id) := by
  induction h with
  | nil => rfl
  | cons he _ ih => rw [List.map_cons, List.map_cons, id_of_decode he, ih]

/-- One file: the front of its rows, decoded. -/
theorem newestRecords_eq (hlimit : 1 ≤ limit) :
    ∃ zs : List Listed, zs.Perm (rowsOf d summary) ∧ zs.Pairwise ById ∧
      newestRecords R d summary limit = (zs.take limit.toNat).mapM (Listed.decode R) := by
  have htotal : Std.Total fun a b : (_ : Int) × Row => b.1 ≤ a.1 :=
    ⟨fun a b => Int.le_total b.1 a.1⟩
  have htrans : IsTrans ((_ : Int) × Row) fun a b => b.1 ≤ a.1 :=
    ⟨fun _ _ _ h₁ h₂ => Int.le_trans h₂ h₁⟩
  refine ⟨(d.db.events.rows.entries.insertionSort fun a b => b.1 ≤ a.1).map fun e =>
    (d, scanRecord e.1 (d.listed summary e.2)), ?_, ?_, ?_⟩
  · exact (List.perm_insertionSort _ _).map _
  · rw [List.pairwise_map]
    exact List.pairwise_insertionSort (fun a b : (_ : Int) × Row => b.1 ≤ a.1) _
  · rw [newestRecords, sqlLimit, if_neg (by omega), ← List.map_take, List.mapM_map, List.mapM_map]
    rfl

theorem newestRecords_holding (hlimit : 1 ≤ limit) (h : newestRecords R d summary limit = .ok out) :
    Holding R limit.toNat (rowsOf d summary) out := by
  obtain ⟨zs, hperm, hsorted, heq⟩ := newestRecords_eq (R := R) (d := d) hlimit
  rw [heq, mapM_ok_iff] at h
  exact ⟨_, Front.take hperm hsorted, h⟩

theorem newestRecords_ok (hlimit : 1 ≤ limit)
    (h : ∀ e ∈ rowsOf d summary, ∃ r, Listed.decode R e = .ok r) :
    ∃ part, newestRecords R d summary limit = .ok part := by
  obtain ⟨zs, hperm, -, heq⟩ := newestRecords_eq (R := R) (d := d) hlimit
  rw [heq]
  exact mapM_ok_of_forall fun e he => h e (hperm.subset (List.mem_of_mem_take he))

/-- A segment that is opened is merged in. -/
theorem Holding.merge {n : Nat} {more : List Listed} {part : List Record}
    (h : Holding R n seen out) (hpart : Holding R n more part) :
    Holding R n (seen ++ more) ((S.sort idLess (out ++ part)).take n) := by
  obtain ⟨ps, hfront, hps⟩ := h
  obtain ⟨qs, hfront', hqs⟩ := hpart
  have hboth := List.rel_append hps hqs
  -- the sorted records are the decoded rows in some order
  obtain ⟨zs, hzs, hperm⟩ := List.perm_comp_forall₂ (S.perm idLess (out ++ part)) hboth.flip
  have hsorted : zs.Pairwise ById := by
    have hids : (zs.map (·.2.id)).Pairwise fun i j => j ≤ i := by
      rw [← ids_of_decode hzs.flip, List.pairwise_map]
      refine (S.sorted idLess ranks_idLess _).imp fun h => ?_
      exact Int.not_lt.mp (of_decide_eq_false h)
    rw [List.pairwise_map] at hids
    exact hids
  exact ⟨zs.take n, hfront.merge hfront' hperm hsorted, List.forall₂_take n hzs.flip⟩

/-- Where the loop stops, every row it has not read stands behind what it holds. -/
theorem Holding.stop {n : Nat} {more : List Listed} {last : Record} (h : Holding R n seen out)
    (hfull : n ≤ out.length) (hlast : out.getLast? = some last)
    (hmore : ∀ e ∈ more, e.2.id < last.id) : Holding R n (seen ++ more) out := by
  obtain ⟨ps, hfront, hps⟩ := h
  have hids := ids_of_decode hps
  refine ⟨ps, hfront.skip (hps.length_eq ▸ hfull) ?_, hps⟩
  have hle : ∀ a ∈ ps, last.id ≤ a.2.id := by
    obtain ⟨front, rfl⟩ := List.getLast?_eq_some_iff.mp hlast
    have hsorted : (ps.map (·.2.id)).Pairwise fun i j => j ≤ i :=
      List.pairwise_map.mpr hfront.ordered
    rw [← hids, List.map_append, List.pairwise_append] at hsorted
    intro a ha
    have hmem := List.mem_map_of_mem (f := fun e : Listed => e.2.id) ha
    rw [← hids, List.map_append, List.mem_append] at hmem
    rcases hmem with hmem | hmem
    · exact hsorted.2.2 _ hmem _ (by simp)
    · simp only [List.map_cons, List.map_nil, List.mem_singleton] at hmem
      exact Int.le_of_eq hmem.symm
  intro a ha b hb
  exact Int.le_of_lt (Int.lt_of_lt_of_le (hmore b hb) (hle a ha))

theorem reachesBack_true {maxID : Int} (h : reachesBack limit maxID out = .ok true) :
    limit ≤ out.length ∧ ∃ last, out.getLast? = some last ∧ maxID < last.id := by
  rw [reachesBack] at h
  by_cases hfull : limit ≤ out.length
  · rw [if_pos hfull] at h
    cases hlast : out.getLast? with
    | none => rw [hlast] at h; cases h
    | some last =>
      rw [hlast] at h
      exact ⟨hfull, last, rfl, of_decide_eq_true (Except.ok.inj h)⟩
  · rw [if_neg hfull] at h
    cases h

theorem reachesBack_ok (hlimit : 1 ≤ limit) (maxID : Int) :
    ∃ stop, reachesBack limit maxID out = .ok stop := by
  rw [reachesBack]
  by_cases hfull : limit ≤ out.length
  · rw [if_pos hfull]
    cases hlast : out.getLast? with
    | none =>
      rw [List.getLast?_eq_none_iff] at hlast
      rw [hlast, List.length_nil] at hfull
      omega
    | some last => exact ⟨_, rfl⟩
  · rw [if_neg hfull]
    exact ⟨false, rfl⟩

/-- The loop from any point on. -/
theorem mergeSegments_holding (hlimit : 1 ≤ limit) : ∀ {locs : List (String × Int)}
    {seen : List Listed} {out out' : List Record},
    locs.Pairwise (fun p q => q.2 ≤ p.2) →
    (∀ p ∈ locs, disk.openFile p.1 = .ok (seg p.1) ∧ IsGreatest (seg p.1).ids p.2) →
    Holding R limit.toNat seen out →
    mergeSegments R S disk limit summary locs out = .ok out' →
    Holding R limit.toNat (seen ++ locs.flatMap fun p => rowsOf (seg p.1) summary) out'
  | [], seen, out, out', _, _, hold, h => by
    cases h
    rw [List.flatMap_nil, List.append_nil]
    exact hold
  | (path, maxID) :: locs, seen, out, out', hsorted, hlocs, hold, h => by
    rw [List.pairwise_cons] at hsorted
    obtain ⟨stop, hstop, h⟩ := except_bind_ok.mp h
    cases stop with
    | true =>
      obtain ⟨hfull, last, hlast, hlt⟩ := reachesBack_true hstop
      cases h
      refine hold.stop (by omega) hlast ?_
      intro e he
      obtain ⟨p, hp, he⟩ := List.mem_flatMap.mp he
      have hmax : p.2 ≤ maxID := by
        rcases List.mem_cons.mp hp with rfl | hp
        · exact Int.le_refl _
        · exact hsorted.1 p hp
      have := (hlocs p hp).2.2 (id_mem_ids he)
      omega
    | false =>
      obtain ⟨d, hd, hrest⟩ := except_bind_ok.mp h
      rw [(hlocs (path, maxID) (by simp)).1] at hd
      cases hd
      obtain ⟨part, hpart, hrest⟩ := except_bind_ok.mp hrest
      have hmerged := hold.merge (S := S) (newestRecords_holding hlimit hpart)
      rw [List.flatMap_cons, ← List.append_assoc]
      exact mergeSegments_holding hlimit hsorted.2
        (fun p hp => hlocs p (List.mem_cons_of_mem _ hp)) hmerged hrest

/-- The loop ends with a result when every row can be decoded. -/
theorem mergeSegments_ok (hlimit : 1 ≤ limit) : ∀ {locs : List (String × Int)} {out : List Record},
    (∀ p ∈ locs, disk.openFile p.1 = .ok (seg p.1)) →
    (∀ p ∈ locs, ∀ e ∈ rowsOf (seg p.1) summary, ∃ r, Listed.decode R e = .ok r) →
    ∃ out', mergeSegments R S disk limit summary locs out = .ok out'
  | [], out, _, _ => ⟨out, rfl⟩
  | (path, maxID) :: locs, out, hopen, hdecode => by
    obtain ⟨stop, hstop⟩ := reachesBack_ok hlimit maxID
    cases stop with
    | true => exact ⟨out, except_bind_ok.mpr ⟨true, hstop, rfl⟩⟩
    | false =>
      obtain ⟨part, hpart⟩ := newestRecords_ok hlimit (hdecode (path, maxID) (by simp))
      obtain ⟨out', hout'⟩ := mergeSegments_ok hlimit
        (fun p hp => hopen p (List.mem_cons_of_mem _ hp))
        fun p hp => hdecode p (List.mem_cons_of_mem _ hp)
      refine ⟨out', except_bind_ok.mpr ⟨false, hstop, ?_⟩⟩
      exact except_bind_ok.mpr ⟨_, hopen (path, maxID) (by simp),
        except_bind_ok.mpr ⟨part, hpart, hout'⟩⟩

/-! ### The result -/

theorem locations_sorted (d : Database) : d.locations.Pairwise fun p q => q.2 ≤ p.2 := by
  have htotal : Std.Total fun a b : (_ : String) × (Int × Int) => b.2.2 ≤ a.2.2 :=
    ⟨fun a b => Int.le_total b.2.2 a.2.2⟩
  have htrans : IsTrans ((_ : String) × (Int × Int)) fun a b => b.2.2 ≤ a.2.2 :=
    ⟨fun _ _ _ h₁ h₂ => Int.le_trans h₂ h₁⟩
  rw [Database.locations]
  split
  · rw [List.pairwise_map]
    exact List.pairwise_insertionSort (fun a b : (_ : String) × (Int × Int) => b.2.2 ≤ a.2.2) _
  · exact List.Pairwise.nil

/-- What is held over the whole history is its largest ids. -/
theorem Holding.largest (h : Segmented disk d seg) {n : Nat}
    (hold : Holding R n (history d seg summary) out) :
    (largest n (history d seg summary)).mapM (Listed.decode R) = .ok out := by
  obtain ⟨ps, hfront, hps⟩ := hold
  have hanti : ∀ a ∈ history d seg summary, ∀ b ∈ history d seg summary, ById a b → ById b a →
      a = b := fun a ha b hb hab hba => history_inj h ha hb (Int.le_antisymm hba hab)
  have heq := hfront.eq_take hanti (List.perm_insertionSort (fun a b => b.2.id ≤ a.2.id) _)
    (List.pairwise_insertionSort ById _)
  rw [Queue.largest, ← heq]
  exact mapM_ok_iff.mpr hps

/-- The listing is the `limit` records with the largest ids of the union, in descending order, and
    it fails only on a row that cannot be decoded. -/
theorem recentRecords_exact (R : ReadCodec) (S : Sorter Record) (disk : Disk) (path : String)
    (d : Database) (seg : String → Database) (summary : Bool) (limit : Int) (hlimit : 1 ≤ limit)
    (hopen : disk.openFile path = .ok d) (h : Segmented disk d seg) :
    (∀ out, recentRecords R S disk path limit summary = .ok out →
      (largest limit.toNat (history d seg summary)).mapM (Listed.decode R) = .ok out) ∧
    ((∀ e ∈ history d seg summary, ∃ r, Listed.decode R e = .ok r) →
      ∃ out, recentRecords R S disk path limit summary = .ok out) := by
  constructor
  · intro out hout
    obtain ⟨d', hd', hout⟩ := except_bind_ok.mp hout
    obtain ⟨active, hactive, hout⟩ := except_bind_ok.mp hout
    rw [hopen] at hd'
    cases hd'
    refine Holding.largest h ?_
    exact mergeSegments_holding hlimit (locations_sorted d)
      (fun p hp => ⟨h.opens p hp, h.greatest p hp⟩) (newestRecords_holding hlimit hactive) hout
  · intro hdecode
    obtain ⟨active, hactive⟩ := newestRecords_ok hlimit fun e he =>
      hdecode e (List.mem_append_left _ he)
    obtain ⟨out, hout⟩ := mergeSegments_ok (S := S) hlimit h.opens
      fun p hp e he => hdecode e (List.mem_append_right _ (List.mem_flatMap.mpr ⟨p, hp, he⟩))
    exact ⟨out, except_bind_ok.mpr ⟨d, hopen, except_bind_ok.mpr ⟨active, hactive, hout⟩⟩⟩

/-- A reader of rows that hold an empty object. -/
def sampleListing : ReadCodec := (Plain.codec fun _ => some {}).reader

/-- A table with a row under each of the given ids. -/
def tableOf : List Int → EventQueue
  | [] => {}
  | id :: ids =>
    match (tableOf ids).insertWithId id ⟨toString id, 0, utf8 "\x7b\x7d", 2, 0, none, none, none⟩ with
    | .ok q => q
    | .error _ => tableOf ids

/-- An active table and two segments whose ids interleave. -/
def interleavedActive : Database where
  db := { newDb with
    events := tableOf [2, 5]
    archives := ((∅ : Table String (Int × Int)).insert "a.db" (1, 4)).insert "b.db" (3, 3) }

def interleavedSegment (path : String) : Database where
  db := { newDb with events := tableOf (if path = "a.db" then [1, 4] else [3]) }

def interleavedDisk : Disk where
  openFile path := .ok (if path = "events.db" then interleavedActive else interleavedSegment path)
  glob _ := []

theorem mem_ids_iff {id : Int} : id ∈ d.ids ↔ id ∈ d.db.events.rows.keys := AList.lookup_isSome

/-- Two rows of three files, one of which is not opened. -/
theorem recentRecords_exact_interleaved :
    ∃ out, recentRecords sampleListing (.insertion Record) interleavedDisk "events.db" 2 false = .ok out ∧
      (largest 2 (history interleavedActive interleavedSegment false)).mapM
        (Listed.decode sampleListing) = .ok out ∧ out.map (·.id) = [5, 4] := by
  have hrun : ((recentRecords sampleListing (.insertion Record) interleavedDisk "events.db" 2
      false).toOption.map fun out => out.map (·.id)) = some [5, 4] := by decide +kernel
  obtain ⟨out, hout, hids⟩ := Option.map_eq_some_iff.mp hrun
  rw [except_toOption_some] at hout
  refine ⟨out, hout, ?_, hids⟩
  have hlocs : interleavedActive.locations = [("a.db", 4), ("b.db", 3)] := by decide +kernel
  have hsegmented : Segmented interleavedDisk interleavedActive interleavedSegment := by
    have hkeys : ∀ p ∈ [("a.db", (4 : Int)), ("b.db", 3)],
        p.2 ∈ (interleavedSegment p.1).db.events.rows.keys ∧
        (∀ i ∈ (interleavedSegment p.1).db.events.rows.keys, i ≤ p.2) ∧
        (∀ i ∈ interleavedActive.db.events.rows.keys,
          i ∉ (interleavedSegment p.1).db.events.rows.keys) ∧
        ∀ q ∈ [("a.db", (4 : Int)), ("b.db", 3)], p.1 ≠ q.1 →
          ∀ i ∈ (interleavedSegment p.1).db.events.rows.keys,
            i ∉ (interleavedSegment q.1).db.events.rows.keys := by decide +kernel
    constructor <;> rw [hlocs] <;> intro p hp
    · rcases List.mem_pair.mp hp with rfl | rfl <;> rfl
    · obtain ⟨hmem, hle, -, -⟩ := hkeys p hp
      exact ⟨mem_ids_iff.mpr hmem, fun i hi => hle i (mem_ids_iff.mp hi)⟩
    · obtain ⟨-, -, hapart, -⟩ := hkeys p hp
      exact Set.disjoint_left.mpr fun i hi hj => hapart i (mem_ids_iff.mp hi) (mem_ids_iff.mp hj)
    · obtain ⟨-, -, -, hdisjoint⟩ := hkeys p hp
      intro q hq hpq
      exact Set.disjoint_left.mpr fun i hi hj =>
        hdisjoint q hq hpq i (mem_ids_iff.mp hi) (mem_ids_iff.mp hj)
  exact (recentRecords_exact sampleListing (.insertion Record) interleavedDisk "events.db"
    interleavedActive interleavedSegment false 2 (by decide) rfl hsegmented).1 out hout

end TaNode.Queue

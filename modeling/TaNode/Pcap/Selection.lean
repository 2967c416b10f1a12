import TaNode.Pcap.Writer

/-! Which directories are archived and which are removed.

    A directory stands for a day, but it is compared by its first instant in UTC. Archiving compares
    that with the first instants of two months in the location of the clock, both taken to belong to
    the month:

        east of UTC    ─┤ last month ├─┤ this month        1st at 00:00 UTC is after the bound
        in UTC         ─┤ last month ├─┤ this month        1st of this month is on the bound
        west of UTC    ─┤ last month ├─┤ this month        both 1sts are before their bounds

    Removing compares it with a cutoff that has a time of day, so the day of the cutoff counts as old
    from its first nanosecond on. -/

namespace TaNode.Pcap
open Calendar

variable {t : Tree} {name : String} {w : Writer}

/-! ### What happens to one directory -/

/-- The files of a day and its zip. -/
def Tree.cell (t : Tree) (name : String) : Option Files × Option (List Entry) :=
  (t.dirs.lookup name, t.zips.lookup name)

/-- What is left of the files. -/
def remaining : Option (Path → Bool) → Option Files → Option Files
  | none, _ => none
  | some left, files => files.map fun files => files.deleteWhere fun path _ => !left path

/-- One directory in the loop of `CleanupExpired`. -/
def removeCell (left : Option (Path → Bool)) (c : Option Files × Option (List Entry)) :
    Option Files × Option (List Entry) :=
  (remaining left c.1, c.2)

theorem cell_removeAll (left : Option (Path → Bool)) (t : Tree) (name name' : String) :
    (t.removeAll left name).cell name' =
      if name' = name then removeCell left (t.cell name) else t.cell name' := by
  cases left with
  | none =>
    rw [Tree.removeAll]
    split_ifs with h
    · rw [h, Tree.cell, AList.lookup_erase]
      rfl
    · rw [Tree.cell, AList.lookup_erase_ne h]
      rfl
  | some left =>
    rw [Tree.removeAll, Tree.cell, Table.lookup_update]
    split_ifs with h
    · rw [h]
      rfl
    · rw [Option.map_id']
      rfl

/-- One directory in the loop of `ArchiveLastMonth`. -/
def archiveCell (faults : Faults) (order : Visit Entry) :
    Option Files × Option (List Entry) → Option Files × Option (List Entry)
  | (none, zip) => (none, zip)
  | (some files, zip) =>
    removeCell faults.remove (some files, (archiveDir faults order files).1.or zip)

theorem cell_archiveOne (faults : String → Faults) (order : Visit Entry) (t : Tree)
    (name name' : String) :
    (archiveOne faults order t name).1.cell name' =
      if name' = name then archiveCell (faults name) order (t.cell name) else t.cell name' := by
  have hcell : t.cell name = (t.dirs.lookup name, t.zips.lookup name) := rfl
  rw [archiveOne]
  cases hfiles : t.dirs.lookup name with
  | none =>
    rw [hfiles] at hcell
    rw [hcell, archiveCell, ← hcell]
    split_ifs with h
    · rw [h]
    · rfl
  | some files =>
    rw [hfiles] at hcell
    rw [hcell, archiveCell]
    simp only
    cases (archiveDir (faults name) order files).1 with
    | none =>
      rw [Option.none_or, cell_removeAll, hcell]
    | some entries =>
      rw [Option.some_or, cell_removeAll]
      simp only [Tree.cell, hfiles]
      split_ifs with h
      · rw [AList.lookup_insert]
      · rw [AList.lookup_insert_ne h]

/-- `ArchiveLastMonth` without the count. -/
theorem archiveLastMonth_fst (w : Writer) (now : Time) (faults : String → Faults)
    (order : Visit Entry) (t : Tree) : (w.archiveLastMonth now faults order t).1 =
      if w.archiveMonthly then (t.dirs.keys.filter (archivable now)).foldl
        (fun t name => (archiveOne faults order t name).1) t
      else t := by
  rw [Writer.archiveLastMonth]
  cases w.archiveMonthly with
  | false => rfl
  | true => exact (List.foldl_hom Prod.fst fun _ _ => rfl).symm

theorem mem_keys_iff : name ∈ t.dirs.keys ↔ (t.cell name).1 ≠ none := by
  rw [Tree.cell, ← AList.mem_keys, ← AList.lookup_isSome, Option.isSome_iff_ne_none]

/-- What `ArchiveLastMonth` makes of a day. -/
theorem cell_archiveLastMonth (hw : w.archiveMonthly = true) (now : Time) (faults : String → Faults)
    (order : Visit Entry) (t : Tree) (name : String) :
    (w.archiveLastMonth now faults order t).1.cell name =
      if archivable now name then archiveCell (faults name) order (t.cell name) else t.cell name := by
  have hnodup : (t.dirs.keys.filter (archivable now)).Nodup := t.dirs.keys_nodup.filter _
  rw [archiveLastMonth_fst, if_pos hw,
    foldl_cell (fun t name name' => cell_archiveOne faults order t name name') hnodup]
  simp only [List.mem_filter, mem_keys_iff]
  by_cases harchivable : archivable now name = true
  · rw [if_pos harchivable]
    cases hcell : t.cell name with
    | mk files zip =>
      cases files with
      | none => simp [archiveCell]
      | some files => simp [harchivable]
  · rw [if_neg harchivable, if_neg (by simp [harchivable])]

theorem archiveWalk_of_ok {faults : Faults} : ∀ {entries : List Entry},
    (∀ e ∈ entries, faults.walk e.1 = false ∧ faults.file e.1 = none) →
      (archiveWalk faults entries).1 = entries
  | [], _ => rfl
  | e :: entries, h => by
    obtain ⟨hwalk, hfile⟩ := h e List.mem_cons_self
    rw [archiveWalk, hwalk, hfile]
    simp only [Bool.false_eq_true, if_false]
    rw [archiveWalk_of_ok fun e he => h e (List.mem_cons_of_mem _ he)]

/-! ### Last month -/

/-- The cell of a day that was archived: the directory is gone and all its files are in the zip. -/
def archived (order : Visit Entry) (files : Files) : Option Files × Option (List Entry) :=
  (none, some (order.visit files.entries))

theorem archiveDir_of_ok {faults : Faults} (hcreate : faults.create = false)
    (hclose : faults.close = none) {order : Visit Entry} {files : Files}
    (hcopy : ∀ e ∈ files.entries, faults.walk e.1 = false ∧ faults.file e.1 = none) :
    (archiveDir faults order files).1 = some (order.visit files.entries) := by
  simp only [archiveDir, hcreate, hclose, Bool.false_eq_true, if_false]
  rw [archiveWalk_of_ok fun e he => hcopy e (order.mem.mp he)]

/-- Where nothing fails, the directories with a date inside the bounds are archived, and the others
    stay as they are. -/
theorem cell_archiveLastMonth_of_ok (hw : w.archiveMonthly = true) (now : Time) (order : Visit Entry)
    {files : Files} (hdir : t.dirs.lookup name = some files) :
    (w.archiveLastMonth now (fun _ => {}) order t).1.cell name =
      if archivable now name then archived order files else t.cell name := by
  have hzip := @archiveDir_of_ok {} rfl rfl order files fun _ _ => ⟨rfl, rfl⟩
  have hcell : t.cell name = (some files, t.zips.lookup name) := by rw [Tree.cell, hdir]
  rw [cell_archiveLastMonth hw, hcell, archiveCell, hzip]
  rfl

theorem archivable_iff {now : Time} {d : Int} (hname : parseDate name = some d) :
    archivable now name = true ↔ lastMonth now ≤ d * day ∧ d * day ≤ thisMonth now := by
  simp only [archivable, hname]
  simp

/-- A clock shows a time less than a day before or after it. -/
theorem Location.date_near (l : Location) (wall : Int) :
    wall - day < l.date wall ∧ l.date wall < wall + day := by
  have hnear := l.near (wall - l.offset wall)
  rw [Location.date]
  omega

/-- The first day of this month begins earlier here than in UTC if it is the directory's, and the
    first day of last month no later than in UTC. -/
def BoundsApart (now : Time) (d : Int) : Prop :=
  (d = monthStart (monthOf now.date) → thisMonth now < d * day) ∧
  (d = monthStart (monthOf now.date - 1) → lastMonth now ≤ d * day)

/-- The days between the bounds, of which the first and the one after the last may be wrong. -/
theorem between_bounds_iff (now : Time) (d : Int) :
    ((lastMonth now ≤ d * day ∧ d * day ≤ thisMonth now) ↔ monthOf d = monthOf now.date - 1) ↔
      BoundsApart now d := by
  have hmonth : monthOf d = monthOf now.date - 1 ↔
      monthStart (monthOf now.date - 1) ≤ d ∧ d < monthStart (monthOf now.date) := by
    rw [monthOf_eq_iff, Int.sub_add_cancel]
  have hlength := monthStart_succ (monthOf now.date - 1)
  rw [Int.sub_add_cancel] at hlength
  have hlast : monthStart (monthOf now.date - 1) * day - day < lastMonth now ∧
      lastMonth now < monthStart (monthOf now.date - 1) * day + day := now.location.date_near _
  have hthis : monthStart (monthOf now.date) * day - day < thisMonth now ∧
      thisMonth now < monthStart (monthOf now.date) * day + day := now.location.date_near _
  rw [hmonth, BoundsApart]
  generalize monthStart (monthOf now.date - 1) = first at *
  generalize monthStart (monthOf now.date) = next at *
  generalize lastMonth now = lo at *
  generalize thisMonth now = hi at *
  simp only [day] at *
  omega

/-- **A directory whose date is in the month before this one is archived, and every other stays as it
    is, if and only if the date is not on the wrong side of a bound.** -/
theorem archives_lastMonth_iff (w : Writer) (hw : w.archiveMonthly = true) (now : Time)
    (order : Visit Entry) (t : Tree) (name : String) (files : Files) (d : Int)
    (hdir : t.dirs.lookup name = some files) (hname : parseDate name = some d) :
    (w.archiveLastMonth now (fun _ => {}) order t).1.cell name =
        (if monthOf d = monthOf now.date - 1 then archived order files else t.cell name) ↔
      BoundsApart now d := by
  have hstays : t.cell name ≠ archived order files := by
    intro h
    have hfirst := congrArg Prod.fst h
    rw [Tree.cell, hdir] at hfirst
    cases hfirst
  rw [cell_archiveLastMonth_of_ok hw now order hdir, ← between_bounds_iff, ← archivable_iff hname]
  by_cases hsel : archivable now name = true <;> by_cases hmonth : monthOf d = monthOf now.date - 1 <;>
    simp [hsel, hmonth, hstays, hstays.symm]

/-- The middle of August 2026, in UTC. -/
def midAugust : Time := ⟨20680 * day, .utc⟩

/-- A directory with a file. -/
def augustFiles : Files := (∅ : Files).insert [utf8 "a.pcap"] (utf8 "a")

def augustTree (name : String) : Tree := { dirs := (∅ : Table String Files).insert name augustFiles }

/-- In the middle of August the 10th of July is archived, and the 2nd of August is not. -/
theorem archives_lastMonth_iff_july :
    let after name := (Writer.archiveLastMonth { archiveMonthly := true } midAugust (fun _ => {})
      .listed (augustTree name)).1.cell name
    after "2026-07-10" = archived .listed augustFiles ∧
      after "2026-08-02" = (augustTree "2026-08-02").cell "2026-08-02" := by
  have hjuly : BoundsApart midAugust 20644 :=
    ⟨fun h => absurd h (by decide +kernel), fun h => absurd h (by decide +kernel)⟩
  have haugust : BoundsApart midAugust 20667 :=
    ⟨fun h => absurd h (by decide +kernel), fun h => absurd h (by decide +kernel)⟩
  have h := fun name d hname => archives_lastMonth_iff { archiveMonthly := true } rfl midAugust .listed
    (augustTree name) name augustFiles d (AList.lookup_insert _) hname
  exact ⟨((h "2026-07-10" 20644 (by decide +kernel)).mpr hjuly).trans (if_pos (by decide +kernel)),
    ((h "2026-08-02" 20667 (by decide +kernel)).mpr haugust).trans (if_neg (by decide +kernel))⟩

/-- And so is the 1st of August. -/
theorem archives_first_of_this_month :
    parseDate "2026-08-01" = some 20666 ∧ monthOf 20666 = monthOf midAugust.date ∧
    (Writer.archiveLastMonth { archiveMonthly := true } midAugust (fun _ => {})
      .listed (augustTree "2026-08-01")).1.cell "2026-08-01" = archived .listed augustFiles := by
  have harchivable : archivable midAugust "2026-08-01" = true := by decide +kernel
  refine ⟨by decide +kernel, by decide +kernel, ?_⟩
  exact (cell_archiveLastMonth_of_ok rfl midAugust .listed (AList.lookup_insert _)).trans
    (if_pos harchivable)

/-! ### Old directories -/

/-- A packet with a time stamp in UTC, and its pcap file. -/
structure Packet where
  eventID : Bytes
  timestamp : Int
  content : Bytes

/-- The day of the packet, and the name of its directory. -/
def Packet.date (p : Packet) : Int := p.timestamp / day

def Packet.dir (p : Packet) : String := formatDate p.date

def Writer.saveAll (w : Writer) (now : Time) (packets : List Packet) (t : Tree) : Tree :=
  packets.foldl (fun t p => w.save now p.eventID (some ⟨p.timestamp, .utc⟩) p.content t) t

theorem save_utc (hw : w.enabled = true) (now : Time) (p : Packet) (t : Tree) :
    w.save now p.eventID (some ⟨p.timestamp, .utc⟩) p.content t =
      t.write p.dir (w.path p.eventID) p.content := by
  have hwall : Time.wall ⟨p.timestamp, .utc⟩ = p.timestamp := Int.add_zero _
  rw [Writer.save, hw, Option.getD_some, Time.date, hwall]
  rfl

theorem mem_keys_write {name' : String} {path : Path} {content : Bytes} :
    name' ∈ (t.write name path content).dirs.keys ↔ name' = name ∨ name' ∈ t.dirs.keys := by
  rw [Tree.write, ← AList.mem_keys, AList.mem_insert, AList.mem_keys]

/-- Every packet saved has its directory. -/
theorem mem_keys_saveAll (hw : w.enabled = true) (now : Time) {p : Packet} :
    ∀ {packets : List Packet} {t : Tree}, p ∈ packets ∨ p.dir ∈ t.dirs.keys →
      p.dir ∈ (w.saveAll now packets t).dirs.keys
  | [], t, h => h.resolve_left List.not_mem_nil
  | q :: packets, t, h => by
    rw [Writer.saveAll, List.foldl_cons, save_utc hw, ← Writer.saveAll]
    refine mem_keys_saveAll hw now ?_
    rw [mem_keys_write]
    rcases h with h | h
    · rcases List.mem_cons.mp h with rfl | h
      · exact .inr (.inl rfl)
      · exact .inl h
    · exact .inr (.inr h)

/-- What `CleanupExpired` makes of a day. -/
theorem cell_cleanupExpired (hw : 0 < w.retainDays) (now : Time)
    (left : String → Option (Path → Bool)) (t : Tree) (name : String) :
    (w.cleanupExpired now left t).1.cell name =
      if name ∈ t.dirs.keys ∧ expired (now.addDays (-w.retainDays)) name = true then
        removeCell (left name) (t.cell name)
      else t.cell name := by
  have hnodup : (t.dirs.keys.filter (expired (now.addDays (-w.retainDays)))).Nodup :=
    t.dirs.keys_nodup.filter _
  rw [Writer.cleanupExpired, if_neg (by omega)]
  simp only
  rw [foldl_cell (fun t name name' => cell_removeAll (left name) t name name') hnodup]
  simp only [List.mem_filter]

/-- Where every removal succeeds, the directories with a date before the cutoff are gone. -/
theorem mem_keys_cleanupExpired (hw : 0 < w.retainDays) (now : Time) (t : Tree) (name : String) :
    name ∈ (w.cleanupExpired now (fun _ => none) t).1.dirs.keys ↔
      name ∈ t.dirs.keys ∧ ¬ expired (now.addDays (-w.retainDays)) name = true := by
  rw [mem_keys_iff, cell_cleanupExpired hw]
  split_ifs with h
  · exact iff_of_false (fun hne => hne rfl) fun hkept => hkept.2 h.2
  · rw [← mem_keys_iff]
    exact ⟨fun hmem => ⟨hmem, fun hexpired => h ⟨hmem, hexpired⟩⟩, And.left⟩

/-- In UTC every day has 24 hours. -/
theorem addDays_utc (t n : Int) : Time.addDays ⟨t, .utc⟩ n = t + n * day := by
  simp only [Time.addDays, Time.wall, Location.date, Location.utc]
  omega

/-- No directory with a packet that is later than the cutoff is removed, and every directory is all of
    whose packets have to be earlier. -/
structure Retains (cutoff : Int) (packets : List Packet) (before after : Tree) : Prop where
  young : ∀ p ∈ packets, cutoff < p.timestamp → p.dir ∈ before.dirs.keys → p.dir ∈ after.dirs.keys
  old : ∀ name ∈ before.dirs.keys, ∀ d, parseDate name = some d →
    (∀ timestamp, timestamp / day = d → timestamp < cutoff) → name ∉ after.dirs.keys

/-- Retention is right exactly if the cutoff does not lie between the first instant of a packet's day
    and the packet. -/
theorem retains_iff (w : Writer) (hw : w.enabled = true) (hdays : 0 < w.retainDays)
    (saved now : Time) (packets : List Packet) (t : Tree) :
    Retains (now.addDays (-w.retainDays)) packets (w.saveAll saved packets t)
      (w.cleanupExpired now (fun _ => none) (w.saveAll saved packets t)).1 ↔
    ∀ p ∈ packets, PlainYear p.date →
      ¬ (p.date * day < now.addDays (-w.retainDays) ∧ now.addDays (-w.retainDays) < p.timestamp) := by
  generalize hcutoff : now.addDays (-w.retainDays) = cutoff
  have hkept : ∀ name,
      name ∈ (w.cleanupExpired now (fun _ => none) (w.saveAll saved packets t)).1.dirs.keys ↔
        name ∈ (w.saveAll saved packets t).dirs.keys ∧ ¬ expired cutoff name = true := by
    intro name
    rw [← hcutoff]
    exact mem_keys_cleanupExpired hdays now _ name
  constructor
  · rintro ⟨hyoung, -⟩ p hp hyear ⟨hstart, hlater⟩
    have hmem := mem_keys_saveAll hw saved (t := t) (.inl hp)
    refine ((hkept p.dir).mp (hyoung p hp hlater hmem)).2 ?_
    rw [expired, Packet.dir, parseDate_formatDate hyear]
    exact decide_eq_true hstart
  · intro hpackets
    constructor
    · intro p hp hlater hmem
      refine (hkept p.dir).mpr ⟨hmem, fun hexpired => ?_⟩
      by_cases hyear : PlainYear p.date
      · rw [expired, Packet.dir, parseDate_formatDate hyear] at hexpired
        exact hpackets p hp hyear ⟨of_decide_eq_true hexpired, hlater⟩
      · rw [expired, Packet.dir, parseDate_formatDate_of_not hyear] at hexpired
        cases hexpired
    · intro name hname d hparse hold hmem
      refine ((hkept name).mp hmem).2 ?_
      rw [expired, hparse]
      refine decide_eq_true (hold (d * day) ?_)
      exact Int.mul_ediv_cancel _ (by decide)

/-- A packet of one hour past noon on August 14. -/
def afterNoon : Packet := ⟨utf8 "evt-1", 20679 * day + 13 * (day / 24), []⟩

/-- At midnight nothing is lost: one day before August 15 is the first instant of August 14. -/
theorem retains_iff_midnight :
    Retains (Time.addDays ⟨20680 * day, .utc⟩ (-1)) [afterNoon]
      (Writer.saveAll { retainDays := 1 } midAugust [afterNoon] {})
      (Writer.cleanupExpired { retainDays := 1 } ⟨20680 * day, .utc⟩ (fun _ => none)
        (Writer.saveAll { retainDays := 1 } midAugust [afterNoon] {})).1 := by
  refine (retains_iff { retainDays := 1 } rfl (by decide) midAugust ⟨20680 * day, .utc⟩ [afterNoon]
    {}).mpr fun p hp _ hbetween => ?_
  rw [List.mem_singleton.mp hp, addDays_utc] at hbetween
  exact absurd hbetween.1 (by decide)

/-- At noon on August 15 one day back is noon on August 14: the packet is younger, its directory is
    removed. -/
theorem young_packet_removed :
    Time.addDays ⟨20680 * day + day / 2, .utc⟩ (-1) < afterNoon.timestamp ∧
    afterNoon.dir ∈ (Writer.saveAll { retainDays := 1 } midAugust [afterNoon] {}).dirs.keys ∧
    afterNoon.dir ∉ (Writer.cleanupExpired { retainDays := 1 } ⟨20680 * day + day / 2, .utc⟩
      (fun _ => none) (Writer.saveAll { retainDays := 1 } midAugust [afterNoon] {})).1.dirs.keys := by
  have hcutoff : Time.addDays ⟨20680 * day + day / 2, .utc⟩ (-1) = 20679 * day + day / 2 := by
    rw [addDays_utc]
    decide
  have hyear : PlainYear afterNoon.date := by
    rw [PlainYear]
    decide +kernel
  have hexpired : expired (20679 * day + day / 2) afterNoon.dir = true := by
    rw [expired, Packet.dir, parseDate_formatDate hyear]
    decide +kernel
  refine ⟨by rw [hcutoff]; decide, mem_keys_saveAll rfl midAugust (.inl List.mem_cons_self), ?_⟩
  rw [mem_keys_cleanupExpired (by decide)]
  exact fun h => h.2 (hcutoff ▸ hexpired)

end TaNode.Pcap

import TaNode.Intel.Store
import TaNode.Schemes.Runs

/-! What a write leaves behind: a sync of one source, and a write whose save fails.

        memory    items, version      changed under the lock, before the save
        file      a snapshot          replaced by a rename, after all else succeeded

    A failed save leaves the file as it was, but nothing takes the change in memory back. And a sync
    of one source deletes by source but writes by id, so it stays within its source only as long as
    the delivered ids are not those of other items. -/

namespace TaNode.Intel
variable {lib : Lib}

/-! ### One source -/

variable (lib) in
/-- The items of a delivery as `SyncSource` writes them. -/
def listed (source : Bytes) (now : Int) (uuids : Nat → Bytes) (new : List ThreatIntel) :
    List (Item lib) :=
  normalizeAll lib now uuids (new.map fun it => { it with source := trimSpace source })

section
variable {source : Bytes} {now : Int} {uuids : Nat → Bytes} {new : List ThreatIntel}

theorem source_listed (hsource : trimSpace source ≠ []) {y : Item lib}
    (hy : y ∈ listed lib source now uuids new) : y.1.source = trimSpace source := by
  rw [listed, normalizeAll, List.mem_mapIdx] at hy
  obtain ⟨i, hi, rfl⟩ := hy
  simp [normalItem, normalize, trimSpace_trimSpace, hsource]

/-- The items after a sync of one source. -/
theorem items_syncSource (hsource : trimSpace source ≠ []) (order : Visit (Item lib))
    (fault : Option SaveFault) (w : World lib) :
    (Write.perform order fault w (.syncSource source now uuids new)).1.store.items =
      (w.store.items.deleteWhere fun it => it.1.source = trimSpace source).putAll
        (listed lib source now uuids new) := by
  rw [items_perform, Write.after, Write.critical, syncSource, if_neg hsource]
  rfl

end

variable (lib) in
/-- Only the items of the source are exchanged, for those delivered. -/
structure Scoped (source : Bytes) (new : List (Item lib)) (before after : Items lib) : Prop where
  others : ∀ x ∈ before, x.1.source ≠ source → x ∈ after
  only : ∀ y ∈ after, y.1.source = source → y ∈ new
  present : ∀ y ∈ new, y ∈ after ∧ y.1.source = source

/-- A sync of one source stays within it exactly when no delivered id is that of another source's
    item and no two different items are delivered under one id. -/
theorem syncSource_scoped_iff (source : Bytes) (hsource : trimSpace source ≠ []) (now : Int)
    (uuids : Nat → Bytes) (new : List ThreatIntel) (order : Visit (Item lib))
    (fault : Option SaveFault) (w : World lib) :
    Scoped lib (trimSpace source) (listed lib source now uuids new) w.store.items
      (Write.perform order fault w (.syncSource source now uuids new)).1.store.items ↔
    (∀ y ∈ listed lib source now uuids new, ∀ x ∈ w.store.items,
      x.1.source ≠ trimSpace source → x.1.id ≠ y.1.id) ∧
    ∀ y ∈ listed lib source now uuids new, ∀ z ∈ listed lib source now uuids new,
      y.1.id = z.1.id → y = z := by
  rw [items_syncSource hsource]
  constructor
  · intro h
    constructor
    · intro y hy x hx hother hid
      obtain rfl := Catalog.eq_of_key (h.others x hx hother) (h.present y hy).1 hid
      exact hother (h.present x hy).2
    · intro y hy z hz hid
      exact Catalog.eq_of_key (h.present y hy).1 (h.present z hz).1 hid
  · rintro ⟨hapart, hagree⟩
    constructor
    · intro x hx hother
      refine Catalog.mem_putAll_of_mem ?_ ?_
      · exact Catalog.mem_deleteWhere.mpr ⟨hx, by simpa using hother⟩
      · intro hmem
        obtain ⟨y, hy, hid⟩ := List.mem_map.mp hmem
        exact hapart y hy x hx hother hid.symm
    · intro y hy hs
      rcases Catalog.mem_putAll hy with ⟨hyi, _⟩ | hy
      · have := (Catalog.mem_deleteWhere.mp hyi).2
        simp [hs] at this
      · exact hy
    · intro y hy
      refine ⟨?_, source_listed hsource hy⟩
      obtain ⟨z, hz, hid, hmem⟩ := Catalog.exists_mem_putAll
        (c := w.store.items.deleteWhere fun it => it.1.source = trimSpace source) hy
      rw [hagree z hz y hy hid] at hmem
      exact hmem

/-- An indicator delivered by a hub. -/
def sampleItem (id : String) : ThreatIntel :=
  { id := utf8 id, type := utf8 "domain", value := utf8 "new.example" }

theorem syncSource_scoped_iff_hub :
    Scoped sampleLib (trimSpace (utf8 "hub")) (listed sampleLib (utf8 "hub") 2 (fun _ => [])
        [sampleItem "y"]) sampleStore.store.items
      (Write.perform .listed none sampleStore
        (.syncSource (utf8 "hub") 2 (fun _ => []) [sampleItem "y"])).1.store.items := by
  have hapart : ∀ y ∈ listed sampleLib (utf8 "hub") 2 (fun _ => []) [sampleItem "y"],
      ∀ x ∈ sampleStore.store.items.list, x.1.source ≠ trimSpace (utf8 "hub") →
        x.1.id ≠ y.1.id := by decide +kernel
  have hagree : ∀ y ∈ listed sampleLib (utf8 "hub") 2 (fun _ => []) [sampleItem "y"],
      ∀ z ∈ listed sampleLib (utf8 "hub") 2 (fun _ => []) [sampleItem "y"],
        y.1.id = z.1.id → y = z := by decide +kernel
  exact (syncSource_scoped_iff (utf8 "hub") (by decide +kernel) 2 (fun _ => []) [sampleItem "y"]
    .listed none sampleStore).mpr ⟨hapart, hagree⟩

/-- A hub that uses the id of a local indicator removes it. -/
theorem hub_id_removes_local :
    (∃ x ∈ sampleStore.store.items, x.1.source = utf8 "local") ∧
    (Write.perform .listed none sampleStore
      (.syncSource (utf8 "hub") 2 (fun _ => []) [sampleItem "x"])).2 = none ∧
    ∀ y ∈ (Write.perform .listed none sampleStore
      (.syncSource (utf8 "hub") 2 (fun _ => []) [sampleItem "x"])).1.store.items,
      y.1.source ≠ utf8 "local" := by
  have hbefore : ∃ x ∈ sampleStore.store.items.list, x.1.source = utf8 "local" := by
    decide +kernel
  have hafter : ∀ y ∈ (Write.perform .listed none sampleStore
      (.syncSource (utf8 "hub") 2 (fun _ => []) [sampleItem "x"])).1.store.items.list,
      y.1.source ≠ utf8 "local" := by decide +kernel
  exact ⟨hbefore, by decide +kernel, hafter⟩

/-! ### A save that fails -/

/-- The write has changed the items and its save fails. -/
def SaveFails (fault : Option SaveFault) (w : World lib) (op : Write lib) : Prop :=
  fault ≠ none ∧ ∃ items, op.critical w.store.items = .ok (some items)

/-- The writes that return the error of their save. -/
def Write.Reports : Write lib → Prop
  | .pruneExpired _ => False
  | _ => True

variable {op : Write lib} {fault : Option SaveFault}

theorem report_eq (hop : op.Reports) (err : Option WriteError) : op.report err = err := by
  cases op with
  | pruneExpired now => exact hop.elim
  | _ => rfl

/-- If an error means that nothing happened, the save did not fail, and conversely. -/
theorem unchanged_iff {order : Visit (Item lib)} {w : World lib} (hpath : w.store.path ≠ "")
    (hop : op.Reports) :
    ((op.perform order fault w).2 ≠ none →
      (op.perform order fault w).1.store.items = w.store.items ∧
        (op.perform order fault w).1.store.version = w.store.version) ↔
    ¬ SaveFails fault w op := by
  rw [SaveFails, Write.perform]
  rcases hcrit : op.critical w.store.items with e | _ | items
  · simp
  · simp
  · simp only [World.commit, report_eq hop, if_pos hpath]
    cases fault with
    | none | some => simp [saveFileAtomic]

/-- The store, its file, and the item set last saved or loaded. -/
structure Session (lib : Lib) where
  world : World lib
  last : List ThreatIntel

/-- The item set last saved after a write: the file's, if the write has saved. -/
def Session.saved (order : Visit (Item lib)) (fault : Option SaveFault) (s : Session lib)
    (op : Write lib) : List ThreatIntel :=
  match op.critical s.world.store.items with
  | .ok (some _) =>
    if fault = none then (op.perform order fault s.world).1.file.getD s.last else s.last
  | _ => s.last

/-- A write of any kind, or a reload. -/
inductive Session.Step : Session lib → Session lib → Prop
  | write (s : Session lib) (order : Visit (Item lib)) (fault : Option SaveFault) (op : Write lib)
      (hsave : ¬ SaveFails fault s.world op) :
      Step s ⟨(op.perform order fault s.world).1, s.saved order fault op⟩
  | reload (s : Session lib) (now : Int) (uuids : Nat → Bytes) :
      Step s ⟨(s.world.reload now uuids none).1,
        (s.world.reload now uuids none).1.store.items.list.map (·.1)⟩
  | unreadable (s : Session lib) (now : Int) (uuids : Nat → Bytes) (text : String) :
      Step s ⟨(s.world.reload now uuids (some text)).1, s.last⟩

/-- `NewStore` on a file. -/
def Session.Opened (s : Session lib) : Prop :=
  ∃ path file now uuids, path ≠ "" ∧
    s.world = (World.reload now uuids none ⟨⟨Catalog.empty, path, 0⟩, file⟩).1 ∧
    s.last = s.world.store.items.list.map (·.1)

/-- Memory holds the item set last saved or loaded. -/
def Session.InSync (s : Session lib) : Prop :=
  ∀ it, it ∈ s.last ↔ ∃ x ∈ s.world.store.items, x.1 = it

/-- A write whose save does not fail keeps memory and file together. -/
theorem inSync_write {s : Session lib} (order : Visit (Item lib)) (hpath : s.world.store.path ≠ "")
    (hs : s.InSync) (hsave : ¬ SaveFails fault s.world op) :
    (op.perform order fault s.world).1.store.path ≠ "" ∧
      Session.InSync ⟨(op.perform order fault s.world).1, s.saved order fault op⟩ := by
  rw [SaveFails] at hsave
  rw [Session.saved, Write.perform]
  rcases hcrit : op.critical s.world.store.items with e | _ | items
  · exact ⟨hpath, hs⟩
  · exact ⟨hpath, hs⟩
  · obtain rfl : fault = none := by
      by_contra hfault
      exact hsave ⟨hfault, items, hcrit⟩
    simp only [World.commit, if_pos hpath, saveFileAtomic, if_true, Option.getD_some]
    refine ⟨hpath, fun it => ?_⟩
    simp only [List.mem_map]
    exact exists_congr fun x => and_congr_left fun _ => order.mem

theorem reload_path (now : Int) (uuids : Nat → Bytes) (unreadable : Option String) (w : World lib) :
    (w.reload now uuids unreadable).1.store.path = w.store.path := by
  rw [World.reload]
  split
  · rfl
  · rfl

/-- The set loaded is the set in memory. -/
theorem inSync_loaded (w : World lib) : Session.InSync ⟨w, w.store.items.list.map (·.1)⟩ :=
  fun _ => List.mem_map

theorem inSync_step {s t : Session lib} (hpath : s.world.store.path ≠ "") (hs : s.InSync)
    (hstep : Session.Step s t) : t.world.store.path ≠ "" ∧ t.InSync := by
  cases hstep with
  | write order fault op hsave => exact inSync_write order hpath hs hsave
  | reload now uuids =>
    refine ⟨?_, inSync_loaded _⟩
    rw [reload_path]
    exact hpath
  | unreadable now uuids text =>
    have hsame : (s.world.reload now uuids (some text)).1 = s.world := by
      rw [World.reload, if_neg hpath]
    rw [hsame]
    exact ⟨hpath, hs⟩

theorem inSync_run {s : Session lib} (hrun : Reachable Session.Opened Session.Step s) :
    s.world.store.path ≠ "" ∧ s.InSync := by
  induction hrun with
  | start hopen =>
    obtain ⟨path, file, now, uuids, hpath, hworld, hlast⟩ := hopen
    refine ⟨?_, ?_⟩
    · rw [hworld, reload_path]
      exact hpath
    · intro it
      rw [hlast]
      exact List.mem_map
  | next _ hstep ih => exact inSync_step ih.1 ih.2 hstep

/-- On a store with a file a write that returns an error has changed nothing exactly when it is not
    its save that failed; and as long as no save fails, memory holds the set last saved or loaded. -/
theorem writes_all_or_nothing_iff (lib : Lib) :
    (∀ order fault (w : World lib) (op : Write lib), w.store.path ≠ "" → op.Reports →
      (((op.perform order fault w).2 ≠ none →
        (op.perform order fault w).1.store.items = w.store.items ∧
          (op.perform order fault w).1.store.version = w.store.version) ↔
      ¬ SaveFails fault w op)) ∧
    ∀ s : Session lib, Reachable Session.Opened Session.Step s → s.InSync :=
  ⟨fun _ _ _ _ hpath hop => unchanged_iff hpath hop, fun _ hrun => (inSync_run hrun).2⟩

/-- A store opened on a file with one indicator. -/
def openedSession : Session sampleLib :=
  let w := (World.reload 1 (fun _ => []) none
    ⟨⟨Catalog.empty, "intel.yaml", 0⟩, some [sampleItem "x"]⟩).1
  ⟨w, w.store.items.list.map (·.1)⟩

/-- Deleting an unknown indicator fails and changes nothing; an added one is in memory and in the
    file. -/
theorem writes_all_or_nothing_iff_opened :
    let r := Write.perform .listed (some .write) openedSession.world (.delete (utf8 "y"))
    let op : Write sampleLib := .add 2 [] (sampleItem "y")
    let s : Session sampleLib := ⟨(op.perform .listed none openedSession.world).1,
      openedSession.saved .listed none op⟩
    (r.2 ≠ none ∧ r.1.store.items = openedSession.world.store.items ∧
      r.1.store.version = openedSession.world.store.version) ∧ s.last.length = 2 ∧ s.InSync := by
  have herr : (Write.perform .listed (some .write) openedSession.world (.delete (utf8 "y"))).2 ≠ none ∧
      (Write.critical openedSession.world.store.items (.delete (utf8 "y"))).isOk = false := by
    decide +kernel
  obtain ⟨hall, hruns⟩ := writes_all_or_nothing_iff sampleLib
  have hdelete := hall .listed (some .write) openedSession.world (.delete (utf8 "y")) (by decide) trivial
  refine ⟨⟨herr.1, hdelete.mpr ?_ herr.1⟩, by decide +kernel, hruns _ ?_⟩
  · rintro ⟨-, items, hitems⟩
    rw [hitems] at herr
    cases herr.2
  · exact .next (.start ⟨"intel.yaml", _, 1, _, by decide, rfl, rfl⟩)
      (.write _ _ _ _ fun h => h.1 rfl)

/-- `Add` on a full disk returns an error and the item is there, in memory only. -/
theorem failed_add_stays :
    let w : World sampleLib := { store.items := Catalog.empty, store.path := "intel.yaml" }
    let r := Write.perform .listed (some .write) w (.add 1 [] (sampleItem "x"))
    r.2 = some (.save .write) ∧ r.1.store.items.list.length = 1 ∧ r.1.store.version = 1 ∧
      r.1.file = none := by
  decide +kernel

end TaNode.Intel

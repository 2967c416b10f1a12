import TaNode.Intel.Writes

/-! Reading the store's file again.

    Every load normalizes what it reads. An indicator as it is stored keeps all its fields but one, the
    time of its last update, and one that the file has without an id gets a new one each time:

        file                  reload at t             reload at u
        id x                  x, updated t            x, updated u
        no id                 ioc-1, updated t        ioc-2, updated u

    So a reload changes nothing only in the second of the load or the write before it, and only in a
    file all of whose indicators have ids. -/

namespace TaNode.Intel
variable {lib : Lib}

/-- The same indicators, field by field. -/
def SameItems (a b : Items lib) : Prop := ∀ x, x ∈ a ↔ x ∈ b

/-- The entries of the file that a reload reads. -/
def World.loaded (w : World lib) : List ThreatIntel :=
  if w.store.path = "" then [] else w.file.getD []

/-- The items after a reload of a file that can be read. -/
def World.reloaded (now : Int) (uuids : Nat → Bytes) (w : World lib) : World lib :=
  (w.reload now uuids none).1

theorem items_reloaded (now : Int) (uuids : Nat → Bytes) (w : World lib) :
    (w.reloaded now uuids).store.items =
      Catalog.empty.putAll (normalizeAll lib now uuids w.loaded) := by
  rw [World.reloaded, World.reload, ite_self]
  rfl

theorem loaded_reloaded (now : Int) (uuids : Nat → Bytes) (w : World lib) :
    (w.reloaded now uuids).loaded = w.loaded := by
  rw [World.reloaded, World.reload, ite_self]
  rfl

/-! ### Reloading twice -/

/-- What the UUIDs of two loads promise: none is drawn in both, and none is in the file already. -/
structure FreshUUIDs (loaded : List ThreatIntel) (uuids uuids' : Nat → Bytes) : Prop where
  apart : ∀ i j, uuids i ≠ uuids' j
  unused : ∀ it ∈ loaded, ∀ i, it.id ≠ utf8 "ioc-" ++ uuids i

variable {x : Item lib}

section
variable {loaded : List ThreatIntel} {now now' : Int} {uuids uuids' : Nat → Bytes}

theorem normalItem_of_id {it : ThreatIntel} (h : it.id ≠ []) (uuid uuid' : Bytes) :
    normalItem lib now uuid it = normalItem lib now uuid' it := by
  simp only [normalItem, normalize, if_neg h]

theorem mem_normalizeAll : x ∈ normalizeAll lib now uuids loaded ↔
    ∃ i, ∃ h : i < loaded.length, normalItem lib now (uuids i) loaded[i] = x := by
  rw [normalizeAll, List.mem_mapIdx]

/-- With ids in the file the UUIDs do not matter. -/
theorem normalizeAll_of_ids (h : ∀ it ∈ loaded, it.id ≠ []) :
    normalizeAll lib now uuids loaded = loaded.map (normalItem lib now []) := by
  refine List.ext_getElem (by rw [normalizeAll, List.length_mapIdx, List.length_map]) fun i _ hi => ?_
  rw [List.length_map] at hi
  simp only [normalizeAll, List.getElem_mapIdx, List.getElem_map]
  exact normalItem_of_id (h _ (List.getElem_mem hi)) _ _

/-- Everything a load leaves carries the time of the load. -/
theorem updatedAt_of_mem
    (hx : x ∈ (Catalog.empty : Items lib).putAll (normalizeAll lib now uuids loaded)) :
    x.1.updatedAt = now := by
  rcases Catalog.mem_putAll hx with ⟨hempty, -⟩ | hx
  · exact absurd hempty Catalog.not_mem_empty
  · obtain ⟨i, hi, rfl⟩ := mem_normalizeAll.mp hx
    rfl

variable (lib now uuids) in
/-- Each entry of the file has its id in the result. -/
theorem exists_mem_of_entry {i : Nat} (hi : i < loaded.length) :
    ∃ x ∈ (Catalog.empty : Items lib).putAll (normalizeAll lib now uuids loaded),
      x.1.id = (normalItem lib now (uuids i) loaded[i]).1.id := by
  obtain ⟨y, -, hid, hy⟩ := Catalog.exists_mem_putAll (c := (Catalog.empty : Items lib))
    (mem_normalizeAll.mpr ⟨i, hi, rfl⟩)
  exact ⟨y, hy, hid⟩

/-- The id of an entry without one is not among those of another load. -/
theorem id_ne_of_fresh (hfresh : FreshUUIDs loaded uuids uuids') {i : Nat} {y : Item lib}
    (hy : y ∈ (Catalog.empty : Items lib).putAll (normalizeAll lib now' uuids' loaded)) :
    y.1.id ≠ utf8 "ioc-" ++ uuids i := by
  rcases Catalog.mem_putAll hy with ⟨hempty, -⟩ | hy
  · exact absurd hempty Catalog.not_mem_empty
  · obtain ⟨j, hj, rfl⟩ := mem_normalizeAll.mp hy
    simp only [normalItem, normalize]
    split_ifs with hid
    · intro heq
      exact hfresh.apart i j (List.append_cancel_left heq).symm
    · exact hfresh.unused _ (List.getElem_mem hj) i

/-- Two loads of one file agree exactly if it is empty, or they happen in one second and every entry
    has an id. -/
theorem sameItems_loads_iff (hfresh : FreshUUIDs loaded uuids uuids') :
    SameItems ((Catalog.empty : Items lib).putAll (normalizeAll lib now uuids loaded))
      (Catalog.empty.putAll (normalizeAll lib now' uuids' loaded)) ↔
    loaded = [] ∨ (now = now' ∧ ∀ it ∈ loaded, it.id ≠ []) := by
  constructor
  · intro hsame
    by_cases hempty : loaded = []
    · exact .inl hempty
    · have hpos : 0 < loaded.length := List.length_pos_iff.mpr hempty
      obtain ⟨x, hx, -⟩ := exists_mem_of_entry lib now uuids hpos
      refine .inr ⟨(updatedAt_of_mem hx).symm.trans (updatedAt_of_mem ((hsame x).mp hx)), ?_⟩
      intro it hit hid
      obtain ⟨i, hi, rfl⟩ := List.getElem_of_mem hit
      obtain ⟨y, hy, hyid⟩ := exists_mem_of_entry lib now uuids hi
      refine id_ne_of_fresh hfresh ((hsame y).mp hy) (i := i) ?_
      rw [hyid]
      simp only [normalItem, normalize, if_pos hid]
  · rintro (rfl | ⟨rfl, hids⟩) x
    · exact Iff.rfl
    · rw [normalizeAll_of_ids hids, normalizeAll_of_ids hids]

end

/-! ### Reloading after a write -/

/-- A write, a reload, or another program that changes the file. -/
def Changes (w w' : World lib) : Prop :=
  (∃ order fault op, w' = (Write.perform order fault w op).1) ∨
  (∃ now uuids unreadable, w' = (w.reload now uuids unreadable).1) ∨
  ∃ file, w' = { w with file := file }

/-- The states of a store, from one without items on. -/
abbrev Reached : World lib → Prop := Reachable (fun w => w.store.items = Catalog.empty) Changes

/-- What a write leaves was there before, or it is normalized by it. -/
theorem mem_after {items : Items lib} {op : Write lib} (hx : x ∈ op.after items) :
    x ∈ items ∨ ∃ now uuid it prev, x = renew lib now uuid it prev := by
  have hnormal : ∀ {now uuids new}, x ∈ normalizeAll lib now uuids new →
      ∃ now uuid it prev, x = renew lib now uuid it prev := by
    intro now uuids new h
    obtain ⟨i, hi, rfl⟩ := mem_normalizeAll.mp h
    exact ⟨now, uuids i, new[i], none, rfl⟩
  cases op with
  | add now uuid it =>
    rcases Catalog.mem_put.mp hx with rfl | ⟨h, -⟩
    · exact .inr ⟨now, uuid, it, none, rfl⟩
    · exact .inl h
  | delete id =>
    rw [Write.after, Write.critical, Intel.delete] at hx
    cases hget : items.get? id with
    | none => exact .inl (by simpa [hget, Except.map] using hx)
    | some it =>
      simp only [hget, Except.map] at hx
      exact .inl (Catalog.mem_deleteWhere.mp hx).1
  | sync now uuids new =>
    rcases Catalog.mem_putAll hx with ⟨h, -⟩ | h
    · exact absurd h Catalog.not_mem_empty
    · exact .inr (hnormal h)
  | upsertMany now uuids new =>
    rcases Catalog.mem_upsertAll (fun x prev => id_renew lib now (uuids x.2) x.1 prev) hx with
      ⟨h, -⟩ | ⟨⟨it, i⟩, -, -, prev, rfl⟩
    · exact .inl h
    · exact .inr ⟨now, uuids i, it, prev, rfl⟩
  | syncSource source now uuids new =>
    rw [Write.after, Write.critical, Intel.syncSource] at hx
    split_ifs at hx with hsource
    · exact .inl hx
    · rcases Catalog.mem_putAll hx with ⟨h, -⟩ | h
      · exact .inl (Catalog.mem_deleteWhere.mp h).1
      · exact .inr (hnormal h)
  | upsertDedup now uuids order new =>
    rw [Write.after, Write.critical, Intel.upsertDedup] at hx
    split_ifs at hx with hempty
    · exact .inl hx
    · rcases Catalog.mem_upsertAll (fun it prev => id_renew lib now _ _ prev) hx with
        ⟨h, -⟩ | ⟨it, -, -, prev, rfl⟩
      · exact .inl h
      · exact .inr ⟨now, _, _, prev, rfl⟩
  | pruneExpired now =>
    simp only [Write.after, Write.critical, Intel.pruneExpired] at hx
    cases hcount : (items.list.filter fun it => expired now it.1).length with
    | zero =>
      simp only [hcount] at hx
      exact .inl hx
    | succ n =>
      simp only [hcount] at hx
      exact .inl (Catalog.mem_deleteWhere.mp hx).1

theorem severity_renew (now : Int) (uuid : Bytes) (it : ThreatIntel) (prev : Option (Item lib)) :
    (renew lib now uuid it prev).1.severity ≠ [] := by
  have hnormal : (normalItem lib now uuid it).1.severity ≠ [] := by
    simp only [normalItem, normalize]
    split_ifs with h
    · decide +kernel
    · exact h
  cases prev with
  | none => exact hnormal
  | some existing =>
    rw [renew]
    split
    · exact hnormal
    · exact hnormal

/-- Every stored indicator has a severity. -/
theorem severity_of_reached {w : World lib} (hw : Reached w) (hx : x ∈ w.store.items) :
    x.1.severity ≠ [] := by
  have hstart : ∀ w : World lib, w.store.items = Catalog.empty →
      ∀ x ∈ w.store.items, x.1.severity ≠ [] := by
    intro w hw x hx
    rw [hw] at hx
    exact absurd hx Catalog.not_mem_empty
  have hstep : ∀ w w' : World lib, (∀ x ∈ w.store.items, x.1.severity ≠ []) → Changes w w' →
      ∀ x ∈ w'.store.items, x.1.severity ≠ [] := by
    rintro w w' ih (⟨order, fault, op, rfl⟩ | ⟨now, uuids, unreadable, rfl⟩ | ⟨file, rfl⟩) x hx
    · rw [items_perform] at hx
      rcases mem_after hx with h | ⟨now, uuid, it, prev, rfl⟩
      · exact ih x h
      · exact severity_renew now uuid it prev
    · rw [World.reload] at hx
      split at hx
      · exact ih x hx
      · rcases Catalog.mem_putAll hx with ⟨hempty, -⟩ | h
        · exact absurd hempty Catalog.not_mem_empty
        · obtain ⟨i, hi, rfl⟩ := mem_normalizeAll.mp h
          exact severity_renew now (uuids i) _ none
    · exact ih x hx
  exact hw.invariant hstart hstep x hx

/-- A stored indicator is left alone by a load exactly if it was updated at the time of the load. -/
theorem normalItem_eq_self_iff (hseverity : x.1.severity ≠ []) (now : Int) (uuid : Bytes) :
    normalItem lib now uuid x.1 = x ↔ x.1.updatedAt = now ∧ (x.1.createdAt = 0 → now = 0) := by
  obtain ⟨it, hnormal⟩ := x
  have heq : normalItem lib now uuid it = ⟨it, hnormal⟩ ↔ normalize lib now uuid it = it :=
    Item.mk.injEq _ _ _ _ ▸ Iff.rfl
  have hfields : normalize lib now uuid it =
      { it with createdAt := if it.createdAt = 0 then now else it.createdAt, updatedAt := now } := by
    simp only [normalize, hnormal.type.2, hnormal.type.1, hnormal.value, hnormal.source.1, if_neg hnormal.id,
      if_neg hnormal.source.2, if_neg hseverity]
  rw [heq, hfields]
  constructor
  · intro h
    have hupdated := congrArg ThreatIntel.updatedAt h
    have hcreated := congrArg ThreatIntel.createdAt h
    refine ⟨hupdated.symm, fun hzero => ?_⟩
    simp only [if_pos hzero] at hcreated
    exact hcreated.trans hzero
  · rintro ⟨rfl, hzero⟩
    have hcreated : (if it.createdAt = 0 then it.updatedAt else it.createdAt) = it.createdAt := by
      split_ifs with h
      · rw [hzero h, h]
      · rfl
    rw [hcreated]

section
variable {w : World lib} {order : Visit (Item lib)} {op : Write lib} {items : Items lib}

/-- A write that succeeds leaves its items in memory and their snapshot in the file. -/
theorem perform_saved (hpath : w.store.path ≠ "") (hop : op.critical w.store.items = .ok (some items)) :
    (op.perform order none w).1.store.items = items ∧
      (op.perform order none w).1.loaded = (order.visit items.list).map (·.1) := by
  rw [Write.perform, hop]
  simp only [World.commit, if_pos hpath, saveFileAtomic, World.loaded, if_neg hpath]
  exact ⟨trivial, rfl⟩

/-- Loading a snapshot normalizes each item once more. -/
theorem mem_load_snapshot {now : Int} {uuids : Nat → Bytes} {y : Item lib} :
    y ∈ (Catalog.empty : Items lib).putAll
        (normalizeAll lib now uuids ((order.visit items.list).map (·.1))) ↔
      ∃ x ∈ items, normalItem lib now [] x.1 = y := by
  have hids : ∀ it ∈ (order.visit items.list).map (·.1), it.id ≠ [] := by
    intro it hit
    obtain ⟨x, -, rfl⟩ := List.mem_map.mp hit
    exact x.2.id
  have hid : ∀ x : Item lib, (normalItem lib now [] x.1).1.id = x.1.id := fun x => if_neg x.2.id
  rw [normalizeAll_of_ids hids, List.map_map]
  have hkeys : (((order.visit items.list).map (normalItem lib now [] ∘ (·.1))).map
      (·.1.id)).Nodup := by
    have hmap : (order.visit items.list).map ((·.1.id) ∘ normalItem lib now [] ∘ (·.1)) =
        (order.visit items.list).map (·.1.id) := List.map_congr_left fun x _ => hid x
    rw [List.map_map, hmap]
    exact ((order.perm items.list).map _).nodup_iff.mpr items.distinct
  rw [Catalog.mem_putAll_empty hkeys, List.mem_map]
  simp only [order.mem]
  rfl

/-- A reload leaves what a write has saved exactly if all of it was updated at the time of the
    reload. -/
theorem sameItems_reloaded_iff (hw : Reached w) (hpath : w.store.path ≠ "")
    (hop : op.critical w.store.items = .ok (some items)) (now : Int) (uuids : Nat → Bytes) :
    SameItems ((op.perform order none w).1.reloaded now uuids).store.items
      (op.perform order none w).1.store.items ↔
    ∀ x ∈ (op.perform order none w).1.store.items,
      x.1.updatedAt = now ∧ (x.1.createdAt = 0 → now = 0) := by
  have hseverity : ∀ x ∈ items, x.1.severity ≠ [] := by
    have hnext : Reached (op.perform order none w).1 := hw.next (.inl ⟨order, none, op, rfl⟩)
    have hitems : (op.perform order none w).1.store.items = items := (perform_saved hpath hop).1
    exact fun x hx => severity_of_reached hnext (hitems ▸ hx)
  rw [items_reloaded, (perform_saved hpath hop).1, (perform_saved hpath hop).2]
  have hself : ∀ x ∈ items, normalItem lib now [] x.1 = x ↔
      x.1.updatedAt = now ∧ (x.1.createdAt = 0 → now = 0) := fun x hx =>
    normalItem_eq_self_iff (hseverity x hx) now []
  constructor
  · intro hsame x hx
    -- the item under this id after the load is the only one under it before
    have hmem : normalItem lib now [] x.1 ∈ items :=
      (hsame _).mp (mem_load_snapshot.mpr ⟨x, hx, rfl⟩)
    exact (hself x hx).mp (Catalog.eq_of_key hmem hx (if_neg x.2.id))
  · intro hall y
    rw [mem_load_snapshot]
    constructor
    · rintro ⟨x, hx, rfl⟩
      rw [(hself x hx).mpr (hall x hx)]
      exact hx
    · intro hy
      exact ⟨y, hy, (hself y hy).mpr (hall y hy)⟩

end

/-- Two loads of an unchanged file agree exactly if the file is empty or they happen in one second and
    every entry has an id; and a load after a write that was saved changes nothing exactly if all items
    were updated in the second of the load. -/
theorem reload_steady_iff :
    (∀ (w : World lib) (now now' : Int) (uuids uuids' : Nat → Bytes), FreshUUIDs w.loaded uuids uuids' →
      (SameItems (w.reloaded now uuids).store.items
          ((w.reloaded now uuids).reloaded now' uuids').store.items ↔
        w.loaded = [] ∨ (now = now' ∧ ∀ it ∈ w.loaded, it.id ≠ []))) ∧
    ∀ (w : World lib) (order : Visit (Item lib)) (op : Write lib) (items : Items lib), Reached w →
      w.store.path ≠ "" → op.critical w.store.items = .ok (some items) →
      ∀ (now : Int) (uuids : Nat → Bytes),
        (SameItems ((op.perform order none w).1.reloaded now uuids).store.items
            (op.perform order none w).1.store.items ↔
          ∀ x ∈ (op.perform order none w).1.store.items,
            x.1.updatedAt = now ∧ (x.1.createdAt = 0 → now = 0)) := by
  constructor
  · intro w now now' uuids uuids' hfresh
    rw [items_reloaded, items_reloaded, loaded_reloaded]
    exact sameItems_loads_iff hfresh
  · intro w order op items hw hpath hop now uuids
    exact sameItems_reloaded_iff hw hpath hop now uuids

/-- A store with a file of its own. -/
def fileStore (file : List ThreatIntel) : World sampleLib where
  store := { items := Catalog.empty, path := "intel.yaml" }
  file := some file

/-- Two loads in one second, and a load in the second of the write before it. -/
theorem reload_steady_iff_one_second :
    SameItems ((fileStore [sampleItem "x"]).reloaded 1 fun _ => utf8 "a").store.items
      (((fileStore [sampleItem "x"]).reloaded 1 fun _ => utf8 "a").reloaded 1 fun _ =>
        utf8 "b").store.items ∧
    SameItems (((Write.add 1 [] (sampleItem "x")).perform .listed none (fileStore [])).1.reloaded 1
        fun _ => []).store.items
      ((Write.add 1 [] (sampleItem "x")).perform .listed none (fileStore [])).1.store.items := by
  have hapart : ∀ _ _ : Nat, utf8 "a" ≠ utf8 "b" := fun _ _ => by decide +kernel
  have hunused : ∀ it ∈ [sampleItem "x"], ∀ _ : Nat, it.id ≠ utf8 "ioc-" ++ utf8 "a" := by
    intro it hit _
    rw [List.mem_singleton.mp hit]
    decide +kernel
  refine ⟨(reload_steady_iff.1 (fileStore [sampleItem "x"]) 1 1 _ _ ⟨hapart, hunused⟩).mpr
    (.inr ⟨rfl, ?_⟩), ?_⟩
  · intro it hit
    rw [List.mem_singleton.mp hit]
    decide +kernel
  · refine (reload_steady_iff.2 (fileStore []) .listed _ _ (.start rfl) (by decide) rfl 1 _).mpr ?_
    have hall : ∀ x ∈ ((Write.add 1 [] (sampleItem "x")).perform .listed none
        (fileStore [])).1.store.items.list,
        x.1.updatedAt = 1 ∧ (x.1.createdAt = 0 → (1 : Int) = 0) := by
      decide +kernel
    exact hall

/-- One second later the same file gives another update time, and an entry without an id another id;
    and so does the file that an added indicator was saved to. -/
theorem reload_changes_items :
    ¬ SameItems ((fileStore [sampleItem "x"]).reloaded 1 fun _ => utf8 "a").store.items
      (((fileStore [sampleItem "x"]).reloaded 1 fun _ => utf8 "a").reloaded 2 fun _ =>
        utf8 "b").store.items ∧
    ¬ SameItems ((fileStore [sampleItem ""]).reloaded 1 fun _ => utf8 "a").store.items
      (((fileStore [sampleItem ""]).reloaded 1 fun _ => utf8 "a").reloaded 1 fun _ =>
        utf8 "b").store.items ∧
    ¬ SameItems (((Write.add 1 [] (sampleItem "x")).perform .listed none (fileStore [])).1.reloaded 2
        fun _ => []).store.items
      ((Write.add 1 [] (sampleItem "x")).perform .listed none (fileStore [])).1.store.items := by
  have hdiffer : ∀ {a b : Items sampleLib}, (¬ ∀ x ∈ a.list, x ∈ b.list) → ¬ SameItems a b :=
    fun h hsame => h fun x hx => (hsame x).mp hx
  exact ⟨hdiffer (by decide +kernel), hdiffer (by decide +kernel), hdiffer (by decide +kernel)⟩

end TaNode.Intel

import Mathlib.Data.List.Induction
import TaNode.Intel.Store

/-! Merging a feed batch into the store by canonical key, `UpsertDedup`.

    The batch is cut down to one item for each key. An item whose key is stored takes the id of an
    entry with that key, the others come under their own id:

        key stored under i       write to i
        key not stored           write to the item's own id, or "ioc-" and its UUID

    Nothing compares the second kind of id with the ids in the store or with each other. The merge
    does what it is for exactly when those ids are new and distinct; and which of several entries
    with one key is updated depends on the order of the map, unless the update changes nothing. -/

namespace TaNode.Intel
variable {lib : Lib}
variable {new : List ThreatIntel} {k : Bytes} {b it : ThreatIntel}

/-! ### One item for each key -/

/-- The first item with the largest `UpdatedAt` among those with key `k`. -/
def FirstNewest (lib : Lib) (new : List ThreatIntel) (k : Bytes) (b : ThreatIntel) : Prop :=
  ∃ i : Nat, new[i]? = some b ∧ canonicalKey lib b = k ∧
    ∀ (j : Nat) x, new[j]? = some x → canonicalKey lib x = k →
      x.updatedAt ≤ b.updatedAt ∧ (j < i → x.updatedAt < b.updatedAt)

theorem FirstNewest.unique {c : ThreatIntel} (hb : FirstNewest lib new k b)
    (hc : FirstNewest lib new k c) : b = c := by
  obtain ⟨i, hi, hkb, hb⟩ := hb
  obtain ⟨j, hj, hkc, hc⟩ := hc
  have hle := (hb j c hj hkc).1
  have hge := (hc i b hi hkb).1
  rcases Nat.lt_trichotomy i j with h | rfl | h
  · have := (hc i b hi hkb).2 h
    omega
  · exact Option.some.inj (hi.symm.trans hj)
  · have := (hb j c hj hkc).2 h
    omega

/-- A later item that is not newer changes nothing. -/
theorem FirstNewest.snoc (hb : FirstNewest lib new k b)
    (hit : canonicalKey lib it = k → it.updatedAt ≤ b.updatedAt) :
    FirstNewest lib (new ++ [it]) k b := by
  obtain ⟨i, hi, hkb, hb⟩ := hb
  have hlen := (List.getElem?_eq_some_iff.mp hi).1
  refine ⟨i, by grind, hkb, ?_⟩
  intro j x hj hkx
  by_cases hlast : j < new.length
  · exact hb j x (by grind) hkx
  · obtain rfl : x = it := by grind
    exact ⟨hit hkx, fun hlt => by omega⟩

/-- A later item that is newer than all before it. -/
theorem firstNewest_last
    (h : ∀ x ∈ new, canonicalKey lib x = canonicalKey lib it → x.updatedAt < it.updatedAt) :
    FirstNewest lib (new ++ [it]) (canonicalKey lib it) it := by
  refine ⟨new.length, by simp, rfl, ?_⟩
  intro j x hj hkx
  by_cases hlast : j < new.length
  · have hlt := h x (by grind) hkx
    exact ⟨Int.le_of_lt hlt, fun _ => hlt⟩
  · obtain rfl : x = it := by grind
    exact ⟨Int.le_refl _, fun hlt => absurd hlt hlast⟩

/-- What the batch map says of a key after the items seen so far. -/
def Keeps (lib : Lib) (new : List ThreatIntel) (k : Bytes) : Option ThreatIntel → Prop
  | some b => FirstNewest lib new k b
  | none => ∀ x ∈ new, canonicalKey lib x ≠ k

variable {kept : Catalog (canonicalKey lib)} {x y : Item lib}

theorem get?_keepNewest_other (hne : canonicalKey lib it ≠ k) :
    (keepNewest lib kept it).get? k = kept.get? k := by
  have hput : (kept.put it).get? k = kept.get? k := by
    rw [Catalog.get?_put, if_neg (Ne.symm hne)]
  rw [keepNewest]
  split
  · split
    · rfl
    · exact hput
  · exact hput

theorem Keeps.snoc_other (hne : canonicalKey lib it ≠ k) :
    ∀ {o : Option ThreatIntel}, Keeps lib new k o → Keeps lib (new ++ [it]) k o
  | none, h => by
    intro x hx
    rcases List.mem_append.mp hx with hx | hx
    · exact h x hx
    · rw [List.mem_singleton.mp hx]
      exact hne
  | some _, h => FirstNewest.snoc h fun hk => absurd hk hne

theorem Keeps.snoc_same (h : Keeps lib new (canonicalKey lib it) (kept.get? (canonicalKey lib it))) :
    Keeps lib (new ++ [it]) (canonicalKey lib it)
      ((keepNewest lib kept it).get? (canonicalKey lib it)) := by
  rw [keepNewest]
  cases hget : kept.get? (canonicalKey lib it) with
  | none =>
    rw [hget] at h
    rw [Catalog.get?_put, if_pos rfl]
    exact firstNewest_last fun x hx hkx => absurd hkx (h x hx)
  | some ex =>
    rw [hget] at h
    dsimp only
    split
    · rw [hget]
      exact FirstNewest.snoc h fun _ => by assumption
    · rw [Catalog.get?_put, if_pos rfl]
      obtain ⟨_, _, _, hex⟩ := h
      refine firstNewest_last fun x hx hkx => ?_
      obtain ⟨j, hj⟩ := List.getElem?_of_mem hx
      have := (hex j x hj hkx).1
      omega

theorem keeps_batch (lib : Lib) (new : List ThreatIntel) (k : Bytes) :
    Keeps lib new k ((batch lib new).get? k) := by
  induction new using List.reverseRecOn with
  | nil =>
    intro x hx
    exact absurd hx List.not_mem_nil
  | append_singleton new it ih =>
    rw [batch, List.foldl_append, List.foldl_cons, List.foldl_nil, ← batch]
    by_cases hk : canonicalKey lib it = k
    · subst hk
      exact ih.snoc_same
    · rw [get?_keepNewest_other hk]
      exact ih.snoc_other hk

/-- The batch holds for each key the first of its newest items. -/
theorem mem_batch : b ∈ batch lib new ↔ FirstNewest lib new (canonicalKey lib b) b := by
  have hkeeps := keeps_batch lib new (canonicalKey lib b)
  constructor
  · intro hb
    rw [Catalog.get?_eq_some.mpr ⟨hb, rfl⟩] at hkeeps
    exact hkeeps
  · intro hb
    cases hget : (batch lib new).get? (canonicalKey lib b) with
    | none =>
      rw [hget] at hkeeps
      obtain ⟨i, hi, _⟩ := hb
      exact absurd rfl (hkeeps b (List.mem_of_getElem? hi))
    | some c =>
      rw [hget] at hkeeps
      rw [hb.unique hkeeps]
      exact (Catalog.get?_eq_some.mp hget).1

/-- Every key of the items is in the batch. -/
theorem exists_firstNewest (hit : it ∈ new) :
    ∃ b ∈ batch lib new, canonicalKey lib b = canonicalKey lib it := by
  have hkeeps := keeps_batch lib new (canonicalKey lib it)
  cases hget : (batch lib new).get? (canonicalKey lib it) with
  | none =>
    rw [hget] at hkeeps
    exact absurd rfl (hkeeps it hit)
  | some b => exact ⟨b, Catalog.get?_eq_some.mp hget⟩

/-! ### Where the batch is written -/

section
variable (lib) (now : Int) (uuids : Bytes → Bytes)

/-- The id under which an item comes if its key is not stored. -/
def ownID (b : ThreatIntel) : Bytes := (normalItem lib now (uuids (canonicalKey lib b)) b).1.id

/-- The id under which an item of the batch is written. -/
def target (order : Visit (Item lib)) (items : Items lib) (b : ThreatIntel) : Bytes :=
  ownID lib now uuids (identified lib (existing lib order items) b)

/-- What is written there, from what stood there. -/
def written (order : Visit (Item lib)) (items : Items lib) (b : ThreatIntel)
    (prev : Option (Item lib)) : Item lib :=
  renew lib now (uuids (canonicalKey lib b)) (identified lib (existing lib order items) b) prev

/-- The entry `x` updated by `b`. -/
def updated (b : ThreatIntel) (x : Item lib) : Item lib :=
  renew lib now (uuids (canonicalKey lib b)) { b with id := x.1.id } (some x)

/-- The items after the merge. -/
def merged (order : MergeOrder lib) (new : List ThreatIntel) (items : Items lib) : Items lib :=
  (upsertDedup lib now uuids order new items).getD items

variable {lib now uuids} {order : Visit (Item lib)} {items : Items lib} {b : ThreatIntel}

theorem key_identified (ids : Bytes → Option Bytes) (b : ThreatIntel) :
    canonicalKey lib (identified lib ids b) = canonicalKey lib b := by
  rw [identified]
  split
  · rfl
  · rfl

theorem merged_eq (order : MergeOrder lib) (new : List ThreatIntel) :
    merged lib now uuids order new items =
      items.upsertAll (target lib now uuids order.existing items)
        (written lib now uuids order.existing items)
        (order.batch.visit (batch lib new).list) := by
  have htarget : target lib now uuids order.existing items = fun b =>
      (normalItem lib now (uuids (canonicalKey lib b))
        (identified lib (existing lib order.existing items) b)).1.id := by
    funext b
    rw [target, ownID, key_identified]
  rw [merged, upsertDedup, htarget]
  split
  · rename_i hnil
    rw [hnil, List.perm_nil.mp (order.batch.perm [])]
    rfl
  · rfl

theorem id_written (b : ThreatIntel) (prev : Option (Item lib)) :
    (written lib now uuids order items b prev).1.id = target lib now uuids order items b := by
  rw [written, id_renew, target, ownID, key_identified]

theorem key_written (b : ThreatIntel) (prev : Option (Item lib)) :
    (written lib now uuids order items b prev).key = canonicalKey lib b := by
  rw [written, key_renew, key_identified]

theorem id_updated (b : ThreatIntel) (x : Item lib) :
    (updated lib now uuids b x).1.id = x.1.id := by
  rw [updated, id_renew]
  exact if_neg x.2.id

/-- No entry of the store has the key of `b`. -/
def Absent (items : Items lib) (b : ThreatIntel) : Prop := ∀ x ∈ items, x.key ≠ canonicalKey lib b

theorem existing_absent (h : Absent items b) : identified lib (existing lib order items) b = b := by
  have hnone : existing lib order items (canonicalKey lib b) = none := by
    rw [existing, Option.map_eq_none_iff, List.find?_eq_none]
    intro x hx
    rw [List.mem_reverse, order.mem] at hx
    simpa using h x hx
  rw [identified, hnone]

/-- A stored key leads to an entry with that key. -/
theorem existing_present (order : Visit (Item lib)) (h : ¬ Absent items b) :
    ∃ x ∈ items, x.key = canonicalKey lib b ∧
      identified lib (existing lib order items) b = { b with id := x.1.id } := by
  rw [Absent] at h
  push Not at h
  obtain ⟨x, hx, hkey⟩ := h
  cases hfind : (order.visit items.list).reverse.find? (fun it => it.key = canonicalKey lib b) with
  | none =>
    rw [List.find?_eq_none] at hfind
    have hmem : x ∈ (order.visit items.list).reverse := List.mem_reverse.mpr (order.mem.mpr hx)
    exact absurd (decide_eq_true hkey) (hfind x hmem)
  | some y =>
    have hy : y.key = canonicalKey lib b := by simpa using List.find?_some hfind
    refine ⟨y, order.mem.mp (List.mem_reverse.mp (List.mem_of_find?_eq_some hfind)), hy, ?_⟩
    rw [identified, existing, hfind, Option.map_some]

theorem target_absent (h : Absent items b) :
    target lib now uuids order items b = ownID lib now uuids b := by
  rw [target, existing_absent h]

theorem written_absent (h : Absent items b) (prev : Option (Item lib)) :
    written lib now uuids order items b prev =
      renew lib now (uuids (canonicalKey lib b)) b prev := by
  rw [written, existing_absent h]

variable (now uuids) in
/-- An item whose key is stored updates an entry with that key. -/
theorem target_present (order : Visit (Item lib)) (h : ¬ Absent items b) :
    ∃ x ∈ items, x.key = canonicalKey lib b ∧ target lib now uuids order items b = x.1.id ∧
      written lib now uuids order items b (some x) = updated lib now uuids b x := by
  obtain ⟨x, hx, hkey, hid⟩ := existing_present order h
  refine ⟨x, hx, hkey, ?_, ?_⟩
  · rw [target, hid]
    exact if_neg x.2.id
  · rw [written, hid, updated]

/-- The entry visited last is the one that is updated. -/
theorem target_last (hx : x ∈ items) (hkey : x.key = canonicalKey lib b) :
    target lib now uuids (.last x) items b = x.1.id := by
  have hfound : existing lib (.last x) items (canonicalKey lib b) = some x.1.id := by
    rw [existing, Visit.visit_last hx]
    simp [hkey]
  rw [target, identified, hfound]
  exact if_neg x.2.id

/-! ### Merges whose own ids are new and distinct -/

variable {new : List ThreatIntel} {m : MergeOrder lib}

theorem mem_merged (hy : y ∈ merged lib now uuids m new items) :
    (y ∈ items ∧ ∀ b ∈ batch lib new, target lib now uuids m.existing items b ≠ y.1.id) ∨
      ∃ b ∈ batch lib new, y.key = canonicalKey lib b ∧
        target lib now uuids m.existing items b = y.1.id := by
  rw [merged_eq] at hy
  rcases Catalog.mem_upsertAll id_written hy with ⟨hmem, hother⟩ | ⟨b, hb, htarget, prev, rfl⟩
  · refine .inl ⟨hmem, ?_⟩
    intro b hb heq
    exact hother (List.mem_map.mpr ⟨b, m.batch.mem.mpr hb, heq⟩)
  · exact .inr ⟨b, m.batch.mem.mp hb, key_written b prev, htarget⟩

/-- An entry that no item of the batch targets stays as it is. -/
theorem mem_merged_of_mem (hx : x ∈ items)
    (h : ∀ b ∈ batch lib new, target lib now uuids m.existing items b ≠ x.1.id) :
    x ∈ merged lib now uuids m new items := by
  rw [merged_eq]
  refine Catalog.mem_upsertAll_of_mem id_written hx ?_
  intro hmem
  obtain ⟨b, hb, heq⟩ := List.mem_map.mp hmem
  exact h b (m.batch.mem.mp hb) heq

variable (lib now uuids) in
/-- The own ids of the items with new keys are new, and no two of them are equal. -/
structure Separate (items : Items lib) (new : List ThreatIntel) : Prop where
  fresh : ∀ b ∈ batch lib new, Absent items b → ∀ x ∈ items, x.1.id ≠ ownID lib now uuids b
  distinct : ∀ b ∈ batch lib new, ∀ c ∈ batch lib new, Absent items b → Absent items c →
    ownID lib now uuids b = ownID lib now uuids c → b = c

section
variable (hs : Separate lib now uuids items new)
include hs

/-- A stored entry is targeted by an item with its key only. -/
theorem Separate.key_of_target (hb : b ∈ batch lib new) (hx : x ∈ items)
    (h : target lib now uuids order items b = x.1.id) : x.key = canonicalKey lib b := by
  by_cases habs : Absent items b
  · rw [target_absent habs] at h
    exact absurd h.symm (hs.fresh b hb habs x hx)
  · obtain ⟨y, hy, hkey, hid, _⟩ := target_present now uuids order habs
    rw [Catalog.eq_of_key hx hy (h.symm.trans hid)]
    exact hkey

theorem Separate.target_inj {c : ThreatIntel} (hb : b ∈ batch lib new) (hc : c ∈ batch lib new)
    (h : target lib now uuids order items b = target lib now uuids order items c) : b = c := by
  by_cases hab : Absent items b
  · by_cases hac : Absent items c
    · rw [target_absent hab, target_absent hac] at h
      exact hs.distinct b hb c hc hab hac h
    · obtain ⟨y, hy, _, hid, _⟩ := target_present now uuids order hac
      rw [target_absent hab, hid] at h
      exact absurd h.symm (hs.fresh b hb hab y hy)
  · obtain ⟨y, hy, hkey, hid, _⟩ := target_present now uuids order hab
    have hkey' := hs.key_of_target hc hy (h.symm.trans hid)
    exact Catalog.eq_of_key hb hc (hkey.symm.trans hkey')

omit hs in
/-- With distinct targets every item of the batch is written. -/
theorem get?_merged (hinj : ∀ b ∈ batch lib new, ∀ c ∈ batch lib new,
      target lib now uuids m.existing items b = target lib now uuids m.existing items c → b = c)
    (hb : b ∈ batch lib new) :
    (merged lib now uuids m new items).get? (target lib now uuids m.existing items b) =
      some (written lib now uuids m.existing items b
        (items.get? (target lib now uuids m.existing items b))) := by
  rw [merged_eq]
  refine Catalog.get?_upsertAll_distinct id_written ?_ b (m.batch.mem.mpr hb)
  refine List.Nodup.map_on ?_ ((m.batch.perm _).nodup_iff.mpr (batch lib new).distinct.of_map)
  intro c hc d hd h
  exact hinj c (m.batch.mem.mp hc) d (m.batch.mem.mp hd) h

theorem Separate.get?_merged (hb : b ∈ batch lib new) :
    (merged lib now uuids m new items).get? (target lib now uuids m.existing items b) =
      some (written lib now uuids m.existing items b
        (items.get? (target lib now uuids m.existing items b))) :=
  Intel.get?_merged (fun _ hb _ hc h => hs.target_inj hb hc h) hb

theorem Separate.added (hb : b ∈ batch lib new) (habs : Absent items b) :
    normalItem lib now (uuids (canonicalKey lib b)) b ∈ merged lib now uuids m new items := by
  have hget := hs.get?_merged (m := m) hb
  have hnone : items.get? (ownID lib now uuids b) = none :=
    Catalog.get?_eq_none.mpr (hs.fresh b hb habs)
  rw [target_absent habs, hnone, written_absent habs] at hget
  exact (Catalog.get?_eq_some.mp hget).1

/-- An entry that is targeted is updated. -/
theorem Separate.updates (hb : b ∈ batch lib new) (hx : x ∈ items)
    (h : target lib now uuids m.existing items b = x.1.id) :
    updated lib now uuids b x ∈ merged lib now uuids m new items := by
  have habs : ¬ Absent items b := fun habs => habs x hx (hs.key_of_target hb hx h)
  obtain ⟨y, hy, _, hid, hwritten⟩ :=
    target_present now uuids m.existing habs
  obtain rfl := Catalog.eq_of_key hx hy (h.symm.trans hid)
  have hget := hs.get?_merged (m := m) hb
  rw [h, Catalog.get?_eq_some.mpr ⟨hx, rfl⟩, hwritten] at hget
  exact (Catalog.get?_eq_some.mp hget).1

end

/-! ### What a merge is for -/

variable (lib now uuids) in
/-- The merge of `new` into `items`: the keys of both, a new entry for each new key and an update
    in place for each stored one, with the first newest item of the key. -/
structure Merged (items : Items lib) (new : List ThreatIntel) (after : Items lib) : Prop where
  keys : ∀ k, (∃ y ∈ after, y.key = k) ↔
    (∃ x ∈ items, x.key = k) ∨ ∃ it ∈ new, canonicalKey lib it = k
  added : ∀ k b, FirstNewest lib new k b → (∀ x ∈ items, x.key ≠ k) →
    ∃ y ∈ after, y = normalItem lib now (uuids k) b ∧ (∀ x ∈ items, x.1.id ≠ y.1.id) ∧
      ∀ z ∈ after, z.key = k → z = y
  updated : ∀ k b, FirstNewest lib new k b → (∃ x ∈ items, x.key = k) →
    (∃ x ∈ items, x.key = k ∧ renew lib now (uuids k) { b with id := x.1.id } (some x) ∈ after) ∧
      ∀ y ∈ after, y.key = k → ∃ x ∈ items, x.key = k ∧ x.1.id = y.1.id

theorem FirstNewest.mem_batch (hb : FirstNewest lib new k b) :
    b ∈ batch lib new ∧ canonicalKey lib b = k := by
  obtain ⟨i, hi, rfl, h⟩ := hb
  exact ⟨Intel.mem_batch.mpr ⟨i, hi, rfl, h⟩, rfl⟩

theorem mem_of_mem_batch (hb : b ∈ batch lib new) : b ∈ new := by
  obtain ⟨_, hi, _⟩ := mem_batch.mp hb
  exact List.mem_of_getElem? hi

theorem Separate.keys (hs : Separate lib now uuids items new) (k : Bytes) :
    (∃ y ∈ merged lib now uuids m new items, y.key = k) ↔
      (∃ x ∈ items, x.key = k) ∨ ∃ it ∈ new, canonicalKey lib it = k := by
  have hbatch : ∀ b ∈ batch lib new,
      ∃ y ∈ merged lib now uuids m new items, y.key = canonicalKey lib b := fun b hb =>
    ⟨_, (Catalog.get?_eq_some.mp (hs.get?_merged hb)).1, key_written b _⟩
  constructor
  · rintro ⟨y, hy, rfl⟩
    rcases mem_merged hy with ⟨hmem, _⟩ | ⟨b, hb, hkey, _⟩
    · exact .inl ⟨y, hmem, rfl⟩
    · exact .inr ⟨b, mem_of_mem_batch hb, hkey.symm⟩
  · rintro (⟨x, hx, rfl⟩ | ⟨it, hit, rfl⟩)
    · by_cases h : ∀ b ∈ batch lib new, target lib now uuids m.existing items b ≠ x.1.id
      · exact ⟨x, mem_merged_of_mem hx h, rfl⟩
      · push Not at h
        obtain ⟨b, hb, htarget⟩ := h
        rw [hs.key_of_target hb hx htarget]
        exact hbatch b hb
    · obtain ⟨b, hb, hkey⟩ := exists_firstNewest hit
      rw [← hkey]
      exact hbatch b hb

theorem Separate.merges (hs : Separate lib now uuids items new) :
    Merged lib now uuids items new (merged lib now uuids m new items) where
  keys := hs.keys
  added := by
    intro k b hb habs
    obtain ⟨hmem, rfl⟩ := hb.mem_batch
    refine ⟨_, hs.added hmem habs, rfl, fun x hx => hs.fresh b hmem habs x hx, ?_⟩
    intro z hz hkey
    rcases mem_merged hz with ⟨hzi, _⟩ | ⟨c, hc, hkeyc, htarget⟩
    · exact absurd hkey (habs z hzi)
    · obtain rfl := Catalog.eq_of_key hmem hc (hkey.symm.trans hkeyc)
      refine Catalog.eq_of_key hz (hs.added hmem habs) ?_
      rw [← htarget, target_absent habs, ownID]
  updated := by
    intro k b hb hpresent
    obtain ⟨hmem, rfl⟩ := hb.mem_batch
    have habs : ¬ Absent items b := fun habs => by
      obtain ⟨x, hx, hkey⟩ := hpresent
      exact habs x hx hkey
    obtain ⟨x, hx, hkey, hid, _⟩ := target_present now uuids m.existing habs
    refine ⟨⟨x, hx, hkey, hs.updates hmem hx hid⟩, ?_⟩
    intro y hy hkeyy
    rcases mem_merged hy with ⟨hyi, _⟩ | ⟨c, hc, hkeyc, htarget⟩
    · exact ⟨y, hyi, hkeyy, rfl⟩
    · obtain rfl := Catalog.eq_of_key hmem hc (hkeyy.symm.trans hkeyc)
      exact ⟨x, hx, hkey, hid.symm.trans htarget⟩

theorem Merged.separate (h : Merged lib now uuids items new (Intel.merged lib now uuids m new items)) :
    Separate lib now uuids items new where
  fresh := by
    intro b hb habs x hx
    obtain ⟨y, _, rfl, hfresh, _⟩ := h.added _ b (mem_batch.mp hb) habs
    exact hfresh x hx
  distinct := by
    intro b hb c hc hab hac heq
    obtain ⟨y, hy, rfl, _, _⟩ := h.added _ b (mem_batch.mp hb) hab
    obtain ⟨z, hz, rfl, _, _⟩ := h.added _ c (mem_batch.mp hc) hac
    have hkeys := congrArg Item.key (Catalog.eq_of_key hy hz heq)
    rw [key_normalItem, key_normalItem] at hkeys
    exact Catalog.eq_of_key hb hc hkeys

/-! ### The order of the loops -/

variable (lib now uuids) in
/-- Where several entries have the key of an item, updating one of them changes nothing. -/
def Steady (items : Items lib) (new : List ThreatIntel) : Prop :=
  ∀ b ∈ batch lib new, ∀ x ∈ items, ∀ y ∈ items, x.key = canonicalKey lib b →
    y.key = canonicalKey lib b → x ≠ y → updated lib now uuids b x = x

section
variable (hs : Separate lib now uuids items new)
include hs

/-- What an entry of the result is. -/
theorem Separate.mem_merged (hy : y ∈ merged lib now uuids m new items) :
    (y ∈ items ∧ ∀ b ∈ batch lib new, target lib now uuids m.existing items b ≠ y.1.id) ∨
      (∃ b ∈ batch lib new, Absent items b ∧
        y = normalItem lib now (uuids (canonicalKey lib b)) b) ∨
      ∃ b ∈ batch lib new, ∃ x ∈ items, x.key = canonicalKey lib b ∧
        target lib now uuids m.existing items b = x.1.id ∧ y = updated lib now uuids b x := by
  rcases Intel.mem_merged hy with hkept | ⟨b, hb, _, htarget⟩
  · exact .inl hkept
  · by_cases habs : Absent items b
    · refine .inr (.inl ⟨b, hb, habs, Catalog.eq_of_key hy (hs.added hb habs) ?_⟩)
      rw [← htarget, target_absent habs, ownID]
    · obtain ⟨x, hx, hkey, hid, _⟩ := target_present now uuids m.existing habs
      refine .inr (.inr ⟨b, hb, x, hx, hkey, hid, ?_⟩)
      refine Catalog.eq_of_key hy (hs.updates hb hx hid) ?_
      rw [← htarget, hid, id_updated]

/-- An entry is left alone if the item with its key updates another one. -/
theorem Separate.mem_merged_of_other (hb : b ∈ batch lib new) (hx : x ∈ items)
    (hkey : x.key = canonicalKey lib b) (hy : target lib now uuids m.existing items b = y.1.id)
    (hne : x.1.id ≠ y.1.id) : x ∈ merged lib now uuids m new items := by
  refine mem_merged_of_mem hx ?_
  intro c hc htarget
  have hkeyc := hs.key_of_target hc hx htarget
  obtain rfl := Catalog.eq_of_key hb hc (hkey.symm.trans hkeyc)
  exact hne (htarget.symm.trans hy)

theorem Separate.merged_subset (hst : Steady lib now uuids items new) {m' : MergeOrder lib}
    (hy : y ∈ merged lib now uuids m new items) : y ∈ merged lib now uuids m' new items := by
  rcases hs.mem_merged hy with ⟨hyi, hfree⟩ | ⟨b, hb, habs, rfl⟩ | ⟨b, hb, x, hx, hkey, hid, rfl⟩
  · by_cases h : ∀ c ∈ batch lib new, target lib now uuids m'.existing items c ≠ y.1.id
    · exact mem_merged_of_mem hyi h
    · push Not at h
      obtain ⟨c, hc, htarget⟩ := h
      have hkey := hs.key_of_target hc hyi htarget
      -- the first order updates another entry with the key of `c`
      obtain ⟨x, hx, hkeyx, hid, _⟩ :=
        target_present now uuids m.existing fun habs => habs y hyi hkey
      have hne : y ≠ x := by
        rintro rfl
        exact hfree c hc hid
      rw [← hst c hc y hyi x hx hkey hkeyx hne]
      exact hs.updates hc hyi htarget
  · exact hs.added hb habs
  · obtain ⟨z, hz, hkeyz, hidz, _⟩ :=
      target_present now uuids m'.existing fun habs => habs x hx hkey
    by_cases hxz : x = z
    · subst hxz
      exact hs.updates hb hx hidz
    · rw [hst b hb x hx z hz hkey hkeyz hxz]
      refine hs.mem_merged_of_other hb hx hkey hidz ?_
      exact fun h => hxz (Catalog.eq_of_key hx hz h)

theorem Separate.steady
    (h : ∀ (m m' : MergeOrder lib) y, y ∈ merged lib now uuids m new items → y ∈ merged lib now uuids m' new items) :
    Steady lib now uuids items new := by
  intro b hb x hx y hy hkx hky hne
  have hlast := hs.updates (m := { existing := .last x }) hb hx (target_last hx hkx)
  have hkept : x ∈ merged lib now uuids { existing := .last y } new items :=
    hs.mem_merged_of_other hb hx hkx (target_last hy hky) fun h => hne (Catalog.eq_of_key hx hy h)
  exact Catalog.eq_of_key hlast (h _ _ x hkept) (id_updated b x)

end

end

section
variable {now : Int} {uuids : Bytes → Bytes} {w : World lib} {new : List ThreatIntel}
  {m : MergeOrder lib}

theorem items_perform_upsertDedup (snapshot : Visit (Item lib)) (fault : Option SaveFault) :
    (Write.perform snapshot fault w (.upsertDedup now uuids m new)).1.store.items =
      merged lib now uuids m new w.store.items := by
  rw [items_perform, Write.after, Write.critical, merged]
  cases upsertDedup lib now uuids m new w.store.items with
  | none => rfl
  | some items => rfl

theorem perform_upsertDedup_ok (snapshot : Visit (Item lib)) :
    (Write.perform snapshot none w (.upsertDedup now uuids m new)).2 = none := by
  rw [Write.perform, Write.critical]
  cases upsertDedup lib now uuids m new w.store.items with
  | none => rfl
  | some items =>
    simp only [World.commit, Write.report]
    split
    · rfl
    · rfl

end

/-- A merge without a save error does what it is for, in every order of its loops and with the same
    items in all of them, exactly when the own ids of the items with new keys are new and distinct
    and no order can choose between entries that the update would change. -/
theorem upsertDedup_merges_iff (now : Int) (uuids : Bytes → Bytes) (w : World lib)
    (new : List ThreatIntel) :
    ((∀ (m : MergeOrder lib) snapshot fault,
        (Write.perform snapshot fault w (.upsertDedup now uuids m new)).2 = none →
        Merged lib now uuids w.store.items new
          (Write.perform snapshot fault w (.upsertDedup now uuids m new)).1.store.items) ∧
      ∀ (m m' : MergeOrder lib) snapshot snapshot' fault fault',
        (Write.perform snapshot fault w (.upsertDedup now uuids m new)).2 = none →
        (Write.perform snapshot' fault' w (.upsertDedup now uuids m' new)).2 = none →
        ∀ x, x ∈ (Write.perform snapshot fault w (.upsertDedup now uuids m new)).1.store.items ↔
          x ∈ (Write.perform snapshot' fault' w (.upsertDedup now uuids m' new)).1.store.items) ↔
    Separate lib now uuids w.store.items new ∧ Steady lib now uuids w.store.items new := by
  simp only [items_perform_upsertDedup]
  constructor
  · rintro ⟨hmerged, hfree⟩
    have hs := (hmerged {} .listed none (perform_upsertDedup_ok _)).separate
    refine ⟨hs, hs.steady fun m m' y hy => ?_⟩
    exact (hfree m m' .listed .listed none none (perform_upsertDedup_ok _)
      (perform_upsertDedup_ok _) y).mp hy
  · rintro ⟨hs, hst⟩
    refine ⟨fun m _ _ _ => hs.merges, ?_⟩
    intro m m' _ _ _ _ _ _ x
    exact ⟨hs.merged_subset hst, hs.merged_subset hst⟩

/-- A feed that uses the id of the stored indicator for another one. -/
def sampleFeed : List ThreatIntel :=
  [{ id := utf8 "x", type := utf8 "domain", value := utf8 "new.example" }]

/-- The merge reports no error, and the stored indicator is gone. -/
theorem feed_id_replaces_indicator :
    (∃ x ∈ sampleStore.store.items, x.key = utf8 "domain|old.example") ∧
    (Write.perform .listed none sampleStore (.upsertDedup 2 (fun _ => []) {} sampleFeed)).2 = none ∧
    ∀ y ∈ (Write.perform .listed none sampleStore
      (.upsertDedup 2 (fun _ => []) {} sampleFeed)).1.store.items,
      y.key ≠ utf8 "domain|old.example" := by
  have hbefore : ∃ x ∈ sampleStore.store.items.list, x.key = utf8 "domain|old.example" := by
    decide +kernel
  have hafter : ∀ y ∈ (Write.perform .listed none sampleStore
      (.upsertDedup 2 (fun _ => []) {} sampleFeed)).1.store.items.list,
      y.key ≠ utf8 "domain|old.example" := by
    decide +kernel
  exact ⟨hbefore, perform_upsertDedup_ok .listed, hafter⟩

end TaNode.Intel

import TaNode.Queue.Shard
import TaNode.Schemes.Front

/-! The order in which a sharded queue hands out its records.

    Each shard gives its first pending rows by id; the parts are merged by creation time and row id
    and cut to the limit. While creation times do not fall with the ids of a shard, the part of a
    shard is its front in the order of the merge, and fronts merge to the front of all:

        shard 0   (t, 1) (t, 2) (u, 7) │ …          by id = by (created, id)
        shard 1   (t, 1) (u, 3)        │ …
                  └──────┬──────┘
        out       the first `limit` of all, by (created, id)

    Rows of one event come out as they went in when they lie in one shard. A base file from before
    sharding has rows of events whose later revisions go to other shards, and between shards only
    creation time and row id count. -/

namespace TaNode.Queue

variable {e a b : Entry} {limit : Int} {C : Codec}

namespace Sharded
variable {s : Sharded}

/-- The pending rows of one shard. -/
def part (s : Sharded) (p : Db × Nat) : List Entry :=
  (p.1.events.select (isPending s.maxRetry)).map fun e => ⟨e.1, e.2.created.getD 0, p.2⟩

/-- All pending rows of all shards. -/
def pending (s : Sharded) : List Entry := s.shards.zipIdx.flatMap s.part

/-- In each shard creation times do not fall as the ids rise. -/
def OldestFirst (s : Sharded) : Prop :=
  ∀ db ∈ s.shards, ∀ i j r t, db.events.rows.lookup i = some r → db.events.rows.lookup j = some t →
    i ≤ j → r.created.getD 0 ≤ t.created.getD 0

/-- The composite id of an entry. -/
def idOf (e : Entry) : Int := compose e.id e.shard

/-- Two ids load records of one event. -/
def SameEvent (s : Sharded) (C : Codec) (x y : Int) : Prop :=
  ∃ ev ev', s.loadEvent C x = .ok ev ∧ s.loadEvent C y = .ok ev' ∧ ev.eventID = ev'.eventID

/-- When the rows behind the ids were inserted: within a shard the ids count up. -/
structure Inserted (s : Sharded) where
  time : Int → Nat
  ids : ∀ a ∈ s.pending, ∀ b ∈ s.pending, a.shard = b.shard → a.id < b.id →
    time (idOf a) < time (idOf b)

/-- The entry comes strictly before the other in the order of the merge. -/
def Before (a b : Entry) : Prop := a.created < b.created ∨ (a.created = b.created ∧ a.id < b.id)

/-- `id` loads the row it was made of. -/
structure Loads (C : Codec) (s : Sharded) (id : Int) (e : Entry) : Prop where
  id_eq : id = idOf e
  row : ∃ db row, s.shards[e.shard]? = some db ∧ db.events.rows.lookup e.id = some row ∧
    isPending s.maxRetry row = true ∧ row.created.getD 0 = e.created ∧ s.rowAt id = some row ∧
    s.loadEvent C id = Queue.loadEvent C e.id db

/-- What `PendingIDs` should return. -/
structure PendingExact (C : Codec) (s : Sharded) (ins : s.Inserted) (limit : Int) (out : List Int) :
    Prop where
  distinct : out.Nodup
  loads : ∀ id ∈ out, ∃ e, Loads C s id e
  first : ∃ src, out = src.map idOf ∧ Front Entry.le limit.toNat s.pending src
  inOrder : out.Pairwise fun x y => s.SameEvent C x y → ins.time x ≤ ins.time y

/-- Rows of one event in different shards: the earlier one has the smaller creation time, or the
    same and the smaller id. -/
def Aligned (C : Codec) (s : Sharded) (ins : s.Inserted) : Prop :=
  ∀ a ∈ s.pending, ∀ b ∈ s.pending, a.shard ≠ b.shard → s.SameEvent C (idOf a) (idOf b) →
    ins.time (idOf a) < ins.time (idOf b) → Before a b

/-! ### The pending rows -/

theorem mem_pending : e ∈ s.pending ↔ ∃ db row, s.shards[e.shard]? = some db ∧
    db.events.rows.lookup e.id = some row ∧ isPending s.maxRetry row = true ∧
    row.created.getD 0 = e.created := by
  rw [pending, List.mem_flatMap]
  constructor
  · rintro ⟨⟨db, i⟩, hdb, he⟩
    obtain ⟨d, hd, rfl⟩ := List.mem_map.mp he
    obtain ⟨hrow, hp⟩ := mem_select.mp hd
    exact ⟨db, d.2, List.mem_zipIdx_iff_getElem?.mp hdb, hrow, hp, rfl⟩
  · rintro ⟨db, row, hdb, hrow, hp, hcreated⟩
    refine ⟨(db, e.shard), List.mem_zipIdx_iff_getElem?.mpr hdb, List.mem_map.mpr ⟨⟨e.id, row⟩,
      mem_select.mpr ⟨hrow, hp⟩, ?_⟩⟩
    rw [hcreated]

/-- A row has one entry. -/
theorem pending_inj (ha : a ∈ s.pending) (hb : b ∈ s.pending) (hid : a.id = b.id)
    (hshard : a.shard = b.shard) : a = b := by
  obtain ⟨db, row, hdb, hrow, -, hcreated⟩ := mem_pending.mp ha
  obtain ⟨db', row', hdb', hrow', -, hcreated'⟩ := mem_pending.mp hb
  rw [hshard, hdb'] at hdb
  obtain rfl := Option.some.inj hdb
  rw [hid, hrow'] at hrow
  obtain rfl := Option.some.inj hrow
  cases a
  cases b
  simp_all

section
variable (hmany : s.shards.length ≠ 1) (hsmall : s.SmallIds)
include hmany hsmall

/-- A composite id leads back to its row. -/
theorem place_idOf (he : e ∈ s.pending) : s.place (idOf e) = (e.shard, e.id) := by
  obtain ⟨db, row, hdb, hrow, -, -⟩ := mem_pending.mp he
  have hshard : e.shard < s.shards.length := (List.getElem?_eq_some_iff.mp hdb).1
  obtain ⟨hlo, hhi⟩ := hsmall.resolve_left hmany db (List.mem_of_getElem? hdb) _ _ hrow
  obtain ⟨h1, h2⟩ := compose_parts (lt_of_lt_of_le hshard s.le) hlo hhi
  rw [place, if_neg hmany, idOf, h1, h2]

theorem idOf_inj (ha : a ∈ s.pending) (hb : b ∈ s.pending) (h : idOf a = idOf b) : a = b := by
  have hplace := place_idOf hmany hsmall ha
  rw [h, place_idOf hmany hsmall hb, Prod.mk.injEq] at hplace
  exact pending_inj ha hb hplace.2.symm hplace.1.symm

theorem loads_idOf (C : Codec) (he : e ∈ s.pending) : Loads C s (idOf e) e := by
  obtain ⟨db, row, hdb, hrow, hp, hcreated⟩ := mem_pending.mp he
  refine ⟨rfl, db, row, hdb, hrow, hp, hcreated, ?_, ?_⟩
  · rw [rowAt, place_idOf hmany hsmall he, hdb]
    exact hrow
  · rw [loadEvent, place_idOf hmany hsmall he, hdb]

end

theorem mem_part {p : Db × Nat} (h : e ∈ s.part p) : e.shard = p.2 := by
  obtain ⟨d, -, rfl⟩ := List.mem_map.mp h
  rfl

theorem select_sorted (q : EventQueue) (p : Row → Bool) :
    (q.select p).Pairwise fun a b => a.1 ≤ b.1 := by
  have htotal : Std.Total fun a b : (_ : Int) × Row => a.1 ≤ b.1 := ⟨fun a b => le_total _ _⟩
  have htrans : IsTrans ((_ : Int) × Row) fun a b => a.1 ≤ b.1 := ⟨fun _ _ _ => le_trans⟩
  exact List.pairwise_insertionSort _ _

theorem pending_nodup (s : Sharded) : s.pending.Nodup := by
  rw [pending, List.nodup_flatMap]
  constructor
  · rintro p -
    have hids : ((s.part p).map Entry.id).Nodup := by
      rw [part, List.map_map]
      exact select_ids _ _
    exact List.Nodup.of_map _ hids
  · -- entries of different shards have different shard numbers
    have hindex : s.shards.zipIdx.Pairwise fun p q => p.2 ≠ q.2 := by
      have hrange : (s.shards.zipIdx.map Prod.snd).Nodup := by
        rw [List.zipIdx_map_snd]
        exact List.nodup_range'
      exact List.pairwise_map.mp hrange
    refine hindex.imp fun {p q} hne e hp hq => hne ?_
    exact (mem_part hp).symm.trans (mem_part hq)

/-- A shard's rows by id are in the order of the merge. -/
theorem part_sorted (hold : s.OldestFirst) {p : Db × Nat} (hp : p.1 ∈ s.shards) :
    (s.part p).Pairwise Entry.le := by
  rw [part, List.pairwise_map]
  refine (select_sorted p.1.events (isPending s.maxRetry)).imp_of_mem fun {a b} ha hb hab => ?_
  have hcreated := hold p.1 hp _ _ _ _ (mem_select.mp ha).1 (mem_select.mp hb).1 hab
  rw [Entry.le]
  dsimp only
  omega

theorem entries_eq (hlimit : 1 ≤ limit) :
    s.entries limit = s.shards.zipIdx.flatMap fun p => (s.part p).take limit.toNat := by
  have hmax : pendingLimit limit = limit.toNat := if_neg (by omega)
  rw [entries]
  refine List.flatMap_congr fun p _ => ?_
  rw [pendingEntries, hmax, part, List.map_map, ← List.map_take]
  rfl

/-- The sorted parts, cut to the limit, are the front of all pending rows. -/
theorem front_of_sorted (hold : s.OldestFirst) (hlimit : 1 ≤ limit) {all : List Entry}
    (hperm : all.Perm (s.entries limit)) (hsorted : all.Pairwise Entry.le) :
    Front Entry.le limit.toNat s.pending (all.take limit.toNat) := by
  let ps := s.shards.zipIdx.map fun p => (s.part p, (s.part p).take limit.toNat)
  have hparts : ∀ p ∈ ps, Front Entry.le limit.toNat p.1 p.2 := by
    intro p hp
    obtain ⟨q, hq, rfl⟩ := List.mem_map.mp hp
    have hdb : q.1 ∈ s.shards := List.mem_of_getElem? (List.mem_zipIdx_iff_getElem?.mp hq)
    exact Front.take (List.Perm.refl _) (part_sorted hold hdb)
  have hfst : ps.flatMap Prod.fst = s.pending := by
    rw [List.flatMap_map]
    rfl
  have hsnd : ps.flatMap Prod.snd = s.entries limit := by
    rw [List.flatMap_map, entries_eq hlimit]
  rw [← hfst]
  exact Front.gather hparts (hsnd ▸ hperm) hsorted

/-- A limit above the number of pending rows cuts nothing off. -/
theorem entries_of_large (hlimit : (s.pending.length : Int) < limit) :
    s.entries limit = s.pending := by
  rw [entries_eq (by omega), pending]
  refine List.flatMap_congr fun p hp => List.take_of_length_le ?_
  have hlength : (s.part p).length ≤ s.pending.length := by
    obtain ⟨pre, post, hsplit⟩ := List.append_of_mem hp
    rw [pending, hsplit, List.flatMap_append, List.flatMap_cons, List.length_append,
      List.length_append]
    omega
  omega

/-! ### Exactness -/

theorem SameEvent.symm {x y : Int} (h : s.SameEvent C x y) : s.SameEvent C y x := by
  obtain ⟨ev, ev', hx, hy, heq⟩ := h
  exact ⟨ev', ev, hy, hx, heq.symm⟩

instance : DecidableRel Before := fun a b => by unfold Before; infer_instance

theorem ranks_before : Ranks fun a b => decide (Before a b) where
  asymm a b h := by
    rw [decide_eq_true_iff, Before] at h
    rw [decide_eq_false_iff_not, Before]
    omega
  trans a b c h₁ h₂ := by
    rw [decide_eq_false_iff_not, Before] at h₁ h₂ ⊢
    omega

theorem le_of_not_before (h : decide (Before b a) = false) : Entry.le a b := by
  rw [decide_eq_false_iff_not, Before] at h
  rw [Entry.le]
  omega

/-- Rows of one event in the order of the merge are in the order of insertion. -/
theorem inserted_le (hold : s.OldestFirst) {ins : s.Inserted} (haligned : Aligned C s ins)
    (ha : a ∈ s.pending) (hb : b ∈ s.pending) (hne : a ≠ b) (hle : Entry.le a b)
    (hsame : s.SameEvent C (idOf a) (idOf b)) : ins.time (idOf a) ≤ ins.time (idOf b) := by
  by_contra hlater
  rw [Entry.le] at hle
  by_cases hshard : a.shard = b.shard
  · rcases lt_trichotomy a.id b.id with hlt | heq | hgt
    · have := ins.ids a ha b hb hshard hlt
      omega
    · exact hne (pending_inj ha hb heq hshard)
    · obtain ⟨db, row, hdb, hrow, -, hcreated⟩ := mem_pending.mp ha
      obtain ⟨db', row', hdb', hrow', -, hcreated'⟩ := mem_pending.mp hb
      rw [hshard, hdb'] at hdb
      obtain rfl := Option.some.inj hdb
      have := hold db' (List.mem_of_getElem? hdb') _ _ _ _ hrow' hrow hgt.le
      omega
  · have hbefore := haligned b hb a ha (Ne.symm hshard) hsame.symm (by omega)
    rw [Before] at hbefore
    omega

section
variable {C : Codec} (hmany : s.shards.length ≠ 1) (hsmall : s.SmallIds) (hold : s.OldestFirst)
  (ins : s.Inserted)
include hmany hsmall hold

theorem exact_of_aligned (haligned : Aligned C s ins) (hlimit : 1 ≤ limit) {out : List Int}
    (hout : s.IsPendingIDs limit out) : PendingExact C s ins limit out := by
  rw [IsPendingIDs, if_neg hmany] at hout
  obtain ⟨all, hperm, hsorted, rfl⟩ := hout
  rw [show pendingLimit limit = limit.toNat from if_neg (by omega)]
  have hfront := front_of_sorted hold hlimit hperm hsorted
  generalize all.take limit.toNat = src at hfront
  have hmem : ∀ e ∈ src, e ∈ s.pending := fun e he => hfront.mem he
  have hnodup : src.Nodup := by
    obtain ⟨rest, hrest, -, -⟩ := hfront.left
    exact (List.nodup_append.mp (hrest.nodup_iff.mpr s.pending_nodup)).1
  refine ⟨?_, fun id hid => ?_, ⟨src, rfl, hfront⟩, ?_⟩
  · exact hnodup.map_on fun a ha b hb h => idOf_inj hmany hsmall (hmem a ha) (hmem b hb) h
  · obtain ⟨e, he, rfl⟩ := List.mem_map.mp hid
    exact ⟨e, loads_idOf hmany hsmall C (hmem e he)⟩
  · rw [List.pairwise_map]
    refine (hfront.ordered.and hnodup).imp_of_mem fun {a b} ha hb hab hsame => ?_
    exact inserted_le hold haligned (hmem a ha) (hmem b hb) hab.2 hab.1 hsame

end

/-- A sort may put the later of two rows that are not aligned first. -/
theorem aligned_of_exact (hmany : s.shards.length ≠ 1) (ins : s.Inserted)
    (hexact : ∀ limit out, 1 ≤ limit → s.IsPendingIDs limit out → PendingExact C s ins limit out) :
    Aligned C s ins := by
  intro a ha b hb hshard hsame hearlier
  by_contra hnot
  obtain ⟨pre, post, hsort, hpre⟩ :=
    @Sorter.favour_spec _ _ (fun a b => decide (Before a b)) _ _ hb
  have hperm := (Sorter.favour b).perm (fun a b => decide (Before a b)) s.pending
  have hsorted : (pre ++ b :: post).Pairwise Entry.le :=
    hsort ▸ ((Sorter.favour b).sorted _ ranks_before s.pending).imp le_of_not_before
  rw [hsort] at hperm
  have hpost : a ∈ post := by
    rcases List.mem_append.mp (hperm.mem_iff.mpr ha) with hin | hin
    · exact absurd (of_decide_eq_true (hpre a hin)) hnot
    · rcases List.mem_cons.mp hin with rfl | hin
      · exact absurd rfl hshard
      · exact hin
  have hlarge : (s.pending.length : Int) < s.pending.length + 1 := by omega
  have hout : s.IsPendingIDs (s.pending.length + 1) ((pre ++ b :: post).map idOf) := by
    rw [IsPendingIDs, if_neg hmany]
    refine ⟨pre ++ b :: post, by rw [entries_of_large hlarge]; exact hperm, hsorted, ?_⟩
    rw [List.take_of_length_le]
    · rfl
    · rw [hperm.length_eq, pendingLimit, if_neg (by omega)]
      omega
  have horder := (hexact _ _ (by omega) hout).inOrder
  rw [List.pairwise_map, List.pairwise_append, List.pairwise_cons] at horder
  have := horder.2.1.1 a hpost hsame.symm
  omega

/-- **Pending order.** With several shards, creation times that do not fall with the ids and room
    for the shard number in the ids, the ids that are handed out are right for every limit exactly
    when rows of one event that lie in different shards are aligned. -/
theorem pendingExact_iff_aligned (C : Codec) (s : Sharded) (hmany : 2 ≤ s.shards.length)
    (hsmall : s.SmallIds) (hold : s.OldestFirst) (ins : s.Inserted) :
    (∀ limit out, 1 ≤ limit → s.IsPendingIDs limit out → PendingExact C s ins limit out) ↔
      Aligned C s ins := by
  have hnot : s.shards.length ≠ 1 := by omega
  exact ⟨aligned_of_exact hnot ins,
    fun haligned _ _ hlimit hout => exact_of_aligned hnot hsmall hold ins haligned hlimit hout⟩

end Sharded

/-! ### A base file from before sharding -/

/-- Another event. -/
def fillerEvent : ThreatEvent := { smallEvent with eventID := "g" }

/-- Reads the texts of the three events. -/
def threeCodec : Codec := Plain.codec fun b =>
  [smallEvent, revision 2, fillerEvent].find? fun ev => marshal Plain.json ev.toValue == some b

/-- The event id that an id loads. -/
def Sharded.loadedID (s : Sharded) (id : Int) : Option String :=
  (s.loadEvent threeCodec id).toOption.map (·.eventID)

theorem sameEvent_of_loadedID {s : Sharded} {x y : Int} {eventID : String}
    (hx : s.loadedID x = some eventID) (hy : s.loadedID y = some eventID) :
      s.SameEvent threeCodec x y := by
  obtain ⟨ev, hev, hid⟩ := Option.map_eq_some_iff.mp hx
  obtain ⟨ev', hev', hid'⟩ := Option.map_eq_some_iff.mp hy
  exact ⟨ev, ev', except_toOption_some.mp hev, except_toOption_some.mp hev', hid.trans hid'.symm⟩

theorem oldestFirst_of_entries {s : Sharded} (h : ∀ db ∈ s.shards, ∀ e ∈ db.events.rows.entries,
      ∀ e' ∈ db.events.rows.entries, e.1 ≤ e'.1 → e.2.created.getD 0 ≤ e'.2.created.getD 0) :
    s.OldestFirst := fun db hdb i j r r' hi hj =>
  h db hdb ⟨i, r⟩ (Table.lookup_eq_some_iff.mp hi) ⟨j, r'⟩ (Table.lookup_eq_some_iff.mp hj)

/-- The base file holds the first revision of an event as its first row. Opened as shard 0 of two, the
    queue puts the next revision into shard 1, and hands the two out in order. -/
theorem pendingExact_iff_aligned_twoShards :
    ∃ base s₀ s, ∃ ins : s.Inserted,
      enqueue threeCodec .v2 1 smallEvent newDb = .ok ((), base) ∧
      openShards (fun i => if i = 0 then base else newDb) 2 = .ok s₀ ∧
      s₀.enqueue threeCodec .v2 2 (revision 2) = .ok s ∧ s.pendingIDs 100 = [64, 65] ∧
      s.SameEvent threeCodec 64 65 ∧
      Sharded.PendingExact threeCodec s ins 100 (s.pendingIDs 100) := by
  have hrun : ((enqueue threeCodec .v2 1 smallEvent newDb).toOption.any fun p =>
      (openShards (fun i => if i = 0 then p.2 else newDb) 2).toOption.any fun s₀ =>
        (s₀.enqueue threeCodec .v2 2 (revision 2)).toOption.any fun s =>
          decide (s.pendingIDs 100 = [64, 65]) && decide (s.pending = [⟨1, 1, 0⟩, ⟨1, 2, 1⟩]) &&
          decide (s.loadedID 64 = some "e1") && decide (s.loadedID 65 = some "e1") &&
          decide (s.shards.length = 2) && decide (∀ db ∈ s.shards, ∀ e ∈ db.events.rows.entries,
            (-2 ^ 57 ≤ e.1 ∧ e.1 < 2 ^ 57) ∧ ∀ e' ∈ db.events.rows.entries,
              e.1 ≤ e'.1 → e.2.created.getD 0 ≤ e'.2.created.getD 0)) = true := by
    decide +kernel
  simp only [Option.any_eq_true, except_toOption_some, Bool.and_eq_true, decide_eq_true_eq] at hrun
  obtain ⟨⟨⟨⟩, base⟩, h₁, s₀, hopen, s, h₂, ⟨⟨⟨⟨hids, hpending⟩, h64⟩, h65⟩, hlen⟩, hrows⟩ := hrun
  let ins : s.Inserted := ⟨Int.toNat, by rw [hpending]; decide⟩
  refine ⟨base, s₀, s, ins, h₁, hopen, h₂, hids, sameEvent_of_loadedID h64 h65, ?_⟩
  refine (Sharded.pendingExact_iff_aligned _ s (by omega)
    (smallIds_of_entries fun db hdb e he => (hrows db hdb e he).1)
    (oldestFirst_of_entries fun db hdb e he => (hrows db hdb e he).2) ins).mpr ?_ 100 _ (by decide)
    (pendingIDs_spec s 100)
  intro a ha b hb hshard _ hearlier
  rw [hpending, List.mem_pair] at ha hb
  rcases ha with rfl | rfl <;> rcases hb with rfl | rfl
  · exact absurd rfl hshard
  · exact .inl (by decide)
  · exact absurd (show 65 < 64 from hearlier) (by decide)
  · exact absurd rfl hshard

/-- The base file holds the first revision of an event as its second row. Opened as shard 0 of two,
    the queue puts the next revision into shard 1 as its first row, and hands it out first. -/
theorem legacy_revision_overtaken :
    ∃ base₁ base s₀ s, ∃ ins : s.Inserted,
      enqueue threeCodec .v2 1 fillerEvent newDb = .ok ((), base₁) ∧
      enqueue threeCodec .v2 1 smallEvent base₁ = .ok ((), base) ∧
      openShards (fun i => if i = 0 then base else newDb) 2 = .ok s₀ ∧
      s₀.enqueue threeCodec .v2 1 (revision 2) = .ok s ∧ s.SmallIds ∧ s.OldestFirst ∧
      s.pendingIDs 100 = [64, 65, 128] ∧
      ¬ Sharded.PendingExact threeCodec s ins 100 (s.pendingIDs 100) := by
  have hrun : ((enqueue threeCodec .v2 1 fillerEvent newDb).toOption.any fun p =>
      (enqueue threeCodec .v2 1 smallEvent p.2).toOption.any fun q =>
        (openShards (fun i => if i = 0 then q.2 else newDb) 2).toOption.any fun s₀ =>
          (s₀.enqueue threeCodec .v2 1 (revision 2)).toOption.any fun s =>
            decide (s.pendingIDs 100 = [64, 65, 128]) &&
            decide (s.pending = [⟨1, 1, 0⟩, ⟨2, 1, 0⟩, ⟨1, 1, 1⟩]) &&
            decide (s.loadedID 65 = some "e1") && decide (s.loadedID 128 = some "e1") &&
            decide (∀ db ∈ s.shards, ∀ e ∈ db.events.rows.entries,
              (-2 ^ 57 ≤ e.1 ∧ e.1 < 2 ^ 57) ∧ ∀ e' ∈ db.events.rows.entries,
                e.1 ≤ e'.1 → e.2.created.getD 0 ≤ e'.2.created.getD 0)) = true := by
    decide +kernel
  simp only [Option.any_eq_true, except_toOption_some, Bool.and_eq_true, decide_eq_true_eq] at hrun
  obtain ⟨⟨⟨⟩, base₁⟩, h₁, ⟨⟨⟩, base⟩, h₂, s₀, hopen, s, h₃, ⟨⟨⟨hids, hpending⟩, h65⟩, h128⟩, hrows⟩ :=
    hrun
  let ins : s.Inserted :=
    ⟨fun id => if id = 64 then 0 else if id = 128 then 1 else 2, by rw [hpending]; decide⟩
  refine ⟨base₁, base, s₀, s, ins, h₁, h₂, hopen, h₃,
    smallIds_of_entries fun db hdb e he => (hrows db hdb e he).1,
    oldestFirst_of_entries fun db hdb e he => (hrows db hdb e he).2, hids, fun hexact => ?_⟩
  have horder := hexact.inOrder
  rw [hids] at horder
  have hle : 2 ≤ 1 :=
    (List.pairwise_cons.mp (List.pairwise_cons.mp horder).2).1 128 List.mem_cons_self
      (sameEvent_of_loadedID h65 h128)
  exact absurd hle (by decide)

end TaNode.Queue

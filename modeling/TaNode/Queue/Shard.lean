import Mathlib.Algebra.Order.BigOperators.Group.List
import Mathlib.Algebra.Order.Ring.Nat
import TaNode.Queue.Integrity

/-! `ShardedQueue`: one queue over up to 64 database files.

    Records are written to the shard their event id hashes to. Pending records are read by a
    composite id, the row id with the shard index in its low six bits, and acknowledged by event id,
    that is, by hash again:

        PendingIDs ──(row id, shard)──▶ LoadEvent ──event──▶ MarkPushed ──hash(event id)──▶ shard

    The two routings agree for a row exactly when it lies in the shard its event hashes to
    (`drains_iff_routed`). A base file from the single-file layout is opened as shard 0 with all its
    rows, wherever they hash to. -/

namespace TaNode.Queue

variable {limit rid : Int} {db : Db} {s t : Sharded} {i : Nat} {row : Row} {key : String}

def maxShards : Nat := 64

/-- FNV-1a with 32 bits. -/
def fnv32a (b : Bytes) : UInt32 := b.foldl (fun h c => (h ^^^ c.toUInt32) * 16777619) 2166136261

/-- An open sharded queue. -/
structure Sharded where
  shards : List Db
  pos : 0 < shards.length
  le : shards.length ≤ maxShards
  maxRetry : Int := 0

/-- `Open`: shard `i` is the database found in file `i`, shard 0 the base path itself. -/
def openShards (files : Nat → Db) (n : Int) : Except Err Sharded :=
  let n := if n < 1 then 1 else n.toNat
  if h : 0 < n ∧ n ≤ maxShards then
    .ok { shards := (List.range n).map files, pos := by simpa using h.1, le := by simpa using h.2 }
  else .error .noShard

namespace Sharded

/-- The shard of an event. -/
def shardIndex (s : Sharded) (eventID : String) : Nat :=
  if s.shards.length = 1 then 0
  else (fnv32a (utf8 eventID)).toNat % s.shards.length

/-- Rewrites one shard. -/
def modify (s : Sharded) (i : Nat) (f : Db → Db) : Sharded where
  shards := s.shards.modify i f
  pos := by rw [List.length_modify]; exact s.pos
  le := by rw [List.length_modify]; exact s.le
  maxRetry := s.maxRetry

def setMaxRetry (s : Sharded) (n : Int) : Sharded := { s with maxRetry := n }

def markPushed (s : Sharded) (eventID : String) (contextRevision : Nat) (now : Int) : Sharded :=
  s.modify (s.shardIndex eventID) (Queue.markPushed eventID contextRevision now)

def markFailed (s : Sharded) (eventID : String) (contextRevision : Nat) (errMsg : String)
    (now : Int) : Sharded :=
  s.modify (s.shardIndex eventID) (Queue.markFailed eventID contextRevision errMsg now)

/-- `Enqueue`. -/
def enqueue (C : Codec) (s : Sharded) (backend : Backend) (now : Int) (ev : ThreatEvent) :
    Except Err Sharded :=
  match s.shards[s.shardIndex ev.eventID]? with
  | none => .error .noShard
  | some db => do
    let (_, db') ← Queue.enqueue C backend now ev db
    return s.modify (s.shardIndex ev.eventID) fun _ => db'

end Sharded

/-! ### Pending records -/

/-- `status IN (0,3) AND (?<=0 OR retry_count<?)` -/
def isPending (maxRetry : Int) (r : Row) : Bool :=
  (r.status == 0 || r.status == 3) && (maxRetry ≤ 0 || r.retry < maxRetry)

def pendingLimit (limit : Int) : Nat := if limit ≤ 0 then 100 else limit.toNat

/-- Row id and creation time of the first pending rows. -/
def pendingEntries (maxRetry limit : Int) (db : Db) : List (Int × Int) :=
  ((db.events.select (isPending maxRetry)).take (pendingLimit limit)).map
    fun e => (e.1, e.2.created.getD 0)

structure Entry where
  id : Int
  created : Int
  shard : Nat
  deriving DecidableEq

/-- The order of the merge: by creation time, then by row id. -/
def Entry.le (a b : Entry) : Prop := a.created < b.created ∨ (a.created = b.created ∧ a.id ≤ b.id)

instance : DecidableRel Entry.le := fun a b => by unfold Entry.le; infer_instance

/-- `id<<6 | shard` in 64 bits. -/
def compose (id : Int) (shard : Nat) : Int := (id * 64 + shard).bmod (2 ^ 64)

namespace Sharded

def entries (s : Sharded) (limit : Int) : List Entry :=
  s.shards.zipIdx.flatMap fun p =>
    (pendingEntries s.maxRetry limit p.1).map fun e => ⟨e.1, e.2, p.2⟩

/-- What `PendingIDs` may return; the sort may order entries of the same time and row id in any
    way. -/
def IsPendingIDs (s : Sharded) (limit : Int) (out : List Int) : Prop :=
  if s.shards.length = 1 then
    out = s.shards.flatMap fun db => (pendingEntries s.maxRetry limit db).map Prod.fst
  else ∃ all : List Entry, all.Perm (s.entries limit) ∧ all.Pairwise Entry.le ∧
    out = (all.take (pendingLimit limit)).map fun e => compose e.id e.shard

/-- `PendingIDs` with one particular sort. -/
def pendingIDs (s : Sharded) (limit : Int) : List Int :=
  if s.shards.length = 1 then
    s.shards.flatMap fun db => (pendingEntries s.maxRetry limit db).map Prod.fst
  else (((s.entries limit).insertionSort Entry.le).take (pendingLimit limit)).map
    fun e => compose e.id e.shard

/-- The shard and row id behind an id. -/
def place (s : Sharded) (id : Int) : Nat × Int :=
  if s.shards.length = 1 then (0, id) else ((id % 64).toNat, id / 64)

def loadEvent (C : Codec) (s : Sharded) (id : Int) : Except Err ThreatEvent :=
  match s.shards[(s.place id).1]? with
  | none => .error .noShard
  | some db => Queue.loadEvent C (s.place id).2 db

/-- The row behind an id. -/
def rowAt (s : Sharded) (id : Int) : Option Row :=
  s.shards[(s.place id).1]?.bind fun db => db.events.rows.lookup (s.place id).2

/-- With more than one shard, row ids leave room for the shard index. -/
def SmallIds (s : Sharded) : Prop :=
  s.shards.length = 1 ∨ ∀ db ∈ s.shards, ∀ id row, db.events.rows.lookup id = some row →
    -2 ^ 57 ≤ id ∧ id < 2 ^ 57

end Sharded

instance : Std.Total Entry.le := ⟨fun a b => by unfold Entry.le; omega⟩

instance : IsTrans Entry Entry.le := ⟨fun a b c hab hbc => by unfold Entry.le at *; omega⟩

theorem pendingIDs_spec (s : Sharded) (limit : Int) : s.IsPendingIDs limit (s.pendingIDs limit) := by
  unfold Sharded.IsPendingIDs Sharded.pendingIDs
  split_ifs
  · rfl
  · exact ⟨_, List.perm_insertionSort _ _, List.pairwise_insertionSort _ _, rfl⟩

theorem mem_select {q : EventQueue} {p : Row → Bool} {e : (_ : Int) × Row} :
    e ∈ q.select p ↔ q.rows.lookup e.1 = some e.2 ∧ p e.2 = true := by
  unfold EventQueue.select
  rw [(List.perm_insertionSort _ _).mem_iff, List.mem_filter, Table.lookup_eq_some_iff]

theorem select_ids (q : EventQueue) (p : Row → Bool) : ((q.select p).map (·.1)).Nodup := by
  have hkeys : ((q.rows.entries.filter fun e => p e.2).map (·.1)).Nodup :=
    (List.filter_sublist.map _).nodup q.rows.nodupKeys
  exact ((List.perm_insertionSort _ _).map _).nodup_iff.mpr hkeys

theorem mem_pendingEntries {maxRetry : Int} {e : Int × Int}
    (h : e ∈ pendingEntries maxRetry limit db) :
    ∃ row, db.events.rows.lookup e.1 = some row ∧ isPending maxRetry row = true := by
  unfold pendingEntries at h
  obtain ⟨d, hd, rfl⟩ := List.mem_map.mp h
  exact ⟨d.2, mem_select.mp (List.mem_of_mem_take hd)⟩

variable {id : Int}

/-- A composite id of a small row id comes apart again. -/
theorem compose_parts {shard : Nat} (hshard : shard < 64) (hlo : -2 ^ 57 ≤ id) (hhi : id < 2 ^ 57) :
    (compose id shard % 64).toNat = shard ∧ compose id shard / 64 = id := by
  have hval : compose id shard = id * 64 + shard := by
    unfold compose
    exact Int.bmod_eq_of_le (by omega) (by omega)
  rw [hval]
  omega

/-- The id stands for the row `rid` of shard `i`. -/
structure Sharded.Located (s : Sharded) (id : Int) (i : Nat) (rid : Int) (row : Row) : Prop where
  place : s.place id = (i, rid)
  id_eq : id = if s.shards.length = 1 then rid else compose rid i
  lookup : ∃ db, s.shards[i]? = some db ∧ db.events.rows.lookup rid = some row

theorem Sharded.Located.rowAt (h : s.Located id i rid row) : s.rowAt id = some row := by
  obtain ⟨db, hget, hrow⟩ := h.lookup
  unfold Sharded.rowAt
  rw [h.place, hget]
  exact hrow

/-- Every id that is handed out stands for a pending row. -/
theorem located_of_mem (hsmall : s.SmallIds) {out : List Int} (hout : s.IsPendingIDs limit out)
    (hid : id ∈ out) : ∃ i rid row, s.Located id i rid row ∧ isPending s.maxRetry row = true := by
  unfold Sharded.IsPendingIDs at hout
  split_ifs at hout with hone
  · subst hout
    obtain ⟨db, hdb, hid⟩ := List.mem_flatMap.mp hid
    obtain ⟨e, he, rfl⟩ := List.mem_map.mp hid
    obtain ⟨db', hdb'⟩ := List.length_eq_one_iff.mp hone
    rw [hdb', List.mem_singleton] at hdb
    subst hdb
    obtain ⟨row, hrow, hp⟩ := mem_pendingEntries he
    exact ⟨0, e.1, row, ⟨if_pos hone, (if_pos hone).symm, db, by rw [hdb']; rfl, hrow⟩, hp⟩
  · obtain ⟨all, hperm, -, rfl⟩ := hout
    obtain ⟨e, he, rfl⟩ := List.mem_map.mp hid
    have he := hperm.mem_iff.mp (List.mem_of_mem_take he)
    obtain ⟨⟨db, i⟩, hdb, he⟩ := List.mem_flatMap.mp he
    obtain ⟨d, hd, rfl⟩ := List.mem_map.mp he
    obtain ⟨row, hrow, hp⟩ := mem_pendingEntries hd
    have hget : s.shards[i]? = some db := List.mem_zipIdx_iff_getElem?.mp hdb
    have hi : i < s.shards.length := (List.getElem?_eq_some_iff.mp hget).1
    obtain ⟨hlo, hhi⟩ := (hsmall.resolve_left hone) db (List.mem_of_getElem? hget) _ _ hrow
    obtain ⟨h1, h2⟩ := compose_parts (lt_of_lt_of_le hi s.le) hlo hhi
    refine ⟨i, d.1, row, ⟨?_, (if_neg hone).symm, db, hget, hrow⟩, hp⟩
    unfold Sharded.place
    rw [if_neg hone, h1, h2]

/-- The rows of all shards together. -/
def Sharded.size (s : Sharded) : Nat := (s.shards.map fun db => db.events.rows.entries.length).sum

theorem length_select_le (q : EventQueue) (p : Row → Bool) :
    (q.select p).length ≤ q.rows.entries.length := by
  unfold EventQueue.select
  rw [List.length_insertionSort]
  exact List.length_filter_le _ _

/-- A limit above the number of rows leaves nothing out. -/
theorem mem_pendingEntries_of_limit {maxRetry : Int} {limit : Nat}
    (hlimit : db.events.rows.entries.length < limit) (hrow : db.events.rows.lookup id = some row)
    (hp : isPending maxRetry row = true) :
    (id, row.created.getD 0) ∈ pendingEntries maxRetry limit db := by
  have hlen : (db.events.select (isPending maxRetry)).length ≤ pendingLimit limit := by
    have := length_select_le db.events (isPending maxRetry)
    unfold pendingLimit
    rw [if_neg (by omega)]
    omega
  unfold pendingEntries
  rw [List.take_of_length_le hlen]
  exact List.mem_map.mpr ⟨⟨id, row⟩, mem_select.mpr ⟨hrow, hp⟩, rfl⟩

theorem length_entries_le (s : Sharded) (limit : Int) : (s.entries limit).length ≤ s.size := by
  unfold Sharded.entries Sharded.size
  rw [List.length_flatMap]
  calc (s.shards.zipIdx.map fun p => ((pendingEntries s.maxRetry limit p.1).map fun e =>
          (⟨e.1, e.2, p.2⟩ : Entry)).length).sum
      ≤ (s.shards.zipIdx.map fun p => p.1.events.rows.entries.length).sum := by
        refine List.sum_le_sum fun p _ => ?_
        rw [List.length_map]
        unfold pendingEntries
        rw [List.length_map]
        exact (List.length_take_le' _ _).trans (length_select_le _ _)
    _ = (s.shards.map fun db => db.events.rows.entries.length).sum := by
        rw [show (fun p : Db × Nat => p.1.events.rows.entries.length) =
          (fun db : Db => db.events.rows.entries.length) ∘ Prod.fst from rfl, ← List.map_map,
          List.zipIdx_map_fst]

/-- A pending row is handed out when the limit is large enough. -/
theorem Sharded.Located.mem (h : s.Located id i rid row) (hp : isPending s.maxRetry row = true) :
    id ∈ s.pendingIDs (s.size + 1 : Nat) := by
  obtain ⟨db, hget, hrow⟩ := h.lookup
  have hdb : db ∈ s.shards := List.mem_of_getElem? hget
  have hsize : db.events.rows.entries.length ≤ s.size :=
    List.le_sum_of_mem (List.mem_map.mpr ⟨db, hdb, rfl⟩)
  have hmem := mem_pendingEntries_of_limit (Nat.lt_succ_of_le hsize) hrow hp
  unfold Sharded.pendingIDs
  rw [h.id_eq]
  split_ifs with hone
  · exact List.mem_flatMap.mpr ⟨db, hdb, List.mem_map.mpr ⟨_, hmem, rfl⟩⟩
  · have hlen : ((s.entries (s.size + 1 : Nat)).insertionSort Entry.le).length ≤
        pendingLimit (s.size + 1 : Nat) := by
      rw [List.length_insertionSort]
      refine (length_entries_le s _).trans ?_
      unfold pendingLimit
      rw [if_neg (by omega)]
      omega
    rw [List.take_of_length_le hlen]
    refine List.mem_map.mpr ⟨⟨rid, row.created.getD 0, i⟩, ?_, rfl⟩
    rw [(List.perm_insertionSort _ _).mem_iff]
    exact List.mem_flatMap.mpr ⟨(db, i), List.mem_zipIdx_iff_getElem?.mpr hget,
      List.mem_map.mpr ⟨_, hmem, rfl⟩⟩

/-! ### What happens later -/

/-- The operation neither requeues nor fails the record `key`. -/
def Op.Spares (key : String) : Op → Prop
  | .requeueIn eventID _ => matchesEvent eventID key = false
  | .markFailed eventID rev _ _ => queueRecordID eventID rev ≠ key
  | _ => True

/-- Any operation on any shard that spares the record `key`; the routed operations are those on the
    shard of their event. -/
inductive LaterStep (C : Codec) (key : String) : Sharded → Sharded → Prop
  | op {s : Sharded} {db db' : Db} (i : Nat) (op : Op) (hget : s.shards[i]? = some db)
      (hspares : op.Spares key) (hop : op.run C db = .ok db') :
      LaterStep C key s (s.modify i fun _ => db')
  | setMaxRetry {s : Sharded} (n : Int) : LaterStep C key s (s.setMaxRetry n)

/-- The row `rid` is pushed or gone, and its id is not handed out again. -/
structure Settled (db : Db) (rid : Int) (key : String) : Prop where
  le_seq : rid ≤ db.events.seq
  pushed : ∀ row, db.events.rows.lookup rid = some row → row.key = key ∧ row.status = 2

variable {C : Codec}

/-- An update that leaves pushed rows with this key alone, or pushes them. -/
theorem settled_update (h : Settled db rid key) {p : Row → Bool} {set : Row → Row}
    (hset : ∀ r, (set r).key = r.key) (hp : ∀ r, r.key = key → p r = true → (set r).status = 2) :
    Settled { db with events := db.events.update p set hset } rid key := by
  refine ⟨h.le_seq, fun row hrow => ?_⟩
  obtain ⟨r, hr, rfl⟩ := (lookup_eventQueue_update hset).mp hrow
  obtain ⟨hk, hst⟩ := h.pushed r hr
  split_ifs with hpr
  · exact ⟨(hset r).trans hk, hp r hk hpr⟩
  · exact ⟨hk, hst⟩

theorem settled_insert (h : Settled db rid key) {q : EventQueue}
    (hq : db.events.insertNew row = .ok q) {db' : Db} (hdb' : db'.events = q) :
    Settled db' rid key := by
  obtain ⟨-, hrows, hseq⟩ := insertNew_ok hq
  have hle := h.le_seq
  refine ⟨by rw [hdb', hseq]; omega, fun r hr => ?_⟩
  rw [hdb', hrows, Table.lookup_insert_iff] at hr
  rcases hr with ⟨hid, -⟩ | ⟨-, hr⟩
  · omega
  · exact h.pushed r hr

/-- One step: an operation that spares a record leaves it settled. -/
theorem settled_run {db' : Db} (h : Settled db rid key) {op : Op} (hspares : op.Spares key)
    (hop : op.run C db = .ok db') : Settled db' rid key := by
  cases op with
  | enqueue backend now ev =>
    obtain ⟨u, hop⟩ := except_map_snd_ok hop
    rcases enqueue_ok hop with ⟨rfl, -⟩ | ⟨-, -, payload, db₁, root, q, b, hpay, -, hq, -, rfl⟩
    · exact h
    · rw [newPayload_content hpay] at hq
      exact settled_insert h hq rfl
  | markPushed eventID rev now =>
    cases hop
    exact settled_update h _ fun _ _ _ => rfl
  | markFailed eventID rev msg now =>
    cases hop
    exact settled_update h _ fun r hr hp => by
      rw [hr, beq_iff_eq] at hp
      exact absurd hp.symm hspares
  | requeueIn eventID now =>
    cases hop
    exact settled_update h _ fun r hr hp => by
      rw [hr, show matchesEvent eventID key = false from hspares] at hp
      simp at hp
  | deleteEventFrom eventID =>
    cases hop
    exact ⟨h.le_seq, fun row hrow => h.pushed row (Table.lookup_deleteWhere.mp hrow).1⟩
  | collect scan limit =>
    cases hop
    obtain ⟨content, hc⟩ := collect_content scan limit db
    rw [hc]
    exact ⟨h.le_seq, h.pushed⟩
  | publish path first rest pushed =>
    obtain ⟨u, hop⟩ := except_map_snd_ok hop
    obtain ⟨-, -, range, hm⟩ := publish_ok hop
    exact ⟨hm.seq ▸ h.le_seq, fun row hrow => h.pushed row ((hm.rows _ _).mp hrow).1⟩
  | bookkeeping pending metadata seq =>
    cases hop
    exact ⟨h.le_seq.trans (le_max_left _ _), h.pushed⟩

/-- Shard `i` has settled its row `rid`. -/
def Sharded.SettledAt (s : Sharded) (i : Nat) (rid : Int) (key : String) : Prop :=
  ∃ db, s.shards[i]? = some db ∧ Settled db rid key

theorem settledAt_step (h : s.SettledAt i rid key) (hstep : LaterStep C key s t) :
    t.SettledAt i rid key ∧ t.shards.length = s.shards.length := by
  obtain ⟨db, hdb, hset⟩ := h
  cases hstep with
  | @op dj dj' j op hget hspares hop =>
    refine ⟨?_, List.length_modify _ _ _⟩
    show ∃ db, (s.shards.modify j fun _ => dj')[i]? = some db ∧ _
    rw [List.getElem?_modify, hdb]
    by_cases hij : j = i
    · subst hij
      rw [hdb, Option.some.injEq] at hget
      subst hget
      exact ⟨dj', by simp, settled_run hset hspares hop⟩
    · exact ⟨db, by simp [hij], hset⟩
  | setMaxRetry n => exact ⟨⟨db, hdb, hset⟩, rfl⟩

/-- A whole run: a settled row stays settled. -/
theorem settledAt_run (h : s.SettledAt i rid key) (hrun : Reachable (· = s) (LaterStep C key) t) :
    t.SettledAt i rid key ∧ t.shards.length = s.shards.length := by
  induction hrun with
  | start hs => subst hs; exact ⟨h, rfl⟩
  | next _ hstep ih =>
    obtain ⟨h', hlen⟩ := settledAt_step ih.1 hstep
    exact ⟨h', hlen.trans ih.2⟩

theorem place_congr (h : t.shards.length = s.shards.length) (id : Int) :
    t.place id = s.place id := by
  unfold Sharded.place
  rw [h]

theorem not_pending_of_settled (hsmall : s.SmallIds) (hplace : s.place id = (i, rid))
    (h : s.SettledAt i rid key) {out : List Int} (hout : s.IsPendingIDs limit out) : id ∉ out := by
  intro hid
  obtain ⟨j, rid', row, hloc, hpend⟩ := located_of_mem hsmall hout hid
  obtain ⟨db, hdb, hset⟩ := h
  obtain ⟨db', hget, hrow⟩ := hloc.lookup
  have hp := hloc.place
  rw [hplace, Prod.mk.injEq] at hp
  obtain ⟨rfl, rfl⟩ := hp
  rw [hdb, Option.some.injEq] at hget
  subst hget
  have hst := (hset.pushed row hrow).2
  unfold isPending at hpend
  simp [hst] at hpend

/-! ### Acknowledging -/

/-- The acknowledgement of `ev` finds the row behind `id`. -/
structure Sharded.Routed (s : Sharded) (id : Int) (ev : ThreatEvent) : Prop where
  shard : s.shardIndex ev.eventID = (s.place id).1
  key : ∀ row, s.rowAt id = some row → row.key = queueRecordID ev.eventID ev.contextRevision

/-- After `MarkPushed` no later `PendingIDs` lists the id, whatever happens in between short of a
    requeue or a failure of the same record. -/
def Sharded.PushSettles (C : Codec) (s : Sharded) (id : Int) (ev : ThreatEvent) : Prop :=
  ∀ now t, Reachable (· = s.markPushed ev.eventID ev.contextRevision now)
      (LaterStep C (queueRecordID ev.eventID ev.contextRevision)) t → t.SmallIds →
    ∀ limit out, t.IsPendingIDs limit out → id ∉ out

/-- `MarkFailed` again and again, with these messages and times. -/
def Sharded.failAll (s : Sharded) (ev : ThreatEvent) (calls : List (String × Int)) : Sharded :=
  calls.foldl (fun s c => s.markFailed ev.eventID ev.contextRevision c.1 c.2) s

/-- `MarkFailed` counts, and with a cap the id is left out after enough failures. -/
structure Sharded.FailCounts (s : Sharded) (id : Int) (ev : ThreatEvent) : Prop where
  retry : ∀ msg now row, s.rowAt id = some row → ∃ row',
    (s.markFailed ev.eventID ev.contextRevision msg now).rowAt id = some row' ∧
      row'.retry = row.retry + 1
  capped : 0 < s.maxRetry → ∃ k, ∀ calls : List (String × Int), k ≤ calls.length →
    ∀ limit out, (s.failAll ev calls).IsPendingIDs limit out → id ∉ out

/-- What LoadEvent returns for the id can be acknowledged. -/
def Sharded.Drains (C : Codec) (s : Sharded) (id : Int) : Prop :=
  ∀ ev, s.loadEvent C id = .ok ev → s.PushSettles C id ev ∧ s.FailCounts id ev

/-- The row behind an id after the update of one key in one shard. -/
theorem Sharded.Located.modify {j : Nat} (h : s.Located id i rid row) {set : Row → Row}
    {hset : ∀ r, (set r).key = r.key} :
    (s.modify j fun db => db.updateKey key set hset).Located id i rid
      (if j = i ∧ row.key = key then set row else row) := by
  obtain ⟨db, hget, hrow⟩ := h.lookup
  have hlen : (s.modify j fun db => db.updateKey key set hset).shards.length = s.shards.length :=
    List.length_modify _ _ _
  refine ⟨(place_congr hlen id).trans h.place, by rw [hlen]; exact h.id_eq, ?_⟩
  show ∃ db', (s.shards.modify j _)[i]? = some db' ∧ _
  rw [List.getElem?_modify, hget]
  by_cases hij : j = i
  · refine ⟨db.updateKey key set hset, by simp [hij], ?_⟩
    refine (lookup_eventQueue_update hset).mpr ⟨row, hrow, ?_⟩
    simp [hij]
  · exact ⟨db, by simp [hij], by simpa [hij] using hrow⟩

theorem smallIds_modify (h : s.SmallIds) (j : Nat) (key : String) (set : Row → Row)
    (hset : ∀ r, (set r).key = r.key) :
    (s.modify j fun db => db.updateKey key set hset).SmallIds := by
  rcases h with h | h
  · exact Or.inl ((List.length_modify _ _ _).trans h)
  · refine Or.inr fun db hdb id row hrow => ?_
    obtain ⟨i, hi⟩ := List.mem_iff_getElem?.mp hdb
    rw [show (s.modify j fun db => db.updateKey key set hset).shards = s.shards.modify j _ from rfl,
      List.getElem?_modify, Option.map_eq_map, Option.map_eq_some_iff] at hi
    obtain ⟨db₀, hdb₀, rfl⟩ := hi
    have hmem := List.mem_of_getElem? hdb₀
    split_ifs at hrow
    · obtain ⟨r, hr, -⟩ := (lookup_eventQueue_update hset).mp hrow
      exact h db₀ hmem id r hr
    · exact h db₀ hmem id row hrow

theorem routed_iff (h : s.Located id i rid row) (ev : ThreatEvent) :
    s.Routed id ev ↔ s.shardIndex ev.eventID = i ∧
      row.key = queueRecordID ev.eventID ev.contextRevision := by
  constructor
  · rintro ⟨hshard, hkey⟩
    rw [h.place] at hshard
    exact ⟨hshard, hkey row h.rowAt⟩
  · rintro ⟨hshard, hkey⟩
    refine ⟨by rw [h.place]; exact hshard, fun row' hrow' => ?_⟩
    rw [h.rowAt, Option.some.injEq] at hrow'
    rw [← hrow']
    exact hkey

/-- `MarkPushed` settles the row behind a pending id exactly when it is routed to it. -/
theorem pushSettles_iff (hsmall : s.SmallIds) (h : s.Located id i rid row)
    (hp : isPending s.maxRetry row = true) (ev : ThreatEvent) :
    s.PushSettles C id ev ↔ s.Routed id ev := by
  have hloc : ∀ now, (s.markPushed ev.eventID ev.contextRevision now).Located id i rid _ :=
    fun now => h.modify
  rw [routed_iff h]
  constructor
  · intro hpush
    by_contra hmiss
    have h' := hloc 0
    rw [if_neg hmiss] at h'
    exact hpush 0 _ (.start rfl) (smallIds_modify hsmall _ _ _ _) _ _ (pendingIDs_spec _ _)
      (h'.mem hp)
  · rintro ⟨hshard, hkey⟩ now t hrun ht limit out hout
    have h' := hloc now
    rw [if_pos ⟨hshard, hkey⟩] at h'
    obtain ⟨db', hget, hlookup⟩ := h'.lookup
    have hset : Settled db' rid (queueRecordID ev.eventID ev.contextRevision) := by
      refine ⟨db'.events.le_seq _ _ hlookup, fun row' hrow' => ?_⟩
      rw [hlookup, Option.some.injEq] at hrow'
      rw [← hrow']
      exact ⟨hkey, rfl⟩
    obtain ⟨hsettled, hlen⟩ := settledAt_run ⟨db', hget, hset⟩ hrun
    exact not_pending_of_settled ht ((place_congr hlen id).trans h'.place) hsettled hout

/-- Routed failures raise the retry count by one each. -/
theorem located_failAll {id : Int} {ev : ThreatEvent} :
    ∀ (calls : List (String × Int)) {s : Sharded} {row : Row}, s.SmallIds →
      s.Located id i rid row → s.shardIndex ev.eventID = i →
      row.key = queueRecordID ev.eventID ev.contextRevision →
      (s.failAll ev calls).SmallIds ∧ (s.failAll ev calls).maxRetry = s.maxRetry ∧
        ∃ row', (s.failAll ev calls).Located id i rid row' ∧ row'.retry = row.retry + calls.length
  | [], s, row, hsmall, h, _, _ => ⟨hsmall, rfl, row, h, by simp⟩
  | c :: calls, s, row, hsmall, h, hshard, hkey => by
    have h' : (s.markFailed ev.eventID ev.contextRevision c.1 c.2).Located id i rid _ := h.modify
    rw [if_pos ⟨hshard, hkey⟩] at h'
    have hsmall' : (s.markFailed ev.eventID ev.contextRevision c.1 c.2).SmallIds :=
      smallIds_modify hsmall _ _ _ _
    have hshard' : (s.markFailed ev.eventID ev.contextRevision c.1 c.2).shardIndex ev.eventID = i := by
      rw [← hshard]
      unfold Sharded.shardIndex
      rw [show (s.markFailed ev.eventID ev.contextRevision c.1 c.2).shards.length =
        s.shards.length from List.length_modify _ _ _]
    obtain ⟨hs, hmax, row', hloc, hretry⟩ := located_failAll calls hsmall' h' hshard' hkey
    refine ⟨hs, hmax, row', hloc, hretry.trans ?_⟩
    push_cast [List.length_cons]
    omega

/-- `MarkFailed` counts for the row behind a pending id exactly when it is routed to it. -/
theorem failCounts_iff (hsmall : s.SmallIds) (h : s.Located id i rid row) (ev : ThreatEvent) :
    s.FailCounts id ev ↔ s.Routed id ev := by
  have hloc : ∀ msg now, (s.markFailed ev.eventID ev.contextRevision msg now).Located id i rid _ :=
    fun msg now => h.modify
  rw [routed_iff h]
  constructor
  · rintro ⟨hretry, -⟩
    by_contra hmiss
    obtain ⟨row', hrow', hcount⟩ := hretry "" 0 row h.rowAt
    rw [(hloc "" 0).rowAt, if_neg hmiss, Option.some.injEq] at hrow'
    subst hrow'
    omega
  · rintro ⟨hshard, hkey⟩
    refine ⟨fun msg now row' hrow' => ?_, fun hmax => ⟨(s.maxRetry - row.retry).toNat, ?_⟩⟩
    · rw [h.rowAt, Option.some.injEq] at hrow'
      subst hrow'
      have h' := hloc msg now
      rw [if_pos ⟨hshard, hkey⟩] at h'
      exact ⟨_, h'.rowAt, rfl⟩
    · intro calls hcalls limit out hout hid
      obtain ⟨hsmall', hmax', row', h', hcount⟩ := located_failAll calls hsmall h hshard hkey
      obtain ⟨j, rid', row'', hloc', hp⟩ := located_of_mem hsmall' hout hid
      have hrow := hloc'.rowAt
      rw [h'.rowAt, Option.some.injEq] at hrow
      subst hrow
      unfold isPending at hp
      rw [hmax'] at hp
      simp only [Bool.and_eq_true, Bool.or_eq_true, decide_eq_true_eq] at hp
      omega

/-- **Draining.** An id that was handed out drains exactly when the event it loads is routed back to
    its row. -/
theorem drains_iff_routed {s : Sharded} (hsmall : s.SmallIds) {limit : Int} {out : List Int}
    (hout : s.IsPendingIDs limit out) {id : Int} (hid : id ∈ out) :
    s.Drains C id ↔ ∀ ev, s.loadEvent C id = .ok ev → s.Routed id ev := by
  obtain ⟨i, rid, row, h, hp⟩ := located_of_mem hsmall hout hid
  refine forall₂_congr fun ev _ => ?_
  rw [pushSettles_iff hsmall h hp, failCounts_iff hsmall h, and_self]

theorem smallIds_of_entries
    (h : ∀ db ∈ s.shards, ∀ e ∈ db.events.rows.entries, -2 ^ 57 ≤ e.1 ∧ e.1 < 2 ^ 57) :
    s.SmallIds :=
  Or.inr fun db hdb _ _ hrow => h db hdb _ (Table.lookup_eq_some_iff.mp hrow)

/-- The id is the one pending id, and it loads the first revision of an event. -/
def Sharded.hands (s : Sharded) (id : Int) (eventID : String) : Bool :=
  s.pendingIDs 100 == [id] &&
    match s.loadEvent smallCodec id with
    | .ok ev => ev.eventID == eventID && ev.contextRevision == 0
    | .error _ => false

theorem hands_iff {eventID : String} (h : s.hands id eventID = true) :
    s.pendingIDs 100 = [id] ∧ ∃ ev, s.loadEvent smallCodec id = .ok ev ∧
      ev.eventID = eventID ∧ ev.contextRevision = 0 := by
  unfold Sharded.hands at h
  rw [Bool.and_eq_true, beq_iff_eq] at h
  obtain ⟨hids, h⟩ := h
  split at h
  · next ev hev => exact ⟨hids, ev, hev, by simpa using h⟩
  · simp at h

/-- The small event goes to shard 1 of 2, comes back as the id 65 and drains. -/
theorem drains_iff_routed_smallEvent :
    ∃ s₀ s, openShards (fun _ => newDb) 2 = .ok s₀ ∧
      s₀.enqueue smallCodec .v2 1 smallEvent = .ok s ∧ 65 ∈ s.pendingIDs 100 ∧
      (∃ ev, s.loadEvent smallCodec 65 = .ok ev) ∧
      s.Drains smallCodec 65 := by
  have hrun : ((openShards (fun _ => newDb) 2).toOption.any fun s₀ =>
      (s₀.enqueue smallCodec .v2 1 smallEvent).toOption.any fun s =>
        s.hands 65 "e1" && decide (∀ db ∈ s.shards, ∀ e ∈ db.events.rows.entries,
          -2 ^ 57 ≤ e.1 ∧ e.1 < 2 ^ 57) &&
        decide ((s.rowAt 65).map (·.key) = some "e1") &&
        decide (s.shardIndex "e1" = (s.place 65).1)) = true := by
    decide +kernel
  simp only [Option.any_eq_true, except_toOption_some, Bool.and_eq_true, decide_eq_true_eq] at hrun
  obtain ⟨s₀, hopen, s, henq, ⟨⟨hhands, hsmall⟩, hkey⟩, hshard⟩ := hrun
  obtain ⟨hids, ev, hload, hid, hrev⟩ := hands_iff hhands
  have hmem : 65 ∈ s.pendingIDs 100 := by rw [hids]; simp
  refine ⟨s₀, s, hopen, henq, hmem, ⟨ev, hload⟩, ?_⟩
  refine (drains_iff_routed (smallIds_of_entries hsmall) (pendingIDs_spec s 100) hmem).mpr ?_
  intro ev' hload'
  rw [hload, Except.ok.injEq] at hload'
  subst hload'
  refine ⟨by rw [hid]; exact hshard, fun row hrow => ?_⟩
  rw [hrow, Option.map_some, Option.some.injEq] at hkey
  rw [hkey, hid, hrev]
  rfl

/-- A base file of the single-file layout, opened with two shards. The small event lies in shard 0
    but hashes to shard 1: its id is handed out again after it was acknowledged, and failures are
    never counted. -/
theorem legacy_base_never_drains :
    ∃ base s ev, enqueue smallCodec .v2 1 smallEvent newDb = .ok ((), base) ∧
      openShards (fun i => if i = 0 then base else newDb) 2 = .ok s ∧ s.SmallIds ∧
      64 ∈ s.pendingIDs 100 ∧ s.loadEvent smallCodec 64 = .ok ev ∧
      64 ∈ (s.markPushed ev.eventID ev.contextRevision 2).pendingIDs 100 ∧
      (∃ row, s.rowAt 64 = some row ∧
        (s.markFailed ev.eventID ev.contextRevision "timeout" 2).rowAt 64 = some row) ∧
      ¬s.Drains smallCodec 64 := by
  have hrun : ((enqueue smallCodec .v2 1 smallEvent newDb).toOption.any fun p =>
      (openShards (fun i => if i = 0 then p.2 else newDb) 2).toOption.any fun s =>
        s.hands 64 "e1" && decide (∀ db ∈ s.shards, ∀ e ∈ db.events.rows.entries,
          -2 ^ 57 ≤ e.1 ∧ e.1 < 2 ^ 57) &&
        decide (64 ∈ (s.markPushed "e1" 0 2).pendingIDs 100) &&
        (s.rowAt 64).any fun row =>
          decide ((s.markFailed "e1" 0 "timeout" 2).rowAt 64 = some row)) = true := by
    decide +kernel
  simp only [Option.any_eq_true, except_toOption_some, Bool.and_eq_true, decide_eq_true_eq] at hrun
  obtain ⟨⟨⟨⟩, base⟩, henq, s, hopen, ⟨⟨hhands, hsmall⟩, hagain⟩, row, hrow, hfail⟩ := hrun
  obtain ⟨hids, ev, hload, hid, hrev⟩ := hands_iff hhands
  have hsmall := smallIds_of_entries hsmall
  rw [← hid, ← hrev] at hagain hfail
  refine ⟨base, s, ev, henq, hopen, hsmall, by rw [hids]; simp, hload, hagain, ⟨row, hrow, hfail⟩, ?_⟩
  intro hdrains
  exact (hdrains ev hload).1 2 _ (.start rfl) (smallIds_modify hsmall _ _ _ _) 100 _
    (pendingIDs_spec _ _) hagain

end TaNode.Queue

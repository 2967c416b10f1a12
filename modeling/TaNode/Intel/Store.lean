import TaNode.Event.ThreatEvent
import TaNode.Parser.Feature
import TaNode.Schemes.Catalog

/-! The store of threat indicators (IOCs), in memory and on disk.

    The items are a map from the item's own id. Two indicators are the same when their canonical keys
    are, whatever their ids, and a merge has to bring the two notions together:

        id      chosen by the feed, or "ioc-" and a random UUID
        key     type and value, in the form in which the matcher compares them

    Every write works in the same two steps: it changes the items and the version under the lock,
    and then saves a snapshot of the items to the store's file. Go ranges over a map in any order; a
    `Visit` is the order of one such loop. -/

namespace TaNode.Intel

/-- Lower case: final, and without new white space. -/
structure LowerCase where
  toLower : Bytes → Bytes
  toLower_toLower : ∀ s, toLower (toLower s) = toLower s
  trimSpace_toLower : ∀ s, trimSpace s = s → trimSpace (toLower s) = toLower s

/-- What the store and the matcher use of the packages `strings` and `net`, as documented: an address
    is written without spaces around it, and its text tells it from every other address. -/
structure Lib extends LowerCase where
  Addr : Type
  parseIP : Bytes → Option Addr
  trimSpace_of_parseIP : ∀ s a, parseIP s = some a → trimSpace s = s
  ipString : Addr → Bytes
  ipString_inj : ∀ a b, ipString a = ipString b → a = b
  ipString_ne_nil : ∀ a, ipString a ≠ []
  isLoopback : Addr → Bool
  isUnspecified : Addr → Bool
  Network : Type
  parseCIDR : Bytes → Option Network
  contains : Network → Addr → Bool

structure ThreatIntel where
  id : Bytes := []
  type : Bytes := []
  value : Bytes := []
  category : Bytes := []
  severity : Bytes := []
  source : Bytes := []
  description : Bytes := []
  tags : List Bytes := []
  enabled : Bool := false
  createdAt : Int := 0
  updatedAt : Int := 0
  expireAt : Int := 0
  recommendedAction : Bytes := []
  evidence : Option Evidence := none
  deriving DecidableEq

/-! ### Canonical forms -/

section
variable (lib : Lib)

/-- The text of the address, empty if there is none. -/
def canonicalIP (value : Bytes) : Bytes :=
  match lib.parseIP (trimSpace value) with
  | none => []
  | some ip => lib.ipString ip

def canonicalDomain (value : Bytes) : Bytes := trimDot (lib.toLower (trimSpace value))

def canonicalValue (t v : Bytes) : Bytes :=
  let other := lib.toLower (trimSpace v)
  let kind := lib.toLower (trimSpace t)
  if kind = utf8 "ip" then
    if canonicalIP lib v ≠ [] then canonicalIP lib v else other
  else if kind = utf8 "domain" then canonicalDomain lib v
  else other

def canonicalKey (it : ThreatIntel) : Bytes :=
  lib.toLower (trimSpace it.type) ++ utf8 "|" ++ canonicalValue lib it.type it.value

/-- `normalize`, with the UUID it would draw. -/
def normalize (now : Int) (uuid : Bytes) (it : ThreatIntel) : ThreatIntel :=
  { it with
    type := lib.toLower (trimSpace it.type)
    value := trimSpace it.value
    source := if trimSpace it.source = [] then utf8 "local" else trimSpace it.source
    id := if it.id = [] then utf8 "ioc-" ++ uuid else it.id
    severity := if it.severity = [] then utf8 "medium" else it.severity
    createdAt := if it.createdAt = 0 then now else it.createdAt
    updatedAt := now }

/-- What normalization leaves behind. -/
structure ThreatIntel.Normal (it : ThreatIntel) : Prop where
  id : it.id ≠ []
  type : lib.toLower it.type = it.type ∧ trimSpace it.type = it.type
  value : trimSpace it.value = it.value
  source : trimSpace it.source = it.source ∧ it.source ≠ []

theorem normalize_normal (now : Int) (uuid : Bytes) (it : ThreatIntel) :
    (normalize lib now uuid it).Normal lib where
  id := by
    simp only [normalize]
    split
    · simp [utf8, String.utf8EncodeChar]
    · assumption
  type := ⟨lib.toLower_toLower _, lib.trimSpace_toLower _ (trimSpace_trimSpace _)⟩
  value := trimSpace_trimSpace _
  source := by
    simp only [normalize]
    split
    · decide +kernel
    · exact ⟨trimSpace_trimSpace _, by assumption⟩

/-- A normalized indicator. -/
structure Item where
  intel : ThreatIntel
  normal : intel.Normal lib
  deriving DecidableEq

variable {lib}

/-- The same indicator with another creation time. -/
def Item.createdAt (it : Item lib) (t : Int) : Item lib :=
  ⟨{ it.1 with createdAt := t }, ⟨it.2.id, it.2.type, it.2.value, it.2.source⟩⟩

/-- The key of an item that is stored. -/
def Item.key (it : Item lib) : Bytes := canonicalKey lib it.1

variable (lib)

/-- The item map, from the id each item carries. -/
abbrev Items : Type := Catalog (fun it : Item lib => it.1.id)

def normalItem (now : Int) (uuid : Bytes) (it : ThreatIntel) : Item lib :=
  ⟨normalize lib now uuid it, normalize_normal lib now uuid it⟩

/-- Normalized, but created when the item of the same id was, unless it says otherwise itself. -/
def renew (now : Int) (uuid : Bytes) (it : ThreatIntel) (prev : Option (Item lib)) : Item lib :=
  match prev with
  | some existing =>
    if it.createdAt = 0 then (normalItem lib now uuid it).createdAt existing.1.createdAt
    else normalItem lib now uuid it
  | none => normalItem lib now uuid it

theorem canonicalIP_trimSpace (v : Bytes) : canonicalIP lib (trimSpace v) = canonicalIP lib v := by
  rw [canonicalIP, trimSpace_trimSpace, ← canonicalIP]

theorem canonicalDomain_trimSpace (v : Bytes) :
    canonicalDomain lib (trimSpace v) = canonicalDomain lib v := by
  rw [canonicalDomain, trimSpace_trimSpace, ← canonicalDomain]

/-- Normalization does not touch the identity of an indicator. -/
theorem canonicalKey_normalize (now : Int) (uuid : Bytes) (it : ThreatIntel) :
    canonicalKey lib (normalize lib now uuid it) = canonicalKey lib it := by
  have htype : lib.toLower (trimSpace (lib.toLower (trimSpace it.type))) =
      lib.toLower (trimSpace it.type) := by
    rw [lib.trimSpace_toLower _ (trimSpace_trimSpace _), lib.toLower_toLower]
  simp only [canonicalKey, canonicalValue, normalize, htype, canonicalIP_trimSpace,
    canonicalDomain_trimSpace, trimSpace_trimSpace]

@[simp] theorem key_normalItem (now : Int) (uuid : Bytes) (it : ThreatIntel) :
    (normalItem lib now uuid it).key = canonicalKey lib it :=
  canonicalKey_normalize lib now uuid it

@[simp] theorem key_renew (now : Int) (uuid : Bytes) (it : ThreatIntel) (prev : Option (Item lib)) :
    (renew lib now uuid it prev).key = canonicalKey lib it := by
  cases prev with
  | none => exact canonicalKey_normalize lib now uuid it
  | some existing =>
    rw [renew]
    split
    · exact canonicalKey_normalize lib now uuid it
    · exact canonicalKey_normalize lib now uuid it

@[simp] theorem id_renew (now : Int) (uuid : Bytes) (it : ThreatIntel) (prev : Option (Item lib)) :
    (renew lib now uuid it prev).1.id = (normalItem lib now uuid it).1.id := by
  cases prev with
  | none => rfl
  | some existing =>
    rw [renew]
    split
    · rfl
    · rfl

/-! ### What a write makes of the items -/

/-- The steps of `SaveFileAtomic` that can fail. -/
inductive SaveFault where
  | marshal | mkdirAll | createTemp | write | sync | close | rename
  deriving DecidableEq, Repr

/-- `errors.New` with its text, or the error of a save. -/
inductive WriteError where
  | new (text : String)
  | save (fault : SaveFault)
  deriving DecidableEq, Repr

/-- A list of items, normalized one after the other. -/
def normalizeAll (now : Int) (uuids : Nat → Bytes) (items : List ThreatIntel) : List (Item lib) :=
  items.mapIdx fun i it => normalItem lib now (uuids i) it

/-- The new items, and the item `Add` returns. -/
def add (now : Int) (uuid : Bytes) (it : ThreatIntel) (items : Items lib) : Items lib × ThreatIntel :=
  (items.put (normalItem lib now uuid it), (normalItem lib now uuid it).1)

def delete (id : Bytes) (items : Items lib) : Except WriteError (Items lib) :=
  match items.get? id with
  | none => .error (.new "intel not found")
  | some _ => .ok (items.deleteWhere fun it => it.1.id = id)

def sync (now : Int) (uuids : Nat → Bytes) (new : List ThreatIntel) : Items lib :=
  Catalog.empty.putAll (normalizeAll lib now uuids new)

def upsertMany (now : Int) (uuids : Nat → Bytes) (new : List ThreatIntel) (items : Items lib) :
    Items lib :=
  items.upsertAll (fun (it, i) => (normalItem lib now (uuids i) it).1.id)
    (fun (it, i) prev => renew lib now (uuids i) it prev) new.zipIdx

def syncSource (source : Bytes) (now : Int) (uuids : Nat → Bytes) (new : List ThreatIntel)
    (items : Items lib) : Except WriteError (Items lib) :=
  let source := trimSpace source
  if source = [] then .error (.new "source required")
  else
    let normalized := normalizeAll lib now uuids (new.map fun it => { it with source := source })
    .ok ((items.deleteWhere fun it => it.1.source = source).putAll normalized)

/-- `ExpireAt` lies in the past. -/
def expired (now : Int) (it : ThreatIntel) : Bool := it.expireAt > 0 && it.expireAt < now

/-- The new items if any was deleted, and the number deleted. -/
def pruneExpired (now : Int) (items : Items lib) : Option (Items lib) × Nat :=
  match (items.list.filter fun it => expired now it.1).length with
  | 0 => (none, 0)
  | n + 1 => (some (items.deleteWhere fun it => expired now it.1), n + 1)

/-- Within a batch a later item with the same key replaces the one kept only if it is newer. -/
def keepNewest (kept : Catalog (canonicalKey lib)) (it : ThreatIntel) :
    Catalog (canonicalKey lib) :=
  match kept.get? (canonicalKey lib it) with
  | some ex => if ex.updatedAt ≥ it.updatedAt then kept else kept.put it
  | none => kept.put it

/-- The batch map of `UpsertDedup`, by canonical key. -/
def batch (new : List ThreatIntel) : Catalog (canonicalKey lib) :=
  new.foldl (keepNewest lib) Catalog.empty

/-- The orders of the two map loops of `UpsertDedup`. -/
structure MergeOrder where
  existing : Visit (Item lib) := .listed
  batch : Visit ThreatIntel := .listed

/-- The map `existing`: the id of the last item visited with this key. -/
def existing (order : Visit (Item lib)) (items : Items lib) (key : Bytes) : Option Bytes :=
  ((order.visit items.list).reverse.find? fun it => it.key = key).map (·.1.id)

/-- An item of the batch under the id of the entry it updates. -/
def identified (ids : Bytes → Option Bytes) (it : ThreatIntel) : ThreatIntel :=
  match ids (canonicalKey lib it) with
  | some id => { it with id := id }
  | none => it

/-- Each key is in the batch once, so it names the UUID drawn for its item. -/
def upsertDedup (now : Int) (uuids : Bytes → Bytes) (order : MergeOrder lib)
    (new : List ThreatIntel) (items : Items lib) : Option (Items lib) :=
  if (batch lib new).list = [] then none
  else
    let found := identified lib (existing lib order.existing items)
    some (items.upsertAll
      (fun it => (normalItem lib now (uuids (canonicalKey lib it)) (found it)).1.id)
      (fun it prev => renew lib now (uuids (canonicalKey lib it)) (found it) prev)
      (order.batch.visit (batch lib new).list))

/-! ### The store and its file -/

structure Store where
  items : Items lib
  path : String := ""
  version : Nat := 0

/-- The store and what its file holds, `none` if there is no file. -/
structure World where
  store : Store lib
  file : Option (List ThreatIntel) := none

variable {lib}

/-- `SaveFileAtomic`: whatever step fails, the file is the old one. -/
def saveFileAtomic (fault : Option SaveFault) (items : List ThreatIntel)
    (file : Option (List ThreatIntel)) : Option (List ThreatIntel) × Option WriteError :=
  match fault with
  | some f => (file, some (.save f))
  | none => (some items, none)

/-- The end of every write: the new items under the next version, then the save of a snapshot. -/
def World.commit (order : Visit (Item lib)) (fault : Option SaveFault) (items : Items lib)
    (w : World lib) : World lib × Option WriteError :=
  let store := { w.store with items := items, version := w.store.version + 1 }
  if store.path ≠ "" then
    let (file, err) := saveFileAtomic fault ((order.visit items.list).map (·.1)) w.file
    (⟨store, file⟩, err)
  else (⟨store, w.file⟩, none)

variable (lib)

/-- The writes, with the time they read and the UUIDs they draw. -/
inductive Write where
  | add (now : Int) (uuid : Bytes) (it : ThreatIntel)
  | delete (id : Bytes)
  | sync (now : Int) (uuids : Nat → Bytes) (items : List ThreatIntel)
  | upsertMany (now : Int) (uuids : Nat → Bytes) (items : List ThreatIntel)
  | syncSource (source : Bytes) (now : Int) (uuids : Nat → Bytes) (items : List ThreatIntel)
  | upsertDedup (now : Int) (uuids : Bytes → Bytes) (order : MergeOrder lib)
      (items : List ThreatIntel)
  | pruneExpired (now : Int)

variable {lib}

/-- The part of a write under the lock: the new items, `none` if the write has nothing to do. -/
def Write.critical (items : Items lib) : Write lib → Except WriteError (Option (Items lib))
  | .add now uuid it => .ok (some (Intel.add lib now uuid it items).1)
  | .delete id => (Intel.delete lib id items).map some
  | .sync now uuids new => .ok (some (Intel.sync lib now uuids new))
  | .upsertMany now uuids new => .ok (some (Intel.upsertMany lib now uuids new items))
  | .syncSource source now uuids new => (Intel.syncSource lib source now uuids new items).map some
  | .upsertDedup now uuids order new => .ok (Intel.upsertDedup lib now uuids order new items)
  | .pruneExpired now => .ok (Intel.pruneExpired lib now items).1

/-- The error a write returns: `PruneExpired` drops that of its save. -/
def Write.report (err : Option WriteError) : Write lib → Option WriteError
  | .pruneExpired _ => none
  | _ => err

/-- A whole write; `order` is that of the snapshot and `fault` the step of the save that fails. -/
def Write.perform (order : Visit (Item lib)) (fault : Option SaveFault) (w : World lib)
    (op : Write lib) : World lib × Option WriteError :=
  match op.critical w.store.items with
  | .error e => (w, some e)
  | .ok none => (w, none)
  | .ok (some items) =>
    let (w', err) := w.commit order fault items
    (w', op.report err)

/-- The items a write leaves in memory. -/
def Write.after (items : Items lib) (op : Write lib) : Items lib :=
  match op.critical items with
  | .ok (some new) => new
  | _ => items

/-- They do not depend on the save. -/
theorem items_perform (order : Visit (Item lib)) (fault : Option SaveFault) (w : World lib)
    (op : Write lib) : (op.perform order fault w).1.store.items = op.after w.store.items := by
  rw [Write.perform, Write.after]
  rcases op.critical w.store.items with _ | _ | new
  · rfl
  · rfl
  · simp only [World.commit]
    split
    · rfl
    · rfl

/-- `Reload`; a file that is not there is an empty one, `unreadable` stands for any other error of
    `LoadFile`. -/
def World.reload (now : Int) (uuids : Nat → Bytes) (unreadable : Option String) (w : World lib) :
    World lib × Option WriteError :=
  match if w.store.path = "" then none else unreadable with
  | some text => (w, some (.new text))
  | none =>
    let loaded := if w.store.path = "" then [] else w.file.getD []
    ({ w with
      store := { w.store with
        items := Catalog.empty.putAll (normalizeAll lib now uuids loaded)
        version := w.store.version + 1 } }, none)

end

/-! ### ASCII text and four addresses -/

def lowerByte (b : UInt8) : UInt8 := if 65 ≤ b ∧ b ≤ 90 then b + 32 else b

theorem lowerByte_lowerByte (b : UInt8) : lowerByte (lowerByte b) = lowerByte b := by
  simp only [lowerByte, UInt8.le_iff_toNat_le, UInt8.reduceToNat]
  split
  · rw [if_neg]
    simp only [UInt8.toNat_add, UInt8.reduceToNat]
    omega
  · rfl

/-- A byte that is no letter comes from itself only. -/
theorem lowerByte_eq_iff {b c : UInt8} (hc : c < 65 ∨ 122 < c) : lowerByte b = c ↔ b = c := by
  simp only [UInt8.lt_iff_toNat_lt, UInt8.reduceToNat] at hc
  rw [lowerByte]
  split
  · rename_i h
    simp only [UInt8.le_iff_toNat_le, UInt8.reduceToNat] at h
    simp only [← UInt8.toNat_inj, UInt8.toNat_add, UInt8.reduceToNat]
    omega
  · rfl

theorem isPrefixOf_lower : ∀ {f : Bytes}, (∀ c ∈ f, c < 65 ∨ 122 < c) → ∀ s : Bytes,
    f.isPrefixOf (s.map lowerByte) = f.isPrefixOf s
  | [], _, s => by simp
  | c :: f, h, [] => by simp
  | c :: f, h, b :: s => by
    have hc := lowerByte_eq_iff (b := b) (h c List.mem_cons_self)
    rw [List.map_cons, List.isPrefixOf_cons_cons, List.isPrefixOf_cons_cons,
      isPrefixOf_lower (fun x hx => h x (List.mem_cons_of_mem _ hx)) s]
    congr 1
    rw [Bool.eq_iff_iff, beq_iff_eq, beq_iff_eq, eq_comm, hc, eq_comm]

theorem dropSpaces_lower {forms : List Bytes} (h : ∀ f ∈ forms, ∀ c ∈ f, c < 65 ∨ 122 < c) :
    ∀ k (s : Bytes), dropSpaces forms k (s.map lowerByte) = (dropSpaces forms k s).map lowerByte
  | _, [] => by simp [dropSpaces]
  | k + 1, b :: s => dropSpaces_lower h k s
  | 0, b :: s => by
    have hwidth : spaceWidth forms ((b :: s).map lowerByte) = spaceWidth forms (b :: s) := by
      have hfind : forms.find? (·.isPrefixOf ((b :: s).map lowerByte)) =
          forms.find? (·.isPrefixOf (b :: s)) := by
        rw [← List.head?_filter, ← List.head?_filter,
          List.filter_congr fun f hf => isPrefixOf_lower (h f hf) (b :: s)]
      rw [spaceWidth, hfind, ← spaceWidth]
    rw [List.map_cons] at hwidth ⊢
    rw [dropSpaces, hwidth, dropSpaces]
    split
    · rfl
    · exact dropSpaces_lower h _ s

theorem trimSpace_lower (s : Bytes) :
    trimSpace (s.map lowerByte) = (trimSpace s).map lowerByte := by
  rw [trimSpace, dropSpaces_lower (by decide +kernel), ← List.map_reverse,
    dropSpaces_lower (by decide +kernel), ← List.map_reverse, ← trimSpace]

/-- A documentation address, another one, the loopback and the unspecified address. -/
def sampleAddrs : List Bytes := ["192.0.2.1", "198.51.100.7", "127.0.0.1", "0.0.0.0"].map utf8

def asciiCase : LowerCase where
  toLower := List.map lowerByte
  toLower_toLower s := by simp [lowerByte_lowerByte]
  trimSpace_toLower s h := by rw [trimSpace_lower, h]

def sampleLib : Lib where
  toLowerCase := asciiCase
  Addr := Fin 4
  parseIP s := (List.finRange 4).find? fun a => sampleAddrs[a] = s
  trimSpace_of_parseIP s a h := by
    have hs : sampleAddrs[a] = s := by simpa using List.find?_some h
    have htrim : ∀ a : Fin 4, trimSpace sampleAddrs[a] = sampleAddrs[a] := by decide +kernel
    rw [← hs]
    exact htrim a
  ipString a := sampleAddrs[a]
  ipString_inj := by decide +kernel
  ipString_ne_nil := by decide +kernel
  isLoopback a := a.val = 2
  isUnspecified a := a.val = 3
  Network := Unit
  parseCIDR s := if s = utf8 "192.0.2.0/24" then some () else none
  contains _ a := a.val = 0

/-- A store with one indicator, of the source "local". -/
def sampleStore : World sampleLib where
  store.items := sync sampleLib 1 (fun _ => [])
    [{ id := utf8 "x", type := utf8 "domain", value := utf8 "old.example" }]

end TaNode.Intel

import TaNode.Intel.Writes

/-! The limit on the number of indicators, `intel.max_items`, over the requests of the API.

    Some handlers ask `checkItemLimit` before they write. It adds what the request delivers to what is
    stored, and knows nothing of ids:

        request         checked as         leaves
        POST intel      not at all         stored and new ids, each once
        sync            not at all         new ids, each once
        sync-source     stored + new       other sources' and new ids, each once
        batch-upsert    stored + new       stored and new ids, each once
        stix            stored + new       stored and new ids, each once
        reload          not at all         ids of the file, each once
        DELETE          not at all         stored ids but one

    So the unchecked requests can pass the limit, and the checked ones can be turned away although what
    they leave fits. -/

namespace TaNode.Intel
variable {lib : Lib}

/-- What the handlers read of the configuration. -/
structure ApiConfig where
  token : Bytes := []
  acceptSTIX : Bool := true
  maxItems : Int := 100000

/-- The requests that change the store, with what their bodies decode to. -/
inductive Request where
  | post (now : Int) (uuid : Bytes) (it : ThreatIntel)
  | delete (id : Bytes)
  | reload (now : Int) (uuids : Nat → Bytes) (unreadable : Option String)
  | sync (now : Int) (uuids : Nat → Bytes) (items : List ThreatIntel)
  | syncSource (source : Bytes) (now : Int) (uuids : Nat → Bytes) (items : List ThreatIntel)
  | batchUpsert (now : Int) (uuids : Nat → Bytes) (items : List ThreatIntel)
  | stix (now : Int) (uuids : Nat → Bytes) (items : List ThreatIntel)

inductive Response where
  | success
  | unauthorized
  | stixDisabled
  | limitExceeded (text : String)
  | failed (err : WriteError)
  deriving DecidableEq

/-- The header carries the token, if one is set. -/
def authorized (cfg : ApiConfig) (header : Bytes) : Bool :=
  cfg.token = [] || header = utf8 "Bearer " ++ cfg.token

/-- The error for a request that delivers so many items. -/
def checkItemLimit (maxItems : Int) (total incoming : Nat) : Option String :=
  if maxItems ≤ 0 then none
  else if (total + incoming : Nat) > maxItems then
    some ("intel item limit exceeded: max_items=" ++ toString maxItems ++ " current=" ++
      toString total ++ " incoming=" ++ toString incoming)
  else none

/-- The answer to a write that was made. -/
def respond (result : World lib × Option WriteError) : World lib × Response :=
  (result.1, match result.2 with
    | none => .success
    | some err => .failed err)

/-- A write under the limit. -/
def checked (cfg : ApiConfig) (w : World lib) (incoming : Nat)
    (result : World lib × Option WriteError) : World lib × Response :=
  match checkItemLimit cfg.maxItems w.store.items.list.length incoming with
  | some text => (w, .limitExceeded text)
  | none => respond result

/-- `handleIntel` and `handleIntelID`, for the requests that write. -/
def handle (cfg : ApiConfig) (header : Bytes) (order : Visit (Item lib)) (fault : Option SaveFault)
    (w : World lib) (r : Request) : World lib × Response :=
  let perform := Write.perform order fault w
  if !authorized cfg header then (w, .unauthorized)
  else match r with
    | .post now uuid it => respond (perform (.add now uuid it))
    | .delete id => respond (perform (.delete id))
    | .reload now uuids unreadable => respond (w.reload now uuids unreadable)
    | .sync now uuids items => respond (perform (.sync now uuids items))
    | .syncSource source now uuids items =>
      checked cfg w items.length (perform (.syncSource source now uuids items))
    | .batchUpsert now uuids items => checked cfg w items.length (perform (.upsertMany now uuids items))
    | .stix now uuids items =>
      if !cfg.acceptSTIX then (w, .stixDisabled)
      else checked cfg w items.length (perform (.upsertMany now uuids items))

/-- The request reaches its handler's work. -/
def Admitted (cfg : ApiConfig) (header : Bytes) (r : Request) : Prop :=
  authorized cfg header = true ∧ ∀ now uuids items, r = .stix now uuids items → cfg.acceptSTIX = true

/-! ### What a request leaves -/

/-- The items if the request is carried out. -/
def Request.result (w : World lib) : Request → Items lib
  | .post now uuid it => (Write.add now uuid it).after w.store.items
  | .delete id => (Write.delete id).after w.store.items
  | .reload now uuids unreadable => (w.reload now uuids unreadable).1.store.items
  | .sync now uuids items => (Write.sync now uuids items).after w.store.items
  | .syncSource source now uuids items => (Write.syncSource source now uuids items).after w.store.items
  | .batchUpsert now uuids items => (Write.upsertMany now uuids items).after w.store.items
  | .stix now uuids items => (Write.upsertMany now uuids items).after w.store.items

/-- The number of items delivered to a handler that asks for the limit. -/
def Request.counted : Request → Option Nat
  | .syncSource _ _ _ items => some items.length
  | .batchUpsert _ _ items => some items.length
  | .stix _ _ items => some items.length
  | _ => none

section
variable (w : World lib)

def storedIDs : List Bytes := w.store.items.list.map (·.1.id)

variable (lib) in
def newIDs (now : Int) (uuids : Nat → Bytes) (items : List ThreatIntel) : List Bytes :=
  (normalizeAll lib now uuids items).map (·.1.id)

/-- The ids that the request keeps and those that it brings. -/
def Request.ids : Request → List Bytes
  | .post now uuid it => storedIDs w ++ newIDs lib now (fun _ => uuid) [it]
  | .delete id => (storedIDs w).filter (· ≠ id)
  | .reload now uuids unreadable =>
    if w.store.path = "" then []
    else if unreadable.isSome then storedIDs w
    else newIDs lib now uuids (w.file.getD [])
  | .sync now uuids items => newIDs lib now uuids items
  | .syncSource source now uuids items =>
    if trimSpace source = [] then storedIDs w
    else ((w.store.items.list.filter fun it => it.1.source ≠ trimSpace source).map (·.1.id)) ++
      newIDs lib now uuids items
  | .batchUpsert now uuids items => storedIDs w ++ newIDs lib now uuids items
  | .stix now uuids items => storedIDs w ++ newIDs lib now uuids items

theorem storedIDs_nodup : (storedIDs w).Nodup := w.store.items.distinct

theorem length_storedIDs : (storedIDs w).length = w.store.items.list.length := List.length_map _

variable (lib) in
theorem length_newIDs (now : Int) (uuids : Nat → Bytes) (items : List ThreatIntel) :
    (newIDs lib now uuids items).length = items.length := by
  rw [newIDs, List.length_map, normalizeAll, List.length_mapIdx]

variable (lib) in
theorem newIDs_eq (now : Int) (uuids : Nat → Bytes) (items : List ThreatIntel) :
    newIDs lib now uuids items =
      items.zipIdx.map fun (it, i) => (normalItem lib now (uuids i) it).1.id := by
  rw [newIDs, normalizeAll, List.mapIdx_eq_zipIdx_map, List.map_map]
  rfl

variable (lib) in
theorem newIDs_source (now : Int) (uuids : Nat → Bytes) (source : Bytes) (items : List ThreatIntel) :
    newIDs lib now uuids (items.map fun it => { it with source := source }) =
      newIDs lib now uuids items := by
  rw [newIDs_eq, newIDs_eq, List.zipIdx_map, List.map_map]
  rfl

theorem length_after_upsertMany (now : Int) (uuids : Nat → Bytes) (items : List ThreatIntel) :
    ((Write.upsertMany now uuids items).after w.store.items).list.length =
      (storedIDs w ++ newIDs lib now uuids items).dedup.length := by
  rw [newIDs_eq]
  exact Catalog.length_upsertAll fun (it, i) prev => id_renew lib now (uuids i) it prev

theorem length_after_delete (id : Bytes) : ((Write.delete id).after w.store.items).list.length =
      ((storedIDs w).filter (· ≠ id)).dedup.length := by
  rw [((storedIDs_nodup w).filter _).dedup, storedIDs, List.filter_map, List.length_map]
  rw [Write.after, Write.critical, Intel.delete]
  cases hget : w.store.items.get? id with
  | none =>
    rw [Catalog.get?_eq_none] at hget
    have hall : w.store.items.list.filter ((fun x => decide (x ≠ id)) ∘ fun it => it.1.id) =
        w.store.items.list := List.filter_eq_self.mpr fun x hx => decide_eq_true (hget x hx)
    rw [hall]
    rfl
  | some it =>
    simp only [Except.map, Catalog.deleteWhere]
    congr 1
    refine List.filter_congr fun x _ => ?_
    simp

theorem length_after_syncSource (source : Bytes) (now : Int) (uuids : Nat → Bytes)
    (items : List ThreatIntel) :
    ((Write.syncSource source now uuids items).after w.store.items).list.length =
      ((Request.syncSource source now uuids items).ids w).dedup.length := by
  rw [Write.after, Write.critical, Intel.syncSource, Request.ids]
  split_ifs with hsource
  · rw [(storedIDs_nodup w).dedup, length_storedIDs]
    rfl
  · have hkept : ((w.store.items.deleteWhere fun it => it.1.source = trimSpace source).list.map
        (·.1.id)) = (w.store.items.list.filter fun it => it.1.source ≠ trimSpace source).map
          (·.1.id) := by
      rw [Catalog.deleteWhere]
      simp only [decide_not]
    rw [← newIDs_source lib now uuids (trimSpace source) items, ← hkept]
    exact Catalog.length_putAll

theorem length_after_reload (now : Int) (uuids : Nat → Bytes) (unreadable : Option String) :
    (w.reload now uuids unreadable).1.store.items.list.length =
      ((Request.reload now uuids unreadable).ids w).dedup.length := by
  rw [World.reload, Request.ids]
  by_cases hpath : w.store.path = ""
  · simp only [if_pos hpath]
    rfl
  · simp only [if_neg hpath]
    cases unreadable with
    | some text =>
      simp only [Option.isSome_some, if_true]
      rw [(storedIDs_nodup w).dedup, length_storedIDs]
    | none => exact Catalog.length_putAll

/-- A request leaves as many items as it keeps and brings different ids. -/
theorem length_result (r : Request) : (r.result w).list.length = (r.ids w).dedup.length := by
  cases r with
  | post now uuid it =>
    have hput : (w.store.items.putAll (normalizeAll lib now (fun _ => uuid) [it])).list.length =
        (storedIDs w ++ newIDs lib now (fun _ => uuid) [it]).dedup.length := Catalog.length_putAll
    exact hput
  | delete id => exact length_after_delete w id
  | reload now uuids unreadable => exact length_after_reload w now uuids unreadable
  | sync now uuids items => exact Catalog.length_putAll
  | syncSource source now uuids items => exact length_after_syncSource w source now uuids items
  | batchUpsert | stix => exact length_after_upsertMany ..

/-- The check never counts less than what is left. -/
theorem length_ids_le {r : Request} {n : Nat} (h : r.counted = some n) :
    (r.ids w).dedup.length ≤ w.store.items.list.length + n := by
  have hbound : (r.ids w).length ≤ w.store.items.list.length + n := by
    cases r with
    | syncSource source now uuids items =>
      obtain rfl := Option.some.inj h
      rw [Request.ids]
      split_ifs
      · rw [length_storedIDs]
        omega
      · rw [List.length_append, List.length_map, length_newIDs]
        have := List.length_filter_le (fun it : Item lib => decide (it.1.source ≠ trimSpace source))
          w.store.items.list
        omega
    | batchUpsert | stix =>
      obtain rfl := Option.some.inj h
      refine Nat.le_of_eq ?_
      rw [Request.ids, List.length_append, length_storedIDs, length_newIDs]
    | _ => cases h
  exact Nat.le_trans (List.dedup_sublist _).length_le hbound

end

/-! ### Which requests are turned away -/

def TurnedAway (r : Response) : Prop := ∃ text, r = .limitExceeded text

section
variable {cfg : ApiConfig} {header : Bytes} {order : Visit (Item lib)} {fault : Option SaveFault}
  {w : World lib} {r : Request}

theorem respond_not_turnedAway (result : World lib × Option WriteError) :
    ¬ TurnedAway (respond result).2 := by
  rintro ⟨text, h⟩
  rw [respond] at h
  cases hres : result.2 <;> simp [hres] at h

theorem checked_turnedAway_iff (hmax : 0 < cfg.maxItems) (incoming : Nat)
    (result : World lib × Option WriteError) :
    TurnedAway (checked cfg w incoming result).2 ↔
      cfg.maxItems < w.store.items.list.length + incoming := by
  rw [checked, checkItemLimit, if_neg (by omega)]
  split_ifs with hover
  · exact iff_of_true ⟨_, rfl⟩ (by push_cast at hover; omega)
  · exact iff_of_false (respond_not_turnedAway result) (by push_cast at hover; omega)

/-- A request is turned away exactly if its handler asks for the limit and the plain sum is above it. -/
theorem handle_turnedAway_iff (hmax : 0 < cfg.maxItems) (hentered : Admitted cfg header r) :
    TurnedAway (handle cfg header order fault w r).2 ↔
      ∃ n, r.counted = some n ∧ cfg.maxItems < w.store.items.list.length + n := by
  have hauth : (!authorized cfg header) = false := by rw [hentered.1]; rfl
  simp only [handle, hauth, Bool.false_eq_true, if_false]
  cases r with
  | post | delete | reload | sync =>
    exact iff_of_false (respond_not_turnedAway _) (by simp [Request.counted])
  | syncSource | batchUpsert =>
    exact (checked_turnedAway_iff hmax _ _).trans (by simp [Request.counted])
  | stix now uuids items =>
    rw [hentered.2 now uuids items rfl]
    exact (checked_turnedAway_iff hmax _ _).trans (by simp [Request.counted])

theorem items_checked (incoming : Nat) (result : World lib × Option WriteError) :
    (TurnedAway (checked cfg w incoming result).2 ∧
      (checked cfg w incoming result).1.store.items = w.store.items) ∨
    (¬ TurnedAway (checked cfg w incoming result).2 ∧
      (checked cfg w incoming result).1.store.items = result.1.store.items) := by
  rw [checked]
  cases checkItemLimit cfg.maxItems w.store.items.list.length incoming with
  | some text => exact .inl ⟨⟨text, rfl⟩, rfl⟩
  | none => exact .inr ⟨respond_not_turnedAway result, rfl⟩

/-- A request that is not turned away is carried out, every other one changes nothing. -/
theorem items_handle : (handle cfg header order fault w r).1.store.items = w.store.items ∨
    (Admitted cfg header r ∧ ¬ TurnedAway (handle cfg header order fault w r).2 ∧
      (handle cfg header order fault w r).1.store.items = r.result w) := by
  by_cases hauth : authorized cfg header = true
  swap
  · rw [handle.eq_def, if_pos (by simpa using hauth)]
    exact .inl rfl
  have hnot : (!authorized cfg header) = false := by rw [hauth]; rfl
  simp only [handle, hnot, Bool.false_eq_true, if_false]
  cases r with
  | reload => exact .inr ⟨⟨hauth, nofun⟩, respond_not_turnedAway _, rfl⟩
  | post | delete | sync =>
    exact .inr ⟨⟨hauth, nofun⟩, respond_not_turnedAway _, items_perform order fault w _⟩
  | syncSource | batchUpsert =>
    rcases items_checked _ _ with ⟨-, h⟩ | ⟨hturned, h⟩
    · exact .inl h
    · exact .inr ⟨⟨hauth, nofun⟩, hturned, h.trans (items_perform order fault w _)⟩
  | stix now uuids items =>
    cases haccept : cfg.acceptSTIX with
    | false => exact .inl rfl
    | true =>
      rcases items_checked items.length _ with ⟨-, h⟩ | ⟨hturned, h⟩
      · exact .inl h
      · exact .inr ⟨⟨hauth, fun _ _ _ _ => haccept⟩, hturned, h.trans (items_perform order fault w _)⟩

/-! ### The limit -/

/-- For a handler that asks for the limit: stored and delivered items together keep to it, or even the
    different ids that are left do not. For every other one: the different ids that are left keep to
    it. -/
def Fits (maxItems : Int) (w : World lib) (r : Request) : Prop :=
  match r.counted with
  | some n => w.store.items.list.length + n ≤ maxItems ∨ maxItems < (r.ids w).dedup.length
  | none => (r.ids w).dedup.length ≤ maxItems

theorem turnedAway_exact_iff (hmax : 0 < cfg.maxItems) (hentered : Admitted cfg header r) :
    (TurnedAway (handle cfg header order fault w r).2 ↔
      cfg.maxItems < (r.result w).list.length) ↔ Fits cfg.maxItems w r := by
  rw [handle_turnedAway_iff hmax hentered, length_result, Fits]
  cases hcounted : r.counted with
  | none => simp
  | some n =>
    have hle := length_ids_le w hcounted
    simp only [Option.some.injEq, exists_eq_left']
    omega

/-- One request that fits keeps the store within the limit. -/
theorem handle_within (hmax : 0 < cfg.maxItems) (hbefore : w.store.items.list.length ≤ cfg.maxItems)
    (hfits : Admitted cfg header r → Fits cfg.maxItems w r) :
    (handle cfg header order fault w r).1.store.items.list.length ≤ cfg.maxItems := by
  obtain h | ⟨hentered, hturned, h⟩ : (handle cfg header order fault w r).1.store.items = w.store.items ∨
      (Admitted cfg header r ∧ ¬ TurnedAway (handle cfg header order fault w r).2 ∧
        (handle cfg header order fault w r).1.store.items = r.result w) := items_handle
  · rw [h]
    exact hbefore
  · rw [h]
    by_contra hover
    exact hturned (((turnedAway_exact_iff hmax hentered).mpr (hfits hentered)).mpr (by omega))

end

/-- Requests one after the other, each of which fits or is not admitted. -/
def FittingStep (cfg : ApiConfig) (w w' : World lib) : Prop :=
  ∃ header order fault r, (Admitted cfg header r → Fits cfg.maxItems w r) ∧
    w' = (handle cfg header order fault w r).1

/-- An admitted request is turned away exactly if it would leave too many items, if and only if it
    fits; and requests that fit never take the store over the limit. -/
theorem limit_exact_iff_fits (cfg : ApiConfig) (hmax : 0 < cfg.maxItems) :
    (∀ (header : Bytes) (order : Visit (Item lib)) (fault : Option SaveFault) (w : World lib)
      (r : Request), Admitted cfg header r →
        ((TurnedAway (handle cfg header order fault w r).2 ↔
          cfg.maxItems < (r.result w).list.length) ↔ Fits cfg.maxItems w r)) ∧
    ∀ w : World lib, Reachable (fun w => w.store.items.list.length ≤ cfg.maxItems) (FittingStep cfg) w →
      w.store.items.list.length ≤ cfg.maxItems := by
  refine ⟨fun header order fault w r hentered => turnedAway_exact_iff hmax hentered, fun w hw => ?_⟩
  have hstep : ∀ w w' : World lib, w.store.items.list.length ≤ cfg.maxItems → FittingStep cfg w w' →
      w'.store.items.list.length ≤ cfg.maxItems := by
    rintro w _ hbefore ⟨header, order, fault, r, hfits, rfl⟩
    exact handle_within hmax hbefore hfits
  exact hw.invariant (fun _ h => h) hstep

/-- Room for two: a batch with one new indicator is taken. -/
theorem limit_exact_iff_fits_two :
    ¬ TurnedAway (handle { maxItems := 2 } [] .listed none sampleStore
      (.batchUpsert 2 (fun _ => []) [sampleItem "y"])).2 := by
  intro hturned
  have hfits : Fits 2 sampleStore (.batchUpsert 2 (fun _ => []) [sampleItem "y"]) :=
    .inl (by decide +kernel)
  have hover := (((limit_exact_iff_fits { maxItems := 2 } (by decide)).1 [] .listed none sampleStore
    (.batchUpsert 2 (fun _ => []) [sampleItem "y"]) ⟨by decide, nofun⟩).mpr hfits).mp hturned
  exact absurd hover (by decide +kernel)

/-- Room for one, and one is stored: another one is added by POST, and the source of the one that is
    stored cannot be synchronized with another one in its place. -/
theorem limit_missed_and_misread :
    ((handle { maxItems := 1 } [] .listed none sampleStore (.post 2 [] (sampleItem "y"))).2 = .success ∧
      (handle { maxItems := 1 } [] .listed none sampleStore
        (.post 2 [] (sampleItem "y"))).1.store.items.list.length = 2) ∧
    TurnedAway (handle { maxItems := 1 } [] .listed none sampleStore
      (.syncSource (utf8 "local") 2 (fun _ => []) [sampleItem "y"])).2 ∧
    ((Request.syncSource (utf8 "local") 2 (fun _ => []) [sampleItem "y"]).result
      sampleStore).list.length = 1 := by
  exact ⟨⟨by decide +kernel, by decide +kernel⟩, ⟨_, rfl⟩, by decide +kernel⟩

end TaNode.Intel

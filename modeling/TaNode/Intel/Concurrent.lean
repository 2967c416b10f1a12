import TaNode.Intel.Matcher
import TaNode.Schemes.Runs

/-! Writes and packet matches at the same time.

    A write holds `opMu` from its change to its return. A match makes sure of the index first and
    then matches under the read lock, in steps that are atomic each but not together:

        start ──▶ store version ──▶ matcher version ──same──────────────────────▶ match
                                        │ other                                    ▲
                                        └────────▶ list items ──▶ install index ───┘

    The index is installed with the version read at the start, and nothing compares it with the index
    in place: a slow rebuild can put an old item set over a newer one, under a call that has just made
    sure of the newer one. A call sees the writes that had returned when it started in every run in
    which that does not happen. -/

namespace TaNode.Intel
variable {lib : Lib} {n : Nat}

/-! ### States and steps -/

variable (lib) in
/-- Where a `MatchPacket` call is. `since` is the version of the store when the last write returned
    before the call started. -/
inductive Call where
  | idle
  | started (since : Nat)
  | versioned (since version : Nat)
  | stale (since version : Nat)
  | listed (since version age : Nat) (items : List (Item lib))
  | ready (since : Nat)
  deriving DecidableEq

variable (lib n) in
/-- The store with the write under way (does it still have to save?), the matcher, and `n` calls.
    `returned`, `log` and `age` are history: the version when the last write returned, the items at
    each version, and the version whose items the index holds. -/
structure Shared where
  world : World lib
  busy : Option Bool := none
  index : Index lib := {}
  label : Nat := 0
  calls : Fin n → Call lib := fun _ => .idle
  returned : Nat
  log : Nat → Items lib
  age : Nat := 0

variable (lib n) in
inductive Event where
  | change (op : Write lib)
  | reload (now : Int) (uuids : Nat → Bytes)
  | finish (order : Visit (Item lib)) (fault : Option SaveFault)
  | start (t : Fin n)
  | readVersion (t : Fin n)
  | readLabel (t : Fin n)
  | list (t : Fin n) (listing : Visit (Item lib))
  | install (t : Fin n)
  | done (t : Fin n)

def Shared.call (s : Shared lib n) (t : Fin n) (c : Call lib) : Shared lib n :=
  { s with calls := fun u => if u = t then c else s.calls u }

/-- New items under the next version. -/
def Shared.put (s : Shared lib n) (items : Items lib) (save : Bool) : Shared lib n :=
  { s with
    world.store.items := items
    world.store.version := s.world.store.version + 1
    busy := some save
    log := fun v => if v = s.world.store.version + 1 then items else s.log v }

/-- One step, `none` where the event cannot happen. -/
def Shared.step (s : Shared lib n) : Event lib n → Option (Shared lib n)
  | .change op =>
    match s.busy with
    | some _ => none
    | none =>
      match op.critical s.world.store.items with
      | .ok (some items) => some (s.put items true)
      | _ => some { s with returned := s.world.store.version }
  | .reload now uuids =>
    match s.busy with
    | some _ => none
    | none => some (s.put (s.world.reload now uuids none).1.store.items false)
  | .finish order fault =>
    match s.busy with
    | none => none
    | some save =>
      let file := if save ∧ s.world.store.path ≠ "" then
          (saveFileAtomic fault ((order.visit s.world.store.items.list).map (·.1)) s.world.file).1
        else s.world.file
      some { s with world.file := file, busy := none, returned := s.world.store.version }
  | .start t =>
    match s.calls t with
    | .idle => some (s.call t (.started s.returned))
    | _ => none
  | .readVersion t =>
    match s.calls t with
    | .started since => some (s.call t (.versioned since s.world.store.version))
    | _ => none
  | .readLabel t =>
    match s.calls t with
    | .versioned since version =>
      some (s.call t (if s.label = version then .ready since else .stale since version))
    | _ => none
  | .list t listing =>
    match s.calls t with
    | .stale since version =>
      some (s.call t (.listed since version s.world.store.version
        (listing.visit s.world.store.items.list)))
    | _ => none
  | .install t =>
    match s.calls t with
    | .listed since version age items =>
      some { s.call t (.ready since) with index := buildIndex lib items, label := version, age := age }
    | _ => none
  | .done t =>
    match s.calls t with
    | .ready _ => some (s.call t .idle)
    | _ => none

/-- `NewStore` without a file or with one, and `NewMatcher`. -/
def Shared.Initial (s : Shared lib n) : Prop :=
  ∃ path file now uuids,
    let empty : World lib := ⟨⟨Catalog.empty, path, 0⟩, file⟩
    let opened := if path = "" then empty else (empty.reload now uuids none).1
    s = { world := opened, returned := opened.store.version,
          log := fun v => if v = 0 then Catalog.empty else opened.store.items }

/-- The index holds the items of a version from `since` on. -/
def Shared.Fresh (s : Shared lib n) (since : Nat) : Prop :=
  ∃ v listing, since ≤ v ∧ v ≤ s.world.store.version ∧
    s.index = buildIndex lib (Visit.visit listing (s.log v).list)

/-- The version a call that is about to match must not miss. -/
def Call.needs : Call lib → Nat
  | .ready since => since
  | _ => 0

/-- An index is installed only if it is not too old for any call that is about to match. -/
def Shared.orderly (s : Shared lib n) : Event lib n → Bool
  | .install t =>
    match s.calls t with
    | .listed _ _ age _ => ∀ u, (s.calls u).needs ≤ age
    | _ => true
  | _ => true

/-- A step by an event that is allowed. -/
def Shared.Next (allowed : Shared lib n → Event lib n → Bool) (s s' : Shared lib n) : Prop :=
  ∃ ev, allowed s ev = true ∧ s.step ev = some s'

/-! ### What the versions say -/

/-- The version a call has read is one of its time, and so is the item set it has listed. -/
def Shared.CallOk (s : Shared lib n) : Call lib → Prop
  | .idle => True
  | .started since => since ≤ s.returned
  | .versioned since version => since ≤ s.returned ∧ since ≤ version ∧
      version ≤ s.world.store.version
  | .stale since version => since ≤ s.returned ∧ since ≤ version ∧
      version ≤ s.world.store.version
  | .listed since version age items => since ≤ s.returned ∧ since ≤ version ∧ version ≤ age ∧
      age ≤ s.world.store.version ∧ ∃ listing : Visit (Item lib), items = listing.visit (s.log age).list
  | .ready since => since ≤ s.age

/-- The index is at least as new as its label says. -/
structure Shared.Inv (s : Shared lib n) : Prop where
  returned : s.returned ≤ s.world.store.version
  log : s.log s.world.store.version = s.world.store.items
  index : ∃ listing : Visit (Item lib), s.index = buildIndex lib (listing.visit (s.log s.age).list)
  label : s.label ≤ s.age
  age : s.age ≤ s.world.store.version
  calls : ∀ t, s.CallOk (s.calls t)

/-- History only grows, and the index stays as new as the calls that are about to match need it. -/
structure Shared.Later (s s' : Shared lib n) : Prop where
  returned : s.returned ≤ s'.returned
  version : s.world.store.version ≤ s'.world.store.version
  log : ∀ v ≤ s.world.store.version, s'.log v = s.log v
  age : ∀ t, (s.calls t).needs ≤ s.age → (s.calls t).needs ≤ s'.age

variable {s s' : Shared lib n}

theorem Shared.CallOk.later (h : s.Later s') :
    ∀ {c : Call lib}, (c.needs ≤ s.age → c.needs ≤ s'.age) → s.CallOk c → s'.CallOk c
  | .idle, _, _ => trivial
  | .started _, _, hc => Nat.le_trans hc h.returned
  | .versioned .., _, ⟨hr, hs, hv⟩ => ⟨Nat.le_trans hr h.returned, hs, Nat.le_trans hv h.version⟩
  | .stale .., _, ⟨hr, hs, hv⟩ => ⟨Nat.le_trans hr h.returned, hs, Nat.le_trans hv h.version⟩
  | .listed .., _, ⟨hr, hs, hv, ha, listing, hitems⟩ =>
    ⟨Nat.le_trans hr h.returned, hs, hv, Nat.le_trans ha h.version, listing,
      by rw [h.log _ ha]; exact hitems⟩
  | .ready _, hage, hc => hage hc

/-- The calls after a step that is not theirs. -/
theorem Shared.Inv.later (hinv : s.Inv) (h : s.Later s') (t : Fin n) : s'.CallOk (s.calls t) :=
  CallOk.later h (h.age t) (hinv.calls t)

/-- A step of one call. -/
theorem Shared.Inv.call (h : s.Inv) (t : Fin n) {c : Call lib} (hc : s.CallOk c) :
    (s.call t c).Inv := by
  refine ⟨h.returned, h.log, h.index, h.label, h.age, fun u => ?_⟩
  simp only [Shared.call]
  split
  · cases c <;> exact hc
  · have hu := h.calls u
    generalize s.calls u = d at hu
    cases d <;> exact hu

theorem Shared.Inv.put (h : s.Inv) (items : Items lib) (save : Bool) : (s.put items save).Inv := by
  have hlog : ∀ v ≤ s.world.store.version, (s.put items save).log v = s.log v := by
    intro v hv
    exact if_neg (by omega)
  have hlater : s.Later (s.put items save) := ⟨Nat.le_refl _, Nat.le_succ _, hlog, fun _ ha => ha⟩
  obtain ⟨listing, hindex⟩ := h.index
  refine ⟨Nat.le_trans h.returned (Nat.le_succ _), if_pos rfl, ⟨listing, ?_⟩, h.label,
    Nat.le_trans h.age (Nat.le_succ _), h.later hlater⟩
  have hkept : (s.put items save).log (s.put items save).age = s.log s.age := hlog _ h.age
  rw [hkept]
  exact hindex

/-- The return of a write. -/
theorem Shared.Inv.returns (h : s.Inv) (file : Option (List ThreatIntel)) (busy : Option Bool) :
    ({ s with world.file := file, busy := busy, returned := s.world.store.version } :
      Shared lib n).Inv := by
  have hlater : s.Later { s with
      world.file := file, busy := busy, returned := s.world.store.version } :=
    ⟨h.returned, Nat.le_refl _, fun _ _ => rfl, fun _ ha => ha⟩
  exact ⟨Nat.le_refl _, h.log, h.index, h.label, h.age, h.later hlater⟩

/-- An index that is installed in order. -/
theorem Shared.Inv.install (h : s.Inv) {t : Fin n} {since version age : Nat}
    {items : List (Item lib)} (hcall : s.calls t = .listed since version age items)
    (horder : ∀ u, (s.calls u).needs ≤ age) :
    ({ s.call t (.ready since) with
      index := buildIndex lib items, label := version, age := age } : Shared lib n).Inv := by
  have hok := h.calls t
  rw [hcall] at hok
  obtain ⟨hr, hs, hv, ha, listing, rfl⟩ := hok
  have hlater : s.Later { s.call t (.ready since) with
      index := buildIndex lib (listing.visit (s.log age).list), label := version, age := age } :=
    ⟨Nat.le_refl _, Nat.le_refl _, fun _ _ => rfl, fun u _ => horder u⟩
  refine ⟨h.returned, h.log, ⟨listing, rfl⟩, hv, ha, fun u => ?_⟩
  simp only [Shared.call]
  split
  · exact Nat.le_trans hs hv
  · exact h.later hlater u

theorem Shared.Inv.step (h : s.Inv) {ev : Event lib n} (horder : s.orderly ev = true)
    (hstep : s.step ev = some s') : s'.Inv := by
  cases ev with
  | change op =>
    simp only [Shared.step] at hstep
    split at hstep
    · cases hstep
    · split at hstep
      · cases hstep
        exact h.put _ _
      · cases hstep
        exact h.returns s.world.file s.busy
  | reload now uuids =>
    simp only [Shared.step] at hstep
    split at hstep
    · cases hstep
    · cases hstep
      exact h.put _ _
  | finish order fault =>
    simp only [Shared.step] at hstep
    split at hstep
    · cases hstep
    · cases hstep
      exact h.returns _ _
  | start t =>
    simp only [Shared.step] at hstep
    split at hstep
    · cases hstep
      exact h.call t (Nat.le_refl _)
    · cases hstep
  | readVersion t =>
    simp only [Shared.step] at hstep
    split at hstep
    · rename_i since hcall
      cases hstep
      have hok : since ≤ s.returned := by
        have := h.calls t
        rwa [hcall] at this
      exact h.call t ⟨hok, Nat.le_trans hok h.returned, Nat.le_refl _⟩
    · cases hstep
  | readLabel t =>
    simp only [Shared.step] at hstep
    split at hstep
    · rename_i since version hcall
      cases hstep
      have hok := h.calls t
      rw [hcall] at hok
      refine h.call t ?_
      split
      · rename_i hlabel
        exact Nat.le_trans (hlabel ▸ hok.2.1) h.label
      · exact hok
    · cases hstep
  | list t listing =>
    simp only [Shared.step] at hstep
    split at hstep
    · rename_i since version hcall
      cases hstep
      have hok := h.calls t
      rw [hcall] at hok
      refine h.call t ⟨hok.1, hok.2.1, hok.2.2, Nat.le_refl _, listing, ?_⟩
      rw [h.log]
    · cases hstep
  | install t =>
    simp only [Shared.step] at hstep
    split at hstep
    · rename_i since version age items hcall
      cases hstep
      simp only [Shared.orderly, hcall, decide_eq_true_eq] at horder
      exact h.install hcall horder
    · cases hstep
  | done t =>
    simp only [Shared.step] at hstep
    split at hstep
    · cases hstep
      exact h.call t trivial
    · cases hstep

theorem Shared.Initial.inv (h : s.Initial) : s.Inv := by
  obtain ⟨path, file, now, uuids, rfl⟩ := h
  by_cases hpath : path = ""
  · simp only [if_pos hpath]
    exact ⟨Nat.le_refl _, rfl, ⟨.listed, rfl⟩, Nat.le_refl _, Nat.le_refl _, fun _ => trivial⟩
  · simp only [if_neg hpath]
    refine ⟨Nat.le_refl _, ?_, ⟨.listed, rfl⟩, Nat.le_refl _, Nat.zero_le _, fun _ => trivial⟩
    simp [World.reload, hpath]

theorem inv_run (hrun : Reachable Shared.Initial (Shared.Next Shared.orderly) s) : s.Inv := by
  refine hrun.invariant (fun _ hinit => hinit.inv) ?_
  rintro s s' hinv ⟨ev, horder, hstep⟩
  exact hinv.step horder hstep

/-- As long as no index is installed that is too old for a call about to match, such a call matches
    against the items of a version at least as new as every write that had returned when it started. -/
theorem calls_see_returned_writes (s : Shared lib n)
    (hrun : Reachable Shared.Initial (Shared.Next Shared.orderly) s) (t : Fin n) (since : Nat)
    (hcall : s.calls t = .ready since) : s.Fresh since := by
  have hinv := inv_run hrun
  obtain ⟨listing, hindex⟩ := hinv.index
  have hok := hinv.calls t
  rw [hcall] at hok
  exact ⟨s.age, listing, hok, hinv.age, hindex⟩

/-! ### Runs of events -/

/-- The state after a list of events, `none` if one of them cannot happen or is not allowed. -/
def Shared.run (allowed : Shared lib n → Event lib n → Bool) (s : Shared lib n) :
    List (Event lib n) → Option (Shared lib n)
  | [] => some s
  | ev :: evs =>
    if allowed s ev then (s.step ev).bind fun s' => s'.run allowed evs else none

theorem Shared.run_reachable {allowed : Shared lib n → Event lib n → Bool} :
    ∀ {evs : List (Event lib n)} {s : Shared lib n}, Reachable Shared.Initial (Shared.Next allowed) s →
      s.run allowed evs = some s' → Reachable Shared.Initial (Shared.Next allowed) s'
  | [], s, hs, h => by
    cases h
    exact hs
  | ev :: evs, s, hs, h => by
    rw [Shared.run] at h
    split at h
    · obtain ⟨s₁, hstep, hrest⟩ := Option.bind_eq_some_iff.mp h
      exact Shared.run_reachable (hs.next ⟨ev, by assumption, hstep⟩) hrest
    · cases h

/-- A store without a file. -/
def sampleShared : Shared sampleLib 2 :=
  { world := ⟨⟨Catalog.empty, "", 0⟩, none⟩
    returned := 0
    log := fun v => if v = 0 then Catalog.empty else Catalog.empty }

theorem sampleShared_initial : sampleShared.Initial :=
  ⟨"", none, 0, fun _ => [], rfl⟩

def sampleWrite : Write sampleLib :=
  .add 1 [] { id := utf8 "x", type := utf8 "domain", value := utf8 "old.example", enabled := true }

/-- A call up to the list of the items, and a write. -/
def listing (t : Fin 2) : List (Event sampleLib 2) :=
  [.start t, .readVersion t, .readLabel t, .list t .listed]

def writing (op : Write sampleLib) : List (Event sampleLib 2) := [.change op, .finish .listed none]

/-- The state after a run that is known to be possible. -/
def finalState (allowed : Shared sampleLib 2 → Event sampleLib 2 → Bool)
    (evs : List (Event sampleLib 2)) : Shared sampleLib 2 :=
  (sampleShared.run allowed evs).getD sampleShared

theorem finalState_reachable {allowed : Shared sampleLib 2 → Event sampleLib 2 → Bool}
    {evs : List (Event sampleLib 2)} (h : (sampleShared.run allowed evs).isSome = true) :
    Reachable Shared.Initial (Shared.Next allowed) (finalState allowed evs) := by
  obtain ⟨s, hs⟩ := Option.isSome_iff_exists.mp h
  rw [finalState, hs]
  exact Shared.run_reachable (.start sampleShared_initial) hs

/-- A slow rebuild of the first call that is installed after the second call has matched. -/
theorem calls_see_returned_writes_late :
    (finalState Shared.orderly (writing sampleWrite ++ listing 0 ++ writing (.delete (utf8 "x")) ++
      listing 1 ++ [.install 1, .done 1, .install 0])).Fresh 1 :=
  calls_see_returned_writes _ (finalState_reachable (by decide +kernel)) 0 1 (by decide +kernel)

/-- A call lists the item, a write deletes it and returns, a second call makes sure of the new
    index, and the first one installs the old: the second matches against the deleted item. -/
theorem slow_rebuild_hides_write :
    ∃ s : Shared sampleLib 2, Reachable Shared.Initial (Shared.Next fun _ _ => true) s ∧
      s.calls 1 = .ready 2 ∧ ¬ s.Fresh 2 := by
  let evs := writing sampleWrite ++ listing 0 ++ writing (.delete (utf8 "x")) ++ listing 1 ++
    [.install 1, .install 0]
  refine ⟨finalState (fun _ _ => true) evs, finalState_reachable (by decide +kernel),
    by decide +kernel, ?_⟩
  rintro ⟨v, order, hlow, hhigh, hindex⟩
  have hversion : (finalState (fun _ _ => true) evs).world.store.version = 2 := by decide +kernel
  have hlog : ((finalState (fun _ _ => true) evs).log 2).list = [] := by decide +kernel
  have hold : (finalState (fun _ _ => true) evs).index.domainMap.list ≠ [] := by decide +kernel
  obtain rfl : v = 2 := by omega
  rw [hlog, List.perm_nil.mp (order.perm [])] at hindex
  rw [hindex] at hold
  exact hold rfl

end TaNode.Intel

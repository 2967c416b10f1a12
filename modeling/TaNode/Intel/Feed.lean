import Mathlib.Data.List.Perm.Subperm
import TaNode.Intel.Merge

/-! The incremental feed sync: `SyncOnce` reads every feed file and merges the indicators that the
    store does not know.

        stored keys ──seen──▶ scan of the files ──▶ candidates ──▶ UpsertDedup ──▶ store
                              in path order         one for each
                                                    unknown key

    The store is its own cursor: what was merged is known at the next pass. A candidate is new by its
    key but is written under its id, so the pass adds what it counts and the next pass finds nothing
    exactly when the candidates' ids are distinct and no stored key loses its last entry to one. -/

namespace TaNode.Intel
variable {lib : Lib}
variable {c it : ThreatIntel}

/-! ### Feed files -/

/-- `errIncomplete`, "yaml … exceeds … bytes", "zip … exceeds … bytes uncompressed" with the path,
    or an error of the reader or the parser with its text. -/
inductive FeedError where
  | incomplete
  | yamlExceeds (path : Bytes)
  | zipExceeds (path : Bytes)
  | other (text : String)
  deriving DecidableEq, Repr

/-- The bytes read from a file or an entry: how many, and what `yaml.Unmarshal` makes of them. -/
structure Document where
  size : Nat
  parsed : Except FeedError (List ThreatIntel)

/-- An entry of a zip file; opening or reading it may fail. -/
structure ZipEntry where
  name : Bytes
  content : Except FeedError Document

/-- A directory entry: what `os.Stat` says (is it a directory, when was it modified), the file read
    as a document, and the file opened as a zip. -/
structure FeedFile where
  dir : Bytes
  name : Bytes
  stat : Option (Bool × Int)
  plain : Option Document
  zipped : Option (List ZipEntry)

def maxZipUncompressed : Nat := 256 * 2 ^ 20

def FeedFile.path (f : FeedFile) : Bytes := f.dir ++ utf8 "/" ++ f.name

section
variable (lib)

/-- A `.yaml` or `.yml` name, in any case. -/
def isYAML (path : Bytes) : Bool :=
  (utf8 ".yaml").isSuffixOf (lib.toLower path) || (utf8 ".yml").isSuffixOf (lib.toLower path)

def extractPlainYAML (f : FeedFile) : Except FeedError (List ThreatIntel) :=
  match f.plain with
  | none => .error .incomplete
  | some doc =>
    if doc.size > maxZipUncompressed then .error (.yamlExceeds f.path) else doc.parsed

/-- The loop over the entries of a zip, with the bytes and the items read so far. -/
def extractFrom (path : Bytes) (maxItems : Int) : Nat → List ThreatIntel → List ZipEntry →
    Except FeedError (List ThreatIntel)
  | _, items, [] => .ok items
  | total, items, e :: rest =>
    if isYAML lib e.name then
      match e.content with
      | .error err => .error err
      | .ok doc =>
        -- the reader stops one byte behind the limit
        let total := total + min doc.size (maxZipUncompressed - total + 1)
        if total > maxZipUncompressed then .error (.zipExceeds path)
        else
          match doc.parsed with
          | .error err => .error err
          | .ok more =>
            let items := items ++ more
            if 0 < maxItems ∧ maxItems < items.length then .ok (items.take maxItems.toNat)
            else extractFrom path maxItems total items rest
    else extractFrom path maxItems total items rest

def extractItems (maxItems : Int) (f : FeedFile) : Except FeedError (List ThreatIntel) :=
  match f.zipped with
  | none => .error .incomplete
  | some entries => extractFrom lib f.path maxItems 0 [] entries

/-! ### One pass -/

structure Syncer where
  dirs : List Bytes
  retainDays : Int
  maxItems : Int

def globDir (files : List FeedFile) (dir ending : Bytes) : List FeedFile :=
  files.filter fun f => f.dir = dir && ending.isSuffixOf f.name

/-- The paths of all directories. -/
def allPaths (s : Syncer) (files : List FeedFile) : List FeedFile :=
  s.dirs.flatMap fun dir => globDir files dir (utf8 ".zip") ++ globDir files dir (utf8 ".yaml") ++
    globDir files dir (utf8 ".yml")

/-- The items of a file, none if it is skipped. -/
def readItems (s : Syncer) (f : FeedFile) : List ThreatIntel :=
  match f.stat with
  | some (false, _) =>
    match if isYAML lib f.path then extractPlainYAML f else extractItems lib s.maxItems f with
    | .ok items => items
    | .error _ => []
  | _ => []

/-- The keys seen and the candidates, after one more item. -/
def collect (state : List Bytes × List ThreatIntel) (it : ThreatIntel) :
    List Bytes × List ThreatIntel :=
  if canonicalKey lib it ∈ state.1 then state
  else (canonicalKey lib it :: state.1, state.2 ++ [it])

/-- What a pass finds besides the store and the files: the orders of its map loops, the time, the
    UUIDs, the fault of the save, the time `retainDays` days ago and the files that resist removal. -/
structure Pass where
  listing : Visit (Item lib) := .listed
  merge : MergeOrder lib := {}
  snapshot : Visit (Item lib) := .listed
  now : Int := 0
  uuids : Bytes → Bytes := fun _ => []
  fault : Option SaveFault := none
  cutoff : Int := 0
  stuck : FeedFile → Bool := fun _ => false

/-- The items of all files in path order. -/
def delivered (s : Syncer) (files : List FeedFile) : List ThreatIntel :=
  ((allPaths s files).mergeSort fun f g => f.path ≤ g.path).flatMap (readItems lib s)

/-- The items whose key neither the store nor an item before them has. -/
def candidates (s : Syncer) (order : Visit (Item lib)) (files : List FeedFile) (items : Items lib) :
    List ThreatIntel :=
  ((delivered lib s files).foldl (collect lib) ((order.visit items.list).map Item.key, [])).2

variable {lib}

/-- The files left by `cleanupOldFiles`. -/
def cleanupOldFiles (s : Syncer) (pass : Pass lib) (files : List FeedFile) : List FeedFile :=
  if s.retainDays ≤ 0 then files
  else
    files.filter fun f =>
      match f.stat with
      | some (false, modTime) =>
        !((allPaths s files).any (fun g => g.path = f.path) && modTime < pass.cutoff &&
          !pass.stuck f)
      | _ => true

/-- The number returned or the error, with the store and the files afterwards. -/
def syncOnce (s : Syncer) (pass : Pass lib) (files : List FeedFile) (w : World lib) :
    Except WriteError Nat × World lib × List FeedFile :=
  match candidates lib s pass.listing files w.store.items with
  | [] => (.ok 0, w, cleanupOldFiles s pass files)
  | found =>
    match Write.perform pass.snapshot pass.fault w
        (.upsertDedup pass.now pass.uuids pass.merge found) with
    | (w', some err) => (.error err, w', files)
    | (w', none) => (.ok found.length, w', cleanupOldFiles s pass files)

end

/-! ### The scan -/

variable (lib) in
/-- The scan of the items `its` from the keys `known`. -/
structure Collected (known : List Bytes) (its : List ThreatIntel)
    (state : List Bytes × List ThreatIntel) : Prop where
  seen : ∀ k, k ∈ state.1 ↔ k ∈ known ∨ k ∈ state.2.map (canonicalKey lib)
  scanned : ∀ it ∈ its, canonicalKey lib it ∈ state.1
  origin : ∀ it ∈ state.2, it ∈ its
  fresh : ∀ it ∈ state.2, canonicalKey lib it ∉ known
  distinct : (state.2.map (canonicalKey lib)).Nodup

theorem Collected.snoc {known : List Bytes} {its : List ThreatIntel}
    {state : List Bytes × List ThreatIntel} (h : Collected lib known its state) (it : ThreatIntel) :
    Collected lib known (its ++ [it]) (collect lib state it) := by
  rw [collect]
  split
  · rename_i hseen
    refine ⟨h.seen, ?_, fun c hc => List.mem_append_left _ (h.origin c hc), h.fresh, h.distinct⟩
    intro x hx
    rcases List.mem_append.mp hx with hx | hx
    · exact h.scanned x hx
    · rw [List.mem_singleton.mp hx]
      exact hseen
  · rename_i hnew
    rw [h.seen, not_or] at hnew
    constructor
    · intro k
      simp only [List.mem_cons, h.seen, List.map_append, List.mem_append, List.map_cons,
        List.map_nil, List.not_mem_nil, or_false]
      grind
    · intro x hx
      rcases List.mem_append.mp hx with hx | hx
      · exact List.mem_cons_of_mem _ (h.scanned x hx)
      · rw [List.mem_singleton.mp hx]
        exact List.mem_cons_self
    · intro c hc
      rcases List.mem_append.mp hc with hc | hc
      · exact List.mem_append_left _ (h.origin c hc)
      · exact List.mem_append_right _ hc
    · intro c hc
      rcases List.mem_append.mp hc with hc | hc
      · exact h.fresh c hc
      · rw [List.mem_singleton.mp hc]
        exact hnew.1
    · rw [List.map_append, List.map_cons, List.map_nil, List.nodup_append]
      refine ⟨h.distinct, List.nodup_singleton _, ?_⟩
      intro k hk k' hk' heq
      rw [List.mem_singleton] at hk'
      exact hnew.2 (hk' ▸ heq ▸ hk)

theorem collected_foldl (lib : Lib) (known : List Bytes) (its : List ThreatIntel) :
    Collected lib known its (its.foldl (collect lib) (known, [])) := by
  induction its using List.reverseRecOn with
  | nil => exact ⟨by simp, by simp, by simp, by simp, List.nodup_nil⟩
  | append_singleton its it ih =>
    rw [List.foldl_append, List.foldl_cons, List.foldl_nil]
    exact ih.snoc it

section
variable {s : Syncer} {order : Visit (Item lib)} {files : List FeedFile} {items : Items lib}

theorem mem_known {k : Bytes} :
    k ∈ (order.visit items.list).map Item.key ↔ ∃ x ∈ items, x.key = k := by
  rw [List.mem_map]
  exact exists_congr fun x => and_congr_left fun _ => order.mem

theorem candidates_absent (hc : c ∈ candidates lib s order files items) : Absent items c := by
  intro x hx hkey
  exact (collected_foldl lib _ _).fresh c hc (mem_known.mpr ⟨x, hx, hkey⟩)

theorem candidates_distinct : ((candidates lib s order files items).map (canonicalKey lib)).Nodup :=
  (collected_foldl lib _ _).distinct

/-- After the scan every key delivered is stored or a candidate's. -/
theorem delivered_known (hit : it ∈ delivered lib s files) :
    (∃ x ∈ items, x.key = canonicalKey lib it) ∨
      ∃ c ∈ candidates lib s order files items, canonicalKey lib c = canonicalKey lib it := by
  have hcol := collected_foldl lib ((order.visit items.list).map Item.key) (delivered lib s files)
  rcases (hcol.seen _).mp (hcol.scanned it hit) with hknown | hcand
  · exact .inl (mem_known.mp hknown)
  · exact .inr (List.mem_map.mp hcand)

theorem candidates_eq_nil
    (h : ∀ it ∈ delivered lib s files, ∃ x ∈ items, x.key = canonicalKey lib it) :
    candidates lib s order files items = [] := by
  rw [List.eq_nil_iff_forall_not_mem]
  intro c hc
  obtain ⟨x, hx, hkey⟩ := h c ((collected_foldl lib _ _).origin c hc)
  exact candidates_absent hc x hx hkey

theorem mem_delivered :
    it ∈ delivered lib s files ↔ ∃ f ∈ allPaths s files, it ∈ readItems lib s f := by
  simp [delivered]

/-- The cleanup only takes files away. -/
theorem delivered_cleanup {pass : Pass lib}
    (h : it ∈ delivered lib s (cleanupOldFiles s pass files)) : it ∈ delivered lib s files := by
  have hsub : cleanupOldFiles s pass files ⊆ files := by
    intro f hf
    rw [cleanupOldFiles] at hf
    split at hf
    · exact hf
    · exact (List.mem_filter.mp hf).1
  obtain ⟨f, hf, hit⟩ := mem_delivered.mp h
  refine mem_delivered.mpr ⟨f, ?_, hit⟩
  simp only [allPaths, globDir, List.mem_flatMap, List.mem_append, List.mem_filter] at hf ⊢
  obtain ⟨dir, hdir, hf⟩ := hf
  refine ⟨dir, hdir, ?_⟩
  rcases hf with (⟨hf, hp⟩ | ⟨hf, hp⟩) | ⟨hf, hp⟩
  · exact .inl (.inl ⟨hsub hf, hp⟩)
  · exact .inl (.inr ⟨hsub hf, hp⟩)
  · exact .inr ⟨hsub hf, hp⟩

end

/-! ### What a pass adds -/

/-- `n` keys more, and none lost. -/
def GrowsBy (n : Nat) (before after : Items lib) : Prop :=
  ∃ added : List Bytes, added.Nodup ∧ added.length = n ∧ (∀ k ∈ added, ∀ x ∈ before, x.key ≠ k) ∧
    ∀ k, (∃ y ∈ after, y.key = k) ↔ (∃ x ∈ before, x.key = k) ∨ k ∈ added

variable (lib) in
/-- The ids of the candidates are distinct, and every stored key has an entry with another id. -/
structure Unmixed (now : Int) (uuids : Bytes → Bytes) (items : Items lib) (new : List ThreatIntel) :
    Prop where
  distinct : ∀ c ∈ new, ∀ d ∈ new, ownID lib now uuids c = ownID lib now uuids d → c = d
  kept : ∀ x ∈ items, ∃ y ∈ items, y.key = x.key ∧ ∀ c ∈ new, ownID lib now uuids c ≠ y.1.id

section
variable {now : Int} {uuids : Bytes → Bytes} {m : MergeOrder lib} {items : Items lib}
  {new : List ThreatIntel}

/-- With distinct keys the batch is the list itself. -/
theorem mem_batch_of_distinct (hkeys : (new.map (canonicalKey lib)).Nodup) :
    c ∈ batch lib new ↔ c ∈ new := by
  refine ⟨mem_of_mem_batch, fun hc => ?_⟩
  obtain ⟨b, hb, hkey⟩ : ∃ b ∈ batch lib new, canonicalKey lib b = canonicalKey lib c :=
    exists_firstNewest hc
  rw [← List.inj_on_of_nodup_map hkeys (mem_of_mem_batch hb) hc hkey]
  exact hb

section
variable (habs : ∀ c ∈ new, Absent items c)
include habs

section
variable (hkeys : (new.map (canonicalKey lib)).Nodup)
include hkeys

/-- A candidate stands in the result under its own id, if anywhere. -/
theorem id_of_candidate (hc : c ∈ new) {y : Item lib} (hy : y ∈ merged lib now uuids m new items)
    (hkey : y.key = canonicalKey lib c) : y.1.id = ownID lib now uuids c := by
  rcases mem_merged hy with ⟨hyi, _⟩ | ⟨b, hb, hkeyb, htarget⟩
  · exact absurd hkey (habs c hc y hyi)
  · have hbn := mem_of_mem_batch hb
    obtain rfl := List.inj_on_of_nodup_map hkeys hbn hc (hkeyb.symm.trans hkey)
    rw [← htarget, target_absent (habs b hbn)]

theorem Unmixed.keys (h : Unmixed lib now uuids items new) (k : Bytes) :
    (∃ y ∈ merged lib now uuids m new items, y.key = k) ↔
      (∃ x ∈ items, x.key = k) ∨ k ∈ new.map (canonicalKey lib) := by
  constructor
  · rintro ⟨y, hy, rfl⟩
    rcases mem_merged hy with ⟨hyi, _⟩ | ⟨b, hb, hkey, _⟩
    · exact .inl ⟨y, hyi, rfl⟩
    · exact .inr (List.mem_map.mpr ⟨b, mem_of_mem_batch hb, hkey.symm⟩)
  · rintro (⟨x, hx, rfl⟩ | hk)
    · obtain ⟨y, hy, hkey, hother⟩ := h.kept x hx
      refine ⟨y, mem_merged_of_mem hy ?_, hkey⟩
      intro b hb
      have hbn := mem_of_mem_batch hb
      rw [target_absent (habs b hbn)]
      exact hother b hbn
    · obtain ⟨c, hc, rfl⟩ := List.mem_map.mp hk
      have hinj : ∀ b ∈ batch lib new, ∀ d ∈ batch lib new,
          target lib now uuids m.existing items b = target lib now uuids m.existing items d →
          b = d := by
        intro b hb d hd heq
        have hbn := mem_of_mem_batch hb
        have hdn := mem_of_mem_batch hd
        rw [target_absent (habs b hbn), target_absent (habs d hdn)] at heq
        exact h.distinct b hbn d hdn heq
      have hget := get?_merged hinj ((mem_batch_of_distinct hkeys).mpr hc)
      exact ⟨_, (Catalog.get?_eq_some.mp hget).1, key_written c _⟩

theorem Unmixed.grows (h : Unmixed lib now uuids items new) :
    GrowsBy new.length items (merged lib now uuids m new items) := by
  refine ⟨new.map (canonicalKey lib), hkeys, List.length_map .., ?_, h.keys habs hkeys⟩
  intro k hk x hx hkey
  obtain ⟨c, hc, rfl⟩ := List.mem_map.mp hk
  exact habs c hc x hx hkey

theorem GrowsBy.unmixed (h : GrowsBy new.length items (merged lib now uuids m new items)) :
    Unmixed lib now uuids items new := by
  obtain ⟨added, hnodup, hlen, hfresh, hall⟩ := h
  -- the added keys are keys of candidates, and there are as many of them
  have hsub : added ⊆ new.map (canonicalKey lib) := by
    intro k hk
    obtain ⟨y, hy, rfl⟩ := (hall k).mpr (.inr hk)
    rcases mem_merged hy with ⟨hyi, _⟩ | ⟨b, hb, hkey, _⟩
    · exact absurd rfl (hfresh _ hk y hyi)
    · exact List.mem_map.mpr ⟨b, mem_of_mem_batch hb, hkey.symm⟩
  have hperm : added.Perm (new.map (canonicalKey lib)) :=
    (List.subperm_of_subset hnodup hsub).perm_of_length_le (by simp [hlen])
  have hheld : ∀ c ∈ new, ∃ y ∈ merged lib now uuids m new items, y.key = canonicalKey lib c :=
    fun c hc => (hall _).mpr (.inr (hperm.mem_iff.mpr (List.mem_map_of_mem hc)))
  constructor
  · intro c hc d hd heq
    obtain ⟨y, hy, hkeyc⟩ := hheld c hc
    obtain ⟨z, hz, hkeyd⟩ := hheld d hd
    have hid : y.1.id = z.1.id := by
      rw [id_of_candidate habs hkeys hc hy hkeyc, id_of_candidate habs hkeys hd hz hkeyd, heq]
    obtain rfl := Catalog.eq_of_key hy hz hid
    exact List.inj_on_of_nodup_map hkeys hc hd (hkeyc.symm.trans hkeyd)
  · intro x hx
    obtain ⟨y, hy, hkey⟩ := (hall x.key).mpr (.inl ⟨x, hx, rfl⟩)
    rcases mem_merged hy with ⟨hyi, hother⟩ | ⟨b, hb, hkeyb, _⟩
    · refine ⟨y, hyi, hkey, fun c hc => ?_⟩
      have htarget : target lib now uuids m.existing items c = ownID lib now uuids c :=
        target_absent (habs c hc)
      rw [← htarget]
      exact hother c ((mem_batch_of_distinct hkeys).mpr hc)
    · exact absurd (hkey.symm.trans hkeyb) (habs b (mem_of_mem_batch hb) x hx)

end

end

end

/-- What a pass without an error returns. -/
theorem syncOnce_ok {s : Syncer} {pass : Pass lib} {files files' : List FeedFile}
    {w w' : World lib} {n : Nat} (h : syncOnce s pass files w = (.ok n, w', files')) :
    n = (candidates lib s pass.listing files w.store.items).length ∧
      w'.store.items = merged lib pass.now pass.uuids pass.merge
        (candidates lib s pass.listing files w.store.items) w.store.items ∧
      files' = cleanupOldFiles s pass files := by
  rw [syncOnce] at h
  generalize candidates lib s pass.listing files w.store.items = found at h ⊢
  cases found with
  | nil =>
    cases h
    exact ⟨rfl, rfl, rfl⟩
  | cons c rest =>
    have hitems : (Write.perform pass.snapshot pass.fault w
        (.upsertDedup pass.now pass.uuids pass.merge (c :: rest))).1.store.items =
          merged lib pass.now pass.uuids pass.merge (c :: rest) w.store.items :=
      items_perform_upsertDedup _ _
    dsimp only at h
    split at h
    · cases h
    · rename_i heq
      cases h
      rw [heq] at hitems
      exact ⟨rfl, hitems, rfl⟩

/-- A pass whose every delivered key is stored changes nothing. -/
theorem syncOnce_nothing {s : Syncer} (pass : Pass lib) {files : List FeedFile} {w : World lib}
    (h : ∀ it ∈ delivered lib s files, ∃ x ∈ w.store.items, x.key = canonicalKey lib it) :
    syncOnce s pass files w = (.ok 0, w, cleanupOldFiles s pass files) := by
  rw [syncOnce, candidates_eq_nil h]

/-- A pass that returns `n` added `n` keys and lost none, and the next pass finds nothing and changes
    nothing, exactly when the candidates and the stored keys keep out of each other's way. -/
theorem syncOnce_converges_iff (s : Syncer) (pass : Pass lib) (files files' : List FeedFile)
    (w w' : World lib) (n : Nat) (h : syncOnce s pass files w = (.ok n, w', files')) :
    (GrowsBy n w.store.items w'.store.items ∧
      ∀ pass' : Pass lib, ∃ files'', syncOnce s pass' files' w' = (.ok 0, w', files'')) ↔
    Unmixed lib pass.now pass.uuids w.store.items
      (candidates lib s pass.listing files w.store.items) := by
  obtain ⟨rfl, hitems, rfl⟩ := syncOnce_ok h
  have habs : ∀ c ∈ candidates lib s pass.listing files w.store.items, Absent w.store.items c :=
    fun c hc => candidates_absent hc
  constructor
  · rintro ⟨hgrows, _⟩
    rw [hitems] at hgrows
    exact hgrows.unmixed habs candidates_distinct
  · intro hun
    refine ⟨hitems ▸ hun.grows habs candidates_distinct, fun pass' => ?_⟩
    refine ⟨_, syncOnce_nothing pass' fun it hit => ?_⟩
    rw [hitems, hun.keys habs candidates_distinct, List.mem_map]
    exact delivered_known (delivered_cleanup hit)

/-- One feed file with the given items. -/
def sampleFiles (items : List ThreatIntel) : List FeedFile :=
  [{ dir := utf8 "feed", name := utf8 "a.yaml", stat := some (false, 0),
     plain := some ⟨0, .ok items⟩, zipped := none }]

def sampleSyncer : Syncer := ⟨[utf8 "feed"], 0, 0⟩

/-- A new indicator under an id of its own. -/
def sampleDelivery : List FeedFile :=
  sampleFiles [{ id := utf8 "y", type := utf8 "domain", value := utf8 "new.example" }]

theorem syncOnce_converges_iff_distinct :
    GrowsBy 1 sampleStore.store.items
      (syncOnce sampleSyncer {} sampleDelivery sampleStore).2.1.store.items := by
  have hdistinct : ∀ c ∈ candidates sampleLib sampleSyncer .listed sampleDelivery
      sampleStore.store.items, ∀ d ∈ candidates sampleLib sampleSyncer .listed sampleDelivery
      sampleStore.store.items, ownID sampleLib 0 (fun _ => []) c = ownID sampleLib 0 (fun _ => []) d →
      c = d := by decide +kernel
  have hkept : ∀ x ∈ sampleStore.store.items.list, ∃ y ∈ sampleStore.store.items.list,
      y.key = x.key ∧ ∀ c ∈ candidates sampleLib sampleSyncer .listed sampleDelivery
      sampleStore.store.items, ownID sampleLib 0 (fun _ => []) c ≠ y.1.id := by decide +kernel
  exact ((syncOnce_converges_iff sampleSyncer {} sampleDelivery _ sampleStore _ 1
    (Prod.ext (by decide +kernel) rfl)).mpr ⟨hdistinct, hkept⟩).1

/-- Two indicators under one id: the pass counts two and keeps one, and the next pass counts the
    other. -/
theorem shared_id_never_converges :
    let files := sampleFiles
      [{ id := utf8 "x", type := utf8 "domain", value := utf8 "a.example" },
       { id := utf8 "x", type := utf8 "domain", value := utf8 "b.example" }]
    let start : World sampleLib := { store.items := Catalog.empty }
    let first := syncOnce sampleSyncer {} files start
    let second := syncOnce sampleSyncer {} files first.2.1
    first.1 = .ok 2 ∧ first.2.1.store.items.list.length = 1 ∧ second.1 = .ok 1 := by
  decide +kernel

end TaNode.Intel

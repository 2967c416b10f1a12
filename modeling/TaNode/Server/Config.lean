import Mathlib.Logic.Basic

/-! The node's configuration, and how a document that is posted to the server becomes the new one.

    A document sets some of the fields. It is decoded into an empty configuration, so a field it
    leaves out is zero, and three parts are then put back from the current one:

        storage          when all of its fields are zero
        api_key, token   when blank

    The settings page posts a list of fields of its own. What a document leaves out is kept only where
    it is put back or was zero before. -/

namespace TaNode.Server

/-! ### Fields -/

/-- The fields of the file, section by section. -/
inductive Field where
  | deviceID | managementURL | apiKey | homeNet
  | interface | pcapFile | bpfFilter | snaplen | promiscuous | workers
  | patternsEnable | patternDir
  | intelFile | reloadIntervalSec | enableHotReload | pruneExpiredIntervalSec | acceptSTIX
  | defaultSource | maxItems | iocSyncDir | iocSyncDir2 | enableIocSync | iocSyncIntervalMin
  | iocSyncRetainDays
  | enablePCAPSave | pcapDir | retainDays | hashEvidenceDir | archiveMonthly
  | enablePush | queueDB | pushBatchSize | retryIntervalSec | pushTimeoutSec | maxPushRetry
  | localHitWindowSec
  | maxFlows | idleTimeoutSec | cleanupIntervalSec
  | mode | enableTransactionLink | responseWaitSec | revisionIntervalSec | maxSessions
  | maxTransactionsPerSession | maxPacketsPerTransaction | maxReassemblyBytesPerSide
  | maxOutOfOrderBytes | storePacketIndex | saveFullSessionPCAP
  | serverEnable | listen | token
  | backend | archiveDir | archiveAfterHours | maintenanceIntervalSec | archiveBatchSize
  | highWaterBytes | lowWaterBytes | minFreeBytes | shards
  deriving DecidableEq

inductive Kind where
  | text | flag | number | texts

abbrev Kind.Value : Kind → Type
  | .text => String
  | .flag => Bool
  | .number => Int
  | .texts => List String

instance : (k : Kind) → DecidableEq k.Value
  | .text => inferInstanceAs (DecidableEq String)
  | .flag => inferInstanceAs (DecidableEq Bool)
  | .number => inferInstanceAs (DecidableEq Int)
  | .texts => inferInstanceAs (DecidableEq (List String))

def Kind.zero : (k : Kind) → k.Value
  | .text => ""
  | .flag => false
  | .number => (0 : Int)
  | .texts => []

namespace Field

/-- There are finitely many fields to look at. -/
instance {p : Field → Prop} [DecidablePred p] : Decidable (∀ f, p f) :=
  decidable_of_iff (∀ n < 62, p (ofNat n))
    ⟨fun h f => ofNat_ctorIdx f ▸ h f.ctorIdx (by cases f <;> decide), fun h n _ => h (ofNat n)⟩

abbrev kind : Field → Kind
  | homeNet => .texts
  | deviceID | managementURL | apiKey | interface | pcapFile | bpfFilter | patternDir | intelFile
  | defaultSource | iocSyncDir | iocSyncDir2 | pcapDir | queueDB | mode | listen | token | backend
  | archiveDir => .text
  | promiscuous | patternsEnable | enableHotReload | acceptSTIX | enableIocSync | enablePCAPSave
  | hashEvidenceDir | archiveMonthly | enablePush | enableTransactionLink | storePacketIndex
  | saveFullSessionPCAP | serverEnable => .flag
  | _ => .number

abbrev Value (f : Field) : Type := f.kind.Value

def zero (f : Field) : f.Value := f.kind.zero

def storage : Field → Bool
  | backend | archiveDir | archiveAfterHours | maintenanceIntervalSec | archiveBatchSize
  | highWaterBytes | lowWaterBytes | minFreeBytes | shards => true
  | _ => false

/-- The fields that are never shown. -/
def secret : Field → Bool
  | apiKey | token => true
  | _ => false

end Field

/-- A configuration as the file has it; `Runtime` is neither read from it nor written to it. -/
abbrev Config := (f : Field) → f.Value

/-- The fields a JSON document sets. -/
abbrev Document := (f : Field) → Option f.Value

/-- `Default` -/
def Config.default : Config
  | .backend => "v2"
  | .archiveAfterHours => 24
  | .maintenanceIntervalSec => 60
  | .archiveBatchSize => 100
  | .shards => 1
  | .deviceID => "node-001"
  | .managementURL => "http://127.0.0.1:8080/api/events"
  | .interface => "eth0"
  | .snaplen => 65535
  | .promiscuous => true
  | .patternDir => "./patterns"
  | .intelFile => "./configs/intel.yaml"
  | .reloadIntervalSec => 30
  | .enableHotReload => true
  | .pruneExpiredIntervalSec => 300
  | .acceptSTIX => true
  | .defaultSource => "Threat Intel Hub"
  | .maxItems => 100000
  | .iocSyncDir => "/data/yt"
  | .iocSyncDir2 => "/data/yt/ioc"
  | .enableIocSync => true
  | .iocSyncIntervalMin => 60
  | .iocSyncRetainDays => 10
  | .enablePCAPSave => true
  | .pcapDir => "./data/evidence"
  | .retainDays => 7
  | .hashEvidenceDir => true
  | .archiveMonthly => true
  | .enablePush => true
  | .queueDB => "./data/event_queue.db"
  | .pushBatchSize => 100
  | .retryIntervalSec => 30
  | .pushTimeoutSec => 5
  | .maxPushRetry => 20
  | .localHitWindowSec => 60
  | .maxFlows => 1000000
  | .idleTimeoutSec => 120
  | .cleanupIntervalSec => 30
  | .mode => "packet"
  | .responseWaitSec => 30
  | .revisionIntervalSec => 10
  | .maxSessions => 100000
  | .maxTransactionsPerSession => 16
  | .maxPacketsPerTransaction => 128
  | .maxReassemblyBytesPerSide => 262144
  | .maxOutOfOrderBytes => 65536
  | .storePacketIndex => true
  | .serverEnable => true
  | .listen => "127.0.0.1:19090"
  | f => f.zero

/-! ### Saving -/

/-- `StorageConfig.Validate` -/
def validate (c : Config) : Except String Unit := do
  if c .backend ≠ "" ∧ c .backend ≠ "v2" ∧ c .backend ≠ "legacy" then
    throw "storage.backend must be v2 or legacy"
  if c .archiveAfterHours < 0 ∨ c .maintenanceIntervalSec < 0 ∨ c .archiveBatchSize < 0 ∨
      c .archiveBatchSize > 1000 ∨ c .highWaterBytes < 0 ∨ c .lowWaterBytes < 0 then
    throw "invalid storage limit"
  if c .shards < 0 ∨ c .shards > 64 then
    throw "storage.shards must be between 0 (single file) and 64"
  if c .highWaterBytes > 0 ∧ c .lowWaterBytes ≥ c .highWaterBytes then
    throw "storage.low_water_bytes must be smaller than high_water_bytes"

/-- `Save`: what the file then holds. `disk` is the error of the file system, if there is one. -/
def save (disk : Option String) (c : Config) : Except String Config :=
  match validate c, disk with
  | .error err, _ => .error err
  | .ok _, some err => .error err
  | .ok _, none => .ok c

def decode (doc : Document) : Config := fun f => (doc f).getD f.zero

/-- What is put back from the current configuration. -/
def merge (current req : Config) : Config := fun f =>
  if f.storage then if ∀ g : Field, g.storage → req g = g.zero then current f else req f
  else if f.secret then if current f ≠ f.zero ∧ req f = f.zero then current f else req f
  else req f

def authorized (current : Config) (authorization : String) : Bool :=
  current .token = "" || authorization = "Bearer " ++ current .token

/-- A `POST`: the status and the text of an error, or the configuration that is saved. -/
def handleConfig (current : Config) (authorization : String) (body : Except String Document)
    (disk : Option String) : Except (Nat × String) Config := do
  unless authorized current authorization do throw (401, "unauthorized")
  let doc ← body.mapError (400, ·)
  (save disk (merge current (decode doc))).mapError (500, ·)

/-- A `GET`, without the secrets. -/
def shown (current : Config) : Config := fun f => if f.secret then f.zero else current f

/-- The fields of the settings page. -/
def ids : List Field :=
  [.deviceID, .managementURL, .apiKey,
    .interface, .pcapFile, .bpfFilter, .snaplen, .promiscuous,
    .patternsEnable, .patternDir,
    .intelFile, .reloadIntervalSec, .enableHotReload, .pruneExpiredIntervalSec, .acceptSTIX,
    .defaultSource, .maxItems, .enableIocSync, .iocSyncDir, .iocSyncDir2, .iocSyncIntervalMin,
    .iocSyncRetainDays,
    .enablePCAPSave, .pcapDir,
    .backend, .archiveDir, .archiveAfterHours, .maintenanceIntervalSec, .archiveBatchSize,
    .highWaterBytes, .lowWaterBytes, .minFreeBytes,
    .enablePush, .queueDB, .pushBatchSize, .retryIntervalSec, .pushTimeoutSec, .maxPushRetry,
    .localHitWindowSec,
    .maxFlows, .idleTimeoutSec, .cleanupIntervalSec,
    .mode, .enableTransactionLink, .responseWaitSec, .maxSessions, .maxTransactionsPerSession,
    .maxPacketsPerTransaction, .maxReassemblyBytesPerSide, .maxOutOfOrderBytes, .storePacketIndex,
    .saveFullSessionPCAP,
    .serverEnable, .listen, .token]

/-- The document the page posts with what its inputs hold. -/
def collectConfig (inputs : Config) : Document := fun f => if f ∈ ids then some (inputs f) else none

/-! ### What is kept -/

/-- The configuration a document asks for: what it sets, and the current value of what it does not. A
    blank secret is not set. -/
def wanted (current : Config) (doc : Document) : Config := fun f =>
  match doc f with
  | none => current f
  | some v => if f.secret ∧ v = f.zero then current f else v

/-- The field is put back from the current configuration. -/
def Restored (doc : Document) (f : Field) : Prop :=
  f.storage ∧ ∀ g : Field, g.storage → decode doc g = g.zero

instance (doc : Document) (f : Field) : Decidable (Restored doc f) :=
  inferInstanceAs (Decidable (_ ∧ _))

/-- A field without a value in the current configuration has nothing to lose. Any other is set by the
    document, or put back, and not both. -/
def Keeps (current : Config) (doc : Document) : Prop :=
  ∀ f : Field, f.secret ∨ current f = f.zero ∨ ((doc f).isSome ↔ ¬ Restored doc f)

instance (current : Config) (doc : Document) : Decidable (Keeps current doc) :=
  inferInstanceAs (Decidable (∀ _ : Field, _))

theorem save_ok {disk : Option String} {c saved : Config} :
    save disk c = .ok saved ↔ validate c = .ok () ∧ disk = none ∧ saved = c := by
  unfold save
  cases validate c with
  | error err => simp
  | ok u =>
    cases disk with
    | some err => simp
    | none => simp [eq_comm]

theorem handleConfig_ok {current saved : Config} {authorization : String} {doc : Document}
    {disk : Option String} : handleConfig current authorization (.ok doc) disk = .ok saved ↔
      authorized current authorization = true ∧
        save disk (merge current (decode doc)) = .ok saved := by
  rw [handleConfig]
  cases authorized current authorization with
  | false => exact iff_of_false (fun h => by cases h) fun h => Bool.false_ne_true h.1
  | true =>
    change (save disk (merge current (decode doc))).mapError _ = .ok saved ↔ _
    cases save disk (merge current (decode doc)) with
    | error err => exact iff_of_false (fun h => by cases h) fun h => by cases h.2
    | ok c =>
      exact ⟨fun h => ⟨rfl, congrArg _ (Except.ok.inj h)⟩, fun h => congrArg _ (Except.ok.inj h.2)⟩

section
variable {current : Config} {doc : Document} {f : Field}

theorem merge_restored (h : Restored doc f) : merge current (decode doc) f = current f := by
  rw [merge, if_pos h.1, if_pos h.2]

theorem merge_plain (h : ¬ Restored doc f) (hf : ¬ f.secret) :
    merge current (decode doc) f = decode doc f := by
  rw [merge, if_neg hf]
  split
  · next hstorage => exact if_neg fun hall => h ⟨hstorage, hall⟩
  · rfl

theorem merge_secret (hf : f.secret) : merge current (decode doc) f = wanted current doc f := by
  have hstorage : ¬ f.storage := by
    cases f <;> first | exact Bool.false_ne_true | cases hf
  rw [merge, if_neg hstorage, if_pos hf, wanted, decode]
  cases doc f with
  | none =>
    by_cases hzero : current f = f.zero
    · simp [hzero]
    · simp [hzero]
  | some v =>
    by_cases hzero : current f = f.zero
    · by_cases hv : v = f.zero
      · simp [hzero, hv]
      · simp [hzero, hv]
    · simp [hzero, hf]

theorem wanted_plain (hf : ¬ f.secret) : wanted current doc f = (doc f).getD (current f) := by
  rw [wanted]
  cases doc f with
  | none => rfl
  | some v => simp [hf]

/-- A value that is set in a section that is put back is zero. -/
theorem Restored.eq_zero (h : Restored doc f) {v : f.Value} (hv : doc f = some v) : v = f.zero := by
  have hzero := h.2 f h.1
  rwa [decode, hv] at hzero

/-- One field is saved as it is asked for. -/
theorem merge_eq_wanted_iff : merge current (decode doc) f = wanted current doc f ↔
    f.secret ∨ current f = f.zero ∨ ((doc f).isSome ↔ ¬ Restored doc f) := by
  by_cases hf : f.secret
  · exact iff_of_true (merge_secret hf) (.inl hf)
  rw [wanted_plain hf]
  by_cases hr : Restored doc f
  · rw [merge_restored hr]
    cases hv : doc f with
    | none => simp [hr]
    | some v => simp [hf, hr, hr.eq_zero hv]
  · rw [merge_plain hr hf, decode]
    cases hv : doc f with
    | none => simp [hf, hr, eq_comm]
    | some v => simp [hr]

end

/-- **A saved document.** The configuration that is saved is the one the document asks for exactly
    when the document keeps what it does not set. -/
theorem saved_as_wanted_iff {current saved : Config} {authorization : String} {doc : Document}
    {disk : Option String} (h : handleConfig current authorization (.ok doc) disk = .ok saved) :
    (∀ f, saved f = wanted current doc f) ↔ Keeps current doc := by
  obtain ⟨-, -, hsaved⟩ := save_ok.mp (handleConfig_ok.mp h).2
  subst hsaved
  exact forall_congr' fun f => merge_eq_wanted_iff

/-- A document that sets everything is saved as it is. -/
theorem full_document_saved :
    handleConfig Config.default "" (.ok fun f => some (Config.default f)) none = .ok Config.default ∧
      ∀ f, Config.default f = wanted Config.default (fun f => some (Config.default f)) f := by
  have h : handleConfig Config.default "" (.ok fun f => some (Config.default f)) none =
      .ok Config.default :=
    handleConfig_ok.mpr ⟨rfl, save_ok.mpr ⟨rfl, rfl, funext (by decide +kernel)⟩⟩
  exact ⟨h, (saved_as_wanted_iff h).mpr (by decide +kernel)⟩

/-- The page, posted without an edit on the default configuration, resets what it has no input for. -/
theorem unedited_page_resets : ∃ saved, handleConfig Config.default ""
      (.ok (collectConfig (shown Config.default))) none = .ok saved ∧
    (∀ f, saved f ≠ wanted Config.default (collectConfig (shown Config.default)) f ↔
      f ∈ [.retainDays, .hashEvidenceDir, .archiveMonthly,
        .revisionIntervalSec, .shards]) := by
  refine ⟨merge Config.default (decode (collectConfig (shown Config.default))), ?_, by decide +kernel⟩
  exact handleConfig_ok.mpr ⟨rfl, save_ok.mpr ⟨rfl, rfl, rfl⟩⟩

end TaNode.Server

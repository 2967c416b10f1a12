import TaNode.Queue.Migrate
import TaNode.Queue.OnePlace
import TaNode.Schemes.Text

/-! The migration is exact and resumable.

    `At` says what the destination looks like at each stage of an uninterrupted call: the metadata
    names the stage, and the rows are exactly those the cursors have passed. The metadata is enough
    for a restarted call to get back to the stage (`catchesUp`). After the last transaction the
    destination is `Migrated`, and another call finds nothing to copy. -/

namespace TaNode.Queue
variable {C : Codec} {m : Frozen C}
variable {q : EventQueue} {e : (_ : Int) × Row} {cursor n fc : Int} {row : Row} {i c : Nat}
  {key : String} {db origin db' f d₀ : Db} {l l' : MigrateStage}

/-! ### Reading the files -/

instance : Std.Total fun a b : (_ : Int) × Row => a.1 ≤ b.1 := ⟨fun a b => le_total a.1 b.1⟩

instance : IsTrans ((_ : Int) × Row) fun a b => a.1 ≤ b.1 := ⟨fun _ _ _ => le_trans⟩

theorem mem_select_all : e ∈ q.select (fun _ => true) ↔ q.rows.lookup e.1 = some e.2 := by
  unfold EventQueue.select
  rw [(List.perm_insertionSort _ _).mem_iff, Table.lookup_eq_some_iff]
  simp

/-- The next row is the first one behind the cursor. -/
theorem nextRow_some (h : nextRow q cursor = some e) : q.rows.lookup e.1 = some e.2 ∧ cursor < e.1 ∧
      ∀ id row, q.rows.lookup id = some row → cursor < id → e.1 ≤ id := by
  have hsorted : (q.select fun _ => true).Pairwise fun a b => a.1 ≤ b.1 :=
    List.pairwise_insertionSort _ _
  obtain ⟨he, before, after, hsplit, hbefore⟩ := List.find?_eq_some_iff_append.mp h
  refine ⟨mem_select_all.mp (List.mem_of_find?_eq_some h), by simpa using he,
    fun id row hrow hlt => ?_⟩
  have hmem : (⟨id, row⟩ : (_ : Int) × Row) ∈ q.select fun _ => true := mem_select_all.mpr hrow
  rw [hsplit] at hmem hsorted
  rcases List.mem_append.mp hmem with hmem | hmem
  · have := hbefore _ hmem
    simp only [Bool.not_eq_true', decide_eq_false_iff_not] at this
    omega
  · rcases List.mem_cons.mp hmem with heq | hmem
    · rw [← heq]
    · exact (List.pairwise_cons.mp (List.pairwise_append.mp hsorted).2.1).1 _ hmem

variable {id : Int} {copied' copied : Nat → Int → Prop}

theorem nextRow_none (h : nextRow q cursor = none) (hrow : q.rows.lookup id = some row) :
    id ≤ cursor := by
  have := List.find?_eq_none.mp h ⟨id, row⟩ (mem_select_all.mpr hrow)
  simpa using this

/-! ### Metadata -/

theorem toList_toString_natCast (k : Nat) : (toString (k : Int)).toList = Nat.toDigits 10 k := by
  rw [show toString (k : Int) = toString k from rfl, toList_toString]

theorem parseDigits_toDigits (k : Nat) : parseDigits (Nat.toDigits 10 k) = some (k : Int) := by
  have hall : (Nat.toDigits 10 k).all Char.isDigit = true :=
    List.all_eq_true.mpr fun c hc => Nat.isDigit_of_mem_toDigits (by decide) (by decide) hc
  have hne : (Nat.toDigits 10 k).isEmpty = false := by
    rw [List.isEmpty_eq_false_iff]; exact Nat.toDigits_ne_nil
  unfold parseDigits
  rw [hall, hne, Nat.ofDigitChars_toDigits (by decide) (by decide)]
  rfl

/-- A cursor is read back as it was written. -/
theorem parseInt_toString (h : 0 ≤ n) (hmax : n ≤ EventQueue.maxRowId) :
    parseInt (toString n) = some n := by
  obtain ⟨k, rfl⟩ := Int.eq_ofNat_of_zero_le h
  have hdigit : ∀ c ∈ Nat.toDigits 10 k, c.isDigit = true := fun c hc =>
    Nat.isDigit_of_mem_toDigits (by decide) (by decide) hc
  have hfilter : (some (k : Int)).filter (fun n => -2 ^ 63 ≤ n && n < 2 ^ 63) = some (k : Int) := by
    unfold EventQueue.maxRowId at hmax
    rw [Option.filter_some, if_pos]
    simp only [Bool.and_eq_true, decide_eq_true_eq]
    omega
  unfold parseInt
  rw [toList_toString_natCast]
  split
  · next ds hds => exact absurd (hdigit '+' (by rw [hds]; simp)) (by decide)
  · next ds hds => exact absurd (hdigit '-' (by rw [hds]; simp)) (by decide)
  · rw [parseDigits_toDigits]; exact hfilter

/-- A cursor is not mistaken for the mark. -/
theorem toString_ne_complete (h : 0 ≤ n) : toString n ≠ "complete" := by
  obtain ⟨k, rfl⟩ := Int.eq_ofNat_of_zero_le h
  intro he
  have hc : 'c' ∈ Nat.toDigits 10 k := by rw [← toList_toString_natCast, he]; decide
  exact absurd (Nat.isDigit_of_mem_toDigits (by decide) (by decide) hc) (by decide)

theorem cursorKey_inj {j : Nat} (h : cursorKey i = cursorKey j) : i = j := by
  have h := congrArg String.toList ((String.append_right_inj _).mp h)
  exact toString_inj h

/-- The cursors of files are kept apart from the other keys. -/
theorem cursorKey_ne (hkey : key.toList.take 11 ≠ "migration_f".toList) (i : Nat) :
    cursorKey i ≠ key := by
  rintro rfl
  refine hkey ?_
  unfold cursorKey
  rw [String.toList_append, List.take_append_of_le_length (by decide)]
  decide

theorem lookup_setMeta (db : Db) (key value key' : String) :
    (db.setMeta key value).metadata.lookup key' =
      if key' = key then some value else db.metadata.lookup key' := by
  unfold Db.setMeta
  split_ifs with h
  · rw [h]; exact AList.lookup_insert _
  · exact AList.lookup_insert_ne h

theorem intact_setMeta (h : Intact C db) (key value : String) :
    Intact C (db.setMeta key value) := ⟨h.closed, h.rooted, h.root_has⟩

/-! ### One row -/

/-- A row of a file and its copy in the destination: the same columns, with `NULL` read as the
    queue reads it, and payloads that decode to the same JSON value. -/
structure SameRow (C : Codec) (origin db : Db) (id : Int) (row row' : Row) : Prop where
  columns : { scanRecord id row' with payload := [] } = { scanRecord id row with payload := [] }
  payload : ∃ original restored,
    decodePayload C origin.content.objects row.payload = .ok original ∧
    decodePayload C db.content.objects row'.payload = .ok restored ∧
    jsonEqual C original restored = true

theorem SameRow.mono {row' : Row} (h : SameRow C origin db id row row')
    (hsub : Table.Sub db.content.objects db'.content.objects) :
    SameRow C origin db' id row row' := by
  obtain ⟨original, restored, ho, hr, he⟩ := h.payload
  exact ⟨h.columns, original, restored, ho, decodePayload_mono hsub hr, he⟩

/-- What the transaction of one row does. -/
structure RowMigrated (C : Codec) (origin db : Db) (key : String) (id : Int) (row : Row) (db' : Db) :
    Prop where
  intact : Intact C db'
  sub : Table.Sub db.content.objects db'.content.objects
  free : db.events.rows.lookup id = none
  rows : ∃ row', db'.events.rows = db.events.rows.insert id row' ∧ SameRow C origin db' id row row'
  metadata : ∀ key', db'.metadata.lookup key' =
    if key' = key then some (toString id) else db.metadata.lookup key'

theorem migratePayload_ok (hC : C.Lawful) {backend : Backend} {payload original payload' : Bytes}
    (horigin : Intact C origin) (hdb : Intact C db)
    (h : migratePayload C backend origin payload original db = .ok (payload', db')) :
    Intact C db' ∧ Table.Sub db.content.objects db'.content.objects ∧
      db' = { db with content := db'.content } := by
  unfold migratePayload at h
  cases backend with
  | legacy =>
    obtain ⟨-, rfl⟩ := Tx.pure_ok.mp h
    exact ⟨hdb, Table.Sub.refl _, rfl⟩
  | v2 =>
    obtain ⟨⟨p, content⟩, hcopy, h⟩ := except_bind_ok.mp h
    rw [except_pure_ok, Prod.mk.injEq] at h
    obtain ⟨rfl, rfl⟩ := h
    have hstored := copyPayload_stored hC horigin.closed hdb.closed hcopy
    exact ⟨intact_content hdb hstored.closed hstored.sub, hstored.sub, rfl⟩

theorem migrateRow_ok (hC : C.Lawful) {backend : Backend} {u : Unit} (horigin : Intact C origin)
    (hdb : Intact C db) (h : migrateRow C backend origin key (scanRecord id row) db = .ok (u, db')) :
    RowMigrated C origin db key id row db' := by
  unfold migrateRow at h
  obtain ⟨original, horig, h⟩ := Tx.lift_bind_ok.mp h
  obtain ⟨payload, db₁, hpay, h⟩ := Tx.bind_ok.mp h
  rw [Tx.get_bind_ok] at h
  obtain ⟨restored, hrest, h⟩ := Tx.lift_bind_ok.mp h
  split_ifs at h with heq
  · simp at h
  obtain ⟨⟨⟩, db₂, hins, h⟩ := Tx.bind_ok.mp h
  rw [Tx.modify_ok] at h
  subst h
  obtain ⟨hdb₁, hsub, hcontent⟩ := migratePayload_ok hC horigin hdb hpay
  have hdb₂ := intact_insertRecord hdb₁ hins
  obtain ⟨q, out, root, summary, hq, -, -, -, rfl⟩ := insertRecord_ok hins
  obtain ⟨-, hfree, hrows, -⟩ := insertWithId_ok hq
  rw [hcontent] at hfree hrows
  refine ⟨intact_setMeta hdb₂ _ _, hsub, hfree, ⟨_, hrows, rfl, original, restored, horig, hrest,
    by simpa using heq⟩, fun key' => ?_⟩
  rw [lookup_setMeta]
  show (if key' = key then _ else db₁.metadata.lookup key') = _
  rw [hcontent]
  rfl

/-! ### All rows -/

/-- The destination holds exactly the rows of the files that `copied` picks, each one once. -/
structure Copies (m : Frozen C) (db : Db) (copied : Nat → Int → Prop) : Prop where
  sound : ∀ id row', db.events.rows.lookup id = some row' → ∃ i f row, m.files[i]? = some f ∧
    f.events.rows.lookup id = some row ∧ copied i id ∧ SameRow C f db id row row'
  complete : ∀ i f id row, m.files[i]? = some f → f.events.rows.lookup id = some row →
    copied i id → ∃ row', db.events.rows.lookup id = some row' ∧ SameRow C f db id row row'
  once : ∀ i j f g id r r', m.files[i]? = some f → m.files[j]? = some g →
    f.events.rows.lookup id = some r → g.events.rows.lookup id = some r' →
    copied i id → copied j id → i = j

theorem Copies.congr (h : Copies m db copied) (hevents : db'.events.rows = db.events.rows)
    (hcontent : db'.content = db.content)
    (hsame : ∀ i f id row, m.files[i]? = some f → f.events.rows.lookup id = some row → (copied' i id ↔ copied i id)) :
    Copies m db' copied' := by
  have hmono : ∀ {f id row row'}, SameRow C f db id row row' → SameRow C f db' id row row' :=
    fun hs => hs.mono (by rw [hcontent]; exact Table.Sub.refl _)
  refine ⟨fun id row' hrow => ?_, fun i f id row hf hrow hc => ?_,
    fun i j f g id r r' hf hg hr hr' hi hj => ?_⟩
  · rw [hevents] at hrow
    obtain ⟨i, f, row, hf, hrow, hc, hs⟩ := h.sound id row' hrow
    exact ⟨i, f, row, hf, hrow, (hsame i f id row hf hrow).mpr hc, hmono hs⟩
  · obtain ⟨row', hrow', hs⟩ := h.complete i f id row hf hrow ((hsame i f id row hf hrow).mp hc)
    exact ⟨row', by rw [hevents]; exact hrow', hmono hs⟩
  · exact h.once i j f g id r r' hf hg hr hr' ((hsame i f id r hf hr).mp hi)
      ((hsame j g id r' hg hr').mp hj)

/-- One more row: `copied'` picks the row `id` of file `i` on top of what `copied` picks. -/
theorem Copies.insert (h : Copies m db copied) (hf : m.files[i]? = some f)
    (hrow : f.events.rows.lookup id = some row) (hm : RowMigrated C f db key id row db')
    (hsame : ∀ j g id' row', m.files[j]? = some g → g.events.rows.lookup id' = some row' → (copied' j id' ↔ copied j id' ∨ (j = i ∧ id' = id))) :
    Copies m db' copied' := by
  obtain ⟨new, hrows, hnew⟩ := hm.rows
  have hlookup : ∀ k r, db'.events.rows.lookup k = some r ↔
      (k = id ∧ r = new) ∨ (k ≠ id ∧ db.events.rows.lookup k = some r) := by
    intro k r; rw [hrows]; exact Table.lookup_insert_iff
  -- no file that has been copied up to here has a row with this id
  have hfresh : ∀ j g r, m.files[j]? = some g → g.events.rows.lookup id = some r → ¬copied j id := by
    intro j g r hg hr hc
    obtain ⟨r', hr', -⟩ := h.complete j g id r hg hr hc
    rw [hm.free] at hr'
    simp at hr'
  refine ⟨fun k r hk => ?_, fun j g k r hg hr hc => ?_,
    fun j j' g g' k r r' hg hg' hr hr' hc hc' => ?_⟩
  · rcases (hlookup k r).mp hk with ⟨rfl, rfl⟩ | ⟨-, hk⟩
    · exact ⟨i, f, row, hf, hrow, (hsame i f k row hf hrow).mpr (Or.inr ⟨rfl, rfl⟩), hnew⟩
    · obtain ⟨j, g, r₀, hg, hr₀, hc, hs⟩ := h.sound k r hk
      exact ⟨j, g, r₀, hg, hr₀, (hsame j g k r₀ hg hr₀).mpr (Or.inl hc), hs.mono hm.sub⟩
  · rcases (hsame j g k r hg hr).mp hc with hc | ⟨rfl, rfl⟩
    · obtain ⟨r', hr', hs⟩ := h.complete j g k r hg hr hc
      refine ⟨r', (hlookup k r').mpr (Or.inr ⟨?_, hr'⟩), hs.mono hm.sub⟩
      rintro rfl
      exact hfresh j g r hg hr hc
    · rw [hf, Option.some.injEq] at hg
      subst hg
      rw [hrow, Option.some.injEq] at hr
      subst hr
      exact ⟨new, (hlookup k new).mpr (Or.inl ⟨rfl, rfl⟩), hnew⟩
  · rcases (hsame j g k r hg hr).mp hc with hc | ⟨hj, hk⟩
    · rcases (hsame j' g' k r' hg' hr').mp hc' with hc' | ⟨-, rfl⟩
      · exact h.once j j' g g' k r r' hg hg' hr hr' hc hc'
      · exact absurd hc (hfresh j g r hg hr)
    · rcases (hsame j' g' k r' hg' hr').mp hc' with hc' | ⟨hj', -⟩
      · subst hk
        exact absurd hc' (hfresh j' g' r' hg' hr')
      · rw [hj, hj']

/-! ### The stages of one call -/

namespace MigrateStage

/-- The file a stage is at. -/
def index (n : Nat) : MigrateStage → Nat
  | .start | .opened => 0
  | .file _ i | .row _ i _ => i
  | .tail _ | .last => n

/-- The last id copied from that file; ids are positive. -/
def bound : MigrateStage → Int
  | .row _ _ fileCursor => fileCursor
  | _ => 0

/-- The resume floor a stage carries. -/
def floor : MigrateStage → Int
  | .file cursor _ | .row cursor _ _ | .tail cursor => cursor
  | _ => 0

end MigrateStage

/-- What has been copied at a stage. -/
def Frozen.Copied (m : Frozen C) (l : MigrateStage) (i : Nat) (id : Int) : Prop :=
  i < l.index m.files.length ∨ (i = l.index m.files.length ∧ id ≤ l.bound)

/-- The migration is recorded in the destination. -/
structure Recorded (m : Frozen C) (db : Db) : Prop where
  source : db.metadata.lookup "migration_source" = some m.fingerprint
  backend : db.metadata.lookup "migration_backend" = some m.backend.text
  cursor : db.metadata.lookup "migration_cursor" = some "0"

/-- The destination at a stage of an uninterrupted call, once the source is recorded. -/
structure At (m : Frozen C) (l : MigrateStage) (db : Db) : Prop where
  intact : Intact C db
  recorded : Recorded m db
  complete : db.metadata.lookup "migration_complete" = none
  activated : db.metadata.lookup "migration_activated" = none
  marks : ∀ i, db.metadata.lookup (cursorKey i) =
    if i < l.index m.files.length then some "complete"
    else if i = l.index m.files.length ∧ 0 < l.bound then some (toString l.bound) else none
  floor : l.floor = 0
  bound : 0 ≤ l.bound ∧ l.bound ≤ EventQueue.maxRowId
  index_le : l.index m.files.length ≤ m.files.length
  row_lt : ∀ c i fc, l = .row c i fc → i < m.files.length
  copies : Copies m db (m.Copied l)
  seq : l = .last → m.source.events.seq ≤ db.events.seq

theorem Frozen.mem_files (h : m.files[i]? = some f) :
    f ∈ m.source :: m.segments := List.mem_of_getElem? h

theorem Frozen.id_range (hf : m.files[i]? = some f) (hrow : f.events.rows.lookup id = some row) :
    0 < id ∧ id ≤ EventQueue.maxRowId :=
  m.ids f (m.mem_files hf) id row hrow

theorem zero_bound : (0 : Int) ≤ 0 ∧ (0 : Int) ≤ EventQueue.maxRowId := by decide

theorem readCursor_ok (h : Recorded m db) : m.readCursor db = .ok 0 := by
  unfold Frozen.readCursor
  rw [h.backend, h.cursor]
  simp [show parseInt "0" = some 0 from by decide +kernel]

theorem openDestination_recorded (h : Recorded m db)
    (hact : db.metadata.lookup "migration_activated" = none) : m.openDestination db = .ok db := by
  unfold Frozen.openDestination
  rw [hact, h.source]
  simp

/-- The first call records its source. -/
theorem at_opened (hdb : Fresh C db) (h : m.openDestination db = .ok db') : At m .opened db' := by
  unfold Frozen.openDestination at h
  rw [hdb.activated, hdb.source, hdb.backend, hdb.cursor] at h
  simp only [Option.isSome_none, Bool.false_eq_true, if_false, or_self, ite_not] at h
  split_ifs at h with hempty
  cases h
  have hrows : ∀ id row, db.events.rows.lookup id ≠ some row := by
    intro id row hrow
    have := Table.lookup_eq_some_iff.mp hrow
    rw [List.length_eq_zero_iff] at hempty
    rw [hempty] at this
    simp at this
  have hnone : ∀ i f id row, m.files[i]? = some f → f.events.rows.lookup id = some row →
      ¬m.Copied .opened i id := by
    intro i f id row hf hrow
    have := (m.id_range hf hrow).1
    simp only [Frozen.Copied, MigrateStage.index, MigrateStage.bound]
    omega
  have hkeys : ∀ i, cursorKey i ≠ "migration_source" ∧ cursorKey i ≠ "migration_backend" ∧
      cursorKey i ≠ "migration_cursor" := fun i =>
    ⟨cursorKey_ne (by decide) i, cursorKey_ne (by decide) i, cursorKey_ne (by decide) i⟩
  refine ⟨intact_setMeta (intact_setMeta (intact_setMeta hdb.intact _ _) _ _) _ _, ⟨?_, ?_, ?_⟩, ?_,
    ?_, fun i => ?_, rfl, zero_bound, Nat.zero_le _, by simp, ?_, by simp⟩
  · simp [lookup_setMeta]
  · simp [lookup_setMeta]
  · simp [lookup_setMeta]
  · simp [lookup_setMeta, hdb.complete]
  · simp [lookup_setMeta, hdb.activated]
  · obtain ⟨h1, h2, h3⟩ := hkeys i
    simp [lookup_setMeta, h1, h2, h3, hdb.files, MigrateStage.index, MigrateStage.bound]
  · refine ⟨fun id row hrow => absurd hrow (hrows id row), fun i f id row hf hrow hc => ?_,
      fun i j f g id r r' hf hg hr hr' hc hc' => ?_⟩
    · exact absurd hc (hnone i f id row hf hrow)
    · exact absurd hc (hnone i f id r hf hr)

section
variable (h : At m (.row 0 i fc) db)
include h

/-- A mark on the file of a stage moves the metadata on, and nothing else. -/
theorem at_setMark {value : String}
    (hmeta : ∀ key, db'.metadata.lookup key = if key = cursorKey i then some value else db.metadata.lookup key) :
    Recorded m db' ∧ db'.metadata.lookup "migration_complete" = none ∧
      db'.metadata.lookup "migration_activated" = none ∧
      ∀ j, db'.metadata.lookup (cursorKey j) =
        if j = i then some value else if j < i then some "complete" else none := by
  have hother : ∀ key : String, key.toList.take 11 ≠ "migration_f".toList →
      db'.metadata.lookup key = db.metadata.lookup key := by
    intro key hkey
    rw [hmeta, if_neg (cursorKey_ne hkey _).symm]
  refine ⟨⟨?_, ?_, ?_⟩, ?_, ?_, fun j => ?_⟩
  · rw [hother _ (by decide)]; exact h.recorded.source
  · rw [hother _ (by decide)]; exact h.recorded.backend
  · rw [hother _ (by decide)]; exact h.recorded.cursor
  · rw [hother _ (by decide)]; exact h.complete
  · rw [hother _ (by decide)]; exact h.activated
  · rw [hmeta]
    by_cases hj : j = i
    · rw [if_pos hj, hj, if_pos rfl]
    · rw [if_neg hj, if_neg fun hk => hj (cursorKey_inj hk), h.marks j]
      simp only [MigrateStage.index, hj, false_and, if_false]

/-- A row of the file `i` is copied. -/
theorem at_row (hf : m.files[i]? = some f) (hnext : nextRow f.events fc = some e)
    (hm : RowMigrated C f db (cursorKey i) e.1 e.2 db') : At m (.row 0 i e.1) db' := by
  obtain ⟨hrow, hlt, hmin⟩ := nextRow_some hnext
  have hfc : 0 ≤ fc := h.bound.1
  have hmax := (m.id_range hf hrow).2
  obtain ⟨hrec, hcomp, hact, hmarks⟩ := at_setMark h hm.metadata
  refine ⟨hm.intact, hrec, hcomp, hact, fun j => ?_, rfl, ?_, h.index_le, ?_, ?_, by simp⟩
  · rw [hmarks j]
    simp only [MigrateStage.index, MigrateStage.bound]
    by_cases hj : j = i
    · subst hj
      simp [show (0 : Int) < e.1 by omega]
    · simp [hj]
  · show 0 ≤ e.1 ∧ e.1 ≤ _
    exact ⟨by omega, hmax⟩
  · rintro c j fc' hl
    cases hl
    exact h.row_lt _ _ _ rfl
  · refine h.copies.insert hf hrow hm fun j g id' row' hg hrow' => ?_
    simp only [Frozen.Copied, MigrateStage.index, MigrateStage.bound]
    constructor
    · rintro (hj | ⟨rfl, hid⟩)
      · exact Or.inl (Or.inl hj)
      · rw [hf, Option.some.injEq] at hg
        subst hg
        by_cases hle : id' ≤ fc
        · exact Or.inl (Or.inr ⟨rfl, hle⟩)
        · exact Or.inr ⟨rfl, le_antisymm hid (hmin id' row' hrow' (by omega))⟩
    · rintro ((hj | ⟨rfl, hid⟩) | ⟨rfl, rfl⟩)
      · exact Or.inl hj
      · exact Or.inr ⟨rfl, by omega⟩
      · exact Or.inr ⟨rfl, le_rfl⟩

/-- The file `i` is complete. -/
theorem at_complete (hf : m.files[i]? = some f) (hnext : nextRow f.events fc = none) :
    At m (.file 0 (i + 1)) (db.setMeta (cursorKey i) "complete") := by
  obtain ⟨hrec, hcomp, hact, hmarks⟩ := at_setMark h (lookup_setMeta db (cursorKey i) "complete")
  have hi := h.row_lt _ _ _ rfl
  refine ⟨intact_setMeta h.intact _ _, hrec, hcomp, hact, fun j => ?_, rfl, zero_bound, hi, by simp,
    ?_, by simp⟩
  · rw [hmarks j]
    simp only [MigrateStage.index, MigrateStage.bound]
    by_cases hj : j = i
    · simp [hj]
    · simp [hj, show (j < i + 1) ↔ j < i by omega]
  · refine h.copies.congr rfl rfl fun j g id row hg hrow => ?_
    have hpos := (m.id_range hg hrow).1
    simp only [Frozen.Copied, MigrateStage.index, MigrateStage.bound]
    constructor
    · rintro (hj | ⟨-, hid⟩)
      · by_cases he : j = i
        · subst he
          rw [hf, Option.some.injEq] at hg
          subst hg
          exact Or.inr ⟨rfl, nextRow_none hnext hrow⟩
        · omega
      · omega
    · omega

end

/-- A stage that changes nothing in the destination. -/
theorem At.move (h : At m l db) (hindex : l'.index m.files.length = l.index m.files.length)
    (hbound : l'.bound = l.bound) (hfloor : l'.floor = 0)
    (hrow : ∀ c i fc, l' = .row c i fc → i < m.files.length)
    (hlast : l' = .last → m.source.events.seq ≤ db.events.seq) : At m l' db := by
  refine ⟨h.intact, h.recorded, h.complete, h.activated, fun i => ?_, hfloor, hbound ▸ h.bound,
    hindex ▸ h.index_le, hrow, ?_, hlast⟩
  · rw [hindex, hbound]; exact h.marks i
  · unfold Frozen.Copied
    rw [hindex, hbound]
    exact h.copies

theorem at_last (h : At m (.tail 0) db) (hrows : q.rows = db.events.rows)
    (hseq : m.source.events.seq ≤ q.seq) : At m .last { db with events := q } := by
  obtain ⟨hsrc, hback, hcur⟩ := h.recorded
  refine ⟨⟨h.intact.closed, fun id row root hrow => ?_, h.intact.root_has⟩, ⟨hsrc, hback, hcur⟩,
    h.complete, h.activated, h.marks, rfl, zero_bound, le_rfl, by simp, ?_, fun _ => hseq⟩
  · rw [show q.rows.lookup id = _ from congrArg _ hrows] at hrow
    exact h.intact.rooted id row root hrow
  · exact h.copies.congr hrows rfl fun _ _ _ _ _ _ => Iff.rfl

/-- One step of an uninterrupted call. -/
theorem at_tick (hC : C.Lawful) {n : Nat} (hl : l ≠ .start) (h : At m l db)
    (ht : m.tick l db = .ok (.go l' db' n)) : l' ≠ .start ∧ At m l' db' := by
  cases l with
  | start => exact absurd rfl hl
  | opened =>
    simp only [Frozen.tick, readCursor_ok h.recorded] at ht
    cases ht
    exact ⟨by simp, h.move rfl rfl rfl (by simp) (by simp)⟩
  | file cursor i =>
    obtain rfl : cursor = 0 := h.floor
    have hmark : db.metadata.lookup (cursorKey i) = none := by
      rw [h.marks i]; simp [MigrateStage.index, MigrateStage.bound]
    have hle : i ≤ m.files.length := h.index_le
    simp only [Frozen.tick, hmark] at ht
    split_ifs at ht with hi
    · cases ht
      refine ⟨by simp, h.move rfl rfl rfl ?_ (by simp)⟩
      rintro c j fc hrow
      cases hrow
      exact hi
    · cases ht
      exact ⟨by simp, h.move (le_antisymm (not_lt.mp hi) hle) rfl rfl (by simp) (by simp)⟩
  | row cursor i fc =>
    obtain rfl : cursor = 0 := h.floor
    simp only [Frozen.tick] at ht
    cases hf : m.files[i]? with
    | none => rw [hf] at ht; simp at ht
    | some f =>
      rw [hf] at ht
      cases hnext : nextRow f.events fc with
      | none =>
        simp only [hnext] at ht
        cases ht
        exact ⟨by simp, at_complete h hf hnext⟩
      | some e =>
        simp only [hnext] at ht
        obtain ⟨⟨u, db₁⟩, hrow, ht⟩ := except_bind_ok.mp ht
        cases ht
        exact ⟨by simp, at_row h hf hnext
          (migrateRow_ok hC (m.intact f (m.mem_files hf)) h.intact hrow)⟩
  | tail cursor =>
    obtain rfl : cursor = 0 := h.floor
    simp only [Frozen.tick] at ht
    split_ifs at ht with hseq
    · cases ht
      exact ⟨by simp, at_last h rfl (le_max_right _ _)⟩
    · cases ht
      exact ⟨by simp, at_last h rfl ((not_lt.mp hseq).trans db.events.seq_nonneg)⟩
  | last => simp [Frozen.tick] at ht

/-- A whole call. -/
theorem at_runs (hC : C.Lawful) (hd₀ : Fresh C d₀) (h : m.job.Runs d₀ l db c) :
    (l = .start ∧ db = d₀) ∨ (l ≠ .start ∧ At m l db) := by
  induction h with
  | start => exact Or.inl ⟨rfl, rfl⟩
  | @next l l' db db' c n _ ht ih =>
    refine Or.inr ?_
    rcases ih with ⟨rfl, rfl⟩ | ⟨hl, hat⟩
    · obtain ⟨db₁, hopen, ht⟩ := except_bind_ok.mp ht
      cases ht
      exact ⟨by simp, at_opened hd₀ hopen⟩
    · exact at_tick hC hl hat ht

/-! ### Restarting -/

theorem silent_of_tick (h : m.tick l db = .ok (.go l' db 0)) : m.job.Silent db l l' := .step h .refl

theorem tick_start (hrec : Recorded m db) (hact : db.metadata.lookup "migration_activated" = none) :
    m.tick .start db = .ok (.go .opened db 0) := by
  rw [Frozen.tick, openDestination_recorded hrec hact]
  rfl

theorem tick_opened (hrec : Recorded m db) : m.tick .opened db = .ok (.go (.file 0 0) db 0) := by
  rw [Frozen.tick, readCursor_ok hrec]
  rfl

/-- A file that is complete is skipped. -/
theorem tick_skip {k : Nat} (hk : k < m.files.length)
    (hmark : db.metadata.lookup (cursorKey k) = some "complete") :
    m.tick (.file cursor k) db = .ok (.go (.file cursor (k + 1)) db 0) := by
  simp only [Frozen.tick, if_pos hk, hmark, if_true]

theorem tick_end {k : Nat} (hk : m.files.length ≤ k) :
    m.tick (.file cursor k) db = .ok (.go (.tail cursor) db 0) := by
  simp only [Frozen.tick, if_neg (not_lt.mpr hk)]

theorem raiseSeq_eq (h : n ≤ q.seq) : q.raiseSeq n = q := by
  unfold EventQueue.raiseSeq
  congr 1
  exact max_eq_left h

/-- The sequence of the destination is high enough already. -/
theorem tick_tail (hseq : m.source.events.seq ≤ db.events.seq) (cursor : Int) :
    m.tick (.tail cursor) db = .ok (.go .last db 0) := by
  simp only [Frozen.tick, raiseSeq_eq hseq]
  split_ifs <;> rfl

theorem silent_file (hrec : Recorded m db) (hact : db.metadata.lookup "migration_activated" = none) :
    ∀ k, k ≤ m.files.length → (∀ i < k, db.metadata.lookup (cursorKey i) = some "complete") →
      m.job.Silent db .start (.file 0 k)
  | 0, _, _ => (silent_of_tick (tick_start hrec hact)).trans (silent_of_tick (tick_opened hrec))
  | k + 1, hk, hmarks =>
    (silent_file hrec hact k (by omega) fun i hi => hmarks i (by omega)).trans
      (silent_of_tick (tick_skip hk (hmarks k (by omega))))

/-- A restarted call finds its way back to where any call was interrupted. -/
theorem catchesUp (hC : C.Lawful) (hd₀ : Fresh C d₀) (h : m.job.Runs d₀ l db c) :
    m.job.Silent db m.job.start l := by
  rcases at_runs hC hd₀ h with ⟨rfl, rfl⟩ | ⟨hl, hat⟩
  · exact .refl
  have hfile := silent_file hat.recorded hat.activated (l.index m.files.length) hat.index_le
    fun i hi => by rw [hat.marks i, if_pos hi]
  cases l with
  | start => exact absurd rfl hl
  | opened => exact silent_of_tick (tick_start hat.recorded hat.activated)
  | file cursor i =>
    obtain rfl : cursor = 0 := hat.floor
    exact hfile
  | row cursor i fc =>
    obtain rfl : cursor = 0 := hat.floor
    have hi := hat.row_lt _ _ _ rfl
    have hfc : 0 ≤ fc ∧ fc ≤ EventQueue.maxRowId := hat.bound
    have hmark := hat.marks i
    simp only [MigrateStage.index, MigrateStage.bound, lt_self_iff_false, if_false, true_and] at hmark
    refine hfile.trans (silent_of_tick ?_)
    simp only [MigrateStage.index, Frozen.tick, if_pos hi, hmark]
    by_cases hpos : 0 < fc
    · simp only [if_pos hpos, if_neg (toString_ne_complete hfc.1), parseInt_toString hfc.1 hfc.2]
    · rw [if_neg hpos, show fc = 0 by omega]
  | tail cursor =>
    obtain rfl : cursor = 0 := hat.floor
    exact hfile.trans (silent_of_tick (tick_end le_rfl))
  | last =>
    exact hfile.trans ((silent_of_tick (tick_end le_rfl)).trans
      (silent_of_tick (tick_tail (hat.seq rfl) 0)))

/-! ### After the last transaction -/

/-- A destination whose migration is complete. -/
structure Migrated (m : Frozen C) (db : Db) : Prop where
  recorded : Recorded m db
  marks : ∀ i < m.files.length, db.metadata.lookup (cursorKey i) = some "complete"
  complete : db.metadata.lookup "migration_complete" = some "1"
  seq : m.source.events.seq ≤ db.events.seq

/-- A stage at which nothing is being copied. -/
def MigrateStage.Quiet : MigrateStage → Prop
  | .row .. => False
  | _ => True

/-- Only the last stage returns. -/
theorem tick_ret (h : m.tick l db = .ok (.ret db')) :
    l = .last ∧ db' = db.setMeta "migration_complete" "1" := by
  cases l with
  | start | opened =>
    obtain ⟨_, -, h⟩ := except_bind_ok.mp h
    cases h
  | file cursor i =>
    simp only [Frozen.tick] at h
    repeat' split at h
    all_goals cases h
  | row cursor i fc =>
    simp only [Frozen.tick] at h
    repeat' split at h
    · cases h
    · cases h
    · obtain ⟨_, -, h⟩ := except_bind_ok.mp h
      cases h
  | tail cursor =>
    simp only [Frozen.tick] at h
    split_ifs at h <;> cases h
  | last =>
    cases h
    exact ⟨rfl, rfl⟩

/-- Another call finds nothing to do. -/
theorem quiet_tick {n : Nat} (h : Migrated m db) (hl : l.Quiet)
    (ht : m.tick l db = .ok (.go l' db' n)) : l'.Quiet ∧ db' = db ∧ n = 0 := by
  cases l with
  | start =>
    obtain ⟨db₁, hopen, ht⟩ := except_bind_ok.mp ht
    cases ht
    unfold Frozen.openDestination at hopen
    rw [h.recorded.source] at hopen
    simp only [ne_eq, not_true, if_false] at hopen
    split_ifs at hopen
    cases hopen
    exact ⟨trivial, rfl, rfl⟩
  | opened =>
    rw [tick_opened h.recorded] at ht
    cases ht
    exact ⟨trivial, rfl, rfl⟩
  | file cursor i =>
    by_cases hi : i < m.files.length
    · rw [tick_skip hi (h.marks i hi)] at ht
      cases ht
      exact ⟨trivial, rfl, rfl⟩
    · rw [tick_end (not_lt.mp hi)] at ht
      cases ht
      exact ⟨trivial, rfl, rfl⟩
  | row cursor i fc => exact hl.elim
  | tail cursor =>
    rw [tick_tail h.seq] at ht
    cases ht
    exact ⟨trivial, rfl, rfl⟩
  | last => cases ht

theorem quiet_runs (h : Migrated m d₀) (hrun : m.job.Runs d₀ l db c) :
    l.Quiet ∧ db = d₀ ∧ c = 0 := by
  induction hrun with
  | start => exact ⟨trivial, rfl, rfl⟩
  | next _ ht ih =>
    obtain ⟨hl, rfl, rfl⟩ := ih
    obtain ⟨hl', rfl, rfl⟩ := quiet_tick h hl ht
    exact ⟨hl', rfl, rfl⟩

/-- The marks of a completed migration survive other metadata. -/
theorem Migrated.setMeta {value : String} (h : Migrated m db)
    (hkey : key = "migration_complete" ∧ value = "1" ∨ key = "migration_activated") :
    Migrated m (db.setMeta key value) := by
  have hother : ∀ k : String, k ≠ "migration_complete" → k ≠ "migration_activated" →
      (db.setMeta key value).metadata.lookup k = db.metadata.lookup k := by
    intro k h1 h2
    rw [lookup_setMeta, if_neg]
    rintro rfl
    rcases hkey with ⟨hk, -⟩ | hk
    · exact h1 hk
    · exact h2 hk
  refine ⟨⟨?_, ?_, ?_⟩, fun i hi => ?_, ?_, h.seq⟩
  · rw [hother _ (by decide) (by decide)]; exact h.recorded.source
  · rw [hother _ (by decide) (by decide)]; exact h.recorded.backend
  · rw [hother _ (by decide) (by decide)]; exact h.recorded.cursor
  · rw [hother _ (cursorKey_ne (by decide) i) (cursorKey_ne (by decide) i)]
    exact h.marks i hi
  · rw [lookup_setMeta]
    rcases hkey with ⟨rfl, rfl⟩ | rfl
    · rfl
    · exact h.complete

/-- The return of a call completes the migration. -/
theorem migrated_of_last (h : At m .last db) :
    Migrated m (db.setMeta "migration_complete" "1") := by
  have hother : ∀ k : String, k ≠ "migration_complete" →
      (db.setMeta "migration_complete" "1").metadata.lookup k = db.metadata.lookup k := by
    intro k hk
    rw [lookup_setMeta, if_neg hk]
  refine ⟨⟨?_, ?_, ?_⟩, fun i hi => ?_, ?_, h.seq rfl⟩
  · rw [hother _ (by decide)]; exact h.recorded.source
  · rw [hother _ (by decide)]; exact h.recorded.backend
  · rw [hother _ (by decide)]; exact h.recorded.cursor
  · rw [hother _ (cursorKey_ne (by decide) i), h.marks i]
    exact if_pos hi
  · rw [lookup_setMeta, if_pos rfl]

/-! ### Runs -/

/-- Before a call has returned, the destination is one an uninterrupted call passes through, and the
    call in flight is on its way to that point. Afterwards only metadata changes. -/
structure TargetInv (m : Frozen C) (d₀ : Db) (s : Target) : Prop where
  running : s.returned = false → ∃ l c, m.job.Runs d₀ l s.db c ∧
    ∀ k, s.call = some k → m.job.Silent s.db k.1 l
  done : s.returned = true → Migrated m s.db ∧
    (∃ d c, m.job.Returns d₀ d c ∧ ∃ metadata, s.db = { d with metadata := metadata }) ∧
    ∀ k, s.call = some k → k.1.Quiet ∧ k.2 = 0

theorem activate_error (hsource : (db.metadata.lookup "migration_source").isSome)
    (hcomplete : db.metadata.lookup "migration_complete" = none) :
    activate db = .error .migrationIncomplete := by
  obtain ⟨fp, hfp⟩ := Option.isSome_iff_exists.mp hsource
  simp [activate, hfp, hcomplete]

/-- A node that starts before the migration is complete changes nothing. -/
theorem activate_running (hC : C.Lawful) (hd₀ : Fresh C d₀) (h : m.job.Runs d₀ l db c)
    (hact : activate db = .ok db') : db' = db := by
  rcases at_runs hC hd₀ h with ⟨-, rfl⟩ | ⟨-, hat⟩
  · simp only [activate, hd₀.source, Except.ok.injEq] at hact
    exact hact.symm
  · rw [activate_error (by rw [hat.recorded.source]; rfl) hat.complete] at hact
    cases hact

/-- Afterwards a node starts. -/
theorem activate_done (h : Migrated m db) :
    activate db = .ok (db.setMeta "migration_activated" "1") := by
  simp only [activate, h.recorded.source, h.complete, if_true]

theorem targetInv_step (hC : C.Lawful) (hd₀ : Fresh C d₀) {s t : Target} (h : TargetInv m d₀ s)
    (hstep : Target.Step m s t) : TargetInv m d₀ t := by
  cases hstep with
  | call hidle =>
    refine ⟨fun hr => ?_, fun hr => ?_⟩
    · obtain ⟨l, c, hrun, -⟩ := h.running hr
      refine ⟨l, c, hrun, fun k hk => ?_⟩
      cases hk
      exact catchesUp hC hd₀ hrun
    · obtain ⟨hmig, hret, -⟩ := h.done hr
      refine ⟨hmig, hret, fun k hk => ?_⟩
      cases hk
      exact ⟨trivial, rfl⟩
  | go hcall htick =>
    refine ⟨fun hr => ?_, fun hr => ?_⟩
    · obtain ⟨l, c, hrun, hsilent⟩ := h.running hr
      obtain ⟨l', c', hrun', hsilent'⟩ := (hsilent _ hcall).go hrun htick
      refine ⟨l', c', hrun', fun k hk => ?_⟩
      cases hk
      exact hsilent'
    · obtain ⟨hmig, hret, hquiet⟩ := h.done hr
      obtain ⟨hl, hzero⟩ := hquiet _ hcall
      obtain ⟨hl', rfl, rfl⟩ := quiet_tick hmig hl htick
      refine ⟨hmig, hret, fun k hk => ?_⟩
      cases hk
      exact ⟨hl', hzero⟩
  | ret hcall htick =>
    refine ⟨by simp, fun _ => ?_⟩
    obtain ⟨rfl, rfl⟩ := tick_ret htick
    cases hr : s.returned with
    | false =>
      obtain ⟨l, c, hrun, hsilent⟩ := h.running hr
      have hret := (hsilent _ hcall).ret hrun htick
      refine ⟨?_, ⟨_, c, hret, _, rfl⟩, by simp⟩
      obtain ⟨l', d, hrun', hret'⟩ := hret
      obtain ⟨rfl, hd⟩ := tick_ret hret'
      rw [hd]
      rcases at_runs hC hd₀ hrun' with ⟨hl, -⟩ | ⟨-, hat⟩
      · cases hl
      · exact migrated_of_last hat
    | true =>
      obtain ⟨hmig, ⟨d, c, hret, metadata, hdb⟩, -⟩ := h.done hr
      refine ⟨hmig.setMeta (Or.inl ⟨rfl, rfl⟩), ⟨d, c, hret, ?_⟩, by simp⟩
      exact ⟨_, by rw [hdb]; rfl⟩
  | interrupt =>
    refine ⟨fun hr => ?_, fun hr => ?_⟩
    · obtain ⟨l, c, hrun, -⟩ := h.running hr
      exact ⟨l, c, hrun, by simp⟩
    · obtain ⟨hmig, hret, -⟩ := h.done hr
      exact ⟨hmig, hret, by simp⟩
  | activate hact =>
    refine ⟨fun hr => ?_, fun hr => ?_⟩
    · obtain ⟨l, c, hrun, hsilent⟩ := h.running hr
      rw [activate_running hC hd₀ hrun hact]
      exact ⟨l, c, hrun, hsilent⟩
    · obtain ⟨hmig, ⟨d, c, hret, metadata, hdb⟩, hquiet⟩ := h.done hr
      rw [activate_done hmig] at hact
      cases hact
      exact ⟨hmig.setMeta (Or.inr rfl), ⟨d, c, hret, _, by rw [hdb]; rfl⟩, hquiet⟩

/-- The destination of a call that has returned holds every row. -/
theorem copies_of_returns (hC : C.Lawful) (hd₀ : Fresh C d₀) (h : m.job.Returns d₀ db c) :
    Copies m db fun _ _ => True := by
  obtain ⟨l, d, hrun, hret⟩ := h
  obtain ⟨rfl, rfl⟩ := tick_ret hret
  rcases at_runs hC hd₀ hrun with ⟨hl, -⟩ | ⟨-, hat⟩
  · cases hl
  refine hat.copies.congr rfl rfl fun i f id row hf _ => ?_
  simp only [Frozen.Copied, MigrateStage.index, true_iff]
  exact Or.inl (List.getElem?_eq_some_iff.mp hf).1

/-- **The migration is exact and resumable.** Whatever interrupts its calls, a node does not start
    on the destination before one of them has returned. Once one has, a node does start, and the
    destination holds exactly the rows of the source and its segments, as after one uninterrupted
    call; a further call copies nothing, and new ids lie above every id of the source. -/
theorem migrateFrozen_exact (hC : C.Lawful) (m : Frozen C) {d₀ : Db} (hd₀ : Fresh C d₀) {s : Target}
    (hs : Reachable (· = { db := d₀ }) (Target.Step m) s) :
    ((s.db.metadata.lookup "migration_source").isSome → s.returned = false →
      activate s.db = .error .migrationIncomplete) ∧
    (s.returned = true →
      activate s.db = .ok (s.db.setMeta "migration_activated" "1") ∧
      Copies m s.db (fun _ _ => True) ∧
      (∃ d c, m.job.Returns d₀ d c ∧ ∃ metadata, s.db = { d with metadata := metadata }) ∧
      (∀ l db c, m.job.Runs s.db l db c → db = s.db ∧ c = 0) ∧
      ∀ row q, s.db.events.insertNew row = .ok q →
        ∃ id, m.source.events.seq < id ∧ q.rows = s.db.events.rows.insert id row) := by
  have hinv : TargetInv m d₀ s := by
    refine hs.invariant (fun t ht => ?_) fun t t' ht hstep => targetInv_step hC hd₀ ht hstep
    subst ht
    exact ⟨fun _ => ⟨.start, 0, .start, by simp⟩, by simp⟩
  refine ⟨fun hsource hr => ?_, fun hr => ?_⟩
  · obtain ⟨l, c, hrun, -⟩ := hinv.running hr
    rcases at_runs hC hd₀ hrun with ⟨-, hdb⟩ | ⟨-, hat⟩
    · rw [hdb, hd₀.source] at hsource
      simp at hsource
    · exact activate_error hsource hat.complete
  · obtain ⟨hmig, ⟨d, c, hret, metadata, hdb⟩, -⟩ := hinv.done hr
    refine ⟨activate_done hmig, ?_, ⟨d, c, hret, metadata, hdb⟩,
      fun l db c hrun => (quiet_runs hmig hrun).2, fun row q hq => ?_⟩
    · rw [hdb]
      exact (copies_of_returns hC hd₀ hret).congr rfl rfl fun _ _ _ _ _ _ => Iff.rfl
    · obtain ⟨-, hrows, -⟩ := insertNew_ok hq
      have := hmig.seq
      exact ⟨_, by omega, hrows⟩

/-- At most `k` steps of one call: the destination then, and whether the call has returned. -/
def Frozen.drive (m : Frozen C) : Nat → MigrateStage → Db → Option (Db × Bool)
  | 0, _, db => some (db, false)
  | k + 1, l, db => match m.tick l db with
    | .ok (.go l' db' _) => m.drive k l' db'
    | .ok (.ret db') => some (db', true)
    | .error _ => none

/-- A call that is interrupted if it has not returned by then. -/
theorem reachable_drive {init : Target → Prop} {returned : Bool} :
    ∀ (k : Nat) {l : MigrateStage} {c : Nat} {db db' : Db},
      Reachable init (Target.Step m) ⟨db, some (l, c), false⟩ → m.drive k l db = some (db', returned) →
      Reachable init (Target.Step m) ⟨db', none, returned⟩
  | 0, l, c, db, db', hs, h => by
    cases h
    exact hs.next .interrupt
  | k + 1, l, c, db, db', hs, h => by
    unfold Frozen.drive at h
    split at h
    · next l' db₁ n ht => exact reachable_drive k (hs.next (.go rfl ht)) h
    · next db₁ ht =>
      cases h
      exact hs.next (.ret rfl ht)
    · cases h

/-- A queue that has archived the small event and holds two revisions, and its segment. -/
@[irreducible] def sampleFiles (C : Codec) : Db × Db :=
  match archiveRun C smallEvent with
  | none => (newDb, newDb)
  | some (db, segment) =>
    match enqueue C .legacy 3 (revision 2) db with
    | .error _ => (newDb, newDb)
    | .ok (_, db) =>
      match enqueue C .v2 4 (revision 3) db with
      | .error _ => (newDb, newDb)
      | .ok (_, db) => (db, segment)

theorem intact_sampleFiles (hC : C.Lawful) :
    ∀ f ∈ [(sampleFiles C).1, (sampleFiles C).2], Intact C f := by
  simp only [List.mem_cons, List.not_mem_nil, or_false, forall_eq_or_imp, forall_eq]
  unfold sampleFiles
  split
  · exact ⟨intact_newDb, intact_newDb⟩
  next db segment hrun =>
  obtain ⟨fs, hfs, hpub, hreach⟩ := reachable_archiveRun hrun
  have hinv := hreach.invariant (fun _ hinit => sysInv_init hinit) fun _ _ h hstep => sysInv_step hC h hstep
  obtain ⟨segment', hfile, hsegment⟩ := hinv.published "b" ((hpub "b").mpr rfl)
  cases hfs.symm.trans hfile
  split
  · exact ⟨intact_newDb, intact_newDb⟩
  next h₁ =>
  split
  · exact ⟨intact_newDb, intact_newDb⟩
  next h₂ => exact ⟨intact_enqueue hC (intact_enqueue hC hinv.intact h₁) h₂, hsegment⟩

/-- A codec that reads the three texts, with the members in any order. -/
def sampleCodec : Codec := Plain.codec fun b => ([0, 2, 3].map revision).find? fun ev =>
  (marshal Plain.json ev.toValue).any (jsonEqual (Plain.codec fun _ => none) b)

theorem sampleCodec_lawful : sampleCodec.Lawful := Plain.codec_lawful _

def sampleFrozen : Frozen sampleCodec where
  source := (sampleFiles sampleCodec).1
  segments := [(sampleFiles sampleCodec).2]
  fingerprint := "[]"
  backend := .v2
  intact := intact_sampleFiles sampleCodec_lawful
  ids f hf id row hrow := by
    have hall : ∀ f ∈ [(sampleFiles sampleCodec).1, (sampleFiles sampleCodec).2],
        ∀ e ∈ f.events.rows.entries, 0 < e.1 ∧ e.1 ≤ EventQueue.maxRowId := by
      decide +kernel
    exact hall f hf _ (Table.lookup_eq_some_iff.mp hrow)

/-- The migration of two rows and a segment. The first call dies after one row, and a node refuses to
    start; the second one goes on from there. -/
theorem migrateFrozen_exact_resumed : ∃ db₁ s,
    Reachable (· = { db := newDb }) (Target.Step sampleFrozen) { db := db₁ } ∧
    db₁.events.rows.entries.length = 1 ∧ activate db₁ = .error .migrationIncomplete ∧
    Reachable (· = { db := db₁ }) (Target.Step sampleFrozen) s ∧ s.returned = true ∧
    s.db.events.rows.entries.length = 3 ∧ (activate s.db).isOk ∧
    Copies sampleFrozen s.db fun _ _ => True := by
  have hrun : ((sampleFrozen.drive 4 .start newDb).any fun p => !p.2 &&
      decide (p.1.events.rows.entries.length = 1) &&
      (p.1.metadata.lookup "migration_source").isSome &&
      (sampleFrozen.drive 30 .start p.1).any fun q => q.2 &&
        decide (q.1.events.rows.entries.length = 3)) = true := by
    decide +kernel
  simp only [Option.any_eq_true, Bool.and_eq_true, Bool.not_eq_true', decide_eq_true_eq] at hrun
  obtain ⟨⟨db₁, _⟩, hfirst, ⟨⟨rfl, hone⟩, hsource⟩, ⟨db, _⟩, hsecond, rfl, hthree⟩ := hrun
  have hfresh : Fresh sampleCodec newDb := by
    have hkey : ∀ key, key ≠ "storage_schema" → newDb.metadata.lookup key = none :=
      fun key hk => AList.lookup_insert_ne hk
    exact ⟨intact_newDb, hkey _ (by decide), hkey _ (by decide), hkey _ (by decide),
      hkey _ (by decide), hkey _ (by decide), fun i => hkey _ (cursorKey_ne (by decide) i)⟩
  have hdied : Reachable (· = { db := newDb }) (Target.Step sampleFrozen) { db := db₁ } :=
    reachable_drive 4 (.next (.start rfl) (.call rfl)) hfirst
  have hresumed : Reachable (· = { db := db₁ }) (Target.Step sampleFrozen)
      { db := db, returned := true } :=
    reachable_drive 30 (.next (.start rfl) (.call rfl)) hsecond
  have hs := hresumed.invariant (fun _ h => h ▸ hdied) fun _ _ h hstep => h.next hstep
  have hrefused := (migrateFrozen_exact sampleCodec_lawful sampleFrozen hfresh hdied).1 hsource rfl
  obtain ⟨hstarts, hcopies, -⟩ := (migrateFrozen_exact sampleCodec_lawful sampleFrozen hfresh hs).2 rfl
  exact ⟨db₁, _, hdied, hone, hrefused, hresumed, rfl, hthree, by rw [hstarts]; rfl, hcopies⟩

end TaNode.Queue

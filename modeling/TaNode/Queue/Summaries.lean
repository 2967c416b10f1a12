import TaNode.Queue.Carry
import TaNode.Queue.Listing

/-! The summary of a row shows what its payload shows.

    A listing reads the text of `queue_summary` where there is one and the payload otherwise. Both
    insert paths write a summary, each from another event: `Enqueue` from the event it was given,
    `insertRecord` from the event it has read back.

        event ──────────────marshal──▶ payload ──unmarshal──▶ event' ──summarize──▶ entry
          └─summarize─▶ marshal──▶ summary ──unmarshal──▶ event'' ──summarize──▶ the same entry

    Nothing changes what a stored payload decodes to, so the two agree for as long as both are
    there. -/

namespace TaNode.Queue

variable {ev : ThreatEvent} {b : Bytes} {db db' : Db} {row : Row} {u : Unit} {r : Record}

/-- `json.Unmarshal` on the events of `E`, which it does not leave: it sets the fields of an event from
    the members of its text, and what it sets fits the fields. -/
structure Codec.ReadsEvents (C : Codec) (E : Set ThreatEvent) : Prop where
  reads : ∀ ev ∈ E, C.ReadsEvent ev
  summary : ∀ ev ∈ E, summarize ev ∈ E
  unmarshal : ∀ b ev, C.unmarshalEvent b = some ev → ev ∈ E ∧ ev.Ranged

variable {C : Codec} {E : Set ThreatEvent}

/-! ### The text of a summary -/

theorem depth_summary (hC : C.Lawful) (hb : marshal C.toJson (summarize ev).toValue = some b) :
    C.depth b ≤ maxNestingDepth := by
  have hnesting := nesting_threatEvent C.toJson (summarize ev)
  have hraw : nestingEntries C.toJson (summarize ev).rawFeature = 0 := rfl
  rw [hraw] at hnesting
  have hdepth := hC.depth_marshal _ _ hb
  have hmax : maxNestingDepth = 10000 := rfl
  omega

/-- The text of a summary is no manifest. -/
theorem payloadRoot_summary (hC : C.Reads) (hb : marshal C.toJson (summarize ev).toValue = some b) :
    payloadRoot C b = .ok "" := by
  obtain ⟨m, hm⟩ := Option.isSome_iff_exists.mp
    (hC.unmarshalManifest_some _ _ hb (depth_summary hC.lawful hb))
  have hversion := hC.lawful.unmarshalManifest_event _ _ _ hb hm
  rw [payloadRoot, hm]
  exact if_pos hversion

theorem unmarshal_summary (hC : C.Reads) (hE : C.ReadsEvents E) {ev' : ThreatEvent} (hev : ev ∈ E)
    (hb : marshal C.toJson (summarize ev).toValue = some b)
    (hread : ThreatEvent.ofValue C.toJson (summarize ev).toValue = some ev') :
    C.unmarshalEvent b = some ev' := by
  rw [hE.reads _ (hE.summary ev hev) b hb, if_pos (depth_summary hC.lawful hb), hread]

/-- **Summarizing commutes with JSON.** -/
theorem unmarshal_summarize (hC : C.Reads) (hE : C.ReadsEvents E) {ev' : ThreatEvent} (hev : ev ∈ E)
    {text : Bytes} (htext : marshal C.toJson ev.toValue = some text)
    (hread : C.unmarshalEvent text = some ev')
    (hb : marshal C.toJson (summarize ev).toValue = some b) :
    C.unmarshalEvent b = some (summarize ev') :=
  unmarshal_summary hC hE hev hb (ThreatEvent.ofValue_summarize ((hE.reads ev hev).event htext hread))

/-! ### Rows -/

/-- The summary `s` stands for a row: it is read as it is, as the summary of what the payload holds. -/
structure SummaryOf (C : Codec) (db : Db) (row : Row) (s : Bytes) : Prop where
  root : payloadRoot C s = .ok ""
  event : ∀ text ev, decodePayload C db.content.objects row.payload = .ok text →
    C.unmarshalEvent text = some ev → C.unmarshalEvent s = some (summarize ev)

/-- Every summary stands for its row. -/
def Summarized (C : Codec) (db : Db) : Prop := ∀ id row s, db.events.rows.lookup id = some row →
  db.summary.lookup row.key = some s → SummaryOf C db row s

theorem SummaryOf.of_decode {row' : Row} {s : Bytes} (h : SummaryOf C db row s)
    (hpayload : row'.payload = row.payload)
    (hdecode : decodePayload C db'.content.objects row.payload =
      decodePayload C db.content.objects row.payload) :
    SummaryOf C db' row' s := by
  refine ⟨h.root, fun text ev htext => h.event text ev ?_⟩
  rwa [hpayload, hdecode] at htext

/-- Rows that were there before, with the summaries they had. -/
theorem Summarized.of_rows (h : Summarized C db) (hkeeps : KeepsRows db db')
    (hdecode : ∀ id row, db.events.rows.lookup id = some row →
      decodePayload C db'.content.objects row.payload =
        decodePayload C db.content.objects row.payload) :
    Summarized C db' := by
  intro id row' s hrow' hs
  obtain ⟨row, hrow, hsame, -⟩ := hkeeps.row id row' hrow'
  rw [hsame.key] at hs
  exact (h id row s hrow (hkeeps.summary _ s hs)).of_decode hsame.payload (hdecode id row hrow)

/-- More objects do not change what is there. -/
theorem Summarized.grow (hC : C.Lawful) (hi : Intact C db) (h : Summarized C db) {content : Store}
    (hsub : Table.Sub db.content.objects content.objects) :
    Summarized C { db with content := content } :=
  h.of_rows (.of_sub (fun _ _ h => h) fun _ _ h => h) fun _ _ hrow => decode_grow hC hi hsub hrow

/-- A new row with its summary; the keys of the other rows are others. -/
theorem Summarized.insert (h : Summarized C db) {id : Int} {s : Bytes}
    (hkey : db.events.hasKey row.key = false) (hcontent : db'.content = db.content)
    (hrows : db'.events.rows = db.events.rows.insert id row)
    (hsummary : db'.summary = db.summary.insert row.key s) (hrow : SummaryOf C db row s) :
    Summarized C db' := by
  intro id' row' s' hrow' hs'
  rw [hrows, Table.lookup_insert_iff] at hrow'
  rcases hrow' with ⟨-, rfl⟩ | ⟨-, hold⟩
  · rw [hsummary, AList.lookup_insert] at hs'
    cases hs'
    exact hrow.of_decode rfl (by rw [hcontent])
  · have hne : row'.key ≠ row.key := by
      intro he
      have hmem := EventQueue.hasKey_iff.mpr ⟨id', row', hold, he⟩
      rw [hkey] at hmem
      cases hmem
    rw [hsummary, AList.lookup_insert_ne hne] at hs'
    exact (h id' row' s' hold hs').of_decode rfl (by rw [hcontent])

/-! ### Operations -/

theorem Summarized.enqueue (hC : C.Reads) (hE : C.ReadsEvents E) (hi : Intact C db)
    (h : Summarized C db) {backend : Backend} {now : Int} (hev : ev ∈ E)
    (hop : enqueue C backend now ev db = .ok (u, db')) : Summarized C db' := by
  rcases enqueue_ok hop with ⟨rfl, -⟩ | ⟨-, -, payload, db₁, root, q, b, hpay, hroot, hq, hb, rfl⟩
  · exact h
  obtain ⟨hkey, hrows, -⟩ := insertNew_ok hq
  have hcontent := newPayload_content hpay
  have hgrown : Summarized C db₁ := by
    rw [hcontent]
    exact h.grow hC.lawful hi (newPayload_stored hC.lawful hi hpay).sub
  refine hgrown.insert hkey rfl hrows rfl ⟨payloadRoot_summary hC hb, fun text ev' htext hread => ?_⟩
  exact unmarshal_summarize hC hE hev (newPayload_honest hC hpay htext) hread hb

theorem Summarized.insertRecord (hC : C.Reads) (hE : C.ReadsEvents E) (h : Summarized C db)
    (hop : insertRecord C r db = .ok (u, db')) : Summarized C db' := by
  obtain ⟨q, out, root, b, hq, hout, hroot, ⟨ev, hev, hb⟩, rfl⟩ := insertRecord_ok hop
  obtain ⟨hkey, -, hrows, -⟩ := insertWithId_ok hq
  refine h.insert hkey rfl hrows rfl ⟨payloadRoot_summary hC hb, fun text ev' htext hread => ?_⟩
  have hsame : out = text := Except.ok.inj (hout.symm.trans htext)
  rw [← hsame, hev] at hread
  cases hread
  obtain ⟨hin, hranged⟩ := hE.unmarshal out ev hev
  exact unmarshal_summary hC hE hin hb (ThreatEvent.ofValue_summary hranged)

theorem Summarized.copyRecord (hC : C.Reads) (hE : C.ReadsEvents E) (hi : Intact C db)
    (h : Summarized C db) {src : Store} (hsrc : src.Closed C)
    (hop : copyRecord C src.objects r db = .ok (u, db')) : Summarized C db' := by
  obtain ⟨payload, content, hc, hins⟩ := copyRecord_ok hop
  have hgrown := h.grow hC.lawful hi (copyPayload_stored hC.lawful hsrc hi.closed hc).sub
  exact hgrown.insertRecord hC hE hins

theorem Summarized.run (hC : C.Reads) (hE : C.ReadsEvents E) (hi : Intact C db)
    (h : Summarized C db) {op : Op} (hfrom : op.From E) (hop : op.run C db = .ok db') :
    Summarized C db' := by
  rcases run_cases hop with ⟨backend, now, ev, u, rfl, henqueue⟩ | hkeeps
  · exact h.enqueue hC hE hi (hfrom backend now ev rfl) henqueue
  · exact h.of_rows hkeeps fun id row => decode_run hC.lawful hi hop

/-! ### Worlds -/

/-- A step of the world in which an event that is enqueued is one of `E`. -/
inductive StepFrom (C : Codec) (E : Set ThreatEvent) : World → World → Prop
  | op {w : World} {db : Db} (name : String) (op : Op) (hfrom : op.From E)
      (h : op.run C (w name) = .ok db) : StepFrom C E w (Function.update w name db)
  | copyRecord {w : World} {db : Db} {u : Unit} (src dst : String) (id : Int) (row : Row)
      (hrow : (w src).events.rows.lookup id = some row)
      (h : Queue.copyRecord C (w src).content.objects (scanRecord id row) (w dst) = .ok (u, db)) :
      StepFrom C E w (Function.update w dst db)
  | insertRecord {w : World} {db : Db} {u : Unit} (dst : String) (r : Record)
      (h : Queue.insertRecord C r (w dst) = .ok (u, db)) : StepFrom C E w (Function.update w dst db)

/-- Databases as they were before there were summaries. -/
def BeforeSummaries (C : Codec) (w : World) : Prop := ∀ name, Legacy C (w name) ∧ (w name).summary = ∅

theorem summarized_world (hC : C.Reads) (hE : C.ReadsEvents E) {w : World}
    (hw : Reachable (BeforeSummaries C) (StepFrom C E) w) :
    ∀ name, Intact C (w name) ∧ Summarized C (w name) := by
  have hstart : ∀ w, BeforeSummaries C w → ∀ name, Intact C (w name) ∧ Summarized C (w name) := by
    intro w h name
    refine ⟨intact_legacy (h name).1, fun id row s _ hs => ?_⟩
    rw [(h name).2] at hs
    simp at hs
  have hstep : ∀ w w', (∀ name, Intact C (w name) ∧ Summarized C (w name)) → StepFrom C E w w' →
      ∀ name, Intact C (w' name) ∧ Summarized C (w' name) := by
    intro w w' h hstep name
    have hupdate : ∀ dst db, Intact C db ∧ Summarized C db →
        Intact C (Function.update w dst db name) ∧ Summarized C (Function.update w dst db name) := by
      intro dst db hdb
      by_cases he : name = dst
      · subst he
        rw [Function.update_self]
        exact hdb
      · rw [Function.update_of_ne he]
        exact h name
    cases hstep with
    | op dst op hfrom hop =>
      exact hupdate _ _ ⟨intact_run hC.lawful (h dst).1 hop, (h dst).2.run hC hE (h dst).1 hfrom hop⟩
    | copyRecord src dst id row hrow hop =>
      exact hupdate _ _ ⟨intact_copyRecord hC.lawful (h dst).1 (h src).1.closed hop,
        (h dst).2.copyRecord hC hE (h dst).1 (h src).1.closed hop⟩
    | insertRecord dst r hop =>
      exact hupdate _ _ ⟨intact_insertRecord (h dst).1 hop, (h dst).2.insertRecord hC hE hop⟩
  exact hw.invariant hstart hstep

/-! ### Entries -/

theorem decodeRecord_ok {R : ReadCodec} {d : Database} {r' : Record} :
    decodeRecord R d r = .ok r' ↔ ∃ b, decodePayload R.toCodec d.db.content.objects r.payload = .ok b ∧
      r' = { r with payload := b } := by
  simp only [decodeRecord, except_bind_ok, fromQueue_ok, except_pure_ok, @eq_comm _ r']

theorem decodePayload_plain {db : Table String Stored} {payload : Bytes}
    (h : payloadRoot C payload = .ok "") : decodePayload C db payload = .ok payload := by
  rw [decodePayload, h]
  rfl

/-- A listed row decodes to the summary of the event, or to the event itself. -/
theorem decodeRecord_listed {R : ReadCodec} {d : Database} (h : Summarized R.toCodec d.db)
    {id : Int} (hrow : d.db.events.rows.lookup id = some row) {full : Record}
    (hfull : decodeRecord R d (scanRecord id row) = .ok full)
    (hev : R.unmarshalEvent full.payload = some ev) :
    ∃ b ev', decodeRecord R d (scanRecord id (d.listed true row)) = .ok { full with payload := b } ∧
      R.unmarshalEvent b = some ev' ∧ summarize ev' = summarize ev := by
  obtain ⟨text, htext, rfl⟩ := decodeRecord_ok.mp hfull
  have hfallback : ∃ b ev', decodeRecord R d (scanRecord id row) = .ok
      { scanRecord id row with payload := b } ∧ R.unmarshalEvent b = some ev' ∧
        summarize ev' = summarize ev := ⟨text, ev, hfull, hev, rfl⟩
  rw [Database.listed]
  split_ifs with hhas
  · cases hs : d.db.summary.lookup row.key with
    | none => exact hfallback
    | some s =>
      have hof := h id row s hrow hs
      refine ⟨s, summarize ev, decodeRecord_ok.mpr ⟨s, ?_, rfl⟩, hof.event text ev htext hev,
        ThreatEvent.summarize_summarize ev⟩
      exact decodePayload_plain hof.root
  · exact hfallback

/-- **The summary path agrees with the full path.** For every row of every file whose payload decodes
    to an event, the entry made from the summary is the one made from the event, on every field. And
    summarizing is idempotent and commutes with writing and reading an event. -/
theorem summaries_agree {R : ReadCodec} (hC : R.toCodec.Reads) (hE : R.toCodec.ReadsEvents E)
    {w : World} (hw : Reachable (BeforeSummaries R.toCodec) (StepFrom R.toCodec E) w) :
    (∀ d : Database, (∃ name, d.db = w name) → ∀ id row,
      d.db.events.rows.lookup id = some row → ∀ full ev,
      decodeRecord R d (scanRecord id row) = .ok full → R.unmarshalEvent full.payload = some ev →
      ∃ rec, decodeRecord R d (scanRecord id (d.listed true row)) = .ok rec ∧
        ∀ now, pushLogFromRecord R now rec true = pushLogFromRecord R now full true) ∧
    (∀ ev, summarize (summarize ev) = summarize ev) ∧
    ∀ ev ∈ E, ∀ text ev' b, marshal R.toJson ev.toValue = some text →
      R.unmarshalEvent text = some ev' → marshal R.toJson (summarize ev).toValue = some b →
      R.unmarshalEvent b = some (summarize ev') := by
  refine ⟨?_, ThreatEvent.summarize_summarize, fun ev hev text ev' b htext hread hb =>
    unmarshal_summarize hC hE hev htext hread hb⟩
  rintro d ⟨name, hd⟩ id row hrow full ev hfull hev
  have hsum : Summarized R.toCodec d.db := by
    rw [hd]
    exact (summarized_world hC hE hw name).2
  obtain ⟨b, ev', hrec, hb, hsame⟩ := decodeRecord_listed hsum hrow hfull hev
  refine ⟨_, hrec, fun now => ?_⟩
  rw [pushLogFromRecord, pushLogFromRecord, hb, hev]
  simp only [hsame, if_true]
  rfl

/-- An event with a packet and an exchange; both are cut down in its summary. -/
def exchangeEvent : ThreatEvent :=
  { smallEvent with
    rawPacket := some { packetHex := "0a0b", messageDirection := "request" }
    exchange := some { request := some {}, responseStatus := "matched" } }

/-- The texts that occur in a queue with the event. -/
def exchangeTexts : List ThreatEvent := [exchangeEvent, summarize exchangeEvent]

def exchangeReader : ReadCodec := (Plain.codec (readEvents exchangeTexts)).reader

theorem readsEvents_exchange : exchangeReader.toCodec.ReadsEvents {ev | ev ∈ exchangeTexts} where
  reads := readsEvents_of_distinct (by decide +kernel)
  summary ev hev := by
    rcases List.mem_pair.mp hev with rfl | rfl <;> exact List.mem_pair.mpr (.inr rfl)
  unmarshal b ev hread := by
    obtain ⟨found, hfind, hev⟩ := Option.bind_eq_some_iff.mp hread
    have hsame : ThreatEvent.ofValue Plain.json found.toValue = some found ∧ found.Ranged := by
      rcases List.mem_pair.mp (List.mem_of_find?_eq_some hfind) with rfl | rfl
      · exact ⟨rfl, by decide, by decide, by decide, by decide, fun s hs => by cases hs⟩
      · exact ⟨rfl, by decide, by decide, by decide, by decide, fun s hs => by cases hs⟩
    cases hsame.1.symm.trans hev
    exact ⟨List.mem_of_find?_eq_some hfind, hsame.2⟩

/-- The event in a queue: the entries made from its summary and from its payload are the same. -/
theorem summaries_agree_exchange :
    ∃ db, Op.run exchangeReader.toCodec (.enqueue .v2 1 exchangeEvent) newDb = .ok db ∧
      ∃ row full rec, db.events.rows.lookup 1 = some row ∧
        decodeRecord exchangeReader { db := db } (scanRecord 1 row) = .ok full ∧
        decodeRecord exchangeReader { db := db }
          (scanRecord 1 (Database.listed { db := db } true row)) = .ok rec ∧
        rec.payload ≠ full.payload ∧
        pushLogFromRecord exchangeReader 5 rec true = pushLogFromRecord exchangeReader 5 full true := by
  have hrun : ((Op.run exchangeReader.toCodec (.enqueue .v2 1 exchangeEvent) newDb).toOption.any
      fun db => (db.events.rows.lookup 1).any fun row =>
        (decodeRecord exchangeReader { db := db } (scanRecord 1 row)).toOption.any fun full =>
          (exchangeReader.unmarshalEvent full.payload).isSome &&
          (decodeRecord exchangeReader { db := db }
            (scanRecord 1 (Database.listed { db := db } true row))).toOption.all
              fun rec => rec.payload != full.payload) = true := by
    decide +kernel
  simp only [Option.any_eq_true, except_toOption_some, Bool.and_eq_true, Option.isSome_iff_exists]
    at hrun
  obtain ⟨db, hop, row, hrow, full, hfull, ⟨ev, hev⟩, hother⟩ := hrun
  have hlegacy : BeforeSummaries exchangeReader.toCodec fun _ => newDb := fun _ =>
    ⟨⟨rfl, rfl, by simp [newDb]⟩, rfl⟩
  have hfrom : (Op.enqueue .v2 1 exchangeEvent).From {ev | ev ∈ exchangeTexts} := by
    rintro _ _ _ ⟨⟩
    exact List.mem_cons_self
  have hworld := Reachable.next (.start hlegacy) (StepFrom.op "queue.db" _ hfrom hop)
  obtain ⟨rec, hrec, hsame⟩ := (summaries_agree (Plain.codec_reads _) readsEvents_exchange hworld).1
    { db := db } ⟨"queue.db", by rw [Function.update_self]⟩ 1 row hrow full ev hfull hev
  rw [hrec] at hother
  exact ⟨db, hop, row, full, rec, hrow, hfull, hrec, bne_iff_ne.mp hother, hsame 5⟩

end TaNode.Queue

import TaNode.Queue.Plain

/-! The storage format is lossless: what `encode` writes, `render` reads back byte for byte as the
    text `json.Marshal` gives the original value, whatever was stored before, and nothing stored
    before reads differently afterwards.

    Both directions rest on one order: a table extends another when it holds every row of it
    unchanged. Writing only ever extends (`save_spec`), and every read is stable under extension
    (`readObject_mono`, `text_mono`, `render_mono`). The cycle guard of `render` never fires on a tree
    that was written: a node's text has a finite height, and a node's ancestors are strictly taller
    (`render_of_text`). -/

namespace TaNode.Queue

variable {C : Codec}
variable {raw out payload b : Bytes} {db db' : Table String Stored} {n : ContentNode} {s s' : Store}
  {w w' w₁ : ObjectWriter} {f : Fragment} {v : Value} {ts : List Bytes}

/-! ### Reading objects -/

theorem unpack_pack (hC : C.Lawful) (hlen : raw.length ≤ maxObjectBytes) :
    unpack C (storedRow C raw) = .ok raw := by
  have hsize : ¬((raw.length : Int) < 0 ∨ (raw.length : Int) > maxObjectBytes) := by omega
  unfold unpack storedRow
  rw [if_neg hsize]
  unfold pack
  by_cases hsmall : raw.length < 256
  · simp [hsmall]
  · rw [if_neg hsmall]
    by_cases hbig : (C.deflate raw).length ≥ raw.length
    · simp [hbig]
    · simp [hbig, hC.inflate_deflate]

/-- Unpacking never reports a missing row. -/
theorem unpack_ne_missing (s : Stored) (id : String) : unpack C s ≠ .error (.missing id) := by
  unfold unpack
  split_ifs <;> simp
  cases C.inflate s.data with
  | none => simp
  | some raw => simp only; split_ifs <;> simp

theorem readObject_mono (hsub : Table.Sub db db') {id : String} (h : readObject C db id = .ok raw) :
    readObject C db' id = .ok raw := by
  unfold readObject at h ⊢
  cases hl : db.lookup id with
  | none => rw [hl] at h; exact absurd h (by simp)
  | some s => rw [hl] at h; rw [hsub id s hl]; exact h

/-- A row written by `insertObject` reads back. -/
theorem readObject_insert (hC : C.Lawful) (db : Table String Stored)
    (hlen : raw.length ≤ maxObjectBytes) :
    readObject C (db.insert (C.sha256Hex raw) (storedRow C raw)) (C.sha256Hex raw) = .ok raw := by
  simp [readObject, unpack_pack hC hlen, bind, Except.bind, pure, Except.pure]

theorem readObject_missing {id id' : String} (h : readObject C db id = .error (.missing id')) :
    db.lookup id = none := by
  unfold readObject at h
  cases hl : db.lookup id with
  | none => rfl
  | some s =>
    exfalso
    cases hu : unpack C s with
    | error e =>
      simp only [hl, hu, bind, Except.bind, Except.error.injEq] at h
      rw [h] at hu
      exact unpack_ne_missing s id' hu
    | ok raw =>
      simp only [hl, hu, bind, Except.bind] at h
      split_ifs at h <;> simp [pure, Except.pure] at h

/-! ### Writing objects -/

/-- Every object in the writer's cache is stored. -/
def KnownOk (C : Codec) (w : ObjectWriter) : Prop :=
  ∀ id b, w.known.lookup id = some b → readObject C w.store.objects id = .ok b

theorem knownOk_init (s : Store) : KnownOk C { store := s } := by
  intro id b h; exact absurd h (by simp)

/-- What one `insertObject` does to the object table. -/
theorem insertObject_objects {id : String} (h : insertObject C n id raw s = .ok s') :
    s'.objects = s.objects.insert id (storedRow C raw) := by
  unfold insertObject at h
  obtain ⟨edges, -, h⟩ := except_bind_ok.mp h
  rw [except_pure_ok] at h
  rw [← h]

theorem knownOk_insert {id : String} (hk : KnownOk C w) (hsub : Table.Sub w.store.objects db)
    {edges} (hread : readObject C db id = .ok raw) :
    KnownOk C { store := ⟨db, edges⟩, known := w.known.insert id raw } := by
  intro id' b hb
  by_cases he : id' = id
  · subst he
    rw [AList.lookup_insert] at hb
    cases hb; exact hread
  · rw [AList.lookup_insert_ne he] at hb
    exact readObject_mono hsub (hk id' b hb)

/-- `storeObject` extends the table, keeps the cache sound and leaves `raw` stored under its id. -/
theorem storeObject_spec (hC : C.Lawful) (hk : KnownOk C w) (hlen : raw.length ≤ maxObjectBytes)
    (h : storeObject C n (C.sha256Hex raw) raw w = .ok w') :
    Table.Sub w.store.objects w'.store.objects ∧ KnownOk C w' ∧
      readObject C w'.store.objects (C.sha256Hex raw) = .ok raw := by
  unfold storeObject at h
  cases hl : w.known.lookup (C.sha256Hex raw) with
  | some b =>
    rw [hl] at h
    simp only at h
    split_ifs at h with hne
    · cases h
      exact ⟨Table.Sub.refl _, hk, by rw [hk _ _ hl, not_not.mp hne]⟩
  | none =>
    rw [hl] at h
    simp only at h
    cases hr : readObject C w.store.objects (C.sha256Hex raw) with
    | ok old =>
      rw [hr] at h
      simp only at h
      split_ifs at h with hne
      · cases h
        rw [not_not.mp hne] at hr
        exact ⟨Table.Sub.refl _, knownOk_insert hk (Table.Sub.refl _) hr, hr⟩
    | error e =>
      rw [hr] at h
      cases e with
      | missing id' =>
        simp only at h
        obtain ⟨store, hs, h⟩ := except_bind_ok.mp h
        rw [except_pure_ok] at h
        subst h
        have hobj := insertObject_objects hs
        have hsub : Table.Sub w.store.objects store.objects := by
          rw [hobj]; exact Table.sub_insert (readObject_missing hr) _
        have hread : readObject C store.objects (C.sha256Hex raw) = .ok raw := by
          rw [hobj]; exact readObject_insert hC _ hlen
        exact ⟨hsub, knownOk_insert hk hsub hread, hread⟩
      | _ => simp at h

/-- `save` returns the id of the node's bytes, which are stored afterwards. -/
theorem save_spec (hC : C.Lawful) (hk : KnownOk C w) (h : save C n w = .ok (f, w')) :
    Table.Sub w.store.objects w'.store.objects ∧ KnownOk C w' ∧
      ∃ raw, nodeBytes C n = .ok raw ∧ f = { ref := C.sha256Hex raw } ∧
        readObject C w'.store.objects (C.sha256Hex raw) = .ok raw := by
  unfold save at h
  obtain ⟨raw, hraw, h⟩ := except_bind_ok.mp h
  split_ifs at h with hlen
  · obtain ⟨w₁, hw, h⟩ := except_bind_ok.mp h
    rw [except_pure_ok, Prod.mk.injEq] at h
    obtain ⟨rfl, rfl⟩ := h
    obtain ⟨hsub, hk', hread⟩ := storeObject_spec hC hk (by omega) hw
    exact ⟨hsub, hk', raw, hraw, rfl, hread⟩

theorem save_json (h : save C n w = .ok (f, w')) : f.json = [] := by
  rw [save] at h
  obtain ⟨raw, -, h⟩ := except_bind_ok.mp h
  split_ifs at h
  obtain ⟨w₁, -, h⟩ := except_bind_ok.mp h
  rw [except_pure_ok, Prod.mk.injEq] at h
  rw [← h.1]

/-! ### The text of a stored tree -/

/-- Rendering without the cycle guard: the text of the tree below a fragment, if it is at most `h`
    nodes high. -/
def text (C : Codec) (db : Table String Stored) : Nat → Fragment → Except Err Bytes
  | 0, f => if f.ref = "" then renderInline C f.json else .error .excessiveNesting
  | h + 1, f =>
    if f.ref = "" then renderInline C f.json
    else do
      let raw ← readObject C db f.ref
      let n ← decodeNode C raw
      renderNode C db (text C db h) n

theorem readChunks_mono (hsub : Table.Sub db db') :
    ∀ {ids : List String} {b : Bytes}, readChunks C db ids = .ok b → readChunks C db' ids = .ok b
  | [], _, h => h
  | id :: ids, b, h => by
    unfold readChunks at h ⊢
    obtain ⟨raw, hraw, h⟩ := except_bind_ok.mp h
    obtain ⟨c, hc, h⟩ := except_bind_ok.mp h
    refine except_bind_ok.mpr ⟨raw, readObject_mono hsub hraw, except_bind_ok.mpr ⟨c, hc, ?_⟩⟩
    split_ifs at h ⊢ with hbad
    · obtain ⟨rest, hrest, h⟩ := except_bind_ok.mp h
      exact except_bind_ok.mpr ⟨rest, readChunks_mono hsub hrest, h⟩

/-- A node's text does not change when its children and the table only gain successes. -/
theorem renderNode_mono (hsub : Table.Sub db db') {g g' : Fragment → Except Err Bytes}
    (hg : ∀ f ∈ n.children, ∀ t, g f = .ok t → g' f = .ok t) (h : renderNode C db g n = .ok out) :
    renderNode C db' g' n = .ok out := by
  unfold renderNode at h ⊢
  cases hkind : n.kind with
  | json => rw [hkind] at h; exact h
  | object =>
    rw [hkind] at h
    obtain ⟨ts, hts, h⟩ := except_bind_ok.mp h
    refine except_bind_ok.mpr ⟨ts, mapM_ok_mono (fun m hm t ht => ?_) hts, h⟩
    obtain ⟨t', ht', ht⟩ := except_bind_ok.mp ht
    have hmem : m.value ∈ n.children :=
      List.mem_append_left _ (List.mem_map.mpr ⟨m, hm, rfl⟩)
    exact except_bind_ok.mpr ⟨t', hg _ hmem _ ht', ht⟩
  | array =>
    rw [hkind] at h
    obtain ⟨ts, hts, h⟩ := except_bind_ok.mp h
    exact except_bind_ok.mpr ⟨ts, mapM_ok_mono (fun f hf t ht =>
      hg f (List.mem_append_right _ hf) t ht) hts, h⟩
  | string | hex =>
    rw [hkind] at h
    obtain ⟨b, hb, h⟩ := except_bind_ok.mp h
    exact except_bind_ok.mpr ⟨b, readChunks_mono hsub hb, h⟩
  | bytes | other => rw [hkind] at h; simp at h

/-- The text of a tree is stable under extension of the table and under a larger height bound. -/
theorem text_mono (hsub : Table.Sub db db') :
    ∀ {h h' : Nat} {f : Fragment} {out : Bytes}, h ≤ h' → text C db h f = .ok out →
      text C db' h' f = .ok out
  | 0, h', f, out, _, ht => by
    unfold text at ht
    split_ifs at ht with hin
    cases h' <;> simp only [text, if_pos hin] <;> exact ht
  | h + 1, 0, _, _, hle, _ => by omega
  | h + 1, h' + 1, f, out, hle, ht => by
    unfold text at ht ⊢
    split_ifs at ht ⊢ with hin
    · exact ht
    · obtain ⟨raw, hraw, ht⟩ := except_bind_ok.mp ht
      obtain ⟨n, hn, ht⟩ := except_bind_ok.mp ht
      refine except_bind_ok.mpr ⟨raw, readObject_mono hsub hraw, except_bind_ok.mpr ⟨n, hn, ?_⟩⟩
      exact renderNode_mono hsub (fun c _ t hc => text_mono hsub (by omega) hc) ht

variable {h : Nat} {key : String}

/-- Two height bounds give the same text. -/
theorem text_unique {h' : Nat} {out' : Bytes} (ht : text C db h f = .ok out)
    (ht' : text C db h' f = .ok out') : out = out' := by
  have h₁ := text_mono (Table.Sub.refl db) (le_max_left h h') ht
  have h₂ := text_mono (Table.Sub.refl db) (le_max_right h h') ht'
  rw [h₁] at h₂
  exact Except.ok.inj h₂

/-- Only the reference of a non-inline fragment matters. -/
theorem text_ref (hf : f.ref ≠ "") (h : Nat) : text C db h f = text C db h { ref := f.ref } := by
  cases h <;> simp only [text, if_neg hf]

/-- The guarded renderer finds the text of every finite tree: at a node of least height `h` none of
    the nodes being visited has a text of height `h`, so the node is not one of them. -/
theorem render_of_text : ∀ (h : Nat) {k : Nat} {f : Fragment}
    {out : Bytes} {visiting : List String}, text C db h f = .ok out → h ≤ k →
    (∀ a ∈ visiting, ∀ t, text C db h { ref := a } ≠ .ok t) →
    render C db k visiting f = .ok out := by
  intro h
  induction h using Nat.strong_induction_on with
  | _ h ih =>
    intro k f out visiting ht hk hv
    by_cases hin : f.ref = ""
    · cases h <;> cases k <;> simp only [text, render, if_pos hin] at ht ⊢ <;> exact ht
    by_cases hmin : ∃ h' < h, ∃ t, text C db h' f = .ok t
    · obtain ⟨h', hlt, t, ht'⟩ := hmin
      rw [text_unique ht ht']
      refine ih h' hlt ht' (by omega) (fun a ha t' hta => ?_)
      exact hv a ha t' (text_mono (Table.Sub.refl db) (by omega) hta)
    · -- `h` is the least height of `f`
      cases h with
      | zero => simp [text, hin] at ht
      | succ h =>
        obtain ⟨k, rfl⟩ : ∃ k', k = k' + 1 := ⟨k - 1, by omega⟩
        have hnot : f.ref ∉ visiting := by
          intro hmem
          rw [text_ref hin] at ht
          exact hv _ hmem _ ht
        unfold text at ht
        unfold render
        rw [if_neg hin] at ht
        rw [if_neg hin, if_neg hnot]
        obtain ⟨raw, hraw, ht⟩ := except_bind_ok.mp ht
        obtain ⟨n, hn, ht⟩ := except_bind_ok.mp ht
        refine except_bind_ok.mpr ⟨raw, hraw, except_bind_ok.mpr ⟨n, hn, ?_⟩⟩
        refine renderNode_mono (Table.Sub.refl db) (fun c _ t hc => ?_) ht
        refine ih h (by omega) hc (by omega) (fun a ha t' hta => ?_)
        rcases List.mem_cons.mp ha with rfl | ha
        · exact hmin ⟨h, by omega, t', by rw [text_ref hin]; exact hta⟩
        · exact hv a ha t' (text_mono (Table.Sub.refl db) (by omega) hta)

/-- A payload that decodes keeps its text when the table is extended. -/
theorem render_mono (hsub : Table.Sub db db') :
    ∀ {k : Nat} {visiting : List String} {f : Fragment} {out : Bytes},
      render C db k visiting f = .ok out → render C db' k visiting f = .ok out
  | 0, _, _, _, h => h
  | k + 1, visiting, f, out, h => by
    unfold render at h ⊢
    split_ifs at h ⊢ with hin hvis
    · exact h
    · obtain ⟨raw, hraw, h⟩ := except_bind_ok.mp h
      obtain ⟨n, hn, h⟩ := except_bind_ok.mp h
      refine except_bind_ok.mpr ⟨raw, readObject_mono hsub hraw, except_bind_ok.mpr ⟨n, hn, ?_⟩⟩
      exact renderNode_mono hsub (fun c _ t hc => render_mono hsub hc) h

theorem decodePayload_mono (hsub : Table.Sub db db') (h : decodePayload C db payload = .ok out) :
    decodePayload C db' payload = .ok out := by
  unfold decodePayload at h ⊢
  obtain ⟨root, hroot, h⟩ := except_bind_ok.mp h
  refine except_bind_ok.mpr ⟨root, hroot, ?_⟩
  split_ifs at h ⊢
  · exact h
  · exact render_mono hsub h

/-! ### A rule for the encoder -/

theorem saveContainer_cases (h : saveContainer C v n w = .ok (f, w')) :
    (∃ b, marshal C.toJson v = some b ∧ b.length < 512 ∧ f = { json := b } ∧ w' = w) ∨
      save C n w = .ok (f, w') := by
  rw [saveContainer] at h
  split_ifs at h
  · cases hb : marshal C.toJson v with
    | none => rw [hb] at h; simp at h
    | some b =>
      rw [hb] at h
      simp only at h
      split_ifs at h with hlen
      · rw [Tx.pure_ok] at h
        exact .inl ⟨b, rfl, hlen, h.1.symm, h.2.symm⟩
      · exact .inr h
  · exact .inr h

theorem stringValue_cases {s : Bytes} (h : stringValue C s key w = .ok (f, w')) :
    (f = { json := C.quote s } ∧ w' = w) ∨ ∃ ids w₁,
      saveChunks C (stringKind s key).2.length (stringKind s key).2 w = .ok (ids, w₁) ∧
        save C { kind := (stringKind s key).1, chunks := ids } w₁ = .ok (f, w') := by
  rw [stringValue] at h
  split_ifs at h
  · rw [Tx.pure_ok] at h
    exact .inl ⟨h.1.symm, h.2.symm⟩
  · exact .inr (Tx.bind_ok.mp h)

/-- What holds of a run over no data, and of one that saves a chunk before it goes on, holds of every
    run that saves all the data. -/
theorem saveChunks_rule {Q : Bytes → ObjectWriter → List String → ObjectWriter → Prop}
    (nil : ∀ w, Q [] w [] w)
    (cons : ∀ data w f w₁ ids w₂, save C { kind := .bytes, data := data.take chunkBytes } w = .ok (f, w₁) →
      Q (data.drop chunkBytes) w₁ ids w₂ → Q data w (f.ref :: ids) w₂) :
    ∀ (k : Nat) {data : Bytes} {w w' : ObjectWriter} {ids : List String}, data.length ≤ k →
      saveChunks C k data w = .ok (ids, w') → Q data w ids w'
  | 0, data, w, w', ids, hlen, h => by
    rw [saveChunks, Tx.pure_ok] at h
    obtain ⟨rfl, rfl⟩ := h
    rw [List.eq_nil_of_length_eq_zero (Nat.le_zero.mp hlen)]
    exact nil w
  | k + 1, data, w, w', ids, hlen, h => by
    rw [saveChunks] at h
    split_ifs at h with hempty
    · rw [Tx.pure_ok] at h
      obtain ⟨rfl, rfl⟩ := h
      rw [List.isEmpty_iff.mp hempty]
      exact nil w
    · obtain ⟨f, w₁, hs, h⟩ := Tx.bind_ok.mp h
      obtain ⟨rest, w₂, hrest, h⟩ := Tx.bind_ok.mp h
      rw [Tx.pure_ok] at h
      obtain ⟨rfl, rfl⟩ := h
      refine cons data w f w₁ rest _ hs (saveChunks_rule nil cons k ?_ hrest)
      rw [List.length_drop]
      simp only [chunkBytes]
      omega

/-- The values that are stored as their text. -/
def Value.Atomic : Value → Prop
  | .ref _ | .str _ | .struct _ | .map _ | .slice _ => False
  | _ => True

/-- What has to hold of each way to encode a value, `P`, and of members one after another, `Q`, to hold
    of every run of the encoder. -/
structure EncodeRules (C : Codec) (P : Value → String → ObjectWriter → Fragment → ObjectWriter → Prop)
    (Q : List (String × Value) → ObjectWriter → List Member → ObjectWriter → Prop) : Prop where
  inline : ∀ v key w b, Value.Atomic v → marshal C.toJson v = some b → P v key w { json := b } w
  ref : ∀ v key w f w', P v key w f w' → P (.ref v) key w f w'
  string : ∀ s key w f w', stringValue C s key w = .ok (f, w') → P (.str s) key w f w'
  object : ∀ v kvs key w ms w₁ f w', v.members = some kvs → Q kvs w ms w₁ →
    saveContainer C v { kind := .object, fields := ms } w₁ = .ok (f, w') → P v key w f w'
  array : ∀ xs key w ms w₁ f w', Q (xs.map (key, ·)) w ms w₁ →
    saveContainer C (.slice xs) { kind := .array, items := ms.map (·.value) } w₁ = .ok (f, w') →
    P (.slice xs) key w f w'
  nil : ∀ w, Q [] w [] w
  cons : ∀ key v kvs w f w₁ ms w₂, P v key w f w₁ → Q kvs w₁ ms w₂ →
    Q ((key, v) :: kvs) w (⟨key, f⟩ :: ms) w₂

section
variable {P : Value → String → ObjectWriter → Fragment → ObjectWriter → Prop}
  {Q : List (String × Value) → ObjectWriter → List Member → ObjectWriter → Prop}

theorem EncodeRules.atomic (r : EncodeRules C P Q) (h : inlineValue C v w = .ok (f, w'))
    (hv : Value.Atomic v) : P v key w f w' := by
  rw [inlineValue] at h
  cases hb : marshal C.toJson v with
  | none => rw [hb] at h; simp at h
  | some b =>
    rw [hb, Tx.pure_ok] at h
    obtain ⟨rfl, rfl⟩ := h
    exact r.inline v key w b hv hb

/-- The encoder's hand-written `omitempty` test is the one of `encoding/json`. -/
theorem emptyValue_eq (v : Value) : emptyValue v = isEmptyValue v := by
  have hlen : ∀ {α : Type} (xs : List α), (xs.length == 0) = xs.isEmpty := by
    intro α xs; cases xs <;> rfl
  cases v <;> simp [emptyValue, isEmptyValue, hlen]

mutual
theorem EncodeRules.value (r : EncodeRules C P Q) : ∀ (v : Value) {key : String}
    {w w' : ObjectWriter} {f : Fragment}, encode C v key w = .ok (f, w') → P v key w f w'
  | .nil, _, _, _, _, h => by
    rw [encode, Tx.pure_ok] at h
    obtain ⟨rfl, rfl⟩ := h
    exact r.inline _ _ _ _ trivial rfl
  | .ref v, _, _, _, _, h => by
    rw [encode] at h
    exact r.ref _ _ _ _ _ (r.value v h)
  | .str s, _, _, _, _, h => by
    rw [encode] at h
    exact r.string _ _ _ _ _ h
  | .struct fs, _, _, _, _, h => by
    rw [encode] at h
    obtain ⟨ms, w₁, hms, h⟩ := Tx.bind_ok.mp h
    exact r.object _ _ _ _ _ _ _ _ rfl (r.fields fs rfl hms) h
  | .map kvs, _, _, _, _, h => by
    rw [encode] at h
    obtain ⟨ms, w₁, hms, h⟩ := Tx.bind_ok.mp h
    exact r.object _ _ _ _ _ _ _ _ rfl (r.entries kvs hms) h
  | .slice xs, _, _, _, _, h => by
    rw [encode] at h
    obtain ⟨fs, w₁, hfs, h⟩ := Tx.bind_ok.mp h
    obtain ⟨ms, rfl, hms⟩ := r.items xs hfs
    exact r.array _ _ _ _ _ _ _ hms h
  | .bool _, _, _, _, _, h => by rw [encode] at h; exact r.atomic h trivial
  | .int _, _, _, _, _, h => by rw [encode] at h; exact r.atomic h trivial
  | .uint _, _, _, _, _, h => by rw [encode] at h; exact r.atomic h trivial
  | .float _ _, _, _, _, _, h => by rw [encode] at h; exact r.atomic h trivial
  | .number _, _, _, _, _, h => by rw [encode] at h; exact r.atomic h trivial
  | .marshaler _ _, _, _, _, _, h => by rw [encode] at h; exact r.atomic h trivial
  | .bytes _, _, _, _, _, h => by rw [encode] at h; exact r.atomic h trivial

theorem EncodeRules.fields (r : EncodeRules C P Q) : ∀ (fs : List (Tag × Value))
    {kvs : List (String × Value)} {w w' : ObjectWriter} {ms : List Member},
    (Value.struct fs).members = some kvs → encodeFields C fs w = .ok (ms, w') → Q kvs w ms w'
  | [], _, w, _, _, hkvs, h => by
    rw [encodeFields, Tx.pure_ok] at h
    obtain ⟨rfl, rfl⟩ := h
    cases hkvs
    exact r.nil w
  | (tag, v) :: fs, _, w, w', ms, hkvs, h => by
    rw [encodeFields, emptyValue_eq] at h
    rw [Value.members, List.filter_cons] at hkvs
    split_ifs at h hkvs with hskip hkeep
    · simp [hskip] at hkeep
    · exact r.fields fs hkvs h
    · obtain ⟨f, w₁, hf, h⟩ := Tx.bind_ok.mp h
      obtain ⟨rest, w₂, hrest, h⟩ := Tx.bind_ok.mp h
      rw [Tx.pure_ok] at h
      obtain ⟨rfl, rfl⟩ := h
      cases hkvs
      exact r.cons _ _ _ _ _ _ _ _ (r.value v hf) (r.fields fs rfl hrest)
    · next hkeep => simp [hskip] at hkeep

theorem EncodeRules.entries (r : EncodeRules C P Q) : ∀ (kvs : List (String × Value))
    {w w' : ObjectWriter} {ms : List Member}, encodeEntries C kvs w = .ok (ms, w') → Q kvs w ms w'
  | [], w, _, _, h => by
    rw [encodeEntries, Tx.pure_ok] at h
    obtain ⟨rfl, rfl⟩ := h
    exact r.nil w
  | (key, v) :: kvs, _, _, _, h => by
    rw [encodeEntries] at h
    obtain ⟨f, w₁, hf, h⟩ := Tx.bind_ok.mp h
    obtain ⟨rest, w₂, hrest, h⟩ := Tx.bind_ok.mp h
    rw [Tx.pure_ok] at h
    obtain ⟨rfl, rfl⟩ := h
    exact r.cons _ _ _ _ _ _ _ _ (r.value v hf) (r.entries kvs hrest)

theorem EncodeRules.items (r : EncodeRules C P Q) : ∀ (xs : List Value) {key : String}
    {w w' : ObjectWriter} {fs : List Fragment}, encodeItems C xs key w = .ok (fs, w') →
    ∃ ms : List Member, fs = ms.map (·.value) ∧ Q (xs.map (key, ·)) w ms w'
  | [], _, w, _, _, h => by
    rw [encodeItems, Tx.pure_ok] at h
    obtain ⟨rfl, rfl⟩ := h
    exact ⟨[], rfl, r.nil w⟩
  | v :: vs, key, _, _, _, h => by
    rw [encodeItems] at h
    obtain ⟨f, w₁, hf, h⟩ := Tx.bind_ok.mp h
    obtain ⟨rest, w₂, hrest, h⟩ := Tx.bind_ok.mp h
    rw [Tx.pure_ok] at h
    obtain ⟨rfl, rfl⟩ := h
    obtain ⟨ms, rfl, hms⟩ := r.items vs hrest
    exact ⟨⟨key, f⟩ :: ms, rfl, r.cons _ _ _ _ _ _ _ _ (r.value v hf) hms⟩
end

end

/-- A struct or a map is marshalled as its members. -/
theorem marshal_members {J : Json} : ∀ {v : Value} {kvs : List (String × Value)},
    v.members = some kvs → marshal J v =
      (marshalEntries J kvs).map fun ts => utf8 "\x7b" ++ joinComma ts ++ utf8 "\x7d"
  | .ref v, kvs, h => by
    rw [marshal]
    exact marshal_members h
  | .map kvs, _, h => by
    cases h
    rw [marshal]
  | .struct fs, _, h => by
    cases h
    rw [marshal]
    congr 1
    induction fs with
    | nil => rfl
    | cons f fs ih =>
      rw [marshalFields, List.filter_cons, ih]
      cases f.1.omitempty && isEmptyValue f.2 <;> rfl

theorem nesting_members {J : Json} : ∀ {v : Value} {kvs : List (String × Value)},
    v.members = some kvs → nestingEntries J kvs + 1 ≤ nesting J v
  | .ref v, kvs, h => by
    rw [nesting]
    exact nesting_members h
  | .map kvs, _, h => by
    cases h
    rw [nesting]
    omega
  | .struct fs, _, h => by
    cases h
    rw [nesting]
    induction fs with
    | nil => simp
    | cons f fs ih =>
      rw [List.filter_cons, nestingFields]
      cases f.1.omitempty && isEmptyValue f.2
      · rw [if_pos Bool.not_false, List.map_cons, nestingEntries]
        omega
      · rw [if_neg (by simp)]
        omega

theorem values_items (key : String) (xs : List Value) : (xs.map (key, ·)).map (·.2) = xs := by
  simp [Function.comp_def]

theorem nestingEntries_items (J : Json) (key : String) (xs : List Value) :
    nestingEntries J (xs.map (key, ·)) = nestingItems J xs := by
  induction xs with
  | nil => rfl
  | cons x xs ih => rw [List.map_cons, nestingEntries, nestingItems, ih]

/-! ### What the encoder leaves behind -/

/-- A fragment that storing and reloading its node does not change. -/
def Fragment.Fixed (J : Json) (f : Fragment) : Prop :=
  f.json = [] ∨ (J.compact f.json = f.json ∧ J.depth f.json + 4 ≤ maxNestingDepth)

theorem Fragment.Fixed.compacted {J : Json} (h : f.Fixed J) : f.compacted J = f := by
  unfold Fragment.compacted
  rcases h with h | ⟨h, -⟩
  · rw [if_pos h, ← h]
  · split_ifs with he
    · rw [← he]
    · rw [h]

theorem fixed_ref (J : Json) (id : String) : Fragment.Fixed J { ref := id } := Or.inl rfl

/-- The nesting up to which the format is lossless, with room for the node around a text. -/
def maxNesting : Nat := maxNestingDepth - 4

theorem fixed_inline (hC : C.Lawful) (hn : nesting C.toJson v ≤ maxNesting)
    (h : marshal C.toJson v = some b) : Fragment.Fixed C.toJson { json := b } := by
  have hd := hC.depth_marshal v b h
  have hn' : nesting C.toJson v + 4 ≤ maxNestingDepth := by
    simp only [maxNesting, maxNestingDepth] at hn ⊢; omega
  exact Or.inr ⟨hC.compact_marshal v b h (by omega), by show C.depth b + 4 ≤ _; omega⟩

/-- The bytes of a node other than a chunk are its JSON text. -/
theorem nodeBytes_ok (hk : n.kind ≠ .bytes) (h : nodeBytes C n = .ok raw) :
    C.marshalNode n = some raw := by
  rw [nodeBytes, if_neg hk] at h
  cases hm : C.marshalNode n with
  | none => rw [hm] at h; cases h
  | some raw' => rw [hm] at h; cases h; rfl

/-- The text of a node is not taken for a chunk. -/
theorem decodeNode_iff (hC : C.Lawful) {n' : ContentNode} (hm : C.marshalNode n = some raw) :
    decodeNode C raw = .ok n' ↔ C.unmarshalNode raw = some n' := by
  have hhead := hC.marshalNode_head n raw hm
  unfold decodeNode
  split
  · simp at hhead
  · cases C.unmarshalNode raw <;> simp

theorem ContentNode.compacted_eq {J : Json} (h : ∀ c ∈ n.children, c.compacted J = c) :
    n.compacted J = n := by
  have hf : n.fields.map (fun m => { m with value := m.value.compacted J }) = n.fields := by
    conv_rhs => rw [← List.map_id n.fields]
    refine List.map_congr_left (fun m hm => ?_)
    rw [h m.value (List.mem_append_left _ (List.mem_map.mpr ⟨m, hm, rfl⟩))]; rfl
  have hi : n.items.map (Fragment.compacted J) = n.items := by
    conv_rhs => rw [← List.map_id n.items]
    exact List.map_congr_left (fun f hf => h f (List.mem_append_right _ hf))
  unfold ContentNode.compacted
  rw [hf, hi]

/-- A node all of whose fragments are fixed reloads as itself. -/
theorem decodeNode_of_fixed (hC : C.Lawful) (hk : n.kind ≠ .bytes)
    (hfix : ∀ f ∈ n.children, f.Fixed C.toJson) (h : nodeBytes C n = .ok raw) :
    decodeNode C raw = .ok n := by
  have hm := nodeBytes_ok hk h
  have hback := hC.unmarshalNode_marshalNode n raw hm (fun c hc => (hfix c hc).imp id And.right)
  rw [ContentNode.compacted_eq fun c hc => (hfix c hc).compacted] at hback
  exact (decodeNode_iff hC hm).mpr hback

theorem decodeNode_bytes (data : Bytes) : decodeNode C (0 :: data) = .ok { kind := .bytes, data } :=
  rfl

theorem sha256Hex_ne_empty (hC : C.Lawful) (b : Bytes) : C.sha256Hex b ≠ "" := by
  intro h
  have := hC.sha256Hex_length b
  rw [h] at this
  exact absurd this (by decide)

/-- The text below a reference to a stored node. -/
theorem text_of_node (hC : C.Lawful) (hread : readObject C db (C.sha256Hex raw) = .ok raw)
    (hdec : decodeNode C raw = .ok n) (h : Nat) :
    text C db (h + 1) { ref := C.sha256Hex raw } = renderNode C db (text C db h) n := by
  unfold text
  rw [if_neg (sha256Hex_ne_empty hC raw), hread]
  simp only [bind, Except.bind, hdec]

/-- The text of an inline fragment. -/
theorem text_inline (hC : C.Lawful) (db : Table String Stored)
    (hn : nesting C.toJson v ≤ maxNesting) (h : marshal C.toJson v = some b) (k : Nat) :
    text C db k { json := b } = .ok b := by
  have hd : C.depth b ≤ maxNestingDepth :=
    (hC.depth_marshal v b h).trans (hn.trans (Nat.sub_le _ _))
  cases k <;> simp [text, renderInline, hC.valid_marshal v b h hd]

/-- The state of affairs after encoding a value: the table was extended, the cache is sound, and the
    fragment's text over any later table is the marshalled value. -/
structure Encoded (C : Codec) (w w' : ObjectWriter) (h : Nat) (f : Fragment) (v : Value) : Prop where
  sub : Table.Sub w.store.objects w'.store.objects
  known : KnownOk C w'
  fixed : f.Fixed C.toJson
  text : ∃ out, marshal C.toJson v = some out ∧ text C w'.store.objects h f = .ok out

theorem encoded_inline (hC : C.Lawful) (hk : KnownOk C w) (hn : nesting C.toJson v ≤ maxNesting)
    (h : marshal C.toJson v = some b) (k : Nat) :
    Encoded C w w k { json := b } v :=
  ⟨Table.Sub.refl _, hk, fixed_inline hC hn h, b, h, text_inline hC _ hn h k⟩

/-- Saving the node of a container whose text is the marshalled value. -/
theorem encoded_save (hC : C.Lawful) (hk : KnownOk C w) (hs : save C n w = .ok (f, w'))
    (hkind : n.kind ≠ .bytes) (hfix : ∀ c ∈ n.children, c.Fixed C.toJson)
    (hv : marshal C.toJson v = some out)
    (htext : ∀ db, Table.Sub w.store.objects db → renderNode C db (Queue.text C db h) n = .ok out) :
    Encoded C w w' (h + 1) f v := by
  obtain ⟨hsub, hk', raw, hraw, rfl, hread⟩ := save_spec hC hk hs
  refine ⟨hsub, hk', fixed_ref _ _, out, hv, ?_⟩
  rw [text_of_node hC hread (decodeNode_of_fixed hC hkind hfix hraw)]
  exact htext _ hsub

theorem saveContainer_spec (hC : C.Lawful) (hk : KnownOk C w) (hn : nesting C.toJson v ≤ maxNesting)
    (hs : saveContainer C v n w = .ok (f, w')) (hkind : n.kind ≠ .bytes)
    (hfix : ∀ c ∈ n.children, c.Fixed C.toJson) (hv : marshal C.toJson v = some out)
    (htext : ∀ db, Table.Sub w.store.objects db → renderNode C db (Queue.text C db h) n = .ok out) :
    Encoded C w w' (h + 1) f v := by
  rcases saveContainer_cases hs with ⟨b, hb, -, rfl, rfl⟩ | hs
  · exact encoded_inline hC hk hn hb _
  · exact encoded_save hC hk hs hkind hfix hv htext

/-! ### Strings -/

/-- The chunks of a string read back as the string. -/
theorem saveChunks_spec (hC : C.Lawful) {data : Bytes} {ids : List String} (hk : KnownOk C w)
    (h : saveChunks C data.length data w = .ok (ids, w')) :
    Table.Sub w.store.objects w'.store.objects ∧ KnownOk C w' ∧
      readChunks C w'.store.objects ids = .ok data := by
  refine saveChunks_rule (Q := fun data w ids w' => KnownOk C w →
    Table.Sub w.store.objects w'.store.objects ∧ KnownOk C w' ∧
      readChunks C w'.store.objects ids = .ok data) ?_ ?_ _ (Nat.le_refl _) h hk
  · exact fun w hk => ⟨Table.Sub.refl _, hk, rfl⟩
  · intro data w f w₁ ids w₂ hs ih hk
    obtain ⟨hsub₁, hk₁, raw, hraw, rfl, hread⟩ := save_spec hC hk hs
    obtain ⟨hsub₂, hk₂, hchunks⟩ := ih hk₁
    refine ⟨hsub₁.trans hsub₂, hk₂, ?_⟩
    cases hraw
    refine except_bind_ok.mpr ⟨_, readObject_mono hsub₂ hread, except_bind_ok.mpr
      ⟨_, decodeNode_bytes _, ?_⟩⟩
    rw [if_neg (by simp [List.length_take])]
    refine except_bind_ok.mpr ⟨_, hchunks, ?_⟩
    rw [except_pure_ok, List.take_append_drop]

/-- What the stored form of a string says about it. -/
theorem stringKind_cases (s : Bytes) (key : String) :
    stringKind s key = (.string, s) ∨ ∃ b, stringKind s key = (.hex, b) ∧ hexEncode b = s := by
  unfold stringKind
  split_ifs with hsuf
  · cases hd : hexDecode s with
    | none => exact Or.inl rfl
    | some b =>
      by_cases he : hexEncode b = s
      · exact Or.inr ⟨b, by simp [he], he⟩
      · exact Or.inl (by simp [he])
  · exact Or.inl rfl

theorem stringValue_spec (hC : C.Lawful) {s : Bytes} (hk : KnownOk C w)
    (h : stringValue C s key w = .ok (f, w')) : Encoded C w w' 1 f (.str s) := by
  have hv : marshal C.toJson (.str s) = some (C.quote s) := rfl
  rcases stringValue_cases h with ⟨rfl, rfl⟩ | ⟨ids, w₁, hids, h⟩
  · exact encoded_inline hC hk (Nat.zero_le _) hv 1
  · obtain ⟨hsub, hk₁, hchunks⟩ := saveChunks_spec hC hk hids
    have hrender : (stringKind s key).1 ≠ .bytes ∧ ∀ db,
        readChunks C db ids = .ok (stringKind s key).2 → renderNode C db (Queue.text C db 0)
          { kind := (stringKind s key).1, chunks := ids } = .ok (C.quote s) := by
      rcases stringKind_cases s key with hkd | ⟨b, hkd, hb⟩
      · rw [hkd]
        refine ⟨by simp, fun db hids => ?_⟩
        simp only [renderNode, hids, bind, Except.bind, pure, Except.pure]
      · rw [hkd]
        refine ⟨by simp, fun db hids => ?_⟩
        simp only [renderNode, hids, bind, Except.bind, pure, Except.pure, hb]
    have henc : Encoded C w₁ w' 1 f (.str s) :=
      encoded_save hC hk₁ h hrender.1 (by simp [ContentNode.children]) hv
        (fun db hdb => hrender.2 db (readChunks_mono hdb hchunks))
    exact ⟨hsub.trans henc.sub, henc.known, henc.fixed, henc.text⟩

/-! ### Containers -/

/-- The children of a container after encoding: over any later table, the texts of `xs` (each shown
    through `label`) are `ts`. Members show a key and a value, items just their value. -/
structure EncodedList {α : Type} (C : Codec) (frag : α → Fragment) (label : α → Bytes → Bytes)
    (w w' : ObjectWriter) (h : Nat) (xs : List α) (ts : List Bytes) : Prop where
  sub : Table.Sub w.store.objects w'.store.objects
  known : KnownOk C w'
  fixed : ∀ x ∈ xs, (frag x).Fixed C.toJson
  texts : ∀ db, Table.Sub w'.store.objects db →
    xs.mapM (fun x => do let t ← text C db h (frag x); return label x t) = .ok ts

section
variable {α : Type} {frag : α → Fragment} {label : α → Bytes → Bytes}

theorem EncodedList.nil (hk : KnownOk C w) (h : Nat) : EncodedList C frag label w w h [] [] :=
  ⟨Table.Sub.refl _, hk, by simp, fun _ _ => rfl⟩

/-- Growing the height bound of an encoded list. -/
theorem EncodedList.mono {h' : Nat} {xs : List α} (hle : h ≤ h')
    (hxs : EncodedList C frag label w w' h xs ts) : EncodedList C frag label w w' h' xs ts := by
  refine ⟨hxs.sub, hxs.known, hxs.fixed, fun db hdb => ?_⟩
  refine mapM_ok_mono (fun y _ u hu => ?_) (hxs.texts db hdb)
  obtain ⟨u', hu', hu⟩ := except_bind_ok.mp hu
  exact except_bind_ok.mpr ⟨u', text_mono (Table.Sub.refl db) hle hu', hu⟩

theorem EncodedList.cons {w₂ : ObjectWriter} {h₁ h₂ : Nat} {x : α} {xs : List α} {t : Bytes}
    (hx : Encoded C w w₁ (h₁ + 1) (frag x) v) (hv : marshal C.toJson v = some t)
    (hxs : EncodedList C frag label w₁ w₂ (h₂ + 1) xs ts) :
    EncodedList C frag label w w₂ (max h₁ h₂ + 1) (x :: xs) (label x t :: ts) := by
  refine ⟨hx.sub.trans hxs.sub, hxs.known, ?_, fun db hdb => ?_⟩
  · intro y hy
    rcases List.mem_cons.mp hy with rfl | hy
    · exact hx.fixed
    · exact hxs.fixed y hy
  · obtain ⟨out, hout, htext⟩ := hx.text
    rw [hv] at hout
    cases hout
    refine mapM_cons_ok.mpr ⟨label x t, ts, ?_, ?_, rfl⟩
    · exact except_bind_ok.mpr ⟨t, text_mono (hxs.sub.trans hdb) (by omega) htext, rfl⟩
    · exact (hxs.mono (by omega : h₂ + 1 ≤ max h₁ h₂ + 1)).texts db hdb

end

/-- Members after encoding. -/
abbrev EncodedMembers (C : Codec) (w w' : ObjectWriter) (h : Nat) (ms : List Member)
    (ts : List Bytes) : Prop :=
  EncodedList C Member.value (fun m t => memberText C.toJson m.key t) w w' h ms ts

/-- Items after encoding. -/
abbrev EncodedItems (C : Codec) (w w' : ObjectWriter) (h : Nat) (fs : List Fragment)
    (ts : List Bytes) : Prop :=
  EncodedList C id (fun _ t => t) w w' h fs ts

section
variable (hC : C.Lawful)
include hC

theorem encoded_object {ms : List Member} (hn : nesting C.toJson v ≤ maxNesting)
    (hms : EncodedMembers C w w₁ h ms ts)
    (hv : marshal C.toJson v = some (utf8 "\x7b" ++ joinComma ts ++ utf8 "\x7d"))
    (hs : saveContainer C v { kind := .object, fields := ms } w₁ = .ok (f, w')) :
    Encoded C w w' (h + 1) f v := by
  have hfix : ∀ c ∈ (ContentNode.mk .object [] ms [] []).children, c.Fixed C.toJson := by
    intro c hc
    simp only [ContentNode.children, List.append_nil, List.mem_map] at hc
    obtain ⟨m, hm, rfl⟩ := hc
    exact hms.fixed m hm
  have henc := saveContainer_spec hC hms.known hn hs (by simp) hfix hv (fun db hdb => by
    simp only [renderNode]
    exact except_bind_ok.mpr ⟨ts, hms.texts db hdb, rfl⟩)
  exact ⟨hms.sub.trans henc.sub, henc.known, henc.fixed, henc.text⟩

theorem encoded_array {fs : List Fragment} (hn : nesting C.toJson v ≤ maxNesting)
    (hfs : EncodedItems C w w₁ h fs ts)
    (hv : marshal C.toJson v = some (utf8 "[" ++ joinComma ts ++ utf8 "]"))
    (hs : saveContainer C v { kind := .array, items := fs } w₁ = .ok (f, w')) :
    Encoded C w w' (h + 1) f v := by
  have hfix : ∀ c ∈ (ContentNode.mk .array [] [] fs []).children, c.Fixed C.toJson := by
    intro c hc
    exact hfs.fixed c (by simpa [ContentNode.children] using hc)
  have henc := saveContainer_spec hC hfs.known hn hs (by simp) hfix hv (fun db hdb => by
    simp only [renderNode]
    refine except_bind_ok.mpr ⟨ts, mapM_ok_mono (fun c _ t ht => ?_) (hfs.texts db hdb), rfl⟩
    obtain ⟨t', ht', ht⟩ := except_bind_ok.mp ht
    rw [except_pure_ok] at ht
    rw [← ht]; exact ht')
  exact ⟨hfs.sub.trans henc.sub, henc.known, henc.fixed, henc.text⟩

/-- The texts of values encoded one after another, as members and as items. -/
theorem encoded_rules : EncodeRules C
    (fun v _ w f w' => nesting C.toJson v ≤ maxNesting → KnownOk C w →
      Encoded C w w' (nesting C.toJson v + 1) f v)
    (fun kvs w ms w' => nestingEntries C.toJson kvs ≤ maxNesting → KnownOk C w → ∃ ts us,
      marshalEntries C.toJson kvs = some ts ∧ marshalItems C.toJson (kvs.map (·.2)) = some us ∧
        EncodedMembers C w w' (nestingEntries C.toJson kvs + 1) ms ts ∧
        EncodedItems C w w' (nestingEntries C.toJson kvs + 1) (ms.map (·.value)) us) where
  inline v _ w b _ hb hn hk := encoded_inline hC hk hn hb _
  ref v _ w f w' ih hn hk := by
    rw [nesting] at hn
    have henc := ih hn hk
    exact ⟨henc.sub, henc.known, henc.fixed, by simpa only [marshal, nesting] using henc.text⟩
  string s key w f w' h _ hk := stringValue_spec hC hk h
  object v kvs _ w ms w₁ f w' hkvs ih hs hn hk := by
    have hlt := nesting_members (J := C.toJson) hkvs
    obtain ⟨ts, us, hts, -, hms, -⟩ := ih (by omega) hk
    have hv := marshal_members (J := C.toJson) hkvs
    rw [hts, Option.map_some] at hv
    exact encoded_object hC hn (hms.mono hlt) hv hs
  array xs key w ms w₁ f w' ih hs hn hk := by
    have hnest := nestingEntries_items C.toJson key xs
    obtain ⟨ts, us, -, hus, -, hfs⟩ := ih (by rw [nesting] at hn; omega) hk
    rw [values_items] at hus
    exact encoded_array hC hn (hfs.mono (by rw [nesting, hnest]; omega)) (by rw [marshal, hus]; rfl) hs
  nil w _ hk := ⟨[], [], rfl, rfl, EncodedList.nil hk _, EncodedList.nil hk _⟩
  cons key v kvs w f w₁ ms w₂ hv ih hn hk := by
    rw [nestingEntries, Nat.max_le] at hn
    have henc := hv hn.1 hk
    obtain ⟨ts, us, hts, hus, hms, hfs⟩ := ih hn.2 henc.known
    obtain ⟨t, ht, -⟩ := henc.text
    refine ⟨memberText C.toJson key t :: ts, t :: us, ?_, ?_, ?_, ?_⟩
    · rw [marshalEntries, ht, hts]
      rfl
    · rw [List.map_cons, marshalItems, ht, hus]
      rfl
    · exact EncodedList.cons (x := ⟨key, f⟩) henc ht hms
    · exact EncodedList.cons (x := f) henc ht hfs

/-- Encoding a value leaves a fragment whose text is the marshalled value. -/
theorem encode_spec (v : Value) (hn : nesting C.toJson v ≤ maxNesting) (hk : KnownOk C w)
    (h : encode C v key w = .ok (f, w')) :
    Encoded C w w' (nesting C.toJson v + 1) f v :=
  (encoded_rules hC).value v h hn hk

/-! ### Payloads -/

omit hC in
/-- An object is read under the digest of its bytes. -/
theorem readObject_hash {id : String} (h : readObject C db id = .ok raw) :
    C.sha256Hex raw = id := by
  unfold readObject at h
  cases hl : db.lookup id with
  | none => rw [hl] at h; simp at h
  | some s =>
    rw [hl] at h
    obtain ⟨raw', -, h⟩ := except_bind_ok.mp h
    split_ifs at h with hne
    rw [except_pure_ok] at h
    rw [← h]; exact not_not.mp hne

/-- The root of a payload has the text of the value, and the length of a digest. -/
theorem saveRoot_spec {w₀ : ObjectWriter} {g : Fragment} (hf : Encoded C w₀ w (h + 1) f v)
    (hs : saveRoot C f w = .ok (g, w')) :
    Table.Sub w₀.store.objects w'.store.objects ∧ g.ref.utf8ByteSize = 64 ∧
      ∃ out, marshal C.toJson v = some out ∧
        text C w'.store.objects (h + 1) { ref := g.ref } = .ok out := by
  obtain ⟨out, hout, htext⟩ := hf.text
  unfold saveRoot at hs
  split_ifs at hs with href
  · obtain ⟨hsub, -, raw, hraw, rfl, hread⟩ := save_spec hC hf.known hs
    refine ⟨hf.sub.trans hsub, hC.sha256Hex_length raw, out, hout, ?_⟩
    have hdec := decodeNode_of_fixed hC (by simp) (by simp [ContentNode.children]) hraw
    rw [text_of_node hC hread hdec]
    rw [text, if_pos href, renderInline] at htext
    simp only [renderNode]
    split_ifs at htext ⊢
    exact htext
  · rw [Tx.pure_ok] at hs
    obtain ⟨rfl, rfl⟩ := hs
    have hread := htext
    rw [text, if_neg href] at hread
    obtain ⟨raw, hread, -⟩ := except_bind_ok.mp hread
    rw [← readObject_hash hread]
    refine ⟨hf.sub, hC.sha256Hex_length raw, out, hout, ?_⟩
    rw [readObject_hash hread, ← text_ref href]
    exact htext

omit hC in
theorem encodePayload_ok (h : encodePayload C v s = .ok (payload, s')) : ∃ f w g w',
    encode C v "" { store := s } = .ok (f, w) ∧ saveRoot C f w = .ok (g, w') ∧
      payload = C.marshalManifest ⟨2, g.ref⟩ ∧ s' = w'.store := by
  rw [encodePayload] at h
  obtain ⟨⟨g, w'⟩, hg, h⟩ := except_bind_ok.mp h
  rw [except_pure_ok, Prod.mk.injEq] at h
  obtain ⟨f, w, hf, hg⟩ := Tx.bind_ok.mp hg
  exact ⟨f, w, g, w', hf, hg, h.1.symm, h.2.symm⟩

/-- Encoding a payload extends the tables and leaves a manifest whose root has the marshalled value
    as its text. -/
theorem encodePayload_spec (hn : nesting C.toJson v ≤ maxNesting)
    (h : encodePayload C v s = .ok (payload, s')) :
    Table.Sub s.objects s'.objects ∧ ∃ root out, payload = C.marshalManifest ⟨2, root⟩ ∧
      root.utf8ByteSize = 64 ∧ marshal C.toJson v = some out ∧
      text C s'.objects (nesting C.toJson v + 1) { ref := root } = .ok out := by
  obtain ⟨f, w, g, w', hf, hg, rfl, rfl⟩ := encodePayload_ok h
  have henc := encode_spec hC v hn (knownOk_init s) hf
  obtain ⟨hsub, hlen, out, hout, htext⟩ := saveRoot_spec hC henc hg
  exact ⟨hsub, g.ref, out, rfl, hlen, hout, htext⟩

theorem payloadRoot_manifest {root : String} (hlen : root.utf8ByteSize = 64) :
    payloadRoot C (C.marshalManifest ⟨2, root⟩) = .ok root := by
  simp [payloadRoot, hC.unmarshalManifest_marshalManifest, hlen]

end

/-- The reader's depth guard leaves room for this much container nesting. -/
def maxContainers : Nat := 256

/-- What storing `v` has to guarantee: its payload decodes to the marshalled text, and every payload
    that decoded before still decodes to what it did. -/
structure StoredLosslessly (C : Codec) (v : Value) (s s' : Store) (payload : Bytes) : Prop where
  decodes : ∃ out, marshal C.toJson v = some out ∧ decodePayload C s'.objects payload = .ok out
  keeps : ∀ p out, decodePayload C s.objects p = .ok out → decodePayload C s'.objects p = .ok out

theorem storedLosslessly_of_nesting (hC : C.Lawful) (hn : nesting C.toJson v ≤ maxContainers)
    (h : encodePayload C v s = .ok (payload, s')) : StoredLosslessly C v s s' payload := by
  have hmax : nesting C.toJson v ≤ maxNesting := hn.trans (by decide)
  obtain ⟨hsub, root, out, rfl, hlen, hout, htext⟩ := encodePayload_spec hC hmax h
  refine ⟨⟨out, hout, ?_⟩, fun p o ho => decodePayload_mono hsub ho⟩
  unfold decodePayload
  refine except_bind_ok.mpr ⟨root, payloadRoot_manifest hC hlen, ?_⟩
  have hne : root ≠ "" := by rintro rfl; exact absurd hlen (by decide)
  rw [if_neg hne]
  exact render_of_text _ htext (by simp only [maxContainers] at hn; omega) (by simp)

/-- **The storage format is lossless**: for every value nested at most 256 containers deep, and so
    for every event whose `raw_feature`, two containers below the root, keeps within that bound. -/
theorem encodePayload_lossless (hC : C.Lawful) :
    (∀ v s s' payload, nesting C.toJson v ≤ maxContainers →
      encodePayload C v s = .ok (payload, s') → StoredLosslessly C v s s' payload) ∧
    (∀ (ev : ThreatEvent) s s' payload, nestingEntries C.toJson ev.rawFeature + 2 ≤ maxContainers →
      encodePayload C ev.toValue s = .ok (payload, s') →
      StoredLosslessly C ev.toValue s s' payload) := by
  refine ⟨fun v s s' payload hn h => storedLosslessly_of_nesting hC hn h,
    fun ev s s' payload hn h => storedLosslessly_of_nesting hC ?_ h⟩
  have hev := nesting_threatEvent C.toJson ev
  simp only [maxContainers] at hn ⊢
  omega

/-- A value with a `*_hex` string of 128 digits, which is stored as binary, next to a short one. -/
def hexSample : Value :=
  .map [("data_hex", .str (List.replicate 128 97)), ("kind", .text "dns")]

/-- The sample written to an empty database takes a chunk, the string's node and the root. -/
theorem encodePayload_lossless_hexSample :
    ∃ payload s', encodePayload (Plain.codec fun _ => none) hexSample {} = .ok (payload, s') ∧
      s'.objects.keys.length = 3 ∧
      StoredLosslessly (Plain.codec fun _ => none) hexSample {} s' payload := by
  have hrun : ((encodePayload (Plain.codec fun _ => none) hexSample {}).toOption.map
      fun r => r.2.objects.keys.length) = some 3 := by
    decide +kernel
  obtain ⟨⟨payload, s'⟩, hok, hlen⟩ := Option.map_eq_some_iff.mp hrun
  rw [except_toOption_some] at hok
  exact ⟨payload, s', hok, hlen,
    (encodePayload_lossless (Plain.codec_lawful _)).1 _ _ _ _ (by decide) hok⟩

end TaNode.Queue

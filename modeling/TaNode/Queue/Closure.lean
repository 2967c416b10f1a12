import TaNode.Queue.Lossless

/-! Referential closure of the content tables: every stored node reads back, its rows in
    `queue_edges` are exactly its references, and every reference is stored.

    `save` keeps the tables closed as long as a node is saved after its children, which is the order
    of both writers: the encoder builds a tree from the leaves, and the copier visits a node's
    references before the node. Over closed tables no read can miss (`render_found`). -/

namespace TaNode.Queue

variable {C : Codec}
variable {s s' : Store} {raw payload : Bytes} {n : ContentNode} {w w' : ObjectWriter} {f : Fragment}
  {v : Value}

/-- A node the writers produce: no empty chunk id, and nothing but data in a binary chunk. -/
structure ContentNode.WellFormed (n : ContentNode) : Prop where
  chunks : "" ∉ n.chunks
  binary : n.kind = .bytes → n = { kind := .bytes, data := n.data }

/-- An object is stored under `id`. -/
def Store.Has (s : Store) (id : String) : Prop := ∃ row, s.objects.lookup id = some row

/-- What holds of a stored node: it reads back as the bytes of a well-formed node, its edges are the
    node's references, and all of them are stored. -/
structure Store.NodeOk (C : Codec) (s : Store) (id : String) (n : ContentNode) : Prop where
  bytes : ∃ raw, readObject C s.objects id = .ok raw ∧ nodeBytes C n = .ok raw
  wellFormed : n.WellFormed
  edges : ∀ c, (id, c) ∈ s.edges ↔ c ∈ nodeRefs n
  children : ∀ c ∈ nodeRefs n, s.Has c

structure Store.Closed (C : Codec) (s : Store) : Prop where
  node : ∀ id, s.Has id → ∃ n, s.NodeOk C id n
  parent : ∀ p c, (p, c) ∈ s.edges → s.Has p

variable {id : String}

theorem Store.Has.mono (h : s.Has id) (hsub : Table.Sub s.objects s'.objects) : s'.Has id := by
  obtain ⟨row, hrow⟩ := h
  exact ⟨row, hsub id row hrow⟩

theorem has_of_read (h : readObject C s.objects id = .ok raw) : s.Has id := by
  unfold readObject at h
  cases hl : s.objects.lookup id with
  | none => rw [hl] at h; simp at h
  | some row => exact ⟨row, hl⟩

/-! ### References -/

/-- The references of a node are its mentions, without the empty one. -/
theorem mem_nodeRefs : id ∈ nodeRefs n ↔ id ∈ n.mentions ∧ id ≠ "" := by
  have hfold : ∀ (ms out : List String),
      id ∈ ms.foldl (fun out s => if s ≠ "" ∧ s ∉ out then out ++ [s] else out) out ↔
        id ∈ out ∨ (id ∈ ms ∧ id ≠ "") := by
    intro ms
    induction ms with
    | nil => simp
    | cons m ms ih =>
      intro out
      rw [List.foldl_cons, ih]
      split_ifs with hm
      · rw [List.mem_append, List.mem_singleton, List.mem_cons]
        constructor
        · rintro ((h | rfl) | h)
          · exact Or.inl h
          · exact Or.inr ⟨Or.inl rfl, hm.1⟩
          · exact Or.inr ⟨Or.inr h.1, h.2⟩
        · rintro (h | ⟨rfl | h, hne⟩)
          · exact Or.inl (Or.inl h)
          · exact Or.inl (Or.inr rfl)
          · exact Or.inr ⟨h, hne⟩
      · rw [List.mem_cons]
        constructor
        · rintro (h | h)
          · exact Or.inl h
          · exact Or.inr ⟨Or.inr h.1, h.2⟩
        · rintro (h | ⟨rfl | h, hne⟩)
          · exact Or.inl h
          · exact Or.inl (by by_contra hout; exact hm ⟨hne, hout⟩)
          · exact Or.inr ⟨h, hne⟩
  unfold nodeRefs
  rw [hfold]
  simp

theorem nodeRefs_eq_of_mentions {n' : ContentNode} (h : n'.mentions = n.mentions) :
    nodeRefs n' = nodeRefs n := by
  unfold nodeRefs; rw [h]

theorem mentions_compacted (J : Json) (n : ContentNode) : (n.compacted J).mentions = n.mentions := by
  simp [ContentNode.compacted, ContentNode.mentions, Fragment.compacted, Function.comp_def]

/-- Reading a well-formed node back changes neither its references nor its chunks. -/
theorem decodeNode_wellFormed (hC : C.Lawful) {n' : ContentNode} (hn : n.WellFormed)
    (hraw : nodeBytes C n = .ok raw) (hdec : decodeNode C raw = .ok n') :
    n'.WellFormed ∧ nodeRefs n' = nodeRefs n := by
  by_cases hkind : n.kind = .bytes
  · rw [nodeBytes, if_pos hkind] at hraw
    cases hraw
    cases hdec
    rw [hn.binary hkind]
    exact ⟨⟨by simp, fun _ => rfl⟩, rfl⟩
  · have hm := nodeBytes_ok hkind hraw
    have heq := hC.unmarshalNode_eq n raw n' hm ((decodeNode_iff hC hm).mp hdec)
    subst heq
    exact ⟨⟨hn.chunks, fun h => absurd h hkind⟩, nodeRefs_eq_of_mentions (mentions_compacted _ _)⟩

/-! ### Writing -/

/-- The rows `insertEdges` adds. -/
theorem insertEdges_spec {id : String} : ∀ {refs : List String} {edges edges' : Finset (String × String)},
    insertEdges id refs edges = .ok edges' →
    ∀ p c, (p, c) ∈ edges' ↔ (p, c) ∈ edges ∨ (p = id ∧ c ∈ refs)
  | [], edges, edges', h, p, c => by cases h; simp
  | child :: rest, edges, edges', h, p, c => by
    unfold insertEdges at h
    split_ifs at h with hmem
    rw [insertEdges_spec h, Finset.mem_insert, Prod.mk.injEq, List.mem_cons]
    tauto

/-- A writer between two saves. -/
structure Sound (C : Codec) (w : ObjectWriter) : Prop where
  known : KnownOk C w
  closed : w.store.Closed C

theorem sound_init (h : s.Closed C) : Sound C { store := s } := ⟨knownOk_init s, h⟩

/-- Storing a node after its children keeps the tables closed. -/
theorem insertObject_closed (hC : C.Lawful) (hs : s.Closed C) (hn : n.WellFormed)
    (hraw : nodeBytes C n = .ok raw) (hlen : raw.length ≤ maxObjectBytes)
    (hrefs : ∀ c ∈ nodeRefs n, s.Has c) (hnew : s.objects.lookup (C.sha256Hex raw) = none)
    (h : insertObject C n (C.sha256Hex raw) raw s = .ok s') : s'.Closed C := by
  have hobj := insertObject_objects h
  have hsub : Table.Sub s.objects s'.objects := by rw [hobj]; exact Table.sub_insert hnew _
  have hedges : ∀ p c, (p, c) ∈ s'.edges ↔
      (p, c) ∈ s.edges ∨ (p = C.sha256Hex raw ∧ c ∈ nodeRefs n) := by
    unfold insertObject at h
    obtain ⟨edges, hedges, h⟩ := except_bind_ok.mp h
    rw [except_pure_ok] at h
    rw [← h]
    exact insertEdges_spec hedges
  have hnoedge : ∀ c, (C.sha256Hex raw, c) ∉ s.edges := by
    intro c hc
    obtain ⟨row, hrow⟩ := hs.parent _ _ hc
    rw [hnew] at hrow
    exact absurd hrow (by simp)
  have hself : s'.Has (C.sha256Hex raw) := ⟨storedRow C raw, by rw [hobj, AList.lookup_insert]⟩
  constructor
  · intro id hid
    by_cases he : id = C.sha256Hex raw
    · subst he
      refine ⟨n, ⟨raw, ?_, hraw⟩, hn, fun c => ?_, fun c hc => (hrefs c hc).mono hsub⟩
      · rw [hobj]; exact readObject_insert hC _ hlen
      · rw [hedges]
        exact ⟨fun h => h.elim (fun h => absurd h (hnoedge c)) And.right, fun h => Or.inr ⟨rfl, h⟩⟩
    · obtain ⟨row, hrow⟩ := hid
      rw [hobj, AList.lookup_insert_ne he] at hrow
      obtain ⟨m, ⟨mraw, hread, hm⟩, hwf, hme, hmc⟩ := hs.node id ⟨row, hrow⟩
      refine ⟨m, ⟨mraw, readObject_mono hsub hread, hm⟩, hwf, fun c => ?_,
        fun c hc => (hmc c hc).mono hsub⟩
      rw [hedges, ← hme]
      exact ⟨fun h => h.elim (fun h => h) fun h => absurd h.1 he, Or.inl⟩
  · intro p c hpc
    rcases (hedges p c).mp hpc with h | ⟨rfl, -⟩
    · exact (hs.parent p c h).mono hsub
    · exact hself

theorem save_closed (hC : C.Lawful) (hw : Sound C w) (hn : n.WellFormed)
    (hrefs : ∀ c ∈ nodeRefs n, w.store.Has c) (h : save C n w = .ok (f, w')) :
    Sound C w' ∧ Table.Sub w.store.objects w'.store.objects ∧ w'.store.Has f.ref := by
  obtain ⟨hsub, hk, raw, hraw, rfl, hread⟩ := save_spec hC hw.known h
  refine ⟨⟨hk, ?_⟩, hsub, has_of_read hread⟩
  unfold save at h
  rw [hraw] at h
  simp only [bind, Except.bind] at h
  split_ifs at h with hlen
  obtain ⟨w₁, hst, h⟩ := except_bind_ok.mp h
  rw [except_pure_ok, Prod.mk.injEq] at h
  obtain ⟨-, rfl⟩ := h
  unfold storeObject at hst
  split at hst
  · split_ifs at hst
    cases hst; exact hw.closed
  · split at hst
    · split_ifs at hst
      cases hst; exact hw.closed
    · next e hr =>
      obtain ⟨store, hs, hst⟩ := except_bind_ok.mp hst
      rw [except_pure_ok] at hst
      subst hst
      exact insertObject_closed hC hw.closed hn hraw (by omega) hrefs (readObject_missing hr) hs
    · simp at hst

/-! ### The encoder -/

/-- One run of the encoder: the writer stays sound and its tables only grow. -/
structure Grown (C : Codec) (w w' : ObjectWriter) : Prop where
  sound : Sound C w'
  sub : Table.Sub w.store.objects w'.store.objects

theorem Grown.refl (h : Sound C w) : Grown C w w := ⟨h, Table.Sub.refl _⟩

theorem Grown.trans {w₁ w₂ : ObjectWriter} (h₁ : Grown C w w₁) (h₂ : Grown C w₁ w₂) :
    Grown C w w₂ := ⟨h₂.sound, h₁.sub.trans h₂.sub⟩

/-- A fragment is inline or refers to a stored node. -/
def Fragment.Stored (f : Fragment) (s : Store) : Prop := f.ref ≠ "" → s.Has f.ref

theorem Fragment.Stored.mono (h : f.Stored s) (hsub : Table.Sub s.objects s'.objects) :
    f.Stored s' := fun hne => (h hne).mono hsub

theorem stored_inline (b : Bytes) (s : Store) : ({ json := b } : Fragment).Stored s :=
  fun h => absurd rfl h

section
variable (hC : C.Lawful)
include hC

theorem saveChunks_grown {data : Bytes} {ids : List String} (hw : Sound C w)
    (h : saveChunks C data.length data w = .ok (ids, w')) :
    Grown C w w' ∧ ∀ id ∈ ids, id ≠ "" ∧ w'.store.Has id := by
  refine saveChunks_rule (Q := fun _ w ids w' => Sound C w →
    Grown C w w' ∧ ∀ id ∈ ids, id ≠ "" ∧ w'.store.Has id) ?_ ?_ _ (Nat.le_refl _) h hw
  · exact fun w hw => ⟨Grown.refl hw, by simp⟩
  · intro data w f w₁ ids w₂ hs ih hw
    obtain ⟨hw₁, hsub₁, hf⟩ := save_closed hC hw ⟨by simp, fun _ => rfl⟩
      (by simp [nodeRefs, ContentNode.mentions]) hs
    have hne : f.ref ≠ "" := by
      obtain ⟨-, -, raw, -, rfl, -⟩ := save_spec hC hw.known hs
      exact sha256Hex_ne_empty hC raw
    obtain ⟨hg, hids⟩ := ih hw₁
    exact ⟨(Grown.trans ⟨hw₁, hsub₁⟩ hg), List.forall_mem_cons.mpr ⟨⟨hne, hf.mono hg.sub⟩, hids⟩⟩

theorem stringValue_grown {s : Bytes} {key : String} (hw : Sound C w)
    (h : stringValue C s key w = .ok (f, w')) : Grown C w w' ∧ f.Stored w'.store := by
  rcases stringValue_cases h with ⟨rfl, rfl⟩ | ⟨ids, w₁, hids, h⟩
  · exact ⟨Grown.refl hw, stored_inline _ _⟩
  · obtain ⟨hg, hmem⟩ := saveChunks_grown hC hw hids
    have hkind : (stringKind s key).1 ≠ .bytes := by
      rcases stringKind_cases s key with hk | ⟨b, hk, -⟩ <;> rw [hk] <;> simp
    obtain ⟨hw', hsub, hf⟩ := save_closed hC hg.sound
      ⟨fun he => (hmem "" he).1 rfl, fun hb => absurd hb hkind⟩
      (fun c hc => (hmem c (by simpa [ContentNode.mentions] using (mem_nodeRefs.mp hc).1)).2) h
    exact ⟨hg.trans ⟨hw', hsub⟩, fun _ => hf⟩

theorem saveContainer_grown (hw : Sound C w) (hkind : n.kind ≠ .bytes) (hchunks : n.chunks = [])
    (hrefs : ∀ c ∈ n.children, c.Stored w.store) (h : saveContainer C v n w = .ok (f, w')) :
    Grown C w w' ∧ f.Stored w'.store := by
  rcases saveContainer_cases h with ⟨b, -, -, rfl, rfl⟩ | hs
  · exact ⟨Grown.refl hw, stored_inline _ _⟩
  · have hhas : ∀ c ∈ nodeRefs n, w.store.Has c := by
      intro c hc
      obtain ⟨hm, hne⟩ := mem_nodeRefs.mp hc
      obtain ⟨g, hg, rfl⟩ : ∃ g ∈ n.children, g.ref = c := by
        simpa [ContentNode.mentions, ContentNode.children, hchunks, or_and_right, exists_or]
          using hm
      exact hrefs g hg hne
    obtain ⟨hw', hsub, hf⟩ := save_closed hC hw
      ⟨by simp [hchunks], fun hb => absurd hb hkind⟩ hhas hs
    exact ⟨⟨hw', hsub⟩, fun _ => hf⟩

theorem grown_rules : EncodeRules C
    (fun _ _ w f w' => Sound C w → Grown C w w' ∧ f.Stored w'.store)
    (fun _ w ms w' => Sound C w → Grown C w w' ∧ ∀ m ∈ ms, m.value.Stored w'.store) where
  inline _ _ w b _ _ hw := ⟨Grown.refl hw, stored_inline b w.store⟩
  ref _ _ _ _ _ ih := ih
  string _ _ _ _ _ h hw := stringValue_grown hC hw h
  object _ _ _ _ _ _ _ _ _ ih hs hw := by
    obtain ⟨hg, hst⟩ := ih hw
    obtain ⟨hg', hf⟩ := saveContainer_grown hC hg.sound (by simp) rfl
      (by simpa [ContentNode.children] using hst) hs
    exact ⟨hg.trans hg', hf⟩
  array _ _ _ _ _ _ _ ih hs hw := by
    obtain ⟨hg, hst⟩ := ih hw
    obtain ⟨hg', hf⟩ := saveContainer_grown hC hg.sound (by simp) rfl
      (by simpa [ContentNode.children] using hst) hs
    exact ⟨hg.trans hg', hf⟩
  nil _ hw := ⟨Grown.refl hw, by simp⟩
  cons _ _ _ _ _ _ _ _ hv ih hw := by
    obtain ⟨hg, hst⟩ := hv hw
    obtain ⟨hg', hst'⟩ := ih hg.sound
    exact ⟨hg.trans hg', List.forall_mem_cons.mpr ⟨hst.mono hg'.sub, hst'⟩⟩

/-- Encoding keeps the tables closed and leaves a fragment that is inline or stored. -/
theorem encode_grown (v : Value) {key : String} (hw : Sound C w)
    (h : encode C v key w = .ok (f, w')) : Grown C w w' ∧ f.Stored w'.store :=
  (grown_rules hC).value v h hw

end

/-- What a payload written into `s'` needs: closed tables that hold its root. -/
structure PayloadStored (C : Codec) (s s' : Store) (payload : Bytes) : Prop where
  closed : s'.Closed C
  sub : Table.Sub s.objects s'.objects
  root : ∀ root, payloadRoot C payload = .ok root → root ≠ "" → s'.Has root

theorem encodePayload_stored (hC : C.Lawful) (hs : s.Closed C)
    (h : encodePayload C v s = .ok (payload, s')) : PayloadStored C s s' payload := by
  obtain ⟨f, w, g, w', hf, hg, rfl, rfl⟩ := encodePayload_ok h
  obtain ⟨hgrown, hstored⟩ := encode_grown hC v (sound_init hs) hf
  have hroot : Grown C w w' ∧ w'.store.Has g.ref := by
    unfold saveRoot at hg
    split_ifs at hg with href
    · obtain ⟨hw', hsub, hhas⟩ := save_closed hC hgrown.sound ⟨by simp, by simp⟩
        (by simp [nodeRefs, ContentNode.mentions]) hg
      exact ⟨⟨hw', hsub⟩, hhas⟩
    · rw [Tx.pure_ok] at hg
      obtain ⟨rfl, rfl⟩ := hg
      exact ⟨Grown.refl hgrown.sound, hstored href⟩
  refine ⟨hroot.1.sound.closed, hgrown.sub.trans hroot.1.sub, fun root hr hne => ?_⟩
  obtain ⟨n, ⟨raw, hread, -⟩, -⟩ := hroot.1.sound.closed.node _ hroot.2
  have hlen : g.ref.utf8ByteSize = 64 := by
    rw [← readObject_hash hread]; exact hC.sha256Hex_length raw
  rw [payloadRoot_manifest hC hlen] at hr
  cases hr
  exact hroot.2

/-! ### The copier -/

/-- The state of a copy between two nodes. -/
structure CopySound (C : Codec) (st : CopyState) : Prop where
  sound : Sound C st.writer
  done : ∀ id ∈ st.done, st.writer.store.Has id

theorem saveCopy_ok {st st' : CopyState} : saveCopy C n st = .ok (f, st') ↔
      ∃ w, save C n st.writer = .ok (f, w) ∧ st' = { st with writer := w } := by
  unfold saveCopy
  rw [except_bind_ok]
  constructor
  · rintro ⟨⟨g, w⟩, hs, h⟩
    rw [except_pure_ok, Prod.mk.injEq] at h
    obtain ⟨rfl, rfl⟩ := h
    exact ⟨w, hs, rfl⟩
  · rintro ⟨w, hs, rfl⟩
    exact ⟨(f, w), hs, rfl⟩

/-- A visit copies the node, and everything it refers to before it. -/
theorem visit_spec (hC : C.Lawful) {src : Store} (hsrc : src.Closed C) : ∀ (k : Nat)
    {visiting : List String} {id : String} {st st' : CopyState} {u : Unit}, CopySound C st →
    visit C src.objects k visiting id st = .ok (u, st') →
    CopySound C st' ∧ Table.Sub st.writer.store.objects st'.writer.store.objects ∧
      st'.writer.store.Has id := by
  intro k
  induction k with
  | zero =>
    intro visiting id st st' u hst h
    rw [visit, Tx.get_bind_ok] at h
    split_ifs at h with hdone
    · rw [Tx.pure_ok] at h
      obtain ⟨-, rfl⟩ := h
      exact ⟨hst, Table.Sub.refl _, hst.done id hdone⟩
    · simp at h
  | succ k ih =>
    intro visiting id st st' u hst h
    rw [visit, Tx.get_bind_ok] at h
    split_ifs at h with hdone hvis
    · rw [Tx.pure_ok] at h
      obtain ⟨-, rfl⟩ := h
      exact ⟨hst, Table.Sub.refl _, hst.done id hdone⟩
    · simp at h
    · obtain ⟨raw, hraw, h⟩ := Tx.lift_bind_ok.mp h
      obtain ⟨n, hdec, h⟩ := Tx.lift_bind_ok.mp h
      obtain ⟨⟨⟩, st₂, hloop, h⟩ := Tx.bind_ok.mp h
      obtain ⟨f, st₃, hsave, h⟩ := Tx.bind_ok.mp h
      -- the source node is well formed, so its decoded form is too
      obtain ⟨m, ⟨mraw, hmread, hmraw⟩, hmwf, -⟩ := hsrc.node id (has_of_read hraw)
      rw [hraw] at hmread
      cases hmread
      have hnwf := (decodeNode_wellFormed hC hmwf hmraw hdec).1
      have hchildren : ∀ (refs : List String) {sa sb : CopyState}, CopySound C sa →
          (refs.forM (visit C src.objects k (id :: visiting))) sa = .ok ((), sb) →
          CopySound C sb ∧ Table.Sub sa.writer.store.objects sb.writer.store.objects ∧
            ∀ c ∈ refs, sb.writer.store.Has c := by
        intro refs
        induction refs with
        | nil =>
          intro sa sb hsa hl
          rw [List.forM_eq_forM, List.forM_nil, Tx.pure_ok] at hl
          obtain ⟨-, rfl⟩ := hl
          exact ⟨hsa, Table.Sub.refl _, by simp⟩
        | cons c refs ihr =>
          intro sa sb hsa hl
          obtain ⟨sm, hc, hl⟩ := Tx.forM_cons_ok.mp hl
          obtain ⟨hsm, hsub, hhas⟩ := ih hsa hc
          obtain ⟨hsb, hsub', hrest⟩ := ihr hsm hl
          exact ⟨hsb, hsub.trans hsub', List.forall_mem_cons.mpr ⟨hhas.mono hsub', hrest⟩⟩
      obtain ⟨hst₂, hsub₂, hrefs⟩ := hchildren _ hst hloop
      obtain ⟨w, hs, rfl⟩ := saveCopy_ok.mp hsave
      obtain ⟨hw, hsubw, hhas⟩ := save_closed hC hst₂.sound hnwf hrefs hs
      split_ifs at h with hcanon
      · simp at h
      · rw [Tx.modify_ok] at h
        subst h
        rw [not_not] at hcanon
        rw [hcanon] at hhas
        refine ⟨⟨hw, fun x hx => ?_⟩, hsub₂.trans hsubw, hhas⟩
        rcases List.mem_cons.mp hx with rfl | hx
        · exact hhas
        · exact (hst₂.done x hx).mono hsubw

/-- A copied payload has its whole tree in the destination. -/
theorem copyPayload_stored (hC : C.Lawful) {src : Store} {payload' : Bytes} (hsrc : src.Closed C)
    (hs : s.Closed C) (h : copyPayload C src.objects payload s = .ok (payload', s')) :
    PayloadStored C s s' payload' := by
  unfold copyPayload at h
  obtain ⟨root, hroot, h⟩ := except_bind_ok.mp h
  split_ifs at h with hlegacy
  · split at h
    · simp at h
    · exact encodePayload_stored hC hs h
  · obtain ⟨⟨u, st⟩, hv, h⟩ := except_bind_ok.mp h
    rw [except_pure_ok, Prod.mk.injEq] at h
    obtain ⟨rfl, rfl⟩ := h
    obtain ⟨hst, hsub, hhas⟩ := visit_spec hC hsrc 257 ⟨sound_init hs, by simp⟩ hv
    refine ⟨hst.sound.closed, hsub, fun root' hr _ => ?_⟩
    rw [hroot] at hr
    cases hr
    exact hhas

/-! ### Reading -/

/-- A read that does not fail for want of a stored object. -/
def NotMissing {α : Type} (x : Except Err α) : Prop := ∀ id, x ≠ .error (.missing id)

/-- An error of a `SELECT` that found no row: of an object, or of a record. -/
def Err.isMissing : Err → Bool
  | .missing _ | .noRow => true
  | _ => false

/-- A read that fails, if it fails, for another reason than a row that is not there. -/
abbrev Found {α : Type} (x : Except Err α) : Prop := FailsOnly (fun e => e.isMissing = false) x

theorem Found.notMissing {α : Type} {x : Except Err α} (h : Found x) : NotMissing x :=
  fun id hx => absurd (h _ hx) (by simp [Err.isMissing])

theorem decodeNode_found (raw : Bytes) : Found (decodeNode C raw) := by
  unfold decodeNode
  split
  · exact failsOnly_ok _
  · split <;> simp [Err.isMissing]

/-- What is stored in closed tables reads back. -/
theorem readObject_closed (hs : s.Closed C) (h : s.Has id) :
    ∃ raw, readObject C s.objects id = .ok raw := by
  obtain ⟨n, ⟨raw, hread, -⟩, -⟩ := hs.node id h
  exact ⟨raw, hread⟩

theorem readChunks_found (hs : s.Closed C) : ∀ {ids : List String},
    (∀ id ∈ ids, s.Has id) → Found (readChunks C s.objects ids)
  | [], _ => failsOnly_ok _
  | id :: ids, h => by
    obtain ⟨raw, hread⟩ := readObject_closed hs (h id (by simp))
    unfold readChunks
    rw [hread]
    refine (failsOnly_ok raw).bind fun _ _ => (decodeNode_found _).bind fun c _ => ?_
    split_ifs
    · simp [Err.isMissing]
    · exact (readChunks_found hs fun i hi => h i (List.mem_cons_of_mem _ hi)).bind
        fun _ _ => failsOnly_pure _

theorem renderInline_found (json : Bytes) : Found (renderInline C json) := by
  unfold renderInline
  split_ifs <;> simp [Err.isMissing]

theorem renderNode_found (hs : s.Closed C) {g : Fragment → Except Err Bytes}
    (hg : ∀ c ∈ n.children, Found (g c)) (hchunks : ∀ c ∈ n.chunks, s.Has c) :
    Found (renderNode C s.objects g n) := by
  unfold renderNode
  cases n.kind with
  | json => simp only; split_ifs <;> simp [Err.isMissing]
  | object =>
    refine FailsOnly.bind (FailsOnly.mapM fun m hm => ?_) fun _ _ => failsOnly_pure _
    exact (hg _ (List.mem_append_left _ (List.mem_map.mpr ⟨m, hm, rfl⟩))).bind
      fun _ _ => failsOnly_pure _
  | array =>
    exact (FailsOnly.mapM fun f hf => hg f (List.mem_append_right _ hf)).bind
      fun _ _ => failsOnly_pure _
  | string | hex => exact (readChunks_found hs hchunks).bind fun _ _ => failsOnly_pure _
  | bytes | other => simp [Err.isMissing]

/-- The edges of a stored node are the references it decodes to, and all of them are stored. -/
theorem decoded_refs (hC : C.Lawful) (hs : s.Closed C) (hread : readObject C s.objects id = .ok raw)
    (hdec : decodeNode C raw = .ok n) :
    n.WellFormed ∧ (∀ c, (id, c) ∈ s.edges ↔ c ∈ nodeRefs n) ∧ ∀ c ∈ nodeRefs n, s.Has c := by
  obtain ⟨m, ⟨raw', hread', hraw⟩, hwf, hedges, hchildren⟩ := hs.node id (has_of_read hread)
  rw [hread] at hread'
  cases hread'
  obtain ⟨hwf', hrefs⟩ := decodeNode_wellFormed hC hwf hraw hdec
  rw [hrefs]
  exact ⟨hwf', hedges, hchildren⟩

theorem child_mem_nodeRefs {c : Fragment} (hc : c ∈ n.children) (hne : c.ref ≠ "") :
    c.ref ∈ nodeRefs n := by
  refine mem_nodeRefs.mpr ⟨?_, hne⟩
  rcases List.mem_append.mp hc with hc | hc
  · obtain ⟨m, hm, rfl⟩ := List.mem_map.mp hc
    exact List.mem_append_left _ (List.mem_append_left _ (List.mem_map.mpr ⟨m, hm, rfl⟩))
  · exact List.mem_append_left _ (List.mem_append_right _ (List.mem_map.mpr ⟨c, hc, rfl⟩))

theorem chunk_mem_nodeRefs (hn : n.WellFormed) {c : String} (hc : c ∈ n.chunks) : c ∈ nodeRefs n :=
  mem_nodeRefs.mpr ⟨List.mem_append_right _ hc, by rintro rfl; exact hn.chunks hc⟩

/-- A node of closed tables decodes to one whose references and chunks are stored. -/
theorem decoded_closed (hC : C.Lawful) (hs : s.Closed C)
    (hread : readObject C s.objects id = .ok raw) (hdec : decodeNode C raw = .ok n) :
    (∀ c ∈ n.children, c.Stored s) ∧ ∀ c ∈ n.chunks, s.Has c := by
  obtain ⟨hwf, -, hhas⟩ := decoded_refs hC hs hread hdec
  exact ⟨fun c hc hne => hhas _ (child_mem_nodeRefs hc hne),
    fun c hc => hhas c (chunk_mem_nodeRefs hwf hc)⟩

/-- Over closed tables, rendering never comes across a missing object. -/
theorem render_found (hC : C.Lawful) (hs : s.Closed C) : ∀ (k : Nat)
    {visiting : List String} {f : Fragment}, f.Stored s → Found (render C s.objects k visiting f)
  | 0, visiting, f, hf => by
    unfold render
    split_ifs
    · exact renderInline_found _
    · simp [Err.isMissing]
  | k + 1, visiting, f, hf => by
    unfold render
    split_ifs with hin hvis
    · exact renderInline_found _
    · simp [Err.isMissing]
    · obtain ⟨raw, hread⟩ := readObject_closed hs (hf hin)
      rw [hread]
      refine (failsOnly_ok raw).bind fun _ hok => (decodeNode_found _).bind fun n hdec => ?_
      cases hok
      obtain ⟨hchildren, hchunks⟩ := decoded_closed hC hs hread hdec
      exact renderNode_found hs (fun c hc => render_found hC hs k (hchildren c hc)) hchunks

theorem payloadRoot_found (payload : Bytes) : Found (payloadRoot C payload) := by
  unfold payloadRoot
  split
  · simp [Err.isMissing]
  · split_ifs <;> simp [Err.isMissing]

/-- A payload whose root is stored decodes or fails for another reason. -/
theorem decodePayload_found (hC : C.Lawful) (hs : s.Closed C)
    (hroot : ∀ root, payloadRoot C payload = .ok root → root ≠ "" → s.Has root) :
    Found (decodePayload C s.objects payload) := by
  unfold decodePayload
  refine (payloadRoot_found payload).bind fun root hr => ?_
  split_ifs with hlegacy
  · exact failsOnly_ok _
  · exact render_found hC hs 257 fun _ => hroot root hr hlegacy

end TaNode.Queue

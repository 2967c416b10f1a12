import TaNode.Event.Decode
import TaNode.Queue.Lossless

/-! What a payload decodes to is the text of the value that was stored, however deep the value is.

    The renderer gives up on a tree of more than 256 levels, and `encoding/json` on a text of more
    than 10000, so storing a value does not mean that it can be read again. But nothing else is ever
    read in its place:

        value ──encodePayload──▶ payload ──decodePayload──▶ error
                                              └───────────▶ the text of the value -/

namespace TaNode.Queue

variable {C : Codec}
variable {b : Bytes} {n : ContentNode} {db : Table String Stored} {w w' w₁ : ObjectWriter}
  {v : Value} {f : Fragment} {ts : List Bytes}

/-- What reading relies on beyond the laws of the format: the scanner refuses the node around a text
    that is too deep, and takes the text of an event for no manifest. -/
structure Codec.Reads (C : Codec) : Prop where
  lawful : C.Lawful
  unmarshalNode_depth : ∀ n raw n', C.marshalNode n = some raw → C.unmarshalNode raw = some n' →
    ∀ c ∈ n.children, C.depth c.json ≤ maxNestingDepth
  unmarshalManifest_some : ∀ (ev : ThreatEvent) b, marshal C.toJson ev.toValue = some b →
    C.depth b ≤ maxNestingDepth → (C.unmarshalManifest b).isSome

/-- `json.Unmarshal` sets the fields of an event from the members of its text, unless the text is too
    deep. -/
def Codec.ReadsEvent (C : Codec) (ev : ThreatEvent) : Prop :=
  ∀ b, marshal C.toJson ev.toValue = some b → C.unmarshalEvent b =
    if C.depth b ≤ maxNestingDepth then ThreatEvent.ofValue C.toJson ev.toValue else none

/-- An event read back from its own text has the members of that text. -/
theorem Codec.ReadsEvent.event {ev ev' : ThreatEvent} (hev : C.ReadsEvent ev)
    (hb : marshal C.toJson ev.toValue = some b) (h : C.unmarshalEvent b = some ev') :
    ThreatEvent.ofValue C.toJson ev.toValue = some ev' := by
  rw [hev b hb] at h
  split_ifs at h
  exact h

/-- A fragment that refers to a node, or holds the text of some value. -/
def Fragment.Plain (J : Json) (f : Fragment) : Prop := f.json = [] ∨ ∃ v, marshal J v = some f.json

/-- A node that reloads at all reloads as itself. -/
theorem decodeNode_eq (hC : C.Reads) {n' : ContentNode} {raw : Bytes} (hkind : n.kind ≠ .bytes)
    (hplain : ∀ c ∈ n.children, c.Plain C.toJson) (h : nodeBytes C n = .ok raw)
    (hdec : decodeNode C raw = .ok n') : n' = n := by
  have hm := nodeBytes_ok hkind h
  have hback := (decodeNode_iff hC.lawful hm).mp hdec
  have hdepth := hC.unmarshalNode_depth n raw n' hm hback
  rw [hC.lawful.unmarshalNode_eq n raw n' hm hback]
  refine ContentNode.compacted_eq fun c hc => ?_
  rw [Fragment.compacted]
  rcases hplain c hc with hnil | ⟨v, hv⟩
  · rw [if_pos hnil, ← hnil]
  · rw [hC.lawful.compact_marshal v _ hv (hdepth c hc)]
    split_ifs with hnil
    · rw [← hnil]
    · rfl

/-! ### Values -/

/-- After encoding a value: the table was extended, the cache is sound, and over any later table the
    fragment has no other text than that of the value. -/
structure Honest (C : Codec) (w w' : ObjectWriter) (f : Fragment) (v : Value) : Prop where
  sub : Table.Sub w.store.objects w'.store.objects
  known : KnownOk C w'
  plain : f.Plain C.toJson
  text : ∃ out, marshal C.toJson v = some out ∧ ∀ db h t, Table.Sub w'.store.objects db →
    text C db h f = .ok t → t = out

theorem text_inline_eq {h : Nat} {t : Bytes} (ht : text C db h { json := b } = .ok t) : t = b := by
  have hinline : renderInline C b = .ok t := by
    cases h <;> simpa [text] using ht
  rw [renderInline] at hinline
  split_ifs at hinline
  exact (Except.ok.inj hinline).symm

theorem honest_inline (hk : KnownOk C w) (h : marshal C.toJson v = some b) :
    Honest C w w { json := b } v :=
  ⟨Table.Sub.refl _, hk, .inr ⟨v, h⟩, b, h, fun _ _ _ _ => text_inline_eq⟩

theorem honest_save (hC : C.Reads) (hk : KnownOk C w) (hs : save C n w = .ok (f, w'))
    (hkind : n.kind ≠ .bytes) (hplain : ∀ c ∈ n.children, c.Plain C.toJson) {out : Bytes}
    (hv : marshal C.toJson v = some out)
    (hrender : ∀ db h t, Table.Sub w.store.objects db →
      renderNode C db (Queue.text C db h) n = .ok t → t = out) :
    Honest C w w' f v := by
  obtain ⟨hsub, hk', raw, hraw, rfl, hread⟩ := save_spec hC.lawful hk hs
  refine ⟨hsub, hk', .inl rfl, out, hv, fun db h t hdb ht => ?_⟩
  cases h with
  | zero => simp [Queue.text, sha256Hex_ne_empty hC.lawful raw] at ht
  | succ h =>
    rw [Queue.text, if_neg (sha256Hex_ne_empty hC.lawful raw)] at ht
    obtain ⟨raw', hraw', ht⟩ := except_bind_ok.mp ht
    have hsame : raw' = raw := Except.ok.inj (hraw'.symm.trans (readObject_mono hdb hread))
    rw [hsame] at ht
    obtain ⟨n', hdec, ht⟩ := except_bind_ok.mp ht
    rw [decodeNode_eq hC hkind hplain hraw hdec] at ht
    exact hrender db h t (hsub.trans hdb) ht

theorem saveContainer_honest (hC : C.Reads) (hk : KnownOk C w)
    (hs : saveContainer C v n w = .ok (f, w')) (hkind : n.kind ≠ .bytes)
    (hplain : ∀ c ∈ n.children, c.Plain C.toJson) {out : Bytes} (hv : marshal C.toJson v = some out)
    (hrender : ∀ db h t, Table.Sub w.store.objects db →
      renderNode C db (Queue.text C db h) n = .ok t → t = out) :
    Honest C w w' f v := by
  rcases saveContainer_cases hs with ⟨b, hb, -, rfl, rfl⟩ | hs
  · exact honest_inline hk hb
  · exact honest_save hC hk hs hkind hplain hv hrender

/-- A string has one height, so what is known of its text is all there is. -/
theorem stringValue_honest (hC : C.Lawful) {s : Bytes} {key : String} (hk : KnownOk C w)
    (h : stringValue C s key w = .ok (f, w')) : Honest C w w' f (.str s) := by
  have henc := stringValue_spec hC hk h
  obtain ⟨out, hout, htext⟩ := henc.text
  refine ⟨henc.sub, henc.known, ?_, out, hout, fun db k t hdb ht =>
    text_unique ht (text_mono hdb (le_refl 1) htext)⟩
  rcases stringValue_cases h with ⟨rfl, -⟩ | ⟨ids, w₁, -, h⟩
  · exact .inr ⟨.str s, rfl⟩
  · exact .inl (save_json h)

/-! ### Containers -/

/-- The children of a container after encoding: over any later table `xs`, each shown through
    `label`, have no other texts than `ts`. -/
structure HonestList {α : Type} (C : Codec) (frag : α → Fragment) (label : α → Bytes → Bytes)
    (w w' : ObjectWriter) (xs : List α) (ts : List Bytes) : Prop where
  sub : Table.Sub w.store.objects w'.store.objects
  known : KnownOk C w'
  plain : ∀ x ∈ xs, (frag x).Plain C.toJson
  texts : ∀ db h us, Table.Sub w'.store.objects db →
    xs.mapM (fun x => do let t ← text C db h (frag x); return label x t) = .ok us → us = ts

section
variable {α : Type} {frag : α → Fragment} {label : α → Bytes → Bytes}

theorem HonestList.nil (hk : KnownOk C w) : HonestList C frag label w w [] [] :=
  ⟨Table.Sub.refl _, hk, by simp, fun _ _ _ _ hus => (Except.ok.inj hus).symm⟩

theorem HonestList.cons {w₂ : ObjectWriter} {x : α} {xs : List α} {t : Bytes}
    (hx : Honest C w w₁ (frag x) v) (hv : marshal C.toJson v = some t)
    (hxs : HonestList C frag label w₁ w₂ xs ts) :
    HonestList C frag label w w₂ (x :: xs) (label x t :: ts) := by
  refine ⟨hx.sub.trans hxs.sub, hxs.known, List.forall_mem_cons.mpr ⟨hx.plain, hxs.plain⟩,
    fun db h us hdb hus => ?_⟩
  obtain ⟨u, rest, hu, hrest, rfl⟩ := mapM_cons_ok.mp hus
  obtain ⟨t', ht', hu⟩ := except_bind_ok.mp hu
  obtain ⟨out, hout, honly⟩ := hx.text
  rw [hv] at hout
  cases hout
  rw [except_pure_ok] at hu
  rw [← hu, honly db h t' (hxs.sub.trans hdb) ht', hxs.texts db h rest hdb hrest]

end

/-- Members after encoding. -/
abbrev HonestMembers (C : Codec) (w w' : ObjectWriter) (ms : List Member) (ts : List Bytes) : Prop :=
  HonestList C Member.value (fun m t => memberText C.toJson m.key t) w w' ms ts

/-- Items after encoding. -/
abbrev HonestItems (C : Codec) (w w' : ObjectWriter) (fs : List Fragment) (ts : List Bytes) : Prop :=
  HonestList C id (fun _ t => t) w w' fs ts

section
variable (hC : C.Reads)
include hC

theorem honest_object {ms : List Member} (hms : HonestMembers C w w₁ ms ts)
    (hv : marshal C.toJson v = some (utf8 "\x7b" ++ joinComma ts ++ utf8 "\x7d"))
    (hs : saveContainer C v { kind := .object, fields := ms } w₁ = .ok (f, w')) :
    Honest C w w' f v := by
  have hplain : ∀ c ∈ (ContentNode.mk .object [] ms [] []).children, c.Plain C.toJson := by
    intro c hc
    simp only [ContentNode.children, List.append_nil, List.mem_map] at hc
    obtain ⟨m, hm, rfl⟩ := hc
    exact hms.plain m hm
  have hrun := saveContainer_honest hC hms.known hs (by simp) hplain hv (fun db h t hdb ht => by
    simp only [renderNode] at ht
    obtain ⟨us, hus, ht⟩ := except_bind_ok.mp ht
    rw [except_pure_ok, hms.texts db h us hdb hus] at ht
    exact ht.symm)
  exact ⟨hms.sub.trans hrun.sub, hrun.known, hrun.plain, hrun.text⟩

theorem honest_array {fs : List Fragment} (hfs : HonestItems C w w₁ fs ts)
    (hv : marshal C.toJson v = some (utf8 "[" ++ joinComma ts ++ utf8 "]"))
    (hs : saveContainer C v { kind := .array, items := fs } w₁ = .ok (f, w')) :
    Honest C w w' f v := by
  have hplain : ∀ c ∈ (ContentNode.mk .array [] [] fs []).children, c.Plain C.toJson := by
    intro c hc
    exact hfs.plain c (by simpa [ContentNode.children] using hc)
  have hrun := saveContainer_honest hC hfs.known hs (by simp) hplain hv (fun db h t hdb ht => by
    simp only [renderNode] at ht
    obtain ⟨us, hus, ht⟩ := except_bind_ok.mp ht
    have hshow : fs.mapM (fun x => Queue.text C db h (id x) >>= fun t => pure t) = .ok us :=
      mapM_ok_mono (fun c _ u hu => except_bind_ok.mpr ⟨u, hu, rfl⟩) hus
    rw [except_pure_ok, hfs.texts db h us hdb hshow] at ht
    exact ht.symm)
  exact ⟨hfs.sub.trans hrun.sub, hrun.known, hrun.plain, hrun.text⟩

theorem honest_rules : EncodeRules C
    (fun v _ w f w' => KnownOk C w → Honest C w w' f v)
    (fun kvs w ms w' => KnownOk C w → ∃ ts us, marshalEntries C.toJson kvs = some ts ∧
      marshalItems C.toJson (kvs.map (·.2)) = some us ∧ HonestMembers C w w' ms ts ∧
        HonestItems C w w' (ms.map (·.value)) us) where
  inline v _ w b _ hb hk := honest_inline hk hb
  ref v _ w f w' ih hk := by
    have hrun := ih hk
    exact ⟨hrun.sub, hrun.known, hrun.plain, by simpa only [marshal] using hrun.text⟩
  string s key w f w' h hk := stringValue_honest hC.lawful hk h
  object v kvs _ w ms w₁ f w' hkvs ih hs hk := by
    obtain ⟨ts, us, hts, -, hms, -⟩ := ih hk
    have hv := marshal_members (J := C.toJson) hkvs
    rw [hts, Option.map_some] at hv
    exact honest_object hC hms hv hs
  array xs key w ms w₁ f w' ih hs hk := by
    obtain ⟨ts, us, -, hus, -, hfs⟩ := ih hk
    rw [values_items] at hus
    exact honest_array hC hfs (by rw [marshal, hus]; rfl) hs
  nil w hk := ⟨[], [], rfl, rfl, HonestList.nil hk, HonestList.nil hk⟩
  cons key v kvs w f w₁ ms w₂ hv ih hk := by
    have hrun := hv hk
    obtain ⟨ts, us, hts, hus, hms, hfs⟩ := ih hrun.known
    obtain ⟨t, ht, -⟩ := hrun.text
    refine ⟨memberText C.toJson key t :: ts, t :: us, ?_, ?_, ?_, ?_⟩
    · rw [marshalEntries, ht, hts]
      rfl
    · rw [List.map_cons, marshalItems, ht, hus]
      rfl
    · exact HonestList.cons (x := ⟨key, f⟩) hrun ht hms
    · exact HonestList.cons (x := f) hrun ht hfs

/-- Encoding a value leaves a fragment with no other text than that of the value. -/
theorem encode_honest (v : Value) {key : String} (hk : KnownOk C w)
    (h : encode C v key w = .ok (f, w')) : Honest C w w' f v :=
  (honest_rules hC).value v h hk

/-! ### Payloads -/

omit hC in
/-- The guarded renderer reads the text of the tree. -/
theorem text_of_render : ∀ {k : Nat} {visiting : List String}
    {f : Fragment} {out : Bytes}, render C db k visiting f = .ok out → text C db k f = .ok out
  | 0, _, _, _, h => h
  | k + 1, visiting, f, out, h => by
    rw [render] at h
    rw [text]
    split_ifs at h ⊢ with hin hvis
    · exact h
    · obtain ⟨raw, hraw, h⟩ := except_bind_ok.mp h
      obtain ⟨n, hn, h⟩ := except_bind_ok.mp h
      refine except_bind_ok.mpr ⟨raw, hraw, except_bind_ok.mpr ⟨n, hn, ?_⟩⟩
      exact renderNode_mono (Table.Sub.refl db) (fun c _ t hc => text_of_render hc) h

theorem saveRoot_honest {w₀ : ObjectWriter} {g : Fragment} (hf : Honest C w₀ w f v)
    (hs : saveRoot C f w = .ok (g, w')) : Honest C w₀ w' g v := by
  rw [saveRoot] at hs
  split_ifs at hs with href
  · obtain ⟨out, hout, honly⟩ := hf.text
    have hrun : Honest C w w' g v := by
      refine honest_save hC hf.known hs (by simp) (by simp [ContentNode.children]) hout
        fun db h t hdb ht => ?_
      simp only [renderNode] at ht
      split_ifs at ht with hvalid
      cases ht
      refine honly db 0 f.json hdb ?_
      rw [Queue.text, if_pos href, renderInline, if_pos hvalid]
    exact ⟨hf.sub.trans hrun.sub, hrun.known, hrun.plain, hrun.text⟩
  · rw [Tx.pure_ok] at hs
    obtain ⟨rfl, rfl⟩ := hs
    exact hf

/-- A stored payload decodes to the text of its value, if to anything. -/
theorem decodePayload_honest {s s' : Store} {payload : Bytes}
    (h : encodePayload C v s = .ok (payload, s')) (hsub : Table.Sub s'.objects db)
    (hdec : decodePayload C db payload = .ok b) : marshal C.toJson v = some b := by
  obtain ⟨f, w, g, w', hf, hg, rfl, rfl⟩ := encodePayload_ok h
  obtain ⟨out, hout, honly⟩ := (saveRoot_honest hC (encode_honest hC v (knownOk_init s) hf) hg).text
  rw [decodePayload] at hdec
  obtain ⟨root, hroot, hdec⟩ := except_bind_ok.mp hdec
  simp only [payloadRoot, hC.lawful.unmarshalManifest_marshalManifest] at hroot
  rw [if_neg (by decide)] at hroot
  split_ifs at hroot with hlen
  cases hroot
  rw [not_or, not_not] at hlen
  have hne : g.ref ≠ "" := by
    intro he
    rw [he] at hlen
    exact absurd hlen.2 (by decide)
  rw [if_neg hne] at hdec
  have htext := text_of_render hdec
  rw [← text_ref hne] at htext
  rw [hout, honly db 257 b hsub htext]

end

theorem Plain.codec_reads (readEvent : Bytes → Option ThreatEvent) : (Plain.codec readEvent).Reads where
  lawful := Plain.codec_lawful readEvent
  unmarshalNode_depth _ _ _ _ _ _ _ := Nat.zero_le _
  unmarshalManifest_some ev b hb _ := by
    obtain ⟨rest, rfl⟩ := Plain.marshal_event_head hb
    rfl

end TaNode.Queue

import TaNode.Event.Decode
import TaNode.Queue.Reader

/-! A range read of a stored packet is a slice of the whole packet.

    `rangeFromPayload` walks from the root of a payload to `packet_hex`, and at each step the
    fragment it holds may have one of several forms:

        legacy text ─┐
        json node  ──┼─▶ raw_packet ─▶ packet_hex ─┬─ inline or string node ─▶ decode, slice
        object node ─┘                             └─ hex node ─▶ slice chunk by chunk

    `Stands` says which value a fragment stands for, whatever its form; `child_stands` goes down one
    member. At the bottom `sliceChunks_eq` shows that the loop over the chunks collects the same
    bytes as slicing their concatenation. -/

namespace TaNode.Queue

variable {R : ReadCodec} {C : Codec} {db : Table String Stored}
variable {data s payload : Bytes} {p : RawPacketContext} {key : String} {f : Fragment} {v : Value}
  {w w' : ObjectWriter} {fs : List (Tag × Value)} {ev : ThreatEvent}

/-! ### What a range read should return -/

/-- The bytes `[offset, offset + length)` of a packet, as far as it goes. -/
def sliced (offset length : Nat) (data : Bytes) (truncated : Bool) : Except ReadErr PacketRange :=
  if offset > data.length then .error .offsetExceeds
  else
    let stop := min (offset + length) data.length
    .ok ⟨offset, stop - offset, data.length, hexEncode ((data.take stop).drop offset), truncated⟩

/-! ### Hex -/

theorem unhexDigit_hexDigit (c : UInt8) :
    unhexDigit (hexDigit (c / 16)) = some (c / 16) ∧ unhexDigit (hexDigit (c % 16)) = some (c % 16) ∧
      16 * (c / 16) + c % 16 = c := by
  have hall : ∀ i : Fin 256, unhexDigit (hexDigit (UInt8.ofFin i / 16)) = some (UInt8.ofFin i / 16) ∧
      unhexDigit (hexDigit (UInt8.ofFin i % 16)) = some (UInt8.ofFin i % 16) ∧
      16 * (UInt8.ofFin i / 16) + UInt8.ofFin i % 16 = UInt8.ofFin i := by decide +kernel
  exact hall c.toFin

theorem hexDecode_hexEncode : ∀ b : Bytes, hexDecode (hexEncode b) = some b
  | [] => rfl
  | c :: b => by
    obtain ⟨hhi, hlo, hbyte⟩ := unhexDigit_hexDigit c
    have hcons : hexEncode (c :: b) = hexDigit (c / 16) :: hexDigit (c % 16) :: hexEncode b := rfl
    rw [hcons, hexDecode, hhi, hlo, hexDecode_hexEncode b]
    simp only [Option.bind_eq_bind, Option.bind_some, hbyte, pure]

/-! ### Chunks -/

/-- The ids of a hex node, each with the bytes of its chunk. -/
def Chunked (C : Codec) (db : Table String Stored) (ids : List String) (pieces : List Bytes) : Prop :=
  List.Forall₂ (fun id p => readObject C db id = .ok (0 :: p) ∧ p.length ≤ chunkBytes) ids pieces

theorem Chunked.mono {db' : Table String Stored} (hsub : Table.Sub db db') {ids : List String}
    {pieces : List Bytes} (h : Chunked C db ids pieces) : Chunked C db' ids pieces :=
  h.imp fun _ _ hp => ⟨readObject_mono hsub hp.1, hp.2⟩

/-- What `saveChunks` leaves behind. -/
theorem saveChunks_chunked (hC : C.Lawful) {ids : List String} (hk : KnownOk C w)
    (h : saveChunks C data.length data w = .ok (ids, w')) :
    ∃ pieces, Chunked C w'.store.objects ids pieces ∧ pieces.flatten = data := by
  refine (saveChunks_rule (Q := fun data w ids w' => KnownOk C w →
    Table.Sub w.store.objects w'.store.objects ∧
      ∃ pieces, Chunked C w'.store.objects ids pieces ∧ pieces.flatten = data) ?_ ?_ _
    (Nat.le_refl _) h hk).2
  · exact fun w _ => ⟨Table.Sub.refl _, [], .nil, rfl⟩
  · intro data w f w₁ ids w₂ hs ih hk
    obtain ⟨hsub₁, hk₁, raw, hraw, rfl, hread⟩ := save_spec hC hk hs
    obtain ⟨hsub₂, pieces, hpieces, hflat⟩ := ih hk₁
    cases hraw
    refine ⟨hsub₁.trans hsub₂, data.take chunkBytes :: pieces,
      .cons ⟨readObject_mono hsub₂ hread, ?_⟩ hpieces, ?_⟩
    · exact List.length_take_le _ _
    · rw [List.flatten_cons, hflat, List.take_append_drop]

/-- The `size` column of an object that can be read. -/
theorem size_of_read {id : String} {raw : Bytes} (h : readObject C db id = .ok raw) :
    ∃ row, db.lookup id = some row ∧ row.size = raw.length := by
  rw [readObject] at h
  cases hrow : db.lookup id with
  | none => rw [hrow] at h; cases h
  | some row =>
    rw [hrow] at h
    obtain ⟨raw', hraw', h⟩ := except_bind_ok.mp h
    refine ⟨row, rfl, ?_⟩
    split_ifs at h
    rw [except_pure_ok] at h
    subst h
    rw [unpack] at hraw'
    split_ifs at hraw' with _ _ hsize _
    · cases hraw'
      exact (not_not.mp hsize).symm
    · cases hinf : C.inflate row.data with
      | none => rw [hinf] at hraw'; cases hraw'
      | some out =>
        rw [hinf] at hraw'
        simp only at hraw'
        split_ifs at hraw' with hsize
        cases hraw'
        exact (not_not.mp hsize).symm

/-- The part of a chunk that a range takes. -/
theorem sliceChunk_eq {offset length total : Nat} (hlo : offset < total + data.length)
    (hhi : offset + length > total) :
    sliceChunk offset length total data =
      .ok ((data.take (offset + length - total)).drop (offset - total)) := by
  rw [sliceChunk, if_pos (by omega)]
  rw [← List.take_eq_take_min]

theorem chunkPart_eq {id : String} {p : Bytes} (hread : readObject R.toCodec db id = .ok (0 :: p))
    (offset length total : Nat) :
    chunkPart R db offset length total p.length id =
      .ok ((p.take (offset + length - total)).drop (offset - total)) := by
  rw [chunkPart]
  by_cases hover : offset < total + p.length ∧ offset + length > total
  · rw [if_pos hover]
    have hopen : openNode R db id = .ok { kind := .bytes, data := p } := by
      rw [openNode, hread]
      rfl
    rw [hopen]
    exact sliceChunk_eq hover.1 hover.2
  · rw [if_neg hover]
    -- the chunk lies wholly before or wholly behind the range
    rw [List.drop_eq_nil_of_le (by rw [List.length_take]; omega)]

/-- The loop over the chunks takes the slice of their concatenation. -/
theorem sliceChunks_eq (offset length : Nat) : ∀ {ids : List String} {pieces : List Bytes}
    (total : Nat), Chunked R.toCodec db ids pieces →
    sliceChunks R db offset length ids total =
      .ok ((pieces.flatten.take (offset + length - total)).drop (offset - total),
        total + pieces.flatten.length)
  | [], [], total, _ => by simp [sliceChunks]
  | id :: ids, p :: pieces, total, h => by
    obtain ⟨⟨hread, hlen⟩, hrest⟩ := List.forall₂_cons.mp h
    obtain ⟨row, hrow, hsize⟩ := size_of_read hread
    have hbytes : row.size - 1 = p.length := by rw [hsize, List.length_cons]; omega
    have hok : ¬(row.size - 1 < 0 ∨ row.size - 1 > chunkBytes) := by rw [hbytes]; omega
    rw [sliceChunks, hrow]
    simp only [hbytes, Int.toNat_natCast] at hok ⊢
    rw [if_neg hok, chunkPart_eq hread, sliceChunks_eq offset length (total + p.length) hrest]
    simp only [bind, Except.bind, pure, Except.pure, List.flatten_cons, List.length_append,
      Except.ok.injEq, Prod.mk.injEq]
    refine ⟨?_, by omega⟩
    rw [List.take_append, List.drop_append, List.length_take]
    have htake : offset + length - (total + p.length) = offset + length - total - p.length := by omega
    rw [htake]
    by_cases hpast : p.length ≤ offset + length - total
    · rw [Nat.min_eq_right hpast]
      have hdrop : offset - (total + p.length) = offset - total - p.length := by omega
      rw [hdrop]
    · have hzero : offset + length - total - p.length = 0 := by omega
      rw [hzero, List.take_zero, List.drop_nil, List.drop_nil]

/-! ### Reading a member -/

/-- `encoding/json` reads the members of a value's text back as their own texts. -/
def MembersRead (R : ReadCodec) (v : Value) : Prop :=
  ∀ b, marshal R.toJson v = some b → R.valid b = true →
    R.unmarshalObject b = some fun name => (v.member name).bind (marshal R.toJson)

/-- A fragment stands for a value: it is its text, a json node with its text, or what the encoder
    wrote for it under the name `key`. -/
inductive Stands (R : ReadCodec) (db : Table String Stored) (key : String) (f : Fragment) (v : Value) :
    Prop
  | text (b : Bytes) (hf : f = { json := b }) (hv : marshal R.toJson v = some b)
      (hok : R.valid b = true)
  | boxed (b : Bytes) (hne : f.ref ≠ "") (hf : openNode R db f.ref = .ok { kind := .json, data := b })
      (hv : marshal R.toJson v = some b) (hok : R.valid b = true)
  | wrote (w w' : ObjectWriter) (hw : Sound R.toCodec w)
      (hf : encode R.toCodec v key w = .ok (f, w')) (hsub : Table.Sub w'.store.objects db)

theorem Stands.deref (h : Stands R db key f (.ref v)) : Stands R db key f v := by
  cases h with
  | text b hf hv hok => exact .text b hf (by rw [marshal] at hv; exact hv) hok
  | boxed b hne hf hv hok => exact .boxed b hne hf (by rw [marshal] at hv; exact hv) hok
  | wrote w w' hw hf hsub => exact .wrote w w' hw (by rw [encode] at hf; exact hf) hsub

/-- Not a value with a serializer of its own, whose text is kept inline however deep it is. -/
def reflected : Value → Prop
  | .ref v => reflected v
  | .marshaler _ _ => False
  | _ => True

section
variable (hC : C.Lawful) (hshort : ∀ b, C.depth b ≤ b.length)
include hC

theorem stringValue_fixed (h : stringValue C s key w = .ok (f, w')) : f.Fixed C.toJson := by
  rcases stringValue_cases h with ⟨rfl, -⟩ | ⟨ids, w₁, -, h⟩
  · exact fixed_inline hC (v := .str s) (Nat.zero_le _) rfl
  · exact .inl (save_json h)

include hshort

theorem saveContainer_fixed {n : ContentNode} (h : saveContainer C v n w = .ok (f, w')) :
    f.Fixed C.toJson := by
  rcases saveContainer_cases h with ⟨b, hb, hlen, rfl, -⟩ | h
  · have hdepth := hshort b
    refine .inr ⟨hC.compact_marshal v b hb ?_, ?_⟩ <;> simp only [maxNestingDepth] <;> omega
  · exact .inl (save_json h)

theorem fixed_rules : EncodeRules C (fun v _ _ f _ => reflected v → f.Fixed C.toJson)
    (fun kvs _ ms _ => (∀ e ∈ kvs, reflected e.2) → ∀ m ∈ ms, m.value.Fixed C.toJson) where
  inline v _ _ b hv hb href := by
    refine fixed_inline hC ?_ hb
    cases v with
    | marshaler => exact absurd href (by simp [reflected])
    | _ => first | exact Nat.zero_le _ | exact absurd hv (by simp [Value.Atomic])
  ref _ _ _ _ _ ih href := ih href
  string _ _ _ _ _ h _ := stringValue_fixed hC h
  object _ _ _ _ _ _ _ _ _ _ hs _ := saveContainer_fixed hC hshort hs
  array _ _ _ _ _ _ _ _ hs _ := saveContainer_fixed hC hshort hs
  nil _ _ := by simp
  cons _ _ _ _ _ _ _ _ hv ih hkvs := by
    obtain ⟨hhead, hrest⟩ := List.forall_mem_cons.mp hkvs
    exact List.forall_mem_cons.mpr ⟨hv hhead, ih hrest⟩

/-- The encoder's fragments for the members of a struct of reflected values survive a reload. -/
theorem encodeFields_fixed {ms : List Member} (hfs : ∀ f ∈ fs, reflected f.2)
    (h : encodeFields C fs w = .ok (ms, w')) : ∀ m ∈ ms, m.value.Fixed C.toJson := by
  refine (fixed_rules hC hshort).fields fs rfl h fun e he => ?_
  obtain ⟨f, hf, rfl⟩ := List.mem_map.mp he
  exact hfs f (List.mem_filter.mp hf).1

end

/-- A member of a struct that can be marshalled can be marshalled itself. -/
theorem marshal_member {J : Json} {name : String} : ∀ {fs : List (Tag × Value)}
    {ts : List Bytes}, marshalFields J fs = some ts → (Value.struct fs).member name = some v →
    ∃ t, marshal J v = some t
  | [], _, _, hv => by simp [Value.member, Value.members] at hv
  | (tag, u) :: fs, ts, h, hv => by
    rw [marshalFields] at h
    rw [member_cons] at hv
    cases hkeep : tag.omitempty && isEmptyValue u with
    | true =>
      rw [hkeep, if_pos rfl] at h
      rw [hkeep, if_neg (by simp)] at hv
      exact marshal_member h hv
    | false =>
      rw [hkeep, if_neg (by simp)] at h
      obtain ⟨t, ht, h⟩ := Option.bind_eq_some_iff.mp h
      obtain ⟨ts', hts, -⟩ := Option.bind_eq_some_iff.mp h
      by_cases hname : tag.name = name
      · rw [if_pos ⟨hkeep, hname⟩] at hv
        exact ⟨t, Option.some.inj hv ▸ ht⟩
      · rw [if_neg fun hc => hname hc.2] at hv
        exact marshal_member hts hv

/-- The member of a struct and the fragment the encoder wrote for it, or neither. -/
theorem encodeFields_find (hC : C.Lawful) (name : String) : ∀ (fs : List (Tag × Value))
    {w w' : ObjectWriter} {ms : List Member}, Sound C w → encodeFields C fs w = .ok (ms, w') →
    ((Value.struct fs).member name = none ∧ ms.find? (·.key == name) = none) ∨
    ∃ v m w₁ w₂, (Value.struct fs).member name = some v ∧ ms.find? (·.key == name) = some m ∧
      Sound C w₁ ∧ encode C v name w₁ = .ok (m.value, w₂) ∧
      Table.Sub w₂.store.objects w'.store.objects
  | [], w, w', ms, _, h => by
    rw [encodeFields, Tx.pure_ok] at h
    rw [← h.1]
    exact .inl ⟨rfl, rfl⟩
  | (tag, v) :: fs, w, w', ms, hw, h => by
    rw [encodeFields, emptyValue_eq] at h
    rw [member_cons]
    cases hkeep : tag.omitempty && isEmptyValue v with
    | true =>
      rw [hkeep, if_pos rfl] at h
      rw [if_neg (by simp)]
      exact encodeFields_find hC name fs hw h
    | false =>
      rw [hkeep, if_neg (by simp)] at h
      obtain ⟨f, w₁, hf, h⟩ := Tx.bind_ok.mp h
      obtain ⟨rest, w₂, hms, h⟩ := Tx.bind_ok.mp h
      rw [Tx.pure_ok] at h
      obtain ⟨rfl, rfl⟩ := h
      obtain ⟨hgrown, -⟩ := encode_grown hC v hw hf
      by_cases hname : tag.name = name
      · subst hname
        obtain ⟨hrest, -⟩ := (grown_rules hC).fields fs rfl hms hgrown.sound
        refine .inr ⟨v, ⟨tag.name, f⟩, w, w₁, if_pos ⟨rfl, rfl⟩, ?_, hw, hf, hrest.sub⟩
        rw [List.find?_cons_of_pos (by simp)]
      · rw [if_neg fun hc => hname hc.2, List.find?_cons_of_neg (by simpa using hname)]
        exact encodeFields_find hC name fs hgrown.sound hms

/-- A fragment that is a reference. -/
structure Fragment.IsRef (f : Fragment) : Prop where
  eq : f = { ref := f.ref }
  size : f.ref.utf8ByteSize = 64

theorem Fragment.IsRef.ne (h : f.IsRef) : f.ref ≠ "" := by
  intro he
  have hsize := h.size
  rw [he] at hsize
  exact absurd hsize (by decide)

section
variable (hC : R.toCodec.Lawful)
include hC

/-- The node of a saved container. -/
theorem openNode_saved {n : ContentNode} (hk : KnownOk R.toCodec w) (hkind : n.kind ≠ .bytes)
    (hfix : ∀ c ∈ n.children, c.Fixed R.toJson) (h : save R.toCodec n w = .ok (f, w'))
    (hsub : Table.Sub w'.store.objects db) : f.IsRef ∧ openNode R db f.ref = .ok n := by
  obtain ⟨-, -, raw, hraw, rfl, hread⟩ := save_spec hC hk h
  refine ⟨⟨rfl, hC.sha256Hex_length raw⟩, ?_⟩
  rw [openNode, readObject_mono hsub hread]
  simp only [fromQueue, Except.mapError, bind, Except.bind]
  rw [decodeNode_of_fixed hC hkind hfix hraw]

/-- What the encoder wrote for a struct: its text, or a node with its members. -/
theorem encode_struct (hshort : ∀ b, R.depth b ≤ b.length) (hfs : ∀ f ∈ fs, reflected f.2)
    (hw : Sound R.toCodec w) (h : encode R.toCodec (.struct fs) key w = .ok (f, w'))
    (hsub : Table.Sub w'.store.objects db) :
    (∃ b, f = { json := b } ∧ marshal R.toJson (.struct fs) = some b ∧ R.valid b = true) ∨
    ∃ ms w₁, encodeFields R.toCodec fs w = .ok (ms, w₁) ∧ Table.Sub w₁.store.objects db ∧
      f.IsRef ∧ openNode R db f.ref = .ok { kind := .object, fields := ms } := by
  rw [encode] at h
  obtain ⟨ms, w₁, hms, h⟩ := Tx.bind_ok.mp h
  obtain ⟨hgrown, -⟩ := (grown_rules hC).fields fs rfl hms hw
  have hfix : ∀ c ∈ ({ kind := .object, fields := ms } : ContentNode).children,
      c.Fixed R.toJson := by
    intro c hc
    rw [ContentNode.children, List.append_nil, List.mem_map] at hc
    obtain ⟨m, hm, rfl⟩ := hc
    exact encodeFields_fixed hC hshort hfs hms m hm
  rcases saveContainer_cases h with ⟨b, hb, hlen, rfl, -⟩ | hs
  · have hdepth := hshort b
    refine .inl ⟨b, rfl, hb, hC.valid_marshal _ b hb ?_⟩
    simp only [maxNestingDepth]
    omega
  · obtain ⟨hsub₁, -, -⟩ := save_spec hC hgrown.sound.known hs
    obtain ⟨href, hopen⟩ := openNode_saved hC hgrown.sound.known (by simp) hfix hs hsub
    exact .inr ⟨ms, w₁, hms, hsub₁.trans hsub, href, hopen⟩

/-- `child` finds a member of an object in whatever form it is stored, and only then. -/
theorem child_stands (hshort : ∀ b, R.depth b ≤ b.length) (hfs : ∀ f ∈ fs, reflected f.2)
    (hread : MembersRead R (.struct fs)) (h : Stands R db key f (.struct fs)) (name : String)
    (hname : ∀ v t, (Value.struct fs).member name = some v → marshal R.toJson v = some t → R.valid t = true) :
    ((Value.struct fs).member name = none ∧ child R db f name = .error noRows) ∨
    ∃ v g, (Value.struct fs).member name = some v ∧ child R db f name = .ok g ∧
      Stands R db name g v := by
  -- the text of the object, inline or in a node of its own
  have htext : ∀ b, marshal R.toJson (.struct fs) = some b → R.valid b = true →
      ((Value.struct fs).member name = none ∧ textMember R b name = .error noRows) ∨
      ∃ v g, (Value.struct fs).member name = some v ∧ textMember R b name = .ok g ∧
        Stands R db name g v := by
    intro b hb hok
    rw [textMember, hread b hb hok]
    cases hv : (Value.struct fs).member name with
    | none => exact .inl ⟨rfl, by simp only [hv, Option.bind_none]⟩
    | some v =>
      have hts := hb
      rw [marshal, Option.map_eq_some_iff] at hts
      obtain ⟨ts, hts, -⟩ := hts
      obtain ⟨t, ht⟩ := marshal_member hts hv
      exact .inr ⟨v, { json := t }, rfl, by simp only [hv, Option.bind_some, ht],
        .text t rfl ht (hname v t hv ht)⟩
  cases h with
  | text b hf hb hok =>
    rw [hf, child, if_pos rfl]
    exact htext b hb hok
  | boxed b hne hf hb hok =>
    rw [child, if_neg hne, hf]
    exact htext b hb hok
  | wrote w w' hw hf hsub =>
    rcases encode_struct hC hshort hfs hw hf hsub with ⟨b, rfl, hb, hok⟩ |
      ⟨ms, w₁, hms, hsub₁, href, hopen⟩
    · rw [child, if_pos rfl]
      exact htext b hb hok
    · rw [child, if_neg href.ne, hopen]
      simp only [bind, Except.bind]
      rcases encodeFields_find hC name fs hw hms with ⟨hv, hfind⟩ | ⟨v, m, w₂, w₃, hv, hfind, hw₂, hm, hs⟩
      · exact .inl ⟨hv, by rw [hfind]⟩
      · exact .inr ⟨v, m.value, hv, by rw [hfind], .wrote w₂ w₃ hw₂ hm (hs.trans hsub₁)⟩

/-! ### Reading a value -/

/-- The text of a fragment is the text of the value it stands for. -/
theorem render_stands (hn : nesting R.toJson v ≤ maxContainers) (h : Stands R db key f v) :
    ∃ b, marshal R.toJson v = some b ∧ render R.toCodec db 257 [] f = .ok b := by
  cases h with
  | text b hf hv hok =>
    refine ⟨b, hv, ?_⟩
    rw [hf, render, if_pos rfl, renderInline, if_pos hok]
  | boxed b hne hf hv hok =>
    obtain ⟨raw, hraw, hnode⟩ := openNode_ok hf
    refine ⟨b, hv, ?_⟩
    rw [render, if_neg hne, if_neg (List.not_mem_nil), hraw]
    simp only [bind, Except.bind, hnode, renderNode, hok, if_true]
  | wrote w w' hw hf hsub =>
    obtain ⟨-, -, -, b, hb, htext⟩ := encode_spec hC v (hn.trans (by decide)) hw.known hf
    refine ⟨b, hb, render_of_text _ (text_mono hsub (Nat.le_refl _) htext) ?_ (by simp)⟩
    simp only [maxContainers] at hn
    omega

theorem renderAs_stands {α : Type} {unmarshal : Bytes → Option α} {b : Bytes} {a : α}
    (hn : nesting R.toJson v ≤ maxContainers) (hb : marshal R.toJson v = some b)
    (ha : unmarshal b = some a) (h : Stands R db key f v) : renderAs R db unmarshal f = .ok a := by
  obtain ⟨b', hb', hrender⟩ := render_stands hC hn h
  rw [hb] at hb'
  cases hb'
  rw [renderAs, hrender]
  simp only [fromQueue, Except.mapError, bind, Except.bind, ha]

/-- A packet that is read as a whole. -/
theorem sliceText_stands (hs : R.unmarshalString (R.quote s) = some s)
    (hdata : hexDecode s = some data) (h : Stands R db key f (.str s)) (offset length : Nat)
    (truncated : Bool) :
    sliceText R db offset length truncated f = sliced offset length data truncated := by
  rw [sliceText, renderAs_stands hC (Nat.zero_le _) rfl hs h, sliced]
  simp only [bind, Except.bind, hdata]
  rfl

/-- A packet in any form: `packet_hex` is short, a string node, or a hex node. -/
theorem slicePacket_stands (hs : R.unmarshalString (R.quote s) = some s)
    (hdata : hexDecode s = some data) (h : Stands R db key f (.str s)) (offset length : Nat)
    (truncated : Bool) :
    slicePacket R db offset length truncated f = sliced offset length data truncated := by
  have hwhole := sliceText_stands hC hs hdata h offset length truncated
  have hnode : ∀ n, f.ref ≠ "" → openNode R db f.ref = .ok n → n.kind ≠ .hex →
      slicePacket R db offset length truncated f = sliced offset length data truncated := by
    intro n hne hopen hkind
    rw [slicePacket, if_neg hne, hopen]
    simp only [bind, Except.bind, if_neg hkind]
    exact hwhole
  cases h with
  | text b hf =>
    rw [slicePacket, if_pos (by rw [hf])]
    exact hwhole
  | boxed b hne hf => exact hnode _ hne hf (by simp)
  | wrote w w' hw hf hsub =>
    rw [encode] at hf
    rcases stringValue_cases hf with ⟨rfl, -⟩ | ⟨ids, w₁, hids, hf⟩
    · rw [slicePacket, if_pos rfl]
      exact hwhole
    obtain ⟨-, hk₁, -⟩ := saveChunks_spec hC hw.known hids
    obtain ⟨pieces, hpieces, hflat⟩ := saveChunks_chunked hC hw.known hids
    have hsaved := fun hkind => openNode_saved hC hk₁ hkind (by simp [ContentNode.children]) hf hsub
    rcases stringKind_cases s key with hkind | ⟨b, hkind, hb⟩
    · rw [hkind] at hsaved
      obtain ⟨href, hopen⟩ := hsaved (by simp)
      exact hnode _ href.ne hopen (by simp)
    · rw [hkind] at hsaved hflat
      obtain ⟨href, hopen⟩ := hsaved (by simp)
      obtain ⟨hsub₁, -, -⟩ := save_spec hC hk₁ hf
      rw [← hb, hexDecode_hexEncode] at hdata
      cases hdata
      rw [slicePacket, if_neg href.ne, hopen]
      simp only [bind, Except.bind, if_true]
      rw [sliceChunks_eq offset length 0 (hpieces.mono (hsub₁.trans hsub)), hflat]
      simp only [Nat.sub_zero, Nat.zero_add, sliced]
      rw [← List.take_eq_take_min, List.length_drop, List.length_take]
      rfl

end

/-! ### The packet of an event -/

theorem reflected_pointer {α : Type} {view : α → Value} (h : ∀ a, reflected (view a)) :
    ∀ o : Option α, reflected (.pointer view o)
  | none => trivial
  | some a => h a

/-- No field of an event has a serializer of its own. -/
theorem reflected_event (hfs : ev.toValue = .struct fs) : ∀ f ∈ fs, reflected f.2 := by
  rw [ThreatEvent.toValue, Value.struct.injEq] at hfs
  rw [← hfs]
  simp only [field, optField, List.forall_mem_cons, List.not_mem_nil, false_imp_iff, implies_true,
    and_true, reflected, Value.text, Value.texts, true_and]
  repeat' apply And.intro
  all_goals
    refine reflected_pointer ?_ _
    intro a
    trivial

theorem reflected_packet (hfs : p.toValue = .struct fs) : ∀ f ∈ fs, reflected f.2 := by
  rw [RawPacketContext.toValue, Value.struct.injEq] at hfs
  rw [← hfs]
  simp only [field, optField, List.forall_mem_cons, List.not_mem_nil, false_imp_iff, implies_true,
    and_true, reflected, Value.text, true_and]
  constructor
  all_goals
    refine reflected_pointer ?_ _
    intro a
    trivial

theorem member_rawPacket (hp : ev.rawPacket = some p) :
    ev.toValue.member "raw_packet" = some (.ref p.toValue) := by
  simp [ThreatEvent.toValue, member_cons, field, optField, hp, Value.pointer, isEmptyValue]

theorem member_packetHex (p : RawPacketContext) :
    p.toValue.member "packet_hex" = some (.text p.packetHex) := by
  simp [RawPacketContext.toValue, member_cons, field, optField]

theorem member_captureTruncated (p : RawPacketContext) :
    p.toValue.member "capture_truncated" = if p.captureTruncated then some (.bool true) else none := by
  cases h : p.captureTruncated <;>
    simp [RawPacketContext.toValue, field, optField, isEmptyValue, h, Value.member, Value.members]

/-- What a range read of an event uses of `encoding/json`: it reads the texts of the event and of its
    packet back member by member, and the two scalars it looks at; `json.Unmarshal` checks a text
    before anything else, and a text is no deeper than it is long. -/
structure ReadsPacket (R : ReadCodec) (ev : ThreatEvent) (p : RawPacketContext) : Prop where
  event : MembersRead R ev.toValue
  packet : MembersRead R p.toValue
  packetHex : R.unmarshalString (R.quote (utf8 p.packetHex)) = some (utf8 p.packetHex)
  truncated : R.unmarshalBool (utf8 "true") = some true
  manifest : ∀ b m, R.unmarshalManifest b = some m → R.valid b = true
  short : ∀ b, R.depth b ≤ b.length

section
variable (hC : R.toCodec.Lawful) {ev : ThreatEvent} {p : RawPacketContext}
  (hreads : ReadsPacket R ev p)
include hC

/-- The text of a value a few containers deep is valid. -/
theorem valid_of_nesting {b : Bytes} (hn : nesting R.toJson v ≤ maxContainers)
    (hb : marshal R.toJson v = some b) : R.valid b = true := by
  refine hC.valid_marshal v b hb ((hC.depth_marshal v b hb).trans (hn.trans ?_))
  decide

include hreads

/-- The members of a packet that a range read looks at. -/
theorem child_packet {name : String} {raw : Fragment} (h : Stands R db key raw p.toValue)
    (hscalar : ∀ v, p.toValue.member name = some v → nesting R.toJson v = 0) :
    (p.toValue.member name = none ∧ child R db raw name = .error noRows) ∨
    ∃ v g, p.toValue.member name = some v ∧ child R db raw name = .ok g ∧ Stands R db name g v := by
  obtain ⟨fs, hfs⟩ : ∃ fs, p.toValue = .struct fs := ⟨_, rfl⟩
  rw [hfs] at h hscalar ⊢
  refine child_stands hC hreads.short (reflected_packet hfs) (hfs ▸ hreads.packet) h name ?_
  intro v t hv ht
  exact valid_of_nesting hC (by rw [hscalar v hv]; exact Nat.zero_le _) ht

theorem captureTruncated_stands {raw : Fragment} (h : Stands R db key raw p.toValue) :
    captureTruncated R db raw = .ok p.captureTruncated := by
  have hmember := member_captureTruncated p
  have hscalar : ∀ v, p.toValue.member "capture_truncated" = some v → nesting R.toJson v = 0 := by
    intro v hv
    rw [hmember] at hv
    split_ifs at hv
    cases hv
    rfl
  rw [captureTruncated]
  rcases child_packet hC hreads h hscalar with ⟨hnone, hchild⟩ | ⟨v, g, hv, hchild, hg⟩
  · rw [hchild]
    rw [hmember] at hnone
    split_ifs at hnone with hfalse
    rw [Bool.eq_false_iff.mpr hfalse]
    rfl
  · rw [hchild]
    rw [hmember] at hv
    split_ifs at hv with htrue
    cases hv
    rw [htrue]
    exact renderAs_stands hC (Nat.zero_le _) rfl hreads.truncated hg

/-- The first half of a range read, from a root that stands for the event. -/
theorem openPacket_stands (hp : ev.rawPacket = some p) {root : String}
    (hroot : payloadRoot R.toCodec payload = .ok root)
    (h : Stands R db "" (if root = "" then { json := payload } else { ref := root }) ev.toValue) :
    ∃ g, openPacket R db payload = .ok (p.captureTruncated, g) ∧
      Stands R db "packet_hex" g (.str (utf8 p.packetHex)) := by
  have hraw := member_rawPacket hp
  obtain ⟨fs, hfs⟩ : ∃ fs, ev.toValue = .struct fs := ⟨_, rfl⟩
  rw [hfs] at h hraw
  have hvalid : ∀ v t, (Value.struct fs).member "raw_packet" = some v → marshal R.toJson v = some t →
      R.valid t = true := by
    intro v t hv ht
    rw [hraw] at hv
    cases hv
    exact valid_of_nesting hC ((nesting_rawPacket R.toJson p).trans (by decide)) ht
  rcases child_stands hC hreads.short (reflected_event hfs) (hfs ▸ hreads.event) h "raw_packet" hvalid
    with ⟨hnone, -⟩ | ⟨v, raw, hv, hchild, hstands⟩
  · rw [hraw] at hnone
    cases hnone
  rw [hraw] at hv
  cases hv
  have hpacket := hstands.deref
  have hscalar : ∀ v, p.toValue.member "packet_hex" = some v → nesting R.toJson v = 0 := by
    intro v hv
    rw [member_packetHex] at hv
    cases hv
    exact nesting_text _ _
  rcases child_packet hC hreads hpacket hscalar with ⟨hnone, -⟩ | ⟨v, g, hv, hfield, hg⟩
  · rw [member_packetHex] at hnone
    cases hnone
  rw [member_packetHex] at hv
  cases hv
  refine ⟨g, ?_, hg⟩
  rw [openPacket, hroot]
  simp only [fromQueue, Except.mapError, bind, Except.bind]
  rw [hchild]
  simp only [captureTruncated_stands hC hreads hpacket, hfield]
  rfl

/-- A range read from a root that stands for the event. -/
theorem range_stands (hp : ev.rawPacket = some p) {root : String}
    (hdata : hexDecode (utf8 p.packetHex) = some data)
    (hroot : payloadRoot R.toCodec payload = .ok root)
    (h : Stands R db "" (if root = "" then { json := payload } else { ref := root }) ev.toValue)
    (offset length : Nat) :
    rangeFromPayload R db payload offset length = sliced offset length data p.captureTruncated := by
  obtain ⟨g, hopen, hg⟩ := openPacket_stands hC hreads hp hroot h
  rw [rangeFromPayload, hopen]
  exact slicePacket_stands hC hreads.packetHex hdata hg offset length _

end

/-- The root that `encodePayload` leaves behind. -/
theorem encodePayload_stands (hC : R.toCodec.Lawful) (hshort : ∀ b, R.depth b ≤ b.length)
    (hfs : ∀ f ∈ fs, reflected f.2) {s s' : Store} (hs : s.Closed R.toCodec)
    (h : encodePayload R.toCodec (.struct fs) s = .ok (payload, s'))
    (hsub : Table.Sub s'.objects db) :
    ∃ root, root ≠ "" ∧ payloadRoot R.toCodec payload = .ok root ∧
      Stands R db "" { ref := root } (.struct fs) := by
  obtain ⟨f, w, g, w', hf, hg, rfl, rfl⟩ := encodePayload_ok h
  have hw := sound_init hs
  obtain ⟨hgrown, -⟩ := encode_grown hC _ hw hf
  rw [saveRoot] at hg
  by_cases hinline : f.ref = ""
  · rw [if_pos hinline] at hg
    obtain ⟨hsub₁, -, -⟩ := save_spec hC hgrown.sound.known hg
    obtain ⟨href, hopen⟩ :=
      openNode_saved hC hgrown.sound.known (by simp) (by simp [ContentNode.children]) hg hsub
    refine ⟨g.ref, href.ne, payloadRoot_manifest hC href.size, ?_⟩
    rcases encode_struct hC hshort hfs hw hf (hsub₁.trans hsub) with ⟨b, rfl, hb, hok⟩ | ⟨_, _, _, _, hf, _⟩
    · exact .boxed b href.ne hopen hb hok
    · exact absurd hinline hf.ne
  · rw [if_neg hinline, Tx.pure_ok] at hg
    obtain ⟨rfl, rfl⟩ := hg
    rcases encode_struct hC hshort hfs hw hf hsub with ⟨b, rfl, -, -⟩ | ⟨_, _, _, _, href, _⟩
    · exact absurd rfl hinline
    · refine ⟨f.ref, href.ne, payloadRoot_manifest hC href.size, ?_⟩
      rw [← href.eq]
      exact .wrote _ _ hw hf hsub

/-- A packet that was stored in parts, in any form, is sliced as a whole. -/
theorem range_stored (hC : R.toCodec.Lawful) (hreads : ReadsPacket R ev p)
    (hp : ev.rawPacket = some p) (hdata : hexDecode (utf8 p.packetHex) = some data) {s s' : Store}
    (hs : s.Closed R.toCodec) (h : encodePayload R.toCodec ev.toValue s = .ok (payload, s'))
    (hsub : Table.Sub s'.objects db) (offset length : Nat) :
    rangeFromPayload R db payload offset length = sliced offset length data p.captureTruncated := by
  obtain ⟨fs, hfs⟩ : ∃ fs, ev.toValue = .struct fs := ⟨_, rfl⟩
  rw [hfs] at h
  obtain ⟨root, hne, hroot, hstands⟩ :=
    encodePayload_stands hC hreads.short (reflected_event hfs) hs h hsub
  refine range_stands hC hreads hp hdata hroot ?_ offset length
  rw [if_neg hne, hfs]
  exact hstands

/-- The same packet in a legacy payload. -/
theorem range_legacy (hC : R.toCodec.Lawful) (hreads : ReadsPacket R ev p)
    (hp : ev.rawPacket = some p) {legacy : Bytes} (hdata : hexDecode (utf8 p.packetHex) = some data)
    (hlegacy : marshal R.toJson ev.toValue = some legacy)
    (hroot : payloadRoot R.toCodec legacy = .ok "") (offset length : Nat) :
    rangeFromPayload R db legacy offset length = sliced offset length data p.captureTruncated := by
  refine range_stands hC hreads hp hdata hroot ?_ offset length
  rw [if_pos rfl]
  refine .text legacy rfl hlegacy ?_
  rw [payloadRoot] at hroot
  cases hm : R.unmarshalManifest legacy with
  | none => rw [hm] at hroot; cases hroot
  | some m => exact hreads.manifest legacy m hm

/-- **A range read is a slice**: an event with any packet that hex-decodes gives the same answer from
    its stored payload and from its legacy one, an error when the offset is past the end and the
    bytes of the range otherwise. -/
theorem range_v2_eq_legacy (hC : R.toCodec.Lawful) {ev : ThreatEvent} {p : RawPacketContext}
    (hreads : ReadsPacket R ev p) (hp : ev.rawPacket = some p) {data payload legacy : Bytes}
    (hdata : hexDecode (utf8 p.packetHex) = some data) {s s' : Store} (hs : s.Closed R.toCodec)
    (h : encodePayload R.toCodec ev.toValue s = .ok (payload, s'))
    (hlegacy : marshal R.toJson ev.toValue = some legacy)
    (hroot : payloadRoot R.toCodec legacy = .ok "") {db db' : Table String Stored}
    (hsub : Table.Sub s'.objects db) (offset length : Nat) :
    rangeFromPayload R db payload offset length = rangeFromPayload R db' legacy offset length ∧
      rangeFromPayload R db payload offset length =
        if offset > data.length then .error .offsetExceeds
        else
          let stop := min (offset + length) data.length
          .ok ⟨offset, stop - offset, data.length, hexEncode ((data.take stop).drop offset),
            p.captureTruncated⟩ := by
  have hstored := range_stored hC hreads hp hdata hs h hsub offset length
  exact ⟨hstored.trans (range_legacy hC hreads hp hdata hlegacy hroot offset length).symm, hstored⟩

theorem packetEvent_reads : ReadsPacket sampleReader packetEvent samplePacket where
  event b hb _ := by
    have hfind : (marshal Plain.json packetEvent.toValue == some b) = true := beq_iff_eq.mpr hb
    simp only [sampleReader]
    rw [List.find?_cons_of_pos (p := fun v => marshal Plain.json v == some b) hfind]
    rfl
  packet b hb _ := by
    have hfind : (marshal Plain.json samplePacket.toValue == some b) = true := beq_iff_eq.mpr hb
    have hother : ¬(marshal Plain.json packetEvent.toValue == some b) = true := by
      rw [beq_iff_eq, ← show marshal Plain.json samplePacket.toValue = some b from hb]
      decide +kernel
    simp only [sampleReader]
    rw [List.find?_cons_of_neg (p := fun v => marshal Plain.json v == some b) hother,
      List.find?_cons_of_pos (p := fun v => marshal Plain.json v == some b) hfind]
    rfl
  packetHex := by decide +kernel
  truncated := by decide +kernel
  manifest _ _ _ := rfl
  short b := Nat.zero_le _

/-- The last two bytes of a packet stored as a chunk, when five are asked for. -/
theorem range_v2_eq_legacy_packetEvent : ∃ payload s' legacy,
    encodePayload sampleReader.toCodec packetEvent.toValue {} = .ok (payload, s') ∧
    s'.objects.keys.length = 4 ∧ marshal sampleReader.toJson packetEvent.toValue = some legacy ∧
    rangeFromPayload sampleReader s'.objects payload 62 5 =
      rangeFromPayload sampleReader ∅ legacy 62 5 ∧
    rangeFromPayload sampleReader s'.objects payload 62 5 = .ok ⟨62, 2, 64, utf8 "0c0d", false⟩ := by
  have hv2 : (encodePayload sampleReader.toCodec packetEvent.toValue {}).toOption.map
      (·.2.objects.keys.length) = some 4 := by
    decide +kernel
  have hv1 : ((marshal sampleReader.toJson packetEvent.toValue).map
      (payloadRoot sampleReader.toCodec)) = some (.ok "") := by decide +kernel
  obtain ⟨⟨payload, s'⟩, hstored, hlen⟩ := Option.map_eq_some_iff.mp hv2
  rw [except_toOption_some] at hstored
  obtain ⟨legacy, hlegacy, hroot⟩ := Option.map_eq_some_iff.mp hv1
  have hdata : hexDecode (utf8 samplePacket.packetHex) =
      some (List.replicate 16 [10, 11, 12, 13]).flatten := by decide +kernel
  have hclosed : ({} : Store).Closed sampleReader.toCodec :=
    ⟨fun id h => by simp [Store.Has] at h, fun p c h => by simp at h⟩
  obtain ⟨hsame, hslice⟩ : rangeFromPayload sampleReader s'.objects payload 62 5 =
      rangeFromPayload sampleReader ∅ legacy 62 5 ∧ _ :=
    range_v2_eq_legacy (Plain.codec_lawful _) packetEvent_reads rfl hdata hclosed hstored hlegacy hroot
      (Table.Sub.refl _) 62 5
  exact ⟨payload, s', legacy, hstored, hlen, hlegacy, hsame, hslice⟩

end TaNode.Queue

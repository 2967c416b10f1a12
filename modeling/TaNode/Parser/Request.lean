import TaNode.Parser.Hello

/-! What `parseHTTP` reads of a well-formed request.

        method SP target SP version CRLF
        name: value CRLF
        …
        CRLF
        body

    Inside the lines stands no CR, so the first empty line ends the head and the splitter gives the
    lines back. The parser looks at the request line again as if it were a header; no method can be
    taken for the name "host". -/

namespace TaNode

variable {s t : Bytes} {b : UInt8}

/-! ### Delimiters -/

section
variable {c : UInt8} {sep : Bytes}

/-- Nothing is cut before a separator whose first byte does not occur. -/
theorem cut_append (h : c ∉ s) :
    cut (c :: sep) (s ++ t) = (cut (c :: sep) t).map fun p => (s ++ p.1, p.2) := by
  induction s with
  | nil =>
    rw [List.nil_append]
    cases cut (c :: sep) t <;> rfl
  | cons b s ih =>
    have hb : ¬ (c :: sep).isPrefixOf (b :: s ++ t) = true := by
      rw [List.isPrefixOf_iff_prefix, List.cons_append, List.cons_prefix_cons]
      rintro ⟨rfl, -⟩
      exact h List.mem_cons_self
    rw [List.cons_append] at hb ⊢
    rw [cut, if_neg hb, ih fun hc => h (List.mem_cons_of_mem _ hc), Option.map_map]
    rfl

theorem cut_sep (t : Bytes) : cut (c :: sep) (c :: sep ++ t) = some ([], t) := by
  have hpre : (c :: sep).isPrefixOf (c :: (sep ++ t)) = true :=
    List.isPrefixOf_iff_prefix.mpr (List.prefix_append (c :: sep) t)
  rw [List.cons_append, cut, if_pos hpre, ← List.cons_append, List.drop_left]

theorem cut_at (h : c ∉ s) (t : Bytes) : cut (c :: sep) (s ++ (c :: sep ++ t)) = some (s, t) := by
  rw [cut_append h, cut_sep, Option.map_some, List.append_nil]

theorem splitFrom_append {part : Bytes} (h : c ∉ s) :
    splitFrom (c :: sep) 0 part (s ++ t) = splitFrom (c :: sep) 0 (s.reverse ++ part) t := by
  induction s generalizing part with
  | nil => rfl
  | cons b s ih =>
    have hb : ¬ (c :: sep).isPrefixOf (b :: (s ++ t)) = true := by
      rw [List.isPrefixOf_iff_prefix, List.cons_prefix_cons]
      rintro ⟨rfl, -⟩
      exact h List.mem_cons_self
    rw [List.cons_append, splitFrom, if_neg hb, ih fun hc => h (List.mem_cons_of_mem _ hc),
      List.reverse_cons, List.append_assoc]
    rfl

theorem splitFrom_skip (k : Nat) (part : Bytes) : ∀ s t : Bytes, s.length = k →
    splitFrom (c :: sep) k part (s ++ t) = splitFrom (c :: sep) 0 part t
  | [], t, h => by rw [← h]; rfl
  | b :: s, t, h => by
    obtain ⟨k, rfl⟩ : ∃ j, k = j + 1 := ⟨s.length, h.symm⟩
    rw [List.cons_append, splitFrom, splitFrom_skip k part s t (Nat.succ.inj h)]

theorem splitFrom_sep (part t : Bytes) :
    splitFrom (c :: sep) 0 part (c :: sep ++ t) = part.reverse :: splitFrom (c :: sep) 0 [] t := by
  have hpre : (c :: sep).isPrefixOf (c :: (sep ++ t)) = true :=
    List.isPrefixOf_iff_prefix.mpr (List.prefix_append (c :: sep) t)
  rw [List.cons_append, splitFrom, if_pos hpre, List.length_cons, Nat.add_sub_cancel,
    splitFrom_skip _ [] sep t rfl]

/-- Parts without the first byte of the separator are given back. -/
theorem split_intercalate : ∀ {parts : List Bytes}, (∀ p ∈ parts, c ∉ p) → parts ≠ [] →
    split (c :: sep) ((c :: sep).intercalate parts) = parts
  | [p], h, _ => by
    rw [List.intercalate_singleton, split, ← List.append_nil p,
      splitFrom_append (h p (List.mem_singleton_self p)), splitFrom, List.append_nil, List.append_nil,
      List.reverse_reverse]
  | p :: q :: parts, h, _ => by
    have hp := h p List.mem_cons_self
    have hrest := split_intercalate (fun x hx => h x (List.mem_cons_of_mem _ hx)) (List.cons_ne_nil q parts)
    rw [split] at hrest
    rw [List.intercalate_cons_of_ne_nil (List.cons_ne_nil q parts), split, List.append_assoc,
      splitFrom_append hp, splitFrom_sep, hrest, List.append_nil, List.reverse_reverse]

end

theorem cut_cons {sep : Bytes} (h : ¬ sep <+: b :: t) :
    cut sep (b :: t) = (cut sep t).map fun x => (b :: x.1, x.2) := by
  rw [cut, if_neg (by rwa [List.isPrefixOf_iff_prefix])]

abbrev crlf : Bytes := [13, 10]

/-- The end of the last line and an empty one. -/
abbrev blank : Bytes := [13, 10, 13, 10]

theorem intercalate_cons_eq (sep q : Bytes) (lines : List Bytes) :
    ∃ more, sep.intercalate (q :: lines) = q ++ more := by
  cases lines with
  | nil => exact ⟨[], by rw [List.intercalate_singleton, List.append_nil]⟩
  | cons r lines =>
    exact ⟨sep ++ sep.intercalate (r :: lines), by
      rw [List.intercalate_cons_of_ne_nil (List.cons_ne_nil r lines), List.append_assoc]⟩

/-- The head of a message ends at its first empty line. -/
theorem cut_head (body : Bytes) : ∀ {lines : List Bytes}, (∀ l ∈ lines, 13 ∉ l ∧ l ≠ []) → lines ≠ [] →
    cut blank (crlf.intercalate lines ++ (blank ++ body)) = some (crlf.intercalate lines, body)
  | [p], h, _ => by
    rw [List.intercalate_singleton]
    exact cut_at (h p (List.mem_singleton_self p)).1 body
  | p :: q :: lines, h, _ => by
    have hp := (h p List.mem_cons_self).1
    obtain ⟨hq, hne⟩ := h q (List.mem_cons_of_mem _ List.mem_cons_self)
    have hrest := cut_head body (fun x hx => h x (List.mem_cons_of_mem _ hx)) (List.cons_ne_nil q lines)
    obtain ⟨more, hhead⟩ := intercalate_cons_eq crlf q lines
    obtain ⟨b, q, rfl⟩ := List.exists_cons_of_ne_nil hne
    have hb : 13 ≠ b := fun h => hq (h ▸ List.mem_cons_self)
    -- the two bytes behind a line are passed over, as the third is no CR
    have hskip : ∀ t : Bytes, cut blank (crlf ++ (b :: t)) =
        (cut blank (b :: t)).map fun x => (crlf ++ x.1, x.2) := by
      intro t
      rw [List.cons_append, cut_cons (by simp [hb]), List.cons_append, cut_cons (by simp),
        List.nil_append, Option.map_map]
      rfl
    rw [List.intercalate_cons_of_ne_nil (List.cons_ne_nil _ lines), List.append_assoc,
      List.append_assoc, hhead]
    rw [hhead] at hrest
    change cut blank (p ++ (crlf ++ (b :: (q ++ more ++ (blank ++ body))))) = _
    rw [cut_append hp, hskip, ← List.cons_append, ← List.cons_append, hrest]
    simp only [Option.map_some, List.append_assoc]

/-! ### Graphic text -/

/-- The printable ASCII bytes without the space. -/
def Graphic (s : Bytes) : Prop := ∀ b ∈ s, 33 ≤ b ∧ b ≤ 126

instance (s : Bytes) : Decidable (Graphic s) := inferInstanceAs (Decidable (∀ b ∈ s, _))

theorem spaces_not_graphic : ∀ f ∈ spaces, ∀ b ∈ f, ¬ (33 ≤ b ∧ b ≤ 126) := by decide +kernel

/-- No space begins with a graphic byte. -/
theorem spaceWidth_graphic {forms : List Bytes} (hne : ∀ f ∈ forms, f ≠ [])
    (hforms : ∀ f ∈ forms, ∀ b ∈ f, ¬ (33 ≤ b ∧ b ≤ 126)) (hb : 33 ≤ b ∧ b ≤ 126) (s : Bytes) :
    spaceWidth forms (b :: s) = 0 := by
  refine (spaceWidth_eq_zero hne).mpr ?_
  intro f hf hpre
  obtain ⟨c, f', rfl⟩ := List.exists_cons_of_ne_nil (hne f hf)
  obtain ⟨rfl, -⟩ := List.cons_prefix_cons.mp hpre
  exact hforms _ hf c List.mem_cons_self hb

theorem trimSpace_graphic (h : Graphic s) : trimSpace s = s := by
  have hdrop : ∀ {forms : List Bytes}, (∀ f ∈ forms, f ≠ []) →
      (∀ f ∈ forms, ∀ b ∈ f, ¬ (33 ≤ b ∧ b ≤ 126)) → ∀ {s : Bytes}, Graphic s →
      dropSpaces forms 0 s = s := by
    intro forms hne hforms s hs
    cases s with
    | nil => rfl
    | cons b s =>
      exact dropSpaces_of_width (spaceWidth_graphic hne hforms (hs b List.mem_cons_self) s)
  have hback : ∀ f ∈ spaces.map List.reverse, ∀ b ∈ f, ¬ (33 ≤ b ∧ b ≤ 126) := by decide +kernel
  rw [trimSpace, hdrop spaces_ne_nil spaces_not_graphic h,
    hdrop reversed_spaces_ne_nil hback (fun b hb => h b (List.mem_reverse.mp hb)), List.reverse_reverse]

/-- Spaces in front of graphic text are trimmed away. -/
theorem trimSpace_padded (h : Graphic s) : ∀ n, trimSpace (List.replicate n 32 ++ s) = s
  | 0 => trimSpace_graphic h
  | n + 1 => by
    have hdrop : dropSpaces spaces 0 (32 :: (List.replicate n 32 ++ s)) =
        dropSpaces spaces 0 (List.replicate n 32 ++ s) := rfl
    rw [List.replicate_succ, List.cons_append, trimSpace, hdrop, ← trimSpace, trimSpace_padded h n]

theorem fieldsFrom_graphic (h : Graphic s) (field t : Bytes) :
    fieldsFrom 0 field (s ++ t) = fieldsFrom 0 (s.reverse ++ field) t := by
  induction s generalizing field with
  | nil => rfl
  | cons b s ih =>
    rw [List.cons_append, fieldsFrom,
      spaceWidth_graphic spaces_ne_nil spaces_not_graphic (h b List.mem_cons_self)]
    dsimp only
    rw [ih (fun x hx => h x (List.mem_cons_of_mem _ hx)), List.reverse_cons, List.append_assoc]
    rfl

theorem fieldsFrom_space {field : Bytes} (h : field ≠ []) (t : Bytes) :
    fieldsFrom 0 field (32 :: t) = field.reverse :: fieldsFrom 0 [] t := by
  have hwidth : spaceWidth spaces (32 :: t) = 1 := rfl
  rw [fieldsFrom, hwidth]
  exact if_neg h

/-! ### Headers -/

theorem utf8_crlf : utf8 "\r\n" = crlf := by decide +kernel

theorem utf8_blank : utf8 "\r\n\r\n" = blank := by decide +kernel

theorem utf8_colon : utf8 ":" = [58] := by decide +kernel

theorem utf8_host : utf8 "host" = [104, 111, 115, 116] := by decide +kernel

/-- The host after one more line. -/
def hostAfter (host line : Bytes) : Bytes :=
  match cut (utf8 ":") line with
  | some (k, v) => if toLower (trimSpace k) = utf8 "host" then trimSpace v else host
  | none => host

/-- A header line changes the host, the URL, the user agent and the headers kept, and nothing else. -/
theorem parseHeader_shape (path : Bytes) (pf : PacketFeature) (line : Bytes) :
    ∃ url agent headers, parseHeader path pf line = { pf with
        httpHost := hostAfter pf.httpHost line, httpURL := url, userAgent := agent
        httpHeaders := headers } := by
  rw [parseHeader, hostAfter]
  cases cut (utf8 ":") line with
  | none => exact ⟨_, _, _, rfl⟩
  | some kv =>
    dsimp only
    split_ifs <;> exact ⟨_, _, _, rfl⟩

theorem foldl_parseHeader_shape (path : Bytes) (lines : List Bytes) (pf : PacketFeature) :
    ∃ url agent headers, lines.foldl (parseHeader path) pf = { pf with
        httpHost := lines.foldl hostAfter pf.httpHost, httpURL := url, userAgent := agent
        httpHeaders := headers } := by
  induction lines generalizing pf with
  | nil => exact ⟨_, _, _, rfl⟩
  | cons line lines ih =>
    obtain ⟨url, agent, headers, hline⟩ := parseHeader_shape path pf line
    obtain ⟨url', agent', headers', hlines⟩ := ih (parseHeader path pf line)
    refine ⟨url', agent', headers', ?_⟩
    rw [List.foldl_cons, hlines, hline]
    rfl

/-- A field: name, colon, value. -/
def fieldLine (f : Bytes × Bytes) : Bytes := f.1 ++ 58 :: f.2

theorem hostAfter_fieldLine {f : Bytes × Bytes} (hname : Graphic f.1) (hcolon : 58 ∉ f.1)
    (host : Bytes) : hostAfter host (fieldLine f) =
      if toLower f.1 = utf8 "host" then trimSpace f.2 else host := by
  have hcut : cut (utf8 ":") (fieldLine f) = some f := by
    rw [utf8_colon]
    exact cut_at hcolon f.2
  rw [hostAfter, hcut]
  dsimp only
  rw [trimSpace_graphic hname]

theorem foldl_hostAfter {lines : List Bytes} {host : Bytes}
    (h : ∀ line ∈ lines, ∀ host, hostAfter host line = host) : lines.foldl hostAfter host = host := by
  induction lines generalizing host with
  | nil => rfl
  | cons line lines ih =>
    rw [List.foldl_cons, h line List.mem_cons_self, ih fun l hl => h l (List.mem_cons_of_mem _ hl)]

theorem cut_eq_some {sep : Bytes} : ∀ {s a b : Bytes}, cut sep s = some (a, b) → s = a ++ (sep ++ b)
  | [], a, b, h => by simp [cut] at h
  | c :: s, a, b, h => by
    rw [cut] at h
    split at h
    · rename_i hpre
      obtain ⟨rest, hrest⟩ := List.isPrefixOf_iff_prefix.mp hpre
      rw [← hrest, List.drop_left] at h
      obtain ⟨rfl, rfl⟩ := Prod.mk.inj (Option.some.inj h)
      exact hrest.symm
    · obtain ⟨⟨a', b'⟩, hcut, heq⟩ := Option.map_eq_some_iff.mp h
      obtain ⟨rfl, rfl⟩ := Prod.mk.inj heq
      rw [cut_eq_some hcut, List.cons_append]

/-- A lower-case letter that no other letter becomes comes from its ASCII letter. -/
theorem toLower_eq_cons {c : UInt8} (hk : c ≠ 107) (hi : c ≠ 105) (h : toLower s = c :: t) :
    ∃ b rest, s = b :: rest ∧ (if 65 ≤ b ∧ b ≤ 90 then b + 32 else b) = c ∧ toLower rest = t := by
  unfold toLower at h
  split at h
  · exact absurd (List.cons.inj h).1.symm hk
  · exact absurd (List.cons.inj h).1.symm hi
  · obtain ⟨hb, ht⟩ := List.cons.inj h
    exact ⟨_, _, rfl, hb, ht⟩
  · cases h

theorem methods_graphic : ∀ m ∈ httpMethods, Graphic m ∧ 58 ∉ m ∧ 2 ≤ m.length := by decide +kernel

/-- No method begins like the name of the host header, or like a response. -/
theorem methods_distinct : ∀ m ∈ httpMethods,
    ((m.take 2).map fun b => if 65 ≤ b ∧ b ≤ 90 then b + 32 else b) ≠ [104, 111] ∧
      m.take 2 ≠ [72, 84] := by
  decide +kernel

/-- Text that begins with a graphic byte is trimmed at its end only. -/
theorem trimSpace_prefix (hb : 33 ≤ b ∧ b ≤ 126) (s : Bytes) : trimSpace (b :: s) <+: b :: s := by
  have hfront : dropSpaces spaces 0 (b :: s) = b :: s :=
    dropSpaces_of_width (spaceWidth_graphic spaces_ne_nil spaces_not_graphic hb s)
  rw [← List.reverse_suffix, trimSpace, List.reverse_reverse, hfront]
  exact dropSpaces_suffix _ _ _

/-- The request line is not taken for the host header. -/
theorem hostAfter_requestLine {m : Bytes} (hm : m ∈ httpMethods) (rest host : Bytes) :
    hostAfter host (m ++ 32 :: rest) = host := by
  obtain ⟨hgraphic, hcolon, hlen⟩ := methods_graphic m hm
  rw [hostAfter]
  split
  · rename_i k v hcut
    rw [if_neg]
    intro hkey
    -- the key has the whole method in front, as the method has no colon
    have hline := cut_eq_some hcut
    rw [utf8_colon] at hline
    obtain ⟨more, rfl⟩ : m <+: k := by
      rcases List.append_eq_append_iff.mp hline with ⟨a, ha, -⟩ | ⟨a, ha, hrest⟩
      · exact ⟨a, ha.symm⟩
      · cases a with
        | nil => exact ⟨[], by rw [List.append_nil] at ha ⊢; exact ha⟩
        | cons c a =>
          obtain ⟨rfl, -⟩ := List.cons.inj hrest
          exact absurd (by rw [ha]; simp) hcolon
    obtain ⟨b, m', rfl⟩ := List.exists_cons_of_ne_nil (List.ne_nil_of_length_pos (by omega : 0 < m.length))
    have hpre := trimSpace_prefix (hgraphic b List.mem_cons_self) (m' ++ more)
    rw [List.cons_append, utf8_host] at hkey
    generalize trimSpace (b :: (m' ++ more)) = key at hkey hpre
    obtain ⟨x, key, rfl, hx, htail⟩ := toLower_eq_cons (by decide) (by decide) hkey
    obtain ⟨y, key, rfl, hy, -⟩ := toLower_eq_cons (by decide) (by decide) htail
    have htwo : (b :: m').take 2 = [x, y] := by
      obtain ⟨rfl, hnext⟩ := List.cons_prefix_cons.mp hpre
      cases m' with
      | nil => exact absurd hlen (by simp)
      | cons c m' =>
        rw [List.cons_append] at hnext
        obtain ⟨rfl, -⟩ := List.cons_prefix_cons.mp hnext
        rfl
    refine (methods_distinct _ hm).1 ?_
    rw [htwo, List.map_cons, List.map_cons, hx, hy]
    rfl
  · rfl

/-! ### Requests -/

/-- A request with one host header. -/
structure Request where
  method : Bytes
  target : Bytes
  version : Bytes
  /-- The fields in front of the host header and behind it, as name and value. -/
  ahead : List (Bytes × Bytes)
  behind : List (Bytes × Bytes)
  /-- The name of the host header, in any letter case, and the spaces behind its colon. -/
  hostName : Bytes
  pad : Nat
  host : Bytes
  body : Bytes
  method_known : method ∈ httpMethods
  target_graphic : Graphic target ∧ target ≠ []
  version_graphic : Graphic version
  hostName_eq : Graphic hostName ∧ 58 ∉ hostName ∧ toLower hostName = utf8 "host"
  host_graphic : Graphic host
  others : ∀ f ∈ ahead ++ behind,
    (Graphic f.1 ∧ 58 ∉ f.1 ∧ toLower f.1 ≠ utf8 "host") ∧ 13 ∉ f.2

namespace Request

def requestLine (r : Request) : Bytes := r.method ++ 32 :: (r.target ++ 32 :: r.version)

def lines (r : Request) : List Bytes :=
  r.requestLine :: (r.ahead.map fieldLine ++
    fieldLine (r.hostName, List.replicate r.pad 32 ++ r.host) :: r.behind.map fieldLine)

def bytes (r : Request) : Bytes := crlf.intercalate r.lines ++ (blank ++ r.body)

variable (r : Request)

theorem notMem_cr (h : Graphic s) : 13 ∉ s := by
  intro hmem
  exact absurd (h 13 hmem) (by decide)

theorem lines_ok : ∀ l ∈ r.lines, 13 ∉ l ∧ l ≠ [] := by
  have hfield : ∀ f : Bytes × Bytes, Graphic f.1 → 13 ∉ f.2 → 13 ∉ fieldLine f ∧ fieldLine f ≠ [] := by
    intro f hname hvalue
    refine ⟨?_, by simp [fieldLine]⟩
    rw [fieldLine, List.mem_append, List.mem_cons, not_or, not_or]
    exact ⟨notMem_cr hname, by decide, hvalue⟩
  have hothers : ∀ f ∈ r.ahead ++ r.behind, 13 ∉ fieldLine f ∧ fieldLine f ≠ [] := fun f hf =>
    hfield f (r.others f hf).1.1 (r.others f hf).2
  intro l hl
  rw [lines, List.mem_cons, List.mem_append, List.mem_cons, List.mem_map, List.mem_map] at hl
  rcases hl with rfl | ⟨f, hf, rfl⟩ | rfl | ⟨f, hf, rfl⟩
  · refine ⟨?_, by simp [requestLine]⟩
    simp only [requestLine, List.mem_append, List.mem_cons, not_or]
    exact ⟨notMem_cr (methods_graphic _ r.method_known).1, by decide, notMem_cr r.target_graphic.1,
      by decide, notMem_cr r.version_graphic⟩
  · exact hothers f (List.mem_append_left _ hf)
  · refine hfield _ r.hostName_eq.1 ?_
    rw [List.mem_append, not_or]
    exact ⟨fun h => absurd (List.eq_of_mem_replicate h) (by decide), notMem_cr r.host_graphic⟩
  · exact hothers f (List.mem_append_right _ hf)

theorem httpRequestLine_bytes : httpRequestLine r.bytes = some (r.method, r.target) := by
  obtain ⟨hmethod, -, hlen⟩ := methods_graphic _ r.method_known
  have hmethod_ne : r.method ≠ [] := List.ne_nil_of_length_pos (by omega)
  have hcut : ∃ rest, cut (utf8 "\r\n") r.bytes = some (r.requestLine, rest) := by
    obtain ⟨more, hmore⟩ : ∃ more, r.bytes = r.requestLine ++ (crlf ++ more) := by
      refine ⟨crlf.intercalate (r.ahead.map fieldLine ++
        fieldLine (r.hostName, List.replicate r.pad 32 ++ r.host) :: r.behind.map fieldLine) ++
          (blank ++ r.body), ?_⟩
      rw [bytes, lines, List.intercalate_cons_of_ne_nil (by simp)]
      simp only [List.append_assoc]
    rw [utf8_crlf, hmore]
    exact ⟨more, cut_at (r.lines_ok _ List.mem_cons_self).1 more⟩
  obtain ⟨rest, hrest⟩ := hcut
  have hfields : ∃ more, fields r.requestLine = r.method :: r.target :: more := by
    rw [fields, requestLine, fieldsFrom_graphic hmethod, List.append_nil,
      fieldsFrom_space (by simpa using hmethod_ne), List.reverse_reverse,
      fieldsFrom_graphic r.target_graphic.1, List.append_nil,
      fieldsFrom_space (by simpa using r.target_graphic.2), List.reverse_reverse]
    exact ⟨_, rfl⟩
  obtain ⟨more, hmore⟩ := hfields
  rw [httpRequestLine, before, hrest]
  dsimp only
  rw [hmore]
  exact if_pos r.method_known

theorem not_response : ¬ utf8 "HTTP/" <+: r.bytes := by
  intro h
  obtain ⟨-, -, hlen⟩ := methods_graphic _ r.method_known
  obtain ⟨more, hmore⟩ := intercalate_cons_eq crlf r.requestLine
    (r.ahead.map fieldLine ++ fieldLine (r.hostName, List.replicate r.pad 32 ++ r.host) ::
      r.behind.map fieldLine)
  refine (methods_distinct _ r.method_known).2 ?_
  obtain ⟨rest, hrest⟩ := h
  have htake := congrArg (List.take 2) hrest
  rw [bytes, lines, hmore, requestLine, List.append_assoc, List.append_assoc,
    List.take_append_of_le_length hlen] at htake
  rw [← htake]
  rfl

/-- The host of a request is read as it was written; what the parser knows from elsewhere stays. -/
theorem parseHTTP_host (pf : PacketFeature) :
    ∃ pf', parseHTTP { pf with payload := r.bytes } = .ok pf' ∧ pf'.httpHost = r.host ∧
      pf'.srcIP = pf.srcIP ∧ pf'.dstIP = pf.dstIP ∧ pf'.dnsQuery = pf.dnsQuery ∧
      pf'.dnsAnswers = pf.dnsAnswers ∧ pf'.sni = pf.sni := by
  have hne : r.bytes ≠ [] := by simp [bytes]
  have hhead : (cut (utf8 "\r\n\r\n") r.bytes).getD (r.bytes, []) =
      (crlf.intercalate r.lines, r.body) := by
    rw [utf8_blank, bytes, cut_head r.body r.lines_ok (List.cons_ne_nil _ _)]
    rfl
  have hlines : split (utf8 "\r\n") (crlf.intercalate r.lines) = r.lines := by
    rw [utf8_crlf]
    exact split_intercalate (fun l hl => (r.lines_ok l hl).1) (List.cons_ne_nil _ _)
  have hother : ∀ fs : List (Bytes × Bytes), (∀ f ∈ fs, f ∈ r.ahead ++ r.behind) →
      ∀ line ∈ fs.map fieldLine, ∀ host, hostAfter host line = host := by
    intro fs hfs line hline host
    obtain ⟨f, hf, rfl⟩ := List.mem_map.mp hline
    obtain ⟨⟨hname, hcolon, hkey⟩, -⟩ := r.others f (hfs f hf)
    rw [hostAfter_fieldLine hname hcolon, if_neg hkey]
  have hhost : ∀ host, r.lines.foldl hostAfter host = r.host := by
    intro host
    rw [lines, List.foldl_cons, requestLine, hostAfter_requestLine r.method_known, List.foldl_append,
      foldl_hostAfter (hother r.ahead fun f hf => List.mem_append_left _ hf), List.foldl_cons,
      hostAfter_fieldLine r.hostName_eq.1 r.hostName_eq.2.1, if_pos r.hostName_eq.2.2,
      trimSpace_padded r.host_graphic,
      foldl_hostAfter (hother r.behind fun f hf => List.mem_append_right _ hf)]
  rw [parseHTTP, if_neg hne, if_neg (by rw [List.isPrefixOf_iff_prefix]; exact r.not_response),
    httpRequestLine_bytes]
  dsimp only
  rw [hhead]
  dsimp only
  rw [hlines]
  obtain ⟨url, agent, headers, hfold⟩ := foldl_parseHeader_shape r.target r.lines { pf with
      payload := r.bytes, messageDirection := .request, httpMethod := r.method, httpURL := r.target
      httpHeader := crlf.intercalate r.lines, httpBody := r.body
      httpBodySample := if r.body = [] then [] else samplePayload r.body }
  refine ⟨_, congrArg Except.ok hfold, ?_, rfl, rfl, rfl, rfl, rfl⟩
  exact hhost _

end Request

end TaNode

import TaNode.Intel.Matcher
import TaNode.Parser.Request

/-! Domain indicators and the host header of a request.

    The parser hands the header value on as it was written, and the matcher compares names: it puts
    both sides into lower case, drops one final dot, and asks whether the one ends in the other at a
    label. A port behind the name belongs to the value, so nothing takes it off:

        Host: www.evil.example          www.evil.example        ends in .evil.example
        Host: www.evil.example:8080     www.evil.example:8080   ends in nothing of the sort -/

namespace TaNode.Intel

/-- `strings.ToLower` maps ASCII text letter by letter. -/
def Lib.LowersASCII (lib : Lib) : Prop :=
  ∀ s : Bytes, (∀ b ∈ s, b < 128) → lib.toLower s = s.map lowerByte

variable {lib : Lib}

/-- The name is the domain or lies below it, in any letter case and with or without a final dot. -/
def Under (lib : Lib) (domain name : Bytes) : Prop :=
  trimDot (lib.toLower domain) ≠ [] ∧
    (trimDot (lib.toLower name) = trimDot (lib.toLower domain) ∨
      46 :: trimDot (lib.toLower domain) <:+ trimDot (lib.toLower name))

/-- The value of a host header: a name, and a port if there is one. -/
structure HostHeader where
  name : Bytes
  port : Option Bytes
  name_ok : Graphic name ∧ 58 ∉ name
  port_digits : ∀ p ∈ port, ∀ b ∈ p, 48 ≤ b ∧ b ≤ 57

def HostHeader.text (x : HostHeader) : Bytes :=
  match x.port with
  | some p => x.name ++ 58 :: p
  | none => x.name

/-! ### Ports -/

theorem suffix_of_notMem {c : UInt8} {s a p : Bytes} (h : s <:+ a ++ c :: p) (hc : c ∉ s) :
    s <:+ p := by
  obtain ⟨t, ht⟩ := h
  rcases List.append_eq_append_iff.mp ht with ⟨u, -, rfl⟩ | ⟨u, -, hu⟩
  · exact absurd (List.mem_append_right _ List.mem_cons_self) hc
  · rcases List.suffix_cons_iff.mp ⟨u, hu.symm⟩ with rfl | hs
    · exact absurd List.mem_cons_self hc
    · exact hs

theorem mem_of_mem_trimDot {s : Bytes} {b : UInt8} (h : b ∈ trimDot s) : b ∈ s := by
  rw [trimDot] at h
  split at h
  · exact List.dropLast_subset s h
  · exact h

theorem graphic_ascii {s : Bytes} (h : Graphic s) : ∀ b ∈ s, b < 128 := by
  intro b hb
  exact UInt8.lt_of_le_of_lt (h b hb).2 (by decide)

/-- Where the name is under a domain, the name with a port is not. -/
theorem not_under_port (hlower : lib.LowersASCII) {domain name p : Bytes}
    (hname : Graphic name ∧ 58 ∉ name) (hp : ∀ b ∈ p, 48 ≤ b ∧ b ≤ 57)
    (h : Under lib domain name) : ¬ Under lib domain (name ++ 58 :: p) := by
  obtain ⟨hne, hunder⟩ := h
  have hdigit : p.map lowerByte = p := by
    refine (List.map_congr_left fun b hb => ?_).trans (List.map_id p)
    have hdigit := hp b hb
    refine if_neg ?_
    simp only [UInt8.le_iff_toNat_le, UInt8.reduceToNat] at hdigit ⊢
    omega
  have htext : lib.toLower (name ++ 58 :: p) = name.map lowerByte ++ 58 :: p := by
    rw [hlower, List.map_append, List.map_cons, hdigit]
    · rfl
    · intro b hb
      rcases List.mem_append.mp hb with hb | hb
      · exact graphic_ascii hname.1 b hb
      · rcases List.mem_cons.mp hb with rfl | hb
        · decide
        · exact UInt8.lt_of_le_of_lt (hp b hb).2 (by decide)
  have hlast : trimDot (name.map lowerByte ++ 58 :: p) = name.map lowerByte ++ 58 :: p := by
    rw [trimDot, if_neg]
    intro hdot
    have hmem : (46 : UInt8) ∈ (58 :: p) := by
      rw [List.getLast?_append_of_ne_nil _ (List.cons_ne_nil _ _)] at hdot
      exact List.mem_of_getLast? hdot
    rcases List.mem_cons.mp hmem with hmem | hmem
    · exact absurd hmem (by decide)
    · exact absurd (hp 46 hmem) (by decide)
  -- the domain is made of bytes of the name, and none of them is a colon
  have hcolon : (58 : UInt8) ∉ trimDot (lib.toLower domain) := by
    intro hmem
    have hin : (58 : UInt8) ∈ lib.toLower name := by
      refine mem_of_mem_trimDot ?_
      rcases hunder with heq | hsuffix
      · rwa [heq]
      · exact hsuffix.subset (List.mem_cons_of_mem _ hmem)
    rw [hlower name (graphic_ascii hname.1)] at hin
    obtain ⟨b, hb, heq⟩ := List.mem_map.mp hin
    rw [lowerByte_eq_iff (.inl (by decide))] at heq
    exact hname.2 (heq ▸ hb)
  rintro ⟨-, hport⟩
  rw [htext, hlast] at hport
  rcases hport with heq | hsuffix
  · exact hcolon (heq ▸ List.mem_append_right _ List.mem_cons_self)
  · have hdot := suffix_of_notMem hsuffix (by
      rw [List.mem_cons, not_or]
      exact ⟨by decide, hcolon⟩)
    exact absurd (hp 46 (hdot.subset List.mem_cons_self)) (by decide)

theorem HostHeader.text_graphic (x : HostHeader) : Graphic x.text := by
  intro b hb
  rw [HostHeader.text] at hb
  split at hb
  · rename_i p hport
    rcases List.mem_append.mp hb with hb | hb
    · exact x.name_ok.1 b hb
    · rcases List.mem_cons.mp hb with rfl | hb
      · decide
      · have := x.port_digits p hport b hb
        simp only [UInt8.le_iff_toNat_le, UInt8.reduceToNat] at this ⊢
        omega
  · exact x.name_ok.1 b hb

/-! ### Hits -/

theorem covers_iff_under {it : Item lib} {name : Bytes} (hname : Graphic name) :
    Covers lib it.1 name ↔ Under lib it.1.value name := by
  rw [Covers, Under, canonicalDomain, it.2.value, canonicalDomain, trimSpace_graphic hname,
    eq_comm (a := trimDot (lib.toLower name))]
  rfl

theorem not_covers_nil (hlower : lib.LowersASCII) {it : ThreatIntel} : ¬ Covers lib it [] := by
  have hnil : canonicalDomain lib [] = [] := by
    have htrim : trimSpace [] = [] := rfl
    rw [canonicalDomain, htrim, hlower [] (by simp)]
    rfl
  rintro ⟨hne, heq | hsuffix⟩
  · exact hne (heq.trans hnil)
  · rw [hnil, List.suffix_nil] at hsuffix
    exact hne (List.append_eq_nil_iff.mp hsuffix).2

/-- A packet whose only name is its host hits the domains the host text is under. -/
theorem domain_hit_iff (hlower : lib.LowersASCII) {items : Items lib} {listing : Visit (Item lib)}
    {orders : Nat → Visit (Bytes × List (Item lib))} {now : Int} {it : Item lib} (hit : it ∈ items)
    (htype : it.1.type = utf8 "domain") (hactive : active it.1 now = true) {pf : PacketFeature}
    (hnames : pf.dnsQuery = [] ∧ pf.dnsAnswers = [] ∧ pf.sni = []) (hhost : Graphic pf.httpHost) :
    it ∈ matchPacket lib orders now (buildIndex lib (listing.visit items.list)) pf ↔
      Under lib it.1.value pf.httpHost := by
  have hkinds := kinds_distinct
  rw [(matchPacket_exact items listing orders now pf).2, ← covers_iff_under hhost, Matches, htype]
  obtain ⟨henabled, hexpire⟩ := active_iff.mp hactive
  have hnil := @not_covers_nil lib hlower it.1
  simp only [HasName, hnames.1, hnames.2.1, hnames.2.2]
  constructor
  · rintro ⟨-, -, -, hip | hcidr | ⟨-, name, hname, hcov⟩ | hurl⟩
    · simp_all
    · simp_all
    · simp only [List.mem_cons, List.not_mem_nil, or_false, false_and] at hname
      rcases hname with rfl | rfl | rfl
      · exact absurd hcov hnil
      · exact hcov
      · exact absurd hcov hnil
    · simp_all
  · intro hcov
    exact ⟨hit, henabled, hexpire, .inr (.inr (.inl ⟨trivial, _, .inl (by simp), hcov⟩))⟩

/-- A request hits a domain indicator exactly for the hosts under the domain, if the header has no port,
    or if neither the host nor the whole header text is under the domain. -/
theorem host_hit_iff (hlower : lib.LowersASCII) (items : Items lib) (listing : Visit (Item lib))
    (orders : Nat → Visit (Bytes × List (Item lib))) (now : Int) {it : Item lib} (hit : it ∈ items)
    (htype : it.1.type = utf8 "domain") (hactive : active it.1 now = true) (r : Request)
    (x : HostHeader) (hx : r.host = x.text) (pf : PacketFeature)
    (hnames : pf.dnsQuery = [] ∧ pf.dnsAnswers = [] ∧ pf.sni = []) :
    (∃ pf', parseHTTP { pf with payload := r.bytes } = .ok pf' ∧
      (it ∈ matchPacket lib orders now (buildIndex lib (listing.visit items.list)) pf' ↔
        Under lib it.1.value x.name)) ↔
    x.port = none ∨ ¬ Under lib it.1.value x.name ∧ ¬ Under lib it.1.value x.text := by
  obtain ⟨pf', hpf', hhost, -, -, hquery, hanswers, hsni⟩ := r.parseHTTP_host pf
  have hmatch := @domain_hit_iff lib hlower items listing orders now it hit htype hactive pf'
    ⟨hquery.trans hnames.1, hanswers.trans hnames.2.1, hsni.trans hnames.2.2⟩
    (by rw [hhost, hx]; exact x.text_graphic)
  rw [hhost, hx] at hmatch
  rw [hpf']
  simp only [Except.ok.injEq, exists_eq_left', hmatch]
  cases hport : x.port with
  | none =>
    have htext : x.text = x.name := by rw [HostHeader.text, hport]
    rw [htext]
    simp
  | some p =>
    have htext : x.text = x.name ++ 58 :: p := by rw [HostHeader.text, hport]
    have hnot := @not_under_port lib hlower it.1.value x.name p x.name_ok (x.port_digits p hport)
    rw [htext]
    simp only [reduceCtorEq, false_or]
    tauto

/-- A store with the domain "evil.example". -/
def evilStore : Items sampleLib :=
  sync sampleLib 1 (fun _ => [])
    [{ id := utf8 "e", type := utf8 "domain", value := utf8 "evil.example", enabled := true }]

/-- A request for "/" with this host. -/
def getRequest (host : Bytes) (h : Graphic host) : Request where
  method := utf8 "GET"
  target := utf8 "/"
  version := utf8 "HTTP/1.1"
  ahead := []
  behind := []
  hostName := utf8 "Host"
  pad := 1
  host := host
  body := []
  method_known := by decide +kernel
  target_graphic := by decide +kernel
  version_graphic := by decide +kernel
  hostName_eq := by decide +kernel
  host_graphic := h
  others := by simp

theorem sampleLib_lowersASCII : sampleLib.LowersASCII := fun _ _ => rfl

def wwwEvil : HostHeader where
  name := utf8 "WWW.Evil.example."
  port := none
  name_ok := by decide +kernel
  port_digits := by simp

/-- Without a port the host is found, in any letter case and with a final dot. -/
theorem host_hit_iff_www : ∃ it ∈ evilStore, ∃ pf',
    parseHTTP { payload := (getRequest wwwEvil.text wwwEvil.text_graphic).bytes } = .ok pf' ∧
      (it ∈ matchPacket sampleLib (fun _ => .listed) 5
          (buildIndex sampleLib (Visit.listed.visit evilStore.list)) pf' ↔
        Under sampleLib it.1.value wwwEvil.name) := by
  obtain ⟨it, hit⟩ : ∃ it, it ∈ evilStore.list := List.exists_mem_of_ne_nil _ (by decide +kernel)
  have hall : ∀ it ∈ evilStore.list, it.1.type = utf8 "domain" ∧ active it.1 5 = true := by
    decide +kernel
  exact ⟨it, hit, (host_hit_iff sampleLib_lowersASCII evilStore .listed (fun _ => .listed) 5 hit
    (hall it hit).1 (hall it hit).2 (getRequest wwwEvil.text wwwEvil.text_graphic) wwwEvil rfl {}
    ⟨rfl, rfl, rfl⟩).mpr (.inl rfl)⟩

/-- On port 8080 the same domain is missed. -/
theorem host_with_port_missed :
    (parseHTTP { payload := (getRequest (utf8 "evil.example:8080") (by decide +kernel)).bytes }).toOption.map
        (fun pf => (pf.httpHost, (matchPacket sampleLib (fun _ => .listed) 5
          (buildIndex sampleLib evilStore.list) pf).length)) =
      some (utf8 "evil.example:8080", 0) ∧
    (parseHTTP { payload := (getRequest (utf8 "evil.example") (by decide +kernel)).bytes }).toOption.map
        (fun pf => (pf.httpHost, (matchPacket sampleLib (fun _ => .listed) 5
          (buildIndex sampleLib evilStore.list) pf).length)) =
      some (utf8 "evil.example", 1) := by
  decide +kernel

end TaNode.Intel

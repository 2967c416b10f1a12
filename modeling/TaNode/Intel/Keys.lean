import TaNode.Intel.Network

/-! Whether two indicators have one canonical key exactly if they match the same packets.

    The key is meant to mirror the index. For each type, the two forms next to each other:

                 key                         index
        ip       text of the address         text of the address, loopback and zero never looked up
        cidr     value in lower case         the network
        domain   canonical name              canonical name
        url      value in lower case         value in lower case

    Names and URLs agree: the packet that carries the one value is matched by the other only if one
    contains the other, and both ways round that makes them equal. Networks have no form of their own
    in the key, so a network written in two ways has two keys, and so have two networks that differ in
    nothing but addresses that are never looked up. -/

namespace TaNode.Intel
variable {lib : Lib}

/-- What `net` documents beyond `Lib`: an empty text is no address, and the hexadecimal digits of a
    network may be written in either case. -/
structure Lib.NetTexts (lib : Lib) : Prop where
  parseIP_nil : lib.parseIP [] = none
  parseCIDR_toLower : ∀ s, lib.parseCIDR (lib.toLower s) = lib.parseCIDR s

/-- The matcher has a place for the indicator. -/
def Indexes (lib : Lib) (it : ThreatIntel) : Prop :=
  (ipKey lib it).isSome ∨ (cidrKey lib it).isSome ∨ (domainKey lib it).isSome ∨ (urlKey lib it).isSome

/-- The indicator is handed to `addHit` for a packet, by an index that holds nothing else. -/
def Offers (it : Item lib) (pf : PacketFeature) : Prop :=
  ∀ orders, it ∈ offered lib orders (buildIndex lib [it]) pf

def SamePackets (x y : Item lib) : Prop := ∀ pf, Offers x pf ↔ Offers y pf

/-- Loopback and unspecified addresses are never looked up. -/
def Silent (lib : Lib) (a : lib.Addr) : Prop := lib.isLoopback a = true ∨ lib.isUnspecified a = true

/-- Not two addresses that are never looked up, and not two texts of networks with the same first and
    last address among those that are. -/
structure Told {lower : Lower} (x y : Item (netLib lower)) : Prop where
  ip : x.1.type = utf8 "ip" → ∀ a b, NetAddr.parse x.1.value = some a →
    NetAddr.parse y.1.value = some b → a.Silent → b.Silent → a = b
  cidr : x.1.type = utf8 "cidr" → ∀ m n, parseCIDR x.1.value = some m → parseCIDR y.1.value = some n →
    lower.toLower x.1.value = lower.toLower y.1.value ∨ m.span ≠ n.span

/-! ### What each type matches -/

theorem offers_iff {it : Item lib} {pf : PacketFeature} : Offers it pf ↔ Matches lib pf it.1 := by
  have hmem : ∀ orders, it ∈ offered lib orders (buildIndex lib [it]) pf ↔ Matches lib pf it.1 := by
    intro orders
    rw [mem_offered (indexed_buildIndex _)]
    simp
  exact ⟨fun h => (hmem fun _ => .listed).mp (h _), fun h orders => (hmem orders).mpr h⟩

theorem kinds_ne : utf8 "ip" ≠ utf8 "cidr" ∧ utf8 "ip" ≠ utf8 "domain" ∧ utf8 "ip" ≠ utf8 "url" ∧
    utf8 "cidr" ≠ utf8 "domain" ∧ utf8 "cidr" ≠ utf8 "url" ∧ utf8 "domain" ≠ utf8 "url" := by
  decide +kernel

section
variable {it : ThreatIntel} {pf : PacketFeature}

theorem matches_ip (h : it.type = utf8 "ip") : Matches lib pf it ↔
    ∃ a, lib.parseIP it.value = some a ∧ HasAddress lib pf a := by
  have hkinds := kinds_ne
  rw [Matches, h]
  grind

theorem matches_cidr (h : it.type = utf8 "cidr") : Matches lib pf it ↔
    ∃ network a, lib.parseCIDR it.value = some network ∧ HasAddress lib pf a ∧
      lib.contains network a = true := by
  have hkinds := kinds_ne
  rw [Matches, h]
  grind

theorem matches_domain (h : it.type = utf8 "domain") : Matches lib pf it ↔
    ∃ name, HasName lib pf name ∧ Covers lib it name := by
  have hkinds := kinds_ne
  rw [Matches, h]
  grind

theorem matches_url (h : it.type = utf8 "url") : Matches lib pf it ↔
    lib.toLower it.value ≠ [] ∧ pf.httpURL ≠ [] ∧
      lib.toLower it.value <:+: lib.toLower pf.httpURL := by
  have hkinds := kinds_ne
  rw [Matches, h]
  grind

end

/-! ### What each type is keyed by -/

variable {a b : lib.Addr}

section
variable {x y : Item lib}

theorem key_eq_iff (htype : x.1.type = y.1.type) : canonicalKey lib x.1 = canonicalKey lib y.1 ↔
    canonicalValue lib x.1.type x.1.value = canonicalValue lib y.1.type y.1.value := by
  rw [canonicalKey, canonicalKey, htype, List.append_right_inj]

theorem canonicalValue_ip (h : x.1.type = utf8 "ip") (ha : lib.parseIP x.1.value = some a) :
    canonicalValue lib x.1.type x.1.value = lib.ipString a := by
  have hip : canonicalIP lib x.1.value = lib.ipString a := canonicalIP_of_parse ha
  rw [canonicalValue, x.2.type.2, x.2.type.1, if_pos h, hip, if_pos (lib.ipString_ne_nil a)]

theorem canonicalValue_domain (h : x.1.type = utf8 "domain") :
    canonicalValue lib x.1.type x.1.value = canonicalDomain lib x.1.value := by
  have hip : x.1.type ≠ utf8 "ip" := by
    rw [h]
    exact kinds_ne.2.1.symm
  rw [canonicalValue, x.2.type.2, x.2.type.1, if_neg hip, if_pos h]

theorem canonicalValue_other (hip : x.1.type ≠ utf8 "ip") (hdomain : x.1.type ≠ utf8 "domain") :
    canonicalValue lib x.1.type x.1.value = lib.toLower x.1.value := by
  rw [canonicalValue, x.2.type.2, x.2.type.1, if_neg hip, if_neg hdomain, x.2.value]

/-! ### Packets that tell indicators apart -/

/-- A packet with one address. -/
theorem hasAddress_answer (hnet : lib.NetTexts) {text : Bytes} (ha : lib.parseIP text = some a) :
    HasAddress lib { dnsAnswers := [text] } b ↔ b = a ∧ ¬ Silent lib a := by
  have hempty : utf8 "" = [] := rfl
  rw [HasAddress, hempty, Silent]
  constructor
  · rintro ⟨ip, hip, hparse, hloop, hunspec⟩
    simp only [List.cons_append, List.nil_append, List.mem_cons, List.not_mem_nil, or_false,
      or_self_left] at hip
    rcases hip with rfl | rfl
    · rw [hnet.parseIP_nil] at hparse
      cases hparse
    · obtain rfl : a = b := Option.some.inj (ha.symm.trans hparse)
      exact ⟨rfl, by simp [hloop, hunspec]⟩
  · rintro ⟨rfl, hsilent⟩
    simp only [not_or, Bool.not_eq_true] at hsilent
    exact ⟨text, by simp, ha, hsilent.1, hsilent.2⟩

theorem not_silent_of_hasAddress {pf : PacketFeature} (h : HasAddress lib pf a) :
    ¬ Silent lib a := by
  obtain ⟨_, _, _, hloop, hunspec⟩ := h
  simp [Silent, hloop, hunspec]

theorem samePackets_ip (hnet : lib.NetTexts) (hx : x.1.type = utf8 "ip") (hy : y.1.type = utf8 "ip")
    (ha : lib.parseIP x.1.value = some a) (hb : lib.parseIP y.1.value = some b) :
    SamePackets x y ↔ a = b ∨ Silent lib a ∧ Silent lib b := by
  have hmatch : ∀ pf, (Offers x pf ↔ HasAddress lib pf a) ∧ (Offers y pf ↔ HasAddress lib pf b) := by
    intro pf
    rw [offers_iff, offers_iff, matches_ip hx, matches_ip hy, ha, hb]
    simp
  constructor
  · intro h
    by_contra hnot
    obtain ⟨hne, hsilent⟩ := not_or.mp hnot
    rcases not_and_or.mp hsilent with hloud | hloud
    · have hpacket := (h { dnsAnswers := [x.1.value] }).mp
        ((hmatch _).1.mpr ((hasAddress_answer hnet ha).mpr ⟨rfl, hloud⟩))
      exact hne ((hasAddress_answer hnet ha).mp ((hmatch _).2.mp hpacket)).1.symm
    · have hpacket := (h { dnsAnswers := [y.1.value] }).mpr
        ((hmatch _).2.mpr ((hasAddress_answer hnet hb).mpr ⟨rfl, hloud⟩))
      exact hne ((hasAddress_answer hnet hb).mp ((hmatch _).1.mp hpacket)).1
  · rintro (rfl | ⟨hsa, hsb⟩) pf
    · rw [(hmatch pf).1, (hmatch pf).2]
    · rw [(hmatch pf).1, (hmatch pf).2]
      exact ⟨fun h => absurd hsa (not_silent_of_hasAddress h),
        fun h => absurd hsb (not_silent_of_hasAddress h)⟩

theorem samePackets_cidr (hnet : lib.NetTexts) {m n : lib.Network} (hx : x.1.type = utf8 "cidr")
    (hy : y.1.type = utf8 "cidr") (hm : lib.parseCIDR x.1.value = some m)
    (hn : lib.parseCIDR y.1.value = some n) :
    SamePackets x y ↔ ∀ text a, lib.parseIP text = some a → ¬ Silent lib a →
      lib.contains m a = lib.contains n a := by
  have hmatch : ∀ pf, (Offers x pf ↔ ∃ a, HasAddress lib pf a ∧ lib.contains m a = true) ∧
      (Offers y pf ↔ ∃ a, HasAddress lib pf a ∧ lib.contains n a = true) := by
    intro pf
    rw [offers_iff, offers_iff, matches_cidr hx, matches_cidr hy, hm, hn]
    simp
  constructor
  · intro h text a ha hloud
    have hpacket := h { dnsAnswers := [text] }
    rw [(hmatch _).1, (hmatch _).2] at hpacket
    simp only [hasAddress_answer hnet ha, hloud, not_false_eq_true, and_true, exists_eq_left] at hpacket
    exact Bool.eq_iff_iff.mpr hpacket
  · intro h pf
    rw [(hmatch pf).1, (hmatch pf).2]
    refine exists_congr fun a => and_congr_right fun ha => ?_
    obtain ⟨text, -, hparse, -⟩ := id ha
    rw [h text a hparse (not_silent_of_hasAddress ha)]

/-- A packet with one name. -/
theorem hasName_only {v name : Bytes} :
    HasName lib { dnsQuery := v, httpHost := v, sni := v } name ↔ name = v := by
  simp [HasName]

theorem samePackets_domain (hx : x.1.type = utf8 "domain") (hy : y.1.type = utf8 "domain")
    (hdx : canonicalDomain lib x.1.value ≠ []) (hdy : canonicalDomain lib y.1.value ≠ []) :
    SamePackets x y ↔ canonicalDomain lib x.1.value = canonicalDomain lib y.1.value := by
  have hmatch : ∀ v, (Offers x { dnsQuery := v, httpHost := v, sni := v } ↔ Covers lib x.1 v) ∧
      (Offers y { dnsQuery := v, httpHost := v, sni := v } ↔ Covers lib y.1 v) := by
    intro v
    simp only [offers_iff, matches_domain hx, matches_domain hy, hasName_only, exists_eq_left,
      and_self]
  constructor
  · intro h
    have hxy := (hmatch _).2.mp ((h _).mp ((hmatch x.1.value).1.mpr ⟨hdx, .inl rfl⟩))
    have hyx := (hmatch _).1.mp ((h _).mpr ((hmatch y.1.value).2.mpr ⟨hdy, .inl rfl⟩))
    rcases hxy.2 with heq | hsuffix
    · exact heq.symm
    · rcases hyx.2 with heq | hsuffix'
      · exact heq
      · -- each would be longer than the other
        have hlen := hsuffix.length_le
        have hlen' := hsuffix'.length_le
        rw [List.length_append] at hlen hlen'
        have hdot : (utf8 ".").length = 1 := by decide +kernel
        omega
  · intro heq pf
    rw [offers_iff, offers_iff, matches_domain hx, matches_domain hy]
    refine exists_congr fun name => and_congr_right fun _ => ?_
    rw [Covers, Covers, heq]

theorem samePackets_url (hx : x.1.type = utf8 "url") (hy : y.1.type = utf8 "url")
    (hux : lib.toLower x.1.value ≠ []) (huy : lib.toLower y.1.value ≠ []) :
    SamePackets x y ↔ lib.toLower x.1.value = lib.toLower y.1.value := by
  constructor
  · intro h
    have hself : ∀ {z : Item lib}, z.1.type = utf8 "url" → lib.toLower z.1.value ≠ [] →
        Offers z { httpURL := lib.toLower z.1.value } := by
      intro z hz hne
      rw [offers_iff, matches_url hz, lib.toLower_toLower]
      exact ⟨hne, hne, List.infix_rfl⟩
    have hxy := (h _).mp (hself hx hux)
    have hyx := (h _).mpr (hself hy huy)
    rw [offers_iff, matches_url hy, lib.toLower_toLower] at hxy
    rw [offers_iff, matches_url hx, lib.toLower_toLower] at hyx
    exact hyx.2.2.eq_of_length_le hxy.2.2.length_le
  · intro heq pf
    rw [offers_iff, offers_iff, matches_url hx, matches_url hy, heq]

end

/-! ### The keys -/

/-- What the matcher indexes, type by type. -/
theorem indexes_iff {x : Item lib} : Indexes lib x.1 ↔
    (x.1.type = utf8 "ip" ∧ ∃ a, lib.parseIP x.1.value = some a) ∨
    (x.1.type = utf8 "cidr" ∧ ∃ n, lib.parseCIDR x.1.value = some n) ∨
    (x.1.type = utf8 "domain" ∧ canonicalDomain lib x.1.value ≠ []) ∨
    (x.1.type = utf8 "url" ∧ lib.toLower x.1.value ≠ []) := by
  have hip : (ipKey lib x.1).isSome ↔ x.1.type = utf8 "ip" ∧ ∃ a, lib.parseIP x.1.value = some a := by
    rw [ipKey, canonicalIP, x.2.value]
    cases hparse : lib.parseIP x.1.value with
    | none => simp
    | some a => simp [lib.ipString_ne_nil a]
  have hcidr : (cidrKey lib x.1).isSome ↔
      x.1.type = utf8 "cidr" ∧ ∃ n, lib.parseCIDR x.1.value = some n := by
    rw [cidrKey]
    split_ifs with h
    · simp [h, Option.isSome_iff_exists]
    · simp [h]
  have hdomain : (domainKey lib x.1).isSome ↔
      x.1.type = utf8 "domain" ∧ canonicalDomain lib x.1.value ≠ [] := by
    rw [domainKey]
    split_ifs with h
    · simp [h]
    · simpa using h
  have hurl : (urlKey lib x.1).isSome ↔ x.1.type = utf8 "url" ∧ lib.toLower x.1.value ≠ [] := by
    rw [urlKey]
    split_ifs with h
    · simp [h]
    · simpa using h
  rw [Indexes, hip, hcidr, hdomain, hurl]

section
variable {lower : Lower} {x y : Item (netLib lower)}

theorem netTexts_netLib (lower : Lower) : (netLib lower).NetTexts where
  parseIP_nil := by
    have hnil : NetAddr.parse [] = none := by decide +kernel
    exact hnil
  parseCIDR_toLower := lower.parseCIDR_toLower

theorem key_iff_told_ip {a b : NetAddr} (hx : x.1.type = utf8 "ip") (hy : y.1.type = utf8 "ip")
    (ha : NetAddr.parse x.1.value = some a) (hb : NetAddr.parse y.1.value = some b) :
    (canonicalKey (netLib lower) x.1 = canonicalKey (netLib lower) y.1 ↔ SamePackets x y) ↔
      Told x y := by
  have hinj : (netLib lower).ipString a = (netLib lower).ipString b ↔ a = b :=
    ⟨(netLib lower).ipString_inj a b, congrArg _⟩
  rw [key_eq_iff (hx.trans hy.symm), canonicalValue_ip hx ha, canonicalValue_ip hy hb, hinj,
    samePackets_ip (netTexts_netLib lower) hx hy ha hb]
  constructor
  · intro h
    refine ⟨fun _ a' b' ha' hb' hsa hsb => ?_, fun hcidr => absurd (hx.symm.trans hcidr) kinds_ne.1⟩
    obtain rfl := Option.some.inj (ha.symm.trans ha')
    obtain rfl := Option.some.inj (hb.symm.trans hb')
    exact h.mpr (.inr ⟨hsa, hsb⟩)
  · intro h
    exact ⟨.inl, fun hor => hor.elim id fun hs => h.ip hx a b ha hb hs.1 hs.2⟩

/-- Every address has a text, so networks match the same packets exactly if they have one span. -/
theorem samePackets_cidr_iff_span {m n : IPNet} (hx : x.1.type = utf8 "cidr")
    (hy : y.1.type = utf8 "cidr") (hm : parseCIDR x.1.value = some m)
    (hn : parseCIDR y.1.value = some n) : SamePackets x y ↔ m.span = n.span := by
  rw [← IPNet.contains_eq_iff_span, samePackets_cidr (netTexts_netLib lower) hx hy hm hn]
  constructor
  · intro h a hloud
    exact h a.text a ((parseIP_netLib lower a.text).trans (parse_text a)) hloud
  · intro h _ a _ hloud
    exact h a hloud

theorem key_iff_told_cidr {m n : IPNet} (hx : x.1.type = utf8 "cidr") (hy : y.1.type = utf8 "cidr")
    (hm : parseCIDR x.1.value = some m) (hn : parseCIDR y.1.value = some n) :
    (canonicalKey (netLib lower) x.1 = canonicalKey (netLib lower) y.1 ↔ SamePackets x y) ↔
      Told x y := by
  obtain ⟨hipcidr, -, -, hcidrdomain, -⟩ := kinds_ne
  have hother : ∀ {z : Item (netLib lower)}, z.1.type = utf8 "cidr" →
      canonicalValue (netLib lower) z.1.type z.1.value = lower.toLower z.1.value := fun hz =>
    canonicalValue_other (by rw [hz]; exact hipcidr.symm) (by rw [hz]; exact hcidrdomain)
  rw [key_eq_iff (hx.trans hy.symm), hother hx, hother hy, samePackets_cidr_iff_span hx hy hm hn]
  -- texts that differ in letter case only are one network
  have hsame : lower.toLower x.1.value = lower.toLower y.1.value → m = n := by
    intro h
    have hparse := congrArg parseCIDR h
    rw [lower.parseCIDR_toLower, lower.parseCIDR_toLower, hm, hn] at hparse
    exact Option.some.inj hparse
  constructor
  · intro h
    refine ⟨fun hip => absurd (hip.symm.trans hx) hipcidr, fun _ m' n' hm' hn' => ?_⟩
    obtain rfl := Option.some.inj (hm.symm.trans hm')
    obtain rfl := Option.some.inj (hn.symm.trans hn')
    exact or_iff_not_imp_right.mpr fun hspan => h.mpr (not_not.mp hspan)
  · intro h
    exact ⟨fun heq => by rw [hsame heq], fun hspan => (h.cidr hx m n hm hn).resolve_right (not_not.mpr hspan)⟩

/-- Domains and URLs are always told apart. -/
theorem told_of_type (hip : x.1.type ≠ utf8 "ip") (hcidr : x.1.type ≠ utf8 "cidr") : Told x y :=
  ⟨fun h => absurd h hip, fun h => absurd h hcidr⟩

end

/-- For two indicators of one type that the matcher indexes, the keys are equal exactly if the packets
    are, unless they are two addresses that are never looked up or two texts of networks that have the
    same first and last address among those that are. -/
theorem key_iff_told (lower : Lower) (x y : Item (netLib lower)) (htype : x.1.type = y.1.type)
    (hx : Indexes (netLib lower) x.1) (hy : Indexes (netLib lower) y.1) :
    (canonicalKey (netLib lower) x.1 = canonicalKey (netLib lower) y.1 ↔ SamePackets x y) ↔
      Told x y := by
  obtain ⟨hip_cidr, hip_domain, hip_url, hcidr_domain, hcidr_url, hdomain_url⟩ := kinds_ne
  rw [indexes_iff] at hx hy
  rw [← htype] at hy
  rcases hx with ⟨hkind, a, ha⟩ | ⟨hkind, m, hm⟩ | ⟨hkind, hname⟩ | ⟨hkind, hurl⟩
  · obtain ⟨b, hb⟩ : ∃ b, (netLib lower).parseIP y.1.value = some b := by grind
    exact key_iff_told_ip hkind (htype ▸ hkind) ha hb
  · obtain ⟨n, hn⟩ : ∃ n, (netLib lower).parseCIDR y.1.value = some n := by grind
    exact key_iff_told_cidr hkind (htype ▸ hkind) hm hn
  · have hname' : canonicalDomain (netLib lower) y.1.value ≠ [] := by grind
    have hykind : y.1.type = utf8 "domain" := htype ▸ hkind
    rw [key_eq_iff htype, canonicalValue_domain hkind, canonicalValue_domain hykind,
      samePackets_domain hkind hykind hname hname']
    exact iff_of_true Iff.rfl (told_of_type (by rw [hkind]; exact hip_domain.symm)
      (by rw [hkind]; exact hcidr_domain.symm))
  · have hurl' : (netLib lower).toLower y.1.value ≠ [] := by grind
    have hykind : y.1.type = utf8 "url" := htype ▸ hkind
    have hother : ∀ {z : Item (netLib lower)}, z.1.type = utf8 "url" →
        canonicalValue (netLib lower) z.1.type z.1.value = (netLib lower).toLower z.1.value :=
      fun hz => canonicalValue_other (by rw [hz]; exact hip_url.symm) (by rw [hz]; exact hdomain_url.symm)
    rw [key_eq_iff htype, hother hkind, hother hykind, samePackets_url hkind hykind hurl hurl']
    exact iff_of_true Iff.rfl (told_of_type (by rw [hkind]; exact hip_url.symm)
      (by rw [hkind]; exact hcidr_url.symm))

def network (value : String) : Item (netLib asciiLower) :=
  normalItem (netLib asciiLower) 1 [] { id := utf8 value, type := utf8 "cidr", value := utf8 value }

/-- The halves of a network are told apart. -/
theorem key_iff_told_halves : Told (network "192.0.2.0/25") (network "192.0.2.128/25") ∧
    ¬SamePackets (network "192.0.2.0/25") (network "192.0.2.128/25") := by
  have hm : parseCIDR (network "192.0.2.0/25").1.value = some ⟨0xffffc0000200, 7⟩ := by decide +kernel
  have hn : parseCIDR (network "192.0.2.128/25").1.value = some ⟨0xffffc0000280, 7⟩ := by
    decide +kernel
  have hkeys : canonicalKey (netLib asciiLower) (network "192.0.2.0/25").1 ≠
      canonicalKey (netLib asciiLower) (network "192.0.2.128/25").1 := by decide +kernel
  have hpackets : ¬SamePackets (network "192.0.2.0/25") (network "192.0.2.128/25") := by
    rw [samePackets_cidr_iff_span (by decide +kernel) (by decide +kernel) hm hn]
    decide +kernel
  exact ⟨(key_iff_told asciiLower (network "192.0.2.0/25") (network "192.0.2.128/25") rfl
    (.inr (.inl (by decide +kernel))) (.inr (.inl (by decide +kernel)))).mp
    (iff_of_false hkeys hpackets), hpackets⟩

/-- The network 192.0.2.0/24 under two texts: the same packets, two keys. -/
theorem network_has_two_keys :
    SamePackets (network "192.0.2.0/24") (network "192.0.2.1/24") ∧
      canonicalKey (netLib asciiLower) (network "192.0.2.0/24").1 ≠
        canonicalKey (netLib asciiLower) (network "192.0.2.1/24").1 := by
  have hnet : ∀ value ∈ ["192.0.2.0/24", "192.0.2.1/24"],
      (network value).1.type = utf8 "cidr" ∧
        parseCIDR (network value).1.value = some ⟨0xffffc0000200, 8⟩ := by decide +kernel
  obtain ⟨hx, hm⟩ := hnet _ List.mem_cons_self
  obtain ⟨hy, hn⟩ := hnet _ (List.mem_cons_of_mem _ List.mem_cons_self)
  exact ⟨(samePackets_cidr_iff_span hx hy hm hn).mpr rfl, by decide +kernel⟩

end TaNode.Intel

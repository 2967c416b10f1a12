import Mathlib.Data.List.Infix
import TaNode.Intel.Store

/-! Matching a packet against the indicators through the matcher's index.

    The index sorts the items into four structures, each under its own canonical form:

        ip        by the text of the address        addresses of the packet
        cidr      a list of networks                addresses of the packet
        domain    by the canonical name             names of the packet and their parents
        url       by the lower-cased value, and     URL of the packet
                  as a list

    The packet is looked up field by field, and a set of ids keeps an item from being reported twice.
    The result is what a scan of all items with the plain predicate `Matches` gives. -/

namespace TaNode.Intel
variable {lib : Lib}

/-! ### The index -/

section
variable (lib)

structure Index where
  ipSet : Buckets Bytes (Item lib) := Catalog.empty
  cidrs : List (lib.Network × Item lib) := []
  domainMap : Buckets Bytes (Item lib) := Catalog.empty
  urlMap : Buckets Bytes (Item lib) := Catalog.empty
  urlList : List (Item lib) := []

/-- One round of the loop of `rebuildIndex`. -/
def addItem (ix : Index lib) (it : Item lib) : Index lib :=
  let kind := lib.toLower it.1.type
  if kind = utf8 "ip" then
    let ip := canonicalIP lib it.1.value
    if ip ≠ [] then { ix with ipSet := ix.ipSet.append ip it } else ix
  else if kind = utf8 "cidr" then
    match lib.parseCIDR it.1.value with
    | some network => { ix with cidrs := ix.cidrs ++ [(network, it)] }
    | none => ix
  else if kind = utf8 "domain" then
    let domain := canonicalDomain lib it.1.value
    if domain ≠ [] then { ix with domainMap := ix.domainMap.append domain it } else ix
  else if kind = utf8 "url" then
    let value := lib.toLower (trimSpace it.1.value)
    if value = [] then ix
    else { ix with urlMap := ix.urlMap.append value it, urlList := ix.urlList ++ [it] }
  else ix

/-- The index `rebuildIndex` makes of the listed items. -/
def buildIndex (items : List (Item lib)) : Index lib := items.foldl (addItem lib) {}

/-! ### Lookups -/

def active (it : ThreatIntel) (now : Int) : Bool :=
  it.enabled && (it.expireAt = 0 || it.expireAt ≥ now)

/-- The items that the address text `ip` hands to `addHit`. -/
def ipHits (ix : Index lib) (ip : Bytes) : List (Item lib) :=
  match lib.parseIP ip with
  | none => []
  | some parsed =>
    if lib.isLoopback parsed || lib.isUnspecified parsed then []
    else
      ix.ipSet.bucket (canonicalIP lib ip) ++
        (ix.cidrs.filter fun cidr => lib.contains cidr.1 parsed).map Prod.snd

def matchDomainLocked (order : Visit (Bytes × List (Item lib))) (ix : Index lib) (value : Bytes) :
    List (Item lib) :=
  let value := canonicalDomain lib value
  if value = [] then []
  else
    (order.visit ix.domainMap.list).flatMap fun (domain, items) =>
      if value = domain ∨ utf8 "." ++ domain <:+ value then items else []

def urlHits (ix : Index lib) (url : Bytes) : List (Item lib) :=
  if url ≠ [] then
    let lowerURL := lib.toLower url
    ix.urlMap.bucket lowerURL ++
      ix.urlList.filter fun it => lib.toLower it.1.value <:+: lowerURL
  else []

/-- The items that a packet hands to `addHit`, in this order; `orders` are those of the loops over
    the domain map, one for each name looked up. -/
def offered (orders : Nat → Visit (Bytes × List (Item lib))) (ix : Index lib) (pf : PacketFeature) :
    List (Item lib) :=
  ([utf8 pf.srcIP, utf8 pf.dstIP] ++ pf.dnsAnswers).flatMap (ipHits lib ix) ++
    (matchDomainLocked lib (orders 0) ix pf.dnsQuery ++
      matchDomainLocked lib (orders 1) ix pf.httpHost ++
      matchDomainLocked lib (orders 2) ix pf.sni) ++
    pf.dnsAnswers.zipIdx.flatMap (fun (ans, i) =>
      if (lib.parseIP ans).isSome then [] else matchDomainLocked lib (orders (i + 3)) ix ans) ++
    urlHits lib ix pf.httpURL

def hitKey (it : ThreatIntel) : Bytes :=
  if it.id = [] then it.type ++ utf8 ":" ++ it.value else it.id

/-- The keys seen and the hits, after one more item. -/
def addHit (now : Int) (state : List Bytes × List (Item lib)) (it : Item lib) :
    List Bytes × List (Item lib) :=
  if hitKey it.1 ∉ state.1 ∧ active it.1 now then (hitKey it.1 :: state.1, state.2 ++ [it])
  else state

/-- `MatchPacket` with the index it finds. -/
def matchPacket (orders : Nat → Visit (Bytes × List (Item lib))) (now : Int) (ix : Index lib)
    (pf : PacketFeature) : List (Item lib) :=
  ((offered lib orders ix pf).foldl (addHit lib now) ([], [])).2

/-! ### The plain predicate -/

/-- The addresses of a packet that may match. -/
def HasAddress (pf : PacketFeature) (a : lib.Addr) : Prop :=
  ∃ ip ∈ [utf8 pf.srcIP, utf8 pf.dstIP] ++ pf.dnsAnswers, lib.parseIP ip = some a ∧
    lib.isLoopback a = false ∧ lib.isUnspecified a = false

/-- The names of a packet. -/
def HasName (pf : PacketFeature) (name : Bytes) : Prop :=
  name ∈ [pf.dnsQuery, pf.httpHost, pf.sni] ∨ name ∈ pf.dnsAnswers ∧ lib.parseIP name = none

/-- The name is the domain of the indicator or lies below it. -/
def Covers (it : ThreatIntel) (name : Bytes) : Prop :=
  canonicalDomain lib it.value ≠ [] ∧
    (canonicalDomain lib it.value = canonicalDomain lib name ∨
      utf8 "." ++ canonicalDomain lib it.value <:+ canonicalDomain lib name)

/-- What each type of indicator says about a packet. -/
def Matches (pf : PacketFeature) (it : ThreatIntel) : Prop :=
  (it.type = utf8 "ip" ∧
      ∃ a, lib.parseIP it.value = some a ∧ HasAddress lib pf a) ∨
    (it.type = utf8 "cidr" ∧ ∃ network a, lib.parseCIDR it.value = some network ∧
      HasAddress lib pf a ∧ lib.contains network a = true) ∨
    (it.type = utf8 "domain" ∧ ∃ name, HasName lib pf name ∧ Covers lib it name) ∨
    (it.type = utf8 "url" ∧ lib.toLower it.value ≠ [] ∧ pf.httpURL ≠ [] ∧
      lib.toLower it.value <:+: lib.toLower pf.httpURL)

end

/-! ### What the index holds -/

section
variable (lib)

/-- Under what an item stands in each structure, if at all. -/
def ipKey (it : ThreatIntel) : Option Bytes :=
  if it.type = utf8 "ip" ∧ canonicalIP lib it.value ≠ [] then some (canonicalIP lib it.value)
  else none

def cidrKey (it : ThreatIntel) : Option lib.Network :=
  if it.type = utf8 "cidr" then lib.parseCIDR it.value else none

def domainKey (it : ThreatIntel) : Option Bytes :=
  if it.type = utf8 "domain" ∧ canonicalDomain lib it.value ≠ [] then
    some (canonicalDomain lib it.value)
  else none

def urlKey (it : ThreatIntel) : Option Bytes :=
  if it.type = utf8 "url" ∧ lib.toLower it.value ≠ [] then some (lib.toLower it.value) else none

end

theorem kinds_distinct : [utf8 "ip", utf8 "cidr", utf8 "domain", utf8 "url"].Nodup := by
  decide +kernel

/-- An item enters each structure by its own key. -/
theorem addItem_eq (ix : Index lib) (it : Item lib) : addItem lib ix it =
    { ipSet := ix.ipSet.appendAt (ipKey lib it.1) it
      cidrs := ix.cidrs ++ ((cidrKey lib it.1).map (·, it)).toList
      domainMap := ix.domainMap.appendAt (domainKey lib it.1) it
      urlMap := ix.urlMap.appendAt (urlKey lib it.1) it
      urlList := ix.urlList ++ ((urlKey lib it.1).map fun _ => it).toList } := by
  have hkinds := kinds_distinct
  simp only [addItem, it.2.type.1, it.2.value, ipKey, cidrKey, domainKey, urlKey]
  split
  · split
    · simp_all [Buckets.appendAt]
    · simp_all [Buckets.appendAt]
  · split
    · split
      · simp_all [Buckets.appendAt]
      · simp_all [Buckets.appendAt]
    · split
      · split
        · simp_all [Buckets.appendAt]
        · simp_all [Buckets.appendAt]
      · split
        · split
          · simp_all [Buckets.appendAt]
          · simp_all [Buckets.appendAt]
        · simp_all [Buckets.appendAt]

/-- The index of `items`, structure by structure. -/
structure Indexed (items : List (Item lib)) (ix : Index lib) : Prop where
  ipSet : ∀ it k, it ∈ ix.ipSet.bucket k ↔ it ∈ items ∧ ipKey lib it.1 = some k
  cidrs : ∀ network it, (network, it) ∈ ix.cidrs ↔ it ∈ items ∧ cidrKey lib it.1 = some network
  domainMap : ∀ it k, it ∈ ix.domainMap.bucket k ↔ it ∈ items ∧ domainKey lib it.1 = some k
  urlMap : ∀ it k, it ∈ ix.urlMap.bucket k ↔ it ∈ items ∧ urlKey lib it.1 = some k
  urlList : ∀ it, it ∈ ix.urlList ↔ it ∈ items ∧ ∃ k, urlKey lib it.1 = some k

theorem Indexed.snoc {items : List (Item lib)} {ix : Index lib} (h : Indexed items ix)
    (it : Item lib) : Indexed (items ++ [it]) (addItem lib ix it) := by
  rw [addItem_eq]
  constructor
  · intro x k
    rw [Buckets.mem_bucket_appendAt, h.ipSet]
    grind
  · intro network x
    have hlast : (network, x) ∈ ((cidrKey lib it.1).map (·, it)).toList ↔
        x = it ∧ cidrKey lib it.1 = some network := by
      simp only [Option.mem_toList, Option.map_eq_some_iff]
      grind
    rw [List.mem_append, h.cidrs, hlast]
    grind
  · intro x k
    rw [Buckets.mem_bucket_appendAt, h.domainMap]
    grind
  · intro x k
    rw [Buckets.mem_bucket_appendAt, h.urlMap]
    grind
  · intro x
    have hlast : x ∈ ((urlKey lib it.1).map fun _ => it).toList ↔
        x = it ∧ ∃ k, urlKey lib it.1 = some k := by
      simp only [Option.mem_toList, Option.map_eq_some_iff]
      grind
    rw [List.mem_append, h.urlList, hlast]
    grind

theorem indexed_buildIndex (items : List (Item lib)) : Indexed items (buildIndex lib items) := by
  induction items using List.reverseRecOn with
  | nil => constructor <;> simp [buildIndex]
  | append_singleton items it ih =>
    rw [buildIndex, List.foldl_append, List.foldl_cons, List.foldl_nil, ← buildIndex]
    exact ih.snoc it

/-! ### The lookups -/

theorem canonicalIP_of_parse {ip : Bytes} {a : lib.Addr} (h : lib.parseIP ip = some a) :
    canonicalIP lib ip = lib.ipString a := by
  rw [canonicalIP, lib.trimSpace_of_parseIP ip a h, h]

/-- An address is found under its text by the items whose value it is. -/
theorem ipKey_eq_some {it : Item lib} {a : lib.Addr} : ipKey lib it.1 = some (lib.ipString a) ↔
      it.1.type = utf8 "ip" ∧ lib.parseIP it.1.value = some a := by
  rw [ipKey, canonicalIP, it.2.value]
  cases hparse : lib.parseIP it.1.value with
  | none => simp
  | some b =>
    have hinj : lib.ipString b = lib.ipString a ↔ b = a :=
      ⟨lib.ipString_inj b a, congrArg lib.ipString⟩
    simp [lib.ipString_ne_nil b, hinj]

variable {pf : PacketFeature} {orders : Nat → Visit (Bytes × List (Item lib))}

section
variable {items : List (Item lib)} {ix : Index lib} {it : Item lib}

section
variable (h : Indexed items ix)
include h

theorem mem_ipHits {ip : Bytes} :
    it ∈ ipHits lib ix ip ↔ it ∈ items ∧ ∃ a, lib.parseIP ip = some a ∧
      lib.isLoopback a = false ∧ lib.isUnspecified a = false ∧
      ((it.1.type = utf8 "ip" ∧ lib.parseIP it.1.value = some a) ∨
        ∃ network, cidrKey lib it.1 = some network ∧ lib.contains network a = true) := by
  rw [ipHits]
  cases hparse : lib.parseIP ip with
  | none => simp
  | some a =>
    by_cases hskip : (lib.isLoopback a || lib.isUnspecified a) = true
    · simp only [hskip, if_true, List.not_mem_nil, false_iff]
      rintro ⟨_, b, hb, hloop, hunspec, _⟩
      obtain rfl := Option.some.inj hb
      simp [hloop, hunspec] at hskip
    · have hcidr : it ∈ (ix.cidrs.filter fun cidr => lib.contains cidr.1 a).map Prod.snd ↔
          it ∈ items ∧ ∃ network, cidrKey lib it.1 = some network ∧
            lib.contains network a = true := by
        simp only [List.mem_map, List.mem_filter, Prod.exists, exists_eq_right, h.cidrs]
        grind
      simp only [if_neg hskip, List.mem_append, h.ipSet, canonicalIP_of_parse hparse,
        ipKey_eq_some, hcidr]
      grind

/-- The addresses of the packet find the addresses and the networks. -/
theorem mem_addressHits :
    it ∈ ([utf8 pf.srcIP, utf8 pf.dstIP] ++ pf.dnsAnswers).flatMap (ipHits lib ix) ↔ it ∈ items ∧
        ((it.1.type = utf8 "ip" ∧ ∃ a, lib.parseIP it.1.value = some a ∧ HasAddress lib pf a) ∨
          (it.1.type = utf8 "cidr" ∧ ∃ network a, lib.parseCIDR it.1.value = some network ∧
            HasAddress lib pf a ∧ lib.contains network a = true)) := by
  simp only [List.mem_flatMap, mem_ipHits h]
  constructor
  · rintro ⟨ip, hip, hit, a, hparse, hloop, hunspec, hkind⟩
    have haddr : HasAddress lib pf a := ⟨ip, hip, hparse, hloop, hunspec⟩
    refine ⟨hit, ?_⟩
    rcases hkind with ⟨htype, hvalue⟩ | ⟨network, hcidr, hcontains⟩
    · exact .inl ⟨htype, a, hvalue, haddr⟩
    · rw [cidrKey, Option.ite_none_right_eq_some] at hcidr
      exact .inr ⟨hcidr.1, network, a, hcidr.2, haddr, hcontains⟩
  · rintro ⟨hit, ⟨htype, a, hvalue, ip, hip, haddr⟩ |
      ⟨htype, network, a, hvalue, ⟨ip, hip, haddr⟩, hcontains⟩⟩
    · exact ⟨ip, hip, hit, a, haddr.1, haddr.2.1, haddr.2.2, .inl ⟨htype, hvalue⟩⟩
    · refine ⟨ip, hip, hit, a, haddr.1, haddr.2.1, haddr.2.2, .inr ⟨network, ?_, hcontains⟩⟩
      rw [cidrKey, if_pos htype, hvalue]

/-- A name matches the items whose domain it is or is below. -/
theorem mem_matchDomainLocked {order : Visit (Bytes × List (Item lib))} {name : Bytes} :
    it ∈ matchDomainLocked lib order ix name ↔
      it ∈ items ∧ it.1.type = utf8 "domain" ∧ Covers lib it.1 name := by
  have hkey : ∀ k, domainKey lib it.1 = some k ↔
      it.1.type = utf8 "domain" ∧ canonicalDomain lib it.1.value ≠ [] ∧
        canonicalDomain lib it.1.value = k := by
    intro k
    rw [domainKey]
    grind
  rw [matchDomainLocked, Covers]
  split
  · rename_i hempty
    simp only [List.not_mem_nil, false_iff]
    rintro ⟨_, _, hne, heq | hsuffix⟩
    · exact hne (heq.trans hempty)
    · rw [hempty, List.suffix_nil] at hsuffix
      exact hne (List.append_eq_nil_iff.mp hsuffix).2
  · have hflat : it ∈ (order.visit ix.domainMap.list).flatMap (fun (domain, items) =>
          if canonicalDomain lib name = domain ∨ utf8 "." ++ domain <:+ canonicalDomain lib name
          then items else []) ↔
        ∃ k, (canonicalDomain lib name = k ∨ utf8 "." ++ k <:+ canonicalDomain lib name) ∧
          it ∈ ix.domainMap.bucket k := by
      simp only [List.mem_flatMap, order.mem, Buckets.mem_bucket_iff, Catalog.mem_iff]
      grind
    rw [hflat]
    simp only [h.domainMap, hkey]
    grind

/-- The names of the packet find the domains. -/
theorem mem_nameHits :
    it ∈ (matchDomainLocked lib (orders 0) ix pf.dnsQuery ++
        matchDomainLocked lib (orders 1) ix pf.httpHost ++
        matchDomainLocked lib (orders 2) ix pf.sni) ++
      pf.dnsAnswers.zipIdx.flatMap (fun (ans, i) =>
        if (lib.parseIP ans).isSome then [] else matchDomainLocked lib (orders (i + 3)) ix ans) ↔
      it ∈ items ∧ it.1.type = utf8 "domain" ∧ ∃ name, HasName lib pf name ∧ Covers lib it.1 name := by
  simp only [List.mem_append, mem_matchDomainLocked h, List.mem_flatMap, Prod.exists,
    List.mem_zipIdx_iff_getElem?, HasName, List.mem_cons, List.not_mem_nil, or_false]
  constructor
  · rintro (((⟨hit, htype, hcov⟩ | ⟨hit, htype, hcov⟩) | ⟨hit, htype, hcov⟩) | ⟨ans, i, hget, hit⟩)
    · exact ⟨hit, htype, _, .inl (.inl rfl), hcov⟩
    · exact ⟨hit, htype, _, .inl (.inr (.inl rfl)), hcov⟩
    · exact ⟨hit, htype, _, .inl (.inr (.inr rfl)), hcov⟩
    · split at hit
      · exact absurd hit List.not_mem_nil
      · rename_i hnone
        obtain ⟨hit, htype, hcov⟩ := (mem_matchDomainLocked h).mp hit
        exact ⟨hit, htype, ans, .inr ⟨List.mem_of_getElem? hget, by simpa using hnone⟩, hcov⟩
  · rintro ⟨hit, htype, name, (rfl | rfl | rfl) | ⟨hans, hnone⟩, hcov⟩
    · exact .inl (.inl (.inl ⟨hit, htype, hcov⟩))
    · exact .inl (.inl (.inr ⟨hit, htype, hcov⟩))
    · exact .inl (.inr ⟨hit, htype, hcov⟩)
    · obtain ⟨i, hget⟩ := List.getElem?_of_mem hans
      refine .inr ⟨name, i, hget, ?_⟩
      rw [hnone]
      exact (mem_matchDomainLocked h).mpr ⟨hit, htype, hcov⟩

theorem mem_urlHits {url : Bytes} : it ∈ urlHits lib ix url ↔ it ∈ items ∧ it.1.type = utf8 "url" ∧
      lib.toLower it.1.value ≠ [] ∧ url ≠ [] ∧ lib.toLower it.1.value <:+: lib.toLower url := by
  rw [urlHits]
  split
  · simp only [List.mem_append, h.urlMap, List.mem_filter, h.urlList, urlKey]
    grind
  · grind

/-- What a packet hands over is what the plain predicate selects. -/
theorem mem_offered : it ∈ offered lib orders ix pf ↔ it ∈ items ∧ Matches lib pf it.1 := by
  rw [offered, List.append_assoc _ (_ ++ _ ++ _), List.mem_append, List.mem_append,
    mem_addressHits h, mem_nameHits h, mem_urlHits h, Matches]
  grind

end

end

/-! ### Each hit once -/

/-- The keys seen and the hits among the items offered so far. -/
structure Hits (now : Int) (its : List (Item lib)) (state : List Bytes × List (Item lib)) :
    Prop where
  seen : ∀ k, k ∈ state.1 ↔ ∃ it ∈ state.2, hitKey it.1 = k
  hits : ∀ it, it ∈ state.2 ↔ it ∈ its ∧ active it.1 now = true
  once : state.2.Nodup

theorem Hits.snoc {now : Int} {its : List (Item lib)} {state : List Bytes × List (Item lib)}
    (h : Hits now its state) {it : Item lib}
    (hkey : ∀ x ∈ its, hitKey x.1 = hitKey it.1 → x = it) :
    Hits now (its ++ [it]) (addHit lib now state it) := by
  rw [addHit]
  split
  · rename_i hnew
    have hout : it ∉ state.2 := fun hmem => hnew.1 ((h.seen _).mpr ⟨it, hmem, rfl⟩)
    constructor
    · intro k
      simp only [List.mem_cons, h.seen, List.mem_append, List.not_mem_nil, or_false]
      grind
    · intro x
      simp only [List.mem_append, h.hits, List.mem_singleton]
      grind
    · rw [List.nodup_append]
      refine ⟨h.once, List.nodup_singleton it, ?_⟩
      intro x hx y hy hxy
      rw [List.mem_singleton] at hy
      exact hout (hy ▸ hxy ▸ hx)
  · rename_i hold
    refine ⟨h.seen, fun x => ?_, h.once⟩
    rw [h.hits, List.mem_append, List.mem_singleton]
    constructor
    · rintro ⟨hx, hactive⟩
      exact ⟨.inl hx, hactive⟩
    · rintro ⟨hx | rfl, hactive⟩
      · exact ⟨hx, hactive⟩
      · -- the item is active, so its key was seen, and only it has that key
        have hseen : hitKey x.1 ∈ state.1 := by
          by_contra hnot
          exact hold ⟨hnot, hactive⟩
        obtain ⟨y, hy, hyx⟩ := (h.seen _).mp hseen
        have hyits := ((h.hits y).mp hy).1
        exact ⟨hkey y hyits hyx ▸ hyits, hactive⟩

theorem hits_foldl (now : Int) (its : List (Item lib))
    (hkey : ∀ x ∈ its, ∀ y ∈ its, hitKey x.1 = hitKey y.1 → x = y) :
    Hits now its (its.foldl (addHit lib now) ([], [])) := by
  induction its using List.reverseRecOn with
  | nil => exact ⟨by simp, by simp, List.nodup_nil⟩
  | append_singleton its it ih =>
    have hleft : ∀ x ∈ its, x ∈ its ++ [it] := fun x hx => List.mem_append_left _ hx
    have hits := ih fun x hx y hy => hkey x (hleft x hx) y (hleft y hy)
    rw [List.foldl_append, List.foldl_cons, List.foldl_nil]
    exact hits.snoc fun x hx => hkey x (hleft x hx) it (by simp)

theorem active_iff {it : ThreatIntel} {now : Int} :
    active it now = true ↔ it.enabled = true ∧ (it.expireAt = 0 ∨ now ≤ it.expireAt) := by
  simp [active]

/-- With an index built from the store's items, in whatever order they were listed, a packet hits
    each enabled and unexpired item that matches it, once, and nothing else. -/
theorem matchPacket_exact (items : Items lib) (listing : Visit (Item lib))
    (orders : Nat → Visit (Bytes × List (Item lib))) (now : Int) (pf : PacketFeature) :
    (matchPacket lib orders now (buildIndex lib (listing.visit items.list)) pf).Nodup ∧
    ∀ it, it ∈ matchPacket lib orders now (buildIndex lib (listing.visit items.list)) pf ↔
      it ∈ items ∧ it.1.enabled = true ∧ (it.1.expireAt = 0 ∨ now ≤ it.1.expireAt) ∧
        Matches lib pf it.1 := by
  have hoffered : ∀ it, it ∈ offered lib orders (buildIndex lib (listing.visit items.list)) pf ↔
      it ∈ items ∧ Matches lib pf it.1 := by
    intro it
    rw [mem_offered (indexed_buildIndex _), listing.mem]
    rfl
  have hits := hits_foldl now (offered lib orders (buildIndex lib (listing.visit items.list)) pf)
    (by
      intro x hx y hy hkey
      rw [hitKey, if_neg x.2.id, hitKey, if_neg y.2.id] at hkey
      exact Catalog.eq_of_key ((hoffered x).mp hx).1 ((hoffered y).mp hy).1 hkey)
  refine ⟨hits.once, fun it => ?_⟩
  rw [matchPacket, hits.hits, hoffered, active_iff]
  grind

/-- A name below a stored domain, whatever its case and final dot. -/
example : (matchPacket sampleLib (fun _ => .listed) 5 (buildIndex sampleLib
      (sync sampleLib 1 (fun _ => [])
        [{ type := utf8 "Domain", value := utf8 "old.example", enabled := true }]).list)
      { dnsQuery := utf8 "www.OLD.example." }).length = 1 := by
  decide +kernel

end TaNode.Intel

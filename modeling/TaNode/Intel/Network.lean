import Mathlib.Data.Nat.Digits.Lemmas
import TaNode.Intel.Matcher
import TaNode.Parser.Address

/-! Networks of package `net`: what `net.ParseCIDR` makes of a text and which addresses it contains.

    An address is a number of 16 bytes; those of 4 bytes are the numbers that `To4` takes for them:

        ::  ::1            ::ffff:0.0.0.0   …   ::ffff:127.0.0.0 … ::ffff:127.255.255.255   …
        never looked up    never looked up      never looked up

    A network has the addresses of its kind, 4 bytes or not, between two numbers. What it matches is
    told by the first and the last one of them that is looked up. -/

namespace TaNode.Intel

/-! ### Addresses -/

/-- What `net.ParseIP` returns, 16 bytes as one number. -/
abbrev NetAddr := Fin (2 ^ 128)

/-- The text of an address or a network; its hexadecimal digits may be in either case. -/
def netText (s : Bytes) : List Char := s.map fun b => Char.ofNat (lowerByte b).toNat

def number (ip : Bytes) : Nat := Nat.ofDigits 256 (ip.reverse.map UInt8.toNat)

namespace NetAddr

/-- `net.ParseIP`; a text with white space at its ends is no address. -/
def parse (s : Bytes) : Option NetAddr :=
  let ip := parseIP (String.ofList (netText s))
  if ip.length = 16 ∧ trimSpace s = s then some (Fin.ofNat _ (number ip)) else none

def bytes (a : NetAddr) : Bytes := ((Nat.digitsAppend 256 16 a).map UInt8.ofNat).reverse

/-- The text of an address, in bytes. -/
def text (a : NetAddr) : Bytes := (ipString a.bytes).toList.map fun c => UInt8.ofNat c.toNat

/-- `To4` finds an address of 4 bytes. -/
def four (a : NetAddr) : Bool := a.val / 2 ^ 32 = 0xffff

def isLoopback (a : NetAddr) : Bool := if a.four then a.val % 2 ^ 32 / 2 ^ 24 = 127 else a.val = 1

def isUnspecified (a : NetAddr) : Bool := a.val = 0xffff00000000 ∨ a.val = 0

end NetAddr

/-! ### Networks -/

/-- `net.IPNet`; `free` is the number of bits that the mask clears. -/
structure IPNet where
  ip : NetAddr
  free : Nat
  deriving DecidableEq

/-- `net.dtoi` of a whole text. -/
def dtoi (s : List Char) : Option Nat :=
  if s ≠ [] ∧ s.all Char.isDigit then some (s.foldl (fun n c => n * 10 + (c.toNat - 48)) 0) else none

/-- `net.ParseCIDR`; without a slash nothing is left for the number of bits. -/
def parseCIDR (s : Bytes) : Option IPNet :=
  let text := netText s
  let addr := text.takeWhile (· ≠ '/')
  let ip := parseIP (String.ofList addr)
  let bitLen := if ':' ∈ addr then 128 else 32
  (dtoi (text.drop (addr.length + 1))).bind fun n =>
    if ip.length = 16 ∧ n ≤ bitLen then
      some ⟨Fin.ofNat _ (number ip / 2 ^ (bitLen - n) * 2 ^ (bitLen - n)), bitLen - n⟩
    else none

/-- `IPNet.Contains`: the network and the address have the same number of bytes, and under the mask
    they are equal. -/
def IPNet.contains (n : IPNet) (a : NetAddr) : Bool :=
  n.ip.four = a.four ∧ n.ip.val / 2 ^ n.free = a.val / 2 ^ n.free

/-! ### The span of a network -/

def NetAddr.Silent (a : NetAddr) : Prop := a.isLoopback = true ∨ a.isUnspecified = true

/-- What is not looked up, of the numbers with 4 bytes or of the others: those up to the first number,
    those from the second to the third, and those from the fourth on. -/
def gaps (four : Bool) : Nat × Nat × Nat × Nat :=
  if four then (0xffff00000000, 0xffff7f000000, 0xffff7fffffff, 2 ^ 48)
  else (1, 0xffff00000000, 0xffffffffffff, 2 ^ 128)

def LookedUp (four : Bool) (x : Nat) : Prop :=
  let (g, c, d, e) := gaps four
  g < x ∧ ¬(c ≤ x ∧ x ≤ d) ∧ x < e

/-- The first number from `x` on that is looked up, and the last one up to it. -/
def above (four : Bool) (x : Nat) : Nat :=
  let (g, c, d, _) := gaps four
  if x ≤ g then g + 1 else if c ≤ x ∧ x ≤ d then d + 1 else x

def below (four : Bool) (x : Nat) : Nat :=
  let (_, c, d, e) := gaps four
  let x := min x (e - 1)
  if c ≤ x ∧ x ≤ d then c - 1 else x

theorem above_spec (four : Bool) (x : Nat) : x ≤ above four x ∧ (gaps four).1 < above four x ∧
    (above four x < (gaps four).2.2.2 → LookedUp four (above four x)) ∧
    ∀ y, x ≤ y → LookedUp four y → above four x ≤ y := by
  cases four <;> simp only [above, LookedUp, gaps] <;> grind

theorem below_spec (four : Bool) (x : Nat) : below four x ≤ x ∧ below four x < (gaps four).2.2.2 ∧
    ((gaps four).1 < below four x → LookedUp four (below four x)) ∧
    ∀ y ≤ x, LookedUp four y → y ≤ below four x := by
  cases four <;> simp only [below, LookedUp, gaps] <;> grind

theorem lookedUp_iff {a : NetAddr} {four : Bool} : LookedUp four a ↔ ¬a.Silent ∧ a.four = four := by
  have ha := a.isLt
  simp only [LookedUp, gaps, NetAddr.Silent, NetAddr.isLoopback, NetAddr.isUnspecified, NetAddr.four]
  cases four
  · simp
    grind
  · simp
    grind

theorem LookedUp.unique {four four' : Bool} {x : Nat} (h : LookedUp four x) (h' : LookedUp four' x) :
    four = four' := by
  simp only [LookedUp, gaps] at h h'
  grind

namespace IPNet

/-- The first and the last address that are left free by the mask. -/
def first (n : IPNet) : Nat := n.ip.val / 2 ^ n.free * 2 ^ n.free

def last (n : IPNet) : Nat := n.first + (2 ^ n.free - 1)

/-- The first and the last address of a network that are looked up. -/
def span (n : IPNet) : Option (Nat × Nat) :=
  if above n.ip.four n.first ≤ below n.ip.four n.last then
    some (above n.ip.four n.first, below n.ip.four n.last)
  else none

theorem contains_iff {n : IPNet} {a : NetAddr} :
    n.contains a = true ↔ a.four = n.ip.four ∧ n.first ≤ a ∧ a ≤ n.last := by
  have hpos := Nat.two_pow_pos n.free
  rw [contains, decide_eq_true_iff, eq_comm, eq_comm (b := a.val / _), Nat.div_eq_iff hpos, last, first]
  exact and_congr_right fun _ => by omega

/-- Of the addresses of a network none is looked up, or they lie between two of them. -/
theorem span_spec (n : IPNet) :
    (n.span = none ∧ ∀ x, n.first ≤ x → x ≤ n.last → ¬LookedUp n.ip.four x) ∨
    ∃ a b, n.span = some (a, b) ∧ LookedUp n.ip.four a ∧ LookedUp n.ip.four b ∧
      n.first ≤ a ∧ a ≤ b ∧ b ≤ n.last ∧
      ∀ x, n.first ≤ x → x ≤ n.last → LookedUp n.ip.four x → a ≤ x ∧ x ≤ b := by
  obtain ⟨hfirst, hg, ha, hleast⟩ := above_spec n.ip.four n.first
  obtain ⟨hlast, he, hb, hgreatest⟩ := below_spec n.ip.four n.last
  rw [span]
  split_ifs with h
  · exact .inr ⟨_, _, rfl, ha (by omega), hb (by omega), hfirst, h, hlast,
      fun x hx hx' hseen => ⟨hleast x hx hseen, hgreatest x hx' hseen⟩⟩
  · refine .inl ⟨rfl, fun x hx hx' hseen => h ?_⟩
    exact (hleast x hx hseen).trans (hgreatest x hx' hseen)

/-- Two networks have the same addresses among those that are looked up exactly if they have the same
    first and last one. -/
theorem contains_eq_iff_span (m n : IPNet) :
    (∀ a : NetAddr, ¬a.Silent → m.contains a = n.contains a) ↔ m.span = n.span := by
  have hlookup : ∀ {m n : IPNet}, (∀ a : NetAddr, ¬a.Silent → m.contains a = n.contains a) →
      ∀ x, LookedUp m.ip.four x → m.first ≤ x → x ≤ m.last →
        LookedUp n.ip.four x ∧ n.first ≤ x ∧ x ≤ n.last := by
    intro m n h x hx hfirst hlast
    have hlt : x < 2 ^ 128 := by
      simp only [LookedUp, gaps] at hx
      grind
    obtain ⟨hloud, hfour⟩ := (lookedUp_iff (a := ⟨x, hlt⟩)).mp hx
    have hm := contains_iff.mpr ⟨hfour, hfirst, hlast⟩
    rw [h _ hloud, contains_iff] at hm
    exact ⟨(lookedUp_iff (a := ⟨x, hlt⟩)).mpr ⟨hloud, hm.1⟩, hm.2⟩
  have hcontains : ∀ {m n : IPNet}, m.span = n.span → ∀ a : NetAddr, ¬a.Silent →
      m.contains a = true → n.contains a = true := by
    intro m n h a hloud hm
    rw [contains_iff] at hm
    have ha := lookedUp_iff.mpr ⟨hloud, hm.1⟩
    rcases m.span_spec with ⟨-, hnone⟩ | ⟨x, y, hspan, hx, -, -, -, -, hall⟩
    · exact absurd ha (hnone a hm.2.1 hm.2.2)
    · rcases n.span_spec with ⟨hspan', -⟩ | ⟨x', y', hspan', hx', -, hfirst, -, hlast, -⟩
      · simp [hspan, hspan'] at h
      · obtain ⟨rfl, rfl⟩ : x = x' ∧ y = y' := by simpa [hspan, hspan'] using h
        obtain ⟨hlow, hhigh⟩ := hall a hm.2.1 hm.2.2 ha
        exact contains_iff.mpr ⟨hm.1.trans (hx.unique hx'), hfirst.trans hlow, hhigh.trans hlast⟩
  refine ⟨fun h => ?_, fun h a ha => Bool.eq_iff_iff.mpr ⟨hcontains h a ha, hcontains h.symm a ha⟩⟩
  have hmn := @hlookup m n h
  have hnm := @hlookup n m fun a ha => (h a ha).symm
  rcases m.span_spec with ⟨hm, hnone⟩ | ⟨x, y, hm, hx, hy, hmx, hxy, hmy, hall⟩ <;>
    rcases n.span_spec with ⟨hn, hnone'⟩ | ⟨x', y', hn, hx', hy', hnx, hxy', hny, hall'⟩
  · rw [hm, hn]
  · obtain ⟨hseen, hin⟩ := hnm x' hx' hnx (hxy'.trans hny)
    exact absurd hseen (hnone x' hin.1 hin.2)
  · obtain ⟨hseen, hin⟩ := hmn x hx hmx (hxy.trans hmy)
    exact absurd hseen (hnone' x hin.1 hin.2)
  · -- each bound of the one network is an address of the other
    obtain ⟨hseen, hin⟩ := hmn x hx hmx (hxy.trans hmy)
    obtain ⟨hseen', hin'⟩ := hnm x' hx' hnx (hxy'.trans hny)
    obtain ⟨hseeny, hiny⟩ := hmn y hy (hmx.trans hxy) hmy
    obtain ⟨hseeny', hiny'⟩ := hnm y' hy' (hnx.trans hxy') hny
    rw [hm, hn, Nat.le_antisymm (hall x' hin'.1 hin'.2 hseen').1 (hall' x hin.1 hin.2 hseen).1,
      Nat.le_antisymm (hall' y hiny.1 hiny.2 hseeny).2 (hall y' hiny'.1 hiny'.2 hseeny').2]

end IPNet

/-! ### The library -/

theorem length_bytes (a : NetAddr) : a.bytes.length = 16 := by
  rw [NetAddr.bytes, List.length_reverse, List.length_map]
  exact Nat.length_digitsAppend (by decide) 16 a.isLt

theorem number_bytes (a : NetAddr) : number a.bytes = a := by
  have hsmall : ((Nat.digitsAppend 256 16 a).map UInt8.ofNat).map UInt8.toNat =
      Nat.digitsAppend 256 16 a := by
    rw [List.map_map]
    refine (List.map_congr_left fun d hd => ?_).trans (List.map_id _)
    exact UInt8.toNat_ofNat_of_lt' (Nat.lt_of_mem_digitsAppend (by decide) 16 d hd)
  rw [number, NetAddr.bytes, List.reverse_reverse, hsmall, Nat.digitsAppend,
    Nat.ofDigits_append_replicate_zero, Nat.ofDigits_digits]

/-- A character that stands for itself in the text of an address. -/
def Plain (c : Char) : Prop :=
  Char.ofNat (lowerByte (UInt8.ofNat c.toNat)).toNat = c ∧ ∀ f ∈ spaces, UInt8.ofNat c.toNat ∉ f

theorem plain_ipString (a : NetAddr) : ∀ c ∈ (ipString a.bytes).toList, Plain c := by
  intro c hc
  by_contra hnot
  have hhex : ∀ k < 16, Plain (hexDigit k) := by
    simp only [Plain]
    decide +kernel
  have hdot : Plain '.' := by
    simp only [Plain]
    decide +kernel
  have hcolon : Plain ':' := by
    simp only [Plain]
    decide +kernel
  refine notMem_ipString (c := c) (Bool.eq_false_iff.mpr fun hdigit => hnot ?_)
    (fun k hk heq => hnot (heq ▸ hhex k hk)) (fun heq => hnot (heq ▸ hdot))
    (fun heq => hnot (heq ▸ hcolon)) (.inr (length_bytes a)) hc
  -- a decimal digit is a hexadecimal one
  rw [Char.isDigit, Bool.and_eq_true, decide_eq_true_iff, decide_eq_true_iff] at hdigit
  have hlow : 48 ≤ c.toNat := hdigit.1
  have hhigh : c.toNat ≤ 57 := hdigit.2
  have hc : hexDigit (c.toNat - 48) = c := by
    rw [hexDigit, if_pos (by omega), Nat.add_sub_cancel' hlow, Char.ofNat_toNat]
  exact hc ▸ hhex _ (by omega)

theorem trimSpace_text (a : NetAddr) : trimSpace a.text = a.text := by
  have hplain : ∀ b ∈ a.text, ∀ f ∈ spaces, b ∉ f := by
    intro b hb
    obtain ⟨c, hc, rfl⟩ := List.mem_map.mp hb
    exact (plain_ipString a c hc).2
  have hdrop : ∀ {forms : List Bytes} {s : Bytes}, (∀ f ∈ forms, f ≠ []) →
      (∀ f ∈ forms, ∀ b ∈ f, b ∉ s) → dropSpaces forms 0 s = s := by
    intro forms s hne h
    refine dropSpaces_of_width ((spaceWidth_eq_zero hne).mpr fun f hf hpre => ?_)
    obtain ⟨b, hb⟩ := List.exists_mem_of_ne_nil f (hne f hf)
    exact h f hf b hb (hpre.subset hb)
  rw [trimSpace, hdrop spaces_ne_nil fun f hf b hb hmem => hplain b hmem f hf hb,
    hdrop reversed_spaces_ne_nil, List.reverse_reverse]
  intro f hf b hb hmem
  obtain ⟨g, hg, rfl⟩ := List.mem_map.mp hf
  exact hplain b (List.mem_reverse.mp hmem) g hg (List.mem_reverse.mp hb)

theorem parse_text (a : NetAddr) : NetAddr.parse a.text = some a := by
  have htext : netText a.text = (ipString a.bytes).toList := by
    rw [netText, NetAddr.text, List.map_map]
    exact (List.map_congr_left fun c hc => (plain_ipString a c hc).1).trans (List.map_id _)
  have hbytes : to16 a.bytes = a.bytes := if_neg (by rw [length_bytes]; decide)
  rw [NetAddr.parse, htext, String.ofList_toList, parseIP_ipString (.inr (length_bytes a)), hbytes]
  simp [length_bytes, trimSpace_text, number_bytes]

/-- What is taken of package `strings`: lower case does not change what a text says about a network. -/
structure Lower extends LowerCase where
  parseCIDR_toLower : ∀ s, parseCIDR (toLower s) = parseCIDR s

/-- The library with `net` as it is. -/
def netLib (lower : Lower) : Lib where
  toLowerCase := lower.toLowerCase
  Addr := NetAddr
  parseIP := NetAddr.parse
  trimSpace_of_parseIP s a h := by
    rw [NetAddr.parse] at h
    split at h
    · next hs => exact hs.2
    · cases h
  ipString := NetAddr.text
  ipString_inj a b h := by
    have hparse := congrArg NetAddr.parse h
    rwa [parse_text, parse_text, Option.some.injEq] at hparse
  ipString_ne_nil a h := by
    have hnil : NetAddr.parse [] = none := by decide +kernel
    have hparse := parse_text a
    rw [h, hnil] at hparse
    cases hparse
  isLoopback := NetAddr.isLoopback
  isUnspecified := NetAddr.isUnspecified
  Network := IPNet
  parseCIDR := parseCIDR
  contains := IPNet.contains

theorem parseIP_netLib (lower : Lower) (s : Bytes) :
    (netLib lower).parseIP s = NetAddr.parse s := rfl

/-- Lower case in ASCII. -/
def asciiLower : Lower where
  toLowerCase := asciiCase
  parseCIDR_toLower s := by
    have htext : netText (asciiCase.toLower s) = netText s := by
      simp [netText, asciiCase, lowerByte_lowerByte]
    rw [parseCIDR, htext, ← parseCIDR]

end TaNode.Intel

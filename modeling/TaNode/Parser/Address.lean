import Mathlib.Data.List.TakeWhile
import TaNode.Event.Value
import TaNode.Schemes.Text

/-! The text of a network address: what `net.IP.String` makes of the bytes of an IP header, and what
    `net.ParseIP` makes of a text.

        4 bytes                       10.0.0.1         decimal, dotted
        16 bytes, 0…0 ff ff a b c d   a.b.c.d          the IPv4 address it stands for
        16 bytes                      2001:db8::1      groups of 16 bits in hexadecimal, and the first
                                                       of the longest runs of zeros as two colons

    An IPv4 and an IPv6 address may have the same text. Two addresses of one length do not, as the
    text is read back to the 16 bytes of the address: sessions are kept by text, packets are routed by
    bytes. -/

namespace TaNode

variable {c : Char} {g : List Nat} {b : Bytes}

/-! ### IPv4 -/

/-- `netip.Addr.string4` -/
def dotted (b : Bytes) : String := ".".intercalate (b.map fun x => toString x.toNat)

theorem toList_dotted (b : Bytes) :
    (dotted b).toList = ['.'].intercalate (b.map fun x => (toString x.toNat).toList) := by
  rw [dotted, String.toList_intercalate, List.map_map]
  rfl

/-- A dotted address has digits and dots. -/
theorem notMem_dotted (hc : c.isDigit = false) (hdot : c ≠ '.') (b : Bytes) :
    c ∉ (dotted b).toList := by
  rw [toList_dotted]
  intro h
  rcases of_mem_intercalate h with h | ⟨part, hpart, h⟩
  · exact hdot h
  · obtain ⟨x, -, rfl⟩ := List.mem_map.mp hpart
    exact notMem_toString hc x.toNat h

/-! ### IPv6 -/

/-- `ip.v6u16`: the groups of 16 bits. -/
def groups : Bytes → List Nat
  | hi :: lo :: rest => (hi.toNat * 256 + lo.toNat) :: groups rest
  | _ => []

def hexDigit (k : Nat) : Char :=
  if k < 10 then Char.ofNat (48 + k) else Char.ofNat (87 + k)

/-- `netip.appendHex`: without leading zeros. -/
def appendHex (x : Nat) : List Char :=
  (if x ≥ 0x1000 then [hexDigit (x / 4096)] else []) ++
  (if x ≥ 0x100 then [hexDigit (x / 256 % 16)] else []) ++
  (if x ≥ 0x10 then [hexDigit (x / 16 % 16)] else []) ++ [hexDigit (x % 16)]

/-- Where the zeros that begin at a group end. -/
def zerosEnd (g : List Nat) (i : Nat) : Nat := i + ((g.drop i).takeWhile (· = 0)).length

/-- `zeroStart` and `zeroEnd`: the first of the longest runs of two or more zeros. -/
def zeroRun (g : List Nat) : Nat × Nat :=
  (List.range g.length).foldl (fun (best : Nat × Nat) i =>
    let j := zerosEnd g i
    if j - i ≥ 2 ∧ j - i > best.2 - best.1 then (i, j) else best) (255, 255)

/-- Groups with a colon between any two. -/
def colons (g : List Nat) : List Char := [':'].intercalate (g.map appendHex)

/-- `netip.Addr.string6` -/
def compressed (g : List Nat) : String :=
  let (zeroStart, zeroEnd) := zeroRun g
  String.ofList (
    if zeroStart < 8 then colons (g.take zeroStart) ++ [':', ':'] ++ colons (g.drop zeroEnd)
    else colons g)

theorem notMem_appendHex (hc : ∀ k < 16, hexDigit k ≠ c) {x : Nat} (hx : x < 65536) :
    c ∉ appendHex x := by
  have h₀ := (hc (x % 16) (Nat.mod_lt _ (by decide))).symm
  have h₁ := (hc (x / 16 % 16) (Nat.mod_lt _ (by decide))).symm
  have h₂ := (hc (x / 256 % 16) (Nat.mod_lt _ (by decide))).symm
  have h₃ := (hc (x / 4096) (by omega)).symm
  rw [appendHex]
  split <;> split <;> split <;> simp [h₀, h₁, h₂, h₃]

theorem appendHex_ne_nil (x : Nat) : appendHex x ≠ [] := by
  simp [appendHex]

/-- Two bounds with nothing but zeros between them. -/
def IsGap (g : List Nat) (bounds : Nat × Nat) : Prop :=
  bounds.1 < g.length ∧ bounds.2 ≤ g.length ∧
    ∃ k, g = g.take bounds.1 ++ (List.replicate k 0 ++ g.drop bounds.2)

theorem isGap_zerosEnd {i : Nat} (hi : i < g.length) : IsGap g (i, zerosEnd g i) := by
  obtain ⟨zeros, hzeros⟩ : ∃ zeros, (g.drop i).takeWhile (· = 0) = zeros := ⟨_, rfl⟩
  have hend : zerosEnd g i = i + zeros.length := by rw [zerosEnd, hzeros]
  have hsplit : zeros ++ (g.drop i).dropWhile (· = 0) = g.drop i := by
    rw [← hzeros, List.takeWhile_append_dropWhile]
  have hreplicate : zeros = List.replicate zeros.length 0 := by
    refine List.eq_replicate_length.mpr fun x hx => ?_
    rw [← hzeros] at hx
    simpa using List.mem_takeWhile_imp hx
  have hrest : g.drop (zerosEnd g i) = (g.drop i).dropWhile (· = 0) := by
    rw [hend, ← List.drop_drop, ← hsplit, List.drop_left, hsplit]
  refine ⟨hi, ?_, zeros.length, ?_⟩
  · have hlen := congrArg List.length hsplit
    rw [List.length_append, List.length_drop] at hlen
    dsimp only
    omega
  · dsimp only
    rw [hrest, ← hreplicate, hsplit, List.take_append_drop]

/-- The run that is left out is a gap, and not an empty one. -/
theorem zeroRun_spec (g : List Nat) :
    zeroRun g = (255, 255) ∨ IsGap g (zeroRun g) ∧ (zeroRun g).1 < (zeroRun g).2 := by
  rw [zeroRun]
  refine List.foldlRecOn _ _ (motive := fun best => best = (255, 255) ∨
    IsGap g best ∧ best.1 < best.2) (.inl rfl) ?_
  intro best hbest i hi
  dsimp only
  split
  · next hrun => exact .inr ⟨isGap_zerosEnd (List.mem_range.mp hi), by dsimp only; omega⟩
  · exact hbest

/-- The fields of one side of a gap, between colons: an end of the text has an empty field. -/
def side (g : List Nat) : List (List Char) := if g = [] then [[]] else g.map appendHex

theorem side_ne_nil (g : List Nat) : side g ≠ [] := by
  rw [side]
  split
  · exact List.cons_ne_nil _ _
  · simpa

theorem colons_eq (g : List Nat) : colons g = [':'].intercalate (side g) := by
  rw [side]
  split
  · next h => simp [colons, h]
  · rfl

/-- The fields of a text with a gap. -/
theorem gap_fields (g g' : List Nat) :
    colons g ++ [':', ':'] ++ colons g' = [':'].intercalate (side g ++ [] :: side g') := by
  rw [intercalate_append (List.cons_ne_nil _ _) (side_ne_nil g),
    List.intercalate_cons_of_ne_nil (side_ne_nil g'), colons_eq, colons_eq]
  simp

/-- Before the gap stand the fields up to the first empty one, -/
theorem takeWhile_side (g : List Nat) (rest : List (List Char)) :
    (side g ++ [] :: rest).takeWhile (· ≠ []) = g.map appendHex := by
  have hne : ∀ field ∈ g.map appendHex, decide (field ≠ []) = true := by
    intro field hfield
    obtain ⟨x, -, rfl⟩ := List.mem_map.mp hfield
    simpa using appendHex_ne_nil x
  rw [side]
  split
  · next h => simp [h]
  · rw [List.takeWhile_append_of_pos hne]
    simp

/-- and behind it the fields from the last empty one on. -/
theorem takeWhile_reverse_side (g : List Nat) (rest : List (List Char)) :
    (rest ++ [] :: side g).reverse.takeWhile (· ≠ []) = (g.map appendHex).reverse := by
  have hside : (side g).reverse = side g.reverse := by
    rw [side, side]
    split <;> simp_all
  rw [List.reverse_append, List.reverse_cons, List.append_assoc, List.singleton_append, hside,
    takeWhile_side, List.map_reverse]

/-- The fields of the text of an address, between colons. -/
def fields6 (g : List Nat) : List (List Char) :=
  if (zeroRun g).1 < 8 then side (g.take (zeroRun g).1) ++ [] :: side (g.drop (zeroRun g).2)
  else g.map appendHex

theorem toList_compressed (g : List Nat) :
    (compressed g).toList = [':'].intercalate (fields6 g) := by
  rw [compressed, fields6, String.toList_ofList]
  split
  · exact gap_fields _ _
  · rfl

theorem notMem_groups (hc : ∀ k < 16, hexDigit k ≠ c) (hg : ∀ x ∈ g, x < 65536) :
    ∀ field ∈ g.map appendHex, c ∉ field := by
  intro field hfield
  obtain ⟨x, hx, rfl⟩ := List.mem_map.mp hfield
  exact notMem_appendHex hc (hg x hx)

theorem notMem_fields6 (hc : ∀ k < 16, hexDigit k ≠ c) (hg : ∀ x ∈ g, x < 65536) :
    ∀ field ∈ fields6 g, c ∉ field := by
  have hside : ∀ {g : List Nat}, (∀ x ∈ g, x < 65536) → ∀ field ∈ side g, c ∉ field := by
    intro g hg
    rw [side]
    split
    · simp
    · exact notMem_groups hc hg
  rw [fields6]
  split
  · rw [List.forall_mem_append, List.forall_mem_cons]
    exact ⟨hside fun x hx => hg x (List.mem_of_mem_take hx), List.not_mem_nil,
      hside fun x hx => hg x (List.mem_of_mem_drop hx)⟩
  · exact notMem_groups hc hg

/-- An address has eight groups of 16 bits. -/
structure Groups (g : List Nat) : Prop where
  length : g.length = 8
  small : ∀ x ∈ g, x < 65536

variable {g : List Nat}

theorem isGap_of_lt (hrun : (zeroRun g).1 < 8) :
    IsGap g (zeroRun g) ∧ (zeroRun g).1 < (zeroRun g).2 := by
  rcases zeroRun_spec g with h255 | hgap
  · rw [h255] at hrun
    exact absurd hrun (by decide)
  · exact hgap

theorem Groups.colon_mem (h : Groups g) : ':' ∈ (compressed g).toList := by
  rw [toList_compressed]
  refine mem_intercalate ?_
  rw [fields6]
  split
  · have hpos := List.length_pos_iff.mpr (side_ne_nil (g.drop (zeroRun g).2))
    simp only [List.length_append, List.length_cons]
    omega
  · simp [h.length]

/-! ### Any address -/

/-- `ip.To4` -/
def to4 (ip : Bytes) : Option Bytes :=
  if ip.length = 4 then some ip
  else if ip.length = 16 ∧ ip.take 12 = List.replicate 10 0 ++ [0xff, 0xff] then some (ip.drop 12)
  else none

/-- `net.IP.String` -/
def ipString (ip : Bytes) : String :=
  if ip = [] then "<nil>"
  else if ip.length ≠ 4 ∧ ip.length ≠ 16 then
    "?" ++ String.ofList (ip.flatMap fun b => [hexDigit (b.toNat / 16), hexDigit (b.toNat % 16)])
  else match to4 ip with
    | some p4 => dotted p4
    | none => compressed (groups ip)

example : ipString [0x20, 1, 0xd, 0xb8, 0, 0, 0, 0, 0, 0, 0, 0, 0, 0, 0, 1] = "2001:db8::1" := by
  decide +kernel

theorem groups_length : ∀ b : Bytes, (groups b).length = b.length / 2
  | [] => rfl
  | [_] => by simp [groups]
  | _ :: _ :: rest => by
    rw [groups, List.length_cons, groups_length rest, List.length_cons, List.length_cons]
    omega

theorem groups_small : ∀ b : Bytes, ∀ x ∈ groups b, x < 65536
  | [], _, h => by cases h
  | [_], _, h => by cases h
  | hi :: lo :: rest, x, h => by
    rcases List.mem_cons.mp h with rfl | h
    · have hhi := hi.toNat_lt
      have hlo := lo.toNat_lt
      omega
    · exact groups_small rest x h

theorem groups_of_16 (h : b.length = 16) : Groups (groups b) :=
  ⟨by rw [groups_length, h], groups_small b⟩

theorem ipString_4 (hb : b.length = 4) : ipString b = dotted b := by
  have hne : b ≠ [] := List.ne_nil_of_length_eq_add_one hb
  simp [ipString, to4, hb, hne]

theorem ipString_16 (hb : b.length = 16) :
    ipString b = if b.take 12 = List.replicate 10 0 ++ [0xff, 0xff] then dotted (b.drop 12)
      else compressed (groups b) := by
  have hne : b ≠ [] := List.ne_nil_of_length_eq_add_one hb
  rw [ipString, if_neg hne, if_neg (by omega), to4, if_neg (by omega)]
  split
  · next h => simp_all
  · next h => simp_all

/-- The text of an address has hexadecimal digits, dots and colons. -/
theorem notMem_ipString (hdigit : c.isDigit = false) (hhex : ∀ k < 16, hexDigit k ≠ c)
    (hdot : c ≠ '.') (hcolon : c ≠ ':') (hb : b.length = 4 ∨ b.length = 16) :
    c ∉ (ipString b).toList := by
  have hne : b ≠ [] := by
    rintro rfl
    simp at hb
  rw [ipString, if_neg hne, if_neg (by omega)]
  split
  · exact notMem_dotted hdigit hdot _
  · rw [toList_compressed]
    intro h
    rcases of_mem_intercalate h with h | ⟨field, hfield, h⟩
    · exact hcolon h
    · exact notMem_fields6 hhex (groups_small b) field hfield h

/-! ### Reading an address -/

/-- One number of a dotted address, in decimal and without leading zeros. -/
def octet (part : List Char) : Option UInt8 :=
  ((List.range 256).find? fun n => (toString n).toList = part).map UInt8.ofNat

/-- `netip.parseIPv4` -/
def parseIPv4 (text : List Char) : Option Bytes :=
  ((text.splitOn '.').mapM octet).filter (·.length = 4)

def hexDigitValue (c : Char) : Option Nat :=
  if '0' ≤ c ∧ c ≤ '9' then some (c.toNat - 48)
  else if 'a' ≤ c ∧ c ≤ 'f' then some (c.toNat - 87)
  else if 'A' ≤ c ∧ c ≤ 'F' then some (c.toNat - 55)
  else none

/-- A group of one to four hexadecimal digits. -/
def hexGroup (field : List Char) : Option Nat :=
  if field = [] ∨ 4 < field.length then none
  else field.foldlM (fun n c => (hexDigitValue c).map (n * 16 + ·)) 0

/-- The groups at the end of a text, where a dotted address may stand for the last two. -/
def lastGroups : List (List Char) → Option (List Nat)
  | [] => some []
  | [field] =>
    if '.' ∈ field then (parseIPv4 field).map groups else (hexGroup field).map ([·])
  | field :: rest => do
    let x ← hexGroup field
    let xs ← lastGroups rest
    return x :: xs

/-- One side of two colons in a row: an end of the text has an empty field. -/
def padded (fields : List (List Char)) : List (List Char) := if fields = [] then [[]] else fields

/-- `netip.parseIPv6` on the fields between colons: two colons in a row, at most once, stand for the
    groups that are missing. -/
def parseIPv6 (fields : List (List Char)) : Option (List Nat) :=
  if [] ∉ fields then (lastGroups fields).filter (·.length = 8)
  else do
    let front := fields.takeWhile (· ≠ [])
    let back := (fields.reverse.takeWhile (· ≠ [])).reverse
    let xs ← front.mapM hexGroup
    let ys ← lastGroups back
    if fields = padded front ++ [] :: padded back ∧ xs.length + ys.length < 8 then
      some (xs ++ (List.replicate (8 - xs.length - ys.length) 0 ++ ys))
    else none

/-- `ip.As16` of a sequence of groups. -/
def ungroup (g : List Nat) : Bytes := g.flatMap fun x => [UInt8.ofNat (x / 256), UInt8.ofNat x]

/-- `ip.To16` -/
def to16 (ip : Bytes) : Bytes :=
  if ip.length = 4 then List.replicate 10 0 ++ [0xff, 0xff] ++ ip else ip

/-- `net.ParseIP`, without bytes for a text that is no address or has a zone. -/
def parseIP (s : String) : Bytes :=
  match s.toList.find? (· ∈ ['.', ':', '%']) with
  | some '.' => ((parseIPv4 s.toList).map to16).getD []
  | some ':' => ((parseIPv6 (s.toList.splitOn ':')).map ungroup).getD []
  | _ => []

theorem octet_toString (x : UInt8) : octet (toString x.toNat).toList = some x := by
  have hfind : (List.range 256).find? (fun n => (toString n).toList = (toString x.toNat).toList) =
      some x.toNat := by
    refine List.find?_range_eq_some.mpr ⟨by simp, List.mem_range.mpr x.toNat_lt, fun j hj => ?_⟩
    have hne : (toString j).toList ≠ (toString x.toNat).toList := fun h => hj.ne (toString_inj h)
    simpa using hne
  rw [octet, hfind]
  simp

theorem parseIPv4_dotted (hb : b.length = 4) : parseIPv4 (dotted b).toList = some b := by
  have hparts : ∀ part ∈ b.map (fun x => (toString x.toNat).toList), '.' ∉ part := by
    intro part hpart
    obtain ⟨x, -, rfl⟩ := List.mem_map.mp hpart
    exact notMem_toString (by decide) x.toNat
  have hmap : ∀ b : Bytes, (b.map fun x => (toString x.toNat).toList).mapM octet = some b := by
    intro b
    induction b with
    | nil => rfl
    | cons x b ih =>
      rw [List.map_cons, List.mapM_cons, octet_toString, ih]
      rfl
  have hne : b ≠ [] := List.ne_nil_of_length_eq_add_one hb
  rw [parseIPv4, toList_dotted, List.splitOn_intercalate '.' hparts (by simpa using hne), hmap]
  simp [hb]

theorem hexDigitValue_hexDigit : ∀ k < 16, hexDigitValue (hexDigit k) = some k := by decide

theorem hexGroup_appendHex {x : Nat} (hx : x < 65536) : hexGroup (appendHex x) = some x := by
  have h₀ := hexDigitValue_hexDigit (x % 16) (Nat.mod_lt _ (by decide))
  have h₁ := hexDigitValue_hexDigit (x / 16 % 16) (Nat.mod_lt _ (by decide))
  have h₂ := hexDigitValue_hexDigit (x / 256 % 16) (Nat.mod_lt _ (by decide))
  have h₃ := hexDigitValue_hexDigit (x / 4096) (by omega)
  rw [appendHex, hexGroup]
  split <;> split <;> split <;> simp [h₀, h₁, h₂, h₃] <;> omega

theorem mapM_hexGroup (hg : ∀ x ∈ g, x < 65536) : (g.map appendHex).mapM hexGroup = some g := by
  induction g with
  | nil => rfl
  | cons x g ih =>
    obtain ⟨hx, hg⟩ := List.forall_mem_cons.mp hg
    simp [hexGroup_appendHex hx, ih hg]

theorem lastGroups_map : ∀ {g : List Nat}, (∀ x ∈ g, x < 65536) →
    lastGroups (g.map appendHex) = some g
  | [], _ => rfl
  | [x], hg => by
    have hx := hg x (List.mem_singleton_self x)
    rw [List.map_singleton, lastGroups, if_neg (notMem_appendHex (by decide) hx),
      hexGroup_appendHex hx]
    rfl
  | x :: y :: g, hg => by
    obtain ⟨hx, hg⟩ := List.forall_mem_cons.mp hg
    rw [List.map_cons, List.map_cons, lastGroups, hexGroup_appendHex hx]
    · rw [← List.map_cons, lastGroups_map hg]
      rfl
    · simp

theorem side_eq_padded (g : List Nat) : side g = padded (g.map appendHex) := by
  rw [side, padded]
  simp only [List.map_eq_nil_iff]

theorem parseIPv6_fields6 (h : Groups g) : parseIPv6 (fields6 g) = some g := by
  rw [parseIPv6, fields6]
  split
  · next hrun =>
    obtain ⟨⟨hfirst, hlast, k, hk⟩, hlt⟩ := isGap_of_lt hrun
    have hlen := congrArg List.length hk
    have htake := mapM_hexGroup fun x hx => h.small x (List.mem_of_mem_take (i := (zeroRun g).1) hx)
    have hdrop := lastGroups_map fun x hx => h.small x (List.mem_of_mem_drop (i := (zeroRun g).2) hx)
    rw [if_neg (by simp), takeWhile_side, takeWhile_reverse_side, List.reverse_reverse]
    dsimp only
    rw [htake, hdrop]
    simp only [List.length_append, List.length_replicate, List.length_take, List.length_drop,
      h.length] at hlen hfirst hlast
    simp only [Option.bind_eq_bind, Option.bind_some, ← side_eq_padded, true_and, List.length_take,
      List.length_drop, h.length]
    rw [if_pos (by omega), show 8 - min (zeroRun g).1 8 - (8 - (zeroRun g).2) = k by omega, ← hk]
  · have hfull : [] ∉ g.map appendHex := by
      intro hmem
      obtain ⟨x, -, hx⟩ := List.mem_map.mp hmem
      exact appendHex_ne_nil x hx
    rw [if_pos hfull, lastGroups_map h.small]
    simp [h.length]

theorem ungroup_groups : ∀ {b : Bytes}, 2 ∣ b.length → ungroup (groups b) = b
  | [], _ => rfl
  | [_], h => by simp at h
  | hi :: lo :: rest, h => by
    have hhi := hi.toNat_lt
    have hlo := lo.toNat_lt
    have hrest := @ungroup_groups rest (by simp only [List.length_cons] at h; omega)
    rw [ungroup] at hrest ⊢
    rw [groups, List.flatMap_cons, hrest]
    simp only [List.cons_append, List.nil_append, List.cons.injEq, and_true]
    exact ⟨UInt8.toNat_inj.mp (by simp; omega), UInt8.toNat_inj.mp (by simp)⟩

/-- The first mark of a text with marks of one kind. -/
theorem find_mark {l marks : List Char} (hc : c ∈ l) (hmark : c ∈ marks)
    (honly : ∀ d ∈ marks, d ∈ l → d = c) : l.find? (· ∈ marks) = some c := by
  cases hfind : l.find? (· ∈ marks) with
  | none => exact absurd hmark (by simpa using List.find?_eq_none.mp hfind c hc)
  | some d =>
    rw [honly d (by simpa using List.find?_some hfind) (List.mem_of_find?_eq_some hfind)]

theorem parseIP_dotted (hb : b.length = 4) : parseIP (dotted b) = to16 b := by
  have hdot : '.' ∈ (dotted b).toList := by
    rw [toList_dotted]
    exact mem_intercalate (by rw [List.length_map, hb]; decide)
  have hdigit : ∀ d ∈ ['.', ':', '%'], d.isDigit = false := by simp
  have honly : ∀ d ∈ ['.', ':', '%'], d ∈ (dotted b).toList → d = '.' := by
    intro d hd hmem
    by_contra hne
    exact notMem_dotted (hdigit d hd) hne b hmem
  rw [parseIP, find_mark hdot (by decide) honly]
  simp [parseIPv4_dotted hb]

theorem parseIP_compressed (hb : b.length = 16) : parseIP (compressed (groups b)) = b := by
  have hgroups := groups_of_16 hb
  have hfields := notMem_fields6 (c := ':') (by decide) hgroups.small
  have hne : fields6 (groups b) ≠ [] := by
    intro hnil
    have hmem := hgroups.colon_mem
    rw [toList_compressed, hnil] at hmem
    exact List.not_mem_nil hmem
  have hdigit : ∀ k < 16, hexDigit k ∉ ['.', ':', '%'] := by decide
  have honly : ∀ d ∈ ['.', ':', '%'], d ∈ (compressed (groups b)).toList → d = ':' := by
    intro d hd hmem
    rw [toList_compressed] at hmem
    rcases of_mem_intercalate hmem with heq | ⟨field, hfield, hmem⟩
    · exact heq
    · have hhex : ∀ k < 16, hexDigit k ≠ d := fun k hk heq => hdigit k hk (heq ▸ hd)
      exact absurd hmem (notMem_fields6 hhex hgroups.small field hfield)
  rw [parseIP, find_mark hgroups.colon_mem (by decide) honly]
  simp only [toList_compressed, List.splitOn_intercalate ':' hfields hne, parseIPv6_fields6 hgroups,
    Option.map_some, Option.getD_some]
  exact ungroup_groups (by rw [hb]; decide)

/-- `net.ParseIP` reads what `net.IP.String` writes. -/
theorem parseIP_ipString (hb : b.length = 4 ∨ b.length = 16) : parseIP (ipString b) = to16 b := by
  rcases hb with hb | hb
  · rw [ipString_4 hb, parseIP_dotted hb]
  · rw [ipString_16 hb, show to16 b = b from if_neg (by omega)]
    split
    · next hmapped =>
      rw [parseIP_dotted (by rw [List.length_drop, hb]), to16, if_pos (by rw [List.length_drop, hb]),
        ← hmapped, List.take_append_drop]
    · exact parseIP_compressed hb

/-- An IPv4 address has the text of its 16 bytes. -/
theorem ipString_to16 (hb : b.length = 4 ∨ b.length = 16) : ipString (to16 b) = ipString b := by
  rcases hb with hb | hb
  · rw [to16, if_pos hb, ipString_16 (by simp [hb]), if_pos (by simp), ipString_4 hb]
    simp
  · rw [to16, if_neg (by omega)]

/-- Two addresses of one length with one text are one address. -/
theorem ipString_inj {a : Bytes} (ha : a.length = 4 ∨ a.length = 16) (hlen : a.length = b.length)
    (h : ipString a = ipString b) : a = b := by
  have hread := congrArg parseIP h
  rw [parseIP_ipString ha, parseIP_ipString (hlen ▸ ha), to16, to16, ← hlen] at hread
  split at hread
  · exact List.append_cancel_left hread
  · exact hread

end TaNode

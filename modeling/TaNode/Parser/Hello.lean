import TaNode.Parser.Feature
import TaNode.Schemes.Prefixed

/-! The server name of a TLS ClientHello: which byte strings `tlsClientHelloSNI` accepts.

    A ClientHello is lengths inside lengths, and the segment may end anywhere:

        record      16 │ version, length │ handshake
        handshake   01 │ length │ version, random │ session id │ suites │ compression │ block
        block       length │ extension │ extension │ …          (type, length, data)
        data        length │ entry │ entry │ …                  (type, length, name)

    The two inner loops are both a walk over tagged fields that looks for the first of a kind. A
    `Greeting` is a ClientHello taken apart as far as its first host name; the parser returns a name
    exactly for the bytes of a `Greeting`, and it reads no byte out of range. -/

namespace TaNode
open Prefixed

variable {s : Bytes} {i : Nat} {f : Bytes → Option Bytes}

/-! ### Reads in range -/

theorem sliceFrom_of_le {n : Nat} (h : n ≤ s.length) : sliceFrom s n = .ok (s.drop n) := if_pos h

theorem sliceTo_of_le {n : Nat} (h : n ≤ s.length) : sliceTo s n = .ok (s.take n) :=
  if_pos h

theorem byteAt_of_lt (h : i < s.length) : byteAt s i = .ok (s.get ⟨i, h⟩) := by
  rw [byteAt, List.getElem?_eq_getElem h]
  rfl

/-- A byte is a number of one byte. -/
theorem byteAt_value (h : i < s.length) :
    ∃ b, byteAt s i = .ok b ∧ (s.drop i).take 1 = [b] ∧ b.toNat = value ((s.drop i).take 1) := by
  have htake : (s.drop i).take 1 = [s.get ⟨i, h⟩] := by
    rw [List.drop_eq_getElem_cons h]
    rfl
  refine ⟨_, byteAt_of_lt h, htake, ?_⟩
  rw [htake, value, List.foldl_cons, List.foldl_nil, Nat.zero_mul, Nat.zero_add]

theorem bigEndian16_value (h : i + 1 < s.length) :
    bigEndian16 s i = .ok (value ((s.drop i).take 2)) := by
  have htake : (s.drop i).take 2 = [s.get ⟨i, by omega⟩, s.get ⟨i + 1, h⟩] := by
    rw [List.drop_eq_getElem_cons (by omega), List.drop_eq_getElem_cons h]
    rfl
  rw [bigEndian16, byteAt_of_lt (by omega), byteAt_of_lt h, htake, value, List.foldl_cons,
    List.foldl_cons, List.foldl_nil, Nat.zero_mul, Nat.zero_add]
  rfl

theorem bigEndian16_front (h : 2 ≤ s.length) : bigEndian16 s 0 = .ok (value (s.take 2)) :=
  bigEndian16_value h

/-- A list behind its two length bytes, cut to that length and handed on. -/
theorem readCounted (s : Bytes) (k : Bytes → Except Panic (Option Bytes))
    (hk : ∀ s, k s = .ok (f s)) :
    (do
      if s.length < 2 then
        return none
      let n ← bigEndian16 s 0
      let s ← sliceFrom s 2
      let s ← if s.length > n then sliceTo s n else pure s
      k s) = .ok ((counted 2 s).bind f) := by
  rw [counted]
  by_cases hshort : s.length < 2
  · rw [if_pos hshort, if_neg (by omega)]
    rfl
  · rw [if_neg hshort, if_pos (by omega), bigEndian16_value (by omega), sliceFrom_of_le (by omega),
      List.drop_zero, Option.bind_some]
    simp only [bind, Except.bind, hk]
    split
    · rw [sliceTo_of_le (by omega)]
    · rw [List.take_of_length_le (by omega)]
      rfl

/-! ### The loops -/

/-- A name entry that ends the inner loop. -/
def isHostName (entry : Bytes × Bytes) : Bool := entry.1 = [0] ∧ entry.2 ≠ []

/-- The first host name of a name list. -/
def hostName (list : Bytes) : Option Bytes :=
  ((items 1 2 list.length list).find? isHostName).map fun entry => trimDot entry.2

/-- The first host name of the first server name extension. -/
def blockName (block : Bytes) : Option Bytes :=
  ((items 2 2 block.length block).find? (·.1 = [0, 0])).bind fun ext =>
    (counted 2 ext.2).bind hostName

/-- The inner loop is a search through the entries. -/
theorem serverName_eq : ∀ rounds ext, serverName rounds ext =
    .ok (((items 1 2 rounds ext).find? isHostName).map fun entry => trimDot entry.2)
  | 0, _ => rfl
  | rounds + 1, ext => by
    rw [serverName, items_succ (by decide)]
    by_cases hshort : ext.length < 3
    · rw [if_pos hshort, if_pos (.inl hshort)]
      rfl
    · obtain ⟨t, hbyte, htake, -⟩ := byteAt_value (s := ext) (i := 0) (by omega)
      rw [List.drop_zero] at htake
      rw [if_neg hshort, hbyte, bigEndian16_value (by omega), sliceFrom_of_le (by omega), htake]
      simp only [bind, Except.bind]
      generalize value ((ext.drop 1).take 2) = n
      by_cases hlong : (ext.drop 3).length < n
      · rw [if_pos hlong, if_pos (.inr hlong)]
        rfl
      · rw [if_neg hlong, if_neg (not_or_intro hshort hlong), sliceTo_of_le (by omega),
          sliceFrom_of_le (by omega)]
        have hbody : ((ext.drop 3).take n).length = n := by rw [List.length_take]; omega
        by_cases hhost : t = 0 ∧ n > 0
        · have hne : (ext.drop 3).take n ≠ [] := List.ne_nil_of_length_pos (by omega)
          rw [List.find?_cons_of_pos (by simp [isHostName, hhost.1, hne])]
          exact if_pos hhost
        · have hnot : ¬ isHostName ([t], (ext.drop 3).take n) = true := by
            rw [isHostName, decide_eq_true_iff]
            rintro ⟨ht, hne⟩
            exact hhost ⟨List.singleton_inj.mp ht, hbody ▸ List.length_pos_of_ne_nil hne⟩
          rw [List.find?_cons_of_neg hnot, ← serverName_eq rounds]
          exact if_neg hhost

theorem value_two_eq_zero (h : s.length = 2) : value s = 0 ↔ s = [0, 0] := by
  constructor
  · intro hzero
    rw [← number_value s, h, hzero]
    rfl
  · rintro rfl
    rfl

/-- The outer loop is a search through the extensions. -/
theorem extensions_eq : ∀ rounds b, extensions rounds b =
    .ok (((items 2 2 rounds b).find? (·.1 = [0, 0])).bind fun ext =>
      (counted 2 ext.2).bind hostName)
  | 0, _ => rfl
  | rounds + 1, b => by
    rw [extensions, items_succ (by decide)]
    by_cases hshort : b.length < 4
    · rw [if_pos hshort, if_pos (.inl hshort)]
      rfl
    · have htype : (b.take 2).length = 2 := by rw [List.length_take]; omega
      rw [if_neg hshort, bigEndian16_value (by omega), bigEndian16_value (by omega),
        sliceFrom_of_le (by omega), List.drop_zero]
      simp only [bind, Except.bind]
      generalize value ((b.drop 2).take 2) = n
      by_cases hlong : (b.drop 4).length < n
      · rw [if_pos hlong, if_pos (.inr hlong)]
        rfl
      · rw [if_neg hlong, if_neg (not_or_intro hshort hlong), sliceTo_of_le (by omega),
          sliceFrom_of_le (by omega)]
        by_cases hzero : b.take 2 = [0, 0]
        · rw [List.find?_cons_of_pos (by simpa using hzero)]
          refine (if_neg (not_not_intro ((value_two_eq_zero htype).mpr hzero))).trans ?_
          exact readCounted _ _ fun list => serverName_eq _ list
        · have hne : value (b.take 2) ≠ 0 := fun h => hzero ((value_two_eq_zero htype).mp h)
          rw [List.find?_cons_of_neg (by simpa using hzero), ← extensions_eq rounds]
          exact if_pos hne

/-- A field behind its length, stepped over. -/
theorem skipHeaded (w : Nat) (b : Bytes) {n : Except Panic Nat} {k : Bytes → Except Panic (Option Bytes)}
    (hn : w ≤ b.length → n = .ok (value (b.take w))) (hk : ∀ s, k s = .ok (f s)) :
    (do
      if b.length < w then
        return none
      let n ← n
      if b.length < w + n then
        return none
      let b ← sliceFrom b (w + n)
      k b) = .ok ((headed w b).bind fun x => f x.2) := by
  rw [headed]
  by_cases hempty : b.length < w
  · rw [if_pos hempty, if_neg (by omega)]
    rfl
  · rw [if_neg hempty, hn (by omega)]
    simp only [bind, Except.bind]
    by_cases hshort : b.length < w + value (b.take w)
    · rw [if_pos hshort, if_neg (by omega)]
      rfl
    · rw [if_neg hshort, if_pos (by omega), sliceFrom_of_le (by omega)]
      simp only [hk]
      rfl

/-- A field behind its length in one byte, stepped over. -/
theorem skipField (b : Bytes) (k : Bytes → Except Panic (Option Bytes)) (hk : ∀ s, k s = .ok (f s)) :
    (do
      if b.length < 1 then
        return none
      let n := (← byteAt b 0).toNat
      if b.length < 1 + n then
        return none
      let b ← sliceFrom b (1 + n)
      k b) = .ok ((headed 1 b).bind fun x => f x.2) := by
  refine Eq.trans ?_ (skipHeaded 1 b (n := (byteAt b 0).map UInt8.toNat) (fun h => ?_) hk)
  · cases byteAt b 0 <;> rfl
  · obtain ⟨t, hbyte, -, hvalue⟩ := byteAt_value (s := b) (i := 0) h
    rw [List.drop_zero] at hvalue
    rw [hbyte, ← hvalue]
    rfl

/-- The host name of a message body, from the session id on. -/
def bodyName (b : Bytes) : Option Bytes :=
  (headed 1 b).bind fun x => (headed 2 x.2).bind fun x => (headed 1 x.2).bind fun x =>
    (counted 2 x.2).bind blockName

/-- The host name of a ClientHello, without the reads that could fail. -/
def helloName (p : Bytes) : Option Bytes :=
  if 43 ≤ p.length ∧ p[0]? = some 0x16 ∧ p[5]? = some 0x01 then bodyName (p.drop 43) else none

theorem tlsClientHelloSNI_eq (p : Bytes) : tlsClientHelloSNI p = .ok (helloName p) := by
  rw [tlsClientHelloSNI, helloName]
  by_cases hrecord : p.length < 5 ∨ p[0]? ≠ some 0x16
  · rw [if_pos hrecord, if_neg (by rintro ⟨hlen, htype, -⟩; exact hrecord.elim (by omega) (· htype))]
    rfl
  · obtain ⟨hlen, htype⟩ := not_or.mp hrecord
    rw [if_neg hrecord, sliceFrom_of_le (by omega)]
    simp only [bind, Except.bind]
    have hindex : (p.drop 5)[0]? = p[5]? := by rw [List.getElem?_drop]
    by_cases hhello : (p.drop 5).length < 4 ∨ (p.drop 5)[0]? ≠ some 0x01
    · rw [if_pos hhello, if_neg]
      · rfl
      · rintro ⟨hlong, -, hkind⟩
        rcases hhello with hhello | hhello
        · rw [List.length_drop] at hhello
          omega
        · exact hhello (hindex.trans hkind)
    · obtain ⟨hlen', hkind⟩ := not_or.mp hhello
      rw [if_neg hhello, sliceFrom_of_le (by omega)]
      simp only []
      by_cases hrandom : ((p.drop 5).drop 4).length < 34
      · rw [if_pos hrandom, if_neg]
        · rfl
        · rintro ⟨hlong, -⟩
          rw [List.length_drop, List.length_drop] at hrandom
          omega
      · rw [if_neg hrandom, sliceFrom_of_le (by omega), if_pos]
        · rw [List.drop_drop, List.drop_drop]
          exact skipField _ _ fun b => skipHeaded 2 _ bigEndian16_front fun b => skipField _ _ fun b =>
            readCounted _ _ fun b => extensions_eq _ b
        · rw [List.length_drop, List.length_drop] at hrandom
          exact ⟨by omega, not_not.mp htype, hindex ▸ not_not.mp hkind⟩

/-! ### The grammar -/

/-- The data of a server name extension, taken apart as far as its first host name. -/
structure NameList where
  /-- The declared length. -/
  length : Nat
  /-- The entries in front of the host name, as type and name. -/
  skipped : List (Bytes × Bytes)
  name : Bytes
  /-- What follows the host name. -/
  rest : Bytes
  length_fits : length < 256 ^ 2
  skipped_fits : ∀ entry ∈ skipped, Fits 1 2 entry ∧ ¬ (entry.1 = [0] ∧ entry.2 ≠ [])
  name_fits : name ≠ [] ∧ name.length < 256 ^ 2
  inside : ((skipped ++ [([0], name)]).flatMap (tagged 2)).length ≤ length

def NameList.data (l : NameList) : Bytes :=
  number 2 l.length ++ ((l.skipped ++ [([0], l.name)]).flatMap (tagged 2) ++ l.rest)

/-- A ClientHello, taken apart as far as its first host name. -/
structure Greeting where
  /-- Version and length of the record. -/
  recordHead : Bytes
  /-- Length of the handshake message. -/
  helloHead : Bytes
  /-- Version and random. -/
  random : Bytes
  sessionID : Bytes
  cipherSuites : Bytes
  compression : Bytes
  /-- The declared length of the extension block. -/
  blockLength : Nat
  /-- The extensions in front of the server name, as type and data. -/
  others : List (Bytes × Bytes)
  names : NameList
  /-- What follows the server name extension. -/
  rest : Bytes
  recordHead_length : recordHead.length = 4
  helloHead_length : helloHead.length = 3
  random_length : random.length = 34
  sessionID_fits : sessionID.length < 256 ^ 1
  cipherSuites_fits : cipherSuites.length < 256 ^ 2
  compression_fits : compression.length < 256 ^ 1
  blockLength_fits : blockLength < 256 ^ 2
  others_fits : ∀ ext ∈ others, Fits 2 2 ext ∧ ext.1 ≠ [0, 0]
  names_fits : names.data.length < 256 ^ 2
  inside : ((others ++ [([0, 0], names.data)]).flatMap (tagged 2)).length ≤ blockLength

def Greeting.bytes (g : Greeting) : Bytes :=
  [0x16] ++ g.recordHead ++ [0x01] ++ g.helloHead ++ g.random ++
    (sized 1 g.sessionID ++ (sized 2 g.cipherSuites ++ (sized 1 g.compression ++
      (number 2 g.blockLength ++
        ((g.others ++ [([0, 0], g.names.data)]).flatMap (tagged 2) ++ g.rest)))))

theorem isHostName_iff {entry : Bytes × Bytes} :
    isHostName entry = true ↔ entry.1 = [0] ∧ entry.2 ≠ [] := by rw [isHostName, decide_eq_true_iff]

theorem hostName_eq_some {list h : Bytes} : hostName list = some h ↔
    ∃ skipped name, (∀ entry ∈ skipped, Fits 1 2 entry ∧ ¬ (entry.1 = [0] ∧ entry.2 ≠ [])) ∧
      (name ≠ [] ∧ name.length < 256 ^ 2) ∧
      (skipped ++ [([0], name)]).flatMap (tagged 2) <+: list ∧ h = trimDot name := by
  rw [hostName, Option.map_eq_some_iff]
  constructor
  · rintro ⟨⟨tag, name⟩, hfind, rfl⟩
    obtain ⟨hhost, l, hpass, hfits, hpre⟩ := (find_items (by decide) (Nat.le_refl _)).mp hfind
    obtain ⟨rfl, hne⟩ := isHostName_iff.mp hhost
    refine ⟨l, name, fun entry hentry => ⟨hfits _ (List.mem_append_left _ hentry), ?_⟩,
      ⟨hne, (hfits ([0], name) (by simp)).body⟩, hpre, rfl⟩
    rw [← isHostName_iff, hpass entry hentry]
    exact Bool.false_ne_true
  · rintro ⟨skipped, name, hskipped, hname, hpre, rfl⟩
    refine ⟨([0], name), (find_items (by decide) (Nat.le_refl _)).mpr
      ⟨isHostName_iff.mpr ⟨rfl, hname.1⟩, skipped, ?_, ?_, hpre⟩, rfl⟩
    · intro entry hentry
      rw [← Bool.not_eq_true, isHostName_iff]
      exact (hskipped entry hentry).2
    · rw [List.forall_mem_append, List.forall_mem_singleton]
      exact ⟨fun entry hentry => (hskipped entry hentry).1, rfl, hname.2⟩

/-- The data of a server name extension yields a name if it can be taken apart. -/
theorem serverNameData_iff {data h : Bytes} : (counted 2 data).bind hostName = some h ↔
    ∃ l : NameList, data = l.data ∧ h = trimDot l.name := by
  rw [Option.bind_eq_some_iff]
  constructor
  · rintro ⟨list, hlist, hname⟩
    obtain ⟨n, behind, hn, rfl, rfl⟩ := counted_eq_some.mp hlist
    obtain ⟨skipped, name, hskipped, hfits, hpre, rfl⟩ := hostName_eq_some.mp hname
    obtain ⟨⟨rest, rfl⟩, hinside⟩ := List.prefix_take_iff.mp hpre
    exact ⟨⟨n, skipped, name, rest, hn, hskipped, hfits, hinside⟩, rfl, rfl⟩
  · rintro ⟨l, rfl, rfl⟩
    refine ⟨_, counted_number l.length_fits _, hostName_eq_some.mpr
      ⟨l.skipped, l.name, l.skipped_fits, l.name_fits, ?_, rfl⟩⟩
    exact List.prefix_take_iff.mpr ⟨List.prefix_append _ _, l.inside⟩

theorem blockName_eq_some {block h : Bytes} : blockName block = some h ↔
    ∃ others, ∃ l : NameList, (∀ ext ∈ others, Fits 2 2 ext ∧ ext.1 ≠ [0, 0]) ∧
      l.data.length < 256 ^ 2 ∧
      (others ++ [([0, 0], l.data)]).flatMap (tagged 2) <+: block ∧ h = trimDot l.name := by
  rw [blockName, Option.bind_eq_some_iff]
  constructor
  · rintro ⟨⟨type, data⟩, hfind, hdata⟩
    obtain ⟨l, rfl, rfl⟩ := serverNameData_iff.mp hdata
    obtain ⟨htype, others, hpass, hfits, hpre⟩ := (find_items (by decide) (Nat.le_refl _)).mp hfind
    obtain rfl : type = [0, 0] := by simpa using htype
    refine ⟨others, l, fun ext hext => ⟨hfits _ (List.mem_append_left _ hext), ?_⟩,
      (hfits ([0, 0], l.data) (by simp)).body, hpre, rfl⟩
    simpa using hpass ext hext
  · rintro ⟨others, l, hothers, hfits, hpre, rfl⟩
    refine ⟨([0, 0], l.data), (find_items (by decide) (Nat.le_refl _)).mpr
      ⟨by simp, others, fun ext hext => ?_, ?_, hpre⟩, serverNameData_iff.mpr ⟨l, rfl, rfl⟩⟩
    · simpa using (hothers ext hext).2
    · rw [List.forall_mem_append, List.forall_mem_singleton]
      exact ⟨fun ext hext => (hothers ext hext).1, rfl, hfits⟩

/-- The fixed part in front of the session id. -/
theorem helloName_append {a b c body : Bytes} (ha : a.length = 4) (hb : b.length = 3)
    (hc : c.length = 34) :
    helloName ([0x16] ++ a ++ [0x01] ++ b ++ c ++ body) = bodyName body := by
  have hfront : ([0x16] ++ a ++ [0x01] ++ b ++ c : Bytes).length = 43 := by simp [ha, hb, hc]
  rw [helloName, if_pos, List.drop_left' hfront]
  refine ⟨by rw [List.length_append]; omega, by simp, ?_⟩
  have hfive : ([0x16] ++ a : Bytes).length = 5 := by simp [ha]
  simp only [List.append_assoc ([0x16] ++ a)]
  rw [List.getElem?_append_right (by omega), hfive]
  rfl

/-- A byte that is known, and what follows it. -/
theorem drop_of_getElem? {b : UInt8} (h : s[i]? = some b) : s.drop i = [b] ++ s.drop (i + 1) := by
  obtain ⟨hi, rfl⟩ := List.getElem?_eq_some_iff.mp h
  exact List.drop_eq_getElem_cons hi

theorem exists_of_helloName {p h : Bytes} (hp : helloName p = some h) :
    ∃ a b c body : Bytes, a.length = 4 ∧ b.length = 3 ∧ c.length = 34 ∧
      p = [0x16] ++ a ++ [0x01] ++ b ++ c ++ body ∧ bodyName body = some h := by
  rw [helloName, Option.ite_none_right_eq_some] at hp
  obtain ⟨⟨hlen, hrecord, hkind⟩, hname⟩ := hp
  have hsplit : ∀ i k, (p.drop i).take k ++ p.drop (i + k) = p.drop i := by
    intro i k
    rw [← List.drop_drop, List.take_append_drop]
  have hwidth : ∀ i k, i + k ≤ p.length → ((p.drop i).take k).length = k := by
    intro i k h
    rw [List.length_take, List.length_drop]
    omega
  refine ⟨(p.drop 1).take 4, (p.drop 6).take 3, (p.drop 9).take 34, p.drop 43,
    hwidth _ _ (by omega), hwidth _ _ (by omega), hwidth _ _ (by omega), ?_, hname⟩
  simp only [List.append_assoc]
  rw [hsplit 9 34, hsplit 6 3, ← drop_of_getElem? hkind, hsplit 1 4, ← drop_of_getElem? hrecord,
    List.drop_zero]

theorem helloName_eq_some {p h : Bytes} :
    helloName p = some h ↔ ∃ g : Greeting, p = g.bytes ∧ h = trimDot g.names.name := by
  constructor
  · intro hp
    obtain ⟨a, b, c, body, ha, hb, hc, rfl, hbody⟩ := exists_of_helloName hp
    simp only [bodyName, Option.bind_eq_some_iff, Prod.exists] at hbody
    obtain ⟨id, _, hid, suites, _, hsuites, methods, _, hmethods, block, hblock, hname⟩ := hbody
    obtain ⟨hidFits, rfl⟩ := headed_eq_some.mp hid
    obtain ⟨hsuitesFits, rfl⟩ := headed_eq_some.mp hsuites
    obtain ⟨hmethodsFits, rfl⟩ := headed_eq_some.mp hmethods
    obtain ⟨n, behind, hn, rfl, rfl⟩ := counted_eq_some.mp hblock
    obtain ⟨others, l, hothers, hfits, hpre, rfl⟩ := blockName_eq_some.mp hname
    obtain ⟨⟨rest, rfl⟩, hinside⟩ := List.prefix_take_iff.mp hpre
    exact ⟨⟨a, b, c, id, suites, methods, n, others, l, rest, ha, hb, hc, hidFits, hsuitesFits,
      hmethodsFits, hn, hothers, hfits, hinside⟩, rfl, rfl⟩
  · rintro ⟨g, rfl, rfl⟩
    rw [Greeting.bytes, helloName_append g.recordHead_length g.helloHead_length g.random_length,
      bodyName, headed_field g.sessionID_fits, Option.bind_some, headed_field g.cipherSuites_fits,
      Option.bind_some, headed_field g.compression_fits, Option.bind_some,
      counted_number g.blockLength_fits, Option.bind_some]
    refine blockName_eq_some.mpr ⟨g.others, g.names, g.others_fits, g.names_fits, ?_, rfl⟩
    exact List.prefix_take_iff.mpr ⟨List.prefix_append _ _, g.inside⟩

/-! ### An encoder -/

inductive Extension where
  /-- The entries of a name list, as type and name. -/
  | serverName (names : List (UInt8 × Bytes))
  | other (type data : Bytes)

namespace Extension

def nameList (names : List (UInt8 × Bytes)) : Bytes :=
  (names.map fun n => ([n.1], n.2)).flatMap (tagged 2)

/-- Type and data. -/
def item : Extension → Bytes × Bytes
  | serverName names => ([0, 0], sized 2 (nameList names))
  | other type data => (type, data)

def names? : Extension → Option (List (UInt8 × Bytes))
  | serverName names => some names
  | other _ _ => none

/-- All lengths can be written, and only a server name has that type. -/
def Encodable : Extension → Prop
  | serverName names => (∀ n ∈ names, n.2.length < 256 ^ 2) ∧ (sized 2 (nameList names)).length < 256 ^ 2
  | other type data => type.length = 2 ∧ type ≠ [0, 0] ∧ data.length < 256 ^ 2

end Extension

/-- A ClientHello whose lengths can be written. -/
structure ClientHello where
  recordVersion : Bytes
  /-- Version and random. -/
  random : Bytes
  sessionID : Bytes
  cipherSuites : Bytes
  compression : Bytes
  extensions : List Extension
  recordVersion_length : recordVersion.length = 2
  random_length : random.length = 34
  sessionID_fits : sessionID.length < 256 ^ 1
  cipherSuites_fits : cipherSuites.length < 256 ^ 2
  compression_fits : compression.length < 256 ^ 1
  extensions_encodable : ∀ ext ∈ extensions, ext.Encodable
  extensions_fit : ((extensions.map Extension.item).flatMap (tagged 2)).length < 256 ^ 2

namespace ClientHello

def body (c : ClientHello) : Bytes :=
  sized 1 c.sessionID ++ (sized 2 c.cipherSuites ++ (sized 1 c.compression ++
    sized 2 ((c.extensions.map Extension.item).flatMap (tagged 2))))

/-- The record. The two outer lengths are cut to their fields, as the parser does not read them. -/
def encode (c : ClientHello) : Bytes :=
  let length := (c.random ++ c.body).length
  [0x16] ++ (c.recordVersion ++ number 2 (4 + length)) ++ [0x01] ++ number 3 length ++ c.random ++
    c.body

/-- The first host name of the first server name extension. -/
def hostName (c : ClientHello) : Option Bytes :=
  (c.extensions.findSome? Extension.names?).bind fun names =>
    (names.find? fun n => n.1 = 0 ∧ n.2 ≠ []).map fun n => trimDot n.2

end ClientHello

theorem hostName_nameList {names : List (UInt8 × Bytes)} (h : ∀ n ∈ names, n.2.length < 256 ^ 2) :
    hostName (Extension.nameList names) =
      (names.find? fun n => n.1 = 0 ∧ n.2 ≠ []).map fun n => trimDot n.2 := by
  have hfits : ∀ x ∈ names.map (fun n => ([n.1], n.2)), Fits 1 2 x := by
    rw [List.forall_mem_map]
    exact fun n hn => ⟨rfl, h n hn⟩
  rw [hostName, Extension.nameList, items_flatMap hfits (Nat.le_refl _) (by decide), List.find?_map,
    Option.map_map]
  have hsame : isHostName ∘ (fun n : UInt8 × Bytes => ([n.1], n.2)) =
      fun n => decide (n.1 = 0 ∧ n.2 ≠ []) := by
    funext n
    simp [isHostName]
  rw [hsame]
  rfl

theorem serverNameData_sized (h : (sized 2 s).length < 256 ^ 2) :
    (counted 2 (sized 2 s)).bind hostName = hostName s := by
  rw [sized, List.length_append] at h
  rw [sized, counted_number (by omega), List.take_length, Option.bind_some]

theorem find_extensions : ∀ {exts : List Extension}, (∀ ext ∈ exts, ext.Encodable) →
    (((exts.map Extension.item).find? (·.1 = [0, 0])).bind fun ext =>
        (counted 2 ext.2).bind hostName) =
      (exts.findSome? Extension.names?).bind fun names =>
        (names.find? fun n => n.1 = 0 ∧ n.2 ≠ []).map fun n => trimDot n.2
  | [], _ => rfl
  | .serverName names :: exts, h => by
    obtain ⟨hnames, hfits⟩ := h _ List.mem_cons_self
    rw [List.map_cons, List.find?_cons_of_pos (by simp [Extension.item]), Option.bind_some,
      Extension.item, serverNameData_sized hfits, hostName_nameList hnames]
    rfl
  | .other type data :: exts, h => by
    obtain ⟨-, htype, -⟩ := h _ List.mem_cons_self
    rw [List.map_cons, List.find?_cons_of_neg (by simp [Extension.item, htype]),
      find_extensions fun ext hext => h ext (List.mem_cons_of_mem _ hext)]
    rfl

theorem Extension.Encodable.fits {ext : Extension} (h : ext.Encodable) : Fits 2 2 ext.item := by
  cases ext with
  | serverName names => exact ⟨rfl, h.2⟩
  | other type data => exact ⟨h.1, h.2.2⟩

theorem helloName_encode (c : ClientHello) : helloName c.encode = c.hostName := by
  have hfits : ∀ x ∈ c.extensions.map Extension.item, Fits 2 2 x := by
    rw [List.forall_mem_map]
    exact fun ext hext => (c.extensions_encodable ext hext).fits
  rw [ClientHello.encode, helloName_append (by simp [c.recordVersion_length]) (length_number _ _)
      c.random_length, ClientHello.body, bodyName, headed_field c.sessionID_fits, Option.bind_some,
    headed_field c.cipherSuites_fits, Option.bind_some, headed_field c.compression_fits,
    Option.bind_some, sized, counted_number c.extensions_fit, List.take_length, Option.bind_some,
    blockName, items_flatMap hfits (Nat.le_refl _) (by decide), ClientHello.hostName,
    find_extensions c.extensions_encodable]

/-- Every byte string is read without an index out of range. A name comes out exactly for the bytes
    of a `Greeting`, and it is the one its extension holds, without a final dot; an encoded
    ClientHello gives its own host name back. -/
theorem tlsClientHelloSNI_exact :
    (∀ p, ∃ r, tlsClientHelloSNI p = .ok r ∧
      ∀ h, r = some h ↔ ∃ g : Greeting, p = g.bytes ∧ h = trimDot g.names.name) ∧
    ∀ c : ClientHello, tlsClientHelloSNI c.encode = .ok c.hostName := by
  constructor
  · intro p
    exact ⟨helloName p, tlsClientHelloSNI_eq p, fun h => helloName_eq_some⟩
  · intro c
    rw [tlsClientHelloSNI_eq, helloName_encode]

end TaNode

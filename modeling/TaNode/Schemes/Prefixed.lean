import Mathlib.Algebra.Group.Nat.Defs
import Mathlib.Data.List.Induction

/-! Byte formats whose fields carry their length in front, in `w` big-endian bytes.

        sized w s     length of s │ s
        tagged w x    tag │ length of the body │ body

    A reader of such a format takes one field after the other off the front and stops at the first
    that is not complete. `headed` is one such step and `items` the whole walk over tagged fields;
    `headed_eq_some` and `prefix_items` say which byte strings they take apart, and into what. -/

namespace TaNode.Prefixed

/-! ### Numbers -/

/-- `n` in `w` bytes, the most significant first; what does not fit is cut off. -/
def number : Nat → Nat → List UInt8
  | 0, _ => []
  | w + 1, n => number w (n / 256) ++ [UInt8.ofNat n]

/-- The number that some bytes stand for. -/
def value (s : List UInt8) : Nat := s.foldl (fun n b => n * 256 + b.toNat) 0

@[simp] theorem length_number : ∀ w n, (number w n).length = w
  | 0, _ => rfl
  | w + 1, n => by rw [number, List.length_append, length_number w, List.length_singleton]

theorem value_snoc (s : List UInt8) (b : UInt8) : value (s ++ [b]) = value s * 256 + b.toNat := by
  rw [value, List.foldl_append, List.foldl_cons, List.foldl_nil, ← value]

theorem value_number : ∀ {w n}, n < 256 ^ w → value (number w n) = n
  | 0, n, h => by
    have hzero : n = 0 := by simpa using h
    rw [hzero]
    rfl
  | w + 1, n, h => by
    have hhigh : n / 256 < 256 ^ w := Nat.div_lt_of_lt_mul (by rwa [Nat.pow_succ'] at h)
    rw [number, value_snoc, value_number hhigh, UInt8.toNat_ofNat']
    omega

theorem value_lt (s : List UInt8) : value s < 256 ^ s.length := by
  induction s using List.reverseRecOn with
  | nil => decide
  | append_singleton s b ih =>
    have hb : b.toNat < 256 := b.toNat_lt
    rw [value_snoc, List.length_append, List.length_singleton, Nat.pow_succ]
    omega

theorem number_value (s : List UInt8) : number s.length (value s) = s := by
  induction s using List.reverseRecOn with
  | nil => rfl
  | append_singleton s b ih =>
    have hb : b.toNat < 256 := b.toNat_lt
    have hhigh : (value s * 256 + b.toNat) / 256 = value s := by omega
    have hlow : UInt8.ofNat (value s * 256 + b.toNat) = b := by
      apply UInt8.toNat_inj.mp
      rw [UInt8.toNat_ofNat']
      omega
    rw [value_snoc, List.length_append, List.length_singleton, number, hhigh, hlow, ih]

/-! ### One field -/

def sized (w : Nat) (s : List UInt8) : List UInt8 := number w s.length ++ s

/-- The field a byte string begins with and what follows it, if the field is complete. -/
def headed (w : Nat) (b : List UInt8) : Option (List UInt8 × List UInt8) :=
  let n := value (b.take w)
  if w + n ≤ b.length then some ((b.drop w).take n, b.drop (w + n)) else none

/-- A field is read exactly where it stands. -/
theorem headed_eq_some {w : Nat} {b s rest : List UInt8} :
    headed w b = some (s, rest) ↔ s.length < 256 ^ w ∧ b = sized w s ++ rest := by
  simp only [headed, Option.ite_none_right_eq_some, Option.some.injEq, Prod.mk.injEq]
  constructor
  · rintro ⟨hlen, rfl, rfl⟩
    have htake : (b.take w).length = w := by rw [List.length_take]; omega
    have hbody : ((b.drop w).take (value (b.take w))).length = value (b.take w) := by
      rw [List.length_take, List.length_drop]
      omega
    have hbound := value_lt (b.take w)
    have hnumber := number_value (b.take w)
    rw [htake] at hbound hnumber
    refine ⟨by rwa [hbody], ?_⟩
    rw [sized, hbody, hnumber, List.append_assoc, ← List.drop_drop, List.take_append_drop,
      List.take_append_drop]
  · rintro ⟨hlt, rfl⟩
    have htake : (sized w s ++ rest).take w = number w s.length := by
      rw [sized, List.append_assoc, List.take_left' (length_number _ _)]
    have hdrop : (sized w s ++ rest).drop w = s ++ rest := by
      rw [sized, List.append_assoc, List.drop_left' (length_number _ _)]
    rw [htake, value_number hlt, ← List.drop_drop, hdrop]
    refine ⟨?_, List.take_left' rfl, List.drop_left' rfl⟩
    rw [sized, List.length_append, List.length_append, length_number]
    omega

theorem headed_field {w : Nat} {s : List UInt8} (h : s.length < 256 ^ w) (rest : List UInt8) :
    headed w (sized w s ++ rest) = some (s, rest) :=
  headed_eq_some.mpr ⟨h, rfl⟩

theorem headed_nil {w : Nat} (hw : 0 < w) : headed w [] = none := by
  rw [headed, if_neg]
  rw [List.length_nil]
  omega

/-- What is there of a list behind its length in bytes. -/
def counted (w : Nat) (b : List UInt8) : Option (List UInt8) :=
  if w ≤ b.length then some ((b.drop w).take (value (b.take w))) else none

theorem counted_eq_some {w : Nat} {b s : List UInt8} :
    counted w b = some s ↔ ∃ n rest, n < 256 ^ w ∧ b = number w n ++ rest ∧ s = rest.take n := by
  rw [counted, Option.ite_none_right_eq_some]
  constructor
  · rintro ⟨hlen, hs⟩
    have htake : (b.take w).length = w := by rw [List.length_take]; omega
    have hbound := value_lt (b.take w)
    have hnumber := number_value (b.take w)
    rw [htake] at hbound hnumber
    refine ⟨value (b.take w), b.drop w, hbound, ?_, (Option.some.inj hs).symm⟩
    rw [hnumber, List.take_append_drop]
  · rintro ⟨n, rest, hn, rfl, rfl⟩
    rw [List.take_left' (length_number _ _), List.drop_left' (length_number _ _), value_number hn,
      List.length_append, length_number]
    exact ⟨Nat.le_add_right _ _, rfl⟩

theorem counted_number {w n : Nat} (h : n < 256 ^ w) (rest : List UInt8) :
    counted w (number w n ++ rest) = some (rest.take n) :=
  counted_eq_some.mpr ⟨n, rest, h, rfl, rfl⟩

/-! ### A walk over tagged fields -/

/-- A tag, and a body behind its length. -/
def tagged (w : Nat) (x : List UInt8 × List UInt8) : List UInt8 := x.1 ++ sized w x.2

/-- The tag is `v` bytes wide, and the length of the body fits `w` bytes. -/
structure Fits (v w : Nat) (x : List UInt8 × List UInt8) : Prop where
  tag : x.1.length = v
  body : x.2.length < 256 ^ w

/-- The complete tagged fields at the front, at most `rounds` of them. -/
def items (v w : Nat) : Nat → List UInt8 → List (List UInt8 × List UInt8)
  | 0, _ => []
  | rounds + 1, b =>
    match headed w (b.drop v) with
    | some (s, rest) => (b.take v, s) :: items v w rounds rest
    | none => []

section
variable {v w rounds : Nat} {b rest : List UInt8} {x : List UInt8 × List UInt8}
  {l : List (List UInt8 × List UInt8)}

/-- One round, with the tag and the length read first. -/
theorem items_succ (hw : 0 < w) (rounds : Nat) (b : List UInt8) : items v w (rounds + 1) b =
    if b.length < v + w ∨ (b.drop (v + w)).length < value ((b.drop v).take w) then []
    else (b.take v, (b.drop (v + w)).take (value ((b.drop v).take w))) ::
      items v w rounds ((b.drop (v + w)).drop (value ((b.drop v).take w))) := by
  rw [items, headed]
  simp only [List.length_drop, List.drop_drop, Nat.add_assoc]
  generalize value ((b.drop v).take w) = n
  by_cases hshort : b.length < v + w ∨ b.length - (v + w) < n
  · rw [if_pos hshort, if_neg (by omega)]
  · rw [if_neg hshort, if_pos (by omega)]

theorem items_tagged (h : Fits v w x) (rest : List UInt8) :
    items v w (rounds + 1) (tagged w x ++ rest) = x :: items v w rounds rest := by
  rw [items, tagged, List.append_assoc, List.drop_left' h.tag, List.take_left' h.tag,
    headed_field h.body]

/-- The first item is the tagged field at the front. -/
theorem items_eq_cons (hw : 0 < w) (h : items v w (rounds + 1) b = x :: l) :
    ∃ rest, Fits v w x ∧ b = tagged w x ++ rest ∧ l = items v w rounds rest := by
  rw [items] at h
  split at h
  · rename_i s rest hhead
    obtain ⟨rfl, rfl⟩ := List.cons.inj h
    have hlong : v < b.length := by
      by_contra hshort
      rw [List.drop_eq_nil_of_le (by omega), headed_nil hw] at hhead
      exact absurd hhead (by simp)
    obtain ⟨hbody, heq⟩ := headed_eq_some.mp hhead
    refine ⟨rest, ⟨by rw [List.length_take]; omega, hbody⟩, ?_, rfl⟩
    rw [tagged, List.append_assoc, ← heq, List.take_append_drop]
  · exact absurd h (by simp)

theorem length_tagged : (tagged w x).length = x.1.length + (w + x.2.length) := by
  rw [tagged, sized, List.length_append, List.length_append, length_number]

/-- With a round for every byte, some tagged fields stand at the front exactly if the walk begins
    with them. -/
theorem prefix_items (hw : 0 < w) : ∀ {l rounds b}, b.length ≤ rounds →
    (l <+: items v w rounds b ↔ (∀ x ∈ l, Fits v w x) ∧ l.flatMap (tagged w) <+: b)
  | [], _, _, _ => by simp
  | x :: l, rounds, b, hrounds => by
    constructor
    · rintro ⟨more, hmore⟩
      cases rounds with
      | zero => exact absurd hmore (by simp [items])
      | succ rounds =>
        obtain ⟨rest, hx, rfl, hrest⟩ := items_eq_cons hw hmore.symm
        rw [List.length_append, length_tagged] at hrounds
        obtain ⟨hl, hpre⟩ := (prefix_items hw (by omega)).mp ⟨more, hrest⟩
        refine ⟨List.forall_mem_cons.mpr ⟨hx, hl⟩, ?_⟩
        rw [List.flatMap_cons]
        exact (List.prefix_append_right_inj _).mpr hpre
    · rintro ⟨hfits, hpre⟩
      obtain ⟨hx, hl⟩ := List.forall_mem_cons.mp hfits
      rw [List.flatMap_cons] at hpre
      obtain ⟨rest, rfl⟩ := (List.prefix_append _ _).trans hpre
      rw [List.length_append, length_tagged] at hrounds
      obtain ⟨rounds, rfl⟩ : ∃ r, rounds = r + 1 := ⟨rounds - 1, by omega⟩
      rw [items_tagged hx]
      exact List.cons_prefix_cons.mpr ⟨rfl, (prefix_items hw (by omega)).mpr
        ⟨hl, (List.prefix_append_right_inj _).mp hpre⟩⟩

/-- A search through the walk finds a field behind others that the search passes over. -/
theorem find_items (hw : 0 < w) (hrounds : b.length ≤ rounds) {p : List UInt8 × List UInt8 → Bool} :
    (items v w rounds b).find? p = some x ↔
      p x = true ∧ ∃ l, (∀ y ∈ l, p y = false) ∧ (∀ y ∈ l ++ [x], Fits v w y) ∧
        (l ++ [x]).flatMap (tagged w) <+: b := by
  rw [List.find?_eq_some_iff_append]
  refine and_congr_right fun _ => exists_congr fun l => ?_
  rw [← prefix_items hw hrounds]
  constructor
  · rintro ⟨more, hmore, hpass⟩
    exact ⟨by simpa using hpass, more, by rw [hmore]; simp⟩
  · rintro ⟨hpass, more, hmore⟩
    exact ⟨more, by rw [← hmore]; simp, by simpa using hpass⟩

/-- A walk over nothing but tagged fields finds all of them. -/
theorem items_flatMap : ∀ {l rounds}, (∀ x ∈ l, Fits v w x) →
    (l.flatMap (tagged w)).length ≤ rounds → 0 < w → items v w rounds (l.flatMap (tagged w)) = l
  | [], 0, _, _, _ => rfl
  | [], _ + 1, _, _, hw => by rw [List.flatMap_nil, items, List.drop_nil, headed_nil hw]
  | x :: l, rounds, hfits, hrounds, hw => by
    obtain ⟨hx, hl⟩ := List.forall_mem_cons.mp hfits
    rw [List.flatMap_cons, List.length_append, length_tagged] at hrounds
    obtain ⟨rounds, rfl⟩ : ∃ r, rounds = r + 1 := ⟨rounds - 1, by omega⟩
    rw [List.flatMap_cons, items_tagged hx, items_flatMap hl (by omega) hw]

end

end TaNode.Prefixed

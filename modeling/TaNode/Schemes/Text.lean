import Mathlib.Data.List.Basic

/-! Texts that are put together from parts and can be taken apart again: decimal numbers, parts joined
    at a mark that none of them has, the last mark of a text, and two parts in the order of their
    own. -/

namespace TaNode

/-! ### Decimal numbers -/

theorem toList_toString (n : Nat) : (toString n).toList = Nat.toDigits 10 n := by
  rw [Nat.toString_eq_repr, Nat.toList_repr]

theorem notMem_toString {c : Char} (hc : c.isDigit = false) (n : Nat) : c ∉ (toString n).toList := by
  rw [toList_toString]
  intro h
  have hdigit := Nat.isDigit_of_mem_toDigits (by decide) (by decide) h
  rw [hc] at hdigit
  exact absurd hdigit (by decide)

theorem toString_inj {m n : Nat} (h : (toString m).toList = (toString n).toList) : m = n := by
  rw [toList_toString, toList_toString] at h
  rw [← @Nat.ofDigitChars_ten_toDigits m, h, Nat.ofDigitChars_ten_toDigits]

/-- An integer is its digits, behind a sign if it is negative. -/
theorem toList_toString_int : ∀ n : Int, (toString n).toList =
    (if n < 0 then ['-'] else []) ++ (toString n.natAbs).toList
  | .ofNat n => rfl
  | .negSucc n => by
    rw [if_pos (Int.negSucc_lt_zero n)]
    exact String.toList_append

theorem notMem_toString_int {c : Char} (hc : c.isDigit = false) (hsign : c ≠ '-') (n : Int) :
    c ∉ (toString n).toList := by
  rw [toList_toString_int, List.mem_append, not_or]
  refine ⟨?_, notMem_toString hc _⟩
  split_ifs
  · simpa using hsign
  · exact List.not_mem_nil

theorem toString_int_inj {m n : Int} (h : (toString m).toList = (toString n).toList) : m = n := by
  have hsign : ∀ n : Nat, '-' ∉ (toString n).toList := notMem_toString (by decide)
  rw [toList_toString_int, toList_toString_int] at h
  split_ifs at h with hm hn hn
  · have habs := toString_inj (List.append_cancel_left h)
    omega
  · rw [List.nil_append] at h
    exact absurd (h ▸ List.mem_append_left _ (List.mem_singleton_self _)) (hsign n.natAbs)
  · rw [List.nil_append] at h
    exact absurd (h ▸ List.mem_append_left _ (List.mem_singleton_self _)) (hsign m.natAbs)
  · have habs := toString_inj (List.append_cancel_left h)
    omega

/-! ### Marks -/

variable {α : Type}

/-- The last occurrence of a mark splits a list in one way. -/
theorem split_at_mark {c : α} {x₁ x₂ z₁ z₂ : List α} (h₁ : c ∉ z₁) (h₂ : c ∉ z₂)
    (h : x₁ ++ c :: z₁ = x₂ ++ c :: z₂) : x₁ = x₂ ∧ z₁ = z₂ := by
  rcases List.append_eq_append_iff.mp h with ⟨a, ha, hz⟩ | ⟨a, ha, hz⟩
  · cases a with
    | nil => exact ⟨by simpa using ha.symm, by simpa using hz⟩
    | cons d a =>
      obtain ⟨rfl, rfl⟩ := List.cons.inj hz
      simp at h₁
  · cases a with
    | nil => exact ⟨by simpa using ha, by simpa using hz.symm⟩
    | cons d a =>
      obtain ⟨rfl, rfl⟩ := List.cons.inj hz
      simp at h₂

/-- A list that contains a mark splits at its last one. -/
theorem split_at_last {c : α} {l : List α} (h : c ∈ l) :
    ∃ before behind, l = before ++ c :: behind ∧ c ∉ behind := by
  obtain ⟨behind, before, hl, hbehind⟩ := List.eq_append_cons_of_mem (List.mem_reverse.mpr h)
  refine ⟨before.reverse, behind.reverse, ?_, by simpa using hbehind⟩
  rw [← List.reverse_reverse l, hl]
  simp

/-- So does the first. -/
theorem split_at_first_mark {c : α} {x₁ x₂ z₁ z₂ : List α} (h₁ : c ∉ x₁) (h₂ : c ∉ x₂)
    (h : x₁ ++ c :: z₁ = x₂ ++ c :: z₂) : x₁ = x₂ ∧ z₁ = z₂ := by
  have hreverse := congrArg List.reverse h
  simp only [List.reverse_append, List.reverse_cons, List.append_assoc, List.singleton_append]
    at hreverse
  obtain ⟨hz, hx⟩ := split_at_mark (by simpa using h₁) (by simpa using h₂) hreverse
  exact ⟨List.reverse_inj.mp hx, List.reverse_inj.mp hz⟩

theorem intercalate_append {sep : List α} {m : List (List α)} (hm : m ≠ []) :
    ∀ {l : List (List α)}, l ≠ [] →
      sep.intercalate (l ++ m) = sep.intercalate l ++ sep ++ sep.intercalate m
  | [part], _ => by
    rw [List.singleton_append, List.intercalate_cons_of_ne_nil hm, List.intercalate_singleton]
  | part :: next :: l, _ => by
    have hnext : next :: l ≠ [] := List.cons_ne_nil next l
    rw [List.cons_append, List.intercalate_cons_of_ne_nil (by simp), intercalate_append hm hnext,
      List.intercalate_cons_of_ne_nil hnext]
    simp only [List.append_assoc]

theorem mem_intercalate {c : α} {l : List (List α)} (hl : 1 < l.length) :
    c ∈ [c].intercalate l := by
  match l, hl with
  | part :: next :: l, _ =>
    rw [List.intercalate_cons_of_ne_nil (List.cons_ne_nil next l)]
    simp

/-- A join has the items of its parts and the mark. -/
theorem of_mem_intercalate {c d : α} :
    ∀ {l : List (List α)}, d ∈ [c].intercalate l → d = c ∨ ∃ part ∈ l, d ∈ part
  | [], h => by simp at h
  | [part], h => by
    rw [List.intercalate_singleton] at h
    exact .inr ⟨part, List.mem_cons_self .., h⟩
  | part :: next :: l, h => by
    rw [List.intercalate_cons_of_ne_nil (List.cons_ne_nil next l), List.mem_append,
      List.mem_append] at h
    rcases h with (h | h) | h
    · exact .inr ⟨part, List.mem_cons_self .., h⟩
    · exact .inl (List.mem_singleton.mp h)
    · rcases of_mem_intercalate h with h | ⟨other, hother, hd⟩
      · exact .inl h
      · exact .inr ⟨other, List.mem_cons_of_mem _ hother, hd⟩

/-- Fields without the mark, and one more text behind them, are what their join says. -/
theorem intercalate_fields_inj {c : α} {x y : List α} :
    ∀ {l m : List (List α)}, l.length = m.length → (∀ part ∈ l, c ∉ part) → (∀ part ∈ m, c ∉ part) →
      [c].intercalate (l ++ [x]) = [c].intercalate (m ++ [y]) → l = m ∧ x = y
  | [], [], _, _, _, h => by
    rw [List.nil_append, List.nil_append, List.intercalate_singleton, List.intercalate_singleton] at h
    exact ⟨rfl, h⟩
  | part :: l, part' :: m, hlen, hl, hm, h => by
    rw [List.cons_append, List.cons_append, List.intercalate_cons_of_ne_nil (by simp),
      List.intercalate_cons_of_ne_nil (by simp), List.append_assoc, List.append_assoc,
      List.singleton_append, List.singleton_append] at h
    obtain ⟨hpart, hrest⟩ := split_at_first_mark (hl part (List.mem_cons_self ..))
      (hm part' (List.mem_cons_self ..)) h
    obtain ⟨htail, hlast⟩ := intercalate_fields_inj (Nat.succ.inj hlen)
      (fun p hp => hl p (List.mem_cons_of_mem _ hp)) (fun p hp => hm p (List.mem_cons_of_mem _ hp)) hrest
    exact ⟨by rw [hpart, htail], hlast⟩

/-! ### Two ends in one order -/

/-- Of two ends the smaller is put first, whichever of them comes first. -/
theorem ordered_swap {r : α → α → Prop} [DecidableRel r] {a b : α} (hasymm : r b a → ¬ r a b)
    (htotal : ¬ r a b → ¬ r b a → a = b) (f : α → α → β) :
    (if r a b then f a b else f b a) = if r b a then f b a else f a b := by
  by_cases hba : r b a
  · rw [if_pos hba, if_neg (hasymm hba)]
  · by_cases hab : r a b
    · rw [if_neg hba, if_pos hab]
    · rw [if_neg hba, if_neg hab, htotal hab hba]

end TaNode

import Mathlib.Data.List.Infix

/-! Glob patterns, as SQLite matches them.

    A pattern is text: `*` stands for any text, `?` for one character, `[…]` for one of a set, and any
    other character for itself. A literal text becomes a pattern by putting its special characters into
    sets of their own:

        a*b     ──quote──▶    a[*]b     ──tokens──▶    a, {*}, b

    The matcher reads C strings: a pattern and a text both end at their first NUL. So a quoted literal
    matches itself only if it has no NUL; behind one nothing of the pattern is left. -/

namespace TaNode

/-- What a pattern asks for, one after the other. -/
inductive GlobToken where
  | char (c : Char)
  | one
  | many
  | set (negated : Bool) (ranges : List (Char × Char))
  deriving DecidableEq

/-- Where the reader of a pattern is: outside a set, or inside one, with its ranges and the character a
    dash would start a range from. -/
inductive GlobMode where
  | outside
  | inside (negated : Bool) (ranges : List (Char × Char)) (prior : Option Char)

/-- Reads a pattern. A set that is not closed matches nothing. -/
def globTokens : GlobMode → List Char → Option (List GlobToken)
  | .outside, [] => some []
  | .outside, '*' :: rest => (globTokens .outside rest).map (.many :: ·)
  | .outside, '?' :: rest => (globTokens .outside rest).map (.one :: ·)
  -- a bracket right at the start of a set is a member of it
  | .outside, '[' :: '^' :: ']' :: rest => globTokens (.inside true [(']', ']')] none) rest
  | .outside, '[' :: '^' :: rest => globTokens (.inside true [] none) rest
  | .outside, '[' :: ']' :: rest => globTokens (.inside false [(']', ']')] none) rest
  | .outside, '[' :: rest => globTokens (.inside false [] none) rest
  | .outside, c :: rest => (globTokens .outside rest).map (.char c :: ·)
  | .inside _ _ _, [] => none
  | .inside negated ranges _, ']' :: rest =>
    (globTokens .outside rest).map (.set negated ranges :: ·)
  | .inside negated ranges prior, c :: d :: rest =>
    match prior with
    | some p =>
      if c = '-' ∧ d ≠ ']' then globTokens (.inside negated (ranges ++ [(p, d)]) none) rest
      else globTokens (.inside negated (ranges ++ [(c, c)]) (some c)) (d :: rest)
    | none => globTokens (.inside negated (ranges ++ [(c, c)]) (some c)) (d :: rest)
  | .inside negated ranges _, c :: rest =>
    globTokens (.inside negated (ranges ++ [(c, c)]) (some c)) rest

def globMatch : List GlobToken → List Char → Bool
  | [], text => text.isEmpty
  | .many :: ts, text => text.tails.any fun rest => globMatch ts rest
  | .char c :: ts, d :: text => c == d && globMatch ts text
  | .one :: ts, _ :: text => globMatch ts text
  | .set negated ranges :: ts, d :: text =>
    (ranges.any fun r => decide (r.1 ≤ d ∧ d ≤ r.2)) != negated && globMatch ts text
  | _ :: _, [] => false

/-- A text up to its first NUL. -/
def cText (s : List Char) : List Char := s.takeWhile (· ≠ '\x00')

/-- `text GLOB pattern` -/
def glob (pattern text : List Char) : Bool :=
  match globTokens .outside (cText pattern) with
  | none => false
  | some ts => globMatch ts (cText text)

/-! ### Literals -/

/-- The pattern of a character. -/
def globQuote (c : Char) : List Char := if c = '[' ∨ c = '*' ∨ c = '?' then ['[', c, ']'] else [c]

/-- The token of a quoted character. -/
def quoted (c : Char) : GlobToken := if c = '[' ∨ c = '*' ∨ c = '?' then .set false [(c, c)] else .char c

theorem globTokens_quote (c : Char) (rest : List Char) :
    globTokens .outside (globQuote c ++ rest) = (globTokens .outside rest).map (quoted c :: ·) := by
  rw [globQuote, quoted]
  split
  · next h => rcases h with rfl | rfl | rfl <;> simp [globTokens]
  · next h =>
    obtain ⟨hopen, hstar, hone⟩ : c ≠ '[' ∧ c ≠ '*' ∧ c ≠ '?' := by simpa using h
    rw [List.singleton_append, globTokens]
    all_goals simp [hopen, hstar, hone]

/-- A quoted literal asks for its characters one after the other. -/
theorem globTokens_literal (literal rest : List Char) :
    globTokens .outside (literal.flatMap globQuote ++ rest) =
      (globTokens .outside rest).map (literal.map quoted ++ ·) := by
  induction literal with
  | nil => simp
  | cons c literal ih =>
    rw [List.flatMap_cons, List.append_assoc, globTokens_quote, ih, Option.map_map]
    rfl

theorem globMatch_quoted (c : Char) (ts : List GlobToken) (text : List Char) :
    globMatch (quoted c :: ts) text = true ↔ ∃ rest, text = c :: rest ∧ globMatch ts rest = true := by
  cases text with
  | nil =>
    rw [quoted]
    split <;> simp [globMatch]
  | cons d text =>
    have hrange : (c ≤ d ∧ d ≤ c) ↔ c = d :=
      ⟨fun h => Char.le_antisymm h.1 h.2, fun h => h ▸ ⟨Char.le_refl _, Char.le_refl _⟩⟩
    have hone : globMatch (quoted c :: ts) (d :: text) = (decide (c = d) && globMatch ts text) := by
      rw [quoted]
      split
      · simp [globMatch, -Bool.decide_and, hrange]
      · rw [globMatch, beq_eq_decide]
    rw [hone, Bool.and_eq_true, decide_eq_true_eq]
    constructor
    · rintro ⟨rfl, h⟩
      exact ⟨text, rfl, h⟩
    · rintro ⟨rest, heq, h⟩
      obtain ⟨rfl, rfl⟩ := List.cons.inj heq
      exact ⟨rfl, h⟩

theorem globMatch_literal (literal : List Char) (ts : List GlobToken) (text : List Char) :
    globMatch (literal.map quoted ++ ts) text = true ↔
      ∃ rest, text = literal ++ rest ∧ globMatch ts rest = true := by
  induction literal generalizing text with
  | nil => simp
  | cons c literal ih =>
    rw [List.map_cons, List.cons_append, globMatch_quoted]
    constructor
    · rintro ⟨rest, rfl, h⟩
      obtain ⟨rest', rfl, h'⟩ := (ih rest).mp h
      exact ⟨rest', rfl, h'⟩
    · rintro ⟨rest, rfl, h⟩
      exact ⟨literal ++ rest, rfl, (ih _).mpr ⟨rest, rfl, h⟩⟩

theorem nul_mem_globQuote (c : Char) : '\x00' ∈ globQuote c ↔ c = '\x00' := by
  rw [globQuote]
  split
  · next h => rcases h with rfl | rfl | rfl <;> decide
  · simp [eq_comm]

theorem cText_of_notMem {s : List Char} (h : '\x00' ∉ s) (rest : List Char) :
    cText (s ++ rest) = s ++ cText rest :=
  List.takeWhile_append_of_pos fun c hc =>
    decide_eq_true fun hnul : c = '\x00' => h (hnul ▸ hc)

theorem cText_nul (s rest : List Char) (h : '\x00' ∉ s) : cText (s ++ '\x00' :: rest) = s := by
  rw [cText_of_notMem h]
  simp [cText]

variable {literal : List Char}

theorem nul_notMem_quote (h : '\x00' ∉ literal) : '\x00' ∉ literal.flatMap globQuote := by
  rw [List.mem_flatMap]
  rintro ⟨c, hc, hnul⟩
  exact h ((nul_mem_globQuote c).mp hnul ▸ hc)

/-- A quoted literal without a NUL and a star match the texts the literal is a prefix of. -/
theorem glob_literal_star (h : '\x00' ∉ literal) (text : List Char) :
    glob (literal.flatMap globQuote ++ ['*']) text = true ↔ literal <+: text := by
  have htokens : globTokens .outside (cText (literal.flatMap globQuote ++ ['*'])) =
      some (literal.map quoted ++ [.many]) := by
    rw [cText_of_notMem (nul_notMem_quote h), globTokens_literal]
    simp [cText, globTokens]
  rw [glob, htokens]
  dsimp only
  rw [globMatch_literal]
  constructor
  · rintro ⟨rest, hrest, -⟩
    exact (List.prefix_iff_exists_eq_append.mpr ⟨rest, hrest⟩).trans (List.takeWhile_prefix _)
  · rintro ⟨rest, rfl⟩
    refine ⟨cText rest, cText_of_notMem h rest, ?_⟩
    rw [globMatch, List.any_eq_true]
    exact ⟨[], (List.mem_tails _ _).mpr List.nil_suffix, rfl⟩

/-- Behind a NUL nothing of a pattern counts: it matches the texts that end where it does. -/
theorem glob_nul (h : '\x00' ∉ literal) (pattern text : List Char) :
    glob (literal.flatMap globQuote ++ '\x00' :: pattern) text = true ↔ cText text = literal := by
  have htokens : globTokens .outside (cText (literal.flatMap globQuote ++ '\x00' :: pattern)) =
      some (literal.map quoted) := by
    rw [cText_nul _ _ (nul_notMem_quote h)]
    have hliteral := globTokens_literal literal []
    simpa [globTokens] using hliteral
  rw [glob, htokens]
  dsimp only
  have hmatch := globMatch_literal literal [] (cText text)
  rw [List.append_nil] at hmatch
  rw [hmatch]
  simp [globMatch]

end TaNode

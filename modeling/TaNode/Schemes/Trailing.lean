import Mathlib.Data.List.Pairwise
import Mathlib.Data.List.TakeWhile
import Mathlib.Order.Lattice

/-! Trailing windows: of a growing list of times, what is kept to answer how many lie behind a cutoff.

    The cutoff moves forward, times at or before it may be forgotten, and at most `cap` times are kept,
    the newest:

        all    t₁ ≤ t₂ ≤ t₃ ≤ t₄ ≤ t₅ ≤ t₆
        kept              t₃   t₄   t₅   t₆      forgotten: before the cutoff, or `cap` newer ones kept

    Whatever is forgotten in between, the kept times behind the cutoff are the newest `cap` of all
    times behind it. -/

namespace TaNode
variable {T : Type} [LinearOrder T]

/-- The kept times are the last of all times; what was forgotten is at or before the cutoff, unless as
    many are kept as there may be. -/
structure Kept (cap : Nat) (cutoff : T) (all kept : List T) : Prop where
  suffix : ∃ gone, all = gone ++ kept ∧ ((∀ t ∈ gone, t ≤ cutoff) ∨ kept.length = cap)

namespace Kept
variable {cap : Nat} {cutoff cutoff' : T} {all kept : List T}

theorem nil (cap : Nat) (cutoff : T) : Kept cap cutoff ([] : List T) [] :=
  ⟨[], rfl, .inl (by simp)⟩

section
variable (h : Kept cap cutoff all kept)
include h

section
variable (hsorted : all.Pairwise (· ≤ ·))
include hsorted

theorem sorted : kept.Pairwise (· ≤ ·) := by
  obtain ⟨gone, rfl, -⟩ := h.suffix
  exact (List.pairwise_append.mp hsorted).2.1

omit hsorted in
theorem mono (hle : cutoff ≤ cutoff') : Kept cap cutoff' all kept := by
  obtain ⟨gone, hall, hgone⟩ := h.suffix
  exact ⟨gone, hall, hgone.imp_left fun hgone t ht => (hgone t ht).trans hle⟩

/-- Dropping times from the front, all of them at or before the cutoff. -/
theorem drop {old new : List T} (hkept : kept = old ++ new) (hold : ∀ t ∈ old, t ≤ cutoff) :
    Kept cap cutoff all new := by
  obtain ⟨gone, rfl, hgone⟩ := h.suffix
  subst hkept
  cases old with
  | nil => exact h
  | cons a old =>
    refine ⟨gone ++ a :: old, by simp, .inl fun t ht => ?_⟩
    rcases List.mem_append.mp ht with ht | ht
    · have hle := (List.pairwise_append.mp hsorted).2.2 t ht a (by simp)
      exact hle.trans (hold a (by simp))
    · exact hold t ht

theorem forget (hold : ∀ t ∈ kept, t ≤ cutoff) :
    Kept cap cutoff all [] :=
  h.drop hsorted (List.append_nil kept).symm hold

theorem dropWhile : Kept cap cutoff all (kept.dropWhile (· ≤ cutoff)) := by
  refine h.drop hsorted List.takeWhile_append_dropWhile.symm fun t ht => ?_
  simpa using List.mem_takeWhile_imp ht

omit hsorted in
/-- One more time, and the oldest ones given up if there are too many. -/
theorem push (t : T) :
    Kept cap cutoff (all ++ [t]) ((kept ++ [t]).drop ((kept ++ [t]).length - cap)) := by
  obtain ⟨gone, rfl, hgone⟩ := h.suffix
  rcases Nat.lt_or_ge cap (kept ++ [t]).length with hfull | hroom
  · refine ⟨gone ++ (kept ++ [t]).take ((kept ++ [t]).length - cap), ?_, .inr ?_⟩
    · rw [List.append_assoc, List.append_assoc, List.take_append_drop]
    · rw [List.length_drop]
      omega
  · rw [Nat.sub_eq_zero_of_le hroom, List.drop_zero]
    refine ⟨gone, by simp, hgone.imp_right fun hcap => ?_⟩
    simp only [List.length_append, List.length_singleton] at hroom
    omega

/-- If all that is kept lies behind the cutoff, it is the newest `cap` of what does. -/
theorem eq_drop (hcap : kept.length ≤ cap) (hnew : ∀ t ∈ kept, cutoff < t) :
    kept = (all.filter (cutoff < ·)).drop ((all.filter (cutoff < ·)).length - cap) := by
  obtain ⟨gone, rfl, hgone⟩ := h.suffix
  have hkept : kept.filter (cutoff < ·) = kept := List.filter_eq_self.mpr (by simpa using hnew)
  rw [List.filter_append, hkept, List.length_append]
  rcases hgone with hgone | hfull
  · have hnone : gone.filter (cutoff < ·) = [] :=
      List.filter_eq_nil_iff.mpr (by simpa using hgone)
    rw [hnone, List.nil_append, List.length_nil, Nat.zero_add, Nat.sub_eq_zero_of_le hcap, List.drop_zero]
  · rw [hfull, Nat.add_sub_cancel, List.drop_left]

end

end

end Kept

/-- In a sorted list the times behind the last one are behind all. -/
theorem forall_le_of_getLast? {l : List T} {cutoff : T} (hsorted : l.Pairwise (· ≤ ·))
    (h : l.getLast?.all (· ≤ cutoff) = true) : ∀ t ∈ l, t ≤ cutoff := by
  intro t ht
  rw [List.getLast?_eq_some_getLast (List.ne_nil_of_mem ht), Option.all_some, decide_eq_true_eq] at h
  exact (hsorted.rel_getLast_of_rel_getLast_getLast ht le_rfl).trans h

/-- In a sorted list, what `dropWhile` leaves is behind the cutoff. -/
theorem lt_of_mem_dropWhile {l : List T} {cutoff t : T} (hsorted : l.Pairwise (· ≤ ·))
    (h : t ∈ l.dropWhile (· ≤ cutoff)) : cutoff < t := by
  induction l with
  | nil => cases h
  | cons a l ih =>
    obtain ⟨ha, hl⟩ := List.pairwise_cons.mp hsorted
    by_cases hle : a ≤ cutoff
    · rw [List.dropWhile_cons_of_pos (by simpa using hle)] at h
      exact ih hl h
    · rw [List.dropWhile_cons_of_neg (by simpa using hle)] at h
      rcases List.mem_cons.mp h with rfl | h
      · exact not_le.mp hle
      · exact (not_le.mp hle).trans_le (ha t h)

end TaNode

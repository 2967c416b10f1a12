import Mathlib.Algebra.Order.BigOperators.Group.Finset

/-! Jobs that are retried a bounded number of times, served in rounds.

    Every job has a number of attempts left; one with none left is done. A round serves some jobs,
    each at the cost of an attempt, and leaves the others alone:

        left    3 1 2 0            Σ = 6
        served  · ■ ■ ·
        left'   3 0 1 0            Σ = 4

    As long as every round serves somebody while there is anybody to serve, all jobs are done in the
    end, and no job is served more often than it has attempts. -/

namespace TaNode
variable {ι : Type} [DecidableEq ι]

/-- One round. -/
structure Round (left left' : ι → ℕ) (served : List ι) : Prop where
  nodup : served.Nodup
  spent : ∀ i ∈ served, left' i < left i
  kept : ∀ i, i ∉ served → left' i = left i

section
variable {left left' : ι → ℕ} {served : List ι}

section
variable (h : Round left left' served)
include h

theorem Round.count_add_le (i : ι) : served.count i + left' i ≤ left i := by
  by_cases hi : i ∈ served
  · rw [List.count_eq_one_of_mem h.nodup hi]
    have := h.spent i hi
    omega
  · rw [List.count_eq_zero_of_not_mem hi, h.kept i hi, Nat.zero_add]

theorem Round.le (i : ι) : left' i ≤ left i :=
  (Nat.le_add_left _ _).trans (h.count_add_le i)

/-- A round that serves one of the jobs leaves fewer attempts in all. -/
theorem Round.sum_lt {jobs : Finset ι} {i : ι} (hi : i ∈ jobs) (hserved : i ∈ served) :
    ∑ j ∈ jobs, left' j < ∑ j ∈ jobs, left j :=
  Finset.sum_lt_sum (fun j _ => h.le j) ⟨i, hi, h.spent i hserved⟩

end

end

section
variable {left : ℕ → ι → ℕ} {served : ℕ → List ι}
  (hround : ∀ n, Round (left n) (left (n + 1)) (served n))
include hround

/-- No job is served more often than it has attempts. -/
theorem rounds_count_le (i : ι) : ∀ n, ((List.range n).flatMap served).count i + left n i ≤ left 0 i
  | 0 => by simp
  | n + 1 => by
    have ih := rounds_count_le i n
    have hlast := (hround n).count_add_le i
    rw [List.range_succ, List.flatMap_append, List.count_append, List.flatMap_singleton]
    omega

/-- Everything is done in the end, after at most as many rounds as there are attempts. -/
theorem rounds_end {jobs : Finset ι}
    (hbusy : ∀ n, (∃ i ∈ jobs, left n i ≠ 0) → ∃ i ∈ jobs, i ∈ served n) :
    ∃ N, ∀ n ≥ N, ∀ i ∈ jobs, left n i = 0 := by
  have hsum : ∀ n, (∑ i ∈ jobs, left n i) + n ≤ (∑ i ∈ jobs, left 0 i) ∨ ∀ i ∈ jobs, left n i = 0 := by
    intro n
    induction n with
    | zero => exact .inl (Nat.le_refl _)
    | succ n ih =>
      by_cases hdone : ∀ i ∈ jobs, left n i = 0
      · exact .inr fun i hi => Nat.le_zero.mp (hdone i hi ▸ (hround n).le i)
      · rcases ih with ih | ih
        · push Not at hdone
          obtain ⟨i, hi, hserved⟩ := hbusy n hdone
          have := (hround n).sum_lt hi hserved
          exact .inl (by omega)
        · exact absurd ih hdone
  refine ⟨∑ i ∈ jobs, left 0 i, fun n hn => ?_⟩
  rcases hsum n with h | h
  · have hzero : ∑ i ∈ jobs, left n i = 0 := by omega
    exact Finset.sum_eq_zero_iff.mp hzero
  · exact h

end

end TaNode

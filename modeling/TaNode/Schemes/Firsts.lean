import Mathlib.Data.List.Nodup

/-! Keeping the first element of each key, the loop of a program that lists one entry an object.

    An element without a key is always kept. `firsts_spec` says which elements survive, `exists_firsts`
    that no key is lost. `firsts_filter` is what paging rests on: a list thinned out behind its first
    `n` survivors has the same first `n` survivors. -/

namespace TaNode
variable {α κ : Type} [DecidableEq κ] (key : α → Option κ)

/-- The elements whose key has not been seen before. -/
def firsts : List α → List κ → List α
  | [], _ => []
  | a :: l, seen =>
    match key a with
    | none => a :: firsts l seen
    | some k => if k ∈ seen then firsts l seen else a :: firsts l (k :: seen)

variable {key} {a : α} {k : κ} {l : List α} {seen : List κ}

theorem firsts_none (h : key a = none) (l : List α) (seen : List κ) :
    firsts key (a :: l) seen = a :: firsts key l seen := by
  rw [firsts, h]

theorem firsts_seen (h : key a = some k) (hk : k ∈ seen) (l : List α) :
    firsts key (a :: l) seen = firsts key l seen := by
  rw [firsts, h]
  exact if_pos hk

theorem firsts_new (h : key a = some k) (hk : k ∉ seen) (l : List α) :
    firsts key (a :: l) seen = a :: firsts key l (k :: seen) := by
  rw [firsts, h]
  exact if_neg hk

theorem firsts_sublist : ∀ (l : List α) (seen : List κ), (firsts key l seen).Sublist l
  | [], _ => List.Sublist.slnil
  | a :: l, seen => by
    cases h : key a with
    | none =>
      rw [firsts_none h]
      exact (firsts_sublist l seen).cons_cons a
    | some k =>
      by_cases hk : k ∈ seen
      · rw [firsts_seen h hk]
        exact (firsts_sublist l seen).cons a
      · rw [firsts_new h hk]
        exact (firsts_sublist l (k :: seen)).cons_cons a

/-- A survivor is the first element of its key. -/
theorem firsts_spec : ∀ {l : List α} {seen : List κ}, a ∈ firsts key l seen → key a = some k →
    k ∉ seen ∧ ∃ pre post, l = pre ++ a :: post ∧ ∀ x ∈ pre, key x ≠ some k
  | [], _, h, _ => by simp [firsts] at h
  | b :: l, seen, h, hk => by
    cases hb : key b with
    | none =>
      rw [firsts_none hb] at h
      rcases List.mem_cons.mp h with rfl | h
      · rw [hb] at hk
        cases hk
      · obtain ⟨hnew, pre, post, rfl, hpre⟩ := firsts_spec h hk
        refine ⟨hnew, b :: pre, post, rfl, ?_⟩
        rintro x hx
        rcases List.mem_cons.mp hx with rfl | hx
        · rw [hb]
          simp
        · exact hpre x hx
    | some j =>
      by_cases hj : j ∈ seen
      · rw [firsts_seen hb hj] at h
        obtain ⟨hnew, pre, post, rfl, hpre⟩ := firsts_spec h hk
        refine ⟨hnew, b :: pre, post, rfl, ?_⟩
        rintro x hx
        rcases List.mem_cons.mp hx with rfl | hx
        · rw [hb]
          rintro ⟨⟩
          exact hnew hj
        · exact hpre x hx
      · rw [firsts_new hb hj] at h
        rcases List.mem_cons.mp h with rfl | h
        · rw [hb] at hk
          cases hk
          exact ⟨hj, [], l, rfl, by simp⟩
        · obtain ⟨hnew, pre, post, rfl, hpre⟩ := firsts_spec h hk
          refine ⟨fun hs => hnew (List.mem_cons_of_mem _ hs), b :: pre, post, rfl, ?_⟩
          rintro x hx
          rcases List.mem_cons.mp hx with rfl | hx
          · rw [hb]
            rintro ⟨⟩
            exact hnew (by simp)
          · exact hpre x hx

/-- Every key has a survivor. -/
theorem exists_firsts : ∀ {l : List α} {seen : List κ}, a ∈ l → key a = some k → k ∉ seen →
    ∃ b ∈ firsts key l seen, key b = some k
  | [], _, h, _, _ => by simp at h
  | b :: l, seen, h, hk, hseen => by
    cases hb : key b with
    | none =>
      rw [firsts_none hb]
      rcases List.mem_cons.mp h with rfl | h
      · rw [hb] at hk
        cases hk
      · obtain ⟨c, hc, hck⟩ := exists_firsts h hk hseen
        exact ⟨c, List.mem_cons_of_mem _ hc, hck⟩
    | some j =>
      by_cases hj : j ∈ seen
      · rw [firsts_seen hb hj]
        rcases List.mem_cons.mp h with rfl | h
        · rw [hb] at hk
          cases hk
          exact absurd hj hseen
        · exact exists_firsts h hk hseen
      · rw [firsts_new hb hj]
        by_cases hjk : j = k
        · exact ⟨b, by simp, by rw [hb, hjk]⟩
        · rcases List.mem_cons.mp h with rfl | h
          · rw [hb] at hk
            exact absurd (Option.some.inj hk) hjk
          · have hnew : k ∉ j :: seen := by simp [hseen, Ne.symm hjk]
            obtain ⟨c, hc, hck⟩ := exists_firsts h hk hnew
            exact ⟨c, List.mem_cons_of_mem _ hc, hck⟩

/-- Elements without a key all survive. -/
theorem filter_firsts : ∀ (l : List α) (seen : List κ),
    (firsts key l seen).filter (fun a => (key a).isNone) = l.filter fun a => (key a).isNone
  | [], _ => rfl
  | a :: l, seen => by
    cases h : key a with
    | none =>
      rw [firsts_none h, List.filter_cons_of_pos (by rw [h]; rfl), filter_firsts l seen,
        List.filter_cons_of_pos (by rw [h]; rfl)]
    | some k =>
      rw [List.filter_cons_of_neg (a := a) (l := l) (by rw [h]; simp)]
      by_cases hk : k ∈ seen
      · rw [firsts_seen h hk, filter_firsts l seen]
      · rw [firsts_new h hk, List.filter_cons_of_neg (by rw [h]; simp), filter_firsts l (k :: seen)]

theorem mem_firsts_of_none (hk : key a = none) (h : a ∈ l) : a ∈ firsts key l seen := by
  have hmem : a ∈ l.filter fun a => (key a).isNone :=
    List.mem_filter.mpr ⟨h, by rw [hk]; rfl⟩
  rw [← filter_firsts l seen] at hmem
  exact List.mem_of_mem_filter hmem

/-- No key survives twice. -/
theorem firsts_pairwise : ∀ (l : List α) (seen : List κ),
    (firsts key l seen).Pairwise fun a b => ∀ k, key a = some k → key b ≠ some k
  | [], _ => List.Pairwise.nil
  | a :: l, seen => by
    cases h : key a with
    | none =>
      rw [firsts_none h, List.pairwise_cons]
      refine ⟨?_, firsts_pairwise l seen⟩
      rintro b - k hk
      rw [h] at hk
      cases hk
    | some j =>
      by_cases hj : j ∈ seen
      · rw [firsts_seen h hj]
        exact firsts_pairwise l seen
      · rw [firsts_new h hj, List.pairwise_cons]
        refine ⟨?_, firsts_pairwise l (j :: seen)⟩
        rintro b hb k hk hbk
        rw [h] at hk
        cases hk
        exact (firsts_spec hb hbk).1 (by simp)

/-- Thinning a list out behind its first survivors. -/
theorem firsts_filter {p : α → Bool} : ∀ (n : Nat) (l : List α) (seen : List κ),
    (∀ a ∈ (firsts key l seen).take n, p a = true) →
    (firsts key (l.filter p) seen).take n = (firsts key l seen).take n
  | n, [], seen, _ => rfl
  | 0, a :: l, seen, _ => by rw [List.take_zero, List.take_zero]
  | n + 1, a :: l, seen, h => by
    cases ha : key a with
    | none =>
      rw [firsts_none ha, List.take_succ_cons, List.forall_mem_cons] at h
      rw [List.filter_cons_of_pos h.1, firsts_none ha, firsts_none ha, List.take_succ_cons,
        List.take_succ_cons, firsts_filter n l seen h.2]
    | some j =>
      by_cases hj : j ∈ seen
      · rw [firsts_seen ha hj] at h ⊢
        cases hp : p a with
        | true =>
          rw [List.filter_cons_of_pos hp, firsts_seen ha hj]
          exact firsts_filter (n + 1) l seen h
        | false =>
          rw [List.filter_cons_of_neg (by rw [hp]; simp)]
          exact firsts_filter (n + 1) l seen h
      · rw [firsts_new ha hj, List.take_succ_cons, List.forall_mem_cons] at h
        rw [List.filter_cons_of_pos h.1, firsts_new ha hj, firsts_new ha hj, List.take_succ_cons,
          List.take_succ_cons, firsts_filter n l (j :: seen) h.2]

end TaNode

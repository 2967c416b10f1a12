import Mathlib.Data.List.Sort
import Mathlib.Data.List.Perm.Basic

/-! The first `n` elements of a collection in some order, gathered from several sources.

    A program that merges sources need not see all of them. It keeps the front of what it has read
    so far, and three rules say that this is enough:

        take   the front of one source is a prefix of it, sorted
        merge  the front of two sources comes from the fronts of each
        skip   a source behind a full front adds nothing

    `eq_take` ends the argument: where no two elements tie, there is only one front. -/

namespace TaNode

/-- `out` is the first `n` elements of `l` under `r`, in order. -/
structure Front {α : Type} (r : α → α → Prop) (n : Nat) (l out : List α) : Prop where
  ordered : out.Pairwise r
  short : out.length ≤ n
  left : ∃ rest, (out ++ rest).Perm l ∧ (∀ a ∈ out, ∀ b ∈ rest, r a b) ∧
    (rest ≠ [] → n ≤ out.length)

namespace Front
variable {α : Type} {r : α → α → Prop} {n : Nat} {l l' more out out' xs ys zs : List α}

theorem mem (h : Front r n l out) {a : α} (ha : a ∈ out) : a ∈ l := by
  obtain ⟨rest, hperm, -, -⟩ := h.left
  exact hperm.subset (List.mem_append_left _ ha)

/-- The front of one source. -/
theorem take (hperm : zs.Perm l) (hsorted : zs.Pairwise r) : Front r n l (zs.take n) := by
  refine ⟨hsorted.sublist (List.take_sublist _ _), List.length_take_le _ _, zs.drop n, ?_, ?_, ?_⟩
  · rw [List.take_append_drop]
    exact hperm
  · rw [← List.take_append_drop n zs, List.pairwise_append] at hsorted
    exact hsorted.2.2
  · intro hne
    rw [List.length_take]
    have hlen : n < zs.length := by
      by_contra hle
      exact hne (List.drop_eq_nil_of_le (by omega))
    omega

/-- A source all of whose elements come after a full front. -/
theorem skip (h : Front r n l out) (hfull : n ≤ out.length)
    (hafter : ∀ a ∈ out, ∀ b ∈ more, r a b) : Front r n (l ++ more) out := by
  obtain ⟨rest, hperm, hbefore, -⟩ := h.left
  refine ⟨h.ordered, h.short, rest ++ more, ?_, ?_, fun _ => hfull⟩
  · rw [← List.append_assoc]
    exact hperm.append_right more
  · intro a ha b hb
    rcases List.mem_append.mp hb with hb | hb
    · exact hbefore a ha b hb
    · exact hafter a ha b hb

/-- Where `n` elements of a sorted list come before `b`, its first `n` elements do. -/
theorem before_of_many [IsTrans α r] {b : α} (hsorted : zs.Pairwise r)
    (hsub : xs.Subperm zs) (hmany : n ≤ xs.length) (hbefore : ∀ x ∈ xs, r x b) :
    ∀ a ∈ zs.take n, r a b := by
  classical
  intro a ha
  by_contra hab
  -- no element from `a` on comes before `b`, and there are fewer than `n` in front of `a`
  obtain ⟨pre, post, hsplit⟩ := List.append_of_mem ha
  have hzs : zs = pre ++ a :: (post ++ zs.drop n) := by
    rw [← List.cons_append, ← List.append_assoc, ← hsplit, List.take_append_drop]
  have hpre : pre.length < n := by
    have := congrArg List.length hsplit
    rw [List.length_take, List.length_append, List.length_cons] at this
    omega
  have htail : (a :: (post ++ zs.drop n)).countP (fun x => decide (r x b)) = 0 := by
    rw [List.countP_eq_zero]
    intro x hx hxb
    rw [hzs, List.pairwise_append, List.pairwise_cons] at hsorted
    rcases List.mem_cons.mp hx with rfl | hx
    · exact hab (of_decide_eq_true hxb)
    · exact hab (IsTrans.trans _ _ _ (hsorted.2.1.1 x hx) (of_decide_eq_true hxb))
  have hcount : xs.length ≤ zs.countP fun x => decide (r x b) := by
    rw [← List.countP_eq_length.mpr fun x hx => decide_eq_true (hbefore x hx)]
    exact hsub.countP_le _
  rw [hzs, List.countP_append, htail] at hcount
  have := List.countP_le_length (p := fun x => decide (r x b)) (l := pre)
  omega

variable {ps : List (List α × List α)}

/-- What the fronts of some sources leave over: each element left comes after a full front. -/
theorem left_over (h : ∀ p ∈ ps, Front r n p.1 p.2) :
    ∃ rest, (ps.flatMap Prod.snd ++ rest).Perm (ps.flatMap Prod.fst) ∧
      ∀ b ∈ rest, ∃ p ∈ ps, n ≤ p.2.length ∧ ∀ a ∈ p.2, r a b := by
  induction ps with
  | nil => exact ⟨[], List.Perm.refl _, fun _ hb => (List.not_mem_nil hb).elim⟩
  | cons p ps ih =>
    obtain ⟨rest, hperm, hrest⟩ := ih fun q hq => h q (List.mem_cons_of_mem _ hq)
    obtain ⟨more, hmore, hbefore, hfull⟩ := (h p List.mem_cons_self).left
    refine ⟨more ++ rest, ?_, fun b hb => ?_⟩
    · rw [List.flatMap_cons, List.flatMap_cons]
      have hswap : (p.2 ++ ps.flatMap Prod.snd ++ (more ++ rest)).Perm
          (p.2 ++ more ++ (ps.flatMap Prod.snd ++ rest)) := by
        rw [List.append_assoc, List.append_assoc]
        refine List.Perm.append_left p.2 ?_
        rw [← List.append_assoc, ← List.append_assoc]
        exact List.perm_append_comm.append_right rest
      exact hswap.trans (hmore.append hperm)
    · rcases List.mem_append.mp hb with hb | hb
      · exact ⟨p, List.mem_cons_self, hfull (List.ne_nil_of_mem hb), fun a ha => hbefore a ha b hb⟩
      · obtain ⟨q, hq, hlen, hafter⟩ := hrest b hb
        exact ⟨q, List.mem_cons_of_mem _ hq, hlen, hafter⟩

theorem sublist_flatMap {p : List α × List α} (h : p ∈ ps) : p.2.Sublist (ps.flatMap Prod.snd) := by
  obtain ⟨pre, post, rfl⟩ := List.append_of_mem h
  rw [List.flatMap_append, List.flatMap_cons]
  exact (List.sublist_append_left _ _).trans (List.sublist_append_right _ _)

/-- The front of any number of sources, sorted out of the fronts of each. -/
theorem gather [IsTrans α r] (h : ∀ p ∈ ps, Front r n p.1 p.2)
    (hperm : zs.Perm (ps.flatMap Prod.snd)) (hsorted : zs.Pairwise r) :
    Front r n (ps.flatMap Prod.fst) (zs.take n) := by
  obtain ⟨left, hleft, hafter⟩ := left_over h
  obtain ⟨rest, hrest, hbefore, hfull⟩ := (take hperm hsorted (n := n)).left
  refine ⟨hsorted.sublist (List.take_sublist _ _), List.length_take_le _ _, rest ++ left, ?_, ?_, ?_⟩
  · rw [← List.append_assoc]
    exact (hrest.append_right left).trans hleft
  · intro a ha b hb
    rcases List.mem_append.mp hb with hb | hb
    · exact hbefore a ha b hb
    · obtain ⟨p, hp, hmany, hpb⟩ := hafter b hb
      have hsub : p.2.Subperm zs :=
        (sublist_flatMap hp).subperm.trans hperm.symm.subperm
      exact before_of_many hsorted hsub hmany hpb a ha
  · intro hne
    by_cases hdrop : rest = []
    · rw [hdrop, List.nil_append] at hne
      obtain ⟨b, hb⟩ := List.exists_mem_of_ne_nil _ hne
      obtain ⟨p, hp, hmany, -⟩ := hafter b hb
      have hsub : p.2.Subperm zs :=
        (sublist_flatMap hp).subperm.trans hperm.symm.subperm
      have := hsub.length_le
      rw [List.length_take]
      omega
    · exact hfull hdrop

/-- The front of two sources. -/
theorem merge [IsTrans α r] (hx : Front r n l xs) (hy : Front r n l' ys)
    (hperm : zs.Perm (xs ++ ys)) (hsorted : zs.Pairwise r) :
    Front r n (l ++ l') (zs.take n) := by
  have hboth : ∀ p ∈ [(l, xs), (l', ys)], Front r n p.1 p.2 := by
    intro p hp
    rcases List.mem_pair.mp hp with rfl | rfl
    · exact hx
    · exact hy
  have hfront := gather hboth (by simpa using hperm) hsorted
  simpa using hfront

/-- Without ties the front is a prefix of the sorted collection. -/
theorem eq_take [IsTrans α r] [Std.Total r] (hanti : ∀ a ∈ l, ∀ b ∈ l, r a b → r b a → a = b)
    (h : Front r n l out) (hperm : zs.Perm l) (hsorted : zs.Pairwise r) : out = zs.take n := by
  classical
  obtain ⟨rest, hpo, hbefore, hfull⟩ := h.left
  have hsort := List.perm_insertionSort r rest
  have hout : (out ++ rest.insertionSort r).Pairwise r := by
    rw [List.pairwise_append]
    refine ⟨h.ordered, List.pairwise_insertionSort r rest, ?_⟩
    intro a ha b hb
    exact hbefore a ha b (hsort.subset hb)
  have hlist : (out ++ rest.insertionSort r).Perm l := (hsort.append_left out).trans hpo
  have heq : out ++ rest.insertionSort r = zs := by
    refine List.Perm.eq_of_pairwise ?_ hout hsorted (hlist.trans hperm.symm)
    intro a b ha hb
    exact hanti a (hlist.subset ha) b (hperm.subset hb)
  by_cases hrest : rest = []
  · subst hrest
    rw [← heq, List.insertionSort_nil, List.append_nil, List.take_of_length_le h.short]
  · have hlen : out.length = n := le_antisymm h.short (hfull hrest)
    rw [← heq, List.take_left' hlen]

end Front

/-! ### Sorting -/

/-- `less` compares by rank: it has no cycles, and standing not after is transitive. -/
structure Ranks {α : Type} (less : α → α → Bool) : Prop where
  asymm : ∀ a b, less a b = true → less b a = false
  trans : ∀ a b c, less b a = false → less c b = false → less c a = false

/-- Descending order of a key. -/
theorem ranks_desc {α κ : Type} [LinearOrder κ] (key : α → κ) :
    Ranks fun a b => decide (key b < key a) where
  asymm a b h := by
    rw [decide_eq_true_iff] at h
    exact decide_eq_false (lt_asymm h)
  trans a b c h₁ h₂ := by
    rw [decide_eq_false_iff_not, not_lt] at h₁ h₂ ⊢
    exact h₂.trans h₁

/-- A sorting procedure that need not be stable: it only promises a sorted permutation. -/
structure Sorter (α : Type) where
  sort : (α → α → Bool) → List α → List α
  perm : ∀ less l, (sort less l).Perm l
  sorted : ∀ less, Ranks less → ∀ l, (sort less l).Pairwise fun a b => less b a = false

section
variable {α : Type} {less : α → α → Bool}

theorem Ranks.total (h : Ranks less) : Std.Total fun a b => less b a = false := ⟨fun a b => by
  cases hab : less b a with
  | false => exact .inl rfl
  | true => exact .inr (h.asymm _ _ hab)⟩

theorem Ranks.isTrans (h : Ranks less) : IsTrans α fun a b => less b a = false := ⟨h.trans⟩

theorem Ranks.irrefl (h : Ranks less) (a : α) : less a a = false := by
  cases haa : less a a with
  | false => rfl
  | true => exact absurd (h.asymm a a haa) (by rw [haa]; simp)

end

/-- Insertion sort is one. -/
def Sorter.insertion (α : Type) : Sorter α where
  sort less l := l.insertionSort fun a b => less b a = false
  perm less l := List.perm_insertionSort _ l
  sorted less h l := by
    have htotal := h.total
    have htrans := h.isTrans
    exact List.pairwise_insertionSort _ l

/-- The sort that puts `x` ahead of everything it ties with. -/
def Sorter.favour {α : Type} [DecidableEq α] (x : α) : Sorter α where
  sort less l := (Sorter.insertion α).sort less (if x ∈ l then x :: l.erase x else l)
  perm less l := by
    refine ((Sorter.insertion α).perm less _).trans ?_
    split_ifs with hx
    · exact (List.perm_cons_erase hx).symm
    · exact List.Perm.refl _
  sorted less h l := (Sorter.insertion α).sorted less h _

/-- Only strictly smaller elements stand ahead of the favoured one. -/
theorem Sorter.favour_spec {α : Type} [DecidableEq α] {less : α → α → Bool} {x : α} {l : List α}
    (hx : x ∈ l) : ∃ pre post, (Sorter.favour x).sort less l = pre ++ x :: post ∧
      ∀ b ∈ pre, less b x = true := by
  have hsort : (Sorter.favour x).sort less l = List.orderedInsert (fun a b => less b a = false) x
      ((l.erase x).insertionSort fun a b => less b a = false) := by
    simp only [Sorter.favour, if_pos hx, Sorter.insertion, List.insertionSort_cons]
  rw [hsort, List.orderedInsert_eq_take_drop]
  refine ⟨_, _, rfl, ?_⟩
  intro b hb
  have hall := List.all_takeWhile (p := fun b => decide ¬less b x = false)
    (l := (l.erase x).insertionSort fun a b => less b a = false)
  simpa using List.all_eq_true.mp hall b hb

/-- Consecutive pages of a list. -/
theorem flatMap_pages {α : Type} (l : List α) (size : Nat) : ∀ n : Nat,
    ((List.range n).flatMap fun k => (l.take ((k + 1) * size)).drop (k * size)) = l.take (n * size)
  | 0 => by simp
  | n + 1 => by
    rw [List.range_succ, List.flatMap_append, flatMap_pages l size n, List.flatMap_cons,
      List.flatMap_nil, List.append_nil]
    have htake : (l.take ((n + 1) * size)).take (n * size) = l.take (n * size) := by
      rw [List.take_take, Nat.min_eq_left (Nat.mul_le_mul_right _ (Nat.le_succ n))]
    rw [← htake, List.take_append_drop]

end TaNode

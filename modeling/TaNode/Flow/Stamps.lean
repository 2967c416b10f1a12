import Mathlib.Data.List.Basic

/-! Stamps: what a counter shared by all writes on the marks of the things it sees.

    Things are seen one after the other. A thing belongs to a class (`key`), and each of its marks gets
    a stamp: the time at which the first of the class was seen, the time of the thing, its ordinal
    among all things, and what it is.

        seen     x₁  x₂  x₃  …
        ordinal  1   2   3
        first    t₁  t₂  t₁        if x₁ and x₃ are of one class

    If two neighbours change places the ordinals of both change; the stamps as a set stay the same if
    neither has a mark and nothing of their class comes to depend on which was first, or if the two
    are twins, which no stamp tells apart. -/

namespace TaNode
variable {ι κ μ : Type} {T : Type}

/-- A thing that is seen: what it is, when, and its marks. -/
structure Sight (ι T μ : Type) where
  id : ι
  time : T
  marks : List μ

@[ext]
structure Stamp (ι T μ : Type) where
  first : T
  time : T
  ordinal : Nat
  id : ι
  mark : μ

namespace Sight

/-- No stamp tells the two apart. -/
structure Twin (a b : Sight ι T μ) : Prop where
  id : a.id = b.id
  time : a.time = b.time
  marks : ∀ m, m ∈ a.marks ↔ m ∈ b.marks

theorem Twin.symm {a b : Sight ι T μ} (h : Twin a b) : Twin b a :=
  ⟨h.id.symm, h.time.symm, fun m => (h.marks m).symm⟩

variable [DecidableEq κ] (key : ι → κ)

/-- The first of the class of a thing, itself if there is none before. -/
def first (pre : List (Sight ι T μ)) (x : Sight ι T μ) : Sight ι T μ :=
  (pre.find? (key ·.id = key x.id)).getD x

/-- The stamps of things that are seen after others. -/
def stamps (pre : List (Sight ι T μ)) : List (Sight ι T μ) → List (Stamp ι T μ)
  | [] => []
  | x :: rest =>
    x.marks.map (fun m => ⟨(first key pre x).time, x.time, pre.length + 1, x.id, m⟩) ++
      stamps (pre ++ [x]) rest

variable {key} {pre l : List (Sight ι T μ)} {a b x : Sight ι T μ} {s : Stamp ι T μ}

/-- A stamp is that of a mark of one of the things, at its ordinal. -/
theorem mem_stamps : s ∈ stamps key pre l ↔ ∃ l₁ x l₂, l = l₁ ++ x :: l₂ ∧ ∃ m ∈ x.marks,
    s = ⟨(first key (pre ++ l₁) x).time, x.time, (pre ++ l₁).length + 1, x.id, m⟩ := by
  induction l generalizing pre with
  | nil => simp [stamps]
  | cons y rest ih =>
    rw [stamps, List.mem_append, ih, List.mem_map]
    constructor
    · rintro (⟨m, hm, rfl⟩ | ⟨l₁, x, l₂, rfl, m, hm, rfl⟩)
      · exact ⟨[], y, rest, rfl, m, hm, by simp⟩
      · exact ⟨y :: l₁, x, l₂, rfl, m, hm, by simp⟩
    · rintro ⟨l₁, x, l₂, hl, m, hm, rfl⟩
      cases l₁ with
      | nil =>
        obtain ⟨rfl, rfl⟩ := List.cons.inj hl
        exact .inl ⟨m, hm, by simp⟩
      | cons z l₁ =>
        obtain ⟨rfl, rfl⟩ := List.cons.inj hl
        exact .inr ⟨l₁, x, l₂, rfl, m, hm, by simp⟩

theorem stamps_append (pre l m : List (Sight ι T μ)) :
    stamps key pre (l ++ m) = stamps key pre l ++ stamps key (pre ++ l) m := by
  induction l generalizing pre with
  | nil => simp [stamps]
  | cons x l ih => rw [List.cons_append, stamps, stamps, ih, List.append_assoc, List.append_assoc]; rfl

/-- Which of two neighbours comes first is seen by things of their class only, if nothing of the class
    came before and the times of the two differ. -/
theorem first_swap (post : List (Sight ι T μ)) (h : key a.id = key b.id → key x.id = key a.id →
      a.time = b.time ∨ ∃ y ∈ pre, key y.id = key a.id) :
    (first key (pre ++ a :: b :: post) x).time = (first key (pre ++ b :: a :: post) x).time := by
  rw [first, first, List.find?_append, List.find?_append]
  cases hpre : pre.find? (key ·.id = key x.id) with
  | some y => rfl
  | none =>
    by_cases ha : key a.id = key x.id <;> by_cases hb : key b.id = key x.id
    · rcases h (ha.trans hb.symm) ha.symm with htime | ⟨y, hy, hkey⟩
      · simpa [ha, hb] using htime
      · have hnot := List.find?_eq_none.mp hpre y hy
        rw [decide_eq_true_eq] at hnot
        exact absurd (hkey.trans ha) hnot
    · simp [ha, hb]
    · simp [ha, hb]
    · simp [ha, hb]

variable {post : List (Sight ι T μ)}

theorem stamps_after_swap
    (h : ∀ x ∈ post, x.marks ≠ [] → key a.id = key b.id → key x.id = key a.id → a.time = b.time ∨ ∃ y ∈ pre, key y.id = key a.id) :
    ∀ l, stamps key (pre ++ a :: b :: l) post = stamps key (pre ++ b :: a :: l) post := by
  induction post with
  | nil => exact fun _ => rfl
  | cons x rest ih =>
    intro l
    have hrest := ih (fun y hy => h y (List.mem_cons_of_mem x hy)) (l ++ [x])
    rw [stamps, stamps, List.append_assoc, List.append_assoc, List.cons_append, List.cons_append,
      List.cons_append, List.cons_append, hrest]
    cases hmarks : x.marks with
    | nil => rfl
    | cons m ms =>
      have hfirst := first_swap l (h x (List.mem_cons_self ..) (by simp [hmarks]))
      rw [hfirst]
      simp

/-- Twins are stamped alike. -/
theorem Twin.first (h : Twin a b) (pre : List (Sight ι T μ)) :
    (Sight.first key pre a).time = (Sight.first key pre b).time := by
  rw [Sight.first, Sight.first, h.id]
  cases pre.find? (key ·.id = key b.id) with
  | none => exact h.time
  | some y => rfl

theorem Twin.first_after (h : Twin a b) (pre : List (Sight ι T μ)) :
    (Sight.first key (pre ++ [a]) b).time = (Sight.first key (pre ++ [b]) a).time := by
  rw [Sight.first, Sight.first, List.find?_append, List.find?_append, h.id]
  cases pre.find? (key ·.id = key b.id) with
  | none => simpa [h.id] using h.time
  | some y => rfl

/-- Two neighbours may change places if they have no marks or are twins, and nothing behind them comes
    to have another first of its class. -/
theorem mem_stamps_swap (hmarks : a.marks = [] ∧ b.marks = [] ∨ Twin a b)
    (h : ∀ x ∈ post, x.marks ≠ [] → key a.id = key b.id → key x.id = key a.id → a.time = b.time ∨ ∃ y ∈ pre, key y.id = key a.id) :
    s ∈ stamps key pre (a :: b :: post) ↔ s ∈ stamps key pre (b :: a :: post) := by
  have hafter := stamps_after_swap h []
  simp only [stamps, List.append_assoc, List.singleton_append]
  rw [hafter]
  rcases hmarks with ⟨ha, hb⟩ | htwin
  · simp [ha, hb]
  · simp only [List.mem_append, List.mem_map, htwin.first, htwin.first_after, htwin.time, htwin.id,
      htwin.marks, List.length_append, List.length_singleton]

end Sight
end TaNode

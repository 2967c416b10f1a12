import Mathlib.Data.List.Basic

/-! Sparse windows: a stretch of cells that are filled in any order and read from the front.

    A window keeps the cells and, beside them, which of them are filled. It grows at either end,
    takes each cell's first value and keeps it, and shows how far its filled front reaches:

        data     a b c · e f ·
        present  1 1 1 0 1 1 0        front = 3

    `get` reads a cell as an option; every operation has one lemma that says what it does to `get`,
    so proofs about windows never look at the two lists. -/

namespace TaNode

variable {i n : Nat}

/-- Cells over `α` with a mark on those that are filled. -/
structure Window (α : Type) where
  data : List α := []
  present : List Bool := []
  len : present.length = data.length := by rfl

namespace Window
variable {α : Type} (w : Window α) (z : α)

def empty : Window α := {}

def length : Nat := w.data.length

/-- A value under its mark. -/
def cell : Option Bool → Option α → Option α
  | some true, v => v
  | _, _ => none

/-- The value of a filled cell. -/
def get (i : Nat) : Option α := cell w.present[i]? w.data[i]?

theorem get_of_length_le (h : w.length ≤ i) : w.get i = none := by
  rw [get, List.getElem?_eq_none (by rw [w.len]; exact h)]
  rfl

theorem lt_length_of_get {v : α} (h : w.get i = some v) : i < w.length := by
  by_contra hle
  rw [w.get_of_length_le (by omega)] at h
  simp at h

/-- Empty cells in front. -/
def prepend (n : Nat) : Window α where
  data := List.replicate n z ++ w.data
  present := List.replicate n false ++ w.present
  len := by simp [w.len]

@[simp] theorem length_prepend (n : Nat) : (w.prepend z n).length = n + w.length := by
  simp [prepend, length]

theorem get_prepend (n i : Nat) :
    (w.prepend z n).get i = if i < n then none else w.get (i - n) := by
  by_cases hi : i < n
  · have hp : (w.prepend z n).present[i]? = some false := by
      rw [prepend, List.getElem?_append_left (by simpa using hi)]
      simp [hi]
    rw [get, hp, if_pos hi]
    rfl
  · have hle : n ≤ i := by omega
    rw [get, get, if_neg hi, prepend, List.getElem?_append_right (by simpa using hle),
      List.getElem?_append_right (by simpa using hle)]
    simp

/-- Empty cells behind, up to the length `n`. -/
def grow (n : Nat) : Window α where
  data := w.data ++ List.replicate (n - w.data.length) z
  present := w.present ++ List.replicate (n - w.present.length) false
  len := by simp [w.len]

@[simp] theorem length_grow (n : Nat) : (w.grow z n).length = max w.length n := by
  simp only [grow, length, List.length_append, List.length_replicate]
  omega

@[simp] theorem get_grow (n i : Nat) : (w.grow z n).get i = w.get i := by
  by_cases hi : i < w.length
  · rw [get, get, grow, List.getElem?_append_left (by rw [w.len]; exact hi),
      List.getElem?_append_left hi]
  · have hle : w.length ≤ i := by omega
    rw [w.get_of_length_le hle, get, grow, List.getElem?_append_right (by rw [w.len]; exact hle),
      List.getElem?_replicate]
    by_cases hn : i - w.present.length < n - w.present.length <;> simp [hn, cell]

theorem grow_of_le (h : n ≤ w.length) : w.grow z n = w := by
  have hdata : n - w.data.length = 0 := Nat.sub_eq_zero_of_le h
  have hpresent : n - w.present.length = 0 := by rw [w.len]; exact hdata
  cases w
  simp only [grow] at hdata hpresent ⊢
  simp [hdata, hpresent]

/-- Fills a cell. -/
def set (i : Nat) (v : α) : Window α where
  data := w.data.set i v
  present := w.present.set i true
  len := by simp [w.len]

@[simp] theorem length_set (i : Nat) (v : α) : (w.set i v).length = w.length := by
  simp [set, length]

theorem get_set (hi : i < w.length) (v : α) (j : Nat) :
    (w.set i v).get j = if j = i then some v else w.get j := by
  have hdata : i < w.data.length := hi
  have hpresent : i < w.present.length := by rw [w.len]; exact hi
  by_cases hj : j = i
  · subst hj
    simp [get, set, hdata, hpresent, cell]
  · simp [get, set, List.getElem?_set_ne (Ne.symm hj), hj]

end Window

/-! ### Storing a run of values -/

/-- A window while values are stored in it: whether a cell was filled, and whether a filled cell had
    another value. -/
structure Filling (α : Type) where
  window : Window α
  added : Bool := false
  conflict : Bool := false

namespace Filling
variable {α : Type} [DecidableEq α]

/-- A cell takes the first value it is given. -/
def put (f : Filling α) (i : Nat) (v : α) : Filling α :=
  match f.window.get i with
  | none => { f with window := f.window.set i v, added := true }
  | some x => if x ≠ v then { f with conflict := true } else f

/-- Stores values from the cell `i` on. -/
def store (f : Filling α) : Nat → List α → Filling α
  | _, [] => f
  | i, v :: vs => store (f.put i v) (i + 1) vs

theorem length_put (f : Filling α) (i : Nat) (v : α) :
    (f.put i v).window.length = f.window.length := by
  rw [put]
  cases f.window.get i with
  | none => simp
  | some x => by_cases hx : x = v <;> simp [hx]

theorem get_put {f : Filling α} (hi : i < f.window.length) (v : α) (j : Nat) :
    (f.put i v).window.get j = (f.window.get j).or (if j = i then some v else none) := by
  rw [put]
  cases hg : f.window.get i with
  | none =>
    simp only [f.window.get_set hi]
    by_cases hj : j = i
    · subst hj; simp [hg]
    · simp [hj]
  | some x =>
    have hsame : (if x ≠ v then { f with conflict := true } else f).window = f.window := by
      by_cases hx : x = v <;> simp [hx]
    simp only [hsame]
    by_cases hj : j = i
    · subst hj; simp [hg]
    · simp [hj]

theorem conflict_put (f : Filling α) (i : Nat) (v : α) :
    (f.put i v).conflict = true ↔ f.conflict = true ∨ ∃ x, f.window.get i = some x ∧ x ≠ v := by
  rw [put]
  cases f.window.get i with
  | none => simp
  | some x => by_cases hx : x = v <;> simp [hx]

/-- Values that are all there change nothing. -/
theorem store_of_held : ∀ (vs : List α) {f : Filling α} {i : Nat},
    (∀ k v, vs[k]? = some v → f.window.get (i + k) = some v) → f.store i vs = f
  | [], _, _, _ => rfl
  | v :: vs, f, i, h => by
    have hput : f.put i v = f := by
      have hv : f.window.get i = some v := h 0 v rfl
      rw [put, hv]
      simp
    rw [store, hput]
    refine store_of_held vs fun k x hk => ?_
    rw [Nat.add_assoc, Nat.add_comm 1]
    exact h (k + 1) x hk

theorem length_store : ∀ (vs : List α) (f : Filling α) (i : Nat),
    (f.store i vs).window.length = f.window.length
  | [], _, _ => rfl
  | v :: vs, f, i => by rw [store, length_store vs, length_put]

/-- Storing keeps every filled cell and fills the others in its range. -/
theorem get_store : ∀ (vs : List α) {f : Filling α} {i : Nat}, i + vs.length ≤ f.window.length →
    ∀ j, (f.store i vs).window.get j = (f.window.get j).or (if i ≤ j then vs[j - i]? else none)
  | [], f, i, _, j => by simp [store]
  | v :: vs, f, i, h, j => by
    rw [List.length_cons] at h
    have hi : i < f.window.length := by omega
    rw [store, get_store vs (by rw [length_put]; omega), get_put hi, Option.or_assoc]
    congr 1
    rcases Nat.lt_trichotomy j i with hj | rfl | hj
    · simp [show ¬(j = i) by omega, show ¬(i + 1 ≤ j) by omega, show ¬(i ≤ j) by omega]
    · simp
    · obtain ⟨k, rfl⟩ : ∃ k, j = i + 1 + k := ⟨j - (i + 1), by omega⟩
      simp [show ¬(i + 1 + k = i) by omega, show i ≤ i + 1 + k by omega,
        show i + 1 + k - i = k + 1 by omega]

/-- A conflict is a filled cell in the range with another value. -/
theorem conflict_store : ∀ (vs : List α) {f : Filling α} {i : Nat},
    i + vs.length ≤ f.window.length →
    ((f.store i vs).conflict = true ↔ f.conflict = true ∨
      ∃ k v x, vs[k]? = some v ∧ f.window.get (i + k) = some x ∧ x ≠ v)
  | [], f, i, _ => by simp [store]
  | v :: vs, f, i, h => by
    rw [List.length_cons] at h
    have hi : i < f.window.length := by omega
    -- the cells behind the first one are as they were
    have hrest : ∀ k, (f.put i v).window.get (i + 1 + k) = f.window.get (i + (k + 1)) := by
      intro k
      rw [get_put hi, if_neg (by omega), Option.or_none]
      congr 1
      omega
    rw [store, conflict_store vs (by rw [length_put]; omega), conflict_put, or_assoc]
    refine or_congr_right ⟨?_, ?_⟩
    · rintro (⟨x, hx, hne⟩ | ⟨k, u, x, hk, hx, hne⟩)
      · exact ⟨0, v, x, rfl, hx, hne⟩
      · exact ⟨k + 1, u, x, by simpa using hk, by rw [← hrest]; exact hx, hne⟩
    · rintro ⟨k, u, x, hk, hx, hne⟩
      cases k with
      | zero =>
        simp only [List.getElem?_cons_zero, Option.some.injEq] at hk
        subst hk
        exact Or.inl ⟨x, hx, hne⟩
      | succ k => exact Or.inr ⟨k, u, x, by simpa using hk, by rw [hrest]; exact hx, hne⟩

end Filling

/-! ### The filled front -/

namespace Window
variable {α : Type} (w : Window α)

/-- The number of marks up to the first one that is not set. -/
def run : List Bool → Nat
  | true :: bs => run bs + 1
  | _ => 0

theorem getElem?_of_lt_run : ∀ {bs : List Bool} {i : Nat}, i < run bs → bs[i]? = some true
  | true :: _, 0, _ => rfl
  | true :: bs, i + 1, h => by
    rw [List.getElem?_cons_succ]
    exact getElem?_of_lt_run (by simpa [run] using h)
  | [], _, h => by simp [run] at h
  | false :: _, _, h => by simp [run] at h

theorem getElem?_run : ∀ bs : List Bool, bs[run bs]? ≠ some true
  | [] => by simp [run]
  | false :: _ => by simp [run]
  | true :: bs => by
    rw [run, List.getElem?_cons_succ]
    exact getElem?_run bs

/-- Walks on from `n` as long as cells are filled. -/
def scan (n : Nat) : Nat := n + run (w.present.drop n)

/-- How far the filled front reaches. -/
def front : Nat := w.scan 0

theorem isSome_get_iff : (w.get i).isSome ↔ w.present[i]? = some true := by
  rw [get]
  constructor
  · intro h
    cases hp : w.present[i]? with
    | none => rw [hp] at h; simp [cell] at h
    | some b =>
      cases b with
      | true => rfl
      | false => rw [hp] at h; simp [cell] at h
  · intro h
    have hi : i < w.data.length := by
      rw [← w.len]
      exact (List.getElem?_eq_some_iff.mp h).1
    rw [h, List.getElem?_eq_getElem hi]
    rfl

/-- Every cell that was walked over is filled. -/
theorem isSome_get_of_lt_scan (hn : n ≤ i) (hi : i < w.scan n) : (w.get i).isSome := by
  rw [scan] at hi
  have h := getElem?_of_lt_run (show i - n < run (w.present.drop n) by omega)
  rw [List.getElem?_drop, Nat.add_sub_cancel' hn] at h
  exact w.isSome_get_iff.mpr h

/-- The walk stops at a cell that is not filled. -/
theorem get_scan (n : Nat) : w.get (w.scan n) = none := by
  rw [← Option.not_isSome_iff_eq_none, isSome_get_iff, scan, ← List.getElem?_drop]
  exact getElem?_run _

theorem isSome_get_of_lt_front (h : i < w.front) : (w.get i).isSome :=
  w.isSome_get_of_lt_scan (Nat.zero_le i) h

theorem get_front : w.get w.front = none := w.get_scan 0

/-- The front is the one place with filled cells before it and an empty one at it. -/
theorem front_eq (hbefore : ∀ i < n, (w.get i).isSome) (hat : w.get n = none) : w.front = n := by
  rcases Nat.lt_trichotomy w.front n with h | h | h
  · have := hbefore _ h
    rw [w.get_front] at this
    simp at this
  · exact h
  · have := w.isSome_get_of_lt_front h
    rw [hat] at this
    simp at this

/-- Walking on from anywhere inside the front ends at the front. -/
theorem scan_eq_front (h : ∀ i < n, (w.get i).isSome) : w.scan n = w.front := by
  refine (w.front_eq ?_ (w.get_scan n)).symm
  intro i hi
  rcases Nat.lt_or_ge i n with hn | hn
  · exact h i hn
  · exact w.isSome_get_of_lt_scan hn hi

theorem front_le_length : w.front ≤ w.length := by
  by_contra h
  have := w.isSome_get_of_lt_front (i := w.length) (by omega)
  rw [w.get_of_length_le (Nat.le_refl _)] at this
  simp at this

/-- Inside the front the cells are the values. -/
theorem getElem?_take_front (i : Nat) :
    (w.data.take w.front)[i]? = if i < w.front then w.get i else none := by
  by_cases h : i < w.front
  · rw [if_pos h, List.getElem?_take_of_lt h, get, w.isSome_get_iff.mp (w.isSome_get_of_lt_front h)]
    rfl
  · rw [if_neg h, List.getElem?_take_eq_none (by omega)]

end Window

end TaNode

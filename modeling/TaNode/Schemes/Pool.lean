import Mathlib.Data.List.Perm.Basic

/-! Pools: members that move on their own, in any order, and put out what they have to say.

    A pool is a list of members whose order does not matter. In one move a member steps and puts out
    a list, a member leaves, or a new one joins; an `Advance` is any number of moves with all their
    output in order.

        l ──out₁──▶ l₁ ──out₂──▶ … ──▶ l'        Advance l (out₁ ++ out₂ ++ …) l'

    What holds of a pool and all the output so far, and survives every kind of move, survives an
    advance (`Advance.invariant`). The other lemmas build advances: one member at its place, every
    member once, everybody leaving. -/

namespace TaNode
variable {τ ο : Type}

/-- A member and its change, at the head of the pool. -/
theorem perm_modify {l : List τ} {i : Nat} {a : τ} (ha : l[i]? = some a) (f : τ → τ) :
    l.Perm (a :: l.eraseIdx i) ∧ (l.modify i f).Perm (f a :: l.eraseIdx i) := by
  obtain ⟨hi, rfl⟩ := List.getElem?_eq_some_iff.mp ha
  have hmodify := List.getElem_cons_eraseIdx_perm (l := l.modify i f) (by simpa using hi)
  rw [List.eraseIdx_modify_of_eq, List.getElem_modify_eq] at hmodify
  exact ⟨(List.getElem_cons_eraseIdx_perm hi).symm, hmodify.symm⟩

/-- The moves of a pool: `step` with output, leaving if `drops`, joining if `fresh`. -/
inductive Advance (step : τ → List ο → τ → Prop) (fresh drops : τ → Prop) :
    List τ → List ο → List τ → Prop
  | perm {l l' : List τ} : l.Perm l' → Advance step fresh drops l [] l'
  | step {a b : τ} {out : List ο} {l : List τ} :
      step a out b → Advance step fresh drops (a :: l) out (b :: l)
  | drop {a : τ} {l : List τ} : drops a → Advance step fresh drops (a :: l) [] l
  | join {a : τ} {l : List τ} : fresh a → Advance step fresh drops l [] (a :: l)
  | trans {l₁ l₂ l₃ : List τ} {out₁ out₂ : List ο} : Advance step fresh drops l₁ out₁ l₂ →
      Advance step fresh drops l₂ out₂ l₃ → Advance step fresh drops l₁ (out₁ ++ out₂) l₃

namespace Advance
variable {step : τ → List ο → τ → Prop} {fresh drops : τ → Prop} {l l' l₁ l₂ l₃ : List τ}
  {out out₁ out₂ : List ο}

theorem refl (l : List τ) : Advance step fresh drops l [] l := perm (List.Perm.refl l)

/-- A silent advance in front. -/
theorem after (h₁ : Advance step fresh drops l₁ [] l₂) (h₂ : Advance step fresh drops l₂ out l₃) :
    Advance step fresh drops l₁ out l₃ := trans h₁ h₂

/-- A silent advance behind. -/
theorem before (h₁ : Advance step fresh drops l₁ out l₂) (h₂ : Advance step fresh drops l₂ [] l₃) :
    Advance step fresh drops l₁ out l₃ := by
  have h := trans h₁ h₂
  rwa [List.append_nil] at h

/-- Members that are not concerned stay. -/
theorem frame (h : Advance step fresh drops l out l') (m : List τ) :
    Advance step fresh drops (l ++ m) out (l' ++ m) := by
  induction h with
  | perm hp => exact perm (hp.append_right m)
  | step hs => exact .step hs
  | drop hd => exact drop hd
  | join hf => exact join hf
  | trans _ _ ih₁ ih₂ => exact trans ih₁ ih₂

/-- Two parts of a pool advance one after the other. -/
theorem append {m m' : List τ} (h₁ : Advance step fresh drops l out₁ l')
    (h₂ : Advance step fresh drops m out₂ m') :
    Advance step fresh drops (l ++ m) (out₁ ++ out₂) (l' ++ m') := by
  refine trans (h₁.frame m) ?_
  have h := h₂.frame l'
  exact after (perm List.perm_append_comm) (h.before (perm List.perm_append_comm))

/-- Every member steps once, from how it was in `l` to `next` of how it is in `m`. -/
theorem each {m : List τ} {put : τ → List ο} {next : τ → τ}
    (h : List.Forall₂ (fun a b => step a (put b) (next b)) l m) :
    Advance step fresh drops l (m.flatMap put) (m.map next) := by
  induction h with
  | nil => exact refl []
  | @cons a b l m hab _ ih =>
    rw [List.flatMap_cons, List.map_cons]
    have h₁ : Advance step fresh drops [a] (put b) [next b] := .step hab
    exact append h₁ ih

/-- Every member steps once more and leaves. -/
theorem close {put : τ → List ο} (h : ∀ a ∈ l, ∃ b, step a (put a) b ∧ drops b) :
    Advance step fresh drops l (l.flatMap put) [] := by
  induction l with
  | nil => exact refl []
  | cons a l ih =>
    obtain ⟨b, hs, hd⟩ := h a List.mem_cons_self
    rw [List.flatMap_cons]
    exact trans (.step hs) (after (drop hd) (ih fun c hc => h c (List.mem_cons_of_mem a hc)))

/-- One member steps at its place. -/
theorem modify {i : Nat} {f : τ → τ} {a : τ} (ha : l[i]? = some a) (h : step a out (f a)) :
    Advance step fresh drops l out (l.modify i f) := by
  obtain ⟨hfront, hchanged⟩ := perm_modify ha f
  exact after (perm hfront) (before (.step h) (perm hchanged.symm))

/-- One member leaves its place. -/
theorem eraseIdx {i : Nat} {a : τ} (ha : l[i]? = some a) (h : drops a) :
    Advance step fresh drops l [] (l.eraseIdx i) :=
  after (perm (perm_modify ha id).1) (drop h)

/-- The invariant rule for a pool and all the output so far. -/
theorem invariant (inv : List τ → List ο → Prop)
    (hperm : ∀ {l l' E}, l.Perm l' → inv l E → inv l' E)
    (hstep : ∀ {a b out l E}, step a out b → inv (a :: l) E → inv (b :: l) (E ++ out))
    (hdrop : ∀ {a l E}, drops a → inv (a :: l) E → inv l E)
    (hjoin : ∀ {a l E}, fresh a → inv l E → inv (a :: l) E)
    (h : Advance step fresh drops l out l') : ∀ {E}, inv l E → inv l' (E ++ out) := by
  induction h with
  | perm hp =>
    intro E hi
    rw [List.append_nil]
    exact hperm hp hi
  | step hs => exact hstep hs
  | drop hd =>
    intro E hi
    rw [List.append_nil]
    exact hdrop hd hi
  | join hf =>
    intro E hi
    rw [List.append_nil]
    exact hjoin hf hi
  | trans _ _ ih₁ ih₂ =>
    intro E hi
    rw [← List.append_assoc]
    exact ih₂ (ih₁ hi)

end Advance

end TaNode

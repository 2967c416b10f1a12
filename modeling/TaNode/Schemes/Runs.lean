import Mathlib.Logic.Relation

/-! Transition systems: the states some run reaches, and the one induction every safety result
    rests on. -/

namespace TaNode
variable {σ : Type}

/-- The states reached from an initial one by any number of steps. -/
inductive Reachable (init : σ → Prop) (step : σ → σ → Prop) : σ → Prop
  | start {s : σ} : init s → Reachable init step s
  | next {s t : σ} : Reachable init step s → step s t → Reachable init step t

/-- The invariant rule: what holds initially and survives every step holds in every reachable
    state. -/
theorem Reachable.invariant {init : σ → Prop} {step : σ → σ → Prop} {inv : σ → Prop}
    (hinit : ∀ s, init s → inv s) (hstep : ∀ s t, inv s → step s t → inv t) {s : σ}
    (h : Reachable init step s) : inv s := by
  induction h with
  | start hs => exact hinit _ hs
  | next _ hst ih => exact hstep _ _ ih hst

end TaNode

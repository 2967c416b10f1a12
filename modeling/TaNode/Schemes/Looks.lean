/-! Readers of a shared state that never lock it: a program that looks at one snapshot after another.

        s ─▶ … ─▶ t₁ ─▶ … ─▶ t₂ ─▶ … ─▶ t₃
                  look       look       look ─▶ answer -/

namespace TaNode

/-- A program that looks at the state a number of times and then answers. -/
inductive Looks (σ α : Type) where
  | done (a : α)
  | look (next : σ → Looks σ α)

namespace Looks
variable {σ α β : Type} {s : σ}

/-- The answer when nothing happens meanwhile. -/
def run (s : σ) : Looks σ α → α
  | .done a => a
  | .look next => run s (next s)

/-- Goes on with a second program. -/
def bind : Looks σ α → (α → Looks σ β) → Looks σ β
  | .done a, k => k a
  | .look next, k => .look fun s => (next s).bind k

@[simp] theorem run_bind (p : Looks σ α) (k : α → Looks σ β) :
    (p.bind k).run s = (k (p.run s)).run s := by
  induction p with
  | done a => rfl
  | look next ih => exact ih s

end Looks

end TaNode

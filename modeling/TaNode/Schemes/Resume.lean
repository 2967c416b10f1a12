/-! Jobs that are interrupted and started again.

    A job is a deterministic program that alternates between its own local state and a durable one.
    An interruption loses the local state only. A job is resumable when a fresh start finds its way
    back: from every durable state a single call passes through, it reaches the local state it was
    interrupted in without another durable change.

        call:     start ──▶ l₁ ──▶ l₂ ──▶ l₃ ──▶ …          (durable d)
        restart:  start ──▶ …  ──▶ l₃        silent, d unchanged

    Then a call that is interrupted any number of times goes through the same durable states as one
    that never is (`Job.Silent.go`, `Job.Silent.ret`). -/

namespace TaNode

/-- What one step of a job comes to: it goes on, having counted `n` units of work, or returns. -/
inductive Tick (Λ σ : Type) where
  | go (l : Λ) (d : σ) (n : Nat)
  | ret (d : σ)

/-- A program over local states `Λ` and durable states `σ`. -/
structure Job (Λ σ ε : Type) where
  start : Λ
  tick : Λ → σ → Except ε (Tick Λ σ)

namespace Job
variable {Λ σ ε : Type} {J : Job Λ σ ε} {d₀ d d' : σ} {l l' m m' : Λ} {n n' : Nat}

/-- A call that started on `d₀` and was not interrupted is now at `l` and `d`, its work counted. -/
inductive Runs (J : Job Λ σ ε) (d₀ : σ) : Λ → σ → Nat → Prop
  | start : Runs J d₀ J.start d₀ 0
  | next {l l' : Λ} {d d' : σ} {c n : Nat} :
      Runs J d₀ l d c → J.tick l d = .ok (.go l' d' n) → Runs J d₀ l' d' (c + n)

/-- A call that started on `d₀` and was not interrupted has returned. -/
def Returns (J : Job Λ σ ε) (d₀ d' : σ) (n : Nat) : Prop :=
  ∃ l d, J.Runs d₀ l d n ∧ J.tick l d = .ok (.ret d')

/-- The job gets from `l` to `m` without changing the durable state or doing any work. -/
inductive Silent (J : Job Λ σ ε) (d : σ) : Λ → Λ → Prop
  | refl {l : Λ} : Silent J d l l
  | step {l l' m : Λ} : J.tick l d = .ok (.go l' d 0) → Silent J d l' m → Silent J d l m

theorem Silent.trans (h₁ : J.Silent d l l') (h₂ : J.Silent d l' m) : J.Silent d l m := by
  induction h₁ with
  | refl => exact h₂
  | step ht _ ih => exact .step ht (ih h₂)

/-- A call on its way to `l` takes a step: it is still on its way, or `l` has taken the step. -/
theorem Silent.go (h : J.Silent d m l) (hl : J.Runs d₀ l d n)
    (ht : J.tick m d = .ok (.go m' d' n')) :
    ∃ l' c, J.Runs d₀ l' d' c ∧ J.Silent d' m' l' := by
  cases h with
  | refl => exact ⟨m', _, .next hl ht, .refl⟩
  | step hs hrest =>
    rw [hs] at ht
    cases ht
    exact ⟨l, n, hl, hrest⟩

/-- A call on its way to `l` that returns was there already. -/
theorem Silent.ret (h : J.Silent d m l) (hl : J.Runs d₀ l d n)
    (ht : J.tick m d = .ok (.ret d')) : J.Returns d₀ d' n := by
  cases h with
  | refl => exact ⟨_, d, hl, ht⟩
  | step hs _ =>
    rw [hs] at ht
    cases ht

end Job

end TaNode

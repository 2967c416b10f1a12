import Mathlib.Logic.Function.Basic
import TaNode.Schemes.Runs
import TaNode.Server.Config

/-! Requests that save a configuration at the same time.

    A request reads the current configuration under the lock, merges its document with it, writes the
    file without the lock, and sets the configuration in memory under the lock again:

        waiting ──read──▶ read ──merge──▶ merged ──write──▶ written ──set──▶ done

    Between its read and its set another request may do the same: then the file is that of the one
    that wrote last and the memory that of the one that set last, and a secret that one of them has
    set is put back to the old one by the other. Nothing else goes wrong: requests that write what
    they would write if they read now, and set it before the next one writes, are run one after the
    other. -/

namespace TaNode.Server

/-! ### Steps -/

inductive Phase where
  | waiting
  | read (current : Config)
  | merged (req : Config)
  | written (saved : Config)
  | done

/-- The request has written the file and has not yet set the configuration. -/
def Phase.unset : Phase → Bool
  | .written _ => true
  | _ => false

structure State (ι : Type) where
  memory : Config
  file : Config
  phase : ι → Phase

inductive Action (ι : Type) where
  | read (i : ι)
  | merge (i : ι)
  | write (i : ι)
  | set (i : ι)

section
variable {ι : Type} [DecidableEq ι] (docs : ι → Document)

def State.put (s : State ι) (i : ι) (p : Phase) : State ι :=
  { s with phase := Function.update s.phase i p }

/-- One step of a request that is authorized. One that is refused by `save` takes no further step. -/
def step (s : State ι) : Action ι → Option (State ι)
  | .read i =>
    match s.phase i with
    | .waiting => some (s.put i (.read s.memory))
    | _ => none
  | .merge i =>
    match s.phase i with
    | .read current => some (s.put i (.merged (merge current (decode (docs i)))))
    | _ => none
  | .write i =>
    match s.phase i with
    | .merged req =>
      match save none req with
      | .ok saved => some ({ s with file := saved }.put i (.written saved))
      | .error _ => none
    | _ => none
  | .set i =>
    match s.phase i with
    | .written saved => some ({ s with memory := saved }.put i .done)
    | _ => none

def steps (s : State ι) (actions : List (Action ι)) : Option (State ι) := actions.foldlM (step docs) s

/-- One request after the other. -/
def serial (current : Config) (order : List ι) : Except String Config :=
  order.foldlM (fun current i => save none (merge current (decode (docs i)))) current

/-- What was written is set. -/
def State.Settled (s : State ι) : Prop := ∀ i, (s.phase i).unset = false

/-- A step in which a request writes the file only when what was written before is set, and only if a
    merge with the configuration in memory still gives what it writes. -/
def StepInTurn (s t : State ι) : Prop :=
  ∃ a, step docs s a = some t ∧ ∀ i, a = .write i →
    s.Settled ∧ s.phase i = .merged (merge s.memory (decode (docs i)))

/-- The requests that are done have run in this order, and at most one other has written the file. -/
structure Serial (start : Config) (s : State ι) (order : List ι) : Prop where
  nodup : order.Nodup
  mem : ∀ i, i ∈ order ↔ s.phase i = .done
  memory : serial docs start order = .ok s.memory
  written : ∀ i saved, s.phase i = .written saved →
    save none (merge s.memory (decode (docs i))) = .ok saved ∧ s.file = saved ∧
      ∀ j, j ≠ i → (s.phase j).unset = false
  agree : s.Settled → order ≠ [] → s.file = s.memory

end

/-! ### Requests in turn -/

section
variable {ι : Type} [DecidableEq ι] {docs : ι → Document} {start : Config} {s t : State ι}
  {order : List ι} {i : ι} {p : Phase}

theorem phase_put_self : (s.put i p).phase i = p := Function.update_self ..

theorem phase_put_of_ne {j : ι} (hj : j ≠ i) : (s.put i p).phase j = s.phase j :=
  Function.update_of_ne hj ..

/-- A request that is not done stays so until it sets the configuration. -/
theorem Serial.mem_put (h : Serial docs start s order) (hi : s.phase i ≠ .done) (hp : p ≠ .done)
    (j : ι) : j ∈ order ↔ (s.put i p).phase j = .done := by
  rw [h.mem]
  by_cases hj : j = i
  · subst hj
    rw [phase_put_self]
    exact iff_of_false hi hp
  · rw [phase_put_of_ne hj]

/-- A request enters a phase before its write. -/
theorem Serial.put (h : Serial docs start s order) (hi : s.phase i ≠ .done) (hp : p ≠ .done)
    (hunset : (s.phase i).unset = false) (hunset' : p.unset = false) :
    Serial docs start (s.put i p) order := by
  have hsame : ∀ j, ((s.put i p).phase j).unset = (s.phase j).unset := by
    intro j
    by_cases hj : j = i
    · rw [hj, phase_put_self, hunset, hunset']
    · rw [phase_put_of_ne hj]
  refine ⟨h.nodup, h.mem_put hi hp, h.memory, fun j saved hj => ?_, fun hsettled => ?_⟩
  · by_cases heq : j = i
    · rw [heq, phase_put_self] at hj
      rw [hj] at hunset'
      cases hunset'
    · rw [phase_put_of_ne heq] at hj
      obtain ⟨hsave, hfile, hothers⟩ := h.written j saved hj
      exact ⟨hsave, hfile, fun k hk => (hsame k).trans (hothers k hk)⟩
  · exact h.agree fun j => (hsame j).symm.trans (hsettled j)

/-- One step. -/
theorem Serial.step (h : Serial docs start s order) (hstep : StepInTurn docs s t) :
    ∃ order, Serial docs start t order := by
  obtain ⟨a, ha, hturn⟩ := hstep
  cases a with
  | read i =>
    simp only [Server.step] at ha
    split at ha <;> cases ha
    next hphase => exact ⟨order, h.put (by simp [hphase]) (by simp) (by rw [hphase]; rfl) rfl⟩
  | merge i =>
    simp only [Server.step] at ha
    split at ha <;> cases ha
    next hphase => exact ⟨order, h.put (by simp [hphase]) (by simp) (by rw [hphase]; rfl) rfl⟩
  | write i =>
    obtain ⟨hsettled, hphase⟩ := hturn i rfl
    simp only [Server.step, hphase] at ha
    split at ha <;> cases ha
    next saved hsave =>
    have hothers : ∀ j, j ≠ i →
        ((({ s with file := saved } : State ι).put i (.written saved)).phase j).unset = false := by
      intro j hj
      rw [phase_put_of_ne hj]
      exact hsettled j
    refine ⟨order, h.nodup, h.mem_put (by simp [hphase]) (by simp), h.memory, fun j saved' hj => ?_,
      fun hnow => ?_⟩
    · obtain rfl : j = i := Decidable.byContradiction fun hne => by
        have := hothers j hne
        rw [hj] at this
        cases this
      rw [phase_put_self] at hj
      cases hj
      exact ⟨hsave, rfl, hothers⟩
    · have := hnow i
      rw [phase_put_self] at this
      cases this
  | set i =>
    simp only [Server.step] at ha
    split at ha <;> cases ha
    next saved hphase =>
    obtain ⟨hsave, hfile, hothers⟩ := h.written i saved hphase
    have hnew : i ∉ order := by rw [h.mem, hphase]; simp
    refine ⟨order ++ [i], ?_, fun j => ?_, ?_, fun j saved' hj => ?_, fun _ _ => hfile⟩
    · refine List.nodup_append.mpr ⟨h.nodup, List.nodup_cons.mpr ⟨List.not_mem_nil, .nil⟩, ?_⟩
      rintro a ha b hb rfl
      exact hnew (List.mem_singleton.mp hb ▸ ha)
    · by_cases hj : j = i
      · subst hj
        simp [phase_put_self]
      · rw [phase_put_of_ne hj, List.mem_append, h.mem]
        simp [hj]
    · have hmemory := h.memory
      rw [serial] at hmemory ⊢
      rw [List.foldlM_append, hmemory]
      exact (bind_pure (save none _)).trans hsave
    · by_cases heq : j = i
      · rw [heq, phase_put_self] at hj
        cases hj
      · rw [phase_put_of_ne heq] at hj
        have := hothers j heq
        rw [hj] at this
        cases this

/-- **Requests in turn.** In a run in which a request writes only once what was written before is set,
    and only what it would also write if it read the configuration now, whenever all that was written
    is set the requests that are done have been executed one after the other, and the file has the
    configuration of the memory. -/
theorem saves_serializable {memory file : Config} (h : Reachable
      (fun s : State ι => s = ⟨memory, file, fun _ => .waiting⟩) (StepInTurn docs) s)
    (hsettled : s.Settled) :
    ∃ order : List ι, order.Nodup ∧ (∀ i, i ∈ order ↔ s.phase i = .done) ∧
      serial docs memory order = .ok s.memory ∧ (order ≠ [] → s.file = s.memory) := by
  have hstart : ∀ s : State ι, s = ⟨memory, file, fun _ => .waiting⟩ →
      ∃ order, Serial docs memory s order := by
    rintro _ rfl
    exact ⟨[], .nil, fun i => by simp, rfl, nofun,
      fun _ hne => absurd rfl hne⟩
  obtain ⟨order, hserial⟩ := h.invariant hstart fun s t ⟨order, hs⟩ hstep => hs.step hstep
  exact ⟨order, hserial.nodup, hserial.mem, hserial.memory, hserial.agree hsettled⟩

end

/-! ### Two requests -/

/-- One request sets a token, the other leaves it blank. -/
def twoDocuments : Bool → Document
  | true => fun f =>
    match f with
    | .token => some "secret"
    | _ => none
  | false => fun _ => none

/-- The state before them. -/
def beforeBoth : State Bool := ⟨Config.default, Config.default, fun _ => .waiting⟩

/-- Documents that leave nothing to be put back. -/
def fullDocuments (b : Bool) : Document
  | .token => some (if b then "first" else "second")
  | .apiKey => some "key"
  | .backend => some "v2"
  | _ => none

/-- Both read before either writes; each sets what it wrote before the other writes. -/
theorem full_documents_overlap : ∃ s,
    Reachable (fun s => s = beforeBoth) (StepInTurn fullDocuments) s ∧ s.memory .token = "second" ∧
    ∃ order : List Bool, order.Nodup ∧ (∀ i, i ∈ order ↔ s.phase i = .done) ∧
      serial fullDocuments Config.default order = .ok s.memory ∧ (order ≠ [] → s.file = s.memory) := by
  have h₀ : Reachable (fun s => s = beforeBoth) (StepInTurn fullDocuments) beforeBoth := .start rfl
  have h₁ := (((h₀.next ⟨.read true, rfl, nofun⟩).next ⟨.read false, rfl, nofun⟩).next
    ⟨.merge true, rfl, nofun⟩).next ⟨.merge false, rfl, nofun⟩
  have h₂ := (h₁.next ⟨.write true, rfl, fun | _, rfl => ⟨fun i => by cases i <;> rfl, rfl⟩⟩).next
    ⟨.set true, rfl, nofun⟩
  have h₃ := (h₂.next ⟨.write false, rfl, fun | _, rfl => ⟨fun i => by cases i <;> rfl,
    congrArg Phase.merged (funext (by decide +kernel))⟩⟩).next ⟨.set false, rfl, nofun⟩
  exact ⟨_, h₃, rfl, saves_serializable h₃ fun i => by cases i <;> rfl⟩

/-- When both read before either sets, the file may end up without the token that the memory has, and
    both may end up without it. -/
theorem token_lost :
    (∃ s, steps twoDocuments beforeBoth [.read true, .read false, .merge true, .merge false,
        .write true, .write false, .set false, .set true] = some s ∧ (∀ i, s.phase i = .done) ∧
      s.file .token ≠ s.memory .token) ∧
    ∃ s, steps twoDocuments beforeBoth [.read true, .read false, .merge true, .merge false,
        .write true, .set true, .write false, .set false] = some s ∧ (∀ i, s.phase i = .done) ∧
      s.memory .token = Field.zero .token ∧
      s.file .token = Field.zero .token := by
  refine ⟨⟨_, rfl, fun i => ?_, by decide +kernel⟩, _, rfl, fun i => ?_, rfl, rfl⟩
  · cases i <;> rfl
  · cases i <;> rfl

end TaNode.Server

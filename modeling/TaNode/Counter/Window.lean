import Mathlib.Algebra.Order.Ring.Int
import TaNode.Schemes.Table
import TaNode.Schemes.Trailing

/-! The burst counter: hits of a key inside a trailing window of time.

    For each key the counter keeps the times of its newest hits. `Hit` forgets those that have left the
    window, adds its own and gives up the oldest of more than `maxStamps`; a new key in a full table
    first evicts every key without a hit in the window, and is refused if that made no room.

    What a run has accepted of a key and what the table still keeps of it are related by `Kept`, and
    every operation keeps that relation. Times are nanoseconds. -/

namespace TaNode.Counter

/-! ### The counter -/

def defaultMaxStamps : Nat := 1024

structure Window where
  window : Int
  maxKeys : Int
  maxStamps : Nat
  entries : Table String (List Int) := ∅

/-- `New` -/
def newWindow (window maxKeys : Int) : Window where
  window := if window ≤ 0 then 60 * 10 ^ 9 else window
  maxKeys := if maxKeys ≤ 0 then 100000 else maxKeys
  maxStamps := defaultMaxStamps

/-- Drops leading times at or before the cutoff. -/
def pruneBefore (stamps : List Int) (cutoff : Int) : List Int := stamps.dropWhile (· ≤ cutoff)

namespace Window

def len (w : Window) : Nat := w.entries.entries.length

/-- Whether the newest hit of a key is at or before the cutoff. -/
def idle (cutoff : Int) (stamps : List Int) : Bool := stamps.getLast?.all (· ≤ cutoff)

/-- `evictIdleLocked`, with the number of keys it removes. -/
def evictIdle (cutoff : Int) (w : Window) : Nat × Window :=
  ((w.entries.entries.filter fun e => idle cutoff e.2).length,
    { w with entries := w.entries.deleteWhere fun _ stamps => idle cutoff stamps })

/-- The times a key has after a hit. -/
def stampsAfter (w : Window) (stamps : List Int) (now : Int) : List Int :=
  let stamps := pruneBefore stamps (now - w.window) ++ [now]
  stamps.drop (stamps.length - w.maxStamps)

/-- The end of `Hit`, for a key with these times. -/
def record (w : Window) (key : String) (stamps : List Int) (now : Int) : (Nat × Int) × Window :=
  let stamps := w.stampsAfter stamps now
  ((stamps.length, stamps.headD now), { w with entries := w.entries.insert key stamps })

def hit (w : Window) (key : String) (now : Int) : (Nat × Int) × Window :=
  match w.entries.lookup key with
  | some stamps => w.record key stamps now
  | none =>
    if w.len ≥ w.maxKeys then
      let w := (w.evictIdle (now - w.window)).2
      if w.len ≥ w.maxKeys then ((1, now), w) else w.record key [] now
    else w.record key [] now

def cleanup (w : Window) (now : Int) : Nat × Window := w.evictIdle (now - w.window)

/-- Whether `Hit` finds no room for the key. -/
def refuses (w : Window) (key : String) (now : Int) : Bool :=
  (w.entries.lookup key).isNone && decide (w.len ≥ w.maxKeys) &&
    decide ((w.evictIdle (now - w.window)).2.len ≥ w.maxKeys)

/-- The times that are kept of a key. -/
def stored (w : Window) (key : String) : List Int := (w.entries.lookup key).getD []

end Window

/-! ### Runs -/

/-- A call and its time. -/
inductive Op where
  | hit (key : String) (now : Int)
  | cleanup (now : Int)

def Op.time : Op → Int
  | .hit _ now => now
  | .cleanup now => now

def Window.step (w : Window) : Op → Window
  | .hit key now => (w.hit key now).2
  | .cleanup now => (w.cleanup now).2

def Window.run (w : Window) (ops : List Op) : Window := ops.foldl Window.step w

/-- A hit of a run and whether it was recorded. -/
structure Hit where
  key : String
  time : Int
  accepted : Bool

def Window.history (w : Window) : List Op → List Hit
  | [] => []
  | .hit key now :: ops => ⟨key, now, !w.refuses key now⟩ :: (w.step (.hit key now)).history ops
  | .cleanup now :: ops => (w.step (.cleanup now)).history ops

/-- The times of the hits of a key that were recorded. -/
def accepted (key : String) (log : List Hit) : List Int :=
  (log.filter fun h => h.key = key ∧ h.accepted).map (·.time)

/-- The times of the hits of a key in the window that ends now, recorded or not. -/
def inWindow (window : Int) (key : String) (now : Int) (log : List Hit) : List Int :=
  (log.filter fun h => h.key = key ∧ now - window < h.time ∧ h.time ≤ now).map (·.time)

/-! ### What the table keeps -/

variable {w : Window} {key : String} {now : Int}

open Window

theorem hit_of_refuses (h : w.refuses key now = true) :
    w.hit key now = ((1, now), (w.evictIdle (now - w.window)).2) := by
  simp only [refuses, Bool.and_eq_true, Option.isNone_iff_eq_none, decide_eq_true_eq] at h
  obtain ⟨⟨hnone, hfull⟩, hstill⟩ := h
  rw [hit, hnone]
  simp only [if_pos hfull]
  exact if_pos hstill

/-- A hit that is not refused is recorded with the times the key has, in the table as it was or with
    idle keys evicted. -/
theorem hit_of_accepts (h : w.refuses key now = false) :
    (w.hit key now = w.record key (w.stored key) now ∧
      ((w.entries.lookup key).isSome ∨ (w.len : Int) < w.maxKeys)) ∨
    (w.entries.lookup key = none ∧
      w.hit key now = (w.evictIdle (now - w.window)).2.record key [] now ∧
      ((w.evictIdle (now - w.window)).2.len : Int) < w.maxKeys) := by
  rw [hit, stored]
  cases hkey : w.entries.lookup key with
  | some stamps => exact .inl ⟨rfl, .inl rfl⟩
  | none =>
    by_cases hfull : w.len ≥ w.maxKeys
    · right
      have hroom : ¬ (w.evictIdle (now - w.window)).2.len ≥ w.maxKeys := by
        simpa [refuses, hkey, hfull] using h
      refine ⟨rfl, ?_, Int.not_le.mp hroom⟩
      simp only [if_pos hfull]
      exact if_neg hroom
    · left
      simp only [if_neg hfull]
      exact ⟨rfl, .inr (Int.not_le.mp hfull)⟩

theorem evictIdle_len_le (w : Window) (cutoff : Int) : (w.evictIdle cutoff).2.len ≤ w.len :=
  List.length_filter_le _ _

theorem stored_evictIdle (w : Window) (cutoff : Int) (key : String) :
    (w.evictIdle cutoff).2.stored key =
      if idle cutoff (w.stored key) then [] else w.stored key := by
  rw [stored, stored]
  cases hkey : w.entries.lookup key with
  | none =>
    have hnone : (w.evictIdle cutoff).2.entries.lookup key = none := by
      rw [Option.eq_none_iff_forall_ne_some]
      intro stamps hstamps
      have := (Table.lookup_deleteWhere.mp hstamps).1
      simp [hkey] at this
    rw [hnone]
    split <;> rfl
  | some stamps =>
    by_cases hidle : idle cutoff stamps = true
    · have hnone : (w.evictIdle cutoff).2.entries.lookup key = none := by
        rw [Option.eq_none_iff_forall_ne_some]
        intro stamps' hstamps
        obtain ⟨hlookup, hkept⟩ := Table.lookup_deleteWhere.mp hstamps
        rw [hkey, Option.some.injEq] at hlookup
        simp [← hlookup, hidle] at hkept
      rw [hnone, Option.getD_some, if_pos hidle]
      rfl
    · have hsome : (w.evictIdle cutoff).2.entries.lookup key = some stamps :=
        Table.lookup_deleteWhere.mpr ⟨hkey, by simpa using hidle⟩
      rw [hsome, Option.getD_some, if_neg hidle]

theorem stored_record (w : Window) (key key' : String) (stamps : List Int) (now : Int) :
    (w.record key stamps now).2.stored key' =
      if key' = key then w.stampsAfter stamps now else w.stored key' := by
  rw [stored, stored, record]
  split
  · next h => rw [h, AList.lookup_insert, Option.getD_some]
  · next h => rw [AList.lookup_insert_ne h]

/-- Only keys whose hits have all left the window are evicted. -/
theorem stored_evictIdle_filter {cutoff : Int} (hsorted : (w.stored key).Pairwise (· ≤ ·)) :
    ((w.evictIdle cutoff).2.stored key).filter (cutoff < ·) = (w.stored key).filter (cutoff < ·) := by
  rw [stored_evictIdle]
  split
  · next hidle =>
    have hold := forall_le_of_getLast? hsorted hidle
    rw [List.filter_nil, eq_comm, List.filter_eq_nil_iff]
    intro t ht hnew
    exact absurd (hold t ht) (not_le.mpr (of_decide_eq_true hnew))
  · rfl

/-! ### The invariant of a run -/

/-- The table after a run, at a time not before that of its last call. -/
structure Inv (w : Window) (log : List Hit) (now : Int) : Prop where
  keys : (w.len : Int) ≤ w.maxKeys
  sorted : ∀ key, (accepted key log).Pairwise (· ≤ ·)
  past : ∀ h ∈ log, h.time ≤ now
  kept : ∀ key, Kept w.maxStamps (now - w.window) (accepted key log) (w.stored key)

variable {log : List Hit}

theorem Inv.start (window maxKeys now : Int) : Inv (newWindow window maxKeys) [] now where
  keys := by
    change (0 : Int) ≤ if maxKeys ≤ 0 then 100000 else maxKeys
    split <;> omega
  sorted key := List.Pairwise.nil
  past := by simp
  kept key := Kept.nil _ _

section
variable (h : Inv w log now)
include h

theorem Inv.mono {now' : Int} (hle : now ≤ now') : Inv w log now' where
  keys := h.keys
  sorted := h.sorted
  past x hx := (h.past x hx).trans hle
  kept key := (h.kept key).mono (by omega)

theorem Inv.stored_sorted (key : String) : (w.stored key).Pairwise (· ≤ ·) :=
  (h.kept key).sorted (h.sorted key)

theorem Inv.evictIdle : Inv (w.evictIdle (now - w.window)).2 log now where
  keys := le_trans (Int.ofNat_le.mpr (evictIdle_len_le w _)) h.keys
  sorted := h.sorted
  past := h.past
  kept key := by
    rw [stored_evictIdle]
    split
    · next hidle =>
      exact (h.kept key).forget (h.sorted key) (forall_le_of_getLast? (h.stored_sorted key) hidle)
    · exact h.kept key

omit h in
theorem accepted_append (key : String) (log : List Hit) (h : Hit) : accepted key (log ++ [h]) =
      accepted key log ++ if h.key = key ∧ h.accepted = true then [h.time] else [] := by
  rw [accepted, accepted, List.filter_append, List.map_append]
  congr 1
  by_cases hk : h.key = key ∧ h.accepted = true
  · rw [if_pos hk, List.filter_cons_of_pos (by simpa using hk)]
    rfl
  · rw [if_neg hk, List.filter_cons_of_neg (by simpa using hk)]
    rfl

theorem Inv.refuse (key : String) : Inv w (log ++ [⟨key, now, false⟩]) now where
  keys := h.keys
  sorted key' := by
    simpa [accepted_append] using h.sorted key'
  past x hx := by
    rcases List.mem_append.mp hx with hx | hx
    · exact h.past x hx
    · rw [List.mem_singleton.mp hx]
  kept key' := by
    simpa [accepted_append] using h.kept key'

theorem Inv.accepted_le {t : Int} (ht : t ∈ accepted key log) : t ≤ now := by
  obtain ⟨x, hx, rfl⟩ := List.mem_map.mp ht
  exact h.past x (List.mem_of_mem_filter hx)

theorem Inv.sorted_snoc (key : String) : (accepted key log ++ [now]).Pairwise (· ≤ ·) := by
  refine List.pairwise_append.mpr ⟨h.sorted key, List.pairwise_singleton _ _, ?_⟩
  intro t ht u hu
  rw [List.mem_singleton.mp hu]
  exact h.accepted_le ht

/-- What is kept of the key itself. -/
theorem Inv.kept_stampsAfter (key : String) :
    Kept w.maxStamps (now - w.window) (accepted key log ++ [now]) (w.stampsAfter (w.stored key) now) :=
  ((h.kept key).dropWhile (h.sorted key)).push now

omit h in
theorem Inv.record (h : Inv w log now)
    (hroom : (w.entries.lookup key).isSome ∨ (w.len : Int) < w.maxKeys) :
    Inv (w.record key (w.stored key) now).2 (log ++ [⟨key, now, true⟩]) now where
  keys := by
    rcases hroom with hsome | hlt
    · exact (congrArg Int.ofNat (Table.length_insert_of_isSome hsome)).trans_le h.keys
    · exact le_trans (Int.ofNat_le.mpr Table.length_insert_le) hlt
  sorted key' := by
    rw [accepted_append]
    by_cases hkey : key = key'
    · rw [if_pos ⟨hkey, rfl⟩]
      exact h.sorted_snoc key'
    · rw [if_neg (by simp [hkey]), List.append_nil]
      exact h.sorted key'
  past x hx := by
    rcases List.mem_append.mp hx with hx | hx
    · exact h.past x hx
    · rw [List.mem_singleton.mp hx]
  kept key' := by
    rw [accepted_append, stored_record]
    by_cases hkey : key = key'
    · rw [if_pos ⟨hkey, rfl⟩, if_pos hkey.symm, ← hkey]
      exact h.kept_stampsAfter key
    · rw [if_neg (by simp [hkey]), if_neg (Ne.symm hkey), List.append_nil]
      exact h.kept key'

theorem Inv.hit (key : String) :
    Inv (w.hit key now).2 (log ++ [⟨key, now, !w.refuses key now⟩]) now := by
  cases hrefuses : w.refuses key now with
  | true =>
    rw [hit_of_refuses hrefuses]
    exact h.evictIdle.refuse key
  | false =>
    rcases hit_of_accepts hrefuses with ⟨heq, hroom⟩ | ⟨hnone, heq, hroom⟩
    · rw [heq]
      exact h.record hroom
    · have hstored : (w.evictIdle (now - w.window)).2.stored key = [] := by
        rw [stored_evictIdle, stored, hnone]
        split <;> rfl
      have hrecord := @Inv.record _ key _ _ h.evictIdle (.inr hroom)
      rw [hstored] at hrecord
      rw [heq]
      exact hrecord

theorem Inv.step {op : Op} (hop : op.time = now) : Inv (w.step op) (log ++ w.history [op]) now := by
  subst hop
  cases op with
  | hit key now => exact h.hit key
  | cleanup now =>
    rw [history, history, List.append_nil]
    exact h.evictIdle

end

theorem history_cons (w : Window) (op : Op) (ops : List Op) :
    w.history (op :: ops) = w.history [op] ++ (w.step op).history ops := by
  cases op <;> rfl

theorem Inv.run {ops : List Op} : ∀ {w : Window} {log : List Hit} {last : Int}, Inv w log last →
    (∀ op ∈ ops, last ≤ op.time) → (ops.map Op.time).Pairwise (· ≤ ·) → last ≤ now →
    (∀ op ∈ ops, op.time ≤ now) → Inv (w.run ops) (log ++ w.history ops) now := by
  induction ops with
  | nil =>
    intro w log last h _ _ hnow _
    rw [history, List.append_nil]
    exact h.mono hnow
  | cons op ops ih =>
    intro w log last h hlast hsorted _ hnow
    rw [List.map_cons, List.pairwise_cons] at hsorted
    have hstep := (h.mono (hlast op (by simp))).step rfl
    rw [history_cons, ← List.append_assoc]
    exact ih hstep (fun op' hop' => hsorted.1 _ (List.mem_map_of_mem hop')) hsorted.2
      (hnow op (by simp)) fun op' hop' => hnow op' (by simp [hop'])

/-- After any calls in the order of time. -/
theorem Inv.calls {window maxKeys : Int} {ops : List Op}
    (hsorted : (ops.map Op.time ++ [now]).Pairwise (· ≤ ·)) :
    Inv ((newWindow window maxKeys).run ops) ((newWindow window maxKeys).history ops) now := by
  obtain ⟨hops, -, hnow⟩ := List.pairwise_append.mp hsorted
  have hnow : ∀ op ∈ ops, op.time ≤ now := fun op hop =>
    hnow _ (List.mem_map_of_mem hop) now (by simp)
  cases ops with
  | nil => exact Inv.start window maxKeys now
  | cons op ops =>
    refine (Inv.start window maxKeys op.time).run ?_ hops (hnow op (by simp)) hnow
    intro op' hop'
    rcases List.mem_cons.mp hop' with rfl | hop'
    · exact le_rfl
    · exact (List.pairwise_cons.mp hops).1 _ (List.mem_map_of_mem hop')

/-! ### What `Hit` returns -/

/-- `Hit` of a key at a time, the hits of the run with this one in `log`: the table stays within its
    bound, the count is never too large, and it is exact up to `maxStamps` if no hit of the key in the
    window was refused. Neither an eviction nor `Cleanup` loses a hit in the window. -/
structure Exact (w : Window) (log : List Hit) (key : String) (now : Int) : Prop where
  keys : (w.len : Int) ≤ w.maxKeys ∧ ((w.hit key now).2.len : Int) ≤ w.maxKeys ∧
    ((w.cleanup now).2.len : Int) ≤ w.maxKeys
  never_more : (w.hit key now).1.1 ≤ (inWindow w.window key now log).length
  exact : (∀ h ∈ log, h.key = key → now - w.window < h.time → h.accepted = true) →
    (w.hit key now).1.1 = min w.maxStamps (inWindow w.window key now log).length ∧
    ((inWindow w.window key now log).drop ((inWindow w.window key now log).length - w.maxStamps)).head? =
      some (w.hit key now).1.2
  evicts : ∀ key' ≠ key, ((w.hit key now).2.stored key').filter (now - w.window < ·) =
    (w.stored key').filter (now - w.window < ·)
  cleans : ∀ key', ((w.cleanup now).2.stored key').filter (now - w.window < ·) =
    (w.stored key').filter (now - w.window < ·)

/-- The recorded hits of a key behind the cutoff are among those in the window. -/
theorem accepted_filter (window : Int) (key : String) (now : Int) (log : List Hit) :
    (accepted key log).filter (now - window < ·) =
      (log.filter fun h => (h.key = key ∧ h.accepted) ∧ now - window < h.time).map (·.time) := by
  rw [accepted, List.filter_map, List.filter_filter]
  congr 1
  refine List.filter_congr fun h _ => ?_
  simp only [Function.comp_apply, Bool.decide_and]
  exact Bool.and_comm _ _

theorem accepted_filter_sublist (window : Int) (hpast : ∀ h ∈ log, h.time ≤ now) :
    ((accepted key log).filter (now - window < ·)).Sublist (inWindow window key now log) := by
  rw [accepted_filter, inWindow]
  refine List.Sublist.map _ ?_
  have hsub : (log.filter fun h => (h.key = key ∧ h.accepted) ∧ now - window < h.time) =
      (log.filter fun h => h.key = key ∧ now - window < h.time ∧ h.time ≤ now).filter (·.accepted) := by
    rw [List.filter_filter]
    refine List.filter_congr fun h hh => ?_
    have hle := hpast h hh
    simp only [hle, and_true, Bool.decide_and, Bool.decide_eq_true]
    cases h.accepted <;> simp
  rw [hsub]
  exact List.filter_sublist

theorem accepted_filter_eq (window : Int) (hpast : ∀ h ∈ log, h.time ≤ now)
    (hall : ∀ h ∈ log, h.key = key → now - window < h.time → h.accepted = true) :
    (accepted key log).filter (now - window < ·) = inWindow window key now log := by
  rw [accepted_filter, inWindow]
  congr 1
  refine List.filter_congr fun h hh => ?_
  have hle := hpast h hh
  by_cases hkey : h.key = key
  · by_cases hnew : now - window < h.time
    · simp [hkey, hnew, hle, hall h hh hkey hnew]
    · simp [hnew]
  · simp [hkey]

/-- A recorded hit returns the newest of the recorded hits in the window. -/
theorem Inv.stampsAfter_eq (h : Inv w log now) (hwindow : 0 < w.window) (key : String) :
    w.stampsAfter (w.stored key) now =
      ((accepted key (log ++ [⟨key, now, true⟩])).filter (now - w.window < ·)).drop
        (((accepted key (log ++ [⟨key, now, true⟩])).filter (now - w.window < ·)).length -
          w.maxStamps) := by
  rw [accepted_append, if_pos ⟨rfl, rfl⟩]
  refine (h.kept_stampsAfter key).eq_drop (h.sorted_snoc key) ?_ fun t ht => ?_
  · simp only [stampsAfter, List.length_drop]
    omega
  · rcases List.mem_append.mp (List.mem_of_mem_drop ht) with ht | ht
    · exact lt_of_mem_dropWhile (h.stored_sorted key) ht
    · rw [List.mem_singleton.mp ht]
      omega

/-- `Hit` does the same to the key whether it finds the key or makes room for it. -/
theorem hit_accepted (haccepts : w.refuses key now = false) :
    (w.hit key now).1 = ((w.stampsAfter (w.stored key) now).length,
      (w.stampsAfter (w.stored key) now).headD now) := by
  rcases hit_of_accepts haccepts with ⟨heq, -⟩ | ⟨hnone, heq, -⟩
  · rw [heq]
    rfl
  · rw [heq, stored, hnone]
    rfl

theorem hit_params (w : Window) (key : String) (now : Int) :
    (w.hit key now).2.window = w.window ∧ (w.hit key now).2.maxKeys = w.maxKeys ∧
      (w.hit key now).2.maxStamps = w.maxStamps := by
  cases hrefuses : w.refuses key now with
  | true =>
    rw [hit_of_refuses hrefuses]
    exact ⟨rfl, rfl, rfl⟩
  | false =>
    rcases hit_of_accepts hrefuses with ⟨heq, -⟩ | ⟨-, heq, -⟩
    · rw [heq]
      exact ⟨rfl, rfl, rfl⟩
    · rw [heq]
      exact ⟨rfl, rfl, rfl⟩

theorem run_params (ops : List Op) : ∀ w : Window,
    (w.run ops).window = w.window ∧ (w.run ops).maxStamps = w.maxStamps := by
  induction ops with
  | nil => exact fun _ => ⟨rfl, rfl⟩
  | cons op ops ih =>
    intro w
    obtain ⟨hwindow, hstamps⟩ := ih (w.step op)
    cases op with
    | hit key now =>
      obtain ⟨hwindow', -, hstamps'⟩ := hit_params w key now
      exact ⟨hwindow.trans hwindow', hstamps.trans hstamps'⟩
    | cleanup now => exact ⟨hwindow, hstamps⟩

/-- Hits of other keys in the window stay where they are. -/
theorem stored_hit_filter {key' : String} (hsorted : (w.stored key').Pairwise (· ≤ ·))
    (hne : key' ≠ key) : ((w.hit key now).2.stored key').filter (now - w.window < ·) =
      (w.stored key').filter (now - w.window < ·) := by
  cases hrefuses : w.refuses key now with
  | true =>
    rw [hit_of_refuses hrefuses]
    exact stored_evictIdle_filter hsorted
  | false =>
    rcases hit_of_accepts hrefuses with ⟨heq, -⟩ | ⟨-, heq, -⟩
    · rw [heq, stored_record, if_neg hne]
    · rw [heq, stored_record, if_neg hne]
      exact stored_evictIdle_filter hsorted

/-- The time of a hit that is counted as the newest of `l`. -/
theorem head?_drop_of_mem {l : List Int} {cap : Nat} (hl : l ≠ []) (hcap : 0 < cap) (d : Int) :
    (l.drop (l.length - cap)).head? = some ((l.drop (l.length - cap)).headD d) := by
  have hlength := List.length_pos_iff.mpr hl
  cases hdrop : l.drop (l.length - cap) with
  | cons t rest => rfl
  | nil =>
    have hle := List.drop_eq_nil_iff.mp hdrop
    omega

theorem Inv.exact (h : Inv w log now) (hwindow : 0 < w.window) (hstamps : 0 < w.maxStamps)
    (key : String) : Exact w (log ++ [⟨key, now, !w.refuses key now⟩]) key now := by
  have hnext := h.hit key
  have hnow : now - w.window < now := by omega
  have hthis : ∀ accepted, now ∈ inWindow w.window key now (log ++ [⟨key, now, accepted⟩]) := by
    intro accepted
    exact List.mem_map.mpr ⟨⟨key, now, accepted⟩, by simp [hnow], rfl⟩
  refine ⟨⟨h.keys, (hit_params w key now).2.1 ▸ hnext.keys, h.evictIdle.keys⟩, ?_, ?_, ?_, ?_⟩
  · cases hrefuses : w.refuses key now with
    | true =>
      rw [hit_of_refuses hrefuses]
      exact List.length_pos_of_mem (hthis _)
    | false =>
      rw [hrefuses] at hnext
      have hsub := @accepted_filter_sublist key now _ w.window hnext.past
      rw [hit_accepted hrefuses, h.stampsAfter_eq hwindow, List.length_drop]
      exact (Nat.sub_le _ _).trans hsub.length_le
  · intro hall
    cases hrefuses : w.refuses key now with
    | true =>
      have hrecorded := hall ⟨key, now, !w.refuses key now⟩ (by simp) rfl hnow
      simp [hrefuses] at hrecorded
    | false =>
      rw [hrefuses] at hnext hall
      have hsame := accepted_filter_eq w.window hnext.past hall
      rw [hit_accepted hrefuses, h.stampsAfter_eq hwindow]
      change (accepted key (log ++ [⟨key, now, true⟩])).filter (now - w.window < ·) = _ at hsame
      rw [hsame]
      refine ⟨?_, head?_drop_of_mem (List.ne_nil_of_mem (hthis _)) hstamps now⟩
      rw [List.length_drop]
      omega
  · exact fun key' hne => stored_hit_filter (h.stored_sorted key') hne
  · exact fun key' => stored_evictIdle_filter (h.stored_sorted key')

theorem history_append (ops : List Op) (op : Op) : ∀ w : Window,
    w.history (ops ++ [op]) = w.history ops ++ (w.run ops).history [op] := by
  induction ops with
  | nil => exact fun _ => rfl
  | cons op' ops ih =>
    intro w
    rw [List.cons_append, history_cons, ih, history_cons w op' ops, List.append_assoc]
    rfl

/-- After any calls in the order of time, `Hit` is exact up to the caps of the counter. -/
theorem hit_exact (window maxKeys : Int) (ops : List Op) (now : Int)
    (hsorted : (ops.map Op.time ++ [now]).Pairwise (· ≤ ·)) (key : String) :
    Exact ((newWindow window maxKeys).run ops)
      ((newWindow window maxKeys).history (ops ++ [.hit key now])) key now := by
  obtain ⟨hwindow, hstamps⟩ := run_params ops (newWindow window maxKeys)
  rw [history_append]
  refine (Inv.calls hsorted).exact ?_ ?_ key
  · rw [hwindow]
    change 0 < if window ≤ 0 then 60 * 10 ^ 9 else window
    split <;> omega
  · rw [hstamps]
    exact Nat.succ_pos 1023

/-- Two hits of one key, one of another for which there is no room, and a cleanup that removes nothing. -/
def oneKey : List Op := [.hit "a" 0, .hit "a" 5, .hit "b" 6, .cleanup 8]

theorem hit_exact_oneKey : Exact ((newWindow 10 1).run oneKey)
      ((newWindow 10 1).history (oneKey ++ [.hit "a" 12])) "a" 12 ∧
    (((newWindow 10 1).run oneKey).hit "a" 12).1 = (2, 5) :=
  ⟨hit_exact 10 1 oneKey 12 (by decide) "a", by decide⟩

end TaNode.Counter

import TaNode.Schemes.Fanout

/-! The orders in which the workers of a fan-out may come to the items of a source.

    Two items are `Tied` if no schedule changes their order: they have one worker, or too many items
    for the worker of the first stand between them to wait in its queue. A `Schedule` is an order of
    the items that keeps tied items in the order of the source. These are the orders of whole runs,
    all of them (`Run.schedule`, `Schedule.run`):

        source   a₁ b₁ a₂ b₂            one worker for a₁ a₂, one for b₁ b₂
        runs     a₁ b₁ a₂ b₂   b₁ a₁ a₂ b₂   b₁ b₂ a₁ a₂   …

    Any schedule comes from the order of the source by exchanging neighbours that are not tied, which
    is how a fact is carried from one to all of them (`Schedule.induction`). -/

namespace TaNode.Fanout
open Relation
variable {α : Type} {n : Nat} {route : α → Fin n} {cap stages : Nat} {place : α → Nat}
  {input σ : List α} {s t : Fanout α n}

/-- Two items whose order no schedule changes. -/
def Tied (route : α → Fin n) (cap : Nat) (place : α → Nat) (input : List α) (a b : α) : Prop :=
  place a < place b ∧ (route a = route b ∨
    cap < (input.filter fun x => place a < place x ∧ place x < place b ∧ route x = route a).length)

/-- An order of the items that keeps tied ones in the order of the source. -/
structure Schedule (route : α → Fin n) (cap : Nat) (place : α → Nat) (input σ : List α) : Prop where
  perm : σ.Perm input
  ordered : σ.Pairwise fun x y => ¬ Tied route cap place input y x

/-- Items stand in the source in the order of their places. -/
abbrev Placed (place : α → Nat) (input : List α) : Prop := input.Pairwise (place · < place ·)

theorem Placed.nodup (h : Placed place input) : input.Nodup := by
  refine List.Pairwise.imp ?_ h
  rintro a b hlt rfl
  exact Nat.lt_irrefl _ hlt

theorem Placed.schedule (h : Placed place input) : Schedule route cap place input input := by
  refine ⟨.refl input, List.Pairwise.imp ?_ h⟩
  intro a b hlt htied
  exact Nat.lt_asymm hlt htied.1

theorem Schedule.nodup (h : Schedule route cap place input σ) (hplaced : Placed place input) :
    σ.Nodup := h.perm.nodup_iff.mpr hplaced.nodup

/-- The source around two of its items, and what ties them. -/
theorem Placed.split (route : α → Fin n) (cap : Nat) (h : Placed place input) {a b : α}
    (ha : a ∈ input) (hb : b ∈ input) (hlt : place a < place b) : ∃ pre mid post,
      input = pre ++ a :: (mid ++ b :: post) ∧
      (Tied route cap place input a b ↔ Fixed route cap a mid b) := by
  obtain ⟨pre, rest, rfl⟩ := List.append_of_mem ha
  have hpre : ∀ x ∈ pre, place x < place a := fun x hx =>
    (List.pairwise_append.mp h).2.2 x hx a (List.mem_cons_self ..)
  have hrest := (List.pairwise_append.mp h).2.1
  have hbrest : b ∈ rest := by
    rcases List.mem_append.mp hb with hb | hb
    · exact absurd (hpre b hb) (Nat.lt_asymm hlt)
    · rcases List.mem_cons.mp hb with rfl | hb
      · exact absurd hlt (Nat.lt_irrefl _)
      · exact hb
  obtain ⟨mid, post, rfl⟩ := List.append_of_mem hbrest
  refine ⟨pre, mid, post, rfl, ?_⟩
  have hafter := (List.pairwise_cons.mp hrest).1
  have hinner := List.pairwise_append.mp (List.pairwise_cons.mp hrest).2
  have hmid : ∀ x ∈ mid, place a < place x ∧ place x < place b := fun x hx =>
    ⟨hafter x (List.mem_append_left _ hx), hinner.2.2 x hx b (List.mem_cons_self ..)⟩
  have hpost : ∀ x ∈ post, place b < place x := (List.pairwise_cons.mp hinner.2.1).1
  have hfilter : (pre ++ a :: (mid ++ b :: post)).filter (fun x =>
      decide (place a < place x ∧ place x < place b ∧ route x = route a)) =
      lane route (route a) mid := by
    have hnone : ∀ {l : List α}, (∀ x ∈ l, ¬ (place a < place x ∧ place x < place b)) →
        l.filter (fun x => decide (place a < place x ∧ place x < place b ∧ route x = route a)) = [] := by
      intro l hl
      refine List.filter_eq_nil_iff.mpr fun x hx hin => ?_
      rw [decide_eq_true_eq] at hin
      exact hl x hx ⟨hin.1, hin.2.1⟩
    have hlane : mid.filter (fun x => decide (place a < place x ∧ place x < place b ∧
        route x = route a)) = lane route (route a) mid := by
      refine List.filter_congr fun x hx => ?_
      simp [hmid x hx]
    rw [List.filter_append, hnone fun x hx hin => Nat.lt_asymm hin.1 (hpre x hx),
      List.filter_cons_of_neg (by simp), List.filter_append, hlane,
      List.filter_cons_of_neg (by simp),
      hnone fun x hx hin => Nat.lt_asymm hin.2 (hpost x hx)]
    simp
  rw [Tied, hfilter, Fixed]
  exact ⟨And.right, fun hfixed => ⟨hlt, hfixed⟩⟩

/-! ### The order of a run -/

/-- The order in which the workers have begun with the items. -/
def order (log : List (α × Nat)) : List α := (log.filter (·.2 = 0)).map (·.1)

theorem order_append (l m : List (α × Nat)) : order (l ++ m) = order l ++ order m := by
  rw [order, List.filter_append, List.map_append]
  rfl

theorem order_flatMap (hstages : 0 < stages) (l : List α) :
    order (l.flatMap (actions stages)) = l := by
  have hone : ∀ k (a : α), order (actions (k + 1) a) = [a] := by
    intro k a
    induction k with
    | zero => rfl
    | succ k ih => rw [actions_succ, order_append, ih]; rfl
  obtain ⟨k, rfl⟩ : ∃ k, stages = k + 1 := ⟨stages - 1, by omega⟩
  induction l with
  | nil => rfl
  | cons a l ih => rw [List.flatMap_cons, order_append, ih, hone]; rfl

/-- In a list without repetitions no two items stand in both orders. -/
theorem not_both_orders {l : List α} (hnodup : l.Nodup) {x y : α} (hxy : [x, y].Sublist l) :
    ¬ [y, x].Sublist l := by
  classical
  have hlt : l.Pairwise fun a b => l.idxOf a < l.idxOf b := by
    rw [List.pairwise_iff_getElem]
    intro i j hi hj hij
    rwa [hnodup.idxOf_getElem, hnodup.idxOf_getElem]
  rw [List.pairwise_iff_forall_sublist] at hlt
  exact fun hyx => (hlt hxy).asymm (hlt hyx)

/-- The order of a whole run is a schedule. -/
theorem Run.schedule (hstages : 0 < stages) (hn : 0 < n) (hplaced : Placed place input)
    (h : Run route cap stages input s) (hended : s.ended = true) :
    Schedule route cap place input (order s.log) := by
  have hlog := (h.log_of_ended hstages hended hn).2
  have hperm : (order s.log).Perm input := by
    rw [← order_flatMap hstages input]
    exact (hlog.filter _).map _
  refine ⟨hperm, List.pairwise_iff_forall_sublist.mpr fun {x y} hxy htied => ?_⟩
  have hx : x ∈ input := hperm.subset (hxy.subset (by simp))
  have hy : y ∈ input := hperm.subset (hxy.subset (by simp))
  obtain ⟨pre, mid, post, hinput, hiff⟩ := hplaced.split route cap hy hx htied.1
  have hlogged : (x, 0) ∈ s.log := by
    rw [hlog.mem_iff, List.mem_flatMap]
    exact ⟨x, hx, mem_actions.mpr ⟨rfl, hstages⟩⟩
  have hbefore := h.inOrder hstages hinput hplaced.nodup (hiff.mp htied) hstages hlogged
  have hyx : [y, x].Sublist (order s.log) := by
    have hmap := (hbefore.filter (·.2 = 0)).map (·.1)
    simpa [order] using hmap
  exact not_both_orders (hperm.nodup_iff.mpr hplaced.nodup) hxy hyx

/-! ### A run for every schedule -/

theorem Run.trans (h : Run route cap stages input s)
    (hst : ReflTransGen (Step route cap stages) s t) : Run route cap stages input t := by
  induction hst with
  | refl => exact h
  | tail _ hstep ih => exact ih.next hstep

/-- The step of a worker, with the state around it. -/
theorem Step.inLane {s : Fanout α n} (i : Fin n) {l l' : Lane α} {out log : List (α × Nat)}
    (h : l.Step stages out l') : Step route cap stages
      { s with lanes := Function.update s.lanes i l, log := log }
      { s with lanes := Function.update s.lanes i l', log := log ++ out } := by
  have hstep := @Step.worker α n route cap stages
    { s with lanes := Function.update s.lanes i l, log := log } i out l' (by simpa using h)
  simpa using hstep

/-- A worker works off the item it has. -/
theorem work_off (s : Fanout α n) (i : Fin n) (a : α) (l : Lane α) :
    ∀ (d k : Nat) (log : List (α × Nat)), k + d + 1 = stages → ReflTransGen (Step route cap stages)
        { s with lanes := Function.update s.lanes i { l with busy := some (a, k) }, log := log }
        { s with
          lanes := Function.update s.lanes i { l with busy := none }
          log := log ++ (List.range' k (d + 1)).map (a, ·) }
  | 0, k, log, hk => by
    have hwork : Lane.Step stages { l with busy := some (a, k) } [(a, k)] _ := .work rfl
    rw [if_neg (by omega)] at hwork
    exact .single (Step.inLane i hwork)
  | d + 1, k, log, hk => by
    have hwork : Lane.Step stages { l with busy := some (a, k) } [(a, k)] _ := .work rfl
    rw [if_pos (by omega)] at hwork
    have hrest := work_off s i a l d (k + 1) (log ++ [(a, k)]) (by omega)
    rw [List.append_assoc] at hrest
    exact .head (Step.inLane i hwork) hrest

/-- A lane whose worker has only taken its first item. -/
def waiting : List α → Lane α
  | [] => {}
  | a :: rest => { queue := rest, busy := some (a, 0) }

/-- A lane whose worker does not yet have the first item, if there is one. -/
def resting (l : List α) : Lane α := { queue := l }

theorem rest_wait (s : Fanout α n) (i : Fin n) (l : List α) (log : List (α × Nat)) :
    ReflTransGen (Step route cap stages)
      { s with lanes := Function.update s.lanes i (resting l), log := log }
      { s with lanes := Function.update s.lanes i (waiting l), log := log } := by
  cases l with
  | nil => exact .refl
  | cons a rest =>
    have htake : (resting (a :: rest)).Step stages [] (waiting (a :: rest)) := .take rfl rfl
    have hstep := @Step.inLane α n route cap stages s i _ _ _ log htake
    rw [List.append_nil] at hstep
    exact .single hstep

section Greedy
open Classical

/-- The items a worker got and has not done, in a state in which the items `sent` are dispatched and
    the items `done` are done. -/
noncomputable def pending (route : α → Fin n) (sent done : List α) (i : Fin n) : List α :=
  lane route i (sent.filter (· ∉ done))

/-- The state in which every worker with something to do has taken the first of it. -/
noncomputable def paused (route : α → Fin n) (stages : Nat) (source sent done : List α) : Fanout α n where
  source := source
  lanes i := waiting (pending route sent done i)
  log := done.flatMap (actions stages)

theorem pending_snoc {sent done : List α} {c : α} (hc : c ∉ done) (i : Fin n) :
    pending route (sent ++ [c]) done i =
      if route c = i then pending route sent done i ++ [c] else pending route sent done i := by
  rw [pending, List.filter_append, lane_append, ← pending]
  by_cases hi : route c = i
  · simp [lane, hc, hi]
  · simp [lane, hi, List.filter_filter]

theorem dispatch_paused {sent done rest : List α} {c : α} (hcap : 0 < cap) (hc : c ∉ done)
    (hroom : (pending route sent done (route c)).length ≤ cap) :
    ReflTransGen (Step route cap stages) (paused route stages (c :: rest) sent done)
      (paused route stages rest (sent ++ [c]) done) := by
  have hlanes : (paused route stages rest (sent ++ [c]) done).lanes =
      Function.update (paused route stages (c :: rest) sent done).lanes (route c)
        (waiting (pending route sent done (route c) ++ [c])) := by
    funext i
    by_cases hi : i = route c
    · subst hi
      simp [paused, pending_snoc hc]
    · simp [paused, pending_snoc hc, hi, Ne.symm hi]
  have htarget : paused route stages rest (sent ++ [c]) done =
      { paused route stages (c :: rest) sent done with
        source := rest
        lanes := Function.update (paused route stages (c :: rest) sent done).lanes (route c)
          (waiting (pending route sent done (route c) ++ [c])) } := by
    rw [← hlanes]
    rfl
  rw [htarget]
  have hstep := @Step.dispatch α n route cap stages (paused route stages (c :: rest) sent done) c rest rfl
  have hlane : (paused route stages (c :: rest) sent done).lanes (route c) =
      waiting (pending route sent done (route c)) := rfl
  rw [hlane] at hstep
  cases hpending : pending route sent done (route c) with
  | nil =>
    rw [hpending] at hstep
    exact .head (hstep hcap)
      (rest_wait { paused route stages (c :: rest) sent done with source := rest } (route c) [c] _)
  | cons y ys =>
    rw [hpending] at hstep hroom
    exact .single (hstep hroom)

theorem pending_done {sent done ys : List α} {b : α} (hnodup : sent.Nodup)
    (hb : pending route sent done (route b) = b :: ys) (i : Fin n) :
    pending route sent (done ++ [b]) i = if i = route b then ys else pending route sent done i := by
  have hfilter : pending route sent (done ++ [b]) i = (pending route sent done i).filter (· ≠ b) := by
    rw [pending, pending, lane, lane, List.filter_filter, List.filter_filter, List.filter_filter]
    refine List.filter_congr fun x _ => ?_
    simp only [List.mem_append, List.mem_singleton, not_or, Bool.decide_and, ne_eq]
    ac_rfl
  rw [hfilter]
  by_cases hi : i = route b
  · subst hi
    have hnodup' : (b :: ys).Nodup := by
      rw [← hb]
      exact (hnodup.filter _).filter _
    rw [if_pos rfl, hb, List.filter_cons_of_neg (by simp), List.filter_eq_self]
    intro x hx
    simp only [ne_eq, decide_eq_true_eq]
    rintro rfl
    exact (List.nodup_cons.mp hnodup').1 hx
  · rw [if_neg hi, List.filter_eq_self]
    intro x hx
    simp only [ne_eq, decide_eq_true_eq]
    rintro rfl
    exact hi (mem_lane.mp hx).2.symm

theorem work_paused {source sent done ys : List α} {b : α} (hstages : 0 < stages)
    (hnodup : sent.Nodup) (hb : pending route sent done (route b) = b :: ys) :
    ReflTransGen (Step route cap stages) (paused route stages source sent done)
      (paused route stages source sent (done ++ [b])) := by
  obtain ⟨d, rfl⟩ : ∃ d, stages = d + 1 := ⟨stages - 1, by omega⟩
  have hsource : paused route (d + 1) source sent done =
      { paused route (d + 1) source sent done with
        lanes := Function.update (paused route (d + 1) source sent done).lanes (route b)
          { resting ys with busy := some (b, 0) } } := by
    have hlane : (paused route (d + 1) source sent done).lanes (route b) =
        { resting ys with busy := some (b, 0) } := by
      simp only [paused, hb]
      rfl
    rw [← hlane, Function.update_eq_self]
  have htarget : paused route (d + 1) source sent (done ++ [b]) =
      { paused route (d + 1) source sent done with
        lanes := Function.update (paused route (d + 1) source sent done).lanes (route b) (waiting ys)
        log := done.flatMap (actions (d + 1)) ++ actions (d + 1) b } := by
    have hlanes : (paused route (d + 1) source sent (done ++ [b])).lanes =
        Function.update (paused route (d + 1) source sent done).lanes (route b) (waiting ys) := by
      funext i
      by_cases hi : i = route b
      · subst hi
        simp [paused, pending_done hnodup hb]
      · simp [paused, pending_done hnodup hb, hi]
    rw [← hlanes]
    simp [paused]
  rw [hsource, htarget]
  have hwork := @work_off α n route cap (d + 1) (paused route (d + 1) source sent done) (route b) b
    (resting ys) d 0 (done.flatMap (actions (d + 1))) (by omega)
  rw [← List.range_eq_range'] at hwork
  exact hwork.trans (rest_wait (paused route (d + 1) source sent done) (route b) ys _)

variable {done todo : List α} {b : α}

/-- The first item a worker has left, with those behind it. -/
theorem pending_cons {sent done ys : List α} {y : α} {i : Fin n}
    (h : pending route sent done i = y :: ys) :
    route y = i ∧ y ∉ done ∧ ∃ pre z, sent = pre ++ y :: z ∧ (∀ x ∈ pre, route x = i → x ∈ done) ∧
      ys.length ≤ (lane route i z).length := by
  rw [pending, lane, List.filter_filter] at h
  obtain ⟨pre, z, hsent, hpre, hy, hys⟩ := List.filter_eq_cons_iff.mp h
  simp only [Bool.and_eq_true, decide_eq_true_eq] at hy hpre
  refine ⟨hy.1, hy.2, pre, z, hsent, ?_, ?_⟩
  · intro x hx hroute
    by_contra hdone
    exact hpre x hx ⟨hroute, hdone⟩
  · have hfilter : z.filter (fun x => decide (route x = i) && decide (x ∉ done)) =
        (lane route i z).filter (· ∉ done) := by
      rw [lane, List.filter_filter]
      exact List.filter_congr fun x _ => Bool.and_comm _ _
    rw [← hys, hfilter]
    exact List.length_filter_le _ _

section
variable (hσ : Schedule route cap place input (done ++ b :: todo))
include hσ

/-- An item that is neither done nor the next is not tied to the next. -/
theorem Schedule.not_tied {y : α} (hy : y ∈ input) (hdone : y ∉ done) (hne : y ≠ b) :
    ¬ Tied route cap place input y b := by
  have htodo : y ∈ todo := by
    have hmem := hσ.perm.mem_iff.mpr hy
    simpa [hdone, hne] using hmem
  have hordered := (List.pairwise_append.mp hσ.ordered).2.1
  exact (List.pairwise_cons.mp hordered).1 y htodo

section
variable (hplaced : Placed place input)
include hplaced

/-- Before the next item of a schedule is dispatched, the queues have room for all that stand before
    it. -/
theorem Schedule.room {sent rest : List α} {c : α} (hinput : input = sent ++ c :: rest)
    (hb : b ∉ sent) : (pending route sent done (route c)).length ≤ cap := by
  cases hpending : pending route sent done (route c) with
  | nil => exact Nat.zero_le _
  | cons y ys =>
    obtain ⟨hroute, hdone, pre, z, hsent, -, hys⟩ := pending_cons hpending
    have hysent : y ∈ sent := by simp [hsent]
    have hne : y ≠ b := by
      rintro rfl
      exact hb hysent
    have hloose := hσ.not_tied (by simp [hinput, hysent]) hdone hne
    have hbrest : b ∈ c :: rest := by
      have hmem : b ∈ input := hσ.perm.subset (by simp)
      rw [hinput] at hmem
      exact (List.mem_append.mp hmem).resolve_left hb
    have hsplit : (sent ++ c :: rest).Pairwise (place · < place ·) := hinput ▸ hplaced
    obtain ⟨hsentSorted, hrestSorted, hacross⟩ := List.pairwise_append.mp hsplit
    have hlt : place y < place b := hacross y hysent b hbrest
    rcases List.mem_cons.mp hbrest with rfl | hbehind
    · exact absurd ⟨hlt, .inl hroute⟩ hloose
    · by_contra hover
      refine hloose ⟨hlt, .inr ?_⟩
      have hbetween : ∀ x ∈ z ++ [c], place y < place x ∧ place x < place b := by
        intro x hx
        rcases List.mem_append.mp hx with hx | hx
        · rw [hsent] at hsentSorted
          have hyz := (List.pairwise_append.mp hsentSorted).2.1
          have hxsent : x ∈ sent := by simp [hsent, hx]
          exact ⟨(List.pairwise_cons.mp hyz).1 x hx, hacross x hxsent b hbrest⟩
        · obtain rfl := List.mem_singleton.mp hx
          exact ⟨hacross y hysent x (List.mem_cons_self ..),
            (List.pairwise_cons.mp hrestSorted).1 b hbehind⟩
      have hcount : lane route (route y) (z ++ [c]) = (z ++ [c]).filter fun x =>
          place y < place x ∧ place x < place b ∧ route x = route y := by
        refine List.filter_congr fun x hx => ?_
        simp [hbetween x hx]
      have hsub : (z ++ [c]).Sublist input := by
        rw [hinput, hsent]
        simp
      have hle := (hsub.filter fun x =>
        place y < place x ∧ place x < place b ∧ route x = route y).length_le
      have hc : lane route (route y) [c] = [c] := by simp [lane, hroute]
      rw [← hcount, lane_append, hc, List.length_append, List.length_singleton, hroute] at hle
      rw [hroute]
      simp only [List.length_cons] at hover
      omega

/-- When the next item of a schedule is dispatched, it is the first its worker has left. -/
theorem Schedule.first {source sent : List α} (hinput : input = sent ++ source) (hb : b ∈ sent) :
    ∃ ys, pending route sent done (route b) = b :: ys := by
  have hbdone : b ∉ done := fun hmem =>
    (List.nodup_append.mp (hσ.nodup hplaced)).2.2 b hmem b (List.mem_cons_self ..) rfl
  cases hpending : pending route sent done (route b) with
  | nil =>
    have hmem : b ∈ pending route sent done (route b) := by
      rw [pending, mem_lane, List.mem_filter]
      simp [hb, hbdone]
    rw [hpending] at hmem
    exact absurd hmem List.not_mem_nil
  | cons y ys =>
    obtain ⟨hroute, hdone, pre, z, hsent, hpre, -⟩ := pending_cons hpending
    by_cases hne : y = b
    · exact ⟨ys, by rw [hne]⟩
    · have hloose := hσ.not_tied (by simp [hinput, hsent]) hdone hne
      have hbz : b ∈ z := by
        rw [hsent] at hb
        rcases List.mem_append.mp hb with hb | hb
        · exact absurd (hpre b hb rfl) hbdone
        · exact (List.mem_cons.mp hb).resolve_left (Ne.symm hne)
      have hsorted : (pre ++ y :: z ++ source).Pairwise (place · < place ·) := hsent ▸ hinput ▸ hplaced
      have hyz := (List.pairwise_append.mp (List.pairwise_append.mp hsorted).1).2.1
      exact absurd ⟨(List.pairwise_cons.mp hyz).1 b hbz, .inl hroute⟩ hloose

/-- The dispatcher goes on until the next item of a schedule is dispatched. -/
theorem Schedule.reach (hcap : 0 < cap) : ∀ {source sent : List α},
      input = sent ++ source → (∀ a ∈ done, a ∈ sent) → ∃ source' sent', input = sent' ++ source' ∧
        (∀ a ∈ done, a ∈ sent') ∧ b ∈ sent' ∧
        ReflTransGen (Step route cap stages) (paused route stages source sent done)
          (paused route stages source' sent' done) := by
  intro source
  induction source with
  | nil =>
    intro sent hinput hdone
    have hb : b ∈ input := hσ.perm.subset (by simp)
    rw [hinput, List.append_nil] at hb
    exact ⟨[], sent, hinput, hdone, hb, .refl⟩
  | cons c rest ih =>
    intro sent hinput hdone
    by_cases hb : b ∈ sent
    · exact ⟨c :: rest, sent, hinput, hdone, hb, .refl⟩
    · have hc : c ∉ done := by
        intro hmem
        have hnodup : (sent ++ c :: rest).Nodup := hinput ▸ hplaced.nodup
        exact (List.nodup_append.mp hnodup).2.2 c (hdone c hmem) c (List.mem_cons_self ..) rfl
      obtain ⟨source', sent', hinput', hdone', hb', hsteps⟩ := @ih (sent ++ [c])
        (by rw [hinput]; simp) fun a ha => List.mem_append_left _ (hdone a ha)
      exact ⟨source', sent', hinput', hdone', hb',
        (dispatch_paused hcap hc (hσ.room hplaced hinput hb)).trans hsteps⟩

end

end

/-- Item by item a schedule is worked off. -/
theorem Schedule.work (hσ : Schedule route cap place input σ) (hplaced : Placed place input)
    (hcap : 0 < cap) (hstages : 0 < stages) : ∀ {todo done source sent : List α},
      σ = done ++ todo → input = sent ++ source → (∀ a ∈ done, a ∈ sent) →
        ReflTransGen (Step route cap stages) (paused route stages source sent done)
          (paused route stages [] input σ) := by
  intro todo
  induction todo with
  | nil =>
    intro done source sent hdone hinput hsub
    obtain rfl : source = [] := by
      refine List.eq_nil_iff_forall_not_mem.mpr fun x hx => ?_
      have hmem : x ∈ σ := hσ.perm.mem_iff.mpr (by simp [hinput, hx])
      rw [hdone, List.append_nil] at hmem
      have hnodup : (sent ++ source).Nodup := hinput ▸ hplaced.nodup
      exact (List.nodup_append.mp hnodup).2.2 x (hsub x hmem) x hx rfl
    rw [List.append_nil] at hdone hinput
    rw [hdone, hinput]
  | cons b todo ih =>
    intro done source sent hdone hinput hsub
    have hσ' := hdone ▸ hσ
    obtain ⟨source', sent', hinput', hsub', hb, hreach⟩ := hσ'.reach hplaced hcap hinput hsub
    obtain ⟨ys, hys⟩ := hσ'.first hplaced hinput' hb
    have hnodup : sent'.Nodup := (List.nodup_append.mp (hinput' ▸ hplaced.nodup)).1
    refine hreach.trans ((work_paused hstages hnodup hys).trans (ih ?_ hinput' ?_))
    · rw [hdone]
      simp
    · intro a ha
      rcases List.mem_append.mp ha with ha | ha
      · exact hsub' a ha
      · exact List.mem_singleton.mp ha ▸ hb

end Greedy

/-- Nothing is left to do but to close and to exit. -/
def Quiet (s : Fanout α n) : Prop :=
  s.source = [] ∧ ∀ i, (s.lanes i).queue = [] ∧ (s.lanes i).busy = none

theorem Quiet.update {s : Fanout α n} (h : Quiet s) {i : Fin n} {l : Lane α} (hqueue : l.queue = [])
    (hbusy : l.busy = none) (j : Fin n) :
    (Function.update s.lanes i l j).queue = [] ∧ (Function.update s.lanes i l j).busy = none := by
  by_cases hj : j = i
  · subst hj
    simp [hqueue, hbusy]
  · rw [Function.update_of_ne hj]
    exact h.2 j

theorem Quiet.step (h : Quiet s) (hstep : Step route cap stages s t) : Quiet t ∧ t.log = s.log := by
  cases hstep with
  | dispatch next room => exact absurd (h.1.symm.trans next) (by simp)
  | @close i empty isOpen => exact ⟨⟨h.1, h.update (h.2 i).1 (h.2 i).2⟩, rfl⟩
  | finish all running => exact ⟨h, rfl⟩
  | @worker i out l moves =>
    cases moves with
    | take free first => exact absurd ((h.2 i).1.symm.trans first) (by simp)
    | work has => exact absurd ((h.2 i).2.symm.trans has) (by simp)
    | exit isClosed drained free here =>
      exact ⟨⟨h.1, h.update drained free⟩, List.append_nil _⟩

/-- A run in which nothing is left to do ends with the log it has. -/
theorem Run.wind_up (hcap : 0 < cap) (hstages : 0 < stages) (h : Run route cap stages input s)
    (hquiet : Quiet s) : ∃ t, Run route cap stages input t ∧ t.ended = true ∧ t.log = s.log := by
  induction hleft : s.left stages using Nat.strong_induction_on generalizing s with
  | _ k ih =>
    cases hended : s.ended with
    | true => exact ⟨s, h, hended, rfl⟩
    | false =>
      obtain ⟨s', hstep⟩ := h.progress hcap hstages hended
      obtain ⟨hquiet', hlog⟩ := hquiet.step hstep
      obtain ⟨t, hrun, hend, hlog'⟩ := ih _ (hleft ▸ h.left_lt hstages hstep) (h.next hstep) hquiet' rfl
      exact ⟨t, hrun, hend, hlog'.trans hlog⟩

/-- Every schedule is the order of some run. -/
theorem Schedule.run (hσ : Schedule route cap place input σ) (hplaced : Placed place input)
    (hcap : 0 < cap) (hstages : 0 < stages) :
    ∃ s, Run route cap stages input s ∧ s.ended = true ∧ order s.log = σ := by
  have hstart : paused route stages input [] [] = { source := input } := rfl
  have hsteps := hσ.work hplaced hcap hstages (List.nil_append σ).symm
    (List.nil_append input).symm (by simp)
  rw [hstart] at hsteps
  have hquiet : Quiet (paused route stages [] input σ) := by
    refine ⟨rfl, fun i => ?_⟩
    have hnone : pending route input σ i = [] := by
      rw [pending, List.filter_eq_nil_iff.mpr, lane, List.filter_nil]
      intro x hx
      simpa using hσ.perm.mem_iff.mpr hx
    simp only [paused, hnone, waiting, and_self]
  obtain ⟨t, hrun, hended, hlog⟩ := (Run.trans (.start rfl) hsteps).wind_up hcap hstages hquiet
  exact ⟨t, hrun, hended, by rw [hlog]; exact order_flatMap hstages σ⟩

/-! ### From one schedule to another -/

/-- How many pairs of a list stand against the order of their places. -/
def inversions (place : α → Nat) : List α → Nat
  | [] => 0
  | x :: l => (l.filter fun y => place y < place x).length + inversions place l

theorem inversions_swap (place : α → Nat) {a b : α} (hab : place a < place b) (post : List α) :
    ∀ pre : List α, inversions place (pre ++ a :: b :: post) < inversions place (pre ++ b :: a :: post)
  | [] => by
    have hb : ¬ place b < place a := Nat.lt_asymm hab
    simp only [List.nil_append, inversions, List.filter_cons, hab, hb, decide_true, decide_false,
      if_true, List.length_cons]
    simp only [Bool.false_eq_true, if_false]
    omega
  | x :: pre => by
    have hperm : (pre ++ a :: b :: post).Perm (pre ++ b :: a :: post) :=
      (List.Perm.swap b a post).append_left pre
    have hcount := (hperm.filter fun y => place y < place x).length_eq
    have ih := inversions_swap place hab post pre
    simp only [List.cons_append, inversions, hcount]
    omega

/-- A list that is not in the order of its places has two neighbours that are not. -/
theorem placed_or_descent : ∀ {l : List α}, l.Nodup → (∀ a ∈ l, ∀ b ∈ l, place a = place b → a = b) →
    Placed place l ∨ ∃ pre a b post, l = pre ++ b :: a :: post ∧ place a < place b
  | [], _, _ => .inl .nil
  | [x], _, _ => .inl (List.pairwise_singleton _ x)
  | x :: y :: l, hnodup, hinj => by
    obtain ⟨hx, hnodup⟩ := List.nodup_cons.mp hnodup
    rcases placed_or_descent hnodup fun a ha b hb =>
      hinj a (List.mem_cons_of_mem x ha) b (List.mem_cons_of_mem x hb) with hplaced | hdescent
    · rcases Nat.lt_trichotomy (place x) (place y) with hlt | heq | hgt
      · refine .inl (List.pairwise_cons.mpr ⟨fun z hz => ?_, hplaced⟩)
        rcases List.mem_cons.mp hz with rfl | hz
        · exact hlt
        · exact Nat.lt_trans hlt ((List.pairwise_cons.mp hplaced).1 z hz)
      · have hxy := hinj x (by simp) y (by simp) heq
        exact absurd (by simp [hxy]) hx
      · exact .inr ⟨[], y, x, l, rfl, hgt⟩
    · obtain ⟨pre, a, b, post, hl, hab⟩ := hdescent
      exact .inr ⟨x :: pre, a, b, post, by rw [hl]; rfl, hab⟩

theorem Placed.inj (h : Placed place input) {a b : α} (ha : a ∈ input) (hb : b ∈ input)
    (heq : place a = place b) : a = b := by
  have hnodup : (input.map place).Nodup :=
    (List.pairwise_map.mpr h).imp fun hlt => Nat.ne_of_lt hlt
  exact List.inj_on_of_nodup_map hnodup ha hb heq

/-- Neighbours that stand against the order of the source may be exchanged. -/
theorem Schedule.swap {pre post : List α} {a b : α}
    (h : Schedule route cap place input (pre ++ b :: a :: post)) (hab : place a < place b) :
    Schedule route cap place input (pre ++ a :: b :: post) := by
  refine ⟨((List.Perm.swap b a post).append_left pre).trans h.perm, ?_⟩
  obtain ⟨hpre, hrest, hacross⟩ := List.pairwise_append.mp h.ordered
  obtain ⟨hb, hrest⟩ := List.pairwise_cons.mp hrest
  obtain ⟨ha, hpost⟩ := List.pairwise_cons.mp hrest
  refine List.pairwise_append.mpr ⟨hpre, List.pairwise_cons.mpr ⟨?_, List.pairwise_cons.mpr ⟨?_, hpost⟩⟩, ?_⟩
  · intro y hy
    rcases List.mem_cons.mp hy with rfl | hy
    · exact fun htied => Nat.lt_asymm hab htied.1
    · exact ha y hy
  · exact fun y hy => hb y (List.mem_cons_of_mem a hy)
  · intro x hx y hy
    exact hacross x hx y ((List.Perm.swap a b post).mem_iff.mpr hy)

/-- What holds of the order of the source, and is kept when two neighbours that are not tied change
    places, holds of every schedule. -/
theorem Schedule.induction {P : List α → Prop} (hplaced : Placed place input) (base : P input)
    (step : ∀ pre a b post, Schedule route cap place input (pre ++ b :: a :: post) →
      Schedule route cap place input (pre ++ a :: b :: post) → place a < place b →
      P (pre ++ a :: b :: post) → P (pre ++ b :: a :: post))
    (h : Schedule route cap place input σ) : P σ := by
  induction hinv : inversions place σ using Nat.strong_induction_on generalizing σ with
  | _ k ih =>
    rcases placed_or_descent (h.nodup hplaced) fun a ha b hb =>
      hplaced.inj (h.perm.subset ha) (h.perm.subset hb) with hσ | ⟨pre, a, b, post, rfl, hab⟩
    · have hsame : σ = input := by
        refine List.Perm.eq_of_pairwise ?_ hσ hplaced h.perm
        intro a b _ _ hlt hgt
        exact absurd hlt (Nat.lt_asymm hgt)
      exact hsame ▸ base
    · have hswap := h.swap hab
      exact step pre a b post h hswap hab (ih _ (hinv ▸ inversions_swap place hab post pre) hswap rfl)

/-! ### Holding workers back -/

section Hold
open Classical

/-- An item before `b` is kept back if its worker has got to an item of `D`. -/
def Held (route : α → Fin n) (place : α → Nat) (D : α → Prop) (z : α) : Prop :=
  ∃ a, D a ∧ route a = route z ∧ place a ≤ place z

/-- The turn of an item when the workers with items of `D` wait until `b` is done: first what the
    others do before `b`, then `b`, then what was kept back, then the rest. -/
noncomputable def turn (route : α → Fin n) (place : α → Nat) (D : α → Prop) (b z : α) : Fin 4 :=
  if place z < place b then if Held route place D z then 2 else 0
  else if place z = place b then 1 else 3

/-- The items in their turns. -/
noncomputable def hold (route : α → Fin n) (place : α → Nat) (D : α → Prop) (b : α) (input : List α) :
    List α :=
  input.filter (turn route place D b · = 0) ++ (input.filter (turn route place D b · = 1) ++
    (input.filter (turn route place D b · = 2) ++ input.filter (turn route place D b · = 3)))

theorem hold_perm (D : α → Prop) (b : α) : (hold route place D b input).Perm input := by
  refine perm_of_lanes (turn route place D b) fun i => ?_
  have hsame : ∀ j : Fin 4, (input.filter (turn route place D b · = j)).filter
      (turn route place D b · = i) = if j = i then input.filter (turn route place D b · = i) else [] := by
    intro j
    rw [List.filter_filter]
    by_cases hj : j = i
    · simp [hj]
    · rw [if_neg hj, List.filter_eq_nil_iff]
      intro x _ hx
      simp only [Bool.and_eq_true, decide_eq_true_eq] at hx
      exact hj (hx.2.symm.trans hx.1)
  simp only [hold, List.filter_append, hsame]
  clear hsame
  match i with
  | 0 | 1 | 2 | 3 => simp

variable {D : α → Prop} {b : α}

/-- Whoever has a later turn is not tied to come first. -/
theorem turn_lt (hplaced : Placed place input) (hb : b ∈ input)
    (hD : ∀ a, D a → place a < place b ∧ ¬ Tied route cap place input a b) {x y : α} (hx : x ∈ input)
    (hlt : turn route place D b x < turn route place D b y) : ¬ Tied route cap place input y x := by
  rintro ⟨hyx, htied⟩
  by_cases hyb : place y < place b
  · by_cases hheld : Held route place D y
    · obtain ⟨a, ha, hroute, hay⟩ := hheld
      obtain ⟨hab, hloose⟩ := hD a ha
      have hxb : place x ≤ place b := by
        by_contra hover
        have hturn : turn route place D b x = 3 := by
          rw [turn, if_neg (by omega), if_neg (by omega)]
        rw [hturn] at hlt
        exact absurd (Fin.le_last (turn route place D b y)) (Fin.not_le.mpr hlt)
      rcases htied with hsame | hcount
      · by_cases hxlt : place x < place b
        · have hturn : ∀ z, place z < place b → Held route place D z → turn route place D b z = 2 :=
            fun z hz hheld => by rw [turn, if_pos hz, if_pos hheld]
          rw [hturn x hxlt ⟨a, ha, hroute.trans hsame, by omega⟩,
            hturn y hyb ⟨a, ha, hroute, hay⟩] at hlt
          exact absurd hlt (Fin.lt_irrefl _)
        · obtain rfl := hplaced.inj hx hb (by omega)
          exact hloose ⟨hab, .inl (hroute.trans hsame)⟩
      · refine hloose ⟨hab, .inr (Nat.lt_of_lt_of_le hcount ?_)⟩
        rw [← List.countP_eq_length_filter, ← List.countP_eq_length_filter]
        refine List.countP_mono_left fun z _ hz => ?_
        simp only [decide_eq_true_eq] at hz ⊢
        exact ⟨by omega, by omega, hz.2.2.trans hroute.symm⟩
    · have hturn : turn route place D b y = 0 := by rw [turn, if_pos hyb, if_neg hheld]
      rw [hturn] at hlt
      exact absurd hlt (Fin.not_lt_zero _)
  · have hturn : turn route place D b x = 3 := by
      rw [turn, if_neg (by omega), if_neg (by omega)]
    rw [hturn] at hlt
    exact absurd (Fin.le_last (turn route place D b y)) (Fin.not_le.mpr hlt)

/-- What was kept back may wait until `b` is done, if none of `D` is tied to come before `b`. -/
theorem Placed.hold (hplaced : Placed place input) (hb : b ∈ input)
    (hD : ∀ a, D a → place a < place b ∧ ¬ Tied route cap place input a b) :
    Schedule route cap place input (hold route place D b input) := by
  refine ⟨hold_perm D b, ?_⟩
  have hbucket : ∀ j : Fin 4, (input.filter (turn route place D b · = j)).Pairwise
      fun x y => ¬ Tied route cap place input y x :=
    fun j => hplaced.schedule.ordered.filter _
  have hcross : ∀ {x y : α}, x ∈ input → turn route place D b x < turn route place D b y →
      ¬ Tied route cap place input y x := turn_lt hplaced hb hD
  simp only [Fanout.hold, List.pairwise_append, List.mem_append, List.mem_filter, decide_eq_true_eq]
  refine ⟨hbucket 0, ⟨hbucket 1, ⟨hbucket 2, hbucket 3, ?_⟩, ?_⟩, ?_⟩
  · rintro x ⟨hx, hxt⟩ y ⟨-, hyt⟩
    exact hcross hx (by rw [hxt, hyt]; decide)
  · rintro x ⟨hx, hxt⟩ y (⟨-, hyt⟩ | ⟨-, hyt⟩)
    · exact hcross hx (by rw [hxt, hyt]; decide)
    · exact hcross hx (by rw [hxt, hyt]; decide)
  · rintro x ⟨hx, hxt⟩ y (⟨-, hyt⟩ | ⟨-, hyt⟩ | ⟨-, hyt⟩)
    · exact hcross hx (by rw [hxt, hyt]; decide)
    · exact hcross hx (by rw [hxt, hyt]; decide)
    · exact hcross hx (by rw [hxt, hyt]; decide)

theorem turn_held (route : α → Fin n) {z : α} (hz : place z < place b) (hheld : Held route place D z) :
    turn route place D b z = 2 := by
  rw [turn, if_pos hz, if_pos hheld]

section
variable (hplaced : Placed place input)
include hplaced

theorem hold_eq (hb : b ∈ input) : hold route place D b input =
    input.filter (turn route place D b · = 0) ++ b ::
      (input.filter (turn route place D b · = 2) ++ input.filter (turn route place D b · = 3)) := by
  have hone : input.filter (turn route place D b · = 1) = [b] := by
    have hiff : ∀ z ∈ input, decide (turn route place D b z = 1) = (z == b) := by
      intro z hz
      rw [Bool.eq_iff_iff, decide_eq_true_eq, beq_iff_eq]
      constructor
      · intro hturn
        refine hplaced.inj hz hb ?_
        rw [turn] at hturn
        split at hturn
        · split at hturn <;> exact absurd hturn (by decide)
        · split at hturn
          · assumption
          · exact absurd hturn (by decide)
      · rintro rfl
        rw [turn, if_neg (Nat.lt_irrefl _), if_pos rfl]
    rw [List.filter_congr hiff, List.filter_beq, List.count_eq_one_of_mem hplaced.nodup hb]
    rfl
  rw [hold, hone]
  rfl

/-- An item that is tied to none of `D` can be done before all of them. -/
theorem Placed.overtake (hb : b ∈ input)
    (hD : ∀ a, D a → place a < place b ∧ ¬ Tied route cap place input a b) :
    ∃ pre post, Schedule route cap place input (pre ++ b :: post) ∧
      ∀ a ∈ pre, place a < place b ∧ ¬ D a := by
  refine ⟨_, _, hold_eq hplaced hb ▸ hplaced.hold hb hD, ?_⟩
  intro a ha
  rw [List.mem_filter, decide_eq_true_eq] at ha
  refine ⟨?_, fun hDa => ?_⟩
  · by_contra hnot
    have hturn := ha.2
    rw [turn, if_neg hnot] at hturn
    split at hturn <;> exact absurd hturn (by decide)
  · have hturn := turn_held route (hD a hDa).1 ⟨a, hDa, rfl, Nat.le_refl _⟩
    rw [hturn] at ha
    exact absurd ha.2 (by decide)

/-- Two items that are not tied can be neighbours in the order against that of the source. -/
theorem Placed.neighbours {a : α} (ha : a ∈ input) (hb : b ∈ input) (hab : place a < place b)
    (hloose : ¬ Tied route cap place input a b) :
    ∃ pre post, Schedule route cap place input (pre ++ b :: a :: post) := by
  have hσ := hplaced.hold (D := (· = a)) hb (by rintro _ rfl; exact ⟨hab, hloose⟩)
  obtain ⟨before, behind, hinput⟩ := List.append_of_mem ha
  have htwo : input.filter (turn route place (· = a) b · = 2) =
      a :: behind.filter (turn route place (· = a) b · = 2) := by
    have hbefore : before.filter (turn route place (· = a) b · = 2) = [] := by
      refine List.filter_eq_nil_iff.mpr fun z hz hturn => ?_
      have hza : place z < place a := by
        rw [hinput] at hplaced
        exact (List.pairwise_append.mp hplaced).2.2 z hz a (List.mem_cons_self ..)
      rw [decide_eq_true_eq, turn] at hturn
      split at hturn
      · split at hturn
        · next hheld =>
          obtain ⟨_, rfl, -, hle⟩ := hheld
          omega
        · exact absurd hturn (by decide)
      · split at hturn <;> exact absurd hturn (by decide)
    have hself : turn route place (· = a) b a = 2 :=
      turn_held route hab ⟨a, rfl, rfl, Nat.le_refl _⟩
    rw [hinput, List.filter_append, hbefore, List.nil_append]
    exact List.filter_cons_of_pos (decide_eq_true hself)
  rw [hold_eq hplaced hb, htwo] at hσ
  exact ⟨_, _, hσ⟩

end

end Hold

end TaNode.Fanout

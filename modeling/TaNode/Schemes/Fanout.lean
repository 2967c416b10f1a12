import Mathlib.Algebra.BigOperators.Fin
import TaNode.Schemes.Runs

/-! Fanning out: one dispatcher, and workers that each take items from a queue of their own.

    The dispatcher sends the items of a source, in order, to the queues that `route` names; a queue is
    first in, first out and holds at most `cap` items. A worker takes the first item of its queue and
    does the work on it in `stages` steps, which go to a log that all workers share. When the source
    is empty the queues are closed, a worker with a closed and empty queue exits, and when all workers
    have exited the run ends.

        source ──▶ dispatcher ─┬▶ queue 0 ──▶ worker 0 ─┐
                               ├▶ queue 1 ──▶ worker 1 ─┼──▶ log
                               └▶ …                     ┘

    Items of one queue are worked on in order; items of different queues in any order that the
    capacity leaves room for. -/

namespace TaNode

/-- A queue with its worker. -/
structure Lane (α : Type) where
  queue : List α := []
  /-- the item the worker has, and the stage it comes to next -/
  busy : Option (α × Nat) := none
  closed : Bool := false
  exited : Bool := false

/-- What the dispatcher and the workers are doing. -/
structure Fanout (α : Type) (n : Nat) where
  source : List α
  lanes : Fin n → Lane α := fun _ => {}
  ended : Bool := false
  log : List (α × Nat) := []

variable {α : Type} {n : Nat}

namespace Lane

def push (l : Lane α) (a : α) : Lane α := { l with queue := l.queue ++ [a] }

def close (l : Lane α) : Lane α := { l with closed := true }

/-- One step of a worker, with what it adds to the log. -/
inductive Step (stages : Nat) : Lane α → List (α × Nat) → Lane α → Prop where
  | take {l : Lane α} {a : α} {rest : List α} (free : l.busy = none) (first : l.queue = a :: rest) :
      Step stages l [] { l with queue := rest, busy := some (a, 0) }
  | work {l : Lane α} {a : α} {k : Nat} (has : l.busy = some (a, k)) :
      Step stages l [(a, k)] { l with busy := if k + 1 < stages then some (a, k + 1) else none }
  | exit {l : Lane α} (isClosed : l.closed = true) (drained : l.queue = []) (free : l.busy = none)
      (here : l.exited = false) : Step stages l [] { l with exited := true }

end Lane

namespace Fanout

/-- One step of the dispatcher or of a worker. -/
inductive Step (route : α → Fin n) (cap stages : Nat) : Fanout α n → Fanout α n → Prop where
  | dispatch {s : Fanout α n} {a : α} {rest : List α} (next : s.source = a :: rest)
      (room : (s.lanes (route a)).queue.length < cap) :
      Step route cap stages s { s with
        source := rest
        lanes := Function.update s.lanes (route a) ((s.lanes (route a)).push a) }
  | close {s : Fanout α n} {i : Fin n} (empty : s.source = []) (isOpen : (s.lanes i).closed = false) :
      Step route cap stages s { s with lanes := Function.update s.lanes i (s.lanes i).close }
  | worker {s : Fanout α n} {i : Fin n} {out : List (α × Nat)} {l : Lane α}
      (moves : (s.lanes i).Step stages out l) :
      Step route cap stages s { s with lanes := Function.update s.lanes i l, log := s.log ++ out }
  | finish {s : Fanout α n} (all : ∀ i, (s.lanes i).exited = true) (running : s.ended = false) :
      Step route cap stages s { s with ended := true }

/-- The states a source leads to. -/
abbrev Run (route : α → Fin n) (cap stages : Nat) (input : List α) : Fanout α n → Prop :=
  Reachable (· = { source := input }) (Step route cap stages)

end Fanout

/-! ### What a worker has done -/

/-- The first actions of one item. -/
def actions (stages : Nat) (a : α) : List (α × Nat) := (List.range stages).map (a, ·)

theorem actions_succ (k : Nat) (a : α) : actions (k + 1) a = actions k a ++ [(a, k)] := by
  simp [actions, List.range_succ]

variable {a : α} {i : Fin n} {sent : List α} {j : Nat}

theorem mem_actions {stages : Nat} {x : α × Nat} :
    x ∈ actions stages a ↔ x.1 = a ∧ x.2 < stages := by
  rcases x with ⟨b, k⟩
  simp only [actions, List.mem_map, List.mem_range, Prod.mk.injEq]
  constructor
  · rintro ⟨j, hj, rfl, rfl⟩
    exact ⟨rfl, hj⟩
  · rintro ⟨rfl, hk⟩
    exact ⟨k, hk, rfl, rfl⟩

namespace Lane
variable {cap stages : Nat} {l l' : Lane α} {got done : List α} {log out : List (α × Nat)}

/-- The item the worker has. -/
def held (l : Lane α) : List α := (l.busy.map (·.1)).toList

/-- The actions on the item the worker has. -/
def begun (l : Lane α) : List (α × Nat) :=
  match l.busy with
  | some (a, k) => actions k a
  | none => []

/-- Of the items a lane got, the worker is done with the first, has the next, and the rest are in the
    queue; the log has all actions of the first, and those of the next up to its stage. -/
structure Inv (cap stages : Nat) (l : Lane α) (got : List α) (log : List (α × Nat))
    (done : List α) : Prop where
  items : got = done ++ l.held ++ l.queue
  log : log = done.flatMap (actions stages) ++ l.begun
  stage : ∀ a k, l.busy = some (a, k) → k < stages
  room : l.queue.length ≤ cap
  exited : l.exited = true → l.closed = true ∧ l.queue = [] ∧ l.busy = none

theorem Inv.push (h : Inv cap stages l got log done) (a : α) (hroom : l.queue.length < cap)
    (hclosed : l.closed = false) : Inv cap stages (l.push a) (got ++ [a]) log done where
  items := by simp [h.items, Lane.push, held]
  log := h.log
  stage := h.stage
  room := by
    simp only [Lane.push, List.length_append, List.length_singleton]
    exact hroom
  exited hexited := by
    have hc := (h.exited hexited).1
    rw [hclosed] at hc
    exact absurd hc (by decide)

theorem Inv.close (h : Inv cap stages l got log done) : Inv cap stages l.close got log done where
  items := h.items
  log := h.log
  stage := h.stage
  room := h.room
  exited hexited := ⟨rfl, (h.exited hexited).2⟩

/-- A worker's step keeps the books: only the last action of an item adds to what is done. -/
theorem Inv.step (hstages : 0 < stages) (h : Inv cap stages l got log done)
    (hstep : l.Step stages out l') : ∃ done', Inv cap stages l' got (log ++ out) done' := by
  cases hstep with
  | @take a rest free first =>
    refine ⟨done, ?_, ?_, ?_, ?_, ?_⟩
    · simp [h.items, held, free, first]
    · simp [h.log, begun, free, actions]
    · rintro b k hb
      cases hb
      exact hstages
    · have hroom := h.room
      rw [first] at hroom
      exact Nat.le_trans (Nat.le_succ _) hroom
    · intro hexited
      have hq := (h.exited hexited).2.1
      simp [first] at hq
  | @work a k has =>
    have hk := h.stage a k has
    by_cases hnext : k + 1 < stages
    · refine ⟨done, ?_, ?_, ?_, h.room, ?_⟩
      · simp [h.items, held, has, hnext]
      · simp [h.log, begun, has, hnext, actions_succ]
      · rintro b j hb
        rw [if_pos hnext] at hb
        cases hb
        exact hnext
      · intro hexited
        have hb := (h.exited hexited).2.2
        simp [has] at hb
    · have hlast : k + 1 = stages := by omega
      refine ⟨done ++ [a], ?_, ?_, ?_, h.room, ?_⟩
      · simp [h.items, held, has, hnext]
      · simp [h.log, begun, has, ← hlast, actions_succ]
      · rintro b j hb
        rw [if_neg hnext] at hb
        cases hb
      · intro hexited
        have hb := (h.exited hexited).2.2
        simp [has] at hb
  | exit isClosed drained free here =>
    refine ⟨done, h.items, ?_, h.stage, h.room, fun _ => ⟨isClosed, drained, free⟩⟩
    rw [List.append_nil]
    exact h.log

end Lane

/-! ### What every state of a run has in common -/

namespace Fanout
variable {route : α → Fin n} {cap stages : Nat} {input : List α} {s s' : Fanout α n}

/-- The part of a list that is routed to a worker. -/
def lane (route : α → Fin n) (i : Fin n) (l : List α) : List α := l.filter (route · = i)

/-- The part of the log that is about a worker's items. -/
def laneLog (route : α → Fin n) (i : Fin n) (log : List (α × Nat)) : List (α × Nat) :=
  log.filter (route ·.1 = i)

structure Inv (route : α → Fin n) (cap stages : Nat) (input : List α) (s : Fanout α n)
    (sent : List α) : Prop where
  split : input = sent ++ s.source
  lanes : ∀ i, ∃ done, (s.lanes i).Inv cap stages (lane route i sent) (laneLog route i s.log) done
  closed : ∀ i, (s.lanes i).closed = true → s.source = []
  ended : s.ended = true → ∀ i, (s.lanes i).exited = true

theorem inv_start (route : α → Fin n) (cap stages : Nat) (input : List α) :
    Inv route cap stages input { source := input } [] where
  split := rfl
  lanes i := by
    refine ⟨[], rfl, rfl, ?_, Nat.zero_le _, ?_⟩
    · intro a k h
      cases h
    · intro h
      cases h
  closed i h := by cases h
  ended h := by cases h

theorem lane_append (i : Fin n) (l m : List α) :
    lane route i (l ++ m) = lane route i l ++ lane route i m := List.filter_append l m

theorem mem_lane {l : List α} : a ∈ lane route i l ↔ a ∈ l ∧ route a = i := by
  simp [lane]

/-- A worker logs actions of its own items only. -/
theorem laneLog_out {j : Fin n} {l l' : Lane α} {done : List α} {log out : List (α × Nat)}
    (h : l.Inv cap stages (lane route i sent) log done) (hstep : l.Step stages out l') :
    laneLog route j out = if j = i then out else [] := by
  cases hstep with
  | take | exit => simp [laneLog]
  | @work a k has =>
    have hmem : a ∈ lane route i sent := by
      rw [h.items]
      simp [Lane.held, has]
    have hroute : route a = i := (mem_lane.mp hmem).2
    by_cases hji : j = i
    · simp [laneLog, hroute, hji]
    · simp [laneLog, hroute, hji, Ne.symm hji]

theorem Inv.step (hstages : 0 < stages) (h : Inv route cap stages input s sent)
    (hstep : Step route cap stages s s') : ∃ sent', Inv route cap stages input s' sent' := by
  cases hstep with
  | @dispatch a rest next room =>
    have hopen : ∀ i, (s.lanes i).closed = false := by
      intro i
      by_contra hclosed
      have hempty := h.closed i (Bool.eq_true_of_not_eq_false hclosed)
      simp [next] at hempty
    refine ⟨sent ++ [a], ?_, ?_, ?_, ?_⟩
    · simp [h.split, next]
    · intro i
      obtain ⟨done, hdone⟩ := h.lanes i
      refine ⟨done, ?_⟩
      rw [lane_append]
      by_cases hi : i = route a
      · subst hi
        simpa [lane] using hdone.push a room (hopen _)
      · simpa [lane, hi, Ne.symm hi] using hdone
    · intro i hclosed
      by_cases hi : i = route a
      · subst hi
        simp [Lane.push, hopen] at hclosed
      · simp [hi, hopen] at hclosed
    · intro hended i
      by_cases hi : i = route a
      · subst hi
        simpa [Lane.push] using h.ended hended (route a)
      · simpa [hi] using h.ended hended i
  | @close i empty isOpen =>
    refine ⟨sent, h.split, ?_, fun _ _ => empty, ?_⟩
    · intro j
      obtain ⟨done, hdone⟩ := h.lanes j
      refine ⟨done, ?_⟩
      by_cases hj : j = i
      · subst hj
        simpa using hdone.close
      · simpa [hj] using hdone
    · intro hended j
      by_cases hj : j = i
      · subst hj
        simpa [Lane.close] using h.ended hended j
      · simpa [hj] using h.ended hended j
  | @worker i out l moves =>
    obtain ⟨done, hdone⟩ := h.lanes i
    obtain ⟨done', hdone'⟩ := hdone.step hstages moves
    refine ⟨sent, h.split, ?_, ?_, ?_⟩
    · intro j
      rw [laneLog, List.filter_append, ← laneLog, ← laneLog, laneLog_out hdone moves]
      by_cases hj : j = i
      · subst hj
        exact ⟨done', by simpa using hdone'⟩
      · obtain ⟨doneOther, hother⟩ := h.lanes j
        exact ⟨doneOther, by simpa [hj] using hother⟩
    · intro j hclosed
      by_cases hj : j = i
      · subst hj
        refine h.closed j ?_
        cases moves <;> simpa using hclosed
      · exact h.closed j (by simpa [hj] using hclosed)
    · intro hended j
      have hexited := h.ended hended j
      by_cases hj : j = i
      · subst hj
        cases moves <;> simp [hexited]
      · simpa [hj] using hexited
  | finish all running => exact ⟨sent, h.split, h.lanes, h.closed, fun _ => all⟩

theorem Run.inv (hstages : 0 < stages) (h : Run route cap stages input s) :
    ∃ sent, Inv route cap stages input s sent := by
  induction h with
  | start hs => exact hs ▸ ⟨[], inv_start route cap stages input⟩
  | next _ hstep ih =>
    obtain ⟨sent, hinv⟩ := ih
    exact hinv.step hstages hstep

/-! ### At the end -/

/-- Two lists with the same lanes have the same items. -/
theorem perm_of_lanes {β : Type} (key : β → Fin n) {l m : List β}
    (h : ∀ i, l.filter (key · = i) = m.filter (key · = i)) : l.Perm m := by
  classical
  rw [List.perm_iff_count]
  intro a
  have hcount : ∀ k : List β, k.count a = (k.filter (key · = key a)).count a :=
    fun k => (List.count_filter (by simp)).symm
  rw [hcount l, hcount m, h]

theorem laneLog_flatMap (i : Fin n) (l : List α) :
    laneLog route i (l.flatMap (actions stages)) = (lane route i l).flatMap (actions stages) := by
  induction l with
  | nil => rfl
  | cons a l ih =>
    rw [List.flatMap_cons, laneLog, List.filter_append, ← laneLog, ← laneLog, ih]
    by_cases hi : route a = i
    · simp [lane, laneLog, actions, hi, List.filter_map, Function.comp_def]
    · simp [lane, laneLog, actions, hi, List.filter_map, Function.comp_def]

/-- When a run has ended, the log has every action of every item, once. -/
theorem Run.log_of_ended (hstages : 0 < stages) (h : Run route cap stages input s)
    (hended : s.ended = true) (hn : 0 < n) :
    s.source = [] ∧ s.log.Perm (input.flatMap (actions stages)) := by
  obtain ⟨sent, hinv⟩ := h.inv hstages
  have hexited := hinv.ended hended
  have hdrained : ∀ i, (s.lanes i).closed = true ∧ (s.lanes i).queue = [] ∧
      (s.lanes i).busy = none := by
    intro i
    obtain ⟨done, hdone⟩ := hinv.lanes i
    exact hdone.exited (hexited i)
  have hempty : s.source = [] := hinv.closed ⟨0, hn⟩ (hdrained _).1
  have hsent : input = sent := by rw [hinv.split, hempty, List.append_nil]
  refine ⟨hempty, perm_of_lanes (route ·.1) fun i => ?_⟩
  obtain ⟨done, hdone⟩ := hinv.lanes i
  have hitems : lane route i sent = done := by
    rw [hdone.items]
    simp [Lane.held, (hdrained i).2]
  have hlog := hdone.log
  rw [Lane.begun, (hdrained i).2.2, List.append_nil, ← hitems, ← laneLog_flatMap, ← hsent] at hlog
  exact hlog

/-! ### Order -/

/-- Nothing but a worker's action on the item it has goes to the log. -/
theorem Step.log (h : Step route cap stages s s') :
    s'.log = s.log ∨ ∃ i a k, (s.lanes i).busy = some (a, k) ∧ s'.log = s.log ++ [(a, k)] := by
  cases h with
  | dispatch | close | finish => exact .inl rfl
  | @worker i out l moves =>
    cases moves with
    | take | exit => exact .inl (List.append_nil _)
    | @work a k has => exact .inr ⟨i, a, k, has, rfl⟩

/-- If no worker has `b` before all actions of `a` are done, these stand before those of `b` in the
    log. -/
theorem Run.precedes {b : α}
    (hsettled : ∀ t, Run route cap stages input t → ∀ i k, (t.lanes i).busy = some (b, k) → ∀ j < stages, (a, j) ∈ t.log)
    (h : Run route cap stages input s) {k : Nat} (hj : j < stages) (hb : (b, k) ∈ s.log) :
    [(a, j), (b, k)].Sublist s.log := by
  induction h with
  | start hs => simp [hs] at hb
  | @next s t hrun hstep ih =>
    rcases hstep.log with hlog | ⟨i, c, m, hbusy, hlog⟩
    · rw [hlog] at hb ⊢
      exact ih hb
    · rw [hlog] at hb ⊢
      rcases List.mem_append.mp hb with hb | hb
      · exact (ih hb).trans (List.sublist_append_left _ _)
      · obtain ⟨rfl, rfl⟩ := Prod.mk.inj (List.mem_singleton.mp hb)
        have ha := hsettled s hrun i k hbusy j hj
        exact (List.singleton_sublist.mpr ha).append (List.Sublist.refl [(b, k)])

/-- Without repetitions, a list splits at an item in one way. -/
theorem split_unique {x y x' y' : List α} {b : α} (h : x ++ b :: y = x' ++ b :: y')
    (hnodup : (x ++ b :: y).Nodup) : x = x' := by
  have hfresh := (List.nodup_middle.mp hnodup).notMem
  rw [List.mem_append, not_or] at hfresh
  exact ((List.append_cons_inj_of_notMem hfresh.1 hfresh.2).mp h).1

/-- Two items whose order no schedule changes: one worker has both, or too many items of the
    worker of the first stand between them to wait in its queue. -/
def Fixed (route : α → Fin n) (cap : Nat) (a : α) (mid : List α) (b : α) : Prop :=
  route a = route b ∨ cap < (lane route (route a) mid).length

/-- What a lane has beyond an item does not fit in the queue, so the worker is done with the item. -/
theorem mem_done {l : Lane α} {got log done : _} {x y : List α} (h : l.Inv cap stages got log done)
    (hgot : got = x ++ a :: y) (hy : cap < y.length) : a ∈ done := by
  have hsplit : done ++ (l.held ++ l.queue) = x ++ a :: y := by
    rw [← hgot, h.items, List.append_assoc]
  have hheld : l.held.length ≤ 1 := by
    rw [Lane.held]
    cases l.busy <;> simp
  have hlen := congrArg List.length hsplit
  simp only [List.length_append, List.length_cons] at hlen
  have hroom := h.room
  rcases List.append_eq_append_iff.mp hsplit with ⟨z, hx, hz⟩ | ⟨z, hd, hz⟩
  · have hxlen := congrArg List.length hx
    rw [List.length_append] at hxlen
    omega
  · cases z with
    | nil =>
      have hdlen := congrArg List.length hd
      simp only [List.length_append, List.length_nil] at hdlen
      omega
    | cons c z =>
      obtain ⟨rfl, -⟩ := List.cons.inj hz
      simp [hd]

theorem mem_log_of_done {done : List α}
    (h : (s.lanes i).Inv cap stages (lane route i sent) (laneLog route i s.log) done)
    (ha : a ∈ done) (hj : j < stages) : (a, j) ∈ s.log := by
  have hlog : (a, j) ∈ laneLog route i s.log := by
    rw [h.log]
    exact List.mem_append_left _ (List.mem_flatMap.mpr ⟨a, ha, mem_actions.mpr ⟨rfl, hj⟩⟩)
  exact (List.mem_filter.mp hlog).1

theorem Run.settled {pre mid post : List α} {b : α} (hstages : 0 < stages)
    (hinput : input = pre ++ a :: (mid ++ b :: post)) (hnodup : input.Nodup)
    (hfixed : Fixed route cap a mid b) (h : Run route cap stages input s) {k : Nat}
    (hbusy : (s.lanes i).busy = some (b, k)) (hj : j < stages) : (a, j) ∈ s.log := by
  obtain ⟨sent, hinv⟩ := h.inv hstages
  obtain ⟨done, hdone⟩ := hinv.lanes i
  have hlane : b ∈ lane route i sent := by
    rw [hdone.items]
    simp [Lane.held, hbusy]
  obtain ⟨hb, hroute⟩ := mem_lane.mp hlane
  have hreassoc : input = (pre ++ a :: mid) ++ b :: post := by rw [hinput]; simp
  obtain ⟨x, z, hsent⟩ := List.append_of_mem hb
  have hwhole : x ++ b :: (z ++ s.source) = pre ++ a :: mid ++ b :: post := by
    rw [← hreassoc, hinv.split, hsent]
    simp
  obtain rfl := split_unique hwhole (by rw [hwhole, ← hreassoc]; exact hnodup)
  rcases hfixed with hsame | hfull
  · -- one worker: what stands before `b` in its lane is done
    have hnodupLane : (lane route i sent).Nodup := by
      refine List.Nodup.filter _ ?_
      rw [hinv.split] at hnodup
      exact (List.nodup_append.mp hnodup).1
    have hgot : lane route i sent = lane route i (pre ++ a :: mid) ++ b :: lane route i z := by
      rw [hsent, lane_append]
      simp [lane, hroute]
    have hitems : lane route i sent = done ++ b :: (s.lanes i).queue := by
      rw [hdone.items]
      simp [Lane.held, hbusy]
    have hbefore : lane route i (pre ++ a :: mid) = done :=
      split_unique (hgot.symm.trans hitems) (hgot ▸ hnodupLane)
    have ha : a ∈ done := by
      rw [← hbefore, mem_lane]
      exact ⟨by simp, hsame.trans hroute⟩
    exact mem_log_of_done hdone ha hj
  · obtain ⟨doneA, hdoneA⟩ := hinv.lanes (route a)
    have hgot : lane route (route a) sent =
        lane route (route a) pre ++ a :: (lane route (route a) mid ++ lane route (route a) (b :: z)) := by
      rw [hsent, lane_append, lane_append]
      simp [lane]
    refine mem_log_of_done hdoneA (mem_done hdoneA hgot ?_) hj
    rw [List.length_append]
    omega

/-- In no state of a run does the log have an action of the second item before all of the first. -/
theorem Run.inOrder {pre mid post : List α} {b : α} (hstages : 0 < stages)
    (hinput : input = pre ++ a :: (mid ++ b :: post)) (hnodup : input.Nodup)
    (hfixed : Fixed route cap a mid b) (h : Run route cap stages input s) {k : Nat}
    (hj : j < stages) (hb : (b, k) ∈ s.log) : [(a, j), (b, k)].Sublist s.log :=
  h.precedes (fun _ ht _ _ hbusy _ hm => ht.settled hstages hinput hnodup hfixed hbusy hm) hj hb

/-! ### Every run ends -/

/-- As long as the run has not ended, someone can go on. -/
theorem Run.progress (hcap : 0 < cap) (h : Run route cap stages input s) (hstages : 0 < stages)
    (hended : s.ended = false) : ∃ s', Step route cap stages s s' := by
  obtain ⟨sent, hinv⟩ := h.inv hstages
  by_cases hbusy : ∃ i x, (s.lanes i).busy = some x
  · obtain ⟨i, ⟨a, k⟩, hx⟩ := hbusy
    exact ⟨_, .worker (.work hx)⟩
  have hfree : ∀ i, (s.lanes i).busy = none :=
    fun i => Option.eq_none_iff_forall_ne_some.mpr fun x hx => hbusy ⟨i, x, hx⟩
  by_cases hqueue : ∃ i, (s.lanes i).queue ≠ []
  · obtain ⟨i, hq⟩ := hqueue
    obtain ⟨a, rest, hrest⟩ := List.exists_cons_of_ne_nil hq
    exact ⟨_, .worker (.take (hfree i) hrest)⟩
  have hdrained : ∀ i, (s.lanes i).queue = [] := fun i => by_contra fun hq => hqueue ⟨i, hq⟩
  cases hsource : s.source with
  | cons a rest => exact ⟨_, .dispatch hsource (by rw [hdrained]; exact hcap)⟩
  | nil =>
    by_cases hopen : ∃ i, (s.lanes i).closed = false
    · obtain ⟨i, hi⟩ := hopen
      exact ⟨_, .close hsource hi⟩
    have hclosed : ∀ i, (s.lanes i).closed = true :=
      fun i => Bool.eq_true_of_not_eq_false fun hi => hopen ⟨i, hi⟩
    by_cases hhere : ∃ i, (s.lanes i).exited = false
    · obtain ⟨i, hi⟩ := hhere
      exact ⟨_, .worker (.exit (hclosed i) (hdrained i) (hfree i) hi)⟩
    · exact ⟨_, .finish (fun i => Bool.eq_true_of_not_eq_false fun hi => hhere ⟨i, hi⟩) hended⟩

end Fanout

/-- The steps a worker still has to do. -/
def Lane.left (stages : Nat) (l : Lane α) : Nat :=
  (stages + 1) * l.queue.length + (l.busy.elim 0 (stages - ·.2)) + (!l.closed).toNat +
    (!l.exited).toNat

theorem Lane.Step.left {stages : Nat} {l l' : Lane α} {out : List (α × Nat)}
    (hbusy : ∀ a k, l.busy = some (a, k) → k < stages) (h : l.Step stages out l') :
    l'.left stages < l.left stages := by
  cases h with
  | @take a rest free first =>
    simp only [Lane.left, free, first, List.length_cons, Option.elim_none, Option.elim_some,
      Nat.mul_succ]
    omega
  | @work a k has =>
    have hk := hbusy a k has
    simp only [Lane.left, has, Option.elim_some]
    split
    · simp only [Option.elim_some]
      omega
    · simp only [Option.elim_none]
      omega
  | exit isClosed drained free here => simp [Lane.left, here]

namespace Fanout
variable {route : α → Fin n} {cap stages : Nat} {input : List α} {s s' : Fanout α n}

/-- The steps a state has before it: what is left of the source, in the lanes, and the end. -/
def left (stages : Nat) (s : Fanout α n) : Nat :=
  (stages + 2) * s.source.length + ∑ i, (s.lanes i).left stages + (!s.ended).toNat

theorem sum_update (f : Lane α → Nat) (lanes : Fin n → Lane α) (i : Fin n) (l : Lane α) :
    ∑ j, f (Function.update lanes i l j) + f (lanes i) = ∑ j, f (lanes j) + f l := by
  have hnew := Finset.add_sum_erase Finset.univ (fun j => f (Function.update lanes i l j))
    (Finset.mem_univ i)
  have hold := Finset.add_sum_erase Finset.univ (fun j => f (lanes j)) (Finset.mem_univ i)
  have hsame : ∑ j ∈ Finset.univ.erase i, f (Function.update lanes i l j) =
      ∑ j ∈ Finset.univ.erase i, f (lanes j) := by
    refine Finset.sum_congr rfl fun j hj => ?_
    rw [Function.update_of_ne (Finset.ne_of_mem_erase hj)]
  rw [Function.update_self] at hnew
  omega

theorem Run.left_lt (hstages : 0 < stages) (h : Run route cap stages input s)
    (hstep : Step route cap stages s s') : s'.left stages < s.left stages := by
  obtain ⟨sent, hinv⟩ := h.inv hstages
  cases hstep with
  | @dispatch a rest next room =>
    have hsum := sum_update (Lane.left stages) s.lanes (route a) ((s.lanes (route a)).push a)
    simp only [Lane.left, Lane.push, List.length_append, List.length_singleton, Nat.mul_succ] at hsum
    simp only [left, Lane.left, Lane.push, next, List.length_cons, Nat.mul_succ]
    omega
  | @close i empty isOpen =>
    have hsum := sum_update (Lane.left stages) s.lanes i (s.lanes i).close
    have hlane : (s.lanes i).close.left stages < (s.lanes i).left stages := by
      simp [Lane.left, Lane.close, isOpen]
    simp only [left]
    omega
  | @worker i out l moves =>
    obtain ⟨done, hdone⟩ := hinv.lanes i
    have hsum := sum_update (Lane.left stages) s.lanes i l
    have hlane := moves.left hdone.stage
    simp only [left]
    omega
  | finish all running => simp [left, running]

/-- A whole execution: it goes on as long as it can. -/
structure Execution (route : α → Fin n) (cap stages : Nat) (input : List α)
    (r : Nat → Fanout α n) : Prop where
  start : r 0 = { source := input }
  next : ∀ t, Step route cap stages (r t) (r (t + 1)) ∨
    (∀ s', ¬ Step route cap stages (r t) s') ∧ r (t + 1) = r t

variable {r : Nat → Fanout α n}

/-- Some execution there is: at every point any step that is possible will do. -/
theorem Execution.exists (route : α → Fin n) (cap stages : Nat) (input : List α) :
    ∃ r, Execution route cap stages input r := by
  classical
  let next (s : Fanout α n) : Fanout α n :=
    if h : ∃ s', Step route cap stages s s' then h.choose else s
  refine ⟨fun t => Nat.iterate next t { source := input }, rfl, fun t => ?_⟩
  rw [Function.iterate_succ_apply']
  by_cases h : ∃ s', Step route cap stages (Nat.iterate next t { source := input }) s'
  · refine .inl ?_
    simp only [next, dif_pos h]
    exact h.choose_spec
  · refine .inr ⟨fun s' hs' => h ⟨s', hs'⟩, ?_⟩
    simp only [next, dif_neg h]

theorem Execution.run (h : Execution route cap stages input r) (t : Nat) :
    Run route cap stages input (r t) := by
  induction t with
  | zero => exact .start h.start
  | succ t ih =>
    rcases h.next t with hstep | ⟨-, hstay⟩
    · exact ih.next hstep
    · exact hstay ▸ ih

theorem Execution.ends (hcap : 0 < cap) (hstages : 0 < stages)
    (h : Execution route cap stages input r) : ∃ t, (r t).ended = true := by
  by_contra hnever
  have hrunning : ∀ t, (r t).ended = false :=
    fun t => Bool.eq_false_of_not_eq_true fun ht => hnever ⟨t, ht⟩
  have hlower : ∀ t, (r t).left stages + t ≤ (r 0).left stages := by
    intro t
    induction t with
    | zero => exact Nat.le_refl _
    | succ t ih =>
      rcases h.next t with hstep | ⟨hstuck, -⟩
      · have hlt := (h.run t).left_lt hstages hstep
        omega
      · obtain ⟨s', hs'⟩ := (h.run t).progress hcap hstages (hrunning t)
        exact absurd hs' (hstuck s')
  have hover := hlower ((r 0).left stages + 1)
  omega

end Fanout
end TaNode

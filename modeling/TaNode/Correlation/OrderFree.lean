import TaNode.Correlation.Evidence

/-! Reassembly does not depend on the order of arrival.

    Segments are cut from one byte stream. While they lie within the limits, and within half the
    number space, the window always holds the stream from the lowest byte received to the highest,
    with holes where no segment reached:

        stream     ░░░a b c d e f g h░░░
        received      ├─────┤   ├─┤
                      lo        hi
        window        a b c · · f g

    `Holds` says that of a state; opening the window for a segment and writing the segment into it
    each keep it, so the final window is a function of the set of segments alone. -/

namespace TaNode.Correlation

/-- A segment of a byte stream whose first byte has the sequence number `isn`: it carries bytes, no
    SYN, and was captured whole. -/
structure Segment (stream : Bytes) (isn : UInt32) where
  start : Nat
  pf : PacketFeature
  seq_eq : pf.tcpSeq = isn + UInt32.ofNat start
  payload_eq : pf.payload = (stream.drop start).take pf.payload.length
  nonempty : pf.payload ≠ []
  plain : pf.tcpSYN = false
  whole : pf.capturedShort = false

namespace Segment
variable {stream : Bytes} {isn : UInt32} (s : Segment stream isn)

def stop : Nat := s.start + s.pf.payload.length

theorem start_lt_stop : s.start < s.stop := by
  have := List.length_pos_iff.mpr s.nonempty
  rw [stop]
  omega

theorem stop_le : s.stop ≤ stream.length := by
  have hlen := congrArg List.length s.payload_eq
  have := List.length_pos_iff.mpr s.nonempty
  simp only [List.length_take, List.length_drop] at hlen
  rw [stop]
  omega

theorem sequence_eq : s.pf.sequence = isn + UInt32.ofNat s.start := by
  rw [PacketFeature.sequence, s.plain, s.seq_eq]
  rfl

theorem getElem?_payload {k : Nat} (hk : k < s.pf.payload.length) :
    s.pf.payload[k]? = stream[s.start + k]? := by
  rw [s.payload_eq, List.getElem?_take_of_lt hk, List.getElem?_drop]

end Segment

variable {stream : Bytes} {isn : UInt32}

/-- A place of the stream that some segment holds. -/
def Covered (segs : List (Segment stream isn)) (k : Nat) : Prop :=
  ∃ s ∈ segs, s.start ≤ k ∧ k < s.stop

/-- A fresh side that is given segments one after the other. -/
def feed (limits : Limits) (segs : List (Segment stream isn)) : SideState :=
  segs.foldl (fun side s => (reassemble limits side s.pf).1) {}

/-- The window holds the stream from `lo` to `hi` as far as segments cover it. -/
structure Holds (segs : List (Segment stream isn)) (lo hi : Nat) (side : SideState) : Prop where
  base : side.baseSeq = isn + UInt32.ofNat lo
  low : ∀ s ∈ segs, lo ≤ s.start
  high : ∀ s ∈ segs, s.stop ≤ hi
  length : side.window.length = hi - lo
  expected : side.expectedEnd = hi - lo
  limited : side.limited = false
  covered : ∀ i, Covered segs (lo + i) → side.window.get i = stream[lo + i]?
  uncovered : ∀ i, ¬ Covered segs (lo + i) → side.window.get i = none

namespace Holds
variable {limits : Limits} {segs : List (Segment stream isn)} {lo hi : Nat} {side : SideState}
  {s : Segment stream isn}

theorem covered_snoc {k : Nat} :
    Covered (segs ++ [s]) k ↔ Covered segs k ∨ (s.start ≤ k ∧ k < s.stop) := by
  simp [Covered, or_and_right, exists_or]

/-- Writing a segment that begins in the window. -/
theorem write (h : Holds segs lo hi side) (hle : lo ≤ hi) (hlow : lo ≤ s.start)
    (hroom : s.stop - lo ≤ limits.maxReassemblyBytesPerSide)
    (hbounded : side.window.length ≤ limits.maxReassemblyBytesPerSide) (contiguous : Nat) :
    Holds (segs ++ [s]) lo (max hi s.stop) (side.write limits contiguous (s.start - lo) s.pf) := by
  have hlt := s.start_lt_stop
  have hstop : s.start - lo + s.pf.payload.length = s.stop - lo := by
    rw [Segment.stop]
    omega
  -- a byte that is there is the stream's, and so is the segment's
  have hagree : (side.filling limits (s.start - lo) s.pf.payload).conflict = false := by
    rw [← Bool.not_eq_true, SideState.conflict_filling hbounded]
    rintro ⟨k, v, x, hv, hx, hne⟩
    have hk := (List.getElem?_eq_some_iff.mp hv).1
    rw [s.getElem?_payload hk] at hv
    have hcov : Covered segs (lo + (s.start - lo + k)) := by
      by_contra hun
      rw [h.uncovered _ hun] at hx
      simp at hx
    rw [h.covered _ hcov, show lo + (s.start - lo + k) = s.start + k by omega, hv] at hx
    exact hne (Option.some.inj hx).symm
  refine ⟨h.base, ?_, ?_, ?_, ?_, ?_, ?_, ?_⟩
  · intro a ha
    rcases List.mem_append.mp ha with ha | ha
    · exact h.low a ha
    · rw [List.mem_singleton.mp ha]
      exact hlow
  · intro a ha
    rcases List.mem_append.mp ha with ha | ha
    · have := h.high a ha
      omega
    · rw [List.mem_singleton.mp ha]
      omega
  · refine (SideState.length_filling _ _).trans ?_
    rw [h.length, hstop]
    omega
  · have hgap : s.pf.captureGap = 0 := by rw [PacketFeature.captureGap, s.whole]; rfl
    simp only [SideState.write, h.expected, hgap, hstop]
    omega
  · simp only [SideState.write, h.limited, hagree, hstop, Bool.false_or, Bool.or_false,
      decide_eq_false_iff_not]
    omega
  · intro i hi
    refine (SideState.get_filling _ _ _).trans ?_
    by_cases hcov : Covered segs (lo + i)
    · obtain ⟨a, ha, _, hastop⟩ := hcov
      have hlen : lo + i < stream.length := Nat.lt_of_lt_of_le hastop a.stop_le
      rw [h.covered i ⟨a, ha, by assumption, hastop⟩, List.getElem?_eq_getElem hlen, Option.some_or]
    · rcases covered_snoc.mp hi with hcov' | ⟨hstart, hend⟩
      · exact absurd hcov' hcov
      · rw [Segment.stop] at hend hroom
        rw [h.uncovered i hcov, Option.none_or, if_pos (by omega), s.getElem?_payload (by omega)]
        congr 1
        omega
  · intro i hun
    refine (SideState.get_filling _ _ _).trans ?_
    rw [covered_snoc, not_or] at hun
    rw [h.uncovered i hun.1, Option.none_or]
    split
    · refine List.getElem?_eq_none ?_
      have := hun.2
      rw [Segment.stop] at this
      omega
    · rfl

/-- Opening the window for a segment that lies within half the number space of it: the window
    begins at the lower of the two, and the segment's cell is where it lies in the stream. -/
theorem opened (h : Holds segs lo hi side) (hset : side.seqSet = true) (hle : lo ≤ hi)
    (hup : s.stop - lo ≤ 2 ^ 31) (hdown : hi - s.start ≤ 2 ^ 31) :
    Holds segs (min lo s.start) hi (side.opened s.pf.sequence) ∧
      side.cell s.pf.sequence = s.start - min lo s.start := by
  have hlt := s.start_lt_stop
  have hanchor : side.anchor s.pf.sequence = side := if_pos hset
  have hahead : side.ahead s.pf.sequence =
      ((isn + UInt32.ofNat s.start) - (isn + UInt32.ofNat lo)).toNat := by
    rw [SideState.ahead, hanchor, h.base, s.sequence_eq]
  have hisn := isn.toNat_lt
  simp only [UInt32.toNat_sub, UInt32.toNat_add, UInt32.toNat_ofNat'] at hahead
  rw [SideState.opened, SideState.cell, hanchor]
  rcases Nat.lt_or_ge s.start lo with hback | hfwd
  · -- the window is moved back to the segment
    have hn : 2 ^ 32 - side.ahead s.pf.sequence = lo - s.start := by omega
    have hfar : ¬ side.ahead s.pf.sequence < 2 ^ 31 := by omega
    rw [if_neg hfar, if_neg hfar, hn, Nat.min_eq_right (by omega), Nat.sub_self]
    refine ⟨⟨s.sequence_eq, ?_, h.high, ?_, ?_, h.limited, ?_, ?_⟩, rfl⟩
    · intro a ha
      have := h.low a ha
      omega
    · refine (Window.length_prepend _ _ _).trans ?_
      rw [h.length]
      omega
    · simp only [SideState.rebase, h.expected]
      omega
    · rintro i ⟨a, ha, hstart, hstop⟩
      have hlow := h.low a ha
      refine (Window.get_prepend _ _ _ _).trans ?_
      rw [if_neg (by omega), h.covered _ ⟨a, ha, by omega, by omega⟩]
      congr 1
      omega
    · intro i hun
      refine (Window.get_prepend _ _ _ _).trans ?_
      split
      · rfl
      · refine h.uncovered _ fun hcov => hun ?_
        rwa [show lo + (i - (lo - s.start)) = s.start + i by omega] at hcov
  · have hd : side.ahead s.pf.sequence = s.start - lo := by omega
    have hnear : side.ahead s.pf.sequence < 2 ^ 31 := by omega
    rw [if_pos hnear, if_pos hnear, hd, Nat.min_eq_left hfwd]
    exact ⟨h, rfl⟩

/-- No limit turns a segment away that keeps the whole span within both limits. -/
theorem not_rejects (h : Holds segs lo hi side) (hset : side.seqSet = true) (hle : lo ≤ hi)
    (hup : s.stop - lo ≤ 2 ^ 31) (hdown : hi - s.start ≤ 2 ^ 31)
    (horder : max hi s.stop - min lo s.start ≤ limits.maxOutOfOrderBytes)
    (hroom : max hi s.stop - min lo s.start ≤ limits.maxReassemblyBytesPerSide) :
    ¬ side.Rejects limits s.pf.sequence := by
  have hlt := s.start_lt_stop
  have hopen := (h.opened hset hle hup hdown).1.length
  have hcell := (h.opened hset hle hup hdown).2
  have hahead := side.ahead_lt s.pf.sequence
  rw [SideState.length_opened, h.length] at hopen
  rw [SideState.cell] at hcell
  rw [SideState.Rejects, h.length]
  split
  · rename_i hnear
    rw [if_pos hnear] at hcell
    omega
  · rename_i hfar
    rw [if_neg hfar] at hopen
    omega

end Holds

/-! ### Whole runs -/

/-- The segments lie in one stretch of `n` bytes. -/
def Span (segs : List (Segment stream isn)) (n : Nat) : Prop :=
  ∀ a ∈ segs, ∀ b ∈ segs, b.stop - a.start ≤ n

/-- A fresh side is opened by its first segment. -/
theorem holds_opened_new (s : Segment stream isn) :
    Holds ([] : List (Segment stream isn)) s.start s.start (({} : SideState).opened s.pf.sequence) ∧
      ({} : SideState).cell s.pf.sequence = s.start - s.start := by
  have hahead : ({} : SideState).ahead s.pf.sequence = 0 := by
    simp [SideState.ahead, SideState.anchor]
  rw [SideState.opened, SideState.cell, hahead]
  refine ⟨⟨s.sequence_eq, ?_, ?_, (Nat.sub_self _).symm, (Nat.sub_self _).symm, rfl, ?_, ?_⟩,
    (Nat.sub_self _).symm⟩
  · intro a ha
    simp at ha
  · intro a ha
    simp at ha
  · rintro i ⟨a, ha, _⟩
    simp at ha
  · intro i _
    rfl

theorem sound_feed (limits : Limits) (segs : List (Segment stream isn)) :
    (feed limits segs).Sound limits := by
  induction segs using List.reverseRecOn with
  | nil => exact SideState.sound_new
  | append_singleton segs s ih =>
    rw [feed, List.foldl_append, List.foldl_cons, List.foldl_nil]
    exact ih.reassemble s.pf

theorem feed_seqSet (limits : Limits) {segs : List (Segment stream isn)} (hne : segs ≠ []) :
    (feed limits segs).seqSet = true := by
  induction segs using List.reverseRecOn with
  | nil => exact absurd rfl hne
  | append_singleton segs s ih =>
    rw [feed, List.foldl_append, List.foldl_cons, List.foldl_nil]
    rcases reassemble_fst limits (feed limits segs) s.pf with ⟨_, heq⟩ | ⟨_, heq⟩
    · exact heq ▸ SideState.anchor_seqSet _
    · exact heq ▸ SideState.opened_seqSet _

theorem Span.of_append {segs more : List (Segment stream isn)} {n : Nat} (h : Span (segs ++ more) n) :
    Span segs n :=
  fun a ha b hb => h a (List.mem_append_left _ ha) b (List.mem_append_left _ hb)

/-- After any number of segments the window holds the stream from the lowest start to the highest
    end. -/
theorem holds_feed {limits : Limits} {segs : List (Segment stream isn)} (hne : segs ≠ [])
    (horder : Span segs limits.maxOutOfOrderBytes)
    (hroom : Span segs limits.maxReassemblyBytesPerSide) (hhalf : Span segs (2 ^ 31)) :
    ∃ lo hi, (∃ s ∈ segs, s.start = lo) ∧ (∃ s ∈ segs, s.stop = hi) ∧
      Holds segs lo hi (feed limits segs) := by
  induction segs using List.reverseRecOn with
  | nil => exact absurd rfl hne
  | append_singleton segs s ih =>
    have hmem : s ∈ segs ++ [s] := by simp
    have hlt := s.start_lt_stop
    have hs := sound_feed limits segs
    rw [feed, List.foldl_append, List.foldl_cons, List.foldl_nil, ← feed]
    rcases Classical.em (segs = []) with rfl | hsegs
    · -- the first segment
      obtain ⟨hopen, hcell⟩ := holds_opened_new s
      have hself := hroom s hmem s hmem
      have hin : ¬ ({} : SideState).Rejects limits s.pf.sequence := by
        have hnear : ({} : SideState).ahead s.pf.sequence = 0 := by
          simp [SideState.ahead, SideState.anchor]
        rw [SideState.Rejects, hnear]
        simp
      rcases reassemble_fst limits {} s.pf with ⟨hr, _⟩ | ⟨_, heq⟩
      · exact absurd hr hin
      · refine ⟨s.start, max s.start s.stop, ⟨s, hmem, rfl⟩, ⟨s, hmem, by omega⟩, ?_⟩
        change Holds _ _ _ (reassemble limits {} s.pf).1
        rw [heq, hcell]
        exact hopen.write (Nat.le_refl _) (Nat.le_refl _) hself (by rw [hopen.length]; omega) _
    · obtain ⟨lo, hi, ⟨a, ha, rfl⟩, ⟨b, hb, rfl⟩, h⟩ :=
        ih hsegs horder.of_append hroom.of_append hhalf.of_append
      have hset := feed_seqSet limits hsegs
      have ha' : a ∈ segs ++ [s] := List.mem_append_left _ ha
      have hb' : b ∈ segs ++ [s] := List.mem_append_left _ hb
      have hle : a.start ≤ b.stop := by
        have := h.low b hb
        have := b.start_lt_stop
        omega
      have hbound : ∀ {n}, Span (segs ++ [s]) n → max b.stop s.stop - min a.start s.start ≤ n := by
        intro n hspan
        have := hspan a ha' b hb'
        have := hspan a ha' s hmem
        have := hspan s hmem b hb'
        have := hspan s hmem s hmem
        omega
      have hup := hhalf a ha' s hmem
      have hdown := hhalf s hmem b hb'
      have hin := h.not_rejects hset hle hup hdown (hbound horder) (hbound hroom)
      obtain ⟨hopen, hcell⟩ := h.opened hset hle hup hdown
      refine ⟨min a.start s.start, max b.stop s.stop, ?_, ?_, ?_⟩
      · rcases Nat.le_total a.start s.start with hmin | hmin
        · exact ⟨a, ha', by omega⟩
        · exact ⟨s, hmem, by omega⟩
      · rcases Nat.le_total b.stop s.stop with hmax | hmax
        · exact ⟨s, hmem, by omega⟩
        · exact ⟨b, hb', by omega⟩
      · rcases reassemble_fst limits (feed limits segs) s.pf with ⟨hr, _⟩ | ⟨_, heq⟩
        · exact absurd hr hin
        · rw [heq, hcell]
          have := hbound hroom
          exact hopen.write (by omega) (by omega) (by omega) (hs.bounded_opened hin) _

/-- The result of a run, told from the set of its segments: the payload is the stream from the lowest
    byte received up to the first that no segment holds, and it is incomplete if the segments leave a
    hole below their highest end. -/
structure Result (segs : List (Segment stream isn)) (side : SideState) : Prop where
  payload : ∃ lo gap, (∀ s ∈ segs, lo ≤ s.start) ∧ (segs ≠ [] → ∃ s ∈ segs, s.start = lo) ∧
    lo ≤ gap ∧ (∀ k, lo ≤ k → k < gap → Covered segs k) ∧ ¬ Covered segs gap ∧
    side.payload = (stream.drop lo).take (gap - lo)
  incomplete : side.context.reassemblyIncomplete = true ↔
    ∃ k, (∃ s ∈ segs, s.start ≤ k) ∧ ¬ Covered segs k ∧ ∃ s ∈ segs, k < s.stop

theorem Holds.result {limits : Limits} {segs : List (Segment stream isn)} {lo hi : Nat}
    {side : SideState} (h : Holds segs lo hi side) (hs : side.Sound limits)
    (hlo : ∃ s ∈ segs, s.start = lo) (hhi : ∃ s ∈ segs, s.stop = hi) : Result segs side := by
  have hcov : ∀ i < side.window.front, Covered segs (lo + i) := by
    intro i hi
    by_contra hun
    have := side.window.isSome_get_of_lt_front hi
    rw [h.uncovered i hun] at this
    simp at this
  have hgap : ¬ Covered segs (lo + side.window.front) := by
    intro hc
    have hget := h.covered _ hc
    obtain ⟨s, _, _, hstop⟩ := hc
    rw [side.window.get_front, List.getElem?_eq_getElem (Nat.lt_of_lt_of_le hstop s.stop_le)] at hget
    simp at hget
  refine ⟨⟨lo, lo + side.window.front, h.low, fun _ => hlo, Nat.le_add_right _ _, ?_, hgap, ?_⟩, ?_⟩
  · intro k hk hlt
    have := hcov (k - lo) (by omega)
    rwa [Nat.add_sub_cancel' hk] at this
  · rw [hs.payload_eq, Nat.add_sub_cancel_left]
    refine List.ext_getElem? fun i => ?_
    rw [side.window.getElem?_take_front]
    split
    · rename_i hi
      rw [h.covered i (hcov i hi), List.getElem?_take_of_lt hi, List.getElem?_drop]
    · rw [List.getElem?_take_eq_none (by omega)]
  · rw [hs.incomplete_eq, h.limited, h.expected, Bool.false_or, decide_eq_true_eq]
    obtain ⟨b, hb, rfl⟩ := hhi
    obtain ⟨a, ha, rfl⟩ := hlo
    constructor
    · intro hlt
      exact ⟨a.start + side.window.front, ⟨a, ha, Nat.le_add_right _ _⟩, hgap, b, hb, by omega⟩
    · rintro ⟨k, ⟨c, hc, hck⟩, hun, d, hd, hkd⟩
      have := h.low c hc
      have := h.high d hd
      by_contra hge
      refine hun ?_
      have := hcov (k - a.start) (by omega)
      rwa [Nat.add_sub_cancel' (by omega)] at this

/-- Two runs over the same segments have one result. -/
theorem Result.unique {segs segs' : List (Segment stream isn)} {a b : SideState}
    (hmem : ∀ s, s ∈ segs ↔ s ∈ segs') (ha : Result segs a) (hb : Result segs' b) :
    a.payload = b.payload ∧ a.context.reassemblyIncomplete = b.context.reassemblyIncomplete := by
  have hcov : ∀ k, Covered segs k ↔ Covered segs' k := fun k => by simp only [Covered, hmem]
  refine ⟨?_, ?_⟩
  · obtain ⟨lo, gap, hlow, hlo, hle, hin, hgap, hpay⟩ := ha.payload
    obtain ⟨lo', gap', hlow', hlo', hle', hin', hgap', hpay'⟩ := hb.payload
    rw [hpay, hpay']
    rcases Classical.em (segs = []) with rfl | hne
    · -- nothing is covered, so both gaps are at the low end
      have hnone : ∀ k, ¬ Covered ([] : List (Segment stream isn)) k := by simp [Covered]
      have h₁ : gap = lo := by
        by_contra h
        exact hnone lo (hin lo (Nat.le_refl _) (by omega))
      have h₂ : gap' = lo' := by
        by_contra h
        exact hnone lo' ((hcov lo').mpr (hin' lo' (Nat.le_refl _) (by omega)))
      simp [h₁, h₂]
    · obtain ⟨s, hs, rfl⟩ := hlo hne
      obtain ⟨s', hs', rfl⟩ := hlo' (by rintro rfl; exact absurd ((hmem s).mp hs) (by simp))
      have hlow₁ := hlow s' ((hmem s').mpr hs')
      have hlow₂ := hlow' s ((hmem s).mp hs)
      have hstart : s.start = s'.start := by omega
      have hsame : gap = gap' := by
        rcases Nat.lt_trichotomy gap gap' with h | h | h
        · exact absurd ((hcov gap).mpr (hin' gap (by omega) h)) hgap
        · exact h
        · exact absurd ((hcov gap').mp (hin gap' (by omega) h)) hgap'
      rw [hstart, hsame]
  · rw [Bool.eq_iff_iff, ha.incomplete, hb.incomplete]
    simp only [hcov, hmem]

theorem result_feed {limits : Limits} {segs : List (Segment stream isn)}
    (hspan : Span segs (min limits.maxOutOfOrderBytes.val limits.maxReassemblyBytesPerSide))
    (hhalf : Span segs (2 ^ 31)) : Result segs (feed limits segs) := by
  rcases Classical.em (segs = []) with rfl | hne
  · refine ⟨⟨0, 0, by simp, by simp, Nat.le_refl _, by omega, by simp [Covered], rfl⟩, ?_⟩
    simp [feed]
  · obtain ⟨lo, hi, hlo, hhi, h⟩ := @holds_feed _ _ limits segs hne
      (fun a ha b hb => Nat.le_trans (hspan a ha b hb) (Nat.min_le_left _ _))
      (fun a ha b hb => Nat.le_trans (hspan a ha b hb) (Nat.min_le_right _ _)) hhalf
    exact h.result (sound_feed limits segs) hlo hhi

/-- Segments of one stream that span no more than the two limits and half the number space give the
    stream from the lowest byte received to the first one missing, marked as incomplete if and only
    if they leave a hole, in whatever order they arrive. -/
theorem feed_order_free (limits : Limits) (segs : List (Segment stream isn))
    (hspan : Span segs (min limits.maxOutOfOrderBytes.val limits.maxReassemblyBytesPerSide))
    (hhalf : Span segs (2 ^ 31)) :
    Result segs (feed limits segs) ∧
      ∀ segs', segs.Perm segs' → (feed limits segs').payload = (feed limits segs).payload ∧
        (feed limits segs').context.reassemblyIncomplete =
          (feed limits segs).context.reassemblyIncomplete := by
  refine ⟨result_feed hspan hhalf, fun segs' hperm => ?_⟩
  have hmem : ∀ s, s ∈ segs' ↔ s ∈ segs := fun s => hperm.mem_iff.symm
  have hspan' : ∀ {n}, Span segs n → Span segs' n := fun h a ha b hb =>
    h a ((hmem a).mp ha) b ((hmem b).mp hb)
  exact Result.unique hmem (result_feed (hspan' hspan) (hspan' hhalf)) (result_feed hspan hhalf)

theorem take_drop_ne_nil {stream : Bytes} {start len : Nat} (hlen : 0 < len)
    (hstop : start + len ≤ stream.length) : (stream.drop start).take len ≠ [] := by
  rw [Ne, ← List.length_eq_zero_iff, List.length_take, List.length_drop]
  omega

/-- The segment of a stream that begins at `start` and has `len` bytes. -/
def Segment.cut (stream : Bytes) (isn : UInt32) (start len : Nat) (hlen : 0 < len)
    (hstop : start + len ≤ stream.length) : Segment stream isn where
  start := start
  pf := segmentAt (isn + UInt32.ofNat start) ((stream.drop start).take len)
  seq_eq := rfl
  payload_eq := by simp [segmentAt]
  nonempty := take_drop_ne_nil hlen hstop
  plain := rfl
  whole := rfl

/-- Across the end of the number space, with an overlap, last segment first. -/
theorem feed_order_free_wrap :
    let stream := utf8 "HTTP/1.1"
    let early := Segment.cut stream 0xfffffffe 0 4 (by decide) (by decide +kernel)
    let late := Segment.cut stream 0xfffffffe 3 5 (by decide) (by decide +kernel)
    Result [late, early] (feed ({} : Options).limits [late, early]) ∧
      (feed ({} : Options).limits [early, late]).payload =
        (feed ({} : Options).limits [late, early]).payload := by
  intro stream early late
  have h := feed_order_free ({} : Options).limits [late, early]
    (by simp only [Span]; decide +kernel) (by simp only [Span]; decide +kernel)
  exact ⟨h.1, (h.2 _ (List.Perm.swap _ _ _)).1⟩

/-! ### Spans beyond half the number space -/

/-- A stream whose last byte lies `n + 1` bytes behind its first and differs from all others. -/
def longStream (n : Nat) : Bytes := 0 :: (List.replicate n 0 ++ [1])

theorem length_longStream (n : Nat) : (longStream n).length = n + 2 := by
  simp [longStream]

theorem drop_longStream (n : Nat) : (longStream n).drop (n + 1) = [1] := by
  rw [longStream, List.drop_succ_cons]
  exact List.drop_left' List.length_replicate

/-- The first byte of the stream and its last. -/
def firstByte (n : Nat) : Segment (longStream n) 0 :=
  Segment.cut _ 0 0 1 (by omega) (by rw [length_longStream]; omega)

def lastByte (n : Nat) : Segment (longStream n) 0 :=
  Segment.cut _ 0 (n + 1) 1 (by omega) (Nat.le_of_eq (length_longStream n).symm)

theorem pf_firstByte (n : Nat) : (firstByte n).pf = segmentAt 0 [0] := rfl

theorem pf_lastByte (n : Nat) : (lastByte n).pf = segmentAt (0 + UInt32.ofNat (n + 1)) [1] := by
  change segmentAt _ (((longStream n).drop (n + 1)).take 1) = _
  rw [drop_longStream]
  rfl

theorem span_bytes (n : Nat) : Span [lastByte n, firstByte n] (n + 2) := by
  intro a _ b hb
  have h₁ : (firstByte n).stop = 1 := rfl
  have h₂ : (lastByte n).stop = n + 2 := by
    rw [Segment.stop, pf_lastByte]
    rfl
  simp only [List.mem_cons, List.not_mem_nil, or_false] at hb
  rcases hb with rfl | rfl
  · omega
  · omega

theorem SideState.Sound.payload_singleton {limits : Limits} {side : SideState} {b : UInt8}
    (h : side.Sound limits) (h₀ : side.window.get 0 = some b) (h₁ : side.window.get 1 = none) :
    side.payload = [b] := by
  have hfront : side.window.front = 1 := by
    refine side.window.front_eq (fun i hi => ?_) h₁
    rw [show i = 0 by omega, h₀]
    rfl
  rw [h.payload_eq]
  refine List.ext_getElem? fun i => ?_
  rw [side.window.getElem?_take_front, hfront]
  rcases Nat.lt_or_ge i 1 with hi | hi
  · rw [if_pos hi, show i = 0 by omega, h₀]
    rfl
  · rw [if_neg (by omega), List.getElem?_eq_none (by simpa using hi)]

/-- With limits of 2³² bytes, a first byte that arrives after a byte 2³¹ + 1 behind it is taken for a
    later one, and the payload begins with the wrong byte. -/
theorem long_span_misplaced :
    let limits := ({ maxReassemblyBytesPerSide := 2 ^ 32, maxOutOfOrderBytes := 2 ^ 32 } :
      Options).limits
    Span [lastByte (2 ^ 31), firstByte (2 ^ 31)]
        (min limits.maxOutOfOrderBytes.val limits.maxReassemblyBytesPerSide) ∧
      (firstByte (2 ^ 31)).start = 0 ∧ (firstByte (2 ^ 31)).pf.payload = [0] ∧
      (feed limits [lastByte (2 ^ 31), firstByte (2 ^ 31)]).payload = [1] := by
  intro limits
  refine ⟨fun a ha b hb => Nat.le_trans (span_bytes _ a ha b hb) (by decide), rfl, rfl, ?_⟩
  obtain ⟨one, hone⟩ : ∃ one, (reassemble limits {} (segmentAt 0x80000001 [1])).1 = one := ⟨_, rfl⟩
  have hbase : one.seqSet = true ∧ one.baseSeq = 0x80000001 ∧ one.payload.length = 1 ∧
      one.window.get 0 = some 1 ∧ one.window.get 1 = none := by
    rw [← hone]
    decide +kernel
  obtain ⟨hset, hseq, hlen, hget₀, hget₁⟩ := hbase
  have hfeed : feed limits [lastByte (2 ^ 31), firstByte (2 ^ 31)] =
      (reassemble limits one (segmentAt 0 [0])).1 := by
    rw [feed, List.foldl_cons, List.foldl_cons, List.foldl_nil, pf_lastByte, pf_firstByte, ← hone]
    rfl
  have hahead : one.ahead 0 = 2 ^ 31 - 1 := by
    rw [SideState.ahead, SideState.anchor, if_pos hset, hseq]
    decide
  have hsound := sound_feed limits [lastByte (2 ^ 31), firstByte (2 ^ 31)]
  rw [hfeed] at hsound ⊢
  rcases reassemble_fst limits one (segmentAt 0 [0]) with ⟨hr, _⟩ | ⟨_, hw⟩
  · change SideState.Rejects limits one 0 at hr
    rw [SideState.Rejects, hahead, if_pos (by decide), hlen] at hr
    exact absurd hr (by decide)
  · change _ = SideState.write limits (one.opened 0) (one.known 0) (one.cell 0) _ at hw
    rw [SideState.cell, SideState.opened, hahead, if_pos (by decide), if_pos (by decide)] at hw
    refine hsound.payload_singleton ?_ ?_
    · rw [hw, SideState.write, SideState.get_filling, SideState.anchor_window, hget₀]
      rfl
    · rw [hw, SideState.write, SideState.get_filling, SideState.anchor_window, hget₁,
        if_neg (by decide)]
      rfl

end TaNode.Correlation

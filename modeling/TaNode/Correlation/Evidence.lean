import Mathlib.Data.List.Induction
import TaNode.Correlation.Reassembly

/-! Reassembly never makes evidence up.

    Whatever segments a side is given, its payload is the filled front of its window, a stored byte
    keeps its value, and a segment that is flawed leaves a mark: it disagrees with a stored byte, a
    limit turns it away or cuts it, or the capture does not hold all of it. A marked side is never a
    complete response again.

        Sound side ──appendSide──▶ Sound side'
        stored side q = b  ──────▶ stored side' q = b
        Flawed side pf  ─────────▶ marked side' ──▶ marked … ──▶ not complete -/

namespace TaNode.Correlation

/-- The side after a list of packets, each with its packet sequence. -/
def appendAll (lib : Lib) (limits : Limits) (side : SideState)
    (segs : List (PacketFeature × UInt64)) : SideState :=
  segs.foldl (fun side seg => appendSide lib limits side seg.1 seg.2) side

namespace SideState
variable {lib : Lib} {limits : Limits} {side : SideState} {pf : PacketFeature} {seq q : UInt32}
  {x b : UInt8} {i : Nat}

/-! ### The shape of a side -/

/-- What holds of a side between two packets. -/
structure Sound (limits : Limits) (side : SideState) : Prop where
  unset : side.seqSet = false → side.window.length = 0
  bounded : side.window.length ≤ limits.maxReassemblyBytesPerSide
  within : side.window.length ≤ side.expectedEnd
  payload_eq : side.payload = side.window.data.take side.window.front
  incomplete_eq : side.context.reassemblyIncomplete =
    (side.limited || decide (side.window.front < side.expectedEnd))

theorem sound_new : Sound limits {} :=
  ⟨fun _ => rfl, Nat.zero_le _, Nat.le_refl _, rfl, rfl⟩

section
variable (h : side.Sound limits)
include h

theorem Sound.length_payload : side.payload.length = side.window.front := by
  have := side.window.front_le_length
  rw [Window.length] at this
  rw [h.payload_eq, List.length_take]
  omega

theorem Sound.anchor (seq : UInt32) : (side.anchor seq).Sound limits := by
  rw [SideState.anchor]
  split
  · exact h
  · exact ⟨fun hset => by simp at hset, h.bounded, h.within, h.payload_eq, h.incomplete_eq⟩

theorem Sound.reject : side.reject.Sound limits :=
  ⟨h.unset, h.bounded, h.within, h.payload_eq, rfl⟩

theorem Sound.count (pf : PacketFeature) : (side.count limits pf).Sound limits :=
  ⟨h.unset, h.bounded, h.within, h.payload_eq, h.incomplete_eq⟩

theorem Sound.index (pf : PacketFeature) (n : UInt64) (again : Bool) :
    (side.index lib limits pf n again).Sound limits :=
  ⟨h.unset, h.bounded, h.within, h.payload_eq, h.incomplete_eq⟩

omit h in
/-- Writing into a window within the limits whose cells before `contiguous` are filled. -/
theorem sound_write {contiguous offset : Nat} (hset : side.seqSet = true)
    (hbounded : side.window.length ≤ limits.maxReassemblyBytesPerSide)
    (hwithin : side.window.length ≤ side.expectedEnd)
    (hfilled : ∀ i < contiguous, (side.window.get i).isSome) :
    (side.write limits contiguous offset pf).Sound limits := by
  have hlen := @length_filling limits side offset pf.payload
  -- the cells that were filled still are, so the walk from `contiguous` ends at the front
  have hscan : (side.filling limits offset pf.payload).window.scan contiguous =
      (side.filling limits offset pf.payload).window.front := by
    refine Window.scan_eq_front _ fun i hi => ?_
    rw [get_filling, Option.isSome_or, hfilled i hi, Bool.true_or]
  refine ⟨fun h => ?_, ?_, ?_, ?_, ?_⟩
  · simp [write, hset] at h
  · simp only [write, hlen]
    omega
  · simp only [write, hlen]
    omega
  · simp only [write, hscan]
  · simp only [write, hscan]

/-! ### The state a segment is stored in -/

omit h in
theorem anchor_seqSet (seq : UInt32) : (side.anchor seq).seqSet = true := by
  rw [SideState.anchor]
  split
  · assumption
  · rfl

omit h in
theorem opened_seqSet (seq : UInt32) : (side.opened seq).seqSet = true := by
  rw [opened]
  split
  · exact anchor_seqSet seq
  · exact anchor_seqSet seq

omit h in
theorem length_opened (seq : UInt32) : (side.opened seq).window.length =
    (if side.ahead seq < 2 ^ 31 then 0 else 2 ^ 32 - side.ahead seq) + side.window.length := by
  rw [opened]
  split
  · simp
  · simp [rebase]

theorem Sound.bounded_opened (hin : ¬ side.Rejects limits seq) :
    (side.opened seq).window.length ≤ limits.maxReassemblyBytesPerSide := by
  have := h.bounded
  rw [Rejects] at hin
  rw [length_opened]
  split at hin
  · rw [if_pos ‹_›]
    omega
  · rw [if_neg ‹_›]
    omega

theorem Sound.within_opened (seq : UInt32) :
    (side.opened seq).window.length ≤ (side.opened seq).expectedEnd := by
  have ha := (h.anchor seq).within
  rw [anchor_window] at ha
  rw [length_opened, opened]
  split
  · simpa using ha
  · simp only [rebase]
    omega

theorem Sound.filled_opened (seq : UInt32) :
    ∀ i < side.known seq, ((side.opened seq).window.get i).isSome := by
  intro i hi
  rw [known] at hi
  rw [opened]
  split at hi
  · rw [h.length_payload] at hi
    simp only [*, if_true, anchor_window]
    exact side.window.isSome_get_of_lt_front hi
  · omega

end

theorem Sound.reassemble (h : side.Sound limits) (pf : PacketFeature) :
    (reassemble limits side pf).1.Sound limits := by
  rcases reassemble_fst limits side pf with ⟨_, heq⟩ | ⟨hin, heq⟩
  · rw [heq]
    exact (h.anchor _).reject
  · rw [heq]
    exact sound_write (opened_seqSet _) (h.bounded_opened hin) (h.within_opened _)
      (h.filled_opened _)

theorem appendSide_eq (lib : Lib) (limits : Limits) (side : SideState) (pf : PacketFeature)
    (n : UInt64) : ∃ again, appendSide lib limits side pf n =
      (if pf.payload = [] then side.count limits pf
        else (Correlation.reassemble limits (side.count limits pf) pf).1).index lib limits pf n again := by
  rw [appendSide]
  by_cases hp : pf.payload = []
  · simp only [hp, if_true]
    exact ⟨_, rfl⟩
  · simp only [hp, if_false]
    exact ⟨_, rfl⟩

theorem Sound.appendSide (h : side.Sound limits) (pf : PacketFeature) (n : UInt64) :
    (appendSide lib limits side pf n).Sound limits := by
  obtain ⟨again, heq⟩ := appendSide_eq lib limits side pf n
  rw [heq]
  split
  · exact (h.count pf).index pf n again
  · exact ((h.count pf).reassemble pf).index pf n again

theorem Sound.appendAll : ∀ (segs : List (PacketFeature × UInt64)) {side : SideState},
    side.Sound limits → (appendAll lib limits side segs).Sound limits
  | [], _, h => h
  | seg :: segs, _, h => Sound.appendAll segs (h.appendSide seg.1 seg.2)

/-! ### Stored bytes -/

/-- The byte a side holds for a sequence number. -/
def stored (side : SideState) (q : UInt32) : Option UInt8 :=
  side.window.get (q - side.baseSeq).toNat

/-- Distances from two bases differ by the distance of the bases. -/
theorem toNat_sub_rebase (q seq base : UInt32) :
    (q - seq).toNat = ((q - base).toNat + (2 ^ 32 - (seq - base).toNat)) % 2 ^ 32 := by
  have hq := q.toNat_lt
  have hs := seq.toNat_lt
  have hb := base.toNat_lt
  simp only [UInt32.toNat_sub]
  omega

section
variable (h : side.Sound limits)
include h

theorem Sound.stored_anchor (seq q : UInt32) : (side.anchor seq).stored q = side.stored q := by
  rw [SideState.anchor]
  split
  · rfl
  · rename_i hset
    have hempty := h.unset (by simpa using hset)
    simp only [stored]
    rw [Window.get_of_length_le _ (by omega), Window.get_of_length_le _ (by omega)]

/-- Opening the window for a segment within the limits moves no byte to another number. -/
theorem Sound.stored_opened (hsmall : limits.maxReassemblyBytesPerSide.val ≤ 2 ^ 32)
    (hin : ¬ side.Rejects limits seq) (q : UInt32) :
    (side.opened seq).stored q = side.stored q := by
  rw [← h.stored_anchor seq]
  have hmove := toNat_sub_rebase q seq (side.anchor seq).baseSeq
  have hq := (q - (side.anchor seq).baseSeq).toNat_lt
  have hahead := side.ahead_lt seq
  rw [← ahead] at hmove
  rw [Rejects] at hin
  rw [opened]
  by_cases hnear : side.ahead seq < 2 ^ 31
  · rw [if_pos hnear]
  · rw [if_neg hnear] at hin ⊢
    rw [stored, stored, rebase, Window.get_prepend, hmove, anchor_window]
    by_cases hwrap : (q - (side.anchor seq).baseSeq).toNat < side.ahead seq
    · rw [Nat.mod_eq_of_lt (by omega), if_neg (by omega), Nat.add_sub_cancel]
    · -- the number lies in front of the new base, and no byte was stored there
      rw [if_pos (by omega), Window.get_of_length_le _ (by omega)]

omit h in
theorem stored_write {contiguous offset : Nat} (hx : side.stored q = some x) :
    (side.write limits contiguous offset pf).stored q = some x := by
  rw [stored] at hx
  simp only [stored, write, get_filling, hx, Option.some_or]

section
variable (hsmall : limits.maxReassemblyBytesPerSide.val ≤ 2 ^ 32)
include hsmall

theorem Sound.stored_reassemble (hx : side.stored q = some x) :
    (Correlation.reassemble limits side pf).1.stored q = some x := by
  rcases reassemble_fst limits side pf with ⟨_, heq⟩ | ⟨hin, heq⟩
  · rw [heq, ← hx]
    exact h.stored_anchor _ q
  · rw [heq]
    exact stored_write (by rw [h.stored_opened hsmall hin]; exact hx)

theorem Sound.stored_appendSide {n : UInt64} (hx : side.stored q = some x) :
    (Correlation.appendSide lib limits side pf n).stored q = some x := by
  obtain ⟨again, heq⟩ := appendSide_eq lib limits side pf n
  rw [heq]
  split
  · exact hx
  · exact (h.count pf).stored_reassemble hsmall hx

end

end

theorem Sound.stored_appendAll (hsmall : limits.maxReassemblyBytesPerSide.val ≤ 2 ^ 32) :
    ∀ (segs : List (PacketFeature × UInt64)) {side : SideState},
    side.Sound limits → side.stored q = some x →
      (Correlation.appendAll lib limits side segs).stored q = some x
  | [], _, _, hx => hx
  | seg :: segs, _, h, hx =>
    Sound.stored_appendAll hsmall segs (h.appendSide seg.1 seg.2) (h.stored_appendSide hsmall hx)

/-! ### Marks -/

/-- The two flags that are never taken back. -/
def marked (side : SideState) : Bool := side.context.truncated || side.limited

theorem marked_anchor (seq : UInt32) : (side.anchor seq).marked = side.marked := by
  rw [SideState.anchor]
  split <;> rfl

theorem marked_opened (seq : UInt32) : (side.opened seq).marked = side.marked := by
  rw [opened]
  split
  · exact marked_anchor seq
  · exact marked_anchor seq

theorem marked_write (contiguous offset : Nat) :
    (side.write limits contiguous offset pf).marked = true ↔ side.marked = true ∨
      limits.maxReassemblyBytesPerSide < offset + pf.payload.length ∨
      (side.filling limits offset pf.payload).conflict = true := by
  simp only [marked, write, Bool.or_eq_true, decide_eq_true_eq]
  tauto

theorem marked_reassemble (h : side.marked = true) :
    (Correlation.reassemble limits side pf).1.marked = true := by
  rcases reassemble_fst limits side pf with ⟨_, heq⟩ | ⟨_, heq⟩
  · rw [heq]
    rfl
  · rw [heq, marked_write, marked_opened]
    exact Or.inl h

theorem marked_count : (side.count limits pf).marked = (side.marked || pf.capturedShort) := by
  simp only [marked, SideState.count]
  rw [Bool.or_right_comm]

theorem marked_index (n : UInt64) (again : Bool) (h : side.marked = true) :
    (side.index lib limits pf n again).marked = true := by
  simp only [marked, Bool.or_eq_true] at h
  simp only [marked, SideState.index, Bool.or_eq_true]
  tauto

/-- A mark stays. -/
theorem marked_appendSide (n : UInt64) (h : side.marked = true) :
    (Correlation.appendSide lib limits side pf n).marked = true := by
  obtain ⟨again, heq⟩ := appendSide_eq lib limits side pf n
  have hcount : (side.count limits pf).marked = true := by rw [marked_count, h, Bool.true_or]
  rw [heq]
  split
  · exact marked_index n again hcount
  · exact marked_index n again (marked_reassemble hcount)

theorem marked_appendAll : ∀ (segs : List (PacketFeature × UInt64)) {side : SideState},
    side.marked = true → (Correlation.appendAll lib limits side segs).marked = true
  | [], _, h => h
  | seg :: segs, _, h => marked_appendAll segs (marked_appendSide seg.2 h)

/-! ### Flawed segments -/

/-- A segment that disagrees with a stored byte, that a limit turns away or cuts, or that was
    captured short. -/
inductive Flawed (limits : Limits) (side : SideState) (pf : PacketFeature) : Prop where
  | disagrees {k : Nat} {v x : UInt8} (hv : pf.payload[k]? = some v)
      (hx : side.stored (pf.sequence + UInt32.ofNat k) = some x) (hne : x ≠ v)
  | rejected (hp : pf.payload ≠ []) (h : side.Rejects limits pf.sequence)
  | cut (hp : pf.payload ≠ [])
      (h : limits.maxReassemblyBytesPerSide < side.cell pf.sequence + pf.payload.length)
  | short (h : pf.capturedShort = true)

theorem ahead_count (seq : UInt32) : (side.count limits pf).ahead seq = side.ahead seq := by
  by_cases h : side.seqSet = true <;> simp [ahead, SideState.anchor, SideState.count, h]

theorem rejects_count (seq : UInt32) :
    (side.count limits pf).Rejects limits seq ↔ side.Rejects limits seq := by
  rw [Rejects, Rejects, ahead_count]
  rfl

theorem cell_count (seq : UInt32) : (side.count limits pf).cell seq = side.cell seq := by
  rw [cell, cell, ahead_count]

/-- The distance of a number that lies `k` behind the cell `c`. -/
theorem toNat_add_sub_base {base : UInt32} {c k : Nat} (hbase : base + UInt32.ofNat c = seq)
    (hlt : c + k < 2 ^ 32) : (seq + UInt32.ofNat k - base).toNat = c + k := by
  have hb := base.toNat_lt
  rw [← hbase]
  simp only [UInt32.toNat_sub, UInt32.toNat_add, UInt32.toNat_ofNat']
  omega

/-- In the state that is opened for it a segment's bytes have its sequence numbers. -/
theorem opened_base (seq : UInt32) :
    (side.opened seq).baseSeq + UInt32.ofNat (side.cell seq) = seq := by
  rw [opened, cell]
  split
  · rw [ahead, UInt32.ofNat_toNat, UInt32.add_comm, UInt32.sub_add_cancel]
  · simp [rebase]

section
variable (h : side.Sound limits)
include h

theorem Sound.marked_of_reassemble (hsmall : limits.maxReassemblyBytesPerSide.val ≤ 2 ^ 32)
    (hf : side.Flawed limits pf) (hshort : pf.capturedShort = false) :
    (Correlation.reassemble limits side pf).1.marked = true := by
  rcases reassemble_fst limits side pf with ⟨_, heq⟩ | ⟨hin, heq⟩
  · rw [heq]
    rfl
  rw [heq, marked_write]
  cases hf with
  | short hs => rw [hs] at hshort; simp at hshort
  | rejected _ hr => exact absurd hr hin
  | cut _ hc => exact Or.inr (Or.inl hc)
  | disagrees hv hx hne =>
    rename_i k v x
    refine Or.inr (or_iff_not_imp_left.mpr fun hcut => ?_)
    rw [conflict_filling (h.bounded_opened hin)]
    refine ⟨k, v, x, hv, ?_, hne⟩
    -- below the limit the cell is the distance of the byte's number from the base
    have hk := (List.getElem?_eq_some_iff.mp hv).1
    rw [← h.stored_opened hsmall hin, stored, toNat_add_sub_base (opened_base _) (by omega)] at hx
    exact hx

omit h in
theorem Flawed.count (hf : side.Flawed limits pf) : (side.count limits pf).Flawed limits pf := by
  cases hf with
  | disagrees hv hx hne => exact .disagrees hv hx hne
  | rejected hp h => exact .rejected hp ((rejects_count _).mpr h)
  | cut hp h => exact .cut hp (by rw [cell_count]; exact h)
  | short h => exact .short h

section
variable (hsmall : limits.maxReassemblyBytesPerSide.val ≤ 2 ^ 32)
include hsmall

/-- A flawed segment leaves a mark. -/
theorem Sound.marked_of_flawed (n : UInt64) (hf : side.Flawed limits pf) :
    (Correlation.appendSide lib limits side pf n).marked = true := by
  obtain ⟨again, heq⟩ := appendSide_eq lib limits side pf n
  rw [heq]
  cases hshort : pf.capturedShort with
  | true =>
    have hcount : (side.count limits pf).marked = true := by rw [marked_count, hshort, Bool.or_true]
    split
    · exact marked_index n again hcount
    · exact marked_index n again (marked_reassemble hcount)
  | false =>
    have hp : pf.payload ≠ [] := by
      intro hnil
      cases hf with
      | disagrees hv _ _ => simp [hnil] at hv
      | rejected hp | cut hp => exact hp hnil
      | short h => simp [h] at hshort
    rw [if_neg hp]
    exact marked_index n again ((h.count pf).marked_of_reassemble hsmall hf.count hshort)

/-- The bytes of any other segment are stored under their sequence numbers. -/
theorem Sound.stored_of_not_flawed (n : UInt64) (hf : ¬ side.Flawed limits pf) {v : UInt8}
    (hv : pf.payload[i]? = some v) :
    (Correlation.appendSide lib limits side pf n).stored (pf.sequence + UInt32.ofNat i) = some v := by
  have hp : pf.payload ≠ [] := by
    rintro hnil
    simp [hnil] at hv
  have hin : ¬ (side.count limits pf).Rejects limits pf.sequence := fun hr =>
    hf (.rejected hp ((rejects_count _).mp hr))
  have hcut : ¬ limits.maxReassemblyBytesPerSide < side.cell pf.sequence + pf.payload.length :=
    fun hc => hf (.cut hp hc)
  have hi := (List.getElem?_eq_some_iff.mp hv).1
  have hsame := (h.count pf).stored_opened hsmall hin (pf.sequence + UInt32.ofNat i)
  have hcell := toNat_add_sub_base (opened_base pf.sequence) (k := i)
    (show (side.count limits pf).cell pf.sequence + i < 2 ^ 32 by rw [cell_count]; omega)
  obtain ⟨again, heq⟩ := appendSide_eq lib limits side pf n
  rw [heq, if_neg hp]
  rcases reassemble_fst limits (side.count limits pf) pf with ⟨hr, _⟩ | ⟨_, hw⟩
  · exact absurd hr hin
  rw [hw]
  simp only [stored, SideState.index, write] at hsame ⊢
  rw [hcell] at hsame ⊢
  rw [get_filling, hsame, if_pos (by rw [cell_count]; omega), Nat.add_sub_cancel_left, hv]
  cases hx : side.stored (pf.sequence + UInt32.ofNat i) with
  | none => exact congrArg (Option.or · (some v)) hx
  | some x =>
    have hxv : x = v := by
      by_contra hne
      exact hf (.disagrees hv hx hne)
    subst hxv
    exact congrArg (Option.or · (some x)) hx

end

/-! ### Where stored bytes come from -/

theorem Sound.get_opened (hb : (side.opened seq).window.get i = some b) :
    ∃ j, side.window.get j = some b ∧
      side.baseSeq + UInt32.ofNat j = (side.opened seq).baseSeq + UInt32.ofNat i := by
  have hanchor : ∀ j, side.window.get j = some b → side.anchor seq = side := by
    intro j hj
    have hlt := side.window.lt_length_of_get hj
    rw [SideState.anchor]
    split
    · rfl
    · rename_i hset
      have := h.unset (by simpa using hset)
      omega
  rw [opened] at hb ⊢
  by_cases hnear : side.ahead seq < 2 ^ 31
  · rw [if_pos hnear] at hb ⊢
    rw [anchor_window] at hb
    rw [hanchor i hb]
    exact ⟨i, hb, rfl⟩
  · rw [if_neg hnear] at hb ⊢
    rw [rebase, anchor_window, Window.get_prepend] at hb
    split at hb
    · simp at hb
    · rename_i hi
      refine ⟨_, hb, ?_⟩
      have heq : (seq - side.baseSeq).toNat = side.ahead seq := by rw [ahead, hanchor _ hb]
      have hlt := side.ahead_lt seq
      apply UInt32.toNat_inj.mp
      simp only [rebase, UInt32.toNat_add, UInt32.toNat_ofNat', UInt32.toNat_sub] at heq ⊢
      have := seq.toNat_lt
      have := side.baseSeq.toNat_lt
      omega

/-- A byte in the window was there before under the same number, or is the segment's. -/
theorem Sound.get_reassemble (hb : (Correlation.reassemble limits side pf).1.window.get i = some b) :
    (∃ j, side.window.get j = some b ∧ side.baseSeq + UInt32.ofNat j =
      (Correlation.reassemble limits side pf).1.baseSeq + UInt32.ofNat i) ∨
    ∃ k, pf.payload[k]? = some b ∧ pf.sequence + UInt32.ofNat k =
      (Correlation.reassemble limits side pf).1.baseSeq + UInt32.ofNat i := by
  rcases reassemble_fst limits side pf with ⟨_, heq⟩ | ⟨_, heq⟩
  · rw [heq] at hb ⊢
    simp only [SideState.reject, anchor_window] at hb ⊢
    have hset : side.seqSet = true := by
      by_contra hne
      have := h.unset (by simpa using hne)
      have := side.window.lt_length_of_get hb
      omega
    exact Or.inl ⟨i, hb, by rw [SideState.anchor, if_pos hset]⟩
  · rw [heq] at hb ⊢
    simp only [write] at hb ⊢
    rw [get_filling, Option.or_eq_some_iff] at hb
    rcases hb with hb | ⟨_, hb⟩
    · exact Or.inl (h.get_opened hb)
    · split at hb
      · rename_i hi
        refine Or.inr ⟨_, hb, ?_⟩
        calc pf.sequence + UInt32.ofNat (i - side.cell pf.sequence)
            = (side.opened pf.sequence).baseSeq + UInt32.ofNat (side.cell pf.sequence) +
                UInt32.ofNat (i - side.cell pf.sequence) := by rw [opened_base]
          _ = (side.opened pf.sequence).baseSeq + UInt32.ofNat i := by
            rw [UInt32.add_assoc, ← UInt32.ofNat_add, Nat.add_sub_cancel' hi.1]
      · simp at hb

theorem Sound.get_appendSide {n : UInt64}
    (hb : (Correlation.appendSide lib limits side pf n).window.get i = some b) :
    (∃ j, side.window.get j = some b ∧ side.baseSeq + UInt32.ofNat j =
      (Correlation.appendSide lib limits side pf n).baseSeq + UInt32.ofNat i) ∨
    ∃ k, pf.payload[k]? = some b ∧ pf.sequence + UInt32.ofNat k =
      (Correlation.appendSide lib limits side pf n).baseSeq + UInt32.ofNat i := by
  obtain ⟨again, heq⟩ := appendSide_eq lib limits side pf n
  rw [heq] at hb ⊢
  by_cases hp : pf.payload = []
  · rw [if_pos hp] at hb ⊢
    exact Or.inl ⟨i, hb, rfl⟩
  · rw [if_neg hp] at hb ⊢
    exact (h.count pf).get_reassemble hb

omit h in
/-- Every byte of the window is a byte some packet carried for its sequence number. -/
theorem get_appendAll (segs : List (PacketFeature × UInt64))
    (hb : (Correlation.appendAll lib limits {} segs).window.get i = some b) :
    ∃ seg ∈ segs, ∃ k, seg.1.payload[k]? = some b ∧ seg.1.sequence + UInt32.ofNat k =
      (Correlation.appendAll lib limits {} segs).baseSeq + UInt32.ofNat i := by
  induction segs using List.reverseRecOn generalizing i with
  | nil => exact absurd (Window.lt_length_of_get _ hb) (Nat.not_lt_zero i)
  | append_singleton segs seg ih =>
    rw [Correlation.appendAll, List.foldl_append, List.foldl_cons, List.foldl_nil,
      ← Correlation.appendAll] at hb ⊢
    have hs : (Correlation.appendAll lib limits {} segs).Sound limits := Sound.appendAll segs sound_new
    rcases hs.get_appendSide hb with ⟨j, hj, hnum⟩ | ⟨k, hk, hnum⟩
    · obtain ⟨old, hold, k, hk, hknum⟩ := ih hj
      exact ⟨old, by simp [hold], k, hk, hknum.trans hnum⟩
    · exact ⟨seg, by simp, k, hk, hnum⟩

/-! ### Complete responses -/

theorem Sound.not_marked_of_complete (hc : responseComplete lib side = true) :
    side.marked = false := by
  simp only [responseComplete, Bool.and_eq_true, Bool.not_eq_true'] at hc
  obtain ⟨⟨htrunc, hinc⟩, _⟩ := hc
  rw [h.incomplete_eq, Bool.or_eq_false_iff] at hinc
  rw [marked, htrunc, hinc.1]
  rfl

/-- A complete response shows its whole window, and the window has no hole. -/
theorem Sound.front_of_complete (hc : responseComplete lib side = true) :
    side.window.front = side.window.length ∧ side.window.length = side.expectedEnd := by
  simp only [responseComplete, Bool.and_eq_true, Bool.not_eq_true'] at hc
  obtain ⟨⟨_, hinc⟩, _⟩ := hc
  rw [h.incomplete_eq, Bool.or_eq_false_iff, decide_eq_false_iff_not] at hinc
  have := h.within
  have := side.window.front_le_length
  omega

end

end SideState

open SideState

theorem appendAll_append (lib : Lib) (limits : Limits) (side : SideState)
    (before after : List (PacketFeature × UInt64)) :
    appendAll lib limits side (before ++ after) =
      appendAll lib limits (appendAll lib limits side before) after := by
  simp [appendAll]

theorem responseComplete_of_status {lib : Lib} {tx : TransactionState}
    (h : (exchange lib tx).responseStatus = "complete") : responseComplete lib tx.response = true := by
  rw [exchange] at h
  split at h
  · by_contra hc
    simp [hc] at h
  · cases hfinal : tx.final <;> simp [hfinal] at h

/-- Whatever packets one side is given: the window keeps its bound and its two lists their common
    length, the payload is the longest filled front, a stored byte keeps its value, and after a
    flawed segment the response never counts as complete; so a complete response shows all its
    window, without a hole, no segment of it was flawed, and every byte of its segments is there.
    Sequence numbers tell the bytes of the window apart as long as it is not longer than the number
    space. -/
theorem appendAll_keeps_evidence (lib : Lib) (limits : Limits)
    (hsmall : limits.maxReassemblyBytesPerSide.val ≤ 2 ^ 32)
    (segs : List (PacketFeature × UInt64)) :
    let side := appendAll lib limits {} segs
    (side.window.data.length = side.window.present.length ∧
      side.window.data.length ≤ limits.maxReassemblyBytesPerSide) ∧
    (∃ n, side.payload = side.window.data.take n ∧
      (∀ i < n, side.window.present[i]? = some true) ∧ side.window.present[n]? ≠ some true) ∧
    (∀ more q b, side.stored q = some b → (appendAll lib limits side more).stored q = some b) ∧
    (∀ before pf k after, segs = before ++ (pf, k) :: after →
      (appendAll lib limits {} before).Flawed limits pf → responseComplete lib side = false) ∧
    (∀ tx : TransactionState, tx.response = side →
      (exchange lib tx).responseStatus = "complete" →
        side.payload = side.window.data ∧ side.window.data.length = side.expectedEnd ∧
        (∀ i < side.window.data.length, side.window.present[i]? = some true) ∧
        ∀ before pf k after, segs = before ++ (pf, k) :: after →
          ¬ (appendAll lib limits {} before).Flawed limits pf ∧
          ∀ i v, pf.payload[i]? = some v →
            side.stored (pf.sequence + UInt32.ofNat i) = some v) ∧
    (∀ i b, side.window.get i = some b → ∃ seg ∈ segs, ∃ k, seg.1.payload[k]? = some b ∧
      seg.1.sequence + UInt32.ofNat k = side.baseSeq + UInt32.ofNat i) := by
  intro side
  have hs : side.Sound limits := Sound.appendAll segs sound_new
  have hsplit : ∀ before pf k after, segs = before ++ (pf, k) :: after →
      side = appendAll lib limits (appendSide lib limits (appendAll lib limits {} before) pf k)
        after := by
    rintro before pf k after rfl
    exact appendAll_append lib limits {} before _
  have hbefore : ∀ before, (appendAll lib limits {} before).Sound limits :=
    fun before => Sound.appendAll before sound_new
  have hflaw : ∀ before pf k after, segs = before ++ (pf, k) :: after →
      (appendAll lib limits {} before).Flawed limits pf → side.marked = true := by
    intro before pf k after hsegs hf
    rw [hsplit before pf k after hsegs]
    exact marked_appendAll after ((hbefore before).marked_of_flawed hsmall k hf)
  refine ⟨⟨side.window.len.symm, hs.bounded⟩, ⟨side.window.front, hs.payload_eq, ?_, ?_⟩,
    fun more q b => hs.stored_appendAll hsmall more, ?_, ?_, fun i b => get_appendAll segs⟩
  · intro i hi
    exact side.window.isSome_get_iff.mp (side.window.isSome_get_of_lt_front hi)
  · rw [Ne, ← side.window.isSome_get_iff, side.window.get_front]
    simp
  · intro before pf k after hsegs hf
    by_contra hc
    have := hs.not_marked_of_complete (by simpa using hc)
    rw [hflaw before pf k after hsegs hf] at this
    simp at this
  · intro tx hside hstatus
    have hc : responseComplete lib side = true := by
      rw [← hside]
      exact responseComplete_of_status hstatus
    obtain ⟨hfront, hend⟩ := hs.front_of_complete hc
    refine ⟨?_, hend, ?_, ?_⟩
    · rw [hs.payload_eq, hfront, Window.length, List.take_length]
    · intro i hi
      exact side.window.isSome_get_iff.mp
        (side.window.isSome_get_of_lt_front (by rw [hfront]; exact hi))
    · intro before pf k after hsegs
      have hf : ¬ (appendAll lib limits {} before).Flawed limits pf := by
        intro hf
        have := hs.not_marked_of_complete hc
        rw [hflaw before pf k after hsegs hf] at this
        simp at this
      refine ⟨hf, fun i v hv => ?_⟩
      rw [hsplit before pf k after hsegs]
      exact ((hbefore before).appendSide pf k).stored_appendAll hsmall after
        ((hbefore before).stored_of_not_flawed hsmall k hf hv)

/-- A segment with a byte string at a sequence number. -/
def segmentAt (seq : UInt32) (payload : Bytes) : PacketFeature :=
  { proto := .tcp, tcpSeq := seq, payload := payload }

/-- A response in two segments is complete and holds both; a second copy of the last byte with
    another value takes that back for good. -/
theorem appendAll_keeps_evidence_reply :
    let limits := ({} : Options).limits
    let reply := [(segmentAt 7 (okResponse.take 6), 1), (segmentAt 13 (okResponse.drop 6), 2)]
    let side := appendAll sampleLib limits {} reply
    side.payload = side.window.data ∧
      responseComplete sampleLib
        (appendAll sampleLib limits {} (reply ++ [(segmentAt 44 (utf8 "0"), 3)])) = false := by
  intro limits reply side
  have h₁ := appendAll_keeps_evidence sampleLib limits (by decide) reply
  have h₂ := appendAll_keeps_evidence sampleLib limits (by decide)
    (reply ++ [(segmentAt 44 (utf8 "0"), 3)])
  refine ⟨(h₁.2.2.2.2.1 { id := "", lastUsec := 0, response := side } rfl (by decide +kernel)).1,
    h₂.2.2.2.1 reply _ _ [] rfl ?_⟩
  exact .disagrees (k := 0) (v := 48) (x := 10) (by decide +kernel) (by decide +kernel) (by decide)

/-! ### Windows longer than the number space -/

/-- A byte half the number space away goes in front of the window, whatever the window holds. -/
theorem appendSide_behind (lib : Lib) {limits : Limits} {side : SideState} {seq : UInt32}
    (b : UInt8) (n : UInt64) (hset : side.seqSet = true) (hfar : (seq - side.baseSeq).toNat = 2 ^ 31)
    (horder : 2 ^ 31 ≤ limits.maxOutOfOrderBytes.val)
    (hroom : 2 ^ 31 + side.window.length ≤ limits.maxReassemblyBytesPerSide.val) :
    ∃ after, appendSide lib limits side (segmentAt seq [b]) n = after ∧ after.seqSet = true ∧
      after.baseSeq = seq ∧ after.limited = side.limited ∧
      after.window.length = 2 ^ 31 + side.window.length ∧ after.window.get 0 = some b ∧
      ∀ i, after.window.get (2 ^ 31 + i) = side.window.get i := by
  obtain ⟨again, heq⟩ := appendSide_eq lib limits side (segmentAt seq [b]) n
  have hahead : (side.count limits (segmentAt seq [b])).ahead seq = 2 ^ 31 := by
    rw [ahead_count, ahead, anchor, if_pos hset, hfar]
  have hanchor : (side.count limits (segmentAt seq [b])).anchor seq =
      side.count limits (segmentAt seq [b]) := if_pos hset
  rcases reassemble_fst limits (side.count limits (segmentAt seq [b])) (segmentAt seq [b])
    with ⟨hr, _⟩ | ⟨_, hw⟩
  · change Rejects _ _ seq at hr
    rw [rejects_count, Rejects, ← ahead_count, hahead, if_neg (by omega)] at hr
    omega
  change _ = write limits (opened _ seq) (known _ seq) (cell _ seq) _ at hw
  rw [cell, known, opened, hahead, hanchor] at hw
  simp only [Nat.lt_irrefl, if_false] at hw
  rw [if_neg (by simp [segmentAt]), hw] at heq
  set opened := (side.count limits (segmentAt seq [b])).rebase seq (2 ^ 32 - 2 ^ 31) with hopened
  have hget : ∀ i, opened.window.get i = if i < 2 ^ 31 then none else side.window.get (i - 2 ^ 31) :=
    fun i => Window.get_prepend _ _ _ _
  have hlen : opened.window.length = 2 ^ 31 + side.window.length := Window.length_prepend _ _ _
  have hagree : (opened.filling limits 0 [b]).conflict = false := by
    rw [← Bool.not_eq_true, conflict_filling (by omega)]
    rintro ⟨k, v, x, hk, hx, _⟩
    have hk0 := (List.getElem?_eq_some_iff.mp hk).1
    rw [hget, if_pos (by simp at hk0; omega)] at hx
    simp at hx
  refine ⟨_, heq, hset, rfl, ?_, ?_, ?_, ?_⟩
  · have hcut : ¬ limits.maxReassemblyBytesPerSide < 0 + (segmentAt seq [b]).payload.length := by
      simp only [segmentAt, List.length_singleton]
      omega
    change (side.limited || decide _ || Filling.conflict _) = _
    rw [decide_eq_false hcut, Bool.or_false]
    exact (congrArg (side.limited || ·) hagree).trans (Bool.or_false _)
  · refine (length_filling _ _).trans ?_
    rw [hlen]
    simp [segmentAt]
    omega
  · refine (get_filling _ _ _).trans ?_
    rw [hget, if_pos (by omega), if_pos (by omega)]
    rfl
  · intro i
    refine (get_filling _ _ _).trans ?_
    rw [hget, if_neg (by omega), Nat.add_sub_cancel_left, List.getElem?_eq_none
      (by simp only [segmentAt, List.length_singleton]; omega), ite_self, Option.or_none]

/-- A window of more than 2³² bytes has room for two bytes with one sequence number: the later one
    takes the place of the stored one, and nothing is marked. -/
theorem wide_window_changes_stored_byte :
    let limits := ({ maxReassemblyBytesPerSide := 2 ^ 32 + 1, maxOutOfOrderBytes := 2 ^ 31 } :
      Options).limits
    let segs := [(segmentAt 0 [97], 1), (segmentAt 0x80000000 [120], 2)]
    (appendAll sampleLib limits {} segs).stored 0 = some 97 ∧
      (appendAll sampleLib limits {} (segs ++ [(segmentAt 0 [98], 3)])).stored 0 = some 98 ∧
      (appendAll sampleLib limits {} (segs ++ [(segmentAt 0 [98], 3)])).limited = false := by
  intro limits segs
  obtain ⟨one, hone⟩ : ∃ one, appendSide sampleLib limits {} (segmentAt 0 [97]) 1 = one := ⟨_, rfl⟩
  have hbase : one.seqSet = true ∧ one.baseSeq = 0 ∧ one.limited = false ∧
      one.window.length = 1 ∧ one.window.get 0 = some 97 := by
    rw [← hone]
    decide +kernel
  obtain ⟨hset, hseq, hlim, hlen, hget⟩ := hbase
  obtain ⟨two, htwo, hset₂, hseq₂, hlim₂, hlen₂, hget₂, hkeep₂⟩ :=
    @appendSide_behind sampleLib limits one 0x80000000 120 2 hset (by rw [hseq]; decide)
      (by decide) (by rw [hlen]; decide)
  obtain ⟨three, hthree, hset₃, hseq₃, hlim₃, hlen₃, hget₃, hkeep₃⟩ :=
    @appendSide_behind sampleLib limits two 0 98 3 hset₂ (by rw [hseq₂]; decide)
      (by decide) (by rw [hlen₂, hlen]; decide)
  have hrun₂ : appendAll sampleLib limits {} segs = two := by
    simp only [appendAll, segs, List.foldl_cons, List.foldl_nil, hone, htwo]
  have hrun₃ : appendAll sampleLib limits {} (segs ++ [(segmentAt 0 [98], 3)]) = three := by
    rw [appendAll_append, hrun₂]
    simp only [appendAll, List.foldl_cons, List.foldl_nil, hthree]
  rw [hrun₂, hrun₃, stored, stored, hseq₂, hseq₃]
  refine ⟨(hkeep₂ 0).trans hget, hget₃, ?_⟩
  rw [hlim₃, hlim₂, hlim]

end TaNode.Correlation

import TaNode.Pipeline.EventIds

/-! Replay: over which captures every run gives the same ids.

    Ids stand for stamps, so two runs give the same ids if their orders give the same stamps. An order
    is changed into that of the source by exchanges of neighbours that no run has to keep in order:

        source   … a … b …        a, b not tied
        run      … b   a …        ordinals of a and b exchanged

    An exchange leaves the stamps alone if neither packet has a hit, or no stamp tells the two apart;
    and if no hit of their flow comes to have another first packet with another time. Where one of
    this fails there are two runs with different ids. -/

namespace TaNode.Pipeline
open Correlation TaNode.Flow

variable {S : Setup} {source : List Frame} {now now' : Nat → UInt64} {σ τ : List (Frame × Nat)}
  {x y : (Frame × Nat) × PacketFeature} {workers : Int64}
variable {pre post : List (Frame × Nat)} {s : Stamp FiveTuple UInt64 Bytes}

/-! ### Settled sources -/

/-- Packets that no run over the source takes in the other order. -/
abbrev Tied (workers : Int64) (source : List Frame) : Frame × Nat → Frame × Nat → Prop :=
  Fanout.Tied (route workers) queueSize Prod.snd source.zipIdx

/-- Orders in which the packets of the source may reach the aggregator. -/
abbrev Schedule (workers : Int64) (source : List Frame) : List (Frame × Nat) → Prop :=
  Fanout.Schedule (route workers) queueSize Prod.snd source.zipIdx

/-- No id tells the two packets apart but by its ordinal. -/
structure Alike (S : Setup) (x y : (Frame × Nat) × PacketFeature) : Prop where
  tuple : tuple x.2 = tuple y.2
  time : x.1.1.timestampUsec = y.1.1.timestampUsec
  marks : ∀ m, m ∈ S.marks x.2 ↔ m ∈ S.marks y.2

/-- What runs are free to choose does not reach the ids: every packet with a hit has a capture time, a
    parsed packet that may come on either side of it is like it, and those that may be the first of
    its flow have one capture time. -/
structure Settled (S : Setup) (source : List Frame) : Prop where
  timed : ∀ x ∈ S.items source.zipIdx, S.marks x.2 ≠ [] → x.1.1.timestampUsec.isSome
  alike : ∀ workers, ∀ x ∈ S.items source.zipIdx, S.marks x.2 ≠ [] →
    ∀ y ∈ S.items source.zipIdx, y.1 ≠ x.1 →
      ¬ Tied workers source x.1 y.1 → ¬ Tied workers source y.1 x.1 → Alike S x y
  first : ∀ x ∈ S.items source.zipIdx, S.marks x.2 ≠ [] → ∃ t, ∀ workers,
    ∀ y ∈ S.items source.zipIdx, flowKey y.2 = flowKey x.2 →
      (∀ z ∈ S.items source.zipIdx, flowKey z.2 = flowKey x.2 → ¬ Tied workers source z.1 y.1) →
      y.1.1.timestampUsec = some t

theorem placed (source : List Frame) : Fanout.Placed Prod.snd source.zipIdx := by
  have hrange : (source.zipIdx.map Prod.snd).Pairwise (· < ·) := by
    rw [List.zipIdx_map_snd]
    exact List.pairwise_lt_range'
  exact List.pairwise_map.mp hrange

theorem mem_items_schedule (h : Schedule workers source σ) :
    x ∈ S.items σ ↔ x ∈ S.items source.zipIdx := items_perm h.perm x

/-! ### A settled source has one set of stamps -/

theorem Alike.twin (h : Alike S x y) (hx : x.1.1.timestampUsec.isSome) :
    Sight.Twin (sight S now x) (sight S now y) := by
  refine ⟨h.tuple, ?_, h.marks⟩
  obtain ⟨t, ht⟩ := Option.isSome_iff_exists.mp hx
  have hy := h.time.symm.trans ht
  simp only [sight, Pipeline.time, ht, hy, Option.getD_some]

/-- A packet that comes before all others of its flow in some order is one of those that may be the
    first. -/
theorem untied_of_first {z : (Frame × Nat) × PacketFeature}
    (h : Schedule workers source (pre ++ y.1 :: post)) (hz : z ∈ S.items source.zipIdx)
    (hpre : z ∉ S.items pre) : ¬ Tied workers source z.1 y.1 := by
  have hz' := (mem_items_schedule h).mpr hz
  obtain ⟨hmem, hpf⟩ := mem_items.mp hz'
  rcases List.mem_append.mp hmem with hmem | hmem
  · exact absurd (mem_items.mpr ⟨hmem, hpf⟩) hpre
  · rcases List.mem_cons.mp hmem with heq | hmem
    · rw [heq]
      exact fun htied => Nat.lt_irrefl _ htied.1
    · have hrest := (List.pairwise_append.mp h.ordered).2.1
      exact (List.pairwise_cons.mp hrest).1 _ hmem

/-- The exchange of two parsed packets that may come in either order. -/
theorem Settled.exchange (h : Settled S source)
    (hba : Schedule workers source (pre ++ y.1 :: x.1 :: post))
    (hab : Schedule workers source (pre ++ x.1 :: y.1 :: post)) (hlt : x.1.2 < y.1.2)
    (hx : x ∈ S.items source.zipIdx) (hy : y ∈ S.items source.zipIdx) :
    s ∈ Sight.stamps FiveTuple.key ((S.items pre).map (sight S now))
        (sight S now y :: sight S now x :: (S.items post).map (sight S now)) ↔
      s ∈ Sight.stamps FiveTuple.key ((S.items pre).map (sight S now))
        (sight S now x :: sight S now y :: (S.items post).map (sight S now)) := by
  have hxy : ¬ Tied workers source x.1 y.1 := by
    have hrest := (List.pairwise_append.mp hba.ordered).2.1
    exact (List.pairwise_cons.mp hrest).1 _ (List.mem_cons_self ..)
  have hyx : ¬ Tied workers source y.1 x.1 := fun htied => Nat.lt_asymm hlt htied.1
  have hne : y.1 ≠ x.1 := fun heq => Nat.lt_irrefl _ (heq ▸ hlt)
  refine Sight.mem_stamps_swap ?_ ?_
  · by_cases hmx : S.marks x.2 = []
    · by_cases hmy : S.marks y.2 = []
      · exact .inl ⟨hmy, hmx⟩
      · exact .inr ((h.alike workers y hy hmy x hx hne.symm hyx hxy).twin (h.timed y hy hmy))
    · exact .inr ((h.alike workers x hx hmx y hy hne hxy hyx).twin (h.timed x hx hmx)).symm
  · intro z hz hmarks hkey hzkey
    obtain ⟨w, hw, rfl⟩ := List.mem_map.mp hz
    by_cases hpre : ∃ v ∈ S.items pre, flowKey v.2 = flowKey y.2
    · obtain ⟨v, hv, hvkey⟩ := hpre
      exact .inr ⟨_, List.mem_map_of_mem hv, hvkey⟩
    · -- both may be the first of the flow of `w`, so they have the capture time its stamps have
      have hwmem : w ∈ S.items source.zipIdx := by
        obtain ⟨hmem, hpf⟩ := mem_items.mp hw
        exact (mem_items_schedule hab).mp (mem_items.mpr ⟨by simp [hmem], hpf⟩)
      have hwy : flowKey w.2 = flowKey y.2 := hzkey
      have hxw : flowKey x.2 = flowKey w.2 := (show flowKey y.2 = flowKey x.2 from hkey).symm.trans hwy.symm
      have hnot : ∀ v, flowKey v.2 = flowKey w.2 → v ∉ S.items pre :=
        fun v hvkey hv => hpre ⟨v, hv, hvkey.trans hwy⟩
      obtain ⟨t, ht⟩ := h.first w hwmem hmarks
      have htx := ht workers x hx hxw fun v hv hvkey => untied_of_first hab hv (hnot v hvkey)
      have hty := ht workers y hy hwy.symm fun v hv hvkey => untied_of_first hba hv (hnot v hvkey)
      left
      simp only [sight, time, htx, hty, Option.getD_some]

/-- In a settled source every order gives the stamps of the source's own. -/
theorem Settled.stamps_schedule (h : Settled S source) (hσ : Schedule workers source σ) :
    ∀ s, s ∈ stampsOf S now σ ↔ s ∈ stampsOf S now source.zipIdx := by
  refine Fanout.Schedule.induction (P := fun σ => ∀ s, s ∈ stampsOf S now σ ↔
    s ∈ stampsOf S now source.zipIdx) (placed source) (fun s => Iff.rfl) ?_ hσ
  intro pre a b post hba hab hlt ih s
  rw [← ih, stampsOf, stampsOf, items_append, items_append, items_cons, items_cons, items_cons,
    items_cons]
  have ha : a ∈ source.zipIdx := hab.perm.subset (by simp)
  have hb : b ∈ source.zipIdx := hab.perm.subset (by simp)
  cases hpa : S.parsed a.1 with
  | none => simp
  | some pa =>
    cases hpb : S.parsed b.1 with
    | none => simp
    | some pb =>
      have hswap := @Settled.exchange S source now (a, pa) (b, pb) workers pre post s h hba hab hlt
        (mem_items.mpr ⟨ha, hpa⟩) (mem_items.mpr ⟨hb, hpb⟩)
      simp only [Option.map_some, Option.toList_some, List.singleton_append, List.map_append,
        List.map_cons, Sight.stamps_append, List.nil_append, List.mem_append, hswap]

theorem items_placed (S : Setup) (source : List Frame) :
    (S.items source.zipIdx).Pairwise (·.1.2 < ·.1.2) := by
  refine List.Pairwise.filterMap _ ?_ (placed source)
  intro a b hlt x hx y hy
  obtain ⟨pa, -, rfl⟩ := Option.map_eq_some_iff.mp hx
  obtain ⟨pb, -, rfl⟩ := Option.map_eq_some_iff.mp hy
  exact hlt

/-- The first of a flow in the source is tied to no other behind it. -/
theorem untied_of_find {key : String} {f z : (Frame × Nat) × PacketFeature}
    (hf : (S.items source.zipIdx).find? (flowKey ·.2 = key) = some f)
    (hz : z ∈ S.items source.zipIdx) (hkey : flowKey z.2 = key) : ¬ Tied workers source z.1 f.1 := by
  intro htied
  obtain ⟨-, before, behind, hitems, hbefore⟩ := List.find?_eq_some_iff_append.mp hf
  have hsorted := items_placed S source
  rw [hitems] at hz hsorted
  rcases List.mem_append.mp hz with hz | hz
  · have hnot := hbefore z hz
    rw [Bool.not_eq_true', decide_eq_false_iff_not] at hnot
    exact hnot hkey
  · rcases List.mem_cons.mp hz with rfl | hz
    · exact Nat.lt_irrefl _ htied.1
    · have hlt := (List.pairwise_cons.mp (List.pairwise_append.mp hsorted).2.1).1 z hz
      exact Nat.lt_asymm hlt htied.1

/-- In a settled source the stamps do not depend on the clock. -/
theorem Settled.stamps_clock (h : Settled S source) (hs : s ∈ stampsOf S now source.zipIdx) :
    s ∈ stampsOf S now' source.zipIdx := by
  obtain ⟨J, x, J', hitems, f, hf, m, hm, rfl⟩ := mem_stampsOf.mp hs
  have hx : x ∈ S.items source.zipIdx := by simp [hitems]
  have hmarks : S.marks x.2 ≠ [] := List.ne_nil_of_mem hm
  obtain ⟨tx, htx⟩ := Option.isSome_iff_exists.mp (h.timed x hx hmarks)
  obtain ⟨t, ht⟩ := h.first x hx hmarks
  have hfkey : flowKey f.2 = flowKey x.2 := by simpa using List.find?_some hf
  have htf : f.1.1.timestampUsec = some t := by
    exact ht 1 f (List.mem_of_find?_eq_some hf) hfkey fun z hz hzkey => untied_of_find hf hz hzkey
  refine mem_stampsOf.mpr ⟨J, x, J', hitems, f, hf, m, hm, ?_⟩
  simp only [time, htx, htf, Option.getD_some]

/-! ### What one set of stamps says of the source -/

/-- Every order gives the same stamps, whatever the clocks say. -/
def OneStamping (S : Setup) (source : List Frame) : Prop :=
  ∀ workers workers' now now' σ τ, Schedule workers source σ → Schedule workers' source τ →
    ∀ s, s ∈ stampsOf S now σ → s ∈ stampsOf S now' τ

theorem Settled.oneStamping (h : Settled S source) : OneStamping S source := by
  intro workers workers' now now' σ τ hσ hτ s hs
  exact (h.stamps_schedule hτ s).mpr (h.stamps_clock ((h.stamps_schedule hσ s).mp hs))

/-- A packet whose time no clock changes has a capture time. -/
theorem timed_of_clocks {p : Frame × Nat} {t : UInt64} (h : ∀ c, time (fun _ => c) p = t) :
    p.1.timestampUsec = some t := by
  cases hp : p.1.timestampUsec with
  | some u =>
    have hu := h 0
    rw [time, hp, Option.getD_some] at hu
    rw [hu]
  | none =>
    have h0 := h 0
    have h1 := h 1
    rw [time, hp, Option.getD_none] at h0 h1
    exact absurd (h0.trans h1.symm) (by decide)

/-- The stamps with the ordinal of a packet are those of its hits. -/
theorem stamp_at {K K' : List ((Frame × Nat) × PacketFeature)} (hs : s ∈ stampsOf S now σ)
    (hitems : S.items σ = K ++ y :: K') (hord : s.ordinal = K.length + 1) :
    ∃ g, (S.items σ).find? (flowKey ·.2 = flowKey y.2) = some g ∧ s.first = time now g.1 ∧
      s.time = time now y.1 ∧ s.id = tuple y.2 ∧ s.mark ∈ S.marks y.2 := by
  obtain ⟨L, z, L', hsplit, g, hg, m, hm, rfl⟩ := mem_stampsOf.mp hs
  obtain rfl : y = z := items_unique (hitems.symm.trans hsplit) hord.symm
  exact ⟨g, hg, rfl, rfl, rfl, hm⟩

theorem exists_split {α : Type} {l : List α} {i : Nat} (hi : i < l.length) :
    ∃ pre a post, l = pre ++ a :: post ∧ pre.length = i :=
  ⟨l.take i, l[i], l.drop (i + 1), split_at (List.getElem?_eq_getElem hi), by simp; omega⟩

namespace OneStamping
variable (h : OneStamping S source)
include h

/-- The packets at one place of two orders: the hits of the one are hits of the other, of the same
    flow and at the same time. -/
theorem hit (workers workers' : Int64) {J J' K K' : List ((Frame × Nat) × PacketFeature)}
    (hσ : Schedule workers source σ) (hτ : Schedule workers' source τ)
    (hitems : S.items σ = J ++ x :: J') (hitems' : S.items τ = K ++ y :: K')
    (hlen : J.length = K.length) {m : Bytes} (hm : m ∈ S.marks x.2) :
    m ∈ S.marks y.2 ∧ tuple x.2 = tuple y.2 ∧ (∀ now now', time now x.1 = time now' y.1) ∧
      ∃ f g, (S.items σ).find? (flowKey ·.2 = flowKey x.2) = some f ∧
        (S.items τ).find? (flowKey ·.2 = flowKey x.2) = some g ∧
        ∀ now now', time now f.1 = time now' g.1 := by
  obtain ⟨f, hf⟩ : ∃ f, (S.items σ).find? (flowKey ·.2 = flowKey x.2) = some f :=
    ⟨_, by rw [hitems]; exact find_flow⟩
  have hmem : ∀ now, ⟨time now f.1, time now x.1, J.length + 1, tuple x.2, m⟩ ∈ stampsOf S now σ :=
    fun now => mem_stampsOf.mpr ⟨J, x, J', hitems, f, hf, m, hm, rfl⟩
  have hstamp := fun now now' => stamp_at (h workers workers' now now' σ τ hσ hτ _ (hmem now)) hitems'
    (congrArg (· + 1) hlen)
  obtain ⟨g, hg, -, -, htuple, hmark⟩ := hstamp (fun _ => 0) (fun _ => 0)
  have hkey : flowKey y.2 = flowKey x.2 := by
    rw [flowKey_eq, flowKey_eq, ← htuple]
  refine ⟨hmark, htuple, ?_, f, g, hf, hkey ▸ hg, ?_⟩
  · intro now now'
    obtain ⟨-, -, -, htime, -⟩ := hstamp now now'
    exact htime
  · intro now now'
    obtain ⟨g', hg', hfirst, -⟩ := hstamp now now'
    rw [Option.some.inj (hg.symm.trans hg')]
    exact hfirst

section
variable (hx : x ∈ S.items source.zipIdx)
include hx

theorem timed (hmarks : S.marks x.2 ≠ []) : x.1.1.timestampUsec.isSome := by
  obtain ⟨m, hm⟩ := List.exists_mem_of_ne_nil _ hmarks
  obtain ⟨J, J', hitems⟩ := List.append_of_mem hx
  obtain ⟨-, -, htime, -⟩ := h.hit 1 1 (placed source).schedule (placed source).schedule hitems hitems
    rfl hm
  rw [timed_of_clocks fun c => htime (fun _ => c) (fun _ => 0)]
  rfl

omit hx in
/-- Two orders in which the two are neighbours, one way and the other. -/
theorem alike_neighbours (hxy : Schedule workers source (pre ++ x.1 :: y.1 :: post))
    (hyx : Schedule workers source (pre ++ y.1 :: x.1 :: post)) (hx : S.parsed x.1.1 = some x.2)
    (hy : S.parsed y.1.1 = some y.2) (hmarks : S.marks x.2 ≠ []) : Alike S x y := by
  have hitems : ∀ {a b : (Frame × Nat) × PacketFeature}, S.parsed a.1.1 = some a.2 →
      S.parsed b.1.1 = some b.2 → S.items (pre ++ a.1 :: b.1 :: post) =
        S.items pre ++ a :: b :: S.items post := by
    intro a b ha hb
    rw [items_append, items_cons, items_cons, ha, hb]
    rfl
  have hforth := fun m => h.hit workers workers hxy hyx (hitems hx hy) (hitems hy hx) rfl (m := m)
  have hback := fun m => h.hit workers workers hyx hxy (hitems hy hx) (hitems hx hy) rfl (m := m)
  obtain ⟨m, hm⟩ := List.exists_mem_of_ne_nil _ hmarks
  obtain ⟨-, htuple, htime, -⟩ := hforth m hm
  refine ⟨htuple, ?_, fun m => ⟨fun hm => (hforth m hm).1, fun hm => (hback m hm).1⟩⟩
  have hxt := timed_of_clocks fun c => htime (fun _ => c) (fun _ => 0)
  have hyt := timed_of_clocks fun c => (htime (fun _ => 0) (fun _ => c)).symm
  rw [hxt, hyt, htime (fun _ => 0) (fun _ => 0)]

theorem alike (hmarks : S.marks x.2 ≠ []) (hy : y ∈ S.items source.zipIdx) (hne : y.1 ≠ x.1)
    (hxy : ¬ Tied workers source x.1 y.1) (hyx : ¬ Tied workers source y.1 x.1) : Alike S x y := by
  obtain ⟨hxmem, hxpf⟩ := mem_items.mp hx
  obtain ⟨hymem, hypf⟩ := mem_items.mp hy
  rcases Nat.lt_trichotomy x.1.2 y.1.2 with hlt | heq | hlt
  · obtain ⟨pre, post, hσ⟩ := (placed source).neighbours hxmem hymem hlt hxy
    exact h.alike_neighbours (hσ.swap hlt) hσ hxpf hypf hmarks
  · exact absurd ((placed source).inj hymem hxmem heq.symm) hne
  · obtain ⟨pre, post, hσ⟩ := (placed source).neighbours hymem hxmem hlt hyx
    exact h.alike_neighbours hσ (hσ.swap hlt) hxpf hypf hmarks

/-- A packet that no other of its flow has to come before is the first of the flow in some order. -/
theorem first (hmarks : S.marks x.2 ≠ []) :
    ∃ t, ∀ workers, ∀ y ∈ S.items source.zipIdx, flowKey y.2 = flowKey x.2 →
      (∀ z ∈ S.items source.zipIdx, flowKey z.2 = flowKey x.2 → ¬ Tied workers source z.1 y.1) →
      y.1.1.timestampUsec = some t := by
  obtain ⟨m, hm⟩ := List.exists_mem_of_ne_nil _ hmarks
  obtain ⟨f, hf⟩ : ∃ f, (S.items source.zipIdx).find? (flowKey ·.2 = flowKey x.2) = some f := by
    obtain ⟨J, J', hitems⟩ := List.append_of_mem hx
    exact ⟨_, hitems ▸ find_flow⟩
  refine ⟨time (fun _ => 0) f.1, fun workers y hy hkey hloose => ?_⟩
  obtain ⟨hymem, hypf⟩ := mem_items.mp hy
  have hmates : ∀ p : Frame × Nat,
      (p.2 < y.1.2 ∧ ∃ pf, (p, pf) ∈ S.items source.zipIdx ∧ flowKey pf = flowKey x.2) →
        p.2 < y.1.2 ∧ ¬ Tied workers source p y.1 := by
    rintro p ⟨hlt, pf, hpf, hpkey⟩
    exact ⟨hlt, hloose (p, pf) hpf hpkey⟩
  obtain ⟨pre, post, hσ, hpre⟩ := (placed source).overtake hymem hmates
  have hfirst : (S.items (pre ++ y.1 :: post)).find? (flowKey ·.2 = flowKey x.2) = some y := by
    rw [items_append, items_cons, hypf, List.find?_append, List.find?_eq_none.mpr]
    · simp [hkey]
    · intro z hz hzkey
      obtain ⟨hzmem, hzpf⟩ := mem_items.mp hz
      have hzsource := (mem_items_schedule hσ).mp (mem_items.mpr ⟨List.mem_append_left _ hzmem, hzpf⟩)
      exact (hpre z.1 hzmem).2 ⟨(hpre z.1 hzmem).1, z.2, hzsource, of_decide_eq_true hzkey⟩
  obtain ⟨K, K', hitems⟩ := List.append_of_mem ((mem_items_schedule hσ).mpr hx)
  have hlen : (S.items source.zipIdx).length = K.length + (K'.length + 1) := by
    have hperm : (S.items (pre ++ y.1 :: post)).Perm (S.items source.zipIdx) := hσ.perm.filterMap _
    rw [← hperm.length_eq, hitems, List.length_append, List.length_cons]
  obtain ⟨L, z, L', hsplit, hL⟩ := exists_split (show K.length < (S.items source.zipIdx).length by omega)
  obtain ⟨-, -, -, y', f', hy', hf', htimes⟩ := h.hit workers 1 hσ (placed source).schedule hitems hsplit
    hL.symm hm
  obtain rfl : y = y' := Option.some.inj (hfirst.symm.trans hy')
  obtain rfl : f = f' := Option.some.inj (hf.symm.trans hf')
  exact timed_of_clocks fun c => htimes (fun _ => c) (fun _ => 0)

end

theorem settled : Settled S source where
  timed := fun _ hx hmarks => h.timed hx hmarks
  alike := fun _ _ hx hmarks _ hy hne hxy hyx => h.alike hx hmarks hy hne hxy hyx
  first := fun _ hx hmarks => h.first hx hmarks

end OneStamping

/-! ### Ids of runs -/

/-- Different texts have different digests. -/
def Setup.CollisionFree (S : Setup) : Prop := ∀ a b, S.digest a = S.digest b → a = b

theorem bar_notMem_stamp (hs : s ∈ stampsOf S now σ) :
    '|' ∉ s.id.srcIP.toList ∧ '|' ∉ s.id.dstIP.toList := by
  obtain ⟨J, x, J', hitems, f, -, m, -, rfl⟩ := mem_stampsOf.mp hs
  have hx : x ∈ S.items σ := by simp [hitems]
  exact parse_addresses_notMem (by decide) (by decide) (by decide) (by decide)
    (parse_of_parsed (mem_items.mp hx).2)

theorem eventID_inj (hfree : S.CollisionFree) {t : Stamp FiveTuple UInt64 Bytes}
    (hs : s ∈ stampsOf S now σ) (ht : t ∈ stampsOf S now' τ)
    (h : eventID S.digest s = eventID S.digest t) : s = t := by
  rw [eventID, eventID] at h
  exact stampText_inj (bar_notMem_stamp hs) (bar_notMem_stamp ht)
    (hfree _ _ (String.append_right_inj _ |>.mp h))

/-- A run of the pipeline over a source that has ended. -/
structure Ended (workers : Int64) (source : List Frame)
    (s : Fanout (Frame × Nat) (workerCount workers)) : Prop where
  run : Fanout.Run (route workers) queueSize 2 source.zipIdx s
  ended : s.ended = true

theorem Ended.schedule {s : Fanout (Frame × Nat) (workerCount workers)} (h : Ended workers source s) :
    Schedule workers source (Fanout.order s.log) :=
  h.run.schedule (by decide) (workerCount_pos workers) (placed source) h.ended

theorem exists_ended (hσ : Schedule workers source σ) :
    ∃ s, Ended workers source s ∧ Fanout.order s.log = σ := by
  obtain ⟨s, hrun, hended, horder⟩ : ∃ s, Fanout.Run (route workers) queueSize 2 source.zipIdx s ∧
      s.ended = true ∧ Fanout.order s.log = σ := hσ.run (placed source) (by decide) (by decide)
  exact ⟨s, ⟨hrun, hended⟩, horder⟩

/-- Runs over a source give the same ids, with any numbers of workers, interleavings and clocks, exactly
    if the source is settled. -/
theorem replay_iff_settled (S : Setup) (hfree : S.CollisionFree) (source : List Frame)
    (hroom : Room S source) :
    (∀ workers workers' clock clock' s s', Ended workers source s → Ended workers' source s' →
      ∀ id, id ∈ eventIDs S clock s ↔ id ∈ eventIDs S clock' s') ↔ Settled S source := by
  constructor
  · intro h
    refine OneStamping.settled fun workers workers' now now' σ τ hσ hτ s hs => ?_
    obtain ⟨r, hr, rfl⟩ := exists_ended hσ
    obtain ⟨r', hr', rfl⟩ := exists_ended hτ
    have hids := h workers workers' ⟨now, fun _ => ⟨0, 0, 0⟩⟩ ⟨now', fun _ => ⟨0, 0, 0⟩⟩ r r' hr hr'
      (eventID S.digest s)
    obtain ⟨t, ht, heq⟩ := (mem_eventIDs hroom hτ.perm).mp
      (hids.mp ((mem_eventIDs hroom hσ.perm).mpr ⟨s, hs, rfl⟩))
    rwa [eventID_inj hfree hs ht heq]
  · intro h
    have hsub : ∀ workers workers' clock clock' s s', Ended workers source s → Ended workers' source s' →
        ∀ id, id ∈ eventIDs S clock s → id ∈ eventIDs S clock' s' := by
      intro workers workers' clock clock' s s' hs hs' id hid
      obtain ⟨t, ht, rfl⟩ := (mem_eventIDs hroom hs.schedule.perm).mp hid
      exact (mem_eventIDs hroom hs'.schedule.perm).mpr
        ⟨t, h.oneStamping _ _ _ _ _ _ hs.schedule hs'.schedule t ht, rfl⟩
    exact fun workers workers' clock clock' s s' hs hs' id =>
      ⟨hsub _ _ _ _ s s' hs hs' id, hsub _ _ _ _ s' s hs' hs id⟩

/-- A setup with an indicator of type `ip`, and with digests that say the text. -/
def watch : Setup where
  decode := fun _ => none
  rules := []
  iocs := fun pf => if "10.0.0.2" ∈ [pf.srcIP, pf.dstIP]
    then [{ id := utf8 "x", type := utf8 "ip", value := utf8 "10.0.0.2" }] else []
  timeless := fun _ _ => rfl
  digest := fun data => String.ofList (data.map Char.ofUInt8)
  parseIP := utf8
  maxFlows := 100
  idleTimeout := 60

theorem watch_collisionFree : watch.CollisionFree := by
  intro a b h
  refine List.map_injective_iff.mpr ?_ (String.ofList_injective h)
  intro c d hcd
  exact UInt8.toUInt32_inj.mp (congrArg Char.val hcd)

/-- Both directions of a connection are worked on by one worker, so its ids are the same in all runs. -/
theorem replay_iff_settled_handshake : Room watch [opening, answer] ∧
    ∀ workers workers' clock clock' s s', Ended workers [opening, answer] s →
      Ended workers' [opening, answer] s' →
      ∀ id, id ∈ eventIDs watch clock s ↔ id ∈ eventIDs watch clock' s' := by
  have hroom : Room watch [opening, answer] := by
    rw [Room]
    decide +kernel
  refine ⟨hroom, (replay_iff_settled watch watch_collisionFree _ hroom).mpr ?_⟩
  have htied : ∀ workers, Tied workers [opening, answer] (opening, 0) (answer, 1) := by
    intro workers
    have hhash : flowHash opening = flowHash answer := by decide +kernel
    exact ⟨by decide, .inl (by simp only [route, hhash])⟩
  obtain ⟨pf, pg, hitems, hkeys⟩ : ∃ pf pg,
      watch.items [opening, answer].zipIdx = [((opening, 0), pf), ((answer, 1), pg)] ∧
        flowKey pg ≠ flowKey pf :=
    ⟨_, _, rfl, by decide +kernel⟩
  have hcases : ∀ x ∈ watch.items [opening, answer].zipIdx,
      x = ((opening, 0), pf) ∨ x = ((answer, 1), pg) := by
    rw [hitems]
    simp
  refine ⟨?_, ?_, ?_⟩
  · intro x hx _
    rcases hcases x hx with rfl | rfl
    · rfl
    · rfl
  · intro workers x hx _ y hy hne hxy hyx
    rcases hcases x hx with rfl | rfl <;> rcases hcases y hy with rfl | rfl
    · exact absurd rfl hne
    · exact absurd (htied workers) hxy
    · exact absurd (htied workers) hyx
    · exact absurd rfl hne
  · intro x hx _
    rcases hcases x hx with rfl | rfl
    · refine ⟨1000, fun workers y hy hkey _ => ?_⟩
      rcases hcases y hy with rfl | rfl
      · rfl
      · exact absurd hkey hkeys
    · refine ⟨1500, fun workers y hy hkey _ => ?_⟩
      rcases hcases y hy with rfl | rfl
      · exact absurd hkey.symm hkeys
      · rfl

/-- A packet of another flow, which two workers do not work on together with `opening`. -/
def bystander : Frame where
  data := []
  timestampUsec := some 1200
  length := 54
  layers := [(.ipv4 40 6 ⟨[10, 0, 0, 4], rfl⟩ ⟨[10, 0, 0, 1], by decide⟩, 20),
    (.tcp { srcPort := 40001, dstPort := 22, seq := 7, synFlag := true }, 20)]

/-- The two packets reach the aggregator in either order, and the id of the first has its number. -/
theorem eventIDs_depend_on_schedule : Room watch [opening, bystander] ∧
    ∃ s s', Ended 2 [opening, bystander] s ∧ Ended 2 [opening, bystander] s' ∧ ∃ clock id,
      id ∈ eventIDs watch clock s ∧ id ∉ eventIDs watch clock s' := by
  refine ⟨by rw [Room]; decide +kernel, ?_⟩
  have hswapped : Schedule 2 [opening, bystander] [(bystander, 1), (opening, 0)] := by
    refine ⟨List.Perm.swap _ _ _, List.pairwise_pair.mpr ?_⟩
    rintro ⟨-, hroute | hfull⟩
    · exact absurd hroute (by decide +kernel)
    · exact absurd hfull (by decide +kernel)
  have hplain : Schedule 2 [opening, bystander] [(opening, 0), (bystander, 1)] :=
    (placed [opening, bystander]).schedule
  obtain ⟨s, hs, horder⟩ := exists_ended hplain
  obtain ⟨s', hs', horder'⟩ := exists_ended hswapped
  refine ⟨s, s', hs, hs', ⟨fun _ => 0, fun _ => ⟨0, 0, 0⟩⟩,
    "evt-1000|1000|1|10.0.0.2|40000|10.0.0.1|80|tcp|intel|x|ip|10.0.0.2|", ?_, ?_⟩
  · rw [eventIDs, horder]
    decide +kernel
  · rw [eventIDs, horder']
    decide +kernel

end TaNode.Pipeline

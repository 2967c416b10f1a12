import Mathlib.Data.List.Infix
import TaNode.Intel.Store
import TaNode.Schemes.Front

/-! Listing the indicators page by page.

    A request names a filter, an offset and a limit, and gets the stretch of the matches, sorted by
    id, that starts at the offset:

        matches   0 1 2 3 4 5 6 7 8
        page            ├─────┤         offset 3, limit 3

    The bounds come from the request as they are, and their sum is one of machine integers. A
    negative offset, or a sum that wraps, makes a slice that Go refuses. -/

namespace TaNode.Intel
variable {lib : Lib}

/-- `s[lo:hi]` -/
def slice {α : Type} (s : List α) (lo hi : Int) : Except Panic (List α) :=
  if 0 ≤ lo ∧ lo ≤ hi ∧ hi ≤ s.length then .ok ((s.take hi.toNat).drop lo.toNat)
  else .error .outOfRange

structure Filter where
  query : Bytes := []
  type : Bytes := []
  category : Bytes := []
  deriving DecidableEq

section
variable (lib) (equalFold : Bytes → Bytes → Bool)

/-- The indicator passes the filter; `equalFold` is `strings.EqualFold`. -/
def Filter.accepts (filter : Filter) (it : ThreatIntel) : Bool :=
  let query := lib.toLower (trimSpace filter.query)
  (filter.type = [] || equalFold it.type filter.type) &&
  (filter.category = [] || it.category = filter.category) &&
  (query = [] || query <:+: lib.toLower it.id || query <:+: lib.toLower it.value ||
    query <:+: lib.toLower it.description)

def idLess (a b : Item lib) : Bool := a.1.id < b.1.id

/-- The page and the number of all matches; `order` is that of the loop over the map, `S` is
    `sort.Slice`. -/
def listFiltered (S : Sorter (Item lib)) (order : Visit (Item lib)) (offset limit : Int64)
    (filter : Filter) (items : Items lib) : Except Panic (List (Item lib) × Nat) :=
  let out := (order.visit items.list).filter fun it => filter.accepts lib equalFold it.1
  let out := S.sort (idLess lib) out
  let total := out.length
  if offset.toInt ≥ total then .ok ([], total)
  else
    let last := (offset + limit).toInt
    let last := if last > total then (total : Int) else last
    do
      let page ← slice out offset.toInt last
      return (page, total)

/-- The matches, sorted by id. -/
structure Listing (filter : Filter) (items : Items lib) where
  list : List (Item lib)
  perm : list.Perm (items.list.filter fun it => filter.accepts lib equalFold it.1)
  sorted : list.Pairwise fun a b => a.1.id < b.1.id

end

/-- The entries at positions `max 0 offset` to `min (offset + limit) total`. -/
def page {α : Type} (l : List α) (offset limit : Int) : List α :=
  (l.take (min (offset + limit) l.length).toNat).drop (max 0 offset).toNat

/-! ### The sorted listing -/

theorem ranks_idLess : Ranks (idLess lib) where
  asymm a b h := by
    rw [idLess, decide_eq_true_iff] at h
    exact decide_eq_false (List.lt_asymm h)
  trans a b c h₁ h₂ := by
    rw [idLess, decide_eq_false_iff_not, List.not_lt] at h₁ h₂ ⊢
    exact List.le_trans h₁ h₂

variable (S : Sorter (Item lib)) (order : Visit (Item lib))
variable {α : Type} {limit : Int}

section
variable {equalFold : Bytes → Bytes → Bool} {filter : Filter} {items : Items lib}

/-- Whatever the order of the loop and the sorting, the result is the listing: no two ids are equal. -/
theorem sort_eq_listing (l : Listing lib equalFold filter items) :
    S.sort (idLess lib) ((order.visit items.list).filter fun it =>
      filter.accepts lib equalFold it.1) = l.list := by
  have hperm := (S.perm (idLess lib) _).trans
    ((order.perm items.list).filter fun it => filter.accepts lib equalFold it.1)
  have hle : l.list.Pairwise fun a b => idLess lib b a = false :=
    l.sorted.imp fun h => decide_eq_false (List.lt_asymm h)
  refine List.Perm.eq_of_pairwise (fun a b ha hb hab hba => ?_) (S.sorted _ ranks_idLess _) hle
    (hperm.trans l.perm.symm)
  rw [idLess, decide_eq_false_iff_not, List.not_lt] at hab hba
  have hmem : ∀ x, x ∈ items.list.filter (fun it => filter.accepts lib equalFold it.1) →
      x ∈ items := fun x hx => (List.mem_filter.mp hx).1
  exact Catalog.eq_of_key (hmem a (hperm.subset ha)) (hmem b (l.perm.subset hb))
    (List.le_antisymm hab hba)

/-- There is one. -/
def sortedListing (equalFold : Bytes → Bytes → Bool) (filter : Filter) (items : Items lib) :
    Listing lib equalFold filter items where
  list := (Sorter.insertion _).sort (idLess lib)
    (items.list.filter fun it => filter.accepts lib equalFold it.1)
  perm := (Sorter.insertion _).perm _ _
  sorted := by
    have hnodup : ((items.list.filter fun it => filter.accepts lib equalFold it.1).map
        (·.1.id)).Nodup := items.distinct.sublist (List.filter_sublist.map _)
    have hids := (((Sorter.insertion _).perm (idLess lib) _).map (·.1.id)).nodup_iff.mpr hnodup
    rw [List.Nodup, List.pairwise_map] at hids
    refine (hids.and ((Sorter.insertion _).sorted _ ranks_idLess _)).imp ?_
    rintro a b ⟨hne, hle⟩
    rw [idLess, decide_eq_false_iff_not, List.not_lt] at hle
    exact (List.le_iff_lt_or_eq.mp hle).resolve_right hne

theorem listFiltered_eq (offset limit : Int64) (l : Listing lib equalFold filter items) :
    listFiltered lib equalFold S order offset limit filter items =
      if (l.list.length : Int) ≤ offset.toInt then .ok ([], l.list.length)
      else (slice l.list offset.toInt (min (offset + limit).toInt l.list.length)).map
        fun page => (page, l.list.length) := by
  rw [listFiltered, sort_eq_listing S order l]
  have hlast : (if (offset + limit).toInt > l.list.length then (l.list.length : Int)
      else (offset + limit).toInt) = min (offset + limit).toInt l.list.length := by
    split_ifs
    · omega
    · omega
  simp only [hlast]
  rfl

/-! ### Which requests get their page -/

/-- The sum of an offset and a positive limit wraps to a negative number, if it wraps. -/
theorem toInt_offset_add {offset limit : Int64} (hlimit : 0 < limit.toInt) :
    (offset.toInt + limit.toInt < 2 ^ 63 ∧ (offset + limit).toInt = offset.toInt + limit.toInt) ∨
    (2 ^ 63 ≤ offset.toInt + limit.toInt ∧ (offset + limit).toInt < 0) := by
  have hoffset := offset.toInt_lt
  have hoffset' := offset.le_toInt
  have hlimit' := limit.toInt_lt
  rw [Int64.toInt_add, Int.bmod_def]
  omega

/-- The bounds of the request lie in the range of machine integers, or behind the matches. -/
def InRange (total : Nat) (offset limit : Int64) : Prop :=
  total ≤ offset.toInt ∨ (0 ≤ offset.toInt ∧ offset.toInt + limit.toInt < 2 ^ 63)

theorem page_of_length_le {l : List α} {offset : Int} (h : l.length ≤ offset) :
    page l offset limit = [] := by
  rw [page, List.drop_eq_nil_iff, List.length_take]
  omega

theorem slice_page {l : List α} {offset : Int} (hoffset : 0 ≤ offset) (hlimit : 0 < limit)
    (h : offset < l.length) :
    slice l offset (min (offset + limit) l.length) = .ok (page l offset limit) := by
  rw [slice, if_pos (by omega), page, max_eq_right hoffset]

theorem listFiltered_eq_page_iff (offset : Int64) {limit : Int64} (hlimit : 0 < limit.toInt)
    (l : Listing lib equalFold filter items) :
    listFiltered lib equalFold S order offset limit filter items =
        .ok (page l.list offset.toInt limit.toInt, l.list.length) ↔
      InRange l.list.length offset limit := by
  rw [listFiltered_eq S order offset limit l, InRange]
  by_cases hpast : (l.list.length : Int) ≤ offset.toInt
  · rw [if_pos hpast, page_of_length_le hpast]
    exact iff_of_true rfl (.inl hpast)
  · rw [if_neg hpast]
    by_cases hoffset : 0 ≤ offset.toInt
    · rcases toInt_offset_add hlimit with ⟨hfits, hsum⟩ | ⟨hwraps, hsum⟩
      · rw [hsum, slice_page hoffset hlimit (by omega)]
        exact iff_of_true rfl (.inr ⟨hoffset, hfits⟩)
      · rw [slice, if_neg (by omega)]
        exact iff_of_false (by simp [Except.map]) (by omega)
    · rw [slice, if_neg (by omega)]
      exact iff_of_false (by simp [Except.map]) (by omega)

/-! ### All pages -/

theorem page_eq (l : List α) (k : Nat) (hlimit : 0 ≤ limit) :
    page l (k * limit) limit = (l.take ((k + 1) * limit.toNat)).drop (k * limit.toNat) := by
  obtain ⟨size, rfl⟩ := Int.eq_ofNat_of_zero_le hlimit
  have hend : min ((k * size + size : Nat) : Int) l.length = (min (k * size + size) l.length : Nat) := by
    omega
  rw [page, ← Int.natCast_mul, max_eq_right (Int.natCast_nonneg _), ← Int.natCast_add, hend,
    Int.toNat_natCast, Int.toNat_natCast, Int.toNat_natCast, Nat.succ_mul, ← List.take_eq_take_min]

/-- The pages of one size hold every match once, in the order of the listing. -/
theorem flatMap_page (l : List α) (n : Nat) (hlimit : 0 ≤ limit) (h : l.length ≤ n * limit) :
    ((List.range n).flatMap fun k : Nat => page l (k * limit) limit) = l := by
  rw [List.flatMap_congr fun k _ => page_eq l k hlimit, flatMap_pages, List.take_of_length_le]
  obtain ⟨size, rfl⟩ := Int.eq_ofNat_of_zero_le hlimit
  exact_mod_cast h

/-- A request gets its page exactly if its bounds are in range, and consecutive pages whose bounds are
    hold every match once. -/
theorem listFiltered_exact_iff (S : Sorter (Item lib)) (order : Visit (Item lib))
    (l : Listing lib equalFold filter items) (limit : Int64) (hlimit : 0 < limit.toInt) :
    (∀ offset : Int64, listFiltered lib equalFold S order offset limit filter items =
        .ok (page l.list offset.toInt limit.toInt, l.list.length) ↔
      InRange l.list.length offset limit) ∧
    ∀ n : Nat, n * limit.toInt < 2 ^ 63 → l.list.length ≤ n * limit.toInt →
      (∀ k < n, listFiltered lib equalFold S order (.ofInt (k * limit.toInt)) limit filter items =
        .ok (page l.list (k * limit.toInt) limit.toInt, l.list.length)) ∧
      ((List.range n).flatMap fun k : Nat => page l.list (k * limit.toInt) limit.toInt) = l.list := by
  refine ⟨fun offset => listFiltered_eq_page_iff S order offset hlimit l, fun n hfits hall => ⟨?_, ?_⟩⟩
  · intro k hk
    have hnext : (k + 1 : Int) * limit.toInt ≤ n * limit.toInt :=
      Int.mul_le_mul_of_nonneg_right (by omega) hlimit.le
    have hstart : 0 ≤ (k : Int) * limit.toInt := Int.mul_nonneg (by omega) hlimit.le
    rw [Int.add_mul, Int.one_mul] at hnext
    have htoInt : (Int64.ofInt (k * limit.toInt)).toInt = k * limit.toInt :=
      Int64.toInt_ofInt_of_le (by omega) (by omega)
    have hpage := listFiltered_eq_page_iff S order (.ofInt (k * limit.toInt)) hlimit l
    rw [htoInt] at hpage
    refine hpage.mpr (.inr ?_)
    rw [htoInt]
    omega
  · exact flatMap_page l.list n hlimit.le hall

end

/-- Three indicators, stored in another order than that of the listing. -/
def threeItems : Items sampleLib := sync sampleLib 1 (fun _ => []) <| ["c", "a", "b"].map fun id =>
  { id := utf8 id, type := utf8 "domain", value := utf8 (id ++ ".example") }

/-- The second page of two is cut at the end. -/
theorem listFiltered_exact_iff_three :
    InRange 3 2 2 ∧ (listFiltered sampleLib (· == ·) (Sorter.insertion _) .listed 2 2 {}
      threeItems).map (fun p => (p.1.map (·.1.id), p.2)) = .ok ([utf8 "c"], 3) := by
  have hrange : InRange 3 2 2 := .inr (by decide)
  have htotal : (sortedListing (· == ·) {} threeItems).list.length = 3 := by decide +kernel
  have hpage := ((listFiltered_exact_iff (Sorter.insertion _) .listed
    (sortedListing (· == ·) {} threeItems) 2 (by decide)).1 2).mpr (by rw [htotal]; exact hrange)
  refine ⟨hrange, ?_⟩
  rw [hpage]
  decide +kernel

/-- The page before the first one: a request with the offset -1. -/
theorem negative_offset_panics :
    listFiltered sampleLib (· == ·) (Sorter.insertion _) .listed (-1) 50 {} sampleStore.store.items =
      .error .outOfRange := by
  decide +kernel

end TaNode.Intel

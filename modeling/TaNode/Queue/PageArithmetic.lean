import TaNode.Queue.Listing

/-! Page arithmetic: how many rows a page of the push log makes the database read.

    The offset comes from the request and may be any `int`. It is added to the page size and multiplied
    before the cap is applied, so the cap sees a number that may have wrapped:

        offset + limit          0 ………… 2^61 ………… 2^62 ………… 2^62 + 2^61 ………… 2^63 ……
        (offset + limit) * 4    up to 2^63   negative   up to 2^63        negative
        rows read               ≤ 20000      all        ≤ 20000           all

    A negative number is below the cap, and `LIMIT` takes it for no limit. -/

namespace TaNode.Queue

/-- Where the slice of a page ends in a listing of `n` entries. -/
def pageStop (offset limit : Int) (n : Nat) : Int :=
  if pageEnd offset limit > n then n else pageEnd offset limit

/-- A page reads a bounded number of rows of each file, its end is the sum of offset and size, and its
    slice is inside the listing. -/
structure PageBounded (offset limit : Int) : Prop where
  fetch : 1 ≤ fetchSize offset limit ∧ fetchSize offset limit ≤ maxFetch
  rows : ∀ d status search, (fetchRows d status search (fetchSize offset limit)).length ≤ maxFetch
  ending : pageEnd offset limit = offset + limit
  slice : ∀ n : Nat, offset < n →
    0 ≤ offset ∧ offset ≤ pageStop offset limit n ∧ pageStop offset limit n ≤ n

theorem pageLimit_bounds (limit : Int) : 1 ≤ pageLimit limit ∧ pageLimit limit ≤ 200 := by
  rw [pageLimit]
  split_ifs with h
  · decide
  · omega

/-- A sum of two numbers that are not negative wraps to a negative one or not at all. -/
theorem pageEnd_cases {offset limit : Int} (hoffset : 0 ≤ offset ∧ offset < 2 ^ 63)
    (hlimit : 1 ≤ limit ∧ limit ≤ 200) :
    (offset + limit < 2 ^ 63 ∧ pageEnd offset limit = offset + limit) ∨
      (2 ^ 63 ≤ offset + limit ∧ pageEnd offset limit < 0) := by
  rw [pageEnd]
  rcases Int.lt_or_le (offset + limit) (2 ^ 63) with hlt | hge
  · exact .inl ⟨hlt, Int.bmod_eq_of_le (by omega) (by omega)⟩
  · refine .inr ⟨hge, ?_⟩
    rw [Int.bmod_def]
    split <;> omega

/-- Four times a number wraps to something positive in the lower half of each quarter of the range. -/
theorem four_mul_bmod_pos_iff {n : Int} :
    1 ≤ (n * fetchBuffer).bmod (2 ^ 64) ↔ 0 < n % 2 ^ 62 ∧ n % 2 ^ 62 < 2 ^ 61 := by
  rw [fetchBuffer, Int.bmod_def]
  split <;> omega

theorem fetchSize_le (offset limit : Int) : fetchSize offset limit ≤ maxFetch := by
  simp only [fetchSize]
  split_ifs <;> omega

theorem fetchSize_pos_iff {offset limit : Int} :
    1 ≤ fetchSize offset limit ↔ 1 ≤ (pageEnd offset limit * fetchBuffer).bmod (2 ^ 64) := by
  simp only [fetchSize, maxFetch]
  split_ifs <;> omega

/-- The rows of a file that a page reads are at most as many as the limit says, unless it is negative. -/
theorem fetchRows_length_le (d : Database) (status : Option Int) (search : Bytes) {fetch : Int}
    (h : 0 ≤ fetch) : (fetchRows d status search fetch).length ≤ fetch := by
  rw [fetchRows, List.length_map, sqlLimit, if_neg (Int.not_lt.mpr h), List.length_take]
  omega

theorem fetchRows_of_neg (d : Database) (status : Option Int) (search : Bytes) {fetch : Int}
    (h : fetch < 0) : fetchRows d status search fetch = fetchRows d status search (-1) := by
  simp only [fetchRows, sqlLimit]
  rw [if_pos h, if_pos (by decide)]

/-- For the `int`s of a request: the page is bounded exactly if the sum of offset and page size does not
    wrap and is in the lower half of a quarter of the range. -/
theorem pageBounded_iff (offset limit : Int64) :
    PageBounded (max offset.toInt 0) (pageLimit limit.toInt) ↔
      max offset.toInt 0 + pageLimit limit.toInt < 2 ^ 63 ∧
      0 < (max offset.toInt 0 + pageLimit limit.toInt) % 2 ^ 62 ∧
      (max offset.toInt 0 + pageLimit limit.toInt) % 2 ^ 62 < 2 ^ 61 := by
  have hoffset : 0 ≤ max offset.toInt 0 ∧ max offset.toInt 0 < 2 ^ 63 := by
    have := offset.toInt_lt
    omega
  have hlimit := pageLimit_bounds limit.toInt
  generalize max offset.toInt 0 = o at hoffset ⊢
  generalize pageLimit limit.toInt = l at hlimit ⊢
  have hends := pageEnd_cases hoffset hlimit
  constructor
  · rintro ⟨⟨hpos, -⟩, -, hend, -⟩
    rw [fetchSize_pos_iff, four_mul_bmod_pos_iff, hend] at hpos
    exact ⟨by omega, hpos⟩
  · rintro ⟨hlt, hquarter⟩
    have hend : pageEnd o l = o + l := by omega
    have hpos : 1 ≤ fetchSize o l := by
      rwa [fetchSize_pos_iff, four_mul_bmod_pos_iff, hend]
    refine ⟨⟨hpos, fetchSize_le o l⟩, fun d status search => ?_, hend, fun n hn => ?_⟩
    · exact (fetchRows_length_le d status search (by omega)).trans (fetchSize_le o l)
    · rw [pageStop, hend]
      split <;> omega

/-- An offset of `2^61` makes every file be read as a whole, whatever it holds, and with the largest
    offset there is always more. -/
theorem page_reads_everything :
    ¬ PageBounded (max (2305843009213693952 : Int64).toInt 0) (pageLimit (50 : Int64).toInt) ∧
    (∀ d status search, fetchRows d status search
      (fetchSize (max (2305843009213693952 : Int64).toInt 0) (pageLimit (50 : Int64).toInt)) =
        fetchRows d status search (-1)) ∧
    pageEnd (max (9223372036854775807 : Int64).toInt 0) (pageLimit (50 : Int64).toInt) < 0 := by
  have hneg : fetchSize (max (2305843009213693952 : Int64).toInt 0) (pageLimit (50 : Int64).toInt) < 0 := by
    decide +kernel
  refine ⟨fun h => ?_, fun d status search => fetchRows_of_neg d status search hneg, by decide +kernel⟩
  have := h.fetch.1
  omega

end TaNode.Queue

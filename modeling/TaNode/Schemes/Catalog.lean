import Mathlib.Data.List.Dedup
import Mathlib.Data.List.Perm.Basic

/-! Maps whose values carry their own key, and the loop that writes a batch of values into one.

    The map is the list of its values, no two with the same key, so a lookup is a membership. Each
    step of the loop writes one value under its target key and may read what stood there:

        distinct targets    every value written is in the result, in whatever order they come
        equal targets       only the last one written is left -/

namespace TaNode

/-- The order in which a loop visits the values of a map. -/
structure Visit (α : Type) where
  visit : List α → List α
  perm : ∀ l, (visit l).Perm l

namespace Visit
variable {α : Type}

/-- The order of the list itself. -/
def listed : Visit α := ⟨id, fun _ => List.Perm.refl _⟩

theorem mem (o : Visit α) {l : List α} {x : α} : x ∈ o.visit l ↔ x ∈ l := (o.perm l).mem_iff

/-- The order that visits one value last. -/
def last [DecidableEq α] (x : α) : Visit α where
  visit l := if x ∈ l then l.erase x ++ [x] else l
  perm l := by
    split
    · exact List.perm_append_comm.trans (List.perm_cons_erase ‹_›).symm
    · exact List.Perm.refl _

theorem visit_last [DecidableEq α] {x : α} {l : List α} (hx : x ∈ l) :
    (last x).visit l = l.erase x ++ [x] := if_pos hx

end Visit

/-- Values with pairwise distinct keys. -/
structure Catalog {α κ : Type} (key : α → κ) where
  list : List α
  distinct : (list.map key).Nodup

namespace Catalog
variable {α κ : Type} {key : α → κ}

instance : Membership α (Catalog key) := ⟨fun c x => x ∈ c.list⟩

theorem mem_iff {c : Catalog key} {x : α} : x ∈ c ↔ x ∈ c.list := Iff.rfl

/-- A key names one value. -/
theorem eq_of_key {c : Catalog key} {x y : α} (hx : x ∈ c) (hy : y ∈ c) (h : key x = key y) :
    x = y :=
  List.inj_on_of_nodup_map c.distinct hx hy h

def empty : Catalog key := ⟨[], List.nodup_nil⟩

@[simp] theorem not_mem_empty {x : α} : ¬ x ∈ (empty : Catalog key) := List.not_mem_nil

/-- The values left when those with `p` are deleted. -/
def deleteWhere (p : α → Bool) (c : Catalog key) : Catalog key :=
  ⟨c.list.filter (fun x => !p x), c.distinct.sublist (List.filter_sublist.map key)⟩

@[simp] theorem mem_deleteWhere {p : α → Bool} {c : Catalog key} {x : α} :
    x ∈ c.deleteWhere p ↔ x ∈ c ∧ p x = false := by
  simp [deleteWhere, mem_iff]

/-- The value itself, whatever stood there. -/
def replace (x : α) (_ : Option α) : α := x

theorem key_replace (x : α) (prev : Option α) : key (replace x prev) = key x := rfl

variable [DecidableEq κ]

def get? (c : Catalog key) (k : κ) : Option α := c.list.find? (fun x => key x = k)

variable {k : κ}

theorem get?_eq_some {c : Catalog key} {x : α} : c.get? k = some x ↔ x ∈ c ∧ key x = k := by
  have hfound : ∀ y, c.get? k = some y → y ∈ c ∧ key y = k := by
    intro y h
    have hkey := List.find?_some h
    exact ⟨List.mem_of_find?_eq_some h, of_decide_eq_true hkey⟩
  refine ⟨hfound x, ?_⟩
  rintro ⟨hx, hkx⟩
  cases h : c.get? k with
  | none => exact absurd (decide_eq_true hkx) (List.find?_eq_none.mp h x hx)
  | some y => rw [eq_of_key (hfound y h).1 hx ((hfound y h).2.trans hkx.symm)]

theorem get?_eq_none {c : Catalog key} : c.get? k = none ↔ ∀ x ∈ c, key x ≠ k := by
  simp [get?, mem_iff]

/-- Writes a value under its key. -/
def put (x : α) (c : Catalog key) : Catalog key where
  list := x :: c.list.filter (fun y => key y ≠ key x)
  distinct := by
    rw [List.map_cons, List.nodup_cons]
    refine ⟨?_, c.distinct.sublist (List.filter_sublist.map key)⟩
    simp

@[simp] theorem mem_put {x y : α} {c : Catalog key} :
    y ∈ c.put x ↔ y = x ∨ y ∈ c ∧ key y ≠ key x := by
  simp [put, mem_iff]

theorem get?_put {x : α} {c : Catalog key} :
    (c.put x).get? k = if k = key x then some x else c.get? k := by
  split
  · exact get?_eq_some.mpr ⟨mem_put.mpr (.inl rfl), by simp [*]⟩
  · ext y
    simp only [get?_eq_some, mem_put]
    grind

/-! ### Writing a batch -/

section
variable {β : Type} {target : β → κ} {write : β → Option α → α}

/-- Writes one value of the batch, made from what stands under its target. -/
def upsert (target : β → κ) (write : β → Option α → α) (c : Catalog key) (b : β) : Catalog key :=
  c.put (write b (c.get? (target b)))

/-- Writes the batch in the order given. -/
def upsertAll (target : β → κ) (write : β → Option α → α) (c : Catalog key) (bs : List β) :
    Catalog key :=
  bs.foldl (upsert target write) c

/-- Writes values that do not depend on what stood there. -/
def putAll (c : Catalog key) (xs : List α) : Catalog key := c.upsertAll key replace xs

section
variable (hkey : ∀ b prev, key (write b prev) = target b)
include hkey

theorem get?_upsert {c : Catalog key} {b : β} : (c.upsert target write b).get? k =
      if k = target b then some (write b (c.get? k)) else c.get? k := by
  rw [upsert, get?_put, hkey]
  split
  · simp [*]
  · rfl

omit hkey in
/-- A key that no value of the batch targets keeps its value. -/
theorem get?_upsertAll_other (hkey : ∀ b prev, key (write b prev) = target b) {k : κ} :
    ∀ {bs : List β} {c : Catalog key}, k ∉ bs.map target →
      (c.upsertAll target write bs).get? k = c.get? k
  | [], _, _ => rfl
  | b :: bs, c, h => by
    rw [List.map_cons, List.mem_cons, not_or] at h
    rw [upsertAll, List.foldl_cons, ← upsertAll, get?_upsertAll_other hkey h.2, get?_upsert hkey,
      if_neg h.1]

omit hkey in
/-- With distinct targets every value is written from what stood there before. -/
theorem get?_upsertAll_distinct (hkey : ∀ b prev, key (write b prev) = target b) :
    ∀ {bs : List β} {c : Catalog key}, (bs.map target).Nodup → ∀ b ∈ bs,
      (c.upsertAll target write bs).get? (target b) = some (write b (c.get? (target b)))
  | a :: bs, c, hnodup, b, hb => by
    rw [List.map_cons, List.nodup_cons] at hnodup
    rw [upsertAll, List.foldl_cons, ← upsertAll]
    rcases List.mem_cons.mp hb with rfl | hb
    · rw [get?_upsertAll_other hkey hnodup.1, get?_upsert hkey, if_pos rfl]
    · have hne : target b ≠ target a := by
        intro h
        exact hnodup.1 (h ▸ List.mem_map_of_mem hb)
      rw [get?_upsertAll_distinct hkey hnodup.2 b hb, get?_upsert hkey, if_neg hne]

omit hkey in
/-- Under a target stands one of the values written there. -/
theorem get?_upsertAll_target (hkey : ∀ b prev, key (write b prev) = target b) :
    ∀ {bs : List β} {c : Catalog key}, ∀ b ∈ bs, ∃ a ∈ bs, target a = target b ∧
      ∃ prev, (c.upsertAll target write bs).get? (target b) = some (write a prev)
  | a :: bs, c, b, hb => by
    rw [upsertAll, List.foldl_cons, ← upsertAll]
    by_cases hlater : target b ∈ bs.map target
    · obtain ⟨b', hb', heq⟩ := List.mem_map.mp hlater
      obtain ⟨a', ha', htarget, prev, hget⟩ := get?_upsertAll_target hkey b' hb'
      exact ⟨a', List.mem_cons_of_mem _ ha', htarget.trans heq, prev, heq ▸ hget⟩
    · rcases List.mem_cons.mp hb with rfl | hb
      · refine ⟨b, List.mem_cons_self, rfl, c.get? (target b), ?_⟩
        rw [get?_upsertAll_other hkey hlater, get?_upsert hkey, if_pos rfl]
      · exact absurd (List.mem_map_of_mem hb) hlater

/-- A value of the result was there before, or it was written. -/
theorem mem_upsertAll {bs : List β} {c : Catalog key} {x : α} (hx : x ∈ c.upsertAll target write bs) :
    (x ∈ c ∧ key x ∉ bs.map target) ∨ ∃ b ∈ bs, target b = key x ∧ ∃ prev, x = write b prev := by
  have hget := get?_eq_some.mpr ⟨hx, rfl⟩
  by_cases h : key x ∈ bs.map target
  · obtain ⟨b, hb, heq⟩ := List.mem_map.mp h
    obtain ⟨a, ha, htarget, prev, hwrite⟩ := get?_upsertAll_target hkey (c := c) b hb
    rw [heq] at htarget hwrite
    exact .inr ⟨a, ha, htarget, prev, Option.some.inj (hget.symm.trans hwrite)⟩
  · rw [get?_upsertAll_other hkey h] at hget
    exact .inl ⟨(get?_eq_some.mp hget).1, h⟩

/-- A value whose key no value of the batch targets is still there. -/
theorem mem_upsertAll_of_mem {bs : List β} {c : Catalog key} {x : α} (hx : x ∈ c)
    (h : key x ∉ bs.map target) : x ∈ c.upsertAll target write bs := by
  have hget : (c.upsertAll target write bs).get? (key x) = some x := by
    rw [get?_upsertAll_other hkey h]
    exact get?_eq_some.mpr ⟨hx, rfl⟩
  exact (get?_eq_some.mp hget).1

theorem mem_keys_upsertAll {bs : List β} {c : Catalog key} {k : κ} :
    k ∈ (c.upsertAll target write bs).list.map key ↔ k ∈ c.list.map key ∨ k ∈ bs.map target := by
  constructor
  · rintro h
    obtain ⟨x, hx, rfl⟩ := List.mem_map.mp h
    rcases mem_upsertAll hkey hx with ⟨hold, -⟩ | ⟨b, hb, htarget, -⟩
    · exact .inl (List.mem_map_of_mem hold)
    · exact .inr (htarget ▸ List.mem_map_of_mem hb)
  · intro h
    by_cases hwritten : k ∈ bs.map target
    · obtain ⟨b, hb, rfl⟩ := List.mem_map.mp hwritten
      obtain ⟨a, -, htarget, prev, hget⟩ := get?_upsertAll_target hkey (c := c) b hb
      obtain ⟨hx, heq⟩ := get?_eq_some.mp hget
      exact heq ▸ List.mem_map_of_mem hx
    · obtain ⟨x, hx, rfl⟩ := List.mem_map.mp (h.resolve_right hwritten)
      exact List.mem_map_of_mem (mem_upsertAll_of_mem hkey hx hwritten)

/-- The result has as many values as there are keys, old and written, each counted once. -/
theorem length_upsertAll {bs : List β} {c : Catalog key} :
    (c.upsertAll target write bs).list.length = (c.list.map key ++ bs.map target).dedup.length := by
  have hperm : ((c.upsertAll target write bs).list.map key).Perm
      (c.list.map key ++ bs.map target).dedup := by
    refine (List.perm_ext_iff_of_nodup (distinct _) (List.nodup_dedup _)).mpr fun k => ?_
    rw [mem_keys_upsertAll hkey, List.mem_dedup, List.mem_append]
  rw [← hperm.length_eq, List.length_map]

end

end

section
variable {c : Catalog key} {xs : List α} {x : α}

theorem mem_putAll (hx : x ∈ c.putAll xs) : (x ∈ c ∧ key x ∉ xs.map key) ∨ x ∈ xs := by
  rw [putAll] at hx
  rcases mem_upsertAll key_replace hx with h | ⟨y, hy, _, _, rfl⟩
  · exact .inl h
  · exact .inr hy

theorem mem_putAll_of_mem (hx : x ∈ c) (h : key x ∉ xs.map key) : x ∈ c.putAll xs := by
  rw [putAll]
  exact mem_upsertAll_of_mem key_replace hx h

theorem length_putAll :
    (c.putAll xs).list.length = (c.list.map key ++ xs.map key).dedup.length := by
  rw [putAll, length_upsertAll key_replace]

/-- Of the values written under one key, one is there. -/
theorem exists_mem_putAll (hx : x ∈ xs) : ∃ y ∈ xs, key y = key x ∧ y ∈ c.putAll xs := by
  obtain ⟨y, hy, heq, _, hget⟩ := get?_upsertAll_target key_replace (c := c) x hx
  exact ⟨y, hy, heq, (get?_eq_some.mp hget).1⟩

/-- Values with distinct keys, written into an empty map, are the map. -/
theorem mem_putAll_empty (h : (xs.map key).Nodup) : x ∈ (empty : Catalog key).putAll xs ↔ x ∈ xs := by
  constructor
  · intro hx
    rcases mem_putAll hx with ⟨hempty, -⟩ | hx
    · exact absurd hempty not_mem_empty
    · exact hx
  · intro hx
    obtain ⟨y, hy, heq, hmem⟩ := exists_mem_putAll (c := (empty : Catalog key)) hx
    rwa [List.inj_on_of_nodup_map h hy hx heq] at hmem

end

end Catalog

/-! ### Maps to lists -/

/-- A map from keys to the lists of the values appended under them. -/
abbrev Buckets (κ α : Type) := Catalog (Prod.fst : κ × List α → κ)

namespace Buckets
variable {κ α : Type} [DecidableEq κ]

/-- The values under a key, none if the key is not there. -/
def bucket (b : Buckets κ α) (k : κ) : List α := (b.get? k).elim [] Prod.snd

def append (b : Buckets κ α) (k : κ) (x : α) : Buckets κ α := b.put (k, b.bucket k ++ [x])

@[simp] theorem mem_bucket_empty {x : α} :
    ¬ x ∈ bucket (Catalog.empty : Buckets κ α) k := List.not_mem_nil

@[simp] theorem mem_bucket_append {b : Buckets κ α} {k' : κ} {x y : α} :
    y ∈ (b.append k x).bucket k' ↔ y ∈ b.bucket k' ∨ y = x ∧ k' = k := by
  rw [append, bucket, Catalog.get?_put]
  split
  · rename_i h
    subst h
    simp
  · rename_i h
    simp [bucket, h]

/-- Appends the value if it has a key. -/
def appendAt (b : Buckets κ α) (k : Option κ) (x : α) : Buckets κ α := k.elim b (b.append · x)

theorem mem_bucket_appendAt {b : Buckets κ α} {o : Option κ} {x y : α} :
    y ∈ (b.appendAt o x).bucket k ↔ y ∈ b.bucket k ∨ y = x ∧ o = some k := by
  cases o with
  | none => simp [appendAt]
  | some k' => simp [appendAt, eq_comm]

/-- A value under a key is in the entry of that key. -/
theorem mem_bucket_iff {b : Buckets κ α} {x : α} : x ∈ b.bucket k ↔ ∃ e ∈ b, e.1 = k ∧ x ∈ e.2 := by
  rw [bucket]
  constructor
  · intro hx
    cases hget : b.get? k with
    | none =>
      rw [hget] at hx
      exact absurd hx List.not_mem_nil
    | some e =>
      rw [hget] at hx
      obtain ⟨he, hk⟩ := Catalog.get?_eq_some.mp hget
      exact ⟨e, he, hk, hx⟩
  · rintro ⟨e, he, hk, hx⟩
    rw [Catalog.get?_eq_some.mpr ⟨he, hk⟩]
    exact hx

end Buckets

/-! ### Loops over keys -/

/-- A loop over distinct keys whose step changes the cell of its key only. -/
theorem foldl_cell {σ κ α : Type} [DecidableEq κ] {step : σ → κ → σ} {cell : σ → κ → α}
    {change : κ → α → α}
    (hstep : ∀ s k k', cell (step s k) k' = if k' = k then change k (cell s k) else cell s k') :
    ∀ {ks : List κ}, ks.Nodup → ∀ s k,
      cell (ks.foldl step s) k = if k ∈ ks then change k (cell s k) else cell s k
  | [], _, _, _ => by simp
  | k' :: ks, hnodup, s, k => by
    obtain ⟨hnot, hnodup⟩ := List.nodup_cons.mp hnodup
    rw [List.foldl_cons, foldl_cell hstep hnodup, hstep]
    by_cases hk : k = k'
    · rw [if_pos hk, hk, if_neg hnot, if_pos List.mem_cons_self]
    · simp only [hk, if_false, List.mem_cons, false_or]

end TaNode

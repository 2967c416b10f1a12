import Mathlib.Data.List.AList

/-! Keyed tables and transactions, the two ingredients of a program over a SQL database.

    A table with a primary key is an association list whose keys are distinct, so a duplicate key
    cannot be built. A transaction is a state computation that either returns a new state or fails
    and leaves nothing behind; `bind_ok` takes a successful one apart step by step. -/

namespace TaNode

/-- A table with primary key `κ` and row contents `ν`. -/
abbrev Table (κ ν : Type) := AList (fun _ : κ => ν)

namespace Table
variable {κ ν : Type} {p : κ → ν → Bool} {t : Table κ ν} {k : κ} {v : ν}

/-- `DELETE … WHERE p key row`. -/
def deleteWhere (p : κ → ν → Bool) (t : Table κ ν) : Table κ ν :=
  ⟨t.entries.filter (fun e => !p e.1 e.2), t.nodupKeys.sublist List.filter_sublist⟩

theorem mem_entries_deleteWhere {e : (_ : κ) × ν} :
    e ∈ (deleteWhere p t).entries ↔ e ∈ t.entries ∧ p e.1 e.2 = false := by
  simp [deleteWhere, List.mem_filter]

/-- `UPDATE … SET`: every row rewritten by `f`, the keys kept. -/
def update (f : κ → ν → ν) (t : Table κ ν) : Table κ ν :=
  ⟨t.entries.map (fun e => ⟨e.1, f e.1 e.2⟩), by
    have hkeys : (t.entries.map (fun e : (_ : κ) × ν => (⟨e.1, f e.1 e.2⟩ : (_ : κ) × ν))).keys =
        t.entries.keys := by simp [List.keys, Function.comp_def]
    rw [List.NodupKeys, hkeys]
    exact t.nodupKeys⟩

theorem mem_entries_update {f : κ → ν → ν} {e : (_ : κ) × ν} :
    e ∈ (update f t).entries ↔ ∃ v, (⟨e.1, v⟩ : (_ : κ) × ν) ∈ t.entries ∧ e.2 = f e.1 v := by
  simp only [update, List.mem_map]
  constructor
  · rintro ⟨d, hd, rfl⟩; exact ⟨d.2, hd, rfl⟩
  · rintro ⟨v, hv, he⟩; exact ⟨_, hv, by rw [← he]⟩

variable [DecidableEq κ]

/-- `t` holds every row of `s` unchanged. -/
def Sub (s t : Table κ ν) : Prop := ∀ k v, s.lookup k = some v → t.lookup k = some v

theorem Sub.refl (s : Table κ ν) : Sub s s := fun _ _ h => h

theorem Sub.trans {s u : Table κ ν} (h₁ : Sub s t) (h₂ : Sub t u) : Sub s u :=
  fun k v h => h₂ k v (h₁ k v h)

/-- Inserting under a fresh key changes no existing row. -/
theorem sub_insert {s : Table κ ν} (h : s.lookup k = none) (v : ν) : Sub s (s.insert k v) := by
  intro k' v' h'
  have hne : k' ≠ k := by rintro rfl; rw [h] at h'; exact absurd h' (by simp)
  rw [AList.lookup_insert_ne hne]; exact h'

/-- A lookup is membership of the row. -/
theorem lookup_eq_some_iff :
    t.lookup k = some v ↔ (⟨k, v⟩ : (_ : κ) × ν) ∈ t.entries := AList.mem_lookup_iff

theorem lookup_deleteWhere :
    (deleteWhere p t).lookup k = some v ↔ t.lookup k = some v ∧ p k v = false := by
  rw [lookup_eq_some_iff, lookup_eq_some_iff, mem_entries_deleteWhere]

theorem lookup_update {f : κ → ν → ν} : (update f t).lookup k = (t.lookup k).map (f k) := by
  ext v
  rw [Option.map_eq_some_iff]
  simp only [lookup_eq_some_iff, mem_entries_update]
  exact ⟨fun ⟨u, hu, he⟩ => ⟨u, hu, he.symm⟩, fun ⟨u, hu, he⟩ => ⟨u, hu, he.symm⟩⟩

/-- A lookup after an insert. -/
theorem lookup_insert_iff {k' : κ} {v' : ν} :
    (t.insert k v).lookup k' = some v' ↔ (k' = k ∧ v' = v) ∨ (k' ≠ k ∧ t.lookup k' = some v') := by
  by_cases h : k' = k
  · subst h; rw [AList.lookup_insert]; simp [eq_comm]
  · rw [AList.lookup_insert_ne h]; simp [h]

theorem length_insert_of_isSome (h : (t.lookup k).isSome) :
    (t.insert k v).entries.length = t.entries.length := by
  have hmem : k ∈ t.keys := AList.mem_keys.mpr (AList.lookup_isSome.mp h)
  have hkeys := congrArg List.length (AList.keys_insert (b := v) (s := t) (a := k))
  rw [List.length_cons, List.length_erase_of_mem hmem] at hkeys
  have hpos := List.length_pos_of_mem hmem
  simp only [AList.keys, List.keys, List.length_map] at hkeys hpos
  omega

theorem length_insert_le : (t.insert k v).entries.length ≤ t.entries.length + 1 := by
  have hkeys := congrArg List.length (AList.keys_insert (b := v) (s := t) (a := k))
  have hle := List.length_erase_le (a := k) (l := t.keys)
  simp only [List.length_cons, AList.keys, List.keys, List.length_map] at hkeys hle
  omega

/-- A row that satisfies `p`, if there is one. -/
theorem any_iff :
    t.entries.any (fun e => p e.1 e.2) = true ↔ ∃ k v, t.lookup k = some v ∧ p k v = true := by
  rw [List.any_eq_true]
  constructor
  · rintro ⟨⟨k, v⟩, hm, hp⟩; exact ⟨k, v, lookup_eq_some_iff.mpr hm, hp⟩
  · rintro ⟨k, v, hl, hp⟩; exact ⟨⟨k, v⟩, lookup_eq_some_iff.mp hl, hp⟩

end Table

/-! ### Transactions -/

/-- A transaction over states `σ` with errors `ε`. -/
abbrev Tx (σ ε α : Type) := StateT σ (Except ε) α

namespace Tx
variable {σ ε α β : Type} {s s' : σ} {x : Except ε α} {a : α} {b : β}

theorem bind_ok {x : Tx σ ε α} {f : α → Tx σ ε β} {s'' : σ} :
    (x >>= f) s = .ok (b, s'') ↔ ∃ a s', x s = .ok (a, s') ∧ f a s' = .ok (b, s'') := by
  simp only [Bind.bind, StateT.bind, Except.bind]
  cases hx : x s with
  | error e => simp
  | ok p => exact ⟨fun h => ⟨p.1, p.2, rfl, h⟩, fun ⟨a, s', h, h'⟩ => by cases h; exact h'⟩

@[simp] theorem pure_ok {b : α} : (pure a : Tx σ ε α) s = .ok (b, s') ↔ a = b ∧ s = s' := by
  change Except.ok (a, s) = .ok (b, s') ↔ _
  simp

@[simp] theorem throw_ok {e : ε} : (throw e : Tx σ ε α) s = .ok (a, s') ↔ False := by
  simp [throw, throwThe, MonadExceptOf.throw, StateT.lift, Bind.bind, Except.bind]

@[simp] theorem get_ok {a : σ} : (get : Tx σ ε σ) s = .ok (a, s') ↔ a = s ∧ s' = s := by
  simp only [get, getThe, MonadStateOf.get, StateT.get, Pure.pure, Except.pure, Except.ok.injEq,
    Prod.mk.injEq]
  constructor <;> rintro ⟨rfl, rfl⟩ <;> exact ⟨rfl, rfl⟩

@[simp] theorem modify_ok {f : σ → σ} {u : PUnit} :
    (modify f : Tx σ ε PUnit) s = .ok (u, s') ↔ s' = f s := by
  simp only [modify, modifyGet, MonadStateOf.modifyGet, StateT.modifyGet, Pure.pure, Except.pure,
    Except.ok.injEq, Prod.mk.injEq, true_and]
  exact eq_comm

@[simp] theorem lift_ok : (liftM x : Tx σ ε α) s = .ok (a, s') ↔ x = .ok a ∧ s' = s := by
  simp only [liftM, monadLift, MonadLift.monadLift, StateT.lift, Bind.bind, Except.bind, Pure.pure,
    Except.pure]
  cases x with
  | error e => simp
  | ok b => simp [eq_comm]

/-- Reading the state. -/
theorem get_bind_ok {f : σ → Tx σ ε β} : (get >>= f) s = .ok (b, s') ↔ f s s = .ok (b, s') := by
  rw [bind_ok]
  constructor
  · rintro ⟨a, t, h, h'⟩
    obtain ⟨rfl, rfl⟩ := get_ok.mp h
    exact h'
  · exact fun h => ⟨s, s, get_ok.mpr ⟨rfl, rfl⟩, h⟩

/-- A step that leaves the state alone. -/
theorem lift_bind_ok {f : α → Tx σ ε β} :
    (liftM x >>= f : Tx σ ε β) s = .ok (b, s') ↔ ∃ a, x = .ok a ∧ f a s = .ok (b, s') := by
  rw [bind_ok]
  constructor
  · rintro ⟨a, t, h, h'⟩
    obtain ⟨hx, rfl⟩ := lift_ok.mp h
    exact ⟨a, hx, h'⟩
  · rintro ⟨a, hx, h⟩
    exact ⟨a, s, lift_ok.mpr ⟨hx, rfl⟩, h⟩

/-- A loop takes its first step and then the rest. -/
theorem forM_cons_ok {f : α → Tx σ ε PUnit} {x : α} {xs : List α} {s'' : σ} {u : PUnit} :
    ((x :: xs).forM f) s = .ok (u, s'') ↔
      ∃ s', f x s = .ok (⟨⟩, s') ∧ (xs.forM f) s' = .ok (⟨⟩, s'') := by
  rw [List.forM_eq_forM, List.forM_cons, bind_ok]
  exact ⟨fun ⟨_, s', h, h'⟩ => ⟨s', h, h'⟩, fun ⟨s', h, h'⟩ => ⟨⟨⟩, s', h, h'⟩⟩

end Tx

/-! ### Computations that may fail -/

section
variable {ε α β : Type} {x : Except ε α} {f g : α → Except ε β} {a : α} {b : β}

/-- A successful bind of `Except` had a successful left side. -/
theorem except_bind_ok : (x >>= f) = .ok b ↔ ∃ a, x = .ok a ∧ f a = .ok b := by
  cases x with
  | error | ok => simp [Bind.bind, Except.bind]

@[simp] theorem except_pure_ok {b : α} : (pure a : Except ε α) = .ok b ↔ a = b := by
  simp [Pure.pure, Except.pure]

/-- The value of a computation that is known to succeed. -/
theorem except_toOption_some : x.toOption = some a ↔ x = .ok a := by
  cases x <;> simp [Except.toOption]

theorem except_isOk : x.isOk = true ↔ ∃ a, x = .ok a := by
  cases x <;> simp [Except.isOk, Except.toBool]

/-- A successful `mapM` succeeded at the head and on the tail. -/
theorem mapM_cons_ok {x : α} {xs : List α} {ys : List β} : (x :: xs).mapM f = .ok ys ↔
      ∃ y ys', f x = .ok y ∧ xs.mapM f = .ok ys' ∧ ys = y :: ys' := by
  rw [List.mapM_cons, except_bind_ok]
  constructor
  · rintro ⟨y, hy, h⟩
    obtain ⟨ys', hys, h⟩ := except_bind_ok.mp h
    exact ⟨y, ys', hy, hys, (except_pure_ok.mp h).symm⟩
  · rintro ⟨y, ys', hy, hys, rfl⟩
    exact ⟨y, hy, except_bind_ok.mpr ⟨ys', hys, rfl⟩⟩

theorem except_bind_congr (h : ∀ a, x = .ok a → f a = g a) : (x >>= f) = x >>= g := by
  cases x with
  | error e => rfl
  | ok a => exact h a rfl

theorem mapM_congr : ∀ {xs : List α}, (∀ x ∈ xs, f x = g x) → xs.mapM f = xs.mapM g
  | [], _ => rfl
  | x :: xs, h => by
    rw [List.forall_mem_cons] at h
    rw [List.mapM_cons, List.mapM_cons, h.1, mapM_congr h.2]

/-- `mapM` of a function that agrees wherever the other succeeds. -/
theorem mapM_ok_mono : ∀ {xs : List α} {ys : List β},
    (∀ x ∈ xs, ∀ y, f x = .ok y → g x = .ok y) → xs.mapM f = .ok ys → xs.mapM g = .ok ys
  | [], _, _, h => h
  | x :: xs, ys, hfg, h => by
    obtain ⟨y, ys', hy, hys, rfl⟩ := mapM_cons_ok.mp h
    exact mapM_cons_ok.mpr ⟨y, ys', hfg x (by simp) y hy,
      mapM_ok_mono (fun z hz => hfg z (List.mem_cons_of_mem _ hz)) hys, rfl⟩

/-- A successful `mapM` pairs every element with its result. -/
theorem mapM_ok_iff : ∀ {xs : List α} {ys : List β},
    xs.mapM f = .ok ys ↔ List.Forall₂ (fun x y => f x = .ok y) xs ys
  | [], ys => by
    rw [List.mapM_nil, except_pure_ok, List.forall₂_nil_left_iff]
    exact eq_comm
  | x :: xs, ys => by
    rw [mapM_cons_ok, List.forall₂_cons_left_iff]
    constructor
    · rintro ⟨y, ys', hy, hys, rfl⟩
      exact ⟨y, ys', hy, mapM_ok_iff.mp hys, rfl⟩
    · rintro ⟨y, ys', hy, hys, rfl⟩
      exact ⟨y, ys', hy, mapM_ok_iff.mpr hys, rfl⟩

/-- Where a result of `mapM` comes from. -/
theorem exists_of_mem_mapM {y : β} : ∀ {xs : List α} {ys : List β},
    xs.mapM f = .ok ys → y ∈ ys → ∃ x ∈ xs, f x = .ok y
  | [], ys, h, hy => by
    rw [List.mapM_nil, except_pure_ok] at h
    rw [← h] at hy
    simp at hy
  | x :: xs, ys, h, hy => by
    obtain ⟨y', ys', hx, hxs, rfl⟩ := mapM_cons_ok.mp h
    rcases List.mem_cons.mp hy with rfl | hy
    · exact ⟨x, by simp, hx⟩
    · obtain ⟨x', hx', hy'⟩ := exists_of_mem_mapM hxs hy
      exact ⟨x', List.mem_cons_of_mem _ hx', hy'⟩

/-- What `mapM` makes of an element. -/
theorem exists_mem_mapM {x : α} : ∀ {xs : List α} {ys : List β},
    xs.mapM f = .ok ys → x ∈ xs → ∃ y ∈ ys, f x = .ok y
  | [], _, _, hx => by simp at hx
  | z :: xs, ys, h, hx => by
    obtain ⟨y', ys', hz, hxs, rfl⟩ := mapM_cons_ok.mp h
    rcases List.mem_cons.mp hx with rfl | hx
    · exact ⟨y', by simp, hz⟩
    · obtain ⟨y, hy, hxy⟩ := exists_mem_mapM hxs hx
      exact ⟨y, List.mem_cons_of_mem _ hy, hxy⟩

/-- `mapM` of a function that succeeds everywhere. -/
theorem mapM_ok_of_forall : ∀ {xs : List α}, (∀ x ∈ xs, ∃ y, f x = .ok y) → ∃ ys, xs.mapM f = .ok ys
  | [], _ => ⟨[], rfl⟩
  | x :: xs, h => by
    obtain ⟨y, hy⟩ := h x (by simp)
    obtain ⟨ys, hys⟩ := mapM_ok_of_forall fun z hz => h z (List.mem_cons_of_mem _ hz)
    exact ⟨y :: ys, mapM_cons_ok.mpr ⟨y, ys, hy, hys, rfl⟩⟩

/-- Whatever error the computation ends with satisfies `p`. -/
def FailsOnly (p : ε → Prop) (x : Except ε α) : Prop := ∀ e, x = .error e → p e

variable {p : ε → Prop}

@[simp] theorem failsOnly_ok (a : α) : FailsOnly p (.ok a : Except ε α) := fun _ h => by cases h

@[simp] theorem failsOnly_pure (a : α) : FailsOnly p (pure a : Except ε α) := failsOnly_ok a

@[simp] theorem failsOnly_error {e : ε} : FailsOnly p (.error e : Except ε α) ↔ p e :=
  ⟨fun h => h e rfl, fun h _ he => by cases he; exact h⟩

theorem FailsOnly.bind (hx : FailsOnly p x) (hf : ∀ a, x = .ok a → FailsOnly p (f a)) :
    FailsOnly p (x >>= f) := by
  cases x with
  | error e => exact fun e' he => hx e' (by cases he; rfl)
  | ok a => exact hf a rfl

theorem FailsOnly.mapM : ∀ {xs : List α}, (∀ x ∈ xs, FailsOnly p (f x)) → FailsOnly p (xs.mapM f)
  | [], _ => failsOnly_pure _
  | x :: xs, h => by
    rw [List.mapM_cons]
    refine (h x (by simp)).bind fun y _ => FailsOnly.bind ?_ fun ys _ => failsOnly_pure _
    exact FailsOnly.mapM fun z hz => h z (List.mem_cons_of_mem _ hz)

end

end TaNode

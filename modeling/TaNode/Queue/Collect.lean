import Mathlib.Data.Set.Finite.Basic
import TaNode.Queue.Integrity

/-! Completeness of garbage collection.

    `Collect` deletes nodes that are neither roots nor referenced, pass after pass, until a pass finds
    none or the limit is reached:

        root ──▶ a        x ──▶ y ──▶ z        pass 1: x     pass 2: y     pass 3: z

    A pass that finds nothing leaves no garbage, and in a graph without cycles no garbage means that
    every node is live. So a call that stops short of its limit leaves exactly what the roots reach. -/

namespace TaNode.Queue

variable {C : Codec} {scan : Store → List String}

/-- A `SELECT` over `queue_content` lists each row once, in some order. -/
def ListsRows (scan : Store → List String) : Prop := ∀ s, (scan s).Perm s.objects.keys

/-! ### When the loop is done -/

theorem unreferenced_of_garbage {db : Db} {id : String} (hnode : db.graph.node id)
    (h : db.graph.Garbage id) : unreferenced db id = true := by
  obtain ⟨row, hrow⟩ := hnode
  obtain ⟨hroot, hedge⟩ := h
  simp only [unreferenced, Bool.and_eq_true, Bool.not_eq_true', decide_eq_true_eq]
  refine ⟨⟨by rw [hrow]; rfl, ?_⟩, fun e he heq => hedge e.1 (heq ▸ he)⟩
  rw [Bool.eq_false_iff]
  intro hany
  obtain ⟨key, hash, hkey, heq⟩ :=
    (Table.any_iff (p := fun (_ : String) (h : String) => h == id)).mp hany
  exact hroot ⟨key, (beq_iff_eq.mp heq) ▸ hkey⟩

/-- A pass that deletes nothing has found nothing to delete. -/
theorem collectPass_done (hscan : ListsRows scan) {limit : Nat} (hlimit : limit ≠ 0) {db : Db}
    (h : (collectPass scan limit db).1 = 0) (id : String) : unreferenced db id = false := by
  rw [collectPass] at h
  have hnone : (scan db.content).filter (unreferenced db) = [] := by
    rcases List.take_eq_nil_iff.mp (List.length_eq_zero_iff.mp h) with hzero | hnil
    · exact absurd hzero hlimit
    · exact hnil
  rw [Bool.eq_false_iff]
  intro hfree
  have hsome : (db.content.objects.lookup id).isSome := by
    simp only [unreferenced, Bool.and_eq_true] at hfree
    exact hfree.1.1
  have hlisted : id ∈ scan db.content :=
    (hscan db.content).mem_iff.mpr (AList.mem_keys.mpr (AList.lookup_isSome.mp hsome))
  exact List.filter_eq_nil_iff.mp hnone id hlisted hfree

/-- A loop that stays below its limit ends with a pass that finds nothing. -/
theorem collectLoop_done (hscan : ListsRows scan) : ∀ {fuel limit : Nat} {db : Db}, limit ≤ fuel →
    (collectLoop scan fuel limit db).1 < limit →
    ∀ id, unreferenced (collectLoop scan fuel limit db).2 id = false
  | 0, limit, db, hfuel, h => by omega
  | fuel + 1, limit, db, hfuel, h => by
    rw [collectLoop] at h ⊢
    split at h
    · omega
    · next hlimit =>
      rw [if_neg hlimit]
      dsimp only at h ⊢
      split at h
      · next hnone =>
        rw [if_pos hnone]
        exact collectPass_done hscan hlimit hnone
      · next hsome =>
        rw [if_neg hsome]
        exact collectLoop_done hscan (by omega) (by dsimp only at h; omega)

/-- The number of passes that are allowed does not matter once it is the limit. -/
theorem collectLoop_fuel (scan : Store → List String) : ∀ {fuel limit : Nat} {db : Db}, limit ≤ fuel →
    collectLoop scan fuel limit db = collectLoop scan limit limit db
  | 0, limit, db, hfuel => by rw [Nat.le_zero.mp hfuel]
  | fuel + 1, 0, db, _ => rfl
  | fuel + 1, limit + 1, db, hfuel => by
    rw [collectLoop, collectLoop, if_neg (Nat.succ_ne_zero limit), if_neg (Nat.succ_ne_zero limit)]
    dsimp only
    split
    · rfl
    · next hsome =>
      have hle : limit + 1 - (collectPass scan (limit + 1) db).1 ≤ limit := by omega
      rw [collectLoop_fuel scan (Nat.le_trans hle (by omega)), collectLoop_fuel scan hle]

/-! ### What is left -/

theorem foldl_removeNode_edges : ∀ (ids : List String) (db : Db),
    (ids.foldl removeNode db).content.edges ⊆ db.content.edges
  | [], _ => fun _ h => h
  | id :: ids, db => fun _ h =>
    Finset.mem_of_mem_filter _ (foldl_removeNode_edges ids (removeNode db id) h)

theorem collectLoop_edges (scan : Store → List String) : ∀ (fuel limit : Nat) (db : Db),
    (collectLoop scan fuel limit db).2.content.edges ⊆ db.content.edges
  | 0, _, _ => fun _ h => h
  | fuel + 1, limit, db => by
    rw [collectLoop]
    split
    · exact fun _ h => h
    · dsimp only
      split
      · exact fun _ h => h
      · exact fun _ h => foldl_removeNode_edges _ db (collectLoop_edges scan fuel _ _ h)

/-- Each deleted node was stored and is counted once. -/
theorem foldl_removeNode_length : ∀ {ids : List String} {db : Db}, ids.Nodup →
    (∀ id ∈ ids, id ∈ db.content.objects.keys) →
    ids.length + (ids.foldl removeNode db).content.objects.keys.length =
      db.content.objects.keys.length
  | [], _, _, _ => Nat.zero_add _
  | id :: ids, db, hnodup, hmem => by
    obtain ⟨hid, hnodup⟩ := List.nodup_cons.mp hnodup
    have hkeys : (removeNode db id).content.objects.keys = db.content.objects.keys.erase id :=
      AList.keys_erase id db.content.objects
    have hstored : ∀ x ∈ ids, x ∈ (removeNode db id).content.objects.keys := by
      intro x hx
      have hne : x ≠ id := fun he => hid (he ▸ hx)
      rw [hkeys]
      exact (List.mem_erase_of_ne hne).mpr (hmem x (List.mem_cons_of_mem id hx))
    have hrest := foldl_removeNode_length hnodup hstored
    have herase := List.length_erase_of_mem (hmem id (List.mem_cons_self ..))
    have hpos := List.length_pos_of_mem (hmem id (List.mem_cons_self ..))
    rw [hkeys, herase] at hrest
    rw [List.length_cons, List.foldl_cons]
    omega

theorem collectPass_length (hscan : ListsRows scan) (limit : Nat) (db : Db) :
    (collectPass scan limit db).1 + (collectPass scan limit db).2.content.objects.keys.length =
      db.content.objects.keys.length := by
  have hnodup : (scan db.content).Nodup :=
    (hscan db.content).nodup_iff.mpr db.content.objects.nodupKeys
  refine foldl_removeNode_length ((hnodup.filter _).sublist (List.take_sublist _ _)) fun id hid => ?_
  exact (hscan db.content).mem_iff.mp (List.mem_filter.mp (List.mem_of_mem_take hid)).1

theorem collectLoop_length (hscan : ListsRows scan) : ∀ (fuel limit : Nat) (db : Db),
    (collectLoop scan fuel limit db).1 + (collectLoop scan fuel limit db).2.content.objects.keys.length =
      db.content.objects.keys.length
  | 0, _, _ => Nat.zero_add _
  | fuel + 1, limit, db => by
    rw [collectLoop]
    split
    · exact Nat.zero_add _
    · dsimp only
      split
      · exact Nat.zero_add _
      · have hpass := collectPass_length hscan limit db
        have hrest := collectLoop_length hscan fuel (limit - (collectPass scan limit db).1)
          (collectPass scan limit db).2
        dsimp only
        omega

theorem finite_nodes (db : Db) : Finite { x // db.graph.node x } := by
  refine (db.content.objects.keys.finite_toSet.subset fun x hx => ?_).to_subtype
  obtain ⟨row, hrow⟩ := hx
  exact AList.mem_keys.mpr (AList.lookup_isSome.mp (by rw [hrow]; rfl))

/-- Where nothing is unreferenced everything is live. -/
theorem live_of_none_unreferenced {db : Db} (h : Intact C db) (hacyclic : db.graph.Acyclic)
    (hnone : ∀ id, unreferenced db id = false) {x : String} (hx : db.content.Has x) :
    db.graph.Live x := by
  have := finite_nodes db
  by_contra hdead
  obtain ⟨y, hy, hgarbage⟩ := (graph_closed h).exists_garbage hacyclic hx hdead
  exact absurd (unreferenced_of_garbage hy hgarbage) (Bool.eq_false_iff.mp (hnone y))

/-- With nothing unreferenced the loop does nothing. -/
theorem collectLoop_none {db : Db} (hnone : ∀ id, unreferenced db id = false) :
    ∀ fuel limit, (collectLoop scan fuel limit db).1 = 0
  | 0, _ => rfl
  | fuel + 1, limit => by
    have hpass : (collectPass scan limit db).1 = 0 := by
      rw [collectPass, List.filter_eq_nil_iff.mpr fun id _ => Bool.eq_false_iff.mp (hnone id),
        List.take_nil]
      rfl
    rw [collectLoop]
    split
    · rfl
    · dsimp only
      rw [if_pos hpass]

/-- The limit of a call. -/
def collectLimit (limit : Int) : Nat := if limit ≤ 0 then 1000 else limit.toNat

/-- A call of `Collect` that ran to its end: what is left is what the roots reach, unchanged, and
    another call has nothing to do. -/
structure Complete (C : Codec) (db db' : Db) : Prop where
  nodes : ∀ x, db'.content.Has x ↔ db.graph.Live x
  unchanged : ∀ x, db.graph.Live x → db'.content.objects.lookup x = db.content.objects.lookup x
  refs : ∀ id raw n, readObject C db.content.objects id = .ok raw → decodeNode C raw = .ok n →
    ∀ c, db.graph.edge id c ↔ c ∈ nodeRefs n
  again : ∀ scan limit, (collect scan limit db').1 = 0

/-- The loop of `Collect` ends within as many passes as its limit, it returns the number of nodes it
    deleted, and if these are fewer than the limit the collection is complete. -/
theorem collect_complete (hC : C.Lawful) (scan : Store → List String) (hscan : ListsRows scan)
    (limit : Int) (db : Db) (h : Intact C db) (hacyclic : db.graph.Acyclic) :
    (∀ fuel, collectLimit limit ≤ fuel →
      collectLoop scan fuel (collectLimit limit) db = collect scan limit db) ∧
    (collect scan limit db).1 + (collect scan limit db).2.content.objects.keys.length =
      db.content.objects.keys.length ∧
    ((collect scan limit db).1 < collectLimit limit →
      Complete C db (collect scan limit db).2) := by
  refine ⟨fun fuel hfuel => collectLoop_fuel scan hfuel, collectLoop_length hscan _ _ db, fun hless => ?_⟩
  have hnone := collectLoop_done hscan le_rfl hless
  obtain ⟨hintact, hlive⟩ := collectLoop_spec scan (collectLimit limit) (collectLimit limit) h
  have hedges := collectLoop_edges scan (collectLimit limit) (collectLimit limit) db
  obtain ⟨content, hcontent⟩ := collect_content scan limit db
  have hback : ∀ x, (collect scan limit db).2.graph.Live x → db.graph.Live x := by
    rintro x ⟨r, hr, hrx⟩
    refine ⟨r, ?_, Relation.ReflTransGen.mono (fun _ _ hedge => hedges hedge) r x hrx⟩
    rw [hcontent] at hr
    exact hr
  have hacyclic' : (collect scan limit db).2.graph.Acyclic := fun x hx =>
    hacyclic x (Relation.TransGen.mono (fun _ _ hedge => hedges hedge) x x hx)
  refine ⟨fun x => ⟨fun hx => ?_, fun hx => ?_⟩, fun x hx => (hlive x hx).2, ?_, ?_⟩
  · exact hback x (live_of_none_unreferenced hintact hacyclic' hnone hx)
  · exact (graph_closed hintact).live_node (hlive x hx).1
  · exact fun id raw n hread hdec => (decoded_refs hC h.closed hread hdec).2.1
  · exact fun _ _ => collectLoop_none hnone _ _

/-- A deleted event that shared its packet with another one: its root, a text and the text's chunk
    are garbage, and one call removes all three. -/
theorem collect_complete_shared : ∃ db deleted,
    sharedRun (Plain.codec fun _ => none) = .ok (db, deleted) ∧
    (collect (·.objects.keys) 10 deleted).1 = 3 ∧
    Complete (Plain.codec fun _ => none) deleted (collect (·.objects.keys) 10 deleted).2 := by
  have hrun : ((sharedRun (Plain.codec fun _ => none)).toOption.map fun p =>
      ((collect (·.objects.keys) 10 p.2).1, decide (∀ e ∈ p.2.content.edges,
        p.2.content.objects.keys.idxOf e.1 < p.2.content.objects.keys.idxOf e.2))) =
      some (3, true) := by
    decide +kernel
  obtain ⟨⟨db, deleted⟩, hok, hresult⟩ := Option.map_eq_some_iff.mp hrun
  rw [except_toOption_some] at hok
  obtain ⟨hremoved, hordered⟩ := Prod.mk.inj hresult
  have hC := Plain.codec_lawful fun _ => none
  have hintact := intact_world hC (reachable_sharedRun hok) "queue.db"
  rw [Function.update_self] at hintact
  -- a node is written after its children
  have hacyclic : deleted.graph.Acyclic := fun x hx => by
    have hlt : ∀ y z, Relation.TransGen deleted.graph.edge y z →
        deleted.content.objects.keys.idxOf y < deleted.content.objects.keys.idxOf z := by
      intro y z hyz
      induction hyz with
      | single h => exact of_decide_eq_true hordered _ h
      | tail _ h ih => exact ih.trans (of_decide_eq_true hordered _ h)
    exact lt_irrefl _ (hlt x x hx)
  refine ⟨db, deleted, hok, hremoved, ?_⟩
  refine (collect_complete hC _ (fun s => .refl _) 10 _ hintact hacyclic).2.2 ?_
  rw [hremoved]
  decide

end TaNode.Queue

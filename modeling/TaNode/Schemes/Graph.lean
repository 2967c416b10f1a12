import Mathlib.Data.Fintype.Card

/-! Reference graphs: nodes, references between them, and roots that keep them alive.

    A graph is closed when no root and no reference dangles. Removing a node that is neither a root
    nor referenced, together with its own references, keeps the graph closed and every live node
    live, so a collector that only ever removes such nodes may stop at any point. In a finite graph
    without cycles it is done when it finds no more: every dead node hangs on one it can remove.

        root ──▶ a ──▶ b          live:    a, b
                 x ──▶ b          garbage: x  (then b is still live) -/

namespace TaNode

structure RefGraph (α : Type) where
  node : α → Prop
  edge : α → α → Prop
  root : α → Prop

namespace RefGraph
variable {α : Type} {G : RefGraph α} {x y : α}

/-- No root and no reference dangles, at either end. -/
structure Closed (G : RefGraph α) : Prop where
  root_node : ∀ x, G.root x → G.node x
  source : ∀ p c, G.edge p c → G.node p
  target : ∀ p c, G.edge p c → G.node c

/-- Reachable from a root. -/
def Live (G : RefGraph α) (x : α) : Prop := ∃ r, G.root r ∧ Relation.ReflTransGen G.edge r x

/-- Neither a root nor referenced. -/
def Garbage (G : RefGraph α) (x : α) : Prop := ¬G.root x ∧ ∀ p, ¬G.edge p x

/-- The graph without `x` and its references. -/
def remove (G : RefGraph α) (x : α) : RefGraph α where
  node y := G.node y ∧ y ≠ x
  edge p c := G.edge p c ∧ p ≠ x
  root := G.root

theorem Closed.live_node (hG : G.Closed) (h : G.Live x) : G.node x := by
  obtain ⟨r, hr, hrx⟩ := h
  cases hrx with
  | refl => exact hG.root_node _ hr
  | tail _ hstep => exact hG.target _ _ hstep

/-- Whatever is live is no garbage: it is a root or the target of a reference. -/
theorem Live.ne_garbage (h : G.Live y) (hx : G.Garbage x) : y ≠ x := by
  rintro rfl
  obtain ⟨r, hr, hry⟩ := h
  cases hry with
  | refl => exact hx.1 hr
  | tail _ hstep => exact hx.2 _ hstep

/-- Collecting garbage leaves nothing dangling. -/
theorem Closed.remove (hG : G.Closed) (hx : G.Garbage x) : (G.remove x).Closed where
  root_node y hy := ⟨hG.root_node y hy, by rintro rfl; exact hx.1 hy⟩
  source p c h := ⟨hG.source p c h.1, h.2⟩
  target p c h := ⟨hG.target p c h.1, by rintro rfl; exact hx.2 p h.1⟩

/-- Collecting garbage keeps every live node live. -/
theorem Live.remove (h : G.Live y) (hx : G.Garbage x) : (G.remove x).Live y := by
  obtain ⟨r, hr, hry⟩ := h
  refine ⟨r, hr, ?_⟩
  induction hry with
  | refl => exact Relation.ReflTransGen.refl
  | tail hrb hstep ih =>
    have hb : G.Live _ := ⟨r, hr, hrb⟩
    exact ih.tail ⟨hstep, hb.ne_garbage hx⟩

/-- No node reaches itself. -/
def Acyclic (G : RefGraph α) : Prop := ∀ x, ¬Relation.TransGen G.edge x x

/-- References among finitely many nodes can be followed back only so far. -/
theorem Acyclic.wellFounded (h : G.Acyclic) [Finite { x // G.node x }] :
    WellFounded fun p c : { x // G.node x } => Relation.TransGen G.edge p.1 c.1 := by
  have : IsTrans { x // G.node x } fun p c => Relation.TransGen G.edge p.1 c.1 :=
    ⟨fun _ _ _ hab hbc => hab.trans hbc⟩
  have : Std.Irrefl fun p c : { x // G.node x } => Relation.TransGen G.edge p.1 c.1 :=
    ⟨fun x => h x.1⟩
  exact Finite.wellFounded_of_trans_of_irrefl _

/-- As long as a node is dead there is garbage. -/
theorem Closed.exists_garbage (hG : G.Closed) (hacyclic : G.Acyclic) [Finite { x // G.node x }]
    (hx : G.node x) (hdead : ¬G.Live x) : ∃ y, G.node y ∧ G.Garbage y := by
  -- a dead node that is no garbage has a parent, which is dead as well
  suffices h : ∀ z : { x // G.node x }, ¬G.Live z.1 → ∃ y, G.node y ∧ G.Garbage y from h ⟨x, hx⟩ hdead
  intro z
  induction z using hacyclic.wellFounded.induction with
  | _ z ih =>
    intro hzdead
    by_cases hparent : ∃ p, G.edge p z.1
    · obtain ⟨p, hedge⟩ := hparent
      have hpdead : ¬G.Live p := fun ⟨r, hr, hrp⟩ => hzdead ⟨r, hr, hrp.tail hedge⟩
      exact ih ⟨p, hG.source p z.1 hedge⟩ (.single hedge) hpdead
    · exact ⟨z.1, z.2, fun hroot => hzdead ⟨z.1, hroot, .refl⟩, fun p hedge => hparent ⟨p, hedge⟩⟩

end RefGraph

end TaNode

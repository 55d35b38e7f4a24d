import Mathlib.Data.Set.Finite.Basic
import Mathlib.Logic.Relation
import Mathlib.Order.WellFounded

/-! Recursion along the edges of a graph without a record of where it has been: with
finitely many nodes it ends exactly where no cycle can be reached. -/
namespace GraphWalk

variable {V : Type u}

def endsWithin (children : V → List V) : Nat → V → Bool
  | 0,_ => false
  | depth + 1,v => (children v).all (endsWithin children depth)

def Edge (children : V → List V) (v w : V) : Prop := w ∈ children v

def ReachesCycle (children : V → List V) (v : V) : Prop :=
  ∃ u, Relation.ReflTransGen (Edge children) v u ∧ Relation.TransGen (Edge children) u u

theorem endsWithin_succ {children : V → List V} (ends : endsWithin children depth v = true) :
    endsWithin children (depth + 1) v = true := by
  induction depth generalizing v with
  | zero => cases ends
  | succ depth ih =>
    rw [endsWithin,List.all_eq_true] at ends ⊢
    exact fun w member => ih (ends w member)

theorem endsWithin_le {children : V → List V} (ends : endsWithin children depth v = true)
    (le : depth ≤ more) : endsWithin children more v = true := by
  induction le with
  | refl => exact ends
  | step _ ih => exact endsWithin_succ ih

/-- One depth for several nodes. -/
theorem endsWithin_all {children : V → List V} (nodes : List V)
    (ends : ∀ v ∈ nodes, ∃ depth, endsWithin children depth v = true) :
    ∃ depth, nodes.all (endsWithin children depth) = true := by
  induction nodes with
  | nil => exact ⟨0,rfl⟩
  | cons v nodes ih =>
    obtain ⟨first,here⟩ := ends v (by simp)
    obtain ⟨rest,later⟩ := ih fun w member => ends w (by simp [member])
    refine ⟨max first rest,?_⟩
    rw [List.all_eq_true] at later ⊢
    intro w member
    rcases List.mem_cons.mp member with rfl | member
    · exact endsWithin_le here (le_max_left _ _)
    · exact endsWithin_le (later w member) (le_max_right _ _)

theorem ends_iff_acc (children : V → List V) (v : V) :
    (∃ depth, endsWithin children depth v = true) ↔ Acc (fun w v => Edge children v w) v := by
  constructor
  · rintro ⟨depth,ends⟩
    induction depth generalizing v with
    | zero => cases ends
    | succ depth ih =>
      rw [endsWithin,List.all_eq_true] at ends
      exact Acc.intro v fun w edge => ih w (ends w edge)
  · intro acc
    induction acc with
    | intro v _ ih =>
      obtain ⟨depth,ends⟩ := endsWithin_all (children v) ih
      exact ⟨depth + 1,ends⟩

/-- By induction on accessibility: the first step of a cycle leads to a node from which
the cycle is reached again. -/
theorem not_cycle_of_acc {children : V → List V} (acc : Acc (fun w v => Edge children v w) v) :
    ¬ ReachesCycle children v := by
  induction acc with
  | intro v _ ih =>
    rintro ⟨u,way,cycle⟩
    rcases Relation.ReflTransGen.cases_head way with rfl | ⟨w,edge,rest⟩
    · obtain ⟨w,edge,back⟩ := Relation.TransGen.head'_iff.mp cycle
      exact ih w edge ⟨v,back,cycle⟩
    · exact ih w edge ⟨u,rest,cycle⟩

/-- Without a cycle the way back is well-founded on the finitely many nodes in reach. -/
theorem acc_of_not_cycle [Finite V] {children : V → List V} (acyclic : ¬ ReachesCycle children v) :
    Acc (fun w v => Edge children v w) v := by
  let inReach := {u // Relation.ReflTransGen (Edge children) v u}
  let behind : inReach → inReach → Prop := fun w u => Relation.TransGen (Edge children) u.val w.val
  have transitive : IsTrans inReach behind := ⟨fun _ _ _ first second => second.trans first⟩
  have irreflexive : Std.Irrefl behind := ⟨fun u cycle => acyclic ⟨u.val,u.property,cycle⟩⟩
  have founded : WellFounded behind := Finite.wellFounded_of_trans_of_irrefl behind
  have accessible (u : inReach) : Acc (fun w v => Edge children v w) u.val := by
    induction u using founded.induction with
    | _ u ih => exact Acc.intro u.val fun w edge => ih ⟨w,u.property.tail edge⟩ (.single edge)
  exact accessible ⟨v,.refl⟩

theorem ends_iff [Finite V] (children : V → List V) (v : V) :
    (∃ depth, endsWithin children depth v = true) ↔ ¬ ReachesCycle children v :=
  (ends_iff_acc children v).trans ⟨not_cycle_of_acc,acc_of_not_cycle⟩

end GraphWalk

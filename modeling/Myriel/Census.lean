import Mathlib.Algebra.BigOperators.Group.Finset.Piecewise
import Mathlib.Algebra.Order.BigOperators.Group.Finset
import Mathlib.Data.Fintype.BigOperators
import Mathlib.Tactic.Common

/-! How many processes of a finite family are in a class of states, and how the
number changes when one of them moves. -/
namespace Census

variable {ι : Type u} [Fintype ι] {α : Type v} (p : α → Bool)

def count (f : ι → α) : Nat := (Finset.univ.filter fun i => p (f i) = true).card

theorem count_eq_sum (f : ι → α) : count p f = ∑ i, if p (f i) = true then 1 else 0 :=
  Finset.card_filter _ _

/-- One move changes the number by the class entered and the class left. -/
theorem count_update [DecidableEq ι] (f : ι → α) (i : ι) (x : α) :
    count p (Function.update f i x) + (if p (f i) = true then 1 else 0) =
      count p f + (if p x = true then 1 else 0) := by
  have others : ∑ j ∈ Finset.univ.erase i, (if p (Function.update f i x j) = true then 1 else 0) =
      ∑ j ∈ Finset.univ.erase i, (if p (f j) = true then 1 else 0) := by
    apply Finset.sum_congr rfl
    intro j member
    rw [Function.update_of_ne (Finset.ne_of_mem_erase member)]
  simp only [count_eq_sum]
  rw [← Finset.add_sum_erase _ _ (Finset.mem_univ i),← Finset.add_sum_erase _ _ (Finset.mem_univ i),
    others,Function.update_self]
  omega

theorem count_update_same [DecidableEq ι] (f : ι → α) (i : ι) (x : α) (same : p (f i) = p x) :
    count p (Function.update f i x) = count p f := by
  have change := count_update p f i x
  rw [same] at change
  omega

theorem count_pos (f : ι → α) (i : ι) (inside : p (f i) = true) : 0 < count p f :=
  Finset.card_pos.mpr ⟨i,by simp [inside]⟩

theorem count_none (f : ι → α) (outside : ∀ i, p (f i) = false) : count p f = 0 := by
  simp [count,outside]

end Census

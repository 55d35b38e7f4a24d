import Mathlib.Tactic.Common

/-! `while` loops: a guard and a body, run for a bounded number of passes. -/
namespace Loop

variable {S : Type u} (guard : S → Bool) (body : S → S)

def run : Nat → S → S
  | 0,s => s
  | passes + 1,s => if guard s then run passes (body s) else s

/-- The loop ends in the state `t`. -/
def Ends (s t : S) : Prop := guard t = false ∧ ∃ passes, run guard body passes s = t

theorem run_invariant (property : S → Prop)
    (preserved : ∀ s, property s → guard s = true → property (body s))
    (initial : property s) (passes : Nat) : property (run guard body passes s) := by
  induction passes generalizing s with
  | zero => exact initial
  | succ passes ih =>
    unfold run
    split
    · exact ih (preserved s initial ‹_›)
    · exact initial

variable {guard body}

theorem run_stopped (done : guard s = false) (passes : Nat) : run guard body passes s = s := by
  cases passes with
  | zero => rfl
  | succ passes => rw [run,done,if_neg Bool.false_ne_true]

theorem Ends.stopped (done : guard s = false) : Ends guard body s s := ⟨done,0,rfl⟩

theorem Ends.pass (live : guard s = true) (passed : body s = next) (ends : Ends guard body next t) :
    Ends guard body s t := by
  obtain ⟨done,passes,ran⟩ := ends
  exact ⟨done,passes + 1,by rw [run,if_pos live,passed,ran]⟩

/-- Enough passes are as many as a measure that each of them decreases. -/
theorem Ends.run_eq (measure : S → Nat) (decreases : ∀ s, guard s = true → measure (body s) < measure s)
    (ends : Ends guard body s t) (enough : measure s ≤ passes) : run guard body passes s = t := by
  obtain ⟨done,others,ran⟩ := ends
  induction others generalizing s passes with
  | zero =>
    cases ran
    exact run_stopped done passes
  | succ others ih =>
    by_cases live : guard s = true
    · have less := decreases s live
      cases passes with
      | zero => omega
      | succ passes =>
        rw [run,if_pos live] at ran ⊢
        exact ih (by omega) ran
    · rw [run,if_neg live] at ran
      cases ran
      exact run_stopped done passes

end Loop

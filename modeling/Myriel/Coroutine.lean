import Myriel.Transition
import Mathlib.Logic.Function.Basic

/-! Coroutines, as lists of segments: each resumption runs the next one. -/
namespace Coroutine

inductive Command (ι : Type u) (σ : Type v) where
  | resume (c : ι)
  | restart (c : ι) (first : σ) (later : List σ)

variable {ι : Type u} {σ : Type v}

abbrev State (ι : Type u) (σ : Type v) := ι → List σ

variable [DecidableEq ι]

/-- A coroutine is resumed unless it has ended, and restarted only then. -/
def step (s : State ι σ) : Command ι σ → Option (State ι σ)
  | .resume c =>
    match s c with
    | [] => none
    | _ :: rest => some (Function.update s c rest)
  | .restart c first later =>
    match s c with
    | [] => some (Function.update s c (first :: later))
    | _ :: _ => none

def observe (s : State ι σ) : Command ι σ → List (ι × σ)
  | .resume c => (s c).head?.toList.map fun segment => (c,segment)
  | .restart _ _ _ => []

/-- The `i`-th resumption runs the `i`-th segment, and there is none behind the last. -/
theorem resumes_in_order {ρ : Type w} (view : ι × σ → ρ) (s : State ι σ) (c : ι) (n : Nat)
    (bound : n ≤ (s c).length) :
    Transition.run step s (List.replicate n (.resume c)) = some (Function.update s c ((s c).drop n)) ∧
      Transition.trace step (fun s a => (observe s a).map view) s (List.replicate n (.resume c)) =
        ((s c).take n).map fun segment => view (c,segment) := by
  induction n generalizing s with
  | zero => simp [Transition.trace]
  | succ n ih =>
    cases left : s c with
    | nil => simp [left] at bound
    | cons segment rest =>
      have next := ih (Function.update s c rest) (by simpa [left] using bound)
      rw [List.replicate_succ,Transition.run_cons,Transition.trace]
      simpa [step,observe,left] using next

end Coroutine

import Myriel.Platform

/-! `ConfigVar`: the two sections of `setValue` under `m_mutex`, and `fromString`. The `operator==`
of the type is its `BEq` instance, which need not be equality: that of `double` is not. -/
namespace Myriel

/-- How a call ends that does not return: with a `std::exception` or something else. -/
inductive Thrown where
  | exception
  | other
  deriving DecidableEq

/-- A listener, given the number of listener calls before this one, so that its answer
may depend on the past. -/
abbrev Callback (T : Type) := Nat → T → T → Option Thrown

/-- `m_callbacks` is a `std::map`: its pairs in the order of their keys. -/
structure ConfigVar (T : Type) where
  m_val : T
  m_callbacks : List (Int × Callback T)
  ordered : m_callbacks.Pairwise fun first second => first.1 < second.1

/-- What a call has done: the listeners it called and what it has thrown. -/
structure Update (T : Type) where
  var : ConfigVar T
  told : List Int
  thrown : Option Thrown

namespace ConfigVar

def notify (moment : Nat) (old new : T) : List (Int × Callback T) → List Int × Option Thrown
  | [] => ([],none)
  | (key,callback) :: rest =>
    match callback moment old new with
    | some thrown => ([key],some thrown)
    | none =>
      let later := notify (moment + 1) old new rest
      (key :: later.1,later.2)

/-- The first section of `setValue`; `none` where it returns at once. -/
def announce [BEq T] (var : ConfigVar T) (moment : Nat) (value : T) :
    Option (List Int × Option Thrown) :=
  if value == var.m_val then none else some (notify moment var.m_val value var.m_callbacks)

def store (var : ConfigVar T) (value : T) : ConfigVar T := { var with m_val := value }

def setValue [BEq T] (var : ConfigVar T) (moment : Nat) (value : T) : Update T :=
  match announce var moment value with
  | none => ⟨var,[],none⟩
  | some (told,some thrown) => ⟨var,told,some thrown⟩
  | some (told,none) => ⟨store var value,told,none⟩

/-- `fromString` and the answer it returns; what is left in `thrown` has passed its
handler, which is for `std::exception` only. -/
def fromString [BEq T] (fromStr : Text → Except Thrown T) (var : ConfigVar T) (moment : Nat)
    (str : Text) : Update T × Bool :=
  let update := match fromStr str with
    | .ok value => setValue var moment value
    | .error thrown => ⟨var,[],some thrown⟩
  match update.thrown with
  | none => (update,true)
  | some .exception => ({ update with thrown := none },false)
  | some .other => (update,false)

theorem notify_returning {callbacks : List (Int × Callback T)}
    (returning : ∀ entry ∈ callbacks, ∀ moment old new, entry.2 moment old new = none)
    (moment : Nat) (old new : T) : notify moment old new callbacks = (callbacks.map Prod.fst,none) := by
  induction callbacks generalizing moment with
  | nil => rfl
  | cons entry callbacks ih =>
    obtain ⟨here,rest⟩ := List.forall_mem_cons.mp returning
    simp [notify,here,ih rest]

/-- What a call that returns leaves as the value. -/
def settle [BEq T] (current value : T) : T := if value == current then current else value

theorem settle_cases [BEq T] (current value : T) :
    settle current value = value ∨ (value == current) = true ∧ settle current value = current := by
  by_cases same : (value == current) = true
  · exact .inr ⟨same,if_pos same⟩
  · exact .inl (if_neg same)

/-- The value that is left is the new one, as far as `operator==` tells. -/
theorem settle_same [BEq T] (current value : T) : settle current value = value ∨ (value == settle current value) = true := by
  rcases settle_cases current value with new | ⟨same,kept⟩
  · exact .inl new
  · exact .inr (by rw [kept,same])

theorem setValue_cases [BEq T] (var : ConfigVar T) (moment : Nat) (value : T) :
    ((setValue var moment value).thrown = none ∧
      (setValue var moment value).var = store var (settle var.m_val value)) ∨
    ((setValue var moment value).thrown ≠ none ∧ (setValue var moment value).var = var) := by
  by_cases same : (value == var.m_val) = true
  · exact .inl (by simp [setValue,announce,store,settle,same])
  · rcases told : notify moment var.m_val value var.m_callbacks with ⟨keys,_ | thrown⟩
    · exact .inl (by simp [setValue,announce,settle,same,told])
    · exact .inr (by simp [setValue,announce,same,told])

theorem fromString_cases [BEq T] (fromStr : Text → Except Thrown T) (var : ConfigVar T)
    (moment : Nat) (str : Text) :
    (∃ value, fromStr str = .ok value ∧ (fromString fromStr var moment str).2 = true ∧
      (fromString fromStr var moment str).1.thrown = none ∧
      (fromString fromStr var moment str).1.var = store var (settle var.m_val value)) ∨
    ((fromString fromStr var moment str).2 = false ∧ (fromString fromStr var moment str).1.var = var ∧
      (fromString fromStr var moment str).1.thrown ≠ some .exception) := by
  cases parsed : fromStr str with
  | error thrown => cases thrown <;> exact .inr (by simp [fromString,parsed])
  | ok value =>
    rcases setValue_cases var moment value with ⟨quiet,stored⟩ | ⟨threw,kept⟩
    · exact .inl ⟨value,rfl,by simp [fromString,parsed,quiet,stored]⟩
    · cases thrown : (setValue var moment value).thrown with
      | none => exact absurd thrown threw
      | some thrown' => cases thrown' <;> exact .inr (by simp [fromString,parsed,thrown,kept])

end ConfigVar

end Myriel

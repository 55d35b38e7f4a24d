import Myriel.ConfigVar

/-! Whether a refused `fromString` leaves a trace. The listeners are called before the
value is stored, so those before one that throws have been told of it. -/
namespace Myriel
namespace ConfigVar

/-- The listeners whose calls have completed when the call is refused: the last one that
was called has thrown. -/
def completed (update : Update T) : List Int := update.told.dropLast

/-- What a call of `fromString` that returns may leave. -/
structure Atomic [BEq T] (fromStr : Text → Except Thrown T) (var : ConfigVar T) (moment : Nat)
    (str : Text) : Prop where
  accepted : (fromString fromStr var moment str).2 = true →
    ∃ value, fromStr str = .ok value ∧ (fromString fromStr var moment str).1.var.m_val = value
  refused : (fromString fromStr var moment str).2 = false →
    (fromString fromStr var moment str).1.thrown = none →
      (fromString fromStr var moment str).1.var = var ∧ completed (fromString fromStr var moment str).1 = []

def AllReturn (moment : Nat) (old new : T) (callbacks : List (Int × Callback T)) : Prop :=
  ∀ (i : Nat) (entry : Int × Callback T), callbacks[i]? = some entry → entry.2 (moment + i) old new = none

def FirstThrows (moment : Nat) (old new : T) (callbacks : List (Int × Callback T)) : Prop :=
  ∃ entry, callbacks.head? = some entry ∧ entry.2 moment old new ≠ none

theorem notify_cases (moment : Nat) (old new : T) (callbacks : List (Int × Callback T)) :
    (AllReturn moment old new callbacks ∧ notify moment old new callbacks = (callbacks.map Prod.fst,none)) ∨
    ∃ front key callback rest thrown, callbacks = front ++ (key,callback) :: rest ∧
      AllReturn moment old new front ∧ callback (moment + front.length) old new = some thrown ∧
      notify moment old new callbacks = (front.map Prod.fst ++ [key],some thrown) := by
  induction callbacks generalizing moment with
  | nil => exact .inl ⟨by simp [AllReturn],rfl⟩
  | cons entry callbacks ih =>
    obtain ⟨key,callback⟩ := entry
    cases answer : callback moment old new with
    | some thrown =>
      exact .inr ⟨[],key,callback,callbacks,thrown,rfl,by simp [AllReturn],answer,by simp [notify,answer]⟩
    | none =>
      have extend {later : List (Int × Callback T)} (returned : AllReturn (moment + 1) old new later) :
          AllReturn moment old new ((key,callback) :: later) := by
        intro i entry found
        cases i with
        | zero => cases found; exact answer
        | succ i =>
          have := returned i entry found
          rwa [Nat.add_right_comm] at this
      rcases ih (moment + 1) with ⟨returned,told⟩ | ⟨front,key',callback',rest,thrown,rfl,returned,threw,told⟩
      · exact .inl ⟨extend returned,by simp [notify,answer,told]⟩
      · refine .inr ⟨(key,callback) :: front,key',callback',rest,thrown,rfl,extend returned,?_,?_⟩
        · rw [List.length_cons,Nat.add_comm front.length,← Nat.add_assoc]
          exact threw
        · simp [notify,answer,told]

/-- No listener throws anything but a `std::exception`. -/
def Standard (var : ConfigVar T) : Prop :=
  ∀ entry ∈ var.m_callbacks, ∀ moment old new, entry.2 moment old new ≠ some .other

theorem fromString_new [BEq T] {fromStr : Text → Except Thrown T} {var : ConfigVar T}
    (standard : Standard var) (parsed : fromStr str = .ok value) (new : (value == var.m_val) = false) (moment : Nat) :
    (AllReturn moment var.m_val value var.m_callbacks ∧
      fromString fromStr var moment str = (⟨store var value,var.m_callbacks.map Prod.fst,none⟩,true)) ∨
    ∃ front key callback rest, var.m_callbacks = front ++ (key,callback) :: rest ∧
      AllReturn moment var.m_val value front ∧ callback (moment + front.length) var.m_val value ≠ none ∧
      fromString fromStr var moment str = (⟨var,front.map Prod.fst ++ [key],none⟩,false) := by
  rcases notify_cases moment var.m_val value var.m_callbacks with
    ⟨returned,told⟩ | ⟨front,key,callback,rest,thrown,split,before,threw,told⟩
  · exact .inl ⟨returned,by simp [fromString,parsed,setValue,announce,new,told]⟩
  · have member : (key,callback) ∈ var.m_callbacks := by simp [split]
    cases thrown with
    | other => exact absurd threw (standard _ member _ _ _)
    | exception =>
      exact .inr ⟨front,key,callback,rest,split,before,by simp [threw],
        by simp [fromString,parsed,setValue,announce,new,told]⟩

theorem atomic_new_iff [BEq T] {fromStr : Text → Except Thrown T} {var : ConfigVar T}
    (standard : Standard var) (parsed : fromStr str = .ok value) (new : (value == var.m_val) = false) (moment : Nat) :
    Atomic fromStr var moment str ↔ AllReturn moment var.m_val value var.m_callbacks ∨
      FirstThrows moment var.m_val value var.m_callbacks := by
  rcases fromString_new standard parsed new moment with ⟨returned,done⟩ | ⟨front,key,callback,rest,split,before,threw,done⟩
  · exact iff_of_true ⟨fun _ => ⟨value,parsed,by simp [done,store]⟩,by simp [done]⟩ (.inl returned)
  · have somewhere : ¬ AllReturn moment var.m_val value var.m_callbacks := fun returned =>
      threw (returned front.length (key,callback) (by simp [split]))
    constructor
    · intro atomic
      have nobody := (atomic.refused (by rw [done]) (by rw [done])).2
      have empty : front = [] := by simpa [done,completed] using nobody
      subst empty
      exact .inr ⟨(key,callback),by simp [split],threw⟩
    · rintro (returned | ⟨entry,first,threwFirst⟩)
      · exact absurd returned somewhere
      · -- a listener in front of the one that threw would be the first, and has returned
        cases front with
        | nil => exact ⟨by simp [done],by simp [done,completed]⟩
        | cons other front =>
          obtain rfl : other = entry := by simpa [split] using first
          exact absurd (before 0 other rfl) threwFirst

/-- A value that `operator==` takes for the one the variable has must be that value, as it is not
stored; for any other one the listeners all return, or the first of them throws. -/
def Harmless [BEq T] (var : ConfigVar T) (moment : Nat) (value : T) : Prop :=
  if value == var.m_val then value = var.m_val
  else AllReturn moment var.m_val value var.m_callbacks ∨ FirstThrows moment var.m_val value var.m_callbacks

/-- `fromString` is atomic exactly where its text does not parse, or parses to a value that does
no harm. -/
theorem from_string_atomic_iff [BEq T] (fromStr : Text → Except Thrown T) (var : ConfigVar T)
    (standard : Standard var) (moment : Nat) (str : Text) :
    Atomic fromStr var moment str ↔ ∀ value, fromStr str = .ok value → Harmless var moment value := by
  cases parsed : fromStr str with
  | error thrown =>
    refine iff_of_true ⟨?_,?_⟩ fun _ wrong => nomatch wrong
    · cases thrown <;> simp [fromString,parsed]
    · cases thrown <;> simp [fromString,parsed,completed]
  | ok value =>
    have only : (∀ parsed, Except.ok value = Except.ok (ε := Thrown) parsed → Harmless var moment parsed) ↔
        Harmless var moment value := ⟨fun each => each value rfl,fun one _ same => Except.ok.inj same ▸ one⟩
    rw [only]
    cases same : value == var.m_val with
    | true =>
      have quiet : fromString fromStr var moment str = (⟨var,[],none⟩,true) := by
        simp [fromString,parsed,setValue,announce,same]
      rw [Harmless,if_pos same]
      constructor
      · intro atomic
        obtain ⟨_,again,stored⟩ := atomic.accepted (by rw [quiet])
        rw [quiet] at stored
        exact (Except.ok.inj (parsed.symm.trans again)).trans stored.symm
      · exact fun kept => ⟨fun _ => ⟨value,parsed,by simp [quiet,kept]⟩,by simp [quiet]⟩
    | false =>
      rw [atomic_new_iff standard parsed same]
      simp only [Harmless,same,Bool.false_eq_true,if_false]

def twoListeners (thrown : Option Thrown) : ConfigVar Nat where
  m_val := 8080
  m_callbacks := [(1,fun _ _ _ => none),(2,fun _ _ _ => thrown)]
  ordered := by simp

theorem from_string_atomic_quiet : Standard (twoListeners none) ∧
    Atomic (fun _ => .ok 9090) (twoListeners none) 0 "9090".toList := by
  have standard : Standard (twoListeners none) := by simp [Standard,twoListeners]
  refine ⟨standard,(from_string_atomic_iff _ _ standard _ _).mpr ?_⟩
  rintro _ ⟨⟩
  refine .inl fun i entry found => ?_
  have member := List.mem_of_getElem? found
  simp only [twoListeners,List.mem_cons,List.not_mem_nil,or_false] at member
  rcases member with rfl | rfl <;> rfl

/-- The first listener has been told of a port that the variable never has. -/
theorem told_without_change :
    fromString (fun _ => .ok 9090) (twoListeners (some .exception)) 0 "9090".toList =
      (⟨twoListeners (some .exception),[1,2],none⟩,false) ∧
    ¬ Atomic (fun _ => .ok 9090) (twoListeners (some .exception)) 0 "9090".toList := by
  have done : fromString (fun _ => .ok 9090) (twoListeners (some .exception)) 0 "9090".toList =
      (⟨twoListeners (some .exception),[1,2],none⟩,false) := rfl
  refine ⟨done,fun atomic => ?_⟩
  have nobody := (atomic.refused (by rw [done]) (by rw [done])).2
  rw [done] at nobody
  cases nobody

end ConfigVar

end Myriel

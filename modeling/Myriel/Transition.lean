/-! Labelled transition systems given by a partial step function: runs, the
invariant rule, and conditions imposed on the individual steps of a run. -/
namespace Transition

variable {S : Type u} {A : Type v} {E : Type w} (step : S → A → Option S)

/-- The state after a list of actions, `none` once an action is disabled. -/
def run : S → List A → Option S
  | s, [] => some s
  | s, a :: actions => (step s a).bind fun t => run t actions

@[simp] theorem run_nil (s : S) : run step s [] = some s := rfl

theorem run_cons (s : S) (a : A) (actions : List A) :
    run step s (a :: actions) = (step s a).bind fun t => run step t actions := rfl

theorem run_cons_some {s t : S} {a : A} {actions : List A} :
    run step s (a :: actions) = some t ↔
      ∃ middle, step s a = some middle ∧ run step middle actions = some t := by
  simp [run_cons,Option.bind_eq_some_iff]

theorem run_append (s : S) (first second : List A) :
    run step s (first ++ second) = (run step s first).bind fun t => run step t second := by
  induction first generalizing s with
  | nil => rfl
  | cons a first ih =>
    rw [List.cons_append,run_cons,run_cons,Option.bind_assoc]
    congr 1
    funext t
    exact ih t

theorem run_append_some {s t : S} {first second : List A} :
    run step s (first ++ second) = some t ↔
      ∃ middle, run step s first = some middle ∧ run step middle second = some t := by
  simp [run_append,Option.bind_eq_some_iff]

theorem run_concat_some {s t : S} {actions : List A} {a : A} :
    run step s (actions ++ [a]) = some t ↔
      ∃ middle, run step s actions = some middle ∧ step middle a = some t := by
  simp [run_append_some,run_cons_some]

/-- A state reached from `start` by some list of actions. -/
def Reachable (start s : S) : Prop := ∃ actions, run step start actions = some s

theorem Reachable.start (s : S) : Reachable step s s := ⟨[],rfl⟩

theorem Reachable.next {start s t : S} {a : A} (reach : Reachable step start s)
    (taken : step s a = some t) : Reachable step start t := by
  obtain ⟨actions,ran⟩ := reach
  exact ⟨actions ++ [a],(run_concat_some step).mpr ⟨s,ran,taken⟩⟩

/-- The invariant rule. -/
theorem run_invariant (property : S → Prop)
    (preserved : ∀ s a t, property s → step s a = some t → property t)
    {actions : List A} {s t : S} (initial : property s) (ran : run step s actions = some t) :
    property t := by
  induction actions generalizing s with
  | nil => cases ran; exact initial
  | cons a actions ih =>
    obtain ⟨middle,first,rest⟩ := (run_cons_some step).mp ran
    exact ih (preserved s a middle initial first) rest

theorem Reachable.invariant (property : S → Prop) {start s : S}
    (preserved : ∀ s a t, property s → step s a = some t → property t)
    (initial : property start) (reach : Reachable step start s) : property s := by
  obtain ⟨actions,ran⟩ := reach
  exact run_invariant step property preserved initial ran

/-- Every step that the run takes meets `allowed`, judged in the state before it. -/
def Along (allowed : S → A → Prop) : S → List A → Prop
  | _, [] => True
  | s, a :: actions => allowed s a ∧ ∀ t, step s a = some t → Along allowed t actions

theorem along_cons (allowed : S → A → Prop) (s : S) (a : A) (actions : List A) :
    Along step allowed s (a :: actions) ↔
      allowed s a ∧ ∀ t, step s a = some t → Along step allowed t actions := Iff.rfl

/-- A condition that can be tested can be tested along a whole run. -/
instance decidableAlong (allowed : S → A → Prop) [∀ s a, Decidable (allowed s a)] (s : S) :
    (actions : List A) → Decidable (Along step allowed s actions)
  | [] => .isTrue trivial
  | a :: actions =>
    match taken : step s a with
    | none => decidable_of_iff (allowed s a) (by simp [along_cons,taken])
    | some t =>
      have := decidableAlong allowed t actions
      decidable_of_iff (allowed s a ∧ Along step allowed t actions) (by simp [along_cons,taken])

theorem along_forall (allowed : S → A → Prop) {actions : List A}
    (always : ∀ a ∈ actions, ∀ s, allowed s a) (s : S) : Along step allowed s actions := by
  induction actions generalizing s with
  | nil => trivial
  | cons a actions ih =>
    exact ⟨always a (by simp) s,fun t _ => ih (fun b member => always b (by simp [member])) t⟩

/-- The invariant rule for runs whose steps all meet a condition. -/
theorem along_invariant (allowed : S → A → Prop) (property : S → Prop)
    (preserved : ∀ s a t, property s → allowed s a → step s a = some t → property t)
    {actions : List A} {s t : S} (initial : property s)
    (along : Along step allowed s actions) (ran : run step s actions = some t) :
    property t := by
  induction actions generalizing s with
  | nil => cases ran; exact initial
  | cons a actions ih =>
    obtain ⟨middle,first,rest⟩ := (run_cons_some step).mp ran
    exact ih (preserved s a middle initial along.1 first) (along.2 middle first) rest

theorem along_append (allowed : S → A → Prop) {before after : List A} {s : S}
    (along : Along step allowed s (before ++ after)) : Along step allowed s before := by
  induction before generalizing s with
  | nil => trivial
  | cons a before ih => exact ⟨along.1,fun t taken => ih (along.2 t taken)⟩

/-- A run keeps a condition on its steps if and only if all its states are good, where the
allowed steps lead to good states and each other step is possible and leads to a bad one. -/
theorem along_iff_states (allowed : S → A → Prop) (property good : S → Prop)
    (preserved : ∀ s a t, property s → allowed s a → step s a = some t → property t)
    (sound : ∀ s, property s → good s)
    (broken : ∀ s a, property s → ¬ allowed s a → ∃ t, step s a = some t ∧ ¬ good t)
    {s : S} (initial : property s) (actions : List A) :
    Along step allowed s actions ↔
      ∀ before after t, actions = before ++ after → run step s before = some t → good t := by
  constructor
  · intro along before after t split ran
    subst actions
    apply sound
    exact along_invariant step allowed property preserved initial
      (along_append step allowed along) ran
  · intro states
    induction actions generalizing s with
    | nil => trivial
    | cons a actions ih =>
      have first : allowed s a := by
        apply Classical.byContradiction
        intro forbidden
        obtain ⟨t,taken,bad⟩ := broken s a initial forbidden
        exact bad (states [a] actions t rfl (by simp [run_cons,taken]))
      refine ⟨first,fun t taken => ih (preserved s a t initial first taken) ?_⟩
      intro before after u split ran
      apply states (a :: before) after u
      · rw [split,List.cons_append]
      · rw [run_cons,taken]
        exact ran

/-- What an observer of the single steps has noted along a run. -/
def trace (observe : S → A → List E) : S → List A → List E
  | _, [] => []
  | s, a :: actions =>
    observe s a ++ match step s a with
      | some t => trace observe t actions
      | none => []

/-- The invariant rule with the notes taken so far. -/
theorem trace_invariant (observe : S → A → List E) (property : List E → S → Prop)
    (preserved : ∀ notes s a t, property notes s → step s a = some t →
      property (notes ++ observe s a) t)
    {actions : List A} {s t : S} {notes : List E} (initial : property notes s)
    (ran : run step s actions = some t) : property (notes ++ trace step observe s actions) t := by
  induction actions generalizing s notes with
  | nil =>
    cases ran
    simpa [trace] using initial
  | cons a actions ih =>
    obtain ⟨middle,first,rest⟩ := (run_cons_some step).mp ran
    have whole := ih (preserved notes s a middle initial first) rest
    simpa only [trace,first,List.append_assoc] using whole

/-- Two systems that match step by step from related states match run by run: both refuse
an action, or neither does, and the same is observed. -/
theorem run_matches {T : Type z} (step : S → A → Option S) (other : T → A → Option T)
    (observe : S → A → List E) (view : T → A → List E) (related : S → T → Prop)
    (matching : ∀ s t a, related s t → Option.Rel related (step s a) (other t a))
    (observed : ∀ s t a, related s t → observe s a = view t a)
    {s : S} {t : T} (initial : related s t) (actions : List A) :
    Option.Rel related (run step s actions) (run other t actions) ∧
      trace step observe s actions = trace other view t actions := by
  induction actions generalizing s t with
  | nil => exact ⟨.some initial,rfl⟩
  | cons a actions ih =>
    have same := observed s t a initial
    have first := matching s t a initial
    rw [run_cons,run_cons,trace,trace,same]
    generalize step s a = left at first ⊢
    generalize other t a = right at first ⊢
    cases first with
    | none => exact ⟨.none,rfl⟩
    | some next =>
      obtain ⟨runs,notes⟩ := ih next
      exact ⟨runs,congrArg _ notes⟩

/-- Who makes a step is alive, so a run that ends alive has been alive throughout. -/
theorem run_alive (alive : S → Prop) (steps : ∀ s a t, step s a = some t → alive s) {s t : S} {actions : List A}
    (ran : run step s actions = some t) (last : alive t) : alive s := by
  cases actions with
  | nil => cases ran; exact last
  | cons a actions =>
    obtain ⟨middle,first,_⟩ := (run_cons_some step).mp ran
    exact steps s a middle first

/-- Where each step between live states is matched by a run of another system between their
views, each run that ends alive is matched so. -/
theorem run_simulated {T : Type y} {B : Type z} (other : T → B → Option T) (view : S → T) (alive property : S → Prop)
    (steps : ∀ s a t, step s a = some t → alive s)
    (preserved : ∀ s a t, property s → step s a = some t → property t)
    (matching : ∀ s a t, property s → step s a = some t → alive t → ∃ more, run other (view s) more = some (view t))
    {s t : S} {actions : List A} (initial : property s) (ran : run step s actions = some t) (last : alive t) :
    ∃ more, run other (view s) more = some (view t) := by
  induction actions generalizing s with
  | nil => cases ran; exact ⟨[],rfl⟩
  | cons a actions ih =>
    obtain ⟨middle,first,rest⟩ := (run_cons_some step).mp ran
    obtain ⟨one,begun⟩ := matching s a middle initial first (run_alive step alive steps rest last)
    obtain ⟨more,ended⟩ := ih (preserved s a middle initial first) rest
    exact ⟨one ++ more,(run_append_some other).mpr ⟨_,begun,ended⟩⟩

theorem trace_single (observe : S → A → List E) (s : S) (a : A) : trace step observe s [a] = observe s a := by
  cases taken : step s a <;> simp [trace,taken]

theorem trace_append (observe : S → A → List E) {s t : S} {first second : List A}
    (ran : run step s first = some t) :
    trace step observe s (first ++ second) = trace step observe s first ++ trace step observe t second := by
  induction first generalizing s with
  | nil => cases ran; rfl
  | cons a first ih =>
    obtain ⟨middle,begun,rest⟩ := (run_cons_some step).mp ran
    simp only [List.cons_append,trace,begun,ih rest,List.append_assoc]

/-- Where the view of each step is what another system does on the notes of an observer, the view
of a run is a run of that system on all the notes, and it shows the same. -/
theorem run_projected {T : Type y} {B : Type z} (other : T → B → Option T) (view : S → T) (observe : S → A → List B)
    (shown : S → A → List E) (seen : T → B → List E) (property : S → Prop)
    (preserved : ∀ s a t, property s → step s a = some t → property t)
    (matching : ∀ s a t, property s → step s a = some t → run other (view s) (observe s a) = some (view t) ∧
      trace other seen (view s) (observe s a) = shown s a)
    {s t : S} {actions : List A} (initial : property s) (ran : run step s actions = some t) :
    run other (view s) (trace step observe s actions) = some (view t) ∧
      trace other seen (view s) (trace step observe s actions) = trace step shown s actions := by
  induction actions generalizing s with
  | nil => cases ran; exact ⟨rfl,rfl⟩
  | cons a actions ih =>
    obtain ⟨middle,begun,rest⟩ := (run_cons_some step).mp ran
    obtain ⟨first,same⟩ := matching s a middle initial begun
    obtain ⟨later,equal⟩ := ih (preserved s a middle initial begun) rest
    simp only [trace,begun]
    exact ⟨(run_append_some other).mpr ⟨_,first,later⟩,by rw [trace_append other seen first,same,equal]⟩

end Transition

import Myriel.LockOrder
import Myriel.Transition
import Mathlib.Logic.Function.Basic

/-! Threads that call functions of a program over shared data. A function may enter sections
under a mutex, and in a section it may call and enter further ones; the mutex is let go at the
end of the section. -/
namespace LockMachine

/-- What a call or a section goes on with. -/
inductive Code (α β : Type) where
  | call (a : α)
  | enter (b : β)

inductive Instr (μ α β : Type) where
  | code (c : Code α β)
  /-- the section has been entered -/
  | perform (b : β)
  /-- the end of a section -/
  | leave (m : μ)

/-- The functions, the sections with their mutexes, and what a thread may call from outside. A
call or a section that gives `none` does not return. -/
structure Program (ι μ σ α β : Type) where
  mutex : β → μ
  call : ι → σ → α → Option (σ × List (Code α β))
  perform : ι → σ → β → Option (σ × List (Code α β))
  invocable : ι → σ → α → Bool

structure State (ι μ σ α β : Type) where
  shared : σ
  owner : μ → Option ι
  threads : ι → List (Instr μ α β)

inductive Action (ι α : Type) where
  /-- a thread with nothing to do calls a function -/
  | invoke (t : ι) (a : α)
  | run (t : ι)

variable {ι μ σ α β : Type}

def Code.stack (body : List (Code α β)) (code : List (Instr μ α β)) : List (Instr μ α β) :=
  body.map .code ++ code

section Machine
variable [DecidableEq ι] [DecidableEq μ] (p : Program ι μ σ α β)

def setThread (s : State ι μ σ α β) (t : ι) (code : List (Instr μ α β)) : State ι μ σ α β :=
  { s with threads := Function.update s.threads t code }

/-- The next step of a thread, `none` where it waits for a mutex or has nothing to do. -/
def advance (s : State ι μ σ α β) (t : ι) : Option (State ι μ σ α β) :=
  match s.threads t with
  | [] => none
  | .code (.call a) :: code =>
    (p.call t s.shared a).map fun next =>
      setThread { s with shared := next.1 } t (Code.stack next.2 code)
  | .code (.enter b) :: code =>
    if s.owner (p.mutex b) = none then
      some (setThread { s with owner := Function.update s.owner (p.mutex b) (some t) } t (.perform b :: code))
    else none
  | .perform b :: code =>
    (p.perform t s.shared b).map fun next =>
      setThread { s with shared := next.1 } t (Code.stack next.2 (.leave (p.mutex b) :: code))
  | .leave m :: code => some (setThread { s with owner := Function.update s.owner m none } t code)

def step (s : State ι μ σ α β) : Action ι α → Option (State ι μ σ α β)
  | .invoke t a =>
    if (s.threads t).isEmpty && p.invocable t s.shared a then some (setThread s t [.code (.call a)]) else none
  | .run t => advance p s t

def start (shared : σ) : State ι μ σ α β := ⟨shared,fun _ => none,fun _ => []⟩

/-- Everything a step can do. -/
inductive Effect (s : State ι μ σ α β) : Action ι α → State ι μ σ α β → Prop where
  | invoke (idle : s.threads t = []) (invocable : p.invocable t s.shared a = true) :
      Effect s (.invoke t a) (setThread s t [.code (.call a)])
  | call (code : s.threads t = .code (.call a) :: rest) (called : p.call t s.shared a = some (shared,body)) :
      Effect s (.run t) (setThread { s with shared := shared } t (Code.stack body rest))
  | enter (code : s.threads t = .code (.enter b) :: rest) (free : s.owner (p.mutex b) = none) :
      Effect s (.run t)
        (setThread { s with owner := Function.update s.owner (p.mutex b) (some t) } t (.perform b :: rest))
  | perform (code : s.threads t = .perform b :: rest) (performed : p.perform t s.shared b = some (shared,body)) :
      Effect s (.run t)
        (setThread { s with shared := shared } t (Code.stack body (.leave (p.mutex b) :: rest)))
  | leave (code : s.threads t = .leave m :: rest) :
      Effect s (.run t) (setThread { s with owner := Function.update s.owner m none } t rest)

theorem step_effect {s u : State ι μ σ α β} {action : Action ι α} (taken : step p s action = some u) :
    Effect p s action u := by
  cases action with
  | invoke t a =>
    simp only [step,Option.ite_none_right_eq_some,Bool.and_eq_true,List.isEmpty_iff,Option.some.injEq] at taken
    obtain ⟨⟨idle,invocable⟩,rfl⟩ := taken
    exact .invoke idle invocable
  | run t =>
    simp only [step,advance] at taken
    split at taken
    case h_1 => cases taken
    case h_2 code =>
      obtain ⟨⟨shared,body⟩,called,rfl⟩ := Option.map_eq_some_iff.mp taken
      exact .call code called
    case h_3 code =>
      simp only [Option.ite_none_right_eq_some,Option.some.injEq] at taken
      obtain ⟨free,rfl⟩ := taken
      exact .enter code free
    case h_4 code =>
      obtain ⟨⟨shared,body⟩,performed,rfl⟩ := Option.map_eq_some_iff.mp taken
      exact .perform code performed
    case h_5 code =>
      cases taken
      exact .leave code

def waits (s : State ι μ σ α β) (t : ι) : Option μ :=
  match s.threads t with
  | .code (.enter b) :: _ => some (p.mutex b)
  | _ => none

def Deadlocked (s : State ι μ σ α β) : Prop := ∃ threads, LockOrder.Deadlock (waits p s) s.owner threads

end Machine

/-! ### A discipline -/

def held (p : Program ι μ σ α β) (code : List (Instr μ α β)) : List μ :=
  code.filterMap fun
    | .code _ => none
    | .perform b => some (p.mutex b)
    | .leave m => some m

/-- What a program keeps to: the mutexes that a call asks for, and a section besides its own;
the mutexes that must be held where a call is made, and a section is entered. -/
structure Rules (μ α β : Type) where
  asks : α → μ → Prop
  asksIn : β → μ → Prop
  needs : α → μ → Prop
  needsIn : β → μ → Prop

def Rules.asked (r : Rules μ α β) (mutex : β → μ) : Code α β → μ → Prop
  | .call a,m => r.asks a m
  | .enter b,m => m = mutex b ∨ r.asksIn b m

def Rules.needed (r : Rules μ α β) : Code α β → μ → Prop
  | .call a => r.needs a
  | .enter b => r.needsIn b

/-- The program keeps the rules on the data that are good, and keeps the data good. -/
structure Keeps [Preorder μ] (p : Program ι μ σ α β) (r : Rules μ α β) (good : σ → Prop) : Prop where
  call_good : ∀ t data a data' body, good data → p.call t data a = some (data',body) → good data'
  perform_good : ∀ t data b data' body, good data → p.perform t data b = some (data',body) → good data'
  call_asks : ∀ t data a data' body, good data → p.call t data a = some (data',body) →
    ∀ c ∈ body, ∀ m, r.asked p.mutex c m → r.asks a m
  perform_asks : ∀ t data b data' body, good data → p.perform t data b = some (data',body) →
    ∀ c ∈ body, ∀ m, r.asked p.mutex c m → r.asksIn b m
  behind : ∀ b m, r.asksIn b m → p.mutex b < m
  call_needs : ∀ t data a data' body, good data → p.call t data a = some (data',body) →
    ∀ c ∈ body, ∀ m, r.needed c m → r.needs a m
  perform_needs : ∀ t data b data' body, good data → p.perform t data b = some (data',body) →
    ∀ c ∈ body, ∀ m, r.needed c m → m = p.mutex b ∨ r.needsIn b m
  invoked : ∀ t data a, p.invocable t data a = true → ∀ m, ¬ r.needs a m

/-- The mutexes that an instruction asks for, has taken or lets go. -/
def Rules.touches (r : Rules μ α β) (p : Program ι μ σ α β) : Instr μ α β → μ → Prop
  | .code c,m => r.asked p.mutex c m
  | .perform b,m => m = p.mutex b ∨ r.asksIn b m
  | .leave n,m => m = n

def Rules.wants (r : Rules μ α β) : Instr μ α β → μ → Prop
  | .code c => r.needed c
  | .perform b => r.needsIn b
  | .leave _ => fun _ => False

/-- Each instruction of a thread touches mutexes behind those that are held, and those that it
needs are held. -/
def Fine [Preorder μ] (p : Program ι μ σ α β) (r : Rules μ α β) : List (Instr μ α β) → Prop
  | [] => True
  | instr :: code =>
    (∀ m, r.touches p instr m → ∀ n ∈ held p code, n < m) ∧ (∀ m, r.wants instr m → m ∈ held p code) ∧ Fine p r code

/-- The invariant of the machine. -/
structure Orderly [Preorder μ] (p : Program ι μ σ α β) (r : Rules μ α β) (good : σ → Prop)
    (s : State ι μ σ α β) : Prop where
  good : good s.shared
  fine : ∀ t, Fine p r (s.threads t)
  owned : ∀ m t, s.owner m = some t ↔ m ∈ held p (s.threads t)

section Rules
variable {p : Program ι μ σ α β} {r : Rules μ α β} {good : σ → Prop}

theorem held_stack (body : List (Code α β)) (code : List (Instr μ α β)) :
    held p (Code.stack body code) = held p code := by
  induction body with
  | nil => rfl
  | cons c body ih => exact ih

variable [Preorder μ]

theorem Fine.stack {body : List (Code α β)} {code : List (Instr μ α β)} (fine : Fine p r code)
    (asked : ∀ c ∈ body, ∀ m, r.asked p.mutex c m → ∀ n ∈ held p code, n < m)
    (needed : ∀ c ∈ body, ∀ m, r.needed c m → m ∈ held p code) : Fine p r (Code.stack body code) := by
  induction body with
  | nil => exact fine
  | cons c body ih =>
    obtain ⟨firstAsks,restAsks⟩ := List.forall_mem_cons.mp asked
    obtain ⟨firstNeeds,restNeeds⟩ := List.forall_mem_cons.mp needed
    refine ⟨?_,?_,ih restAsks restNeeds⟩
    · intro m asks n inside
      exact firstAsks m asks n (held_stack (p := p) body code ▸ inside)
    · intro m needs
      exact (held_stack (p := p) body code).symm ▸ firstNeeds m needs

theorem Fine.perform_fresh {b : β} {code : List (Instr μ α β)} (fine : Fine p r (.perform b :: code)) :
    p.mutex b ∉ held p code :=
  fun member => lt_irrefl _ (fine.1 _ (.inl rfl) _ member)

theorem Fine.leave_fresh {m : μ} {code : List (Instr μ α β)} (fine : Fine p r (.leave m :: code)) :
    m ∉ held p code :=
  fun member => lt_irrefl _ (fine.1 _ rfl _ member)

end Rules

section Discipline
variable [Preorder μ] {p : Program ι μ σ α β} {r : Rules μ α β} {good : σ → Prop}

theorem start_orderly {shared : σ} (fit : good shared) : Orderly p r good (start shared) :=
  ⟨fit,fun _ => trivial,fun _ _ => by simp [start,held]⟩

variable [DecidableEq ι]

theorem Orderly.setThread {s : State ι μ σ α β} {t : ι} {code : List (Instr μ α β)} {shared : σ}
    (orderly : Orderly p r good s) (fit : good shared) (fine : Fine p r code)
    (same : held p code = held p (s.threads t)) :
    Orderly p r good (setThread { s with shared := shared } t code) where
  good := fit
  fine u := by
    by_cases self : u = t
    · subst u; simpa [LockMachine.setThread] using fine
    · simpa [LockMachine.setThread,self] using orderly.fine u
  owned m u := by
    by_cases self : u = t
    · subst u; simpa [LockMachine.setThread,same] using orderly.owned m t
    · simpa [LockMachine.setThread,self] using orderly.owned m u

theorem Orderly.call {s : State ι μ σ α β} {t : ι} {a : α} {rest : List (Instr μ α β)} {shared : σ}
    {body : List (Code α β)} (orderly : Orderly p r good s) (keeps : Keeps p r good)
    (code : s.threads t = .code (.call a) :: rest) (called : p.call t s.shared a = some (shared,body)) :
    Orderly p r good (LockMachine.setThread { s with shared := shared } t (Code.stack body rest)) := by
  have fine := orderly.fine t
  rw [code] at fine
  obtain ⟨asks,needs,below⟩ := fine
  apply orderly.setThread (keeps.call_good t _ a shared body orderly.good called)
  · apply below.stack
    · intro c member m asked
      exact asks m (keeps.call_asks t _ a shared body orderly.good called c member m asked)
    · intro c member m needed
      exact needs m (keeps.call_needs t _ a shared body orderly.good called c member m needed)
  · rw [held_stack,code]
    rfl

theorem Orderly.perform {s : State ι μ σ α β} {t : ι} {b : β} {rest : List (Instr μ α β)} {shared : σ}
    {body : List (Code α β)} (orderly : Orderly p r good s) (keeps : Keeps p r good)
    (code : s.threads t = .perform b :: rest) (performed : p.perform t s.shared b = some (shared,body)) :
    Orderly p r good
      (LockMachine.setThread { s with shared := shared } t (Code.stack body (.leave (p.mutex b) :: rest))) := by
  have fine := orderly.fine t
  rw [code] at fine
  obtain ⟨asks,needs,below⟩ := fine
  apply orderly.setThread (keeps.perform_good t _ b shared body orderly.good performed)
  · apply Fine.stack
    · refine ⟨?_,fun _ none => none.elim,below⟩
      rintro m rfl n inside
      exact asks _ (.inl rfl) n inside
    · intro c member m asked n inside
      have within := keeps.perform_asks t _ b shared body orderly.good performed c member m asked
      rcases List.mem_cons.mp inside with rfl | deeper
      · exact keeps.behind b m within
      · exact asks m (.inr within) n deeper
    · intro c member m needed
      rcases keeps.perform_needs t _ b shared body orderly.good performed c member m needed with rfl | outer
      · exact List.mem_cons_self
      · exact List.mem_cons_of_mem _ (needs m outer)
  · rw [held_stack,code]
    rfl

variable [DecidableEq μ]

theorem Orderly.enter {s : State ι μ σ α β} {t : ι} {b : β} {rest : List (Instr μ α β)}
    (orderly : Orderly p r good s) (code : s.threads t = .code (.enter b) :: rest)
    (free : s.owner (p.mutex b) = none) :
    Orderly p r good (LockMachine.setThread { s with owner := Function.update s.owner (p.mutex b) (some t) } t
      (.perform b :: rest)) where
  good := orderly.good
  fine u := by
    by_cases self : u = t
    · subst self
      have fine := orderly.fine u
      rw [code] at fine
      have entered : Fine p r (.perform b :: rest) := fine
      simpa [LockMachine.setThread] using entered
    · simpa [LockMachine.setThread,self] using orderly.fine u
  owned m u := by
    have before := orderly.owned m u
    by_cases self : u = t
    · subst u
      rw [code] at before
      by_cases same : m = p.mutex b
      · subst same; simp [LockMachine.setThread,held]
      · simpa [LockMachine.setThread,held,same] using before
    · by_cases same : m = p.mutex b
      · subst same
        rw [free] at before
        simpa [LockMachine.setThread,self,Ne.symm self] using before
      · simpa [LockMachine.setThread,self,same] using before

theorem Orderly.leave {s : State ι μ σ α β} {t : ι} {m : μ} {rest : List (Instr μ α β)}
    (orderly : Orderly p r good s) (code : s.threads t = .leave m :: rest) :
    Orderly p r good (LockMachine.setThread { s with owner := Function.update s.owner m none } t rest) := by
  have fine := orderly.fine t
  rw [code] at fine
  have mine : s.owner m = some t := (orderly.owned m t).mpr (by rw [code]; exact List.mem_cons_self)
  refine ⟨orderly.good,fun u => ?_,fun n u => ?_⟩
  · by_cases self : u = t
    · subst u; simpa [LockMachine.setThread] using fine.2.2
    · simpa [LockMachine.setThread,self] using orderly.fine u
  · have before := orderly.owned n u
    by_cases self : u = t
    · subst u
      rw [code] at before
      by_cases same : n = m
      · subst same; simpa [LockMachine.setThread] using fine.leave_fresh
      · simpa [LockMachine.setThread,held,same] using before
    · by_cases same : n = m
      · subst same
        rw [mine] at before
        simpa [LockMachine.setThread,self,Ne.symm self] using before
      · simpa [LockMachine.setThread,self,same] using before

theorem effect_orderly {s u : State ι μ σ α β} {action : Action ι α} (keeps : Keeps p r good)
    (orderly : Orderly p r good s) (effect : Effect p s action u) : Orderly p r good u := by
  cases effect with
  | @invoke t a idle invocable =>
    apply orderly.setThread orderly.good
    · exact ⟨fun m _ n none => (by cases none),fun m needs => (keeps.invoked t _ a invocable m needs).elim,trivial⟩
    · rw [idle]
      rfl
  | call code called => exact orderly.call keeps code called
  | enter code free => exact orderly.enter code free
  | perform code performed => exact orderly.perform keeps code performed
  | leave code => exact orderly.leave code

theorem reachable_orderly {s : State ι μ σ α β} {shared : σ} (keeps : Keeps p r good) (fit : good shared)
    (reach : Transition.Reachable (step p) (start shared) s) : Orderly p r good s :=
  reach.invariant (step p) (Orderly p r good)
    (fun _ _ _ orderly taken => effect_orderly keeps orderly (step_effect p taken)) (start_orderly fit)

/-- A program that keeps its rules never deadlocks. -/
theorem not_deadlocked {s : State ι μ σ α β} {shared : σ} (keeps : Keeps p r good) (fit : good shared)
    (reach : Transition.Reachable (step p) (start shared) s) : ¬ Deadlocked p s := by
  have orderly := reachable_orderly keeps fit reach
  rintro ⟨threads,deadlock⟩
  refine LockOrder.not_deadlock (fun m n => m < n) ?_ ?_ threads deadlock
  · intro m cycle
    have less : m < m := by rwa [Relation.transGen_eq_self] at cycle
    exact lt_irrefl m less
  · intro t m n waiting owns
    have fine := orderly.fine t
    have holds := (orderly.owned n t).mp owns
    unfold waits at waiting
    split at waiting
    case h_1 b rest code =>
      cases waiting
      rw [code] at fine holds
      exact .single (fine.1 _ (.inl rfl) n holds)
    case h_2 => cases waiting

end Discipline

/-! ### What is known of code -/

/-- Code fits the data: what is called from outside fits, what fits goes on with code that fits,
and code that fits keeps fitting whatever the other threads do to the data. -/
structure Preserves (p : Program ι μ σ α β) (good : σ → Prop) (fits : σ → Code α β → Prop) : Prop where
  invoke : ∀ t data a, good data → p.invocable t data a = true → fits data (.call a)
  call : ∀ t data a data' body, good data → fits data (.call a) → p.call t data a = some (data',body) →
    good data' ∧ (∀ c ∈ body, fits data' c) ∧ ∀ c, fits data c → fits data' c
  perform : ∀ t data b data' body, good data → fits data (.enter b) → p.perform t data b = some (data',body) →
    good data' ∧ (∀ c ∈ body, fits data' c) ∧ ∀ c, fits data c → fits data' c

def Instr.Fits (fits : Code α β → Prop) : Instr μ α β → Prop
  | .code c => fits c
  | .perform b => fits (.enter b)
  | .leave _ => True

theorem Instr.Fits.mono {fits fits' : Code α β → Prop} {instr : Instr μ α β} (fit : instr.Fits fits)
    (weaker : ∀ c, fits c → fits' c) : instr.Fits fits' := by
  cases instr with
  | code c => exact weaker c fit
  | perform b => exact weaker (.enter b) fit
  | leave => trivial

structure Fitting (good : σ → Prop) (fits : σ → Code α β → Prop) (s : State ι μ σ α β) : Prop where
  good : good s.shared
  fits : ∀ t, ∀ instr ∈ s.threads t, instr.Fits (fits s.shared)

section Fitting
variable [DecidableEq ι] {p : Program ι μ σ α β} {good : σ → Prop} {fits : σ → Code α β → Prop}
  {s : State ι μ σ α β}

theorem Fitting.setThread (fitting : Fitting good fits s) {data : σ} {owner : μ → Option ι} {t : ι}
    {code : List (Instr μ α β)} (fit : good data) (more : ∀ c, fits s.shared c → fits data c)
    (mine : ∀ instr ∈ code, instr.Fits (fits data)) :
    Fitting good fits (LockMachine.setThread { s with shared := data, owner := owner } t code) where
  good := fit
  fits u instr member := by
    by_cases self : u = t
    · subst u
      exact mine instr (by simpa [LockMachine.setThread] using member)
    · have before : instr ∈ s.threads u := by simpa [LockMachine.setThread,self] using member
      exact (fitting.fits u instr before).mono more

theorem fits_stack {data : σ} {body : List (Code α β)} {code : List (Instr μ α β)} (first : ∀ c ∈ body, fits data c)
    (rest : ∀ instr ∈ code, instr.Fits (fits data)) : ∀ instr ∈ Code.stack body code, instr.Fits (fits data) := by
  intro instr member
  rcases List.mem_append.mp member with new | old
  · obtain ⟨c,inside,rfl⟩ := List.mem_map.mp new
    exact first c inside
  · exact rest instr old

variable [DecidableEq μ]

theorem effect_fitting (preserves : Preserves p good fits) (fitting : Fitting good fits s) {action : Action ι α}
    {u : State ι μ σ α β} (effect : Effect p s action u) : Fitting good fits u := by
  have whole {t : ι} {instr : Instr μ α β} {rest : List (Instr μ α β)} (code : s.threads t = instr :: rest) :
      instr.Fits (fits s.shared) ∧ ∀ i ∈ rest, i.Fits (fits s.shared) :=
    List.forall_mem_cons.mp (code ▸ fitting.fits t)
  cases effect with
  | @invoke t a idle invocable =>
    refine fitting.setThread fitting.good (fun _ fit => fit) fun instr member => ?_
    cases List.mem_singleton.mp member
    exact preserves.invoke t _ a fitting.good invocable
  | call code called =>
    obtain ⟨now,later⟩ := whole code
    obtain ⟨good,body,more⟩ := preserves.call _ _ _ _ _ fitting.good now called
    exact fitting.setThread good more (fits_stack body fun i member => (later i member).mono more)
  | enter code free =>
    obtain ⟨now,later⟩ := whole code
    exact fitting.setThread fitting.good (fun _ fit => fit) (List.forall_mem_cons.mpr ⟨now,later⟩)
  | perform code performed =>
    obtain ⟨now,later⟩ := whole code
    obtain ⟨good,body,more⟩ := preserves.perform _ _ _ _ _ fitting.good now performed
    refine fitting.setThread good more (fits_stack body (List.forall_mem_cons.mpr ⟨trivial,?_⟩))
    exact fun i member => (later i member).mono more
  | leave code =>
    obtain ⟨_,later⟩ := whole code
    exact fitting.setThread fitting.good (fun _ fit => fit) later

theorem reachable_fitting {shared : σ} (preserves : Preserves p good fits) (initial : good shared)
    (reach : Transition.Reachable (step p) (start shared) s) : Fitting good fits s :=
  reach.invariant (step p) (Fitting good fits)
    (fun _ _ _ fitting taken => effect_fitting preserves fitting (step_effect p taken))
    ⟨initial,fun _ _ member => by cases member⟩

end Fitting

/-! ### A thread alone -/

/-- What code does while no other thread runs: from these data to those, with these mutexes held. -/
inductive Runs (p : Program ι μ σ α β) (t : ι) : List μ → σ → List (Code α β) → σ → Prop where
  | nil : Runs p t locks data [] data
  | call (called : p.call t data a = some (next,body)) (inner : Runs p t locks next body middle)
      (rest : Runs p t locks middle code last) : Runs p t locks data (.call a :: code) last
  | enter (fresh : p.mutex b ∉ locks) (performed : p.perform t data b = some (next,body))
      (inner : Runs p t (p.mutex b :: locks) next body middle) (rest : Runs p t locks middle code last) :
      Runs p t locks data (.enter b :: code) last

section Alone
variable {p : Program ι μ σ α β} {t : ι} {locks : List μ}

theorem Runs.append {data middle last : σ} {first second : List (Code α β)} (runs : Runs p t locks data first middle)
    (more : Runs p t locks middle second last) : Runs p t locks data (first ++ second) last := by
  induction runs with
  | nil => exact more
  | call called inner _ _ rest => exact .call called inner (rest more)
  | enter fresh performed inner _ _ rest => exact .enter fresh performed inner (rest more)

theorem Runs.last_call {data next last : σ} {a : α} {body : List (Code α β)}
    (called : p.call t data a = some (next,body)) (inner : Runs p t locks next body last) :
    Runs p t locks data [.call a] last := .call called inner .nil

theorem Runs.last_enter {data next last : σ} {b : β} {body : List (Code α β)} (fresh : p.mutex b ∉ locks)
    (performed : p.perform t data b = some (next,body)) (inner : Runs p t (p.mutex b :: locks) next body last) :
    Runs p t locks data [.enter b] last := .enter fresh performed inner .nil

variable [DecidableEq ι] [DecidableEq μ]

omit [DecidableEq μ] in
@[simp] theorem setThread_self (s : State ι μ σ α β) (t : ι) (code : List (Instr μ α β)) :
    (setThread s t code).threads t = code := by
  simp [setThread]

theorem run_more {s u v : State ι μ σ α β} (first : advance p s t = some u)
    (later : ∃ n, Transition.run (step p) u (List.replicate n (.run t)) = some v) :
    ∃ n, Transition.run (step p) s (List.replicate n (.run t)) = some v := by
  obtain ⟨n,ran⟩ := later
  exact ⟨n + 1,(Transition.run_cons_some _).mpr ⟨u,first,ran⟩⟩

theorem run_on {s u v : State ι μ σ α β}
    (first : ∃ n, Transition.run (step p) s (List.replicate n (.run t)) = some u)
    (later : ∃ n, Transition.run (step p) u (List.replicate n (.run t)) = some v) :
    ∃ n, Transition.run (step p) s (List.replicate n (.run t)) = some v := by
  obtain ⟨n,begun⟩ := first
  obtain ⟨m,ended⟩ := later
  refine ⟨n + m,?_⟩
  rw [List.replicate_add]
  exact (Transition.run_append_some _).mpr ⟨u,begun,ended⟩

/-- The machine gets through the code where no mutex is taken but those that are held, and leaves
the other threads and the mutexes as they are. -/
theorem Runs.run {data last : σ} {body : List (Code α β)} (runs : Runs p t locks data body last)
    {s : State ι μ σ α β} {code : List (Instr μ α β)} (shared : s.shared = data)
    (threads : s.threads t = Code.stack body code) (free : ∀ m, m ∉ locks → s.owner m = none) :
    ∃ n, Transition.run (step p) s (List.replicate n (.run t)) =
      some (setThread { s with shared := last } t code) := by
  induction runs generalizing s code with
  | @nil locks data =>
    refine ⟨0,congrArg some ?_⟩
    subst data
    simp only [setThread,← show s.threads t = code from threads,Function.update_eq_self]
  | @call data a next body locks middle rest last called _ _ inner later =>
    subst data
    have first : advance p s t =
        some (setThread { s with shared := next } t (Code.stack body (Code.stack rest code))) := by
      simp [advance,threads,Code.stack,called]
    refine run_more first (run_on (inner rfl (setThread_self _ t _) free) ?_)
    simpa [setThread] using later (s := setThread { s with shared := middle } t (Code.stack rest code)) rfl
      (setThread_self _ t _) free
  | @enter locks b data next body middle rest _ fresh performed _ _ inner later =>
    subst data
    have unlocked := free _ fresh
    let taken := Function.update s.owner (p.mutex b) (some t)
    have first : advance p s t = some (setThread { s with owner := taken } t (.perform b :: Code.stack rest code)) := by
      simp [advance,threads,Code.stack,unlocked,taken]
    have second : advance p (setThread { s with owner := taken } t (.perform b :: Code.stack rest code)) t =
        some (setThread { s with shared := next, owner := taken } t
          (Code.stack body (.leave (p.mutex b) :: Code.stack rest code))) := by
      simp [advance,performed,setThread]
    have inside : ∀ m, m ∉ p.mutex b :: locks → taken m = none := by
      intro m other
      obtain ⟨away,outer⟩ : m ≠ p.mutex b ∧ m ∉ locks := by simpa using other
      rw [← free m outer]
      exact Function.update_of_ne away _ _
    have third : advance p (setThread { s with shared := middle, owner := taken } t
        (.leave (p.mutex b) :: Code.stack rest code)) t =
        some (setThread { s with shared := middle } t (Code.stack rest code)) := by
      have back : Function.update s.owner (p.mutex b) none = s.owner := by
        rw [← unlocked,Function.update_eq_self]
      simp [advance,setThread,taken,back]
    refine run_more first (run_more second (run_on (inner rfl (setThread_self _ t _) inside) ?_))
    refine run_more (by simpa [setThread] using third) ?_
    simpa [setThread] using later (s := setThread { s with shared := middle } t (Code.stack rest code)) rfl
      (setThread_self _ t _) free

/-- A thread that calls a function while all mutexes are free gets through it. -/
theorem Runs.invoked {s : State ι μ σ α β} {a : α} {last : σ} (runs : Runs p t [] s.shared [.call a] last)
    (idle : s.threads t = []) (invocable : p.invocable t s.shared a = true) (free : ∀ m, s.owner m = none) :
    ∃ n, Transition.run (step p) s (.invoke t a :: List.replicate n (.run t)) = some { s with shared := last } := by
  have begun : step p s (.invoke t a) = some (setThread s t [.code (.call a)]) := by simp [step,idle,invocable]
  obtain ⟨n,ran⟩ := runs.run (s := setThread s t [.code (.call a)]) rfl (setThread_self s t _) fun m _ => free m
  refine ⟨n,(Transition.run_cons_some _).mpr ⟨_,begun,ran.trans ?_⟩⟩
  simp [setThread,← idle]

end Alone

end LockMachine

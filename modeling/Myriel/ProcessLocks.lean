import Myriel.ConfigLocksOrder
import Myriel.LoggerThreadsOrder

/-! All mutexes of the process. The configuration logs from inside of its sections, and so may
conversions and listeners; nothing that logs calls the configuration. A thread goes on in the
configuration when it has nothing left to do in the loggers. -/
namespace Myriel.Process

open LoggerThreads (Thread)

structure State (τ V E : Type) where
  config : ConfigLocks.State τ V
  logging : LoggerThreads.State τ E

inductive Action (τ E : Type) where
  /-- the next step of a thread in the configuration -/
  | config (t : τ)
  /-- a thread logs, or goes on in the loggers -/
  | logging (action : LockMachine.Action (Thread τ) (LoggerThreads.Call τ E))

abbrev Mutex := ConfigLocks.Mutex ⊕ LoggerThreads.Mutex

/-- A worker of an appender knows nothing of the configuration. -/
def client : Thread τ → Option τ
  | .client t => some t
  | .worker _ => none

section Machine
variable {τ V E : Type} [DecidableEq τ] [BEq V]

def idle (s : State τ V E) (t : Thread τ) : Bool := (s.logging.threads t).isEmpty

def step (fromStr : ConfigLocks.TypeId → Text → Except Thrown V) (level : E → Logging.LogLevel) (render : Text → E → Text)
    (s : State τ V E) : Action τ E → Option (State τ V E)
  | .config t =>
    if idle s (.client t) then (ConfigLocks.step fromStr s.config t).map fun config => { s with config } else none
  | .logging action =>
    (LockMachine.step (LoggerThreads.program level render) s.logging action).map fun logging => { s with logging }

def start (vars : Text → Option (ConfigLocks.Var V)) (s_fun_id : ConfigLocks.TypeId → Nat)
    (programs : τ → List (ConfigLocks.Op V)) : State τ V E :=
  ⟨ConfigLocks.start vars s_fun_id programs,LockMachine.start LoggerThreads.begin⟩

def waits (level : E → Logging.LogLevel) (render : Text → E → Text) (s : State τ V E) : Thread τ → Option Mutex :=
  LockOrder.layered client (idle s) (ConfigLocks.waits s.config)
    (LockMachine.waits (LoggerThreads.program level render) s.logging)

def owner (s : State τ V E) : Mutex → Option (Thread τ) :=
  Sum.elim (fun m => (s.config.owner m).map Thread.client) s.logging.owner

def Deadlocked (level : E → Logging.LogLevel) (render : Text → E → Text) (s : State τ V E) : Prop :=
  ∃ threads, LockOrder.Deadlock (waits level render s) (owner s) threads

variable {fromStr : ConfigLocks.TypeId → Text → Except Thrown V} {level : E → Logging.LogLevel}
  {render : Text → E → Text} {vars : Text → Option (ConfigLocks.Var V)} {s_fun_id : ConfigLocks.TypeId → Nat}
  {programs : τ → List (ConfigLocks.Op V)} {s : State τ V E}

/-- Each of the two runs as it does by itself. -/
theorem reachable_parts (reach : Transition.Reachable (step fromStr level render) (start vars s_fun_id programs) s) :
    Transition.Reachable (ConfigLocks.step fromStr) (ConfigLocks.start vars s_fun_id programs) s.config ∧
      LoggerThreads.Reachable level render s.logging := by
  refine reach.invariant (step fromStr level render)
    (fun s => Transition.Reachable (ConfigLocks.step fromStr) (ConfigLocks.start vars s_fun_id programs) s.config ∧
      LoggerThreads.Reachable level render s.logging) ?_ ⟨.start _ _,.start _ _⟩
  intro s action t ⟨config,logging⟩ ran
  cases action with
  | config u =>
    simp only [step,Option.ite_none_right_eq_some,Option.map_eq_some_iff] at ran
    obtain ⟨_,next,moved,rfl⟩ := ran
    exact ⟨config.next _ moved,logging⟩
  | logging action =>
    obtain ⟨next,moved,rfl⟩ := Option.map_eq_some_iff.mp ran
    exact ⟨config,logging.next _ moved⟩

/-- Logging adds no deadlock: in whatever sections of the configuration the threads log, and
wherever the loggers and the workers of their appenders stand, a deadlock of the process is one
of the configuration alone; and a program that keeps to a policy without a cycle has none. -/
theorem process_not_deadlocked
    (reach : Transition.Reachable (step fromStr level render) (start vars s_fun_id programs) s) :
    (Deadlocked level render s → ConfigLocks.Deadlocked s.config) ∧
    ∀ policy, ConfigLocks.Promised policy vars programs → (∀ m, ¬ ConfigLocks.Behind policy m m) →
      ¬ Deadlocked level render s := by
  obtain ⟨config,logging⟩ := reachable_parts reach
  have orderly : LockMachine.Orderly (LoggerThreads.program level render) LoggerThreads.rules LoggerThreads.Rooted
      s.logging := LockMachine.reachable_orderly LoggerThreads.program_keeps LoggerThreads.begin_rooted logging
  have busy : ∀ m t, s.logging.owner m = some t → idle s t = false := by
    intro m t owned
    have holds := (orderly.owned m t).mp owned
    cases code : s.logging.threads t with
    | nil => simp [code,LockMachine.held] at holds
    | cons => simp [idle,code]
  have above : Deadlocked level render s → ConfigLocks.Deadlocked s.config := by
    rintro ⟨threads,deadlock⟩
    refine LockOrder.deadlock_layered Thread.client (fun _ => rfl) busy (fun threads deadlock => ?_) deadlock
    exact LockMachine.not_deadlocked LoggerThreads.program_keeps LoggerThreads.begin_rooted logging ⟨threads,deadlock⟩
  exact ⟨above,fun policy promised acyclic deadlock => ConfigLocks.not_deadlocked acyclic promised config (above deadlock)⟩

end Machine

/-- A thread logs while it looks a variable up, and another one waits for the map. -/
theorem process_not_deadlocked_logging : ∃ s : State Bool Bool Unit,
    waits (fun _ => .INFO) (fun _ _ => []) s (.client false) = some (.inl .registry) ∧
    owner s (.inl .registry) = some (.client true) ∧ idle s (.client true) = false ∧
    ¬ Deadlocked (fun _ => .INFO) (fun _ _ => []) s := by
  have ran : ∃ s : State Bool Bool Unit,
      Transition.run (step (fun _ _ => .error .exception) (fun _ => .INFO) fun _ _ => [])
        (start (fun _ => none) (fun _ => 1) fun _ => [.lookupBase ['a']])
        [.config true,.config true,.logging (.invoke (.client true) (.LOG_LEVEL 0 ())),.config false] = some s ∧
      waits (fun _ => .INFO) (fun _ _ => []) s (.client false) = some (.inl .registry) ∧
      owner s (.inl .registry) = some (.client true) ∧ idle s (.client true) = false := ⟨_,rfl,rfl,rfl,rfl⟩
  obtain ⟨s,ran,waiting,owned,busy⟩ := ran
  have promised : ConfigLocks.Promised ⟨fun _ => 0,fun _ _ => False,fun _ => False⟩
      (fun _ => (none : Option (ConfigLocks.Var Bool))) fun _ : Bool => [.lookupBase ['a']] :=
    ⟨nofun,fun _ op member => List.mem_singleton.mp member ▸ .lookupBase⟩
  refine ⟨s,waiting,owned,busy,(process_not_deadlocked ⟨_,ran⟩).2 _ promised fun m behind => ?_⟩
  -- under this policy no mutex is asked for where another one is held
  have edge : ∀ {a b}, ¬ ConfigLocks.Before ⟨fun _ => 0,fun _ _ => False,fun _ => False⟩ a b := by
    intro a b before
    cases a <;> cases b <;> exact before
  obtain ⟨_,before,_⟩ := Relation.TransGen.head'_iff.mp behind
  exact edge before

end Myriel.Process

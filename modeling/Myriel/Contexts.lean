import Myriel.Fiber
import Myriel.SchedulerQueue
import Myriel.Transition
import Mathlib.Logic.Function.Basic

/-! The contexts of one thread: its own code, and the fibers with stacks of their own. A
context is a stack and the position of the code on it; `swapcontext` saves the one and
continues the other. -/
namespace Myriel.Contexts

/-- A callback, cut at its calls of `Fiber::GetThis()->yield()`. -/
inductive Code (σ : Type) where
  | returns (segment : σ)
  | throws (segment : σ)
  | yields (segment : σ) (rest : Code σ)

/-- What a fiber is made for: a callback, or `Scheduler::run` for the root fiber. -/
inductive Body (σ : Type) where
  | code (code : Code σ)
  | run

/-- The state in which a fiber is left at the end of a segment. -/
def Body.rests : Body σ → FiberState
  | .code (.yields _ _) | .code (.throws _) => .READY
  | .code (.returns _) | .run => .TERM

inductive Position (σ : Type) where
  /-- in the code of the thread itself -/
  | thread
  /-- at the entry of `MainFunc` -/
  | entry
  /-- in the callback; `MainFunc` has got `cur` from `GetThis` -/
  | inside (cur : FiberId) (rest : Body σ)
  /-- behind the last `yield` of `MainFunc` -/
  | ended (cur : FiberId)

/-- Each fiber has a stack; that of the main fiber is the one of the thread. -/
structure Context (σ : Type) where
  stack : FiberId
  position : Position σ

structure FiberObject (σ : Type) where
  m_id : Nat
  m_state : FiberState
  m_ctx : Context σ
  m_cb : Option (Body σ)
  m_scheduler : Bool

/-- How the thread is used: with fibers only, as a thread of a scheduler, or as the
thread that owns a scheduler with `use_caller`. -/
inductive Role where
  | plain
  | worker
  | caller
  deriving DecidableEq

/-- `running` is the context that executes. -/
structure State (σ : Type) where
  role : Role
  t_fiber : Option FiberId
  t_thread_fiber : Option FiberId
  t_scheduler_fiber : Option FiberId
  fibers : FiberId → FiberObject σ
  running : Context σ

def mainFiber : FiberId := 0
def m_rootFiber : FiberId := 1

def setFiber (s : State σ) (f : FiberId) (fiber : FiberObject σ) : State σ :=
  { s with fibers := Function.update s.fibers f fiber }

def setState (s : State σ) (f : FiberId) (state : FiberState) : State σ :=
  setFiber s f { s.fibers f with m_state := state }

def saveContext (s : State σ) (f : FiberId) (context : Context σ) : State σ :=
  setFiber s f { s.fibers f with m_ctx := context }

def SetThis (s : State σ) (f : Option FiberId) : State σ := { s with t_fiber := f }

/-- `makecontext` for `MainFunc` on the stack of the fiber. -/
def FiberObject.create (f : FiberId) (body : Body σ) (run_in_scheduler : Bool) : FiberObject σ where
  m_id := f
  m_state := .READY
  m_ctx := ⟨f,.entry⟩
  m_cb := some body
  m_scheduler := run_in_scheduler

def FiberObject.main : FiberObject σ where
  m_id := 0
  m_state := .EXEC
  m_ctx := ⟨mainFiber,.thread⟩
  m_cb := none
  m_scheduler := false

def GetThis (s : State σ) : State σ × FiberId :=
  match s.t_fiber with
  | some f => (s,f)
  | none =>
    ({ SetThis (setFiber s mainFiber .main) (some mainFiber) with t_thread_fiber := some mainFiber },
      mainFiber)

def GetFiberId (s : State σ) : Nat :=
  match s.t_fiber with
  | some f => (s.fibers f).m_id
  | none => 0

/-- `position` is where the saved context will continue. -/
def swapcontext (s : State σ) (saved next : FiberId) (position : Position σ) : State σ :=
  { saveContext s saved ⟨s.running.stack,position⟩ with running := (s.fibers next).m_ctx }

/-- The fiber to whose context a fiber switches back. -/
def home (s : State σ) (f : FiberId) : Option FiberId :=
  if (s.fibers f).m_scheduler then s.t_scheduler_fiber else s.t_thread_fiber

def resume (s : State σ) (f : FiberId) : Option (State σ) :=
  if (s.fibers f).m_state ≠ .TERM ∧ (s.fibers f).m_state ≠ .EXEC then
    (home s f).map fun saved =>
      swapcontext (setState (SetThis s (some f)) f .EXEC) saved f s.running.position
  else none

def resting (state : FiberState) : FiberState := if state ≠ .TERM then .READY else state

def yield (s : State σ) (f : FiberId) (position : Position σ) : Option (State σ) :=
  if (s.fibers f).m_state = .EXEC ∨ (s.fibers f).m_state = .TERM then
    (home s f).map fun next =>
      swapcontext (setState (SetThis s s.t_thread_fiber) f (resting (s.fibers f).m_state)) f next position
  else none

/-- `MainFunc` behind a callback that has returned. -/
def finish (s : State σ) (cur : FiberId) : State σ :=
  setFiber s cur { s.fibers cur with m_cb := none, m_state := .TERM }

/-- The next step of the code on the stack of a fiber: the entry of `MainFunc`, or a
segment with the switch at its end. -/
def advance (s : State σ) : Option (State σ) :=
  match s.running.position with
  | .thread => none
  | .entry =>
    let (s,cur) := GetThis s
    (s.fibers cur).m_cb.map fun body => { s with running := { s.running with position := .inside cur body } }
  | .inside cur (.code (.yields _ rest)) =>
    let (s,this) := GetThis s
    yield s this (.inside cur (.code rest))
  | .inside cur (.code (.returns _)) | .inside cur .run => yield (finish s cur) cur (.ended cur)
  | .inside cur (.code (.throws _)) => yield s cur (.ended cur)
  | .ended _ => none

def reset (s : State σ) (f : FiberId) (cb : Code σ) : Option (State σ) :=
  if f ≠ mainFiber ∧ (s.fibers f).m_state = .TERM then
    some (setFiber s f { s.fibers f with
      m_cb := some (.code cb), m_ctx := ⟨f,.entry⟩, m_state := .READY })
  else none

/-- The constructor of a `Scheduler` with `use_caller`. -/
def construct (s : State σ) : State σ :=
  let (s,_) := GetThis s
  { setFiber s m_rootFiber (.create m_rootFiber .run false) with t_scheduler_fiber := some m_rootFiber }

/-- The first lines of `Scheduler::run` on a thread of its own. -/
def enterRun (s : State σ) : State σ :=
  let (s,f) := GetThis s
  { s with t_scheduler_fiber := some f }

/-- The `resume` calls that the code makes: the code of a thread resumes fibers outside
of the scheduler, the root fiber for `stop` among them; `run` resumes any fiber. -/
def resumes (s : State σ) (f : FiberId) : Bool :=
  match s.running.position,s.role with
  | .thread,.plain => !(s.fibers f).m_scheduler
  | .thread,.caller => !(s.fibers f).m_scheduler && (f != m_rootFiber || s.t_scheduler_fiber.isSome)
  | .thread,.worker => s.t_scheduler_fiber.isSome
  | .inside _ .run,_ => true
  | _,_ => false

def outside (s : State σ) : Bool :=
  match s.running.position with
  | .thread => true
  | _ => false

inductive Action (σ : Type) where
  | getThis
  | construct
  | enterRun
  | resume (f : FiberId)
  | advance
  | reset (f : FiberId) (cb : Code σ)

/-- A failed assertion or a null pointer ends the process. -/
def step (s : State σ) : Action σ → Option (State σ)
  | .getThis => some (GetThis s).1
  | .construct =>
    if outside s && s.role == .caller && s.t_scheduler_fiber.isNone then some (construct s) else none
  | .enterRun =>
    if outside s && s.role == .worker && s.t_scheduler_fiber.isNone then some (enterRun s) else none
  | .resume f => if resumes s f then resume s f else none
  | .advance => advance s
  | .reset f cb => if outside s then reset s f cb else none

/-- Fiber `f` will be made for the callback `bodies f`, run by a scheduler or not. -/
def start (role : Role) (bodies : FiberId → Code σ × Bool) : State σ where
  role := role
  t_fiber := none
  t_thread_fiber := none
  t_scheduler_fiber := none
  fibers f := if f = mainFiber then .main else .create f (.code (bodies f).1) (bodies f).2
  running := ⟨mainFiber,.thread⟩

def observe (s : State σ) : Action σ → List (FiberId × σ)
  | .advance =>
    match s.running.position with
    | .inside _ (.code (.returns segment)) | .inside _ (.code (.throws segment))
    | .inside _ (.code (.yields segment _)) => [(s.running.stack,segment)]
    | _ => []
  | _ => []

end Myriel.Contexts

import Myriel.Fiber
import Myriel.SchedulerQueue
import Mathlib.Logic.Function.Basic

/-! One thread in `Scheduler::run`. A callback is given by its script, the calls it
makes on the scheduler and on its fiber; whatever code does in one execution is
such a list of calls. One pass of the loop is one step of the model. -/
namespace Myriel.RunLoop

inductive Script where
  | returns
  | throws
  /-- `Fiber::GetThis()->yield()` -/
  | yield (rest : Script)
  | schedule (cb : Script) (thread : Option ThreadId) (rest : Script)
  | scheduleFiber (f : FiberId) (thread : Option ThreadId) (rest : Script)
  /-- `schedule(Fiber::GetThis())` -/
  | scheduleThis (thread : Option ThreadId) (rest : Script)
  deriving DecidableEq

inductive Assertion where
  | resume
  | reset
  | destructor
  /-- the `ASSERT2` behind the last `yield` of `MainFunc` -/
  | neverReach
  deriving DecidableEq

inductive Status where
  | running
  | exited
  | failed (assertion : Assertion)
  deriving DecidableEq

/-- `held` are the fibers to which code outside of the scheduler has a pointer. -/
structure State where
  queue : TaskQueue Script
  m_activeThreadCount : Int
  m_stopping : Bool
  fibers : FiberId → Fiber Script
  created : Nat
  held : FiberId → Bool
  cb_fiber : Option FiberId
  idle : FiberState
  status : Status

def stopping (s : State) : Bool :=
  s.m_stopping && s.queue.m_tasks.isEmpty && s.m_activeThreadCount == 0

def setFiber (s : State) (f : FiberId) (fiber : Fiber Script) : State :=
  { s with fibers := Function.update s.fibers f fiber }

def fail (s : State) (assertion : Assertion) : State := { s with status := .failed assertion }

def schedule (s : State) (work : Option (Work Script)) (thread : Option ThreadId) : State :=
  { s with queue := (s.queue.scheduleNoLock work thread).1 }

/-- The callback of fiber `f` until control is back in `run`. While it runs its state
is `EXEC`, so the assertion of `yield` holds. -/
def runSegment (f : FiberId) : Script → State → State
  | .returns, s => setFiber s f ((s.fibers f).finish.yield .ended)
  | .throws, s => setFiber s f ((s.fibers f).yield .ended)
  | .yield rest, s => setFiber s f ((s.fibers f).yield (.suspended rest))
  | .schedule cb thread rest, s => runSegment f rest (schedule s (some (.cb cb)) thread)
  | .scheduleFiber g thread rest, s => runSegment f rest (schedule s (some (.fiber g)) thread)
  | .scheduleThis thread rest, s => runSegment f rest (schedule s (some (.fiber f)) thread)

/-- A pointer to the fiber is left: in the queue, outside of the scheduler, or on the
stack of the fiber itself, where `MainFunc` keeps one until the callback is over. -/
def referenced (s : State) (f : FiberId) : Bool :=
  s.queue.m_tasks.any (fun task => task.work == .fiber f) || s.held f ||
    match (s.fibers f).m_ctx with
    | .suspended _ => true
    | _ => false

/-- `run` lets go of its pointer to the fiber it has resumed. -/
def release (s : State) (f : FiberId) : State :=
  if s.status != .running || referenced s f || (s.fibers f).destroyable then s
  else fail s .destructor

/-- `resume` and the decrement behind it. -/
def resume (s : State) (f : FiberId) : State :=
  if (s.fibers f).resumable then
    let entered := setFiber s f (s.fibers f).setExec
    match (s.fibers f).m_ctx with
    | .ended => fail entered .neverReach
    | .entry script | .suspended script =>
      let left := runSegment f script entered
      { left with m_activeThreadCount := left.m_activeThreadCount - 1 }
  else fail s .resume

/-- `cb_fiber.reset()` -/
def resetCbFiber (s : State) : State := { s with cb_fiber := none }

/-- One pass of `while(true)` on thread `self`. -/
def iterate (self : ThreadId) (s : State) : State :=
  match s.queue.take self fun f => (s.fibers f).m_state == .EXEC with
  | some (task,rest) =>
    let s := { s with queue := rest, m_activeThreadCount := s.m_activeThreadCount + 1 }
    match task.work with
    | .fiber f => release (resume s f) f
    | .cb cb =>
      match s.cb_fiber with
      | some f =>
        match (s.fibers f).reset cb with
        | some fiber => release (resetCbFiber (resume (setFiber s f fiber) f)) f
        | none => fail s .reset
      | none =>
        let f := s.created
        let made := { setFiber s f (Fiber.create cb) with created := f + 1, cb_fiber := some f }
        release (resetCbFiber (resume made f)) f
  | none =>
    if s.idle = .TERM then { s with status := .exited }
    else if stopping s then { s with idle := .TERM }
    else s

def loop (self : ThreadId) : Nat → State → State
  | 0, s => s
  | passes + 1, s => if s.status = .running then loop self passes (iterate self s) else s

theorem loop_stopped (stopped : s.status ≠ .running) : loop self passes s = s := by
  cases passes <;> simp [loop,stopped]

theorem loop_succ (live : s.status = .running) :
    loop self (passes + 1) s = loop self passes (iterate self s) := by
  simp [loop,live]

theorem loop_add (first second : Nat) (s : State) :
    loop self (first + second) s = loop self second (loop self first s) := by
  induction first generalizing s with
  | zero => simp [loop]
  | succ first ih =>
    by_cases live : s.status = .running
    · rw [Nat.succ_add,loop_succ live,loop_succ live]
      exact ih _
    · simp only [loop_stopped live]

/-- What holds after every pass of a live loop holds however long the loop runs. -/
theorem loop_invariant (property : State → Prop)
    (preserved : ∀ s, s.status = .running → property s → property (iterate self s))
    (initial : property s) (passes : Nat) : property (loop self passes s) := by
  induction passes generalizing s with
  | zero => exact initial
  | succ passes ih =>
    by_cases live : s.status = .running
    · rw [loop_succ live]; exact ih (preserved s live initial)
    · rw [loop_stopped live]; exact initial

/-! ### The effect of a segment -/

def spawned (f : FiberId) : Script → List (Work Script × Option ThreadId)
  | .returns | .throws | .yield _ => []
  | .schedule cb thread rest => (.cb cb,thread) :: spawned f rest
  | .scheduleFiber g thread rest => (.fiber g,thread) :: spawned f rest
  | .scheduleThis thread rest => (.fiber f,thread) :: spawned f rest

def leave : Script → Fiber Script → Fiber Script
  | .returns, fiber => fiber.finish.yield .ended
  | .throws, fiber => fiber.yield .ended
  | .yield rest, fiber => fiber.yield (.suspended rest)
  | .schedule _ _ rest, fiber | .scheduleFiber _ _ rest, fiber | .scheduleThis _ rest, fiber =>
    leave rest fiber

def scheduleAll (q : TaskQueue Script) (works : List (Work Script × Option ThreadId)) :
    TaskQueue Script :=
  works.foldl (fun q work => (q.scheduleNoLock (some work.1) work.2).1) q

theorem runSegment_eq (f : FiberId) (script : Script) (s : State) :
    runSegment f script s = setFiber { s with queue := scheduleAll s.queue (spawned f script) } f
      (leave script (s.fibers f)) := by
  induction script generalizing s with
  | returns | throws | yield => rfl
  | schedule _ _ _ _ ih | scheduleFiber _ _ _ ih | scheduleThis _ _ ih => rw [runSegment,ih]; rfl

def entries (q : TaskQueue Script) : List (Work Script × Option ThreadId) :=
  q.m_tasks.map fun task => (task.work,task.thread)

theorem entries_scheduleAll (q : TaskQueue Script) (works) :
    entries (scheduleAll q works) = entries q ++ works := by
  induction works generalizing q with
  | nil => simp [scheduleAll]
  | cons work works ih =>
    rw [scheduleAll,List.foldl_cons,← scheduleAll,ih]
    simp [entries,TaskQueue.scheduleNoLock]

theorem scheduleAll_accounted (accounted : q.Accounted) (works) : (scheduleAll q works).Accounted := by
  induction works generalizing q with
  | nil => exact accounted
  | cons work works ih => exact ih (TaskQueue.scheduleNoLock_accounted accounted)

/-- The callback of a task; fiber `f` was created for `bodies[f]`. -/
def body (bodies : List Script) : Work Script → Script
  | .cb cb => cb
  | .fiber f => bodies.getD f .returns

/-- `run` is about to start on a queue of tasks. -/
def start (bodies : List Script) (tasks : List (Work Script × Option ThreadId)) (held : FiberId → Bool)
    (m_stopping : Bool) : State where
  queue := scheduleAll .empty tasks
  m_activeThreadCount := 0
  m_stopping := m_stopping
  fibers := fun f => Fiber.create (bodies.getD f .returns)
  created := bodies.length
  held := held
  cb_fiber := none
  idle := .READY
  status := .running

end Myriel.RunLoop

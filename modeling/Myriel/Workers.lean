import Myriel.Fiber
import Myriel.SchedulerQueue
import Myriel.Transition
import Mathlib.Logic.Function.Basic

/-! Any number of workers in `Scheduler::run` over one queue. A section under
`m_mutex` is one step; `resume` and `yield` are cut where another worker can see
the difference: the assertion, the store to `m_state`, the switch of context.
What the tasks do is left open: a running fiber may schedule, yield and end. -/
namespace Myriel.Workers

inductive Pc where
  /-- at the head of the loop -/
  | loop
  /-- a task taken under `m_mutex` -/
  | taken (task : SchedulerTask Unit)
  /-- behind the assertion of `resume` -/
  | resuming (f : FiberId)
  /-- `m_state` is `EXEC`, the switch into the fiber comes next -/
  | marked (f : FiberId)
  | inside (f : FiberId)
  /-- `yield` has set `m_state`, the switch that saves `m_ctx` comes next -/
  | leaving (f : FiberId) (position : Context Unit)
  /-- back in `run`, before `--m_activeThreadCount` -/
  | returned
  /-- the scan has found nothing -/
  | idle
  | exited

/-- `idle w` is the state of the idle fiber of worker `w`, which nobody else can
reach. Fibers below `created` exist; a failed assertion ends the process. -/
structure State (n : Nat) where
  queue : TaskQueue Unit
  m_activeThreadCount : Int
  m_stopping : Bool
  fibers : FiberId → Fiber Unit
  created : Nat
  pc : Fin n → Pc
  idle : Fin n → FiberState
  aborted : Bool

def start : State n where
  queue := .empty
  m_activeThreadCount := 0
  m_stopping := false
  fibers := fun _ => Fiber.create ()
  created := 0
  pc := fun _ => .loop
  idle := fun _ => .READY
  aborted := false

def stopping (s : State n) : Bool :=
  s.m_stopping && s.queue.m_tasks.isEmpty && s.m_activeThreadCount == 0

def abort (s : State n) : State n := { s with aborted := true }

def setPc (s : State n) (w : Fin n) (pc : Pc) : State n := { s with pc := Function.update s.pc w pc }

def setFiber (s : State n) (f : FiberId) (fiber : Fiber Unit) : State n :=
  { s with fibers := Function.update s.fibers f fiber }

/-- The task that worker `w` would take now. -/
def taking (s : State n) (w : Fin n) : Option (SchedulerTask Unit × TaskQueue Unit) :=
  s.queue.take w.val fun f => (s.fibers f).m_state == .EXEC

/-- The next step of worker `w` outside of the code of a task. -/
def advance (s : State n) (w : Fin n) : Option (State n) :=
  match s.pc w with
  | .loop =>
    match taking s w with
    | some (task,rest) =>
      some (setPc { s with queue := rest, m_activeThreadCount := s.m_activeThreadCount + 1 } w (.taken task))
    | none => some (setPc s w .idle)
  | .taken task =>
    match task.work with
    | .fiber f => if (s.fibers f).resumable then some (setPc s w (.resuming f)) else some (abort s)
    | .cb cb =>
      -- `cb_fiber` is null here: it is reset at the end of each pass
      some (setPc { setFiber s s.created (Fiber.create cb) with created := s.created + 1 }
        w (.resuming s.created))
  | .resuming f => some (setPc (setFiber s f (s.fibers f).setExec) w (.marked f))
  | .marked f => some (setPc s w (.inside f))
  | .inside f =>
    match (s.fibers f).m_ctx with
    | .ended => some (abort s)
    | _ => none
  | .leaving f position => some (setPc (setFiber s f ((s.fibers f).save position)) w .returned)
  | .returned => some (setPc { s with m_activeThreadCount := s.m_activeThreadCount - 1 } w .loop)
  | .idle =>
    if s.idle w = .TERM then some (setPc s w .exited)
    else if stopping s then some (setPc { s with idle := Function.update s.idle w .TERM } w .loop)
    else some (setPc s w .loop)
  | .exited => none

/-- `schedule` from any thread; a fiber has to exist. -/
def schedule (s : State n) (work : Option (Work Unit)) (thread : Option ThreadId) : Option (State n) :=
  match work with
  | some (.fiber f) =>
    if f < s.created then some { s with queue := (s.queue.scheduleNoLock work thread).1 } else none
  | _ => some { s with queue := (s.queue.scheduleNoLock work thread).1 }

def create (s : State n) : State n :=
  { setFiber s s.created (Fiber.create ()) with created := s.created + 1 }

/-- What the code of a task can do next. -/
inductive Op where
  | schedule (work : Option (Work Unit)) (thread : Option ThreadId)
  | create
  | yield
  | returns
  | throws

/-- `yield` of fiber `f`, called by its callback or at the end of `MainFunc`. -/
def yield (s : State n) (w : Fin n) (f : FiberId) (position : Context Unit) : State n :=
  if (s.fibers f).yieldable then
    setPc (setFiber s f (s.fibers f).setReady) w (.leaving f position)
  else abort s

def perform (s : State n) (w : Fin n) (op : Op) : Option (State n) :=
  match s.pc w with
  | .inside f =>
    if (s.fibers f).m_ctx = .ended then none else
    match op with
    | .schedule work thread => schedule s work thread
    | .create => some (create s)
    | .yield => some (yield s w f (.suspended ()))
    | .returns => some (yield (setFiber s f (s.fibers f).finish) w f .ended)
    | .throws => some (yield s w f .ended)
  | _ => none

inductive Action (n : Nat) where
  | advance (w : Fin n)
  | perform (w : Fin n) (op : Op)
  /-- `schedule` from a thread outside of the tasks -/
  | schedule (work : Option (Work Unit)) (thread : Option ThreadId)
  | create
  /-- the assignment to `m_stopping` in `Scheduler::stop` -/
  | stop

def step (s : State n) (action : Action n) : Option (State n) :=
  if s.aborted then none else
  match action with
  | .advance w => advance s w
  | .perform w op => perform s w op
  | .schedule work thread => schedule s work thread
  | .create => some (create s)
  | .stop => some { s with m_stopping := true }

abbrev Reachable (s : State n) : Prop := Transition.Reachable step start s

inductive Effect (s : State n) : Action n → State n → Prop where
  | take (pc : s.pc w = .loop) (found : taking s w = some (task,rest)) :
      Effect s (.advance w)
        (setPc { s with queue := rest, m_activeThreadCount := s.m_activeThreadCount + 1 } w (.taken task))
  | none (pc : s.pc w = .loop) (found : taking s w = none) :
      Effect s (.advance w) (setPc s w .idle)
  | resume (pc : s.pc w = .taken task) (work : task.work = .fiber f)
      (ready : (s.fibers f).m_state = .READY) :
      Effect s (.advance w) (setPc s w (.resuming f))
  | callback (pc : s.pc w = .taken task) (work : task.work = .cb cb) :
      Effect s (.advance w)
        (setPc { setFiber s s.created (Fiber.create cb) with created := s.created + 1 }
          w (.resuming s.created))
  | exec (pc : s.pc w = .resuming f) :
      Effect s (.advance w) (setPc (setFiber s f (s.fibers f).setExec) w (.marked f))
  | switchIn (pc : s.pc w = .marked f) : Effect s (.advance w) (setPc s w (.inside f))
  | switchOut (pc : s.pc w = .leaving f position) :
      Effect s (.advance w) (setPc (setFiber s f ((s.fibers f).save position)) w .returned)
  | finished (pc : s.pc w = .returned) :
      Effect s (.advance w)
        (setPc { s with m_activeThreadCount := s.m_activeThreadCount - 1 } w .loop)
  | exit (pc : s.pc w = .idle) (term : s.idle w = .TERM) : Effect s (.advance w) (setPc s w .exited)
  | idleEnds (pc : s.pc w = .idle) (live : s.idle w ≠ .TERM) (stops : stopping s = true) :
      Effect s (.advance w) (setPc { s with idle := Function.update s.idle w .TERM } w .loop)
  | idleYields (pc : s.pc w = .idle) (live : s.idle w ≠ .TERM) (runs : stopping s = false) :
      Effect s (.advance w) (setPc s w .loop)
  | abort : Effect s action (abort s)
  | runningSchedules (pc : s.pc w = .inside f) (scheduled : schedule s work thread = some t) :
      Effect s (.perform w (.schedule work thread)) t
  | runningCreates (pc : s.pc w = .inside f) : Effect s (.perform w .create) (create s)
  | yields (pc : s.pc w = .inside f) (position : Context Unit) :
      Effect s (.perform w op) (setPc (setFiber s f (s.fibers f).setReady) w (.leaving f position))
  | ends (pc : s.pc w = .inside f) :
      Effect s (.perform w .returns) (setPc (setFiber s f (s.fibers f).finish) w (.leaving f .ended))
  | schedules (scheduled : schedule s work thread = some t) : Effect s (.schedule work thread) t
  | creates : Effect s .create (create s)
  | stops : Effect s .stop { s with m_stopping := true }

theorem schedule_some {s t : State n} (scheduled : schedule s work thread = some t) :
    t = { s with queue := (s.queue.scheduleNoLock work thread).1 } ∧
      ∀ f, work = some (.fiber f) → f < s.created := by
  simp only [schedule] at scheduled
  split at scheduled
  next f =>
    split at scheduled
    next known => cases scheduled; exact ⟨rfl,by rintro g ⟨⟩; exact known⟩
    next => contradiction
  next other => cases scheduled; exact ⟨rfl,fun f same => absurd same (other f)⟩

theorem setFiber_setFiber (s : State n) (f : FiberId) (first second : Fiber Unit) :
    setFiber (setFiber s f first) f second = setFiber s f second := by
  simp [setFiber]

theorem advance_effect (ran : advance s w = some t) : Effect s (.advance w) t := by
  simp only [advance] at ran
  split at ran
  next pc =>
    split at ran
    next found => cases ran; exact .take pc found
    next found => cases ran; exact .none pc found
  next pc =>
    split at ran
    next work =>
      split at ran
      next ready => cases ran; exact .resume pc work ((Fiber.resumable_iff _).mp ready)
      next => cases ran; exact .abort
    next work => cases ran; exact .callback pc work
  next pc => cases ran; exact .exec pc
  next pc => cases ran; exact .switchIn pc
  next pc =>
    split at ran
    · cases ran; exact .abort
    · contradiction
  next pc => cases ran; exact .switchOut pc
  next pc => cases ran; exact .finished pc
  next pc =>
    split at ran
    next term => cases ran; exact .exit pc term
    next live =>
      split at ran
      next stops => cases ran; exact .idleEnds pc live stops
      next runs => cases ran; exact .idleYields pc live (Bool.eq_false_iff.mpr runs)
  next => contradiction

theorem perform_effect (ran : perform s w op = some t) : Effect s (.perform w op) t := by
  simp only [perform] at ran
  split at ran
  next f pc =>
    split at ran
    · contradiction
    · cases op with
      | schedule work thread => exact .runningSchedules pc ran
      | create => cases ran; exact .runningCreates pc
      | yield | throws =>
        simp only [yield] at ran
        split at ran
        · cases ran; exact .yields pc _
        · cases ran; exact .abort
      | returns =>
        have yieldable : ((setFiber s f (s.fibers f).finish).fibers f).yieldable = true := by
          simp [setFiber,Fiber.yieldable]
        simp only [yield,yieldable,↓reduceIte,Option.some.injEq] at ran
        rw [setFiber_setFiber] at ran
        subst ran
        have same : ((setFiber s f (s.fibers f).finish).fibers f).setReady = (s.fibers f).finish := by
          simp [setFiber,Fiber.setReady,Fiber.finish]
        rw [same]
        exact .ends pc
  next => contradiction

theorem step_effect (ran : step s action = some t) : s.aborted = false ∧ Effect s action t := by
  simp only [step] at ran
  split at ran
  · contradiction
  next live =>
    refine ⟨Bool.eq_false_iff.mpr live,?_⟩
    cases action with
    | advance w => exact advance_effect ran
    | perform w op => exact perform_effect ran
    | schedule work thread => exact .schedules ran
    | create => cases ran; exact .creates
    | stop => cases ran; exact .stops

end Myriel.Workers

import Myriel.RunLoopPass
import Myriel.Transition

/-! `Scheduler::run` on one thread, call by call: other threads may call `schedule`
whenever the loop or the running callback is between two calls. The calls of a pass
without interference make up `RunLoop.iterate`. -/
namespace Myriel.RunSteps

open RunLoop (Script setFiber fail schedule release resetCbFiber stopping leave)

/-- The fiber that `run` has resumed, with what is left of its segment; `callback`
when the task was a function. -/
structure Running where
  fiber : FiberId
  script : Script
  callback : Bool
  deriving DecidableEq

structure State where
  loop : RunLoop.State
  current : Option Running

/-- `resume` up to the switch into the fiber. -/
def enter (s : RunLoop.State) (f : FiberId) (callback : Bool) : State :=
  if (s.fibers f).resumable then
    let entered := setFiber s f (s.fibers f).setExec
    match (s.fibers f).m_ctx with
    | .ended => ⟨fail entered .neverReach,none⟩
    | .entry script | .suspended script => ⟨entered,some ⟨f,script,callback⟩⟩
  else ⟨fail s .resume,none⟩

def taking (self : ThreadId) (s : RunLoop.State) : Option (SchedulerTask Script × TaskQueue Script) :=
  s.queue.take self fun f => (s.fibers f).m_state == .EXEC

/-- A pass of the loop up to the switch into its task. -/
def pass (self : ThreadId) (s : RunLoop.State) : State :=
  match taking self s with
  | some (task,rest) =>
    let s := { s with queue := rest, m_activeThreadCount := s.m_activeThreadCount + 1 }
    match task.work with
    | .fiber f => enter s f false
    | .cb cb =>
      match s.cb_fiber with
      | some f =>
        match (s.fibers f).reset cb with
        | some fiber => enter (setFiber s f fiber) f true
        | none => ⟨fail s .reset,none⟩
      | none =>
        let f := s.created
        enter { setFiber s f (Fiber.create cb) with created := f + 1, cb_fiber := some f } f true
  | none =>
    if s.idle = .TERM then ⟨{ s with status := .exited },none⟩
    else if stopping s then ⟨{ s with idle := .TERM },none⟩
    else ⟨s,none⟩

/-- The rest of the pass once the fiber has switched back. -/
def back (s : RunLoop.State) (running : Running) : State :=
  let f := running.fiber
  let left := setFiber s f (leave running.script (s.fibers f))
  let left := { left with m_activeThreadCount := left.m_activeThreadCount - 1 }
  ⟨release (if running.callback then resetCbFiber left else left) f,none⟩

/-- The `schedule` call that a callback on fiber `f` makes next, and what is left then. -/
def request (f : FiberId) : Script → Option ((Work Script × Option ThreadId) × Script)
  | .schedule cb thread rest => some ((.cb cb,thread),rest)
  | .scheduleFiber g thread rest => some ((.fiber g,thread),rest)
  | .scheduleThis thread rest => some ((.fiber f,thread),rest)
  | .returns | .throws | .yield _ => none

def known (s : RunLoop.State) : Option (Work Script) → Bool
  | some (.fiber f) => f < s.created
  | _ => true

/-- The next call of the running callback, or its switch back. -/
def call (s : RunLoop.State) (running : Running) : Option State :=
  match request running.fiber running.script with
  | some ((work,thread),rest) =>
    if known s (some work) then
      some ⟨schedule s (some work) thread,some { running with script := rest }⟩
    else none
  | none => some (back s running)

inductive Action where
  | pass
  | call
  /-- `schedule` from outside of the tasks -/
  | schedule (work : Option (Work Script)) (thread : Option ThreadId)
  /-- the assignment to `m_stopping` in `Scheduler::stop` -/
  | stop

def failed (s : State) : Bool :=
  match s.loop.status with
  | .failed _ => true
  | _ => false

/-- A failed assertion ends the process. -/
def step (self : ThreadId) (s : State) (action : Action) : Option State :=
  if failed s then none else
  match action with
  | .pass => if s.current = none ∧ s.loop.status = .running then some (pass self s.loop) else none
  | .call => s.current.bind (call s.loop)
  | .schedule work thread =>
    if known s.loop work then some { s with loop := schedule s.loop work thread } else none
  | .stop => some { s with loop := { s.loop with m_stopping := true } }

def start (bodies : List Script) (held : FiberId → Bool) : State :=
  ⟨RunLoop.start bodies [] held false,none⟩

abbrev Reachable (self : ThreadId) (bodies : List Script) (held : FiberId → Bool) : State → Prop :=
  Transition.Reachable (step self) (start bodies held)

def scheduled (s : State) : Action → Option (Work Script × Option ThreadId)
  | .schedule work thread => work.map fun work => (work,thread)
  | .call => s.current.bind fun running => (request running.fiber running.script).map Prod.fst
  | .pass | .stop => none

inductive Effect (self : ThreadId) (s : State) : Action → State → Prop where
  | pass (head : s.current = none) (live : s.loop.status = .running) :
      Effect self s .pass (pass self s.loop)
  | outside (made : known s.loop work = true) :
      Effect self s (.schedule work thread) { s with loop := schedule s.loop work thread }
  | calls (running : s.current = some r) (requested : request r.fiber r.script = some ((work,thread),rest))
      (made : known s.loop (some work) = true) :
      Effect self s .call ⟨schedule s.loop (some work) thread,some { r with script := rest }⟩
  | leaves (running : s.current = some r) (requested : request r.fiber r.script = none) :
      Effect self s .call (back s.loop r)
  | stops : Effect self s .stop { s with loop := { s.loop with m_stopping := true } }

theorem step_effect (ran : step self s action = some t) : failed s = false ∧ Effect self s action t := by
  simp only [step] at ran
  split at ran
  · contradiction
  next live =>
    refine ⟨Bool.eq_false_iff.mpr live,?_⟩
    cases action with
    | pass =>
      dsimp only at ran
      split at ran
      next enabled => cases ran; exact .pass enabled.1 enabled.2
      next => contradiction
    | call =>
      obtain ⟨r,running,called⟩ := Option.bind_eq_some_iff.mp ran
      simp only [call] at called
      split at called
      next requested =>
        split at called
        next made => cases called; exact .calls running requested made
        next => contradiction
      next requested => cases called; exact .leaves running requested
    | schedule work thread =>
      dsimp only at ran
      split at ran
      next made => cases ran; exact .outside made
      next => contradiction
    | stop => cases ran; exact .stops

theorem enter_cases (s : RunLoop.State) (f : FiberId) (callback : Bool) :
    ((s.fibers f).m_state = .READY ∧ ∃ script, (s.fibers f).m_ctx.script = some script ∧
      enter s f callback = ⟨setFiber s f (s.fibers f).setExec,some ⟨f,script,callback⟩⟩) ∨
    ((s.fibers f).m_state = .READY ∧ (s.fibers f).m_ctx.script = none ∧
      enter s f callback = ⟨fail (setFiber s f (s.fibers f).setExec) .neverReach,none⟩) ∨
    ((s.fibers f).m_state ≠ .READY ∧ enter s f callback = ⟨fail s .resume,none⟩) := by
  by_cases free : (s.fibers f).resumable = true
  · have ready := (Fiber.resumable_iff _).mp free
    cases ctx : (s.fibers f).m_ctx with
    | entry script | suspended script =>
      exact .inl ⟨ready,script,rfl,by simp [enter,free,ctx]⟩
    | ended => exact .inr (.inl ⟨ready,rfl,by simp [enter,free,ctx]⟩)
  · refine .inr (.inr ⟨fun ready => free ((Fiber.resumable_iff _).mpr ready),?_⟩)
    simp [enter,free]

def counted (s : RunLoop.State) (rest : TaskQueue Script) : RunLoop.State :=
  { s with queue := rest, m_activeThreadCount := s.m_activeThreadCount + 1 }

def made (s : RunLoop.State) (rest : TaskQueue Script) (cb : Script) : RunLoop.State :=
  { setFiber (counted s rest) s.created (Fiber.create cb) with
    created := s.created + 1
    cb_fiber := some s.created }

/-- Everything a pass can do while `cb_fiber` is null, as it is at each loop head. -/
inductive PassEffect (self : ThreadId) (s : RunLoop.State) : State → Prop where
  | resumes (found : taking self s = some (task,rest)) (work : task.work = .fiber f)
      (ready : (s.fibers f).m_state = .READY) (segment : (s.fibers f).m_ctx.script = some script) :
      PassEffect self s ⟨setFiber (counted s rest) f (s.fibers f).setExec,some ⟨f,script,false⟩⟩
  | callback (found : taking self s = some (task,rest)) (work : task.work = .cb cb) :
      PassEffect self s
        ⟨setFiber (made s rest cb) s.created (Fiber.create cb).setExec,some ⟨s.created,cb,true⟩⟩
  | ended (found : taking self s = some (task,rest)) (work : task.work = .fiber f)
      (ready : (s.fibers f).m_state = .READY) (nothing : (s.fibers f).m_ctx.script = none) :
      PassEffect self s ⟨fail (setFiber (counted s rest) f (s.fibers f).setExec) .neverReach,none⟩
  | refused (found : taking self s = some (task,rest)) (work : task.work = .fiber f)
      (stuck : (s.fibers f).m_state ≠ .READY) : PassEffect self s ⟨fail (counted s rest) .resume,none⟩
  | exits (found : taking self s = none) (term : s.idle = .TERM) :
      PassEffect self s ⟨{ s with status := .exited },none⟩
  | idleEnds (found : taking self s = none) (live : s.idle ≠ .TERM) (stops : stopping s = true) :
      PassEffect self s ⟨{ s with idle := .TERM },none⟩
  | idleYields (found : taking self s = none) (live : s.idle ≠ .TERM) (runs : stopping s = false) :
      PassEffect self s ⟨s,none⟩

theorem pass_effect (self : ThreadId) (dropped : s.cb_fiber = none) : PassEffect self s (pass self s) := by
  cases found : taking self s with
  | none =>
    by_cases term : s.idle = .TERM
    · simpa [pass,found,term] using PassEffect.exits found term
    · by_cases stops : stopping s = true
      · simpa [pass,found,term,stops] using PassEffect.idleEnds found term stops
      · simpa [pass,found,term,stops] using
          PassEffect.idleYields found term (Bool.eq_false_iff.mpr stops)
  | some pair =>
    obtain ⟨task,rest⟩ := pair
    cases work : task.work with
    | fiber f =>
      have entered : pass self s = enter (counted s rest) f false := by
        simp only [pass,found,work,counted]
      rw [entered]
      rcases enter_cases (counted s rest) f false with
        ⟨ready,script,segment,eq⟩ | ⟨ready,nothing,eq⟩ | ⟨stuck,eq⟩
      · rw [eq]; exact .resumes found work ready segment
      · rw [eq]; exact .ended found work ready nothing
      · rw [eq]; exact .refused found work stuck
    | cb cb =>
      have entered : pass self s = enter (made s rest cb) s.created true := by
        simp only [pass,found,work,dropped,made,counted]
      have fresh : (made s rest cb).fibers s.created = Fiber.create cb := by simp [made,setFiber]
      rw [entered]
      rcases enter_cases (made s rest cb) s.created true with
        ⟨_,script,segment,eq⟩ | ⟨_,nothing,_⟩ | ⟨stuck,_⟩
      · rw [fresh] at segment eq
        cases segment
        rw [eq]
        exact .callback found work
      · rw [fresh] at nothing; contradiction
      · rw [fresh] at stuck; exact absurd rfl stuck

/-! ### What holds between two steps -/

theorem leave_executing (script : Script) (fiber : Fiber Script) (exec : fiber.m_state = .EXEC) :
    (leave script fiber).m_state ≠ .EXEC := by
  induction script with
  | returns => simp [leave,Fiber.yield]
  | throws | yield => simp [leave,Fiber.yield,Fiber.setReady,exec]
  | schedule _ _ _ _ ih | scheduleFiber _ _ _ ih | scheduleThis _ _ ih => exact ih

theorem known_iff (s : RunLoop.State) (work : Option (Work Script)) :
    known s work = true ↔ ∀ f, work = some (.fiber f) → f < s.created := by
  unfold known
  split
  next g =>
    rw [decide_eq_true_iff]
    constructor
    · rintro made f ⟨⟩; exact made
    · intro made; exact made g rfl
  next other => exact ⟨fun _ f same => (other f same).elim,fun _ => rfl⟩

def Queued (s : RunLoop.State) : Prop :=
  ∀ task ∈ s.queue.m_tasks, ∀ f, task.work = .fiber f → f < s.created

/-- What holds of the work of all tasks holds of it after a `schedule` with such work, -/
theorem schedule_all {s : RunLoop.State} (property : Work Script → Prop)
    (all : ∀ task ∈ s.queue.m_tasks, property task.work) (new : ∀ asked, work = some asked → property asked) :
    ∀ task ∈ (schedule s work thread).queue.m_tasks, property task.work := by
  cases work with
  | none => exact all
  | some work =>
    intro task member
    simp only [schedule,TaskQueue.scheduleNoLock,List.mem_append,List.mem_singleton] at member
    rcases member with old | rfl
    · exact all task old
    · exact new work rfl

/-- and of the task that `run` takes and of the others. -/
theorem taking_all {s : RunLoop.State} (property : Work Script → Prop)
    (all : ∀ task ∈ s.queue.m_tasks, property task.work) (found : taking self s = some (task,rest)) :
    property task.work ∧ ∀ other ∈ rest.m_tasks, property other.work := by
  obtain ⟨front,back,split,rfl,_⟩ := TaskQueue.take_some found
  refine ⟨all task (by simp [split]),fun other member => all other ?_⟩
  rw [split]
  rcases List.mem_append.mp member with before | after
  · simp [before]
  · simp [after]

theorem schedule_queued {s : RunLoop.State} (queued : Queued s) (made : known s work = true) :
    Queued (schedule s work thread) :=
  schedule_all (fun work => ∀ f, work = .fiber f → f < s.created) queued
    fun _ asked f same => (known_iff s work).mp made f (asked.trans (congrArg some same))

theorem taking_queued {s : RunLoop.State} (queued : Queued s) (found : taking self s = some (task,rest)) :
    (∀ f, task.work = .fiber f → f < s.created) ∧
      ∀ task ∈ rest.m_tasks, ∀ f, task.work = .fiber f → f < s.created :=
  taking_all (fun work => ∀ f, work = .fiber f → f < s.created) queued found

/-- The state behind a switch back, before `run` lets go of its pointer. -/
theorem back_cases (s : RunLoop.State) (r : Running) : ∃ left : RunLoop.State,
    (back s r = ⟨left,none⟩ ∨ back s r = ⟨fail left .destructor,none⟩) ∧
    left = { s with
      fibers := Function.update s.fibers r.fiber (leave r.script (s.fibers r.fiber))
      m_activeThreadCount := s.m_activeThreadCount - 1
      cb_fiber := if r.callback then none else s.cb_fiber } := by
  refine ⟨_,?_,rfl⟩
  cases callback : r.callback with
  | true =>
    rcases RunLoop.release_cases (resetCbFiber { setFiber s r.fiber _ with
      m_activeThreadCount := s.m_activeThreadCount - 1 }) r.fiber with same | lost
    · exact .inl (by simp only [back,callback]; exact congrArg (State.mk · none) same)
    · exact .inr (by simp only [back,callback]; exact congrArg (State.mk · none) lost)
  | false =>
    rcases RunLoop.release_cases { setFiber s r.fiber _ with
      m_activeThreadCount := s.m_activeThreadCount - 1 } r.fiber with same | lost
    · exact .inl (by simp only [back,callback]; exact congrArg (State.mk · none) same)
    · exact .inr (by simp only [back,callback]; exact congrArg (State.mk · none) lost)

structure Settled (s : State) : Prop where
  callback : s.loop.cb_fiber = s.current.bind fun r => if r.callback then some r.fiber else none
  executing : ∀ f, (s.loop.fibers f).m_state = .EXEC ↔ ∃ r, s.current = some r ∧ r.fiber = f
  created : ∀ r, s.current = some r → r.fiber < s.loop.created
  queued : Queued s.loop
  idle : s.loop.idle ≠ .EXEC

theorem start_settled (bodies : List Script) (held : FiberId → Bool) : Settled (start bodies held) where
  callback := rfl
  executing := by simp [start,RunLoop.start,Fiber.create]
  created := by simp [start]
  queued := by simp [Queued,start,RunLoop.start,RunLoop.scheduleAll,TaskQueue.empty]
  idle := by simp [start,RunLoop.start]

theorem pass_settled (settled : Settled s) (head : s.current = none) :
    failed (pass self s.loop) = true ∨ Settled (pass self s.loop) := by
  have dropped : s.loop.cb_fiber = none := by simp [settled.callback,head]
  have free : ∀ f, (s.loop.fibers f).m_state ≠ .EXEC := by simp [settled.executing,head]
  have effect := pass_effect self dropped
  generalize pass self s.loop = t at effect ⊢
  cases effect with
  | @resumes task rest f script found work ready segment =>
    right
    obtain ⟨made,left⟩ := taking_queued settled.queued found
    refine ⟨dropped,?_,?_,left,settled.idle⟩
    · intro g
      by_cases same : g = f
      · simp [setFiber,counted,same]
      · simpa [setFiber,counted,same,free] using fun wrong : f = g => same wrong.symm
    · rintro r ⟨⟩; exact made f work
  | @callback task rest cb found work =>
    right
    obtain ⟨_,left⟩ := taking_queued settled.queued found
    refine ⟨rfl,?_,?_,?_,settled.idle⟩
    · intro g
      by_cases same : g = s.loop.created
      · simp [setFiber,same]
      · simpa [setFiber,made,counted,same,free] using fun wrong : s.loop.created = g => same wrong.symm
    · rintro r ⟨⟩; exact Nat.lt_succ_self _
    · exact fun task member f same => Nat.lt_succ_of_lt (left task member f same)
  | ended | refused => exact .inl rfl
  | exits => exact .inr ⟨dropped,by simpa [head] using settled.executing,by simp,settled.queued,settled.idle⟩
  | idleEnds => exact .inr ⟨dropped,by simpa [head] using settled.executing,by simp,settled.queued,by simp⟩
  | idleYields => exact .inr ⟨dropped,by simpa [head] using settled.executing,by simp,settled.queued,settled.idle⟩

theorem back_settled (settled : Settled s) (running : s.current = some r) :
    failed (back s.loop r) = true ∨ Settled (back s.loop r) := by
  obtain ⟨left,same | lost,eq⟩ := back_cases s.loop r
  · right
    rw [same,eq]
    have exec := (settled.executing r.fiber).mpr ⟨r,running,rfl⟩
    refine ⟨?_,?_,by simp,settled.queued,settled.idle⟩
    · cases callback : r.callback <;> simp [settled.callback,running,callback]
    · intro g
      by_cases here : g = r.fiber
      · simp [here,leave_executing _ _ exec]
      · have other : ¬ ∃ r', s.current = some r' ∧ r'.fiber = g := by
          rintro ⟨r',again,rfl⟩
          cases running.symm.trans again
          exact here rfl
        simpa [here,settled.executing] using other
  · rw [lost]; exact .inl rfl

theorem step_settled (settled : Settled s) (ran : step self s action = some t) :
    failed t = true ∨ Settled t := by
  obtain ⟨_,effect⟩ := step_effect ran
  cases effect with
  | pass head => exact pass_settled settled head
  | outside made =>
    exact .inr ⟨settled.callback,settled.executing,settled.created,schedule_queued settled.queued made,settled.idle⟩
  | @calls r work thread rest running requested made =>
    refine .inr ⟨?_,?_,?_,schedule_queued settled.queued made,settled.idle⟩
    · simpa [running,schedule] using settled.callback
    · simpa [running,schedule] using settled.executing
    · rintro _ ⟨⟩; exact settled.created r running
  | leaves running => exact back_settled settled running
  | stops =>
    exact .inr ⟨settled.callback,settled.executing,settled.created,settled.queued,settled.idle⟩

theorem reachable_settled (reach : Reachable self bodies held s) : failed s = true ∨ Settled s := by
  refine reach.invariant (step self) (fun s => failed s = true ∨ Settled s) ?_
    (.inr (start_settled bodies held))
  intro s action t settled ran
  rcases settled with broken | settled
  · rw [(step_effect ran).1] at broken; contradiction
  · exact step_settled settled ran

/-! ### A pass without interference -/

theorem calls_idle {s : RunLoop.State} (ran : Transition.run (step self) ⟨s,none⟩
    (List.replicate calls .call) = some t) : t = ⟨s,none⟩ := by
  cases calls with
  | zero => cases ran; rfl
  | succ calls =>
    obtain ⟨_,first,_⟩ := (Transition.run_cons_some _).mp ran
    cases (step_effect first).2 with
    | calls running | leaves running => contradiction

/-- The calls of a segment, one after the other, are the segment. -/
theorem calls_segment {s : RunLoop.State} (ran : Transition.run (step self)
    ⟨s,some ⟨f,script,callback⟩⟩ (List.replicate calls .call) = some ⟨t,none⟩) :
    t = release (if callback then resetCbFiber { RunLoop.runSegment f script s with
        m_activeThreadCount := (RunLoop.runSegment f script s).m_activeThreadCount - 1 }
      else { RunLoop.runSegment f script s with
        m_activeThreadCount := (RunLoop.runSegment f script s).m_activeThreadCount - 1 }) f := by
  induction script generalizing s calls with
  | returns | throws | yield =>
    cases calls with
    | zero => cases ran
    | succ calls =>
      obtain ⟨middle,first,rest⟩ := (Transition.run_cons_some _).mp ran
      cases (step_effect first).2 with
      | calls running requested => cases running; contradiction
      | leaves running =>
        cases running
        exact congrArg State.loop (calls_idle (s := (back s ⟨f,_,callback⟩).loop) rest)
  | schedule _ _ _ _ ih | scheduleFiber _ _ _ ih | scheduleThis _ _ ih =>
    cases calls with
    | zero => cases ran
    | succ calls =>
      obtain ⟨middle,first,rest⟩ := (Transition.run_cons_some _).mp ran
      cases (step_effect first).2 with
      | calls running requested =>
        cases running
        cases requested
        exact ih rest
      | leaves running requested => cases running; contradiction

/-- When nobody else schedules, a pass and the calls of its segment are one `iterate`. -/
theorem pass_calls_iterate {s : RunLoop.State} (dropped : s.cb_fiber = none)
    (ran : Transition.run (step self) ⟨s,none⟩ (.pass :: List.replicate calls .call) = some ⟨t,none⟩) :
    t = RunLoop.iterate self s := by
  obtain ⟨middle,first,rest⟩ := (Transition.run_cons_some _).mp ran
  cases (step_effect first).2 with
  | pass head live =>
    have effect := pass_effect self dropped
    dsimp only at rest effect live
    generalize passed : pass self s = middle at effect rest
    cases effect with
    | @resumes task left f script found work ready segment =>
      rw [calls_segment rest]
      have free := (Fiber.resumable_iff _).mpr ready
      rw [taking] at found
      cases ctx : (s.fibers f).m_ctx with
      | ended => simp [ctx,Context.script] at segment
      | entry cb | suspended cb =>
        rw [ctx] at segment
        cases segment
        simp [RunLoop.iterate,found,work,RunLoop.resume,free,ctx,counted]
    | @callback task left cb found work =>
      rw [calls_segment rest]
      rw [taking] at found
      simp [RunLoop.iterate,found,work,dropped,RunLoop.resume,made,counted,setFiber,Fiber.create,Fiber.resumable]
    | @ended task left f found work ready nothing =>
      cases calls_idle rest
      rw [taking] at found
      have free := (Fiber.resumable_iff _).mpr ready
      cases ctx : (s.fibers f).m_ctx with
      | ended => simp [RunLoop.iterate,found,work,RunLoop.resume,free,ctx,counted,release,fail]
      | entry cb | suspended cb => simp [ctx,Context.script] at nothing
    | @refused task left f found work stuck =>
      cases calls_idle rest
      rw [taking] at found
      have bound : (s.fibers f).resumable = false :=
        Bool.eq_false_iff.mpr fun free => stuck ((Fiber.resumable_iff _).mp free)
      simp [RunLoop.iterate,found,work,RunLoop.resume,bound,counted,release,fail]
    | exits found term =>
      cases calls_idle rest
      rw [taking] at found
      simp [RunLoop.iterate,found,term]
    | idleEnds found live stops =>
      cases calls_idle rest
      rw [taking] at found
      simp [RunLoop.iterate,found,live,stops]
    | idleYields found live runs =>
      cases calls_idle rest
      rw [taking] at found
      simp [RunLoop.iterate,found,live,runs]

end Myriel.RunSteps

import Myriel.RunSteps
import Myriel.WorkersOwnership
import Mathlib.Logic.Equiv.Basic

/-! The loop of one thread is a run of one worker: what the model of the workers leaves open,
the scripts of the tasks, is forgotten, and the thread becomes worker 0. -/
namespace Myriel.Workers

variable {n : Nat} {s : State n}

/-! ### A worker through its loop -/

theorem run_fiber (live : s.aborted = false) (pc : s.pc w = .loop) (found : taking s w = some (task,rest))
    (work : task.work = .fiber f) (ready : (s.fibers f).m_state = .READY) :
    Transition.run step s [.advance w,.advance w,.advance w,.advance w] = some { s with
      queue := rest
      m_activeThreadCount := s.m_activeThreadCount + 1
      fibers := Function.update s.fibers f (s.fibers f).setExec
      pc := Function.update s.pc w (.inside f) } := by
  have free := (Fiber.resumable_iff _).mpr ready
  simp [Transition.run_cons,step,live,advance,pc,found,setPc,setFiber,work,free]

theorem run_callback (live : s.aborted = false) (pc : s.pc w = .loop) (found : taking s w = some (task,rest))
    (work : task.work = .cb cb) :
    Transition.run step s [.advance w,.advance w,.advance w,.advance w] = some { s with
      queue := rest
      m_activeThreadCount := s.m_activeThreadCount + 1
      fibers := Function.update s.fibers s.created (Fiber.create cb).setExec
      created := s.created + 1
      pc := Function.update s.pc w (.inside s.created) } := by
  simp [Transition.run_cons,step,live,advance,pc,found,setPc,setFiber,work]

theorem run_refused (live : s.aborted = false) (pc : s.pc w = .loop) (found : taking s w = some (task,rest))
    (work : task.work = .fiber f) (stuck : (s.fibers f).m_state ≠ .READY) :
    ∃ t, Transition.run step s [.advance w,.advance w] = some t ∧ t.aborted = true ∧ t.queue = rest := by
  have refused : (s.fibers f).resumable = false :=
    Bool.eq_false_iff.mpr fun free => stuck ((Fiber.resumable_iff _).mp free)
  simp [Transition.run_cons,step,live,advance,pc,found,setPc,work,refused,abort]

theorem run_ended (live : s.aborted = false) (pc : s.pc w = .loop) (found : taking s w = some (task,rest))
    (work : task.work = .fiber f) (ready : (s.fibers f).m_state = .READY) (ended : (s.fibers f).m_ctx = .ended) :
    ∃ t, Transition.run step s [.advance w,.advance w,.advance w,.advance w,.advance w] = some t ∧
      t.aborted = true ∧ t.queue = rest := by
  have free := (Fiber.resumable_iff _).mpr ready
  simp [Transition.run_cons,step,live,advance,pc,found,setPc,setFiber,work,free,Fiber.setExec,ended,abort]

theorem run_idle (live : s.aborted = false) (pc : s.pc w = .loop) (found : taking s w = none) :
    Transition.run step s [.advance w,.advance w] = some (
      if s.idle w = .TERM then { s with pc := Function.update s.pc w .exited }
      else if stopping s = true then
        { s with pc := Function.update s.pc w .loop, idle := Function.update s.idle w .TERM }
      else { s with pc := Function.update s.pc w .loop }) := by
  have same (after : Pc) : stopping (setPc s w after) = stopping s := rfl
  simp only [Transition.run_cons,step,live,Bool.false_eq_true,↓reduceIte,advance,pc,found,Option.bind_some]
  simp only [setPc,Function.update_self,live,Bool.false_eq_true,↓reduceIte] at same ⊢
  rw [same]
  split_ifs <;> simp

theorem run_leaves (live : s.aborted = false) (left : step s action = some { s with
      fibers := Function.update s.fibers f fiber
      pc := Function.update s.pc w (.leaving f position) }) :
    Transition.run step s [action,.advance w,.advance w] = some { s with
      m_activeThreadCount := s.m_activeThreadCount - 1
      fibers := Function.update s.fibers f (fiber.save position)
      pc := Function.update s.pc w .loop } := by
  rw [Transition.run_cons,left,Option.bind_some]
  simp [Transition.run_cons,step,live,advance,setPc,setFiber]

section Inside
variable {w : Fin n} {f : FiberId} (live : s.aborted = false) (inside : s.pc w = .inside f) (exec : (s.fibers f).m_state = .EXEC)
  (unended : (s.fibers f).m_ctx ≠ .ended)
include live inside exec unended

theorem step_yield : step s (.perform w .yield) = some { s with
    fibers := Function.update s.fibers f (s.fibers f).setReady
    pc := Function.update s.pc w (.leaving f (.suspended ())) } := by
  simp [step,live,perform,inside,unended,yield,Fiber.yieldable,exec,setPc,setFiber]

theorem step_throws : step s (.perform w .throws) = some { s with
    fibers := Function.update s.fibers f (s.fibers f).setReady
    pc := Function.update s.pc w (.leaving f .ended) } := by
  simp [step,live,perform,inside,unended,yield,Fiber.yieldable,exec,setPc,setFiber]

omit exec in
theorem step_returns : step s (.perform w .returns) = some { s with
    fibers := Function.update s.fibers f (s.fibers f).finish.setReady
    pc := Function.update s.pc w (.leaving f .ended) } := by
  simp [step,live,perform,inside,unended,yield,Fiber.yieldable,setPc,setFiber]

end Inside

end Myriel.Workers

namespace Myriel.RunSteps

open RunLoop (Script)

section View
variable (self : ThreadId)

def eraseWork : Work Script → Work Unit
  | .fiber f => .fiber f
  | .cb _ => .cb ()

/-- The thread of the loop is the worker, the others are told apart as before. -/
def eraseThread (thread : Option ThreadId) : Option ThreadId := thread.map (Equiv.swap self 0)

def eraseTask (task : SchedulerTask Script) : SchedulerTask Unit :=
  ⟨eraseWork task.work,eraseThread self task.thread,task.id⟩

def eraseQueue (q : TaskQueue Script) : TaskQueue Unit := ⟨q.m_tasks.map (eraseTask self),q.accepted,q.taken⟩

def eraseContext : Context Script → Context Unit
  | .entry _ => .entry ()
  | .suspended _ => .suspended ()
  | .ended => .ended

def eraseFiber (fiber : Fiber Script) : Fiber Unit :=
  ⟨fiber.m_state,eraseContext fiber.m_ctx,fiber.m_cb.map fun _ => ()⟩

def position (s : State) : Workers.Pc :=
  match s.current with
  | some r => .inside r.fiber
  | none => if s.loop.status = .running then .loop else .exited

def view (s : State) : Workers.State 1 where
  queue := eraseQueue self s.loop.queue
  m_activeThreadCount := s.loop.m_activeThreadCount
  m_stopping := s.loop.m_stopping
  fibers := fun f => eraseFiber (s.loop.fibers f)
  created := s.loop.created
  pc := fun _ => position s
  idle := fun _ => s.loop.idle
  aborted := false

end View

/-! ### The queue -/

theorem eraseThread_eq (self : ThreadId) (thread : Option ThreadId) :
    eraseThread self thread = none ∨ eraseThread self thread = some 0 ↔ thread = none ∨ thread = some self := by
  cases thread with
  | none => simp [eraseThread]
  | some other => simp [eraseThread,Equiv.swap_apply_eq_iff]

theorem elsewhere_erase (self : ThreadId) (task : SchedulerTask Script) :
    TaskQueue.elsewhere 0 (eraseTask self task) = TaskQueue.elsewhere self task := by
  have same := eraseThread_eq self task.thread
  rw [Bool.eq_iff_iff]
  simp only [TaskQueue.elsewhere,eraseTask,Bool.and_eq_true,bne_iff_ne,ne_eq]
  tauto

theorem running_erase (self : ThreadId) (exec : FiberId → Bool) (task : SchedulerTask Script) :
    TaskQueue.running exec (eraseTask self task) = TaskQueue.running exec task := by
  cases work : task.work <;> simp [TaskQueue.running,eraseTask,eraseWork,work]

theorem scan_erase (self : ThreadId) (exec : FiberId → Bool) (tasks : List (SchedulerTask Script)) :
    (TaskQueue.scan 0 exec (tasks.map (eraseTask self))).task = (TaskQueue.scan self exec tasks).task.map (eraseTask self) ∧
      (TaskQueue.scan 0 exec (tasks.map (eraseTask self))).m_tasks =
        (TaskQueue.scan self exec tasks).m_tasks.map (eraseTask self) := by
  induction tasks with
  | nil => exact ⟨rfl,rfl⟩
  | cons task tasks ih =>
    rw [List.map_cons,TaskQueue.scan,TaskQueue.scan,elsewhere_erase,running_erase]
    split
    · exact ⟨ih.1,congrArg _ ih.2⟩
    · split
      · exact ⟨ih.1,congrArg _ ih.2⟩
      · exact ⟨rfl,rfl⟩

theorem take_erase (self : ThreadId) (exec : FiberId → Bool) (q : TaskQueue Script) :
    (eraseQueue self q).take 0 exec =
      (q.take self exec).map fun found => (eraseTask self found.1,eraseQueue self found.2) := by
  obtain ⟨task,tasks⟩ := scan_erase self exec q.m_tasks
  simp only [TaskQueue.take,eraseQueue,task,tasks,Option.map_map]
  rfl

theorem schedule_erase (self : ThreadId) (q : TaskQueue Script) (work : Option (Work Script)) (thread : Option ThreadId) :
    eraseQueue self (q.scheduleNoLock work thread).1 =
      ((eraseQueue self q).scheduleNoLock (work.map eraseWork) (eraseThread self thread)).1 := by
  cases work <;> simp [TaskQueue.scheduleNoLock,eraseQueue,eraseTask]

/-! ### The fibers -/

theorem fibers_update (fibers : FiberId → Fiber Script) (f : FiberId) (fiber : Fiber Script) :
    (fun g => eraseFiber (Function.update fibers f fiber g)) =
      Function.update (fun g => eraseFiber (fibers g)) f (eraseFiber fiber) :=
  Function.comp_update eraseFiber fibers f fiber

theorem eraseFiber_create (cb : Script) : eraseFiber (Fiber.create cb) = Fiber.create () := rfl

theorem eraseFiber_setExec (fiber : Fiber Script) : eraseFiber fiber.setExec = (eraseFiber fiber).setExec := rfl

theorem eraseContext_ended (context : Context Script) : eraseContext context = .ended ↔ context.script = none := by
  cases context <;> simp [eraseContext,Context.script]

theorem update_one (before after : α) (w : Fin 1) : Function.update (fun _ => before) w after = fun _ => after :=
  Function.update_eq_const_of_subsingleton ..

/-! ### The steps -/

theorem taking_view (self : ThreadId) (s : State) :
    Workers.taking (view self s) 0 =
      (taking self s.loop).map fun found => (eraseTask self found.1,eraseQueue self found.2) :=
  take_erase self (fun f => (s.loop.fibers f).m_state == .EXEC) s.loop.queue

theorem stopping_view (self : ThreadId) (s : State) : Workers.stopping (view self s) = RunLoop.stopping s.loop := by
  simp [Workers.stopping,RunLoop.stopping,view,eraseQueue]

theorem pass_simulated {s : State} (dropped : s.loop.cb_fiber = none) (head : s.current = none)
    (live : s.loop.status = .running) (alive : failed (pass self s.loop) = false) :
    ∃ more, Transition.run Workers.step (view self s) more = some (view self (pass self s.loop)) := by
  have pc : (view self s).pc 0 = .loop := by simp [view,position,head,live]
  have taken := taking_view self s
  have effect := pass_effect self dropped
  generalize pass self s.loop = t at effect alive ⊢
  cases effect with
  | @resumes task rest f script found work ready segment =>
    rw [found] at taken
    have erased : (eraseTask self task).work = .fiber f := by simp [eraseTask,eraseWork,work]
    refine ⟨_,(Workers.run_fiber rfl pc taken erased ready).trans ?_⟩
    simp [view,position,RunLoop.setFiber,counted,fibers_update,update_one,eraseFiber_setExec]
  | @callback task rest cb found work =>
    rw [found] at taken
    have erased : (eraseTask self task).work = .cb () := by simp [eraseTask,eraseWork,work]
    refine ⟨_,(Workers.run_callback rfl pc taken erased).trans ?_⟩
    simp [view,position,RunLoop.setFiber,made,counted,fibers_update,update_one,eraseFiber_setExec,eraseFiber_create]
  | ended | refused => simp [failed,RunLoop.fail] at alive
  | exits found term =>
    rw [found] at taken
    refine ⟨_,(Workers.run_idle rfl pc taken).trans ?_⟩
    simp [view,position,update_one,head,term]
  | idleEnds found idle stops =>
    rw [found] at taken
    refine ⟨_,(Workers.run_idle rfl pc taken).trans ?_⟩
    rw [stopping_view,stops]
    simp [view,position,update_one,head,live,idle]
  | idleYields found idle runs =>
    rw [found] at taken
    refine ⟨_,(Workers.run_idle rfl pc taken).trans ?_⟩
    rw [stopping_view,runs]
    simp [view,position,head,live,idle]

/-- The loop goes on while a fiber runs, and the fiber has not ended. -/
def Entered (s : State) : Prop :=
  ∀ r, s.current = some r → s.loop.status = .running ∧ (s.loop.fibers r.fiber).m_ctx.script ≠ none

theorem step_entered (settled : Settled s) (entered : Entered s) (ran : step self s action = some t) : Entered t := by
  cases (step_effect ran).2 with
  | pass head live =>
    have dropped : s.loop.cb_fiber = none := by simp [settled.callback,head]
    have effect := pass_effect self dropped
    generalize pass self s.loop = t at effect ⊢
    cases effect with
    | resumes found work ready segment =>
      rintro r ⟨⟩
      exact ⟨live,by simp [RunLoop.setFiber,counted,Fiber.setExec,segment]⟩
    | callback found work =>
      rintro r ⟨⟩
      exact ⟨live,by simp [RunLoop.setFiber,Fiber.setExec,Fiber.create,Context.script]⟩
    | ended | refused | exits | idleEnds | idleYields => rintro r ⟨⟩
  | outside | stops => exact entered
  | @calls r work thread rest running =>
    rintro _ ⟨⟩
    exact entered r running
  | leaves running =>
    obtain ⟨left,same | lost,_⟩ := back_cases s.loop _
    · rw [same]; rintro r ⟨⟩
    · rw [lost]; rintro r ⟨⟩

theorem schedule_view (self : ThreadId) (thread : Option ThreadId) (s : State) (made : known s.loop work = true) :
    Workers.schedule (view self s) (work.map eraseWork) (eraseThread self thread) =
      some { view self s with queue := eraseQueue self (s.loop.queue.scheduleNoLock work thread).1 } := by
  rw [schedule_erase]
  cases work with
  | none => rfl
  | some work =>
    cases work with
    | cb cb => rfl
    | fiber f =>
      have older : f < s.loop.created := by simpa [known] using made
      simp [Workers.schedule,eraseWork,view,older]

/-- The running fiber may be left, and its context is not the end of `MainFunc`. -/
theorem inside_view (self : ThreadId) (settled : Settled s) (entered : Entered s) (running : s.current = some r) :
    (view self s).pc 0 = .inside r.fiber ∧ ((view self s).fibers r.fiber).m_state = .EXEC ∧
      ((view self s).fibers r.fiber).m_ctx ≠ .ended := by
  refine ⟨by simp [view,position,running],?_,fun ended => ?_⟩
  · exact (settled.executing r.fiber).mpr ⟨r,running,rfl⟩
  · exact (entered r running).2 ((eraseContext_ended _).mp ended)

theorem back_simulated (settled : Settled s) (entered : Entered s) (running : s.current = some r)
    (requested : request r.fiber r.script = none) (alive : failed (back s.loop r) = false) :
    ∃ more, Transition.run Workers.step (view self s) more = some (view self (back s.loop r)) := by
  obtain ⟨pc,exec,unended⟩ := inside_view self settled entered running
  have live := (entered r running).1
  obtain ⟨left,same | lost,eq⟩ := back_cases s.loop r
  · -- the last call of the segment, and the two steps back to the loop
    have leaves {action : Workers.Action 1} {fiber : Fiber Unit} {saved : Context Unit}
        (saves : fiber.save saved = eraseFiber (RunLoop.leave r.script (s.loop.fibers r.fiber)))
        (stepped : Workers.step (view self s) action = some { view self s with
          fibers := Function.update (view self s).fibers r.fiber fiber
          pc := Function.update (view self s).pc 0 (.leaving r.fiber saved) }) :
        ∃ more, Transition.run Workers.step (view self s) more = some (view self (back s.loop r)) := by
      refine ⟨_,(Workers.run_leaves rfl stepped).trans ?_⟩
      rw [same,eq,saves]
      simp [view,position,live,fibers_update,update_one]
    cases script : r.script with
    | returns => exact leaves (by rw [script]; rfl) (Workers.step_returns rfl pc unended)
    | throws => exact leaves (by rw [script]; rfl) (Workers.step_throws rfl pc exec unended)
    | yield rest => exact leaves (by rw [script]; rfl) (Workers.step_yield rfl pc exec unended)
    | schedule | scheduleFiber | scheduleThis => simp [request,script] at requested
  · simp [lost,failed,RunLoop.fail] at alive

theorem step_simulated (settled : Settled s) (entered : Entered s) (ran : step self s action = some t)
    (alive : failed t = false) :
    ∃ more, Transition.run Workers.step (view self s) more = some (view self t) := by
  cases (step_effect ran).2 with
  | pass head live => exact pass_simulated (by simp [settled.callback,head]) head live alive
  | @outside work thread made =>
    refine ⟨[.schedule (work.map eraseWork) (eraseThread self thread)],?_⟩
    simp only [Transition.run_cons,Workers.step,schedule_view self thread s made]
    rfl
  | @calls r work thread rest running requested made =>
    obtain ⟨pc,_,open_⟩ := inside_view self settled entered running
    refine ⟨[.perform 0 (.schedule (some (eraseWork work)) (eraseThread self thread))],?_⟩
    have scheduled := schedule_view self thread s made
    rw [Option.map_some] at scheduled
    simp only [Transition.run_cons,Workers.step,Workers.perform,pc,open_,if_false,scheduled]
    simp [view,position,running,RunLoop.schedule]
  | leaves running requested => exact back_simulated settled entered running requested alive
  | stops => exact ⟨[.stop],rfl⟩

/-- The assertions that fail inside of `resume` are those of the workers. -/
theorem failure_simulated (settled : Settled s) (ran : step self s action = some t)
    (lost : t.loop.status = .failed .resume ∨ t.loop.status = .failed .neverReach) :
    ∃ more u, Transition.run Workers.step (view self s) more = some u ∧ u.aborted = true ∧
      u.queue = eraseQueue self t.loop.queue := by
  obtain ⟨sound,effect⟩ := step_effect ran
  have unfailed : ¬ (s.loop.status = .failed .resume ∨ s.loop.status = .failed .neverReach) := by
    rintro (same | same) <;> simp [failed,same] at sound
  cases effect with
  | pass head live =>
    have pc : (view self s).pc 0 = .loop := by simp [view,position,head,live]
    have dropped : s.loop.cb_fiber = none := by simp [settled.callback,head]
    have taken := taking_view self s
    have effect := pass_effect self dropped
    generalize pass self s.loop = t at effect lost ⊢
    cases effect with
    | @ended task rest f found work ready nothing =>
      rw [found] at taken
      have erased : (eraseTask self task).work = .fiber f := by simp [eraseTask,eraseWork,work]
      obtain ⟨u,more,aborted,queue⟩ := Workers.run_ended rfl pc taken erased ready ((eraseContext_ended _).mpr nothing)
      exact ⟨_,u,more,aborted,queue⟩
    | @refused task rest f found work stuck =>
      rw [found] at taken
      have erased : (eraseTask self task).work = .fiber f := by simp [eraseTask,eraseWork,work]
      obtain ⟨u,more,aborted,queue⟩ := Workers.run_refused rfl pc taken erased stuck
      exact ⟨_,u,more,aborted,queue⟩
    | resumes | callback | idleEnds | idleYields => exact absurd lost unfailed
    | exits => simp at lost
  | outside | calls | stops => exact absurd lost unfailed
  | @leaves r running =>
    obtain ⟨left,same | fails,eq⟩ := back_cases s.loop r
    · rw [same,eq] at lost
      exact absurd lost unfailed
    · simp [fails,RunLoop.fail] at lost

/-! ### The runs -/

def fresh (created : Nat) : Workers.State 1 := { Workers.start with created }

theorem step_fresh (created : Nat) : Workers.step (fresh created) .create = some (fresh (created + 1)) := by
  simp [Workers.step,Workers.create,Workers.setFiber,fresh,Workers.start]

theorem run_fresh (more created : Nat) :
    Transition.run Workers.step (fresh created) (List.replicate more .create) = some (fresh (created + more)) := by
  induction more generalizing created with
  | zero => rfl
  | succ more ih =>
    rw [List.replicate_succ,Transition.run_cons,step_fresh,Option.bind_some,ih,Nat.add_right_comm]
    rfl

theorem start_view (self : ThreadId) (bodies : List Script) (held : FiberId → Bool) :
    view self (start bodies held) = fresh bodies.length := rfl

/-- No assertion has failed, or one has just failed. -/
def Sound (s : State) : Prop := failed s = true ∨ Settled s ∧ Entered s

theorem start_sound (bodies : List Script) (held : FiberId → Bool) : Sound (start bodies held) :=
  .inr ⟨start_settled bodies held,nofun⟩

theorem Sound.live (sound : Sound s) (ran : step self s action = some t) : Settled s ∧ Entered s :=
  sound.resolve_left (by simp [(step_effect ran).1])

theorem step_sound (sound : Sound s) (ran : step self s action = some t) : Sound t := by
  obtain ⟨settled,entered⟩ := sound.live ran
  exact (step_settled settled ran).imp_right fun after => ⟨after,step_entered settled entered ran⟩

theorem live_simulated (ran : Transition.run (step self) (start bodies held) actions = some s)
    (alive : failed s = false) :
    ∃ more, Transition.run Workers.step Workers.start more = some (view self s) := by
  obtain ⟨more,simulated⟩ := Transition.run_simulated (step self) Workers.step (view self) (failed · = false) Sound
    (fun s a t ran => (step_effect ran).1) (fun s a t sound ran => step_sound sound ran)
    (fun s a t sound ran alive => step_simulated (sound.live ran).1 (sound.live ran).2 ran alive)
    (start_sound bodies held) ran alive
  rw [start_view] at simulated
  have created := run_fresh bodies.length 0
  rw [Nat.zero_add] at created
  exact ⟨_,(Transition.run_append_some Workers.step).mpr ⟨_,created,simulated⟩⟩

/-- Each run of the loop without a failed assertion is a run of one worker, with the same queue,
the same counter and the same states of the fibers. Where it fails in `resume`, or behind the
end of a fiber, a run of the worker fails with the same queue. -/
theorem loop_refines_workers (self : ThreadId) (bodies : List Script) (held : FiberId → Bool) (actions : List Action)
    (s : State) (ran : Transition.run (step self) (start bodies held) actions = some s) :
    (failed s = false → ∃ more, Transition.run Workers.step Workers.start more = some (view self s)) ∧
    (s.loop.status = .failed .resume ∨ s.loop.status = .failed .neverReach →
      ∃ more t, Transition.run Workers.step (Workers.start (n := 1)) more = some t ∧ t.aborted = true ∧
        t.queue = eraseQueue self s.loop.queue) := by
  refine ⟨live_simulated ran,fun lost => ?_⟩
  rcases List.eq_nil_or_concat' actions with rfl | ⟨before,last,rfl⟩
  · cases ran
    rcases lost with lost | lost <;> cases lost
  · obtain ⟨middle,earlier,ends⟩ := (Transition.run_concat_some (step self)).mp ran
    have sound := Transition.run_invariant (step self) Sound (fun _ _ _ sound ran => step_sound sound ran)
      (start_sound bodies held) earlier
    obtain ⟨first,simulated⟩ := live_simulated earlier (step_effect ends).1
    obtain ⟨more,t,fails,aborted,queue⟩ := failure_simulated (sound.live ends).1 ends lost
    exact ⟨first ++ more,t,(Transition.run_append_some Workers.step).mpr ⟨_,simulated,fails⟩,aborted,queue⟩

/-- A fiber that has been scheduled twice and returns in its first turn: the loop fails in the
second one, and so does the worker. -/
theorem loop_refines_workers_twice : ∃ s,
    Transition.run (step 7) (start [.returns] fun _ => true)
      [.schedule (some (.fiber 0)) none,.schedule (some (.fiber 0)) (some 7),.pass,.call,.pass] = some s ∧
    s.loop.status = .failed .resume ∧
    ∃ more t, Transition.run Workers.step (Workers.start (n := 1)) more = some t ∧ t.aborted = true := by
  have ran : ∃ s, Transition.run (step 7) (start [.returns] fun _ => true)
      [.schedule (some (.fiber 0)) none,.schedule (some (.fiber 0)) (some 7),.pass,.call,.pass] = some s ∧
      s.loop.status = .failed .resume := ⟨_,rfl,rfl⟩
  obtain ⟨s,ran,lost⟩ := ran
  obtain ⟨more,t,simulated,aborted,_⟩ := (loop_refines_workers 7 _ _ _ s ran).2 (.inl lost)
  exact ⟨s,ran,lost,more,t,simulated,aborted⟩

end Myriel.RunSteps

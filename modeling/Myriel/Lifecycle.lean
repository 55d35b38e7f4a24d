import Myriel.RunLoopDrain
import Myriel.Transition

/-! `Scheduler::Scheduler`, `start` and `stop` as called by the owning thread, with the
threads in `m_threads`. A step is a call, a pass of one thread through its loop, or the
end of the joins in `stop`. -/
namespace Myriel.Lifecycle
open RunLoop

/-- What `run` keeps on the stack of its thread. -/
structure Thread where
  id : ThreadId
  cb_fiber : Option FiberId
  idle : FiberState
  status : Status

def Thread.create (id : ThreadId) : Thread := ⟨id,none,.READY,.running⟩

inductive Call where
  | schedule (work : Option (Work Script)) (thread : Option ThreadId)
  | start
  | stop

/-- Where the owner is: between two calls, or inside `stop`. -/
inductive Position where
  | outside
  | rootFiber
  | join
  | aborted
  deriving DecidableEq

/-- `shared` is what all threads see, `root` the frame of `run` on `m_rootFiber`,
`t_scheduler` whether that variable of the owner points here. -/
structure Scheduler where
  m_useCaller : Bool
  m_threadCount : Nat
  m_rootThread : Option ThreadId
  m_rootFiber : Option FiberState
  m_threads : List Thread
  m_threadIds : List ThreadId
  shared : State
  root : Thread
  t_scheduler : Bool
  calls : List Call
  position : Position

def caller : ThreadId := 0

/-- The constructor; `calls` is what the owner is going to do. -/
def construct (threads : Nat) (use_caller : Bool) (calls : List Call) : Scheduler where
  m_useCaller := use_caller
  m_threadCount := if use_caller then threads - 1 else threads
  m_rootThread := if use_caller then some caller else none
  m_rootFiber := if use_caller then some .READY else none
  m_threads := []
  m_threadIds := if use_caller then [caller] else []
  shared := RunLoop.start [] [] (fun _ => false) false
  root := Thread.create caller
  t_scheduler := use_caller
  calls := calls
  position := .outside

def abort (s : Scheduler) : Scheduler := { s with position := .aborted }

/-- `start`: it returns unless `m_stopping` is set. -/
def start (s : Scheduler) : Scheduler :=
  if !s.shared.m_stopping then s
  else if !s.m_threads.isEmpty then abort s
  else
    let threads := (List.range s.m_threadCount).map fun i => Thread.create (caller + 1 + i)
    { s with m_threads := threads, m_threadIds := s.m_threadIds ++ threads.map Thread.id }

/-- `stop` up to the switch into `m_rootFiber`, or to the joins if there is none. -/
def stop (s : Scheduler) : Scheduler :=
  if stopping s.shared then s
  else
    let s := { s with shared := { s.shared with m_stopping := true } }
    if s.t_scheduler != s.m_useCaller then abort s
    else
      match s.m_rootFiber with
      | some state =>
        if state = .READY then { s with m_rootFiber := some .EXEC, position := .rootFiber } else abort s
      | none => { s with position := .join }

def perform (s : Scheduler) : Call → Scheduler
  | .schedule work thread => { s with shared := schedule s.shared work thread }
  | .start => start s
  | .stop => stop s

def enter (shared : State) (thread : Thread) : State :=
  { shared with cb_fiber := thread.cb_fiber, idle := thread.idle, status := thread.status }

def frame (s : State) (id : ThreadId) : Thread := ⟨id,s.cb_fiber,s.idle,s.status⟩

def rootPass (s : Scheduler) : Scheduler :=
  let t := iterate s.root.id (enter s.shared s.root)
  let s := { s with shared := t, root := frame t s.root.id }
  match t.status with
  | .running => s
  | .exited => { s with m_rootFiber := some .TERM, position := .join }
  | .failed _ => abort s

def threadPass (s : Scheduler) (i : Nat) (thread : Thread) : Scheduler :=
  let t := iterate thread.id (enter s.shared thread)
  let s := { s with shared := t, m_threads := s.m_threads.set i (frame t thread.id) }
  match t.status with
  | .failed _ => abort s
  | _ => s

inductive Action where
  | call
  | rootPass
  | threadPass (i : Nat)
  | joined

def step (s : Scheduler) : Action → Option Scheduler
  | .call =>
    match s.position,s.calls with
    | .outside,call :: calls => some (perform { s with calls := calls } call)
    | _,_ => none
  | .rootPass => if s.position = .rootFiber then some (rootPass s) else none
  | .threadPass i =>
    s.m_threads[i]?.bind fun thread =>
      if thread.status = .running ∧ s.position ≠ .aborted then some (threadPass s i thread) else none
  | .joined =>
    if s.position = .join ∧ s.m_threads.all fun thread => thread.status == .exited then
      some { s with m_threads := [], position := .outside }
    else none

/-- A function that schedules unpinned functions of its kind and returns. -/
inductive OnlySchedules : Script → Prop where
  | returns : OnlySchedules .returns
  | schedule (task : OnlySchedules cb) (next : OnlySchedules rest) :
      OnlySchedules (.schedule cb none rest)

theorem OnlySchedules.rescheduling (task : OnlySchedules script) : Rescheduling self script := by
  induction task with
  | returns => exact .returns
  | schedule _ _ cb rest => exact .schedule (.inl rfl) cb rest

theorem OnlySchedules.quiet (task : OnlySchedules script) : throwing script = false := by
  induction task with
  | returns => rfl
  | schedule _ _ cb rest => simp [throwing,cb,rest]

def scheduleCb (cb : Script) : Call := .schedule (some (.cb cb)) none

theorem schedule_sound (sound : Sound self s) (task : Rescheduling self cb) (quiet : throwing cb = false) :
    Sound self (RunLoop.schedule s (some (.cb cb)) none) := by
  have after : entries (RunLoop.schedule s (some (.cb cb)) none).queue = entries s.queue ++ [(.cb cb,none)] :=
    entries_scheduleAll s.queue [(.cb cb,none)]
  have same (f : FiberId) : census (RunLoop.schedule s (some (.cb cb)) none) f = census s f := by
    rw [census,after]
    simp [census,tickets,ended,RunLoop.schedule]
  exact {
    accounted := TaskQueue.scheduleNoLock_accounted sound.accounted
    pinned := by
      rw [after]
      simp only [List.mem_append,List.mem_singleton]
      rintro entry (old | rfl)
      · exact sound.pinned entry old
      · exact .inl rfl
    known := by
      rw [after]
      simp only [List.mem_append,List.mem_singleton]
      rintro f thread (old | new)
      · exact sound.known f thread old
      · cases new
    tasks := by
      rw [after]
      simp only [List.mem_append,List.mem_singleton]
      rintro work thread script (old | new) segment
      · exact sound.tasks work thread script old segment
      · cases new; cases segment; exact task
    switched := sound.switched
    balanced := sound.balanced
    dropped := sound.dropped
    calm := by
      rw [after]
      simp only [List.mem_append,List.mem_singleton]
      rintro work thread script (old | new) segment
      · exact sound.calm work thread script old segment
      · cases new; cases segment; exact quiet
    states := sound.states
    single := fun f => by rw [same]; exact sound.single f
    started := fun f rest ctx => by rw [same]; exact sound.started f rest ctx }

/-! ### What the steps do -/

/-- The owner is the only thread, and its queue is sound. -/
structure Alone (use_caller : Bool) (s : Scheduler) : Prop where
  threads : s.m_threads = []
  useCaller : s.m_useCaller = use_caller
  own : s.t_scheduler = use_caller
  rooted : s.root.id = caller
  sound : Sound caller (enter s.shared s.root)

def Early (call : Call) : Prop := call = .start ∨ ∃ cb, OnlySchedules cb ∧ call = scheduleCb cb

def scheduled : Call → Option (Work Script × Option ThreadId)
  | .schedule work thread => work.map fun work => (work,thread)
  | .start | .stop => none

inductive Phase (use_caller : Bool) (tasks : List (Work Script × Option ThreadId)) (s : Scheduler) : Prop where
  | early (front : List Call) (calls : s.calls = front ++ [.stop]) (each : ∀ call ∈ front, Early call)
      (position : s.position = .outside) (flag : s.shared.m_stopping = false)
      (fresh : s.root.status = .running) (unmade : s.shared.created = 0)
      (rootFiber : s.m_rootFiber = if use_caller then some .READY else none)
      (counted : entries s.shared.queue ++ front.filterMap scheduled = tasks)
  | inside (rooted : use_caller = true) (calls : s.calls = []) (position : s.position = .rootFiber)
      (flag : s.shared.m_stopping = true) (live : s.root.status = .running)
      (progress : Progress [] tasks (enter s.shared s.root))
  | late (calls : s.calls = []) (position : s.position = .join ∨ s.position = .outside)
      (drained : use_caller = true → entries s.shared.queue = [])
      (kept : use_caller = false → entries s.shared.queue = tasks)
      (progress : Progress [] tasks (enter s.shared s.root))

theorem first_progress (sound : Sound self s) (unmade : s.created = 0) : Progress [] (entries s.queue) s := by
  have functions : ∀ f thread, (.fiber f,thread) ∉ entries s.queue := by
    intro f thread member
    have old := sound.known f thread member
    rw [unmade] at old
    exact Nat.not_lt_zero f old
  have nobody : ∀ f, tickets f (entries s.queue) = 0 := fun f => tickets_zero (functions f)
  refine ⟨Nat.zero_le _,fun f ticket => ?_,fun f due => ?_,?_⟩
  · rw [nobody f] at ticket
    cases ticket
  · rcases due with ticket | ⟨_,below⟩
    · rw [nobody f] at ticket
      cases ticket
    · rw [unmade] at below
      cases below
  · rw [unmade]
    refine congrArg _ (congrArg List.sum (List.map_congr_left fun entry member => ?_))
    obtain ⟨work,thread⟩ := entry
    cases work with
    | cb cb => rfl
    | fiber f => exact absurd member (functions f thread)

theorem stop_phase (alone : Alone use_caller s) (calls : s.calls = []) (flag : s.shared.m_stopping = false) (fresh : s.root.status = .running)
    (unmade : s.shared.created = 0) (rootFiber : s.m_rootFiber = if use_caller then some .READY else none)
    (counted : entries s.shared.queue = tasks) :
    Alone use_caller (stop s) ∧ Phase use_caller tasks (stop s) := by
  have unset : stopping s.shared = false := by simp [stopping,flag]
  have sound : Sound caller (enter { s.shared with m_stopping := true } s.root) := { alone.sound with }
  have progress : Progress [] tasks (enter { s.shared with m_stopping := true } s.root) :=
    counted ▸ first_progress sound unmade
  cases use_caller with
  | true =>
    simp only [stop,unset,alone.own,alone.useCaller,rootFiber,Bool.false_eq_true,↓reduceIte,bne_self_eq_false]
    exact ⟨⟨alone.threads,rfl,rfl,alone.rooted,sound⟩,.inside rfl calls rfl rfl fresh progress⟩
  | false =>
    simp only [stop,unset,alone.own,alone.useCaller,rootFiber,Bool.false_eq_true,↓reduceIte,bne_self_eq_false]
    exact ⟨⟨alone.threads,rfl,rfl,alone.rooted,sound⟩,
      .late calls (.inl rfl) (fun wrong => by cases wrong) (fun _ => counted) progress⟩

theorem perform_phase (alone : Alone use_caller s) (phase : Phase use_caller tasks s)
    (position : s.position = .outside) (calls : s.calls = call :: rest) :
    Alone use_caller (perform { s with calls := rest } call) ∧
      Phase use_caller tasks (perform { s with calls := rest } call) := by
  cases phase with
  | inside _ none | late none => rw [calls] at none; cases none
  | early front split each _ flag fresh unmade rootFiber counted =>
    rw [calls] at split
    cases front with
    | nil =>
      cases split
      exact stop_phase (s := { s with calls := [] }) { alone with } rfl flag fresh unmade rootFiber
        (by simpa using counted)
    | cons first front =>
      cases split
      rcases each call (by simp) with rfl | ⟨cb,task,rfl⟩
      · simp only [perform,start,flag,Bool.not_false,↓reduceIte]
        exact ⟨{ alone with },.early front rfl (fun other member => each other (by simp [member]))
          position flag fresh unmade rootFiber counted⟩
      · refine ⟨⟨alone.threads,alone.useCaller,alone.own,alone.rooted,schedule_sound alone.sound task.rescheduling task.quiet⟩,
          .early front rfl (fun other member => each other (by simp [member])) position flag fresh unmade
            rootFiber ?_⟩
        have longer : entries (RunLoop.schedule s.shared (some (.cb cb)) none).queue =
            entries s.shared.queue ++ [(.cb cb,none)] :=
          entries_scheduleAll s.shared.queue [(.cb cb,none)]
        have first : scheduled (scheduleCb cb) = some (.cb cb,none) := rfl
        simp only [perform,scheduleCb,longer,List.append_assoc,List.singleton_append]
        rwa [List.filterMap_cons_some first] at counted

theorem rootPass_phase (alone : Alone use_caller s) (phase : Phase use_caller tasks s)
    (position : s.position = .rootFiber) :
    Alone use_caller (rootPass s) ∧ Phase use_caller tasks (rootPass s) := by
  cases phase with
  | early _ _ _ outside => rw [position] at outside; cases outside
  | late _ outside => rw [position] at outside; simp at outside
  | inside rooted calls _ flag live progress =>
    obtain ⟨sound,same,status⟩ := alone.sound.step live
    rw [← alone.rooted] at same status
    have next : Sound caller (iterate s.root.id (enter s.shared s.root)) := by
      rw [alone.rooted]; exact sound
    have further : Progress [] tasks (iterate s.root.id (enter s.shared s.root)) := by
      rw [alone.rooted]; exact alone.sound.step_progress progress
    rcases status with running | ⟨exited,empty⟩
    · simp only [rootPass,running]
      exact ⟨⟨alone.threads,alone.useCaller,alone.own,alone.rooted,next⟩,
        .inside rooted calls position (same.trans flag) running further⟩
    · simp only [rootPass,exited]
      exact ⟨⟨alone.threads,alone.useCaller,alone.own,alone.rooted,next⟩,
        .late calls (.inl rfl) (fun _ => empty) (fun wrong => by rw [rooted] at wrong; cases wrong) further⟩

theorem step_phase (taken : step s action = some t) (alone : Alone use_caller s)
    (phase : Phase use_caller tasks s) : Alone use_caller t ∧ Phase use_caller tasks t := by
  cases action with
  | call =>
    cases position : s.position with
    | rootFiber | join | aborted => simp [step,position] at taken
    | outside =>
      cases calls : s.calls with
      | nil => simp [step,position,calls] at taken
      | cons call rest =>
        have same : step s .call = some (perform { s with calls := rest } call) := by
          simp [step,position,calls]
        cases same.symm.trans taken
        exact perform_phase alone phase position calls
  | rootPass =>
    simp only [step,Option.ite_none_right_eq_some,Option.some.injEq] at taken
    obtain ⟨position,rfl⟩ := taken
    exact rootPass_phase alone phase position
  | threadPass i => simp [step,alone.threads] at taken
  | joined =>
    simp only [step,Option.ite_none_right_eq_some,Option.some.injEq] at taken
    obtain ⟨⟨position,_⟩,rfl⟩ := taken
    cases phase with
    | early _ _ _ outside => rw [position] at outside; cases outside
    | inside _ _ outside => rw [position] at outside; cases outside
    | late calls _ drained kept progress =>
      exact ⟨⟨rfl,alone.useCaller,alone.own,alone.rooted,alone.sound⟩,.late calls (.inr rfl) drained kept progress⟩

def program (before after : List Script) : List Call :=
  before.map scheduleCb ++ [.start] ++ after.map scheduleCb ++ [.stop]

def Returned (s : Scheduler) : Prop := s.calls = [] ∧ s.position = .outside

theorem construct_alone (threads : Nat) (use_caller : Bool) (calls : List Call) :
    Alone use_caller (construct threads use_caller calls) where
  threads := rfl
  useCaller := rfl
  own := rfl
  rooted := rfl
  sound := by
    have nothing : Submitted caller [] [] := ⟨by simp,by simp,by simp⟩
    exact start_sound nothing (by simp) fun f => Nat.zero_le 1

def functionTasks (cbs : List Script) : List (Work Script × Option ThreadId) := cbs.map fun cb => (.cb cb,none)

theorem construct_phase (threads : Nat) (use_caller : Bool) (each : ∀ cb ∈ before ++ after, OnlySchedules cb) :
    Phase use_caller (functionTasks (before ++ after)) (construct threads use_caller (program before after)) := by
  refine .early (before.map scheduleCb ++ [.start] ++ after.map scheduleCb) rfl ?_ rfl rfl rfl rfl rfl ?_
  · intro call member
    simp only [List.mem_append,List.mem_map,List.mem_singleton] at member
    rcases member with (⟨cb,member,rfl⟩ | rfl) | ⟨cb,member,rfl⟩
    · exact .inr ⟨cb,each cb (by simp [member]),rfl⟩
    · exact .inl rfl
    · exact .inr ⟨cb,each cb (by simp [member]),rfl⟩
  · have all (cbs : List Script) : (cbs.map scheduleCb).filterMap scheduled = functionTasks cbs := by
      induction cbs with
      | nil => rfl
      | cons cb cbs ih => exact congrArg _ ih
    have started : [Call.start].filterMap scheduled = [] := rfl
    have joined : functionTasks before ++ functionTasks after = functionTasks (before ++ after) := List.map_append.symm
    rw [List.filterMap_append,List.filterMap_append,all,all,started,List.append_nil,joined]
    rfl

theorem returned_iff (alone : Alone use_caller s) (phase : Phase use_caller tasks s)
    (returned : Returned s) : Executed [] tasks s.shared ↔ use_caller = true ∨ tasks = [] := by
  cases phase with
  | early front calls => rw [returned.1] at calls; simp at calls
  | inside _ _ position => rw [returned.2] at position; cases position
  | late _ _ drained kept progress =>
    constructor
    · intro executed
      cases use_caller with
      | true => exact .inl rfl
      | false => exact .inr (by rw [← kept rfl,entries,executed.empty]; rfl)
    · intro allowed
      have empty : entries s.shared.queue = [] := by
        cases use_caller with
        | true => exact drained rfl
        | false => exact (kept rfl).trans (by simpa using allowed)
      obtain ⟨none,once,functions,ended,complete⟩ := alone.sound.executed progress empty
      exact ⟨none,once,functions,ended,complete⟩

/-! ### `stop` returns -/

/-- A run from `s` comes to a state of the owner's return. -/
def Returns (s : Scheduler) : Prop := ∃ actions t, Transition.run step s actions = some t ∧ Returned t

theorem Returns.cons (taken : step s action = some t) (later : Returns t) : Returns s := by
  obtain ⟨actions,last,ran,returned⟩ := later
  exact ⟨action :: actions,last,(Transition.run_cons_some step).mpr ⟨t,taken,ran⟩,returned⟩

theorem late_returns (alone : Alone use_caller s) (calls : s.calls = [])
    (position : s.position = .join ∨ s.position = .outside) : Returns s := by
  rcases position with join | outside
  · have taken : step s .joined = some { s with m_threads := [], position := .outside } := by
      simp [step,join,alone.threads]
    exact Returns.cons taken ⟨[],_,rfl,calls,rfl⟩
  · exact ⟨[],s,rfl,calls,outside⟩

theorem rootPass_enter (s : Scheduler) :
    enter (rootPass s).shared (rootPass s).root = iterate s.root.id (enter s.shared s.root) := by
  cases status : (iterate s.root.id (enter s.shared s.root)).status <;>
    simp only [rootPass,status,abort] <;> rfl

theorem rootPass_position (position : s.position = .rootFiber) : (rootPass s).position ≠ .outside := by
  cases status : (iterate s.root.id (enter s.shared s.root)).status <;>
    simp [rootPass,status,abort,position]

theorem Phase.live (phase : Phase use_caller tasks s) (position : s.position = .rootFiber) :
    s.root.status = .running ∧ s.shared.m_stopping = true := by
  cases phase with
  | early _ _ _ outside => rw [position] at outside; cases outside
  | late _ outside => rw [position] at outside; simp at outside
  | inside _ _ _ flag live _ => exact ⟨live,flag⟩

theorem inside_returns (alone : Alone use_caller s) (phase : Phase use_caller tasks s)
    (position : s.position = .rootFiber) (passes : Nat)
    (exits : (loop caller passes (enter s.shared s.root)).status = .exited) : Returns s := by
  have live : (enter s.shared s.root).status = .running := (phase.live position).1
  induction passes generalizing s with
  | zero => rw [loop,live] at exits; cases exits
  | succ passes ih =>
    obtain ⟨next,later⟩ := rootPass_phase alone phase position
    have taken : step s .rootPass = some (rootPass s) := by simp [step,position]
    rw [loop_succ live,← alone.rooted,← rootPass_enter,alone.rooted] at exits
    refine Returns.cons taken ?_
    cases later with
    | early _ _ _ outside => exact absurd outside (rootPass_position position)
    | late calls position => exact late_returns next calls position
    | inside rooted calls position flag live progress =>
      exact ih next (.inside rooted calls position flag live progress) position exits live

theorem perform_calls (s : Scheduler) (call : Call) : (perform s call).calls = s.calls := by
  cases call with
  | schedule => rfl
  | start => simp only [perform,start]; split <;> [rfl; (split <;> rfl)]
  | stop =>
    simp only [perform,stop]
    split
    · rfl
    · split
      · rfl
      · cases s.m_rootFiber with
        | none => rfl
        | some state => dsimp only; split <;> rfl

/-- By induction on the calls that are left; with the last one the owner enters `stop`. -/
theorem phase_returns (alone : Alone use_caller s) (phase : Phase use_caller tasks s) : Returns s := by
  induction left : s.calls generalizing s with
  | nil =>
    by_cases position : s.position = .rootFiber
    · obtain ⟨live,flag⟩ := phase.live position
      obtain ⟨passes,_,exits,_⟩ := alone.sound.exits live flag
      exact inside_returns alone phase position passes exits
    · cases phase with
      | early _ calls => rw [left] at calls; simp at calls
      | inside _ _ rootFiber => exact absurd rootFiber position
      | late calls position => exact late_returns alone calls position
  | cons call rest ih =>
    cases phase with
    | inside _ calls | late calls => rw [left] at calls; cases calls
    | early front calls each position flag fresh unmade rootFiber counted =>
      have taken : step s .call = some (perform { s with calls := rest } call) := by
        simp [step,position,left]
      obtain ⟨next,later⟩ := step_phase taken alone
        (.early front calls each position flag fresh unmade rootFiber counted)
      exact Returns.cons taken (ih next later (perform_calls _ call))

/-- The calls return, and when they have, all that was scheduled has been executed, each
task once, if and only if the caller's thread takes part or nothing was scheduled: no
other thread is ever created, since `start` gives up while `m_stopping` is unset. -/
theorem stop_executes_iff (threads : Nat) (use_caller : Bool) (before after : List Script)
    (each : ∀ cb ∈ before ++ after, OnlySchedules cb) :
    Returns (construct threads use_caller (program before after)) ∧
    ∀ actions s,
      Transition.run step (construct threads use_caller (program before after)) actions = some s →
      Returned s →
      (Executed [] (functionTasks (before ++ after)) s.shared ↔ use_caller = true ∨ before ++ after = []) := by
  have initial := construct_alone threads use_caller (program before after)
  have first := construct_phase threads use_caller each
  refine ⟨phase_returns initial first,fun actions s ran returned => ?_⟩
  obtain ⟨alone,phase⟩ := Transition.run_invariant step
    (fun s => Alone use_caller s ∧ Phase use_caller (functionTasks (before ++ after)) s)
    (fun s action t holds taken => step_phase taken holds.1 holds.2) ⟨initial,first⟩ ran
  rw [returned_iff alone phase returned,functionTasks,List.map_eq_nil_iff]

theorem stop_executes_caller :
    Returns (construct 1 true (program [.schedule .returns none .returns] [.returns])) ∧
    ∀ actions s,
      Transition.run step
        (construct 1 true (program [.schedule .returns none .returns] [.returns])) actions = some s →
      Returned s →
        Executed [] (functionTasks [.schedule .returns none .returns,.returns]) s.shared := by
  have each : ∀ cb ∈ [Script.schedule .returns none .returns] ++ [.returns], OnlySchedules cb := by
    intro cb member
    rcases List.mem_cons.mp member with rfl | last
    · exact .schedule .returns .returns
    · cases List.mem_singleton.mp last; exact .returns
  obtain ⟨returns,executed⟩ := stop_executes_iff 1 true _ _ each
  exact ⟨returns,fun actions s ran returned => (executed actions s ran returned).mpr (.inl rfl)⟩

/-- Two threads beside the caller, one task: `stop` returns and the task is still there. -/
theorem stop_leaves_task : ∃ s,
    Transition.run step (construct 2 false (program [.returns] [])) [.call,.call,.call,.joined] = some s ∧
    Returned s ∧ s.m_threadCount = 2 ∧ s.m_threads.length = 0 ∧ s.shared.queue.m_tasks.length = 1 ∧
    ¬ Executed [] (functionTasks [.returns]) s.shared := by
  refine ⟨_,rfl,⟨rfl,rfl⟩,rfl,rfl,rfl,fun executed => ?_⟩
  cases executed.empty

end Myriel.Lifecycle

import Myriel.LifecycleSafety

/-! A sequence of calls that is not orderly fails in some run. -/
namespace Myriel.Lifecycle
open RunLoop

def anywhere : Call → Bool
  | .schedule (some (.cb cb)) none => unpinned cb
  | .schedule _ _ => false
  | .start | .stop => true

def Fails (s : Scheduler) : Prop := ∃ actions t, Transition.run step s actions = some t ∧ ¬ Safe t

theorem Fails.now {s : Scheduler} (wrong : ¬ Safe s) : Fails s := ⟨[],s,rfl,wrong⟩

theorem Fails.cons {s t : Scheduler} {action : Action} (taken : step s action = some t)
    (later : Fails t) : Fails s := by
  obtain ⟨actions,last,ran,wrong⟩ := later
  exact ⟨action :: actions,last,(Transition.run_cons_some step).mpr ⟨t,taken,ran⟩,wrong⟩

theorem Fails.after {s t : Scheduler} {actions : List Action}
    (ran : Transition.run step s actions = some t) (later : Fails t) : Fails s := by
  obtain ⟨more,last,rest,wrong⟩ := later
  exact ⟨actions ++ more,last,(Transition.run_append_some step).mpr ⟨t,ran,rest⟩,wrong⟩

theorem step_call {s : Scheduler} {call : Call} {rest : List Call} (position : s.position = .outside)
    (calls : s.calls = call :: rest) : step s .call = some (perform { s with calls := rest } call) := by
  simp [step,position,calls]

theorem aborted_wrong {s : Scheduler} (aborted : s.position = .aborted) : ¬ Safe s :=
  fun safe => safe.asserted aborted

/-- A run that ends with threads in `m_threads`. -/
theorem joinable_wrong {s : Scheduler} (position : s.position = .outside) (calls : s.calls = [])
    (joinable : s.m_threads ≠ []) : ¬ Safe s :=
  fun safe => joinable (safe.destructible ⟨calls,position⟩).1

/-! ### With `use_caller` -/

/-- The root fiber has ended; a task waits for it or a thread has been created. -/
structure Doomed (s : Scheduler) : Prop where
  useCaller : s.m_useCaller = true
  own : s.t_scheduler = true
  rootFiber : s.m_rootFiber = some .TERM
  position : s.position = .outside
  flag : s.shared.m_stopping = true
  overdue : s.shared.queue.m_tasks ≠ [] ∨ s.m_threads ≠ []

theorem doomed_start {s : Scheduler} (doomed : Doomed s) :
    (start s).position = .aborted ∨ Doomed (start s) := by
  cases threads : s.m_threads with
  | cons thread others =>
    left
    simp [start,doomed.flag,threads,abort]
  | nil =>
    right
    have waiting : s.shared.queue.m_tasks ≠ [] := doomed.overdue.resolve_right fun some => some threads
    simp only [start,doomed.flag,threads,Bool.not_true,Bool.false_eq_true,↓reduceIte,List.isEmpty_nil]
    exact ⟨doomed.useCaller,doomed.own,doomed.rootFiber,doomed.position,doomed.flag,.inl waiting⟩

theorem doomed_stop {s : Scheduler} (doomed : Doomed s) :
    (stop s).position = .aborted ∨ stop s = s ∧ s.m_threads ≠ [] := by
  by_cases early : stopping s.shared = true
  · right
    refine ⟨by rw [stop,if_pos early],doomed.overdue.resolve_left fun waiting => ?_⟩
    simp only [stopping,Bool.and_eq_true,List.isEmpty_iff] at early
    exact waiting early.1.2
  · left
    simp [stop,early,doomed.own,doomed.useCaller,doomed.rootFiber,abort]

theorem doomed_schedule {s : Scheduler} (doomed : Doomed s) (work : Work Script)
    (thread : Option ThreadId) : Doomed (perform s (.schedule (some work) thread)) := by
  refine ⟨doomed.useCaller,doomed.own,doomed.rootFiber,doomed.position,doomed.flag,.inl ?_⟩
  simp [perform,RunLoop.schedule,TaskQueue.scheduleNoLock]

theorem doomed_fails {s : Scheduler} {front : List Call} (each : ∀ call ∈ front, Functional call)
    (doomed : Doomed s) (calls : s.calls = front ++ [.stop]) : Fails s := by
  induction front generalizing s with
  | nil =>
    have taken := step_call doomed.position calls
    apply Fails.cons taken
    have last : Doomed { s with calls := [] } := { doomed with }
    rcases doomed_stop last with aborted | ⟨same,joinable⟩
    · exact Fails.now (aborted_wrong aborted)
    · apply Fails.now
      rw [perform,same]
      exact joinable_wrong doomed.position rfl joinable
  | cons call front ih =>
    have taken : step s .call = some (perform { s with calls := front ++ [.stop] } call) :=
      step_call doomed.position calls
    have rest : Doomed { s with calls := front ++ [.stop] } := { doomed with }
    have later : ∀ other ∈ front, Functional other := fun other member => each other (by simp [member])
    apply Fails.cons taken
    cases each call (by simp) with
    | schedule task => exact ih later (doomed_schedule rest _ _) rfl
    | start =>
      rcases doomed_start rest with aborted | again
      · exact Fails.now (aborted_wrong aborted)
      · exact ih later again (perform_calls _ .start)
    | stop =>
      rcases doomed_stop rest with aborted | ⟨same,_⟩
      · exact Fails.now (aborted_wrong aborted)
      · rw [perform,same]
        exact ih later rest rfl

structure Stopped (count : Nat) (s : Scheduler) : Prop where
  useCaller : s.m_useCaller = true
  own : s.t_scheduler = true
  threadCount : s.m_threadCount = count
  rootFiber : s.m_rootFiber = some .TERM
  position : s.position = .outside
  flag : s.shared.m_stopping = true
  threads : s.m_threads = []
  empty : s.shared.queue.m_tasks = []
  balanced : s.shared.m_activeThreadCount = 0

theorem stopped_start {s : Scheduler} (stopped : Stopped count s) :
    (count = 0 ∧ Stopped count (start s)) ∨ (count ≠ 0 ∧ Doomed (start s)) := by
  rw [start_creates stopped.flag stopped.threads]
  by_cases none : count = 0
  · left
    refine ⟨none,⟨stopped.useCaller,stopped.own,stopped.threadCount,stopped.rootFiber,stopped.position,
      stopped.flag,?_,stopped.empty,stopped.balanced⟩⟩
    simp [stopped.threadCount,none]
  · right
    refine ⟨none,⟨stopped.useCaller,stopped.own,stopped.rootFiber,stopped.position,stopped.flag,.inr ?_⟩⟩
    simp [stopped.threadCount,none]

theorem stopped_stop {s : Scheduler} (stopped : Stopped count s) : stop s = s := by
  have early : stopping s.shared = true := by
    simp [stopping,stopped.flag,stopped.empty,stopped.balanced]
  rw [stop,if_pos early]

theorem stopped_fails {s : Scheduler} {front : List Call} (each : ∀ call ∈ front, Functional call)
    (stopped : Stopped count s) (calls : s.calls = front ++ [.stop])
    (wrong : front.all (late true count) = false) : Fails s := by
  induction front generalizing s with
  | nil => cases wrong
  | cons call front ih =>
    have taken : step s .call = some (perform { s with calls := front ++ [.stop] } call) :=
      step_call stopped.position calls
    have rest : Stopped count { s with calls := front ++ [.stop] } := { stopped with }
    have later : ∀ other ∈ front, Functional other := fun other member => each other (by simp [member])
    apply Fails.cons taken
    cases each call (by simp) with
    | schedule task =>
      apply doomed_fails later ?_ rfl
      refine ⟨rest.useCaller,rest.own,rest.rootFiber,rest.position,rest.flag,.inl ?_⟩
      simp [perform,RunLoop.schedule,TaskQueue.scheduleNoLock]
    | start =>
      rcases stopped_start rest with ⟨none,again⟩ | ⟨_,doomed⟩
      · exact ih later again (perform_calls _ .start) (by simpa [late,none] using wrong)
      · exact doomed_fails later doomed (perform_calls _ .start)
    | stop =>
      rw [perform,stopped_stop rest]
      exact ih later rest rfl (by simpa [late] using wrong)

structure Rooted (count : Nat) (s : Scheduler) : Prop where
  useCaller : s.m_useCaller = true
  own : s.t_scheduler = true
  threadCount : s.m_threadCount = count
  position : s.position = .rootFiber
  flag : s.shared.m_stopping = true
  threads : s.m_threads = []
  rooted : s.root.id = caller
  live : s.root.status = .running
  sound : Sound caller (enter s.shared s.root)

theorem rooted_pass {s : Scheduler} (rooted : Rooted count s)
    (running : (iterate caller (enter s.shared s.root)).status = .running) :
    Rooted count (rootPass s) ∧ (rootPass s).calls = s.calls ∧
      enter (rootPass s).shared (rootPass s).root = iterate caller (enter s.shared s.root) := by
  obtain ⟨next,same,_⟩ := rooted.sound.step rooted.live
  have pass : rootPass s = { s with
      shared := iterate caller (enter s.shared s.root)
      root := frame (iterate caller (enter s.shared s.root)) caller } := by
    simp only [rootPass,rooted.rooted,running]
  rw [pass]
  exact ⟨⟨rooted.useCaller,rooted.own,rooted.threadCount,rooted.position,same.trans rooted.flag,
    rooted.threads,rfl,running,next⟩,rfl,rfl⟩

theorem rooted_exit {s : Scheduler} (rooted : Rooted count s)
    (exited : (iterate caller (enter s.shared s.root)).status = .exited) :
    ∃ t, Transition.run step s [.rootPass,.joined] = some t ∧ Stopped count t ∧ t.calls = s.calls := by
  obtain ⟨next,same,status⟩ := rooted.sound.step rooted.live
  have empty : entries (iterate caller (enter s.shared s.root)).queue = [] := by
    rcases status with running | ⟨_,empty⟩
    · cases running.symm.trans exited
    · exact empty
  have pass : rootPass s = { s with
      shared := iterate caller (enter s.shared s.root)
      root := frame (iterate caller (enter s.shared s.root)) caller
      m_rootFiber := some .TERM
      position := .join } := by
    simp only [rootPass,rooted.rooted,exited]
  refine ⟨{ rootPass s with m_threads := [], position := .outside },?_,?_,?_⟩
  · simp [Transition.run,step,rooted.position,pass,rooted.threads]
  · rw [pass]
    exact ⟨rooted.useCaller,rooted.own,rooted.threadCount,rfl,rfl,same.trans rooted.flag,rfl,
      List.map_eq_nil_iff.mp empty,next.balanced⟩
  · rw [pass]

/-- The passes of the root fiber, up to the return of `stop`. -/
theorem rooted_returns {s : Scheduler} (rooted : Rooted count s) (passes : Nat)
    (exits : (loop caller passes (enter s.shared s.root)).status = .exited) :
    ∃ actions t, Transition.run step s actions = some t ∧ Stopped count t ∧ t.calls = s.calls := by
  induction passes generalizing s with
  | zero =>
    rw [loop] at exits
    cases rooted.live.symm.trans exits
  | succ passes ih =>
    obtain ⟨_,_,status⟩ := rooted.sound.step rooted.live
    rcases status with running | ⟨exited,_⟩
    · obtain ⟨next,same,entered⟩ := rooted_pass rooted running
      rw [loop_succ (s := enter s.shared s.root) rooted.live,← entered] at exits
      obtain ⟨actions,t,ran,stopped,calls⟩ := ih next exits
      have taken : step s .rootPass = some (rootPass s) := by simp [step,rooted.position]
      exact ⟨.rootPass :: actions,t,(Transition.run_cons_some step).mpr ⟨_,taken,ran⟩,stopped,
        calls.trans same⟩
    · obtain ⟨t,ran,stopped,calls⟩ := rooted_exit rooted exited
      exact ⟨_,t,ran,stopped,calls⟩

/-! ### Without `use_caller` -/

def firstThread : ThreadId := caller + 1

/-- No thread has been created behind the first `stop`. -/
structure Idle (count : Nat) (s : Scheduler) : Prop where
  useCaller : s.m_useCaller = false
  own : s.t_scheduler = false
  threadCount : s.m_threadCount = count
  rootFiber : s.m_rootFiber = none
  position : s.position = .outside
  flag : s.shared.m_stopping = true
  threads : s.m_threads = []
  sound : Sound firstThread (enter s.shared (Thread.create firstThread))

/-- Threads have been created, and the first of them has not left `run`. -/
structure Serving (s : Scheduler) (thread : Thread) (others : List Thread) : Prop where
  useCaller : s.m_useCaller = false
  own : s.t_scheduler = false
  rootFiber : s.m_rootFiber = none
  position : s.position = .outside
  flag : s.shared.m_stopping = true
  threads : s.m_threads = thread :: others
  first : thread.id = firstThread
  live : thread.status = .running
  sound : Sound firstThread (enter s.shared thread)

def Spawned (s : Scheduler) : Prop := ∃ thread others, Serving s thread others

theorem serving_pass {s : Scheduler} {thread : Thread} {others : List Thread}
    (serving : Serving s thread others)
    (running : (iterate firstThread (enter s.shared thread)).status = .running) :
    ∃ t, step s (.threadPass 0) = some t ∧ t.calls = s.calls ∧
      Serving t (frame (iterate firstThread (enter s.shared thread)) firstThread) others ∧
      enter t.shared (frame (iterate firstThread (enter s.shared thread)) firstThread) =
        iterate firstThread (enter s.shared thread) := by
  obtain ⟨next,same,_⟩ := serving.sound.step serving.live
  refine ⟨{ s with
      shared := iterate firstThread (enter s.shared thread)
      m_threads := frame (iterate firstThread (enter s.shared thread)) firstThread :: others },
    ?_,rfl,?_,rfl⟩
  · simp [step,serving.threads,serving.live,serving.position,threadPass,serving.first,running]
  · exact ⟨serving.useCaller,serving.own,serving.rootFiber,serving.position,same.trans serving.flag,
      rfl,rfl,running,next⟩

/-- The first thread runs all tasks before the next call. -/
theorem serving_drains {s : Scheduler} {thread : Thread} {others : List Thread} (passes : Nat)
    (serving : Serving s thread others)
    (running : (loop firstThread passes (enter s.shared thread)).status = .running)
    (empty : entries (loop firstThread passes (enter s.shared thread)).queue = []) :
    ∃ actions t, Transition.run step s actions = some t ∧ Spawned t ∧ t.calls = s.calls ∧
      stopping t.shared = true := by
  induction passes generalizing s thread with
  | zero =>
    refine ⟨[],s,rfl,⟨thread,others,serving⟩,rfl,?_⟩
    have tasks : s.shared.queue.m_tasks = [] := List.map_eq_nil_iff.mp empty
    have balanced : s.shared.m_activeThreadCount = 0 := serving.sound.balanced
    simp [stopping,serving.flag,tasks,balanced]
  | succ passes ih =>
    obtain ⟨_,_,status⟩ := serving.sound.step serving.live
    rw [loop_succ (s := enter s.shared thread) serving.live] at running empty
    have again : (iterate firstThread (enter s.shared thread)).status = .running := by
      rcases status with again | ⟨exited,_⟩
      · exact again
      · rw [loop_stopped (by rw [exited]; exact fun wrong => (by cases wrong)),exited] at running
        cases running
    obtain ⟨next,taken,same,after,entered⟩ := serving_pass serving again
    rw [← entered] at running empty
    obtain ⟨actions,t,ran,spawned,calls,stop⟩ := ih after running empty
    exact ⟨.threadPass 0 :: actions,t,(Transition.run_cons_some step).mpr ⟨next,taken,ran⟩,spawned,
      calls.trans same,stop⟩

theorem spawned_stopping {s : Scheduler} (spawned : Spawned s) :
    ∃ actions t, Transition.run step s actions = some t ∧ Spawned t ∧ t.calls = s.calls ∧
      stopping t.shared = true := by
  obtain ⟨thread,others,serving⟩ := spawned
  obtain ⟨passes,_,running,_,empty⟩ := serving.sound.drains serving.live
  exact serving_drains passes serving running empty

theorem schedule_anywhere {s : State} {cb : Script} {thread : Option ThreadId} (sound : Sound self s)
    (task : Returning cb) (free : anywhere (.schedule (some (.cb cb)) thread) = true) :
    Sound self (RunLoop.schedule s (some (.cb cb)) thread) := by
  cases thread with
  | some thread => cases free
  | none =>
    obtain ⟨rescheduling,quiet⟩ := task.rescheduling self free
    exact schedule_sound sound rescheduling quiet

theorem spawned_fails {s : Scheduler} {front : List Call}
    (each : ∀ call ∈ front, Functional call ∧ anywhere call = true)
    (spawned : Spawned s) (calls : s.calls = front ++ [.stop]) : Fails s := by
  induction front generalizing s with
  | nil =>
    obtain ⟨actions,t,ran,⟨thread,others,serving⟩,same,early⟩ := spawned_stopping spawned
    apply Fails.after ran
    apply Fails.cons (step_call serving.position (same.trans calls))
    apply Fails.now
    rw [perform,stop,if_pos early]
    exact joinable_wrong serving.position rfl (by simp [serving.threads])
  | cons call front ih =>
    have later : ∀ other ∈ front, Functional other ∧ anywhere other = true :=
      fun other member => each other (by simp [member])
    obtain ⟨functional,free⟩ := each call (by simp)
    cases functional with
    | schedule task =>
      obtain ⟨thread,others,serving⟩ := spawned
      apply Fails.cons (step_call serving.position calls)
      have sound := schedule_anywhere serving.sound task free
      exact ih later ⟨thread,others,serving.useCaller,serving.own,serving.rootFiber,serving.position,
        serving.flag,serving.threads,serving.first,serving.live,sound⟩ rfl
    | start =>
      obtain ⟨thread,others,serving⟩ := spawned
      apply Fails.cons (step_call serving.position calls)
      apply Fails.now
      apply aborted_wrong
      simp [perform,start,serving.flag,serving.threads,abort]
    | stop =>
      obtain ⟨actions,t,ran,⟨thread,others,serving⟩,same,early⟩ := spawned_stopping spawned
      apply Fails.after ran
      apply Fails.cons (step_call serving.position (same.trans calls))
      rw [perform,stop,if_pos early]
      exact ih later ⟨thread,others,{ serving with }⟩ rfl

theorem idle_start {s : Scheduler} (idle : Idle count s) :
    (count = 0 ∧ Idle count (start s)) ∨ (count ≠ 0 ∧ Spawned (start s)) := by
  rw [start_creates idle.flag idle.threads]
  cases count with
  | zero =>
    left
    refine ⟨rfl,⟨idle.useCaller,idle.own,idle.threadCount,idle.rootFiber,idle.position,idle.flag,?_,
      idle.sound⟩⟩
    simp [idle.threadCount]
  | succ count =>
    right
    refine ⟨Nat.succ_ne_zero count,Thread.create firstThread,
      (List.range count).map fun i => Thread.create (caller + 1 + (i + 1)),?_⟩
    refine ⟨idle.useCaller,idle.own,idle.rootFiber,idle.position,idle.flag,?_,rfl,rfl,idle.sound⟩
    rw [idle.threadCount,List.range_succ_eq_map,List.map_cons,List.map_map]
    rfl

theorem stop_joins {s : Scheduler} (going : stopping s.shared = false) (useCaller : s.m_useCaller = false)
    (own : s.t_scheduler = false) (rootFiber : s.m_rootFiber = none) (position : s.position = .outside)
    (threads : s.m_threads = []) :
    step (stop s) .joined = some { s with shared := { s.shared with m_stopping := true } } := by
  simp [stop,going,own,useCaller,rootFiber,step,threads,position]

theorem idle_stop {s : Scheduler} (idle : Idle count s) :
    stop s = s ∨ step (stop s) .joined = some { s with shared := { s.shared with m_stopping := true } } := by
  cases early : stopping s.shared with
  | true => exact .inl (by rw [stop,if_pos early])
  | false =>
    exact .inr (stop_joins early idle.useCaller idle.own idle.rootFiber idle.position idle.threads)

theorem idle_fails {s : Scheduler} {front : List Call}
    (each : ∀ call ∈ front, Functional call ∧ anywhere call = true)
    (idle : Idle count s) (calls : s.calls = front ++ [.stop])
    (wrong : front.all (late false count) = false) : Fails s := by
  induction front generalizing s with
  | nil => cases wrong
  | cons call front ih =>
    have taken : step s .call = some (perform { s with calls := front ++ [.stop] } call) :=
      step_call idle.position calls
    have rest : Idle count { s with calls := front ++ [.stop] } := { idle with }
    have later : ∀ other ∈ front, Functional other ∧ anywhere other = true :=
      fun other member => each other (by simp [member])
    obtain ⟨functional,free⟩ := each call (by simp)
    apply Fails.cons taken
    cases functional with
    | schedule task =>
      exact ih later ⟨rest.useCaller,rest.own,rest.threadCount,rest.rootFiber,rest.position,rest.flag,
        rest.threads,schedule_anywhere rest.sound task free⟩ rfl (by simpa [late] using wrong)
    | start =>
      rcases idle_start rest with ⟨none,again⟩ | ⟨_,spawned⟩
      · exact ih later again (perform_calls _ .start) (by simpa [late,none] using wrong)
      · exact spawned_fails later spawned (perform_calls _ .start)
    | stop =>
      rcases idle_stop rest with same | joined
      · rw [perform,same]
        exact ih later rest rfl (by simpa [late] using wrong)
      · apply Fails.cons joined
        exact ih later ⟨rest.useCaller,rest.own,rest.threadCount,rest.rootFiber,rest.position,rfl,
          rest.threads,{ rest.sound with }⟩ rfl (by simpa [late] using wrong)

/-! ### Up to the first `stop` -/

/-- The thread that will run the tasks. -/
def runner (use_caller : Bool) : ThreadId := if use_caller then caller else firstThread

structure Unstopped (use_caller : Bool) (count : Nat) (s : Scheduler) : Prop where
  useCaller : s.m_useCaller = use_caller
  own : s.t_scheduler = use_caller
  threadCount : s.m_threadCount = count
  rootFiber : s.m_rootFiber = if use_caller then some .READY else none
  position : s.position = .outside
  flag : s.shared.m_stopping = false
  threads : s.m_threads = []
  root : s.root = Thread.create caller
  sound : Sound (runner use_caller) (enter s.shared s.root)

theorem unstopped_stop {s : Scheduler} {front : List Call} (unstopped : Unstopped use_caller count s)
    (each : ∀ call ∈ front, Functional call ∧ anywhere call = true)
    (calls : s.calls = front ++ [.stop]) (wrong : front.all (late use_caller count) = false) :
    Fails (stop s) := by
  have unset : stopping s.shared = false := by simp [stopping,unstopped.flag]
  cases use_caller with
  | false =>
    have idle : Idle count { s with shared := { s.shared with m_stopping := true } } :=
      ⟨unstopped.useCaller,unstopped.own,unstopped.threadCount,unstopped.rootFiber,unstopped.position,
        rfl,unstopped.threads,by have sound := unstopped.sound; rw [unstopped.root] at sound; exact { sound with }⟩
    have joined := stop_joins unset unstopped.useCaller unstopped.own unstopped.rootFiber
      unstopped.position unstopped.threads
    exact Fails.cons joined (idle_fails each idle calls wrong)
  | true =>
    have entered : stop s = { s with
        shared := { s.shared with m_stopping := true }
        m_rootFiber := some .EXEC
        position := .rootFiber } := by
      simp [stop,unset,unstopped.own,unstopped.useCaller,unstopped.rootFiber]
    have rooted : Rooted count (stop s) := by
      rw [entered]
      exact ⟨unstopped.useCaller,unstopped.own,unstopped.threadCount,rfl,rfl,unstopped.threads,
        by rw [unstopped.root]; rfl,by rw [unstopped.root]; rfl,{ unstopped.sound with }⟩
    obtain ⟨passes,_,exits,_⟩ := rooted.sound.exits rooted.live rooted.flag
    obtain ⟨actions,t,ran,stopped,same⟩ := rooted_returns rooted passes exits
    apply Fails.after ran
    apply stopped_fails (fun call member => (each call member).1) stopped ?_ wrong
    rw [same,entered]
    exact calls

theorem unstopped_fails {s : Scheduler} {front : List Call}
    (each : ∀ call ∈ front, Functional call ∧ anywhere call = true)
    (unstopped : Unstopped use_caller count s) (calls : s.calls = front ++ [.stop])
    (wrong : orderly use_caller count (front ++ [.stop]) = false) : Fails s := by
  induction front generalizing s with
  | nil => cases wrong
  | cons call front ih =>
    have taken : step s .call = some (perform { s with calls := front ++ [.stop] } call) :=
      step_call unstopped.position calls
    have rest : Unstopped use_caller count { s with calls := front ++ [.stop] } := { unstopped with }
    have later : ∀ other ∈ front, Functional other ∧ anywhere other = true :=
      fun other member => each other (by simp [member])
    obtain ⟨functional,free⟩ := each call (by simp)
    apply Fails.cons taken
    cases functional with
    | schedule task =>
      exact ih later ⟨rest.useCaller,rest.own,rest.threadCount,rest.rootFiber,rest.position,rest.flag,
        rest.threads,rest.root,schedule_anywhere rest.sound task free⟩ rfl wrong
    | start =>
      have same : start { s with calls := front ++ [.stop] } = { s with calls := front ++ [.stop] } := by
        simp [start,unstopped.flag]
      rw [perform,same]
      exact ih later rest rfl wrong
    | stop =>
      apply unstopped_stop rest later rfl
      simpa [orderly,late] using wrong

theorem construct_unstopped (threads : Nat) (use_caller : Bool) (calls : List Call) :
    Unstopped use_caller (construct threads use_caller []).m_threadCount
      (construct threads use_caller calls) := by
  refine ⟨rfl,rfl,rfl,rfl,rfl,rfl,rfl,rfl,?_⟩
  have nothing : Submitted (runner use_caller) [] [] := ⟨by simp,by simp,by simp⟩
  exact start_sound nothing (by simp) fun f => Nat.zero_le 1

/-- Calls of functions that return are safe when they are orderly, whatever threads the
tasks are pinned to; and for tasks that are not pinned they are safe only then. -/
theorem lifecycle_safe_iff (threads : Nat) (use_caller : Bool) (front : List Call)
    (each : ∀ call ∈ front, Functional call) :
    (orderly use_caller (construct threads use_caller []).m_threadCount (front ++ [.stop]) = true →
      ∀ actions s, Transition.run step (construct threads use_caller (front ++ [.stop])) actions = some s →
        Safe s) ∧
    (front.all anywhere = true →
      (∀ actions s, Transition.run step (construct threads use_caller (front ++ [.stop])) actions = some s →
        Safe s) →
      orderly use_caller (construct threads use_caller []).m_threadCount (front ++ [.stop]) = true) := by
  constructor
  · intro ordered actions s ran
    have kept := Transition.run_invariant step (Kept use_caller _) step_kept
      (construct_kept threads use_caller front each ordered) ran
    exact kept.safe
  · intro free safe
    cases ordered : orderly use_caller (construct threads use_caller []).m_threadCount (front ++ [.stop]) with
    | true => rfl
    | false =>
      have all : ∀ call ∈ front, Functional call ∧ anywhere call = true :=
        fun call member => ⟨each call member,List.all_eq_true.mp free call member⟩
      obtain ⟨actions,t,ran,wrong⟩ := unstopped_fails all
        (construct_unstopped threads use_caller (front ++ [.stop])) rfl ordered
      exact absurd (safe actions t ran) wrong

/-- A task, a `start` and two `stop` calls. -/
theorem lifecycle_safe_twice :
    orderly true (construct 2 true []).m_threadCount ([scheduleCb .returns,.start,.stop] ++ [.stop]) = true ∧
    ∀ actions s,
      Transition.run step (construct 2 true ([scheduleCb .returns,.start,.stop] ++ [.stop])) actions = some s →
        Safe s := by
  have each : ∀ call ∈ [scheduleCb .returns,.start,.stop], Functional call := by
    intro call member
    simp only [List.mem_cons,List.not_mem_nil,or_false] at member
    rcases member with rfl | rfl | rfl
    · exact .schedule .returns
    · exact .start
    · exact .stop
  exact ⟨rfl,(lifecycle_safe_iff 2 true [scheduleCb .returns,.start,.stop] each).1 rfl⟩

/-- With `use_caller`, a task behind the first `stop`: the second one resumes a root fiber
that has ended. -/
theorem lifecycle_schedule_late : ¬ ∀ (threads : Nat) (use_caller : Bool) (front : List Call),
    1 ≤ threads → (∀ call ∈ front, Functional call) → ∀ actions s,
      Transition.run step (construct threads use_caller (front ++ [.stop])) actions = some s → Safe s := by
  intro always
  have each : ∀ call ∈ [.stop,scheduleCb .returns], Functional call := by
    intro call member
    simp only [List.mem_cons,List.not_mem_nil,or_false] at member
    rcases member with rfl | rfl
    · exact .stop
    · exact .schedule .returns
  have reached : (Transition.run step (construct 1 true ([.stop,scheduleCb .returns] ++ [.stop]))
      [.call,.rootPass,.rootPass,.joined,.call,.call]).map Scheduler.position = some .aborted := rfl
  obtain ⟨s,ran,aborted⟩ := Option.map_eq_some_iff.mp reached
  exact (always 1 true _ (Nat.le_refl 1) each _ s ran).asserted aborted

end Myriel.Lifecycle

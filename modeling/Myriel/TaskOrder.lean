import Myriel.RunSteps
import Myriel.Workers

/-! The order in which tasks are taken. One loop takes them as they were enqueued,
since its scan skips nothing: when it looks no fiber is in state `EXEC`. Several
workers keep the order among the functions pinned to one of them. -/
namespace Myriel.RunSteps

open RunLoop (Script Here schedule)

/-- The step schedules nothing for another thread. -/
def Near (self : ThreadId) (s : State) (action : Action) : Prop :=
  ∀ task ∈ scheduled s action, Here self task.2

/-- Taken and queued tasks together are the accepted ones in their order. -/
structure Ordered (id : ThreadId) (s : State) : Prop where
  order : s.loop.queue.taken ++ s.loop.queue.m_tasks.map SchedulerTask.id = List.range s.loop.queue.accepted
  pinned : ∀ task ∈ s.loop.queue.m_tasks, Here id task.thread

theorem start_ordered : Ordered self (start bodies held) where
  order := rfl
  pinned := by simp [start,RunLoop.start,RunLoop.scheduleAll,TaskQueue.empty]

theorem schedule_ordered (ordered : Ordered self s) (near : ∀ work', work = some work' → Here self thread)
    (current : Option Running) : Ordered self ⟨schedule s.loop work thread,current⟩ := by
  cases work with
  | none => exact ⟨ordered.order,ordered.pinned⟩
  | some work =>
    constructor
    · simp only [schedule,TaskQueue.scheduleNoLock,List.map_append,List.map_singleton,List.range_succ]
      rw [← List.append_assoc,ordered.order]
    · intro task member
      simp only [schedule,TaskQueue.scheduleNoLock,List.mem_append,List.mem_singleton] at member
      rcases member with old | rfl
      · exact ordered.pinned task old
      · exact near work rfl

/-- With every task pinned here or nowhere, and no fiber in state `EXEC`, the scan
takes the first task. -/
theorem taking_head (settled : Settled s) (ordered : Ordered self s) (head : s.current = none)
    (tasks : s.loop.queue.m_tasks = task :: rest) :
    taking self s.loop = some (task,{ s.loop.queue with
      m_tasks := rest, taken := s.loop.queue.taken ++ [task.id] }) := by
  apply TaskQueue.take_head tasks
  · exact (ordered.pinned task (by simp [tasks])).elsewhere
  · cases work : task.work with
    | cb cb => simp [TaskQueue.running,work]
    | fiber f => simp [TaskQueue.running,work,settled.executing,head]

theorem pass_queue (self : ThreadId) (dropped : s.cb_fiber = none) :
    (pass self s).loop.queue = match taking self s with
      | some (_,rest) => rest
      | none => s.queue := by
  have effect := pass_effect self dropped
  generalize pass self s = t at effect ⊢
  cases effect with
  | resumes found | callback found | ended found | refused found => rw [found]; rfl
  | exits found | idleEnds found | idleYields found => rw [found]

theorem pass_ordered (settled : Settled s) (ordered : Ordered self s) (head : s.current = none) :
    Ordered self (pass self s.loop) := by
  have dropped : s.loop.cb_fiber = none := by simp [settled.callback,head]
  have queue := pass_queue self dropped
  cases tasks : s.loop.queue.m_tasks with
  | nil =>
    have found : taking self s.loop = none := TaskQueue.take_nil tasks
    rw [found] at queue
    exact ⟨by rw [queue]; exact ordered.order,by rw [queue]; exact ordered.pinned⟩
  | cons task rest =>
    rw [taking_head settled ordered head tasks] at queue
    constructor
    · rw [queue,← ordered.order,tasks]
      simp
    · rw [queue]
      intro other member
      exact ordered.pinned other (by simp [tasks,member])

theorem back_queue (s : RunLoop.State) (r : Running) : (back s r).loop.queue = s.queue := by
  obtain ⟨after,same | lost,eq⟩ := back_cases s r
  · rw [same,eq]
  · rw [lost,eq]; rfl

theorem step_ordered (settled : Settled s) (ordered : Ordered self s) (near : Near self s action)
    (ran : step self s action = some t) : Ordered self t := by
  cases (step_effect ran).2 with
  | pass head => exact pass_ordered settled ordered head
  | @outside work thread =>
    apply schedule_ordered ordered
    rintro work rfl
    exact near (work,thread) rfl
  | @calls r work thread rest running requested =>
    apply schedule_ordered ordered
    intro _ _
    exact near (work,thread) (by simp [scheduled,running,requested])
  | leaves =>
    constructor
    · rw [back_queue]; exact ordered.order
    · rw [back_queue]; exact ordered.pinned
  | stops => exact ⟨ordered.order,ordered.pinned⟩

theorem run_ordered (near : Transition.Along (step self) (Near self) (start bodies held) actions)
    (ran : Transition.run (step self) (start bodies held) actions = some s) :
    Ordered self s ∧ (failed s = true ∨ Settled s) := by
  refine Transition.along_invariant (step self) (Near self)
    (fun s => Ordered self s ∧ (failed s = true ∨ Settled s)) ?_
    ⟨start_ordered,.inr (start_settled bodies held)⟩ near ran
  intro s action t ⟨ordered,sound⟩ near ran
  have settled := sound.resolve_left (by simp [(step_effect ran).1])
  exact ⟨step_ordered settled ordered near ran,step_settled settled ran⟩

/-- The loop takes the tasks as they were enqueued, each once: those taken are the
first ones, those queued the next ones, and a pass takes the first of them. -/
structure InOrder (s : State) (next : Option State) : Prop where
  taken : s.loop.queue.taken = List.range s.loop.queue.taken.length
  waiting : s.loop.queue.m_tasks.map SchedulerTask.id =
    List.range' s.loop.queue.taken.length s.loop.queue.m_tasks.length
  all : s.loop.queue.accepted = s.loop.queue.taken.length + s.loop.queue.m_tasks.length
  progress : ∀ t, next = some t → s.loop.queue.m_tasks ≠ [] →
    t.loop.queue.taken = s.loop.queue.taken ++ [s.loop.queue.taken.length]

theorem range_append_split (first second : List Nat) (total : Nat) (whole : first ++ second = List.range total) :
    first = List.range first.length ∧ second = List.range' first.length second.length ∧
      total = first.length + second.length := by
  have size := congrArg List.length whole
  simp only [List.length_append,List.length_range] at size
  subst size
  rw [List.range_eq_range',← List.range'_append_1] at whole
  obtain ⟨left,right⟩ := List.append_inj whole (by simp)
  exact ⟨left.trans List.range_eq_range'.symm,by simpa using right,rfl⟩

theorem ordered_inOrder (ordered : Ordered self s) (sound : failed s = true ∨ Settled s) :
    InOrder s (step self s .pass) := by
  obtain ⟨taken,waiting,all⟩ := range_append_split _ _ _ ordered.order
  rw [List.length_map] at waiting all
  refine ⟨taken,waiting,all,?_⟩
  intro t ran filled
  have settled := sound.resolve_left (by simp [(step_effect ran).1])
  cases (step_effect ran).2 with
  | pass head live =>
    have dropped : s.loop.cb_fiber = none := by simp [settled.callback,head]
    obtain ⟨task,rest,tasks⟩ := List.exists_cons_of_ne_nil filled
    rw [pass_queue self dropped,taking_head settled ordered head tasks]
    simp only [tasks,List.map_cons,List.length_cons,List.range'_succ,List.cons.injEq] at waiting
    rw [waiting.1]

theorem run_inOrder (near : Transition.Along (step self) (Near self) (start bodies held) actions)
    (ran : Transition.run (step self) (start bodies held) actions = some s) :
    InOrder s (step self s .pass) := by
  obtain ⟨ordered,sound⟩ := run_ordered near ran
  exact ordered_inOrder ordered sound

end Myriel.RunSteps

namespace Myriel.Workers

variable {n : Nat} {s t : State n}

inductive Event (n : Nat) where
  | enqueue (task : SchedulerTask Unit)
  | take (w : Fin n) (task : SchedulerTask Unit)

def appended (s : State n) (work : Option (Work Unit)) (thread : Option ThreadId) : List (Event n) :=
  match work with
  | some work => [.enqueue ⟨work,thread,s.queue.accepted⟩]
  | none => []

def observe (s : State n) : Action n → List (Event n)
  | .schedule work thread | .perform _ (.schedule work thread) => appended s work thread
  | .advance w =>
    match s.pc w with
    | .loop =>
      match taking s w with
      | some (task,_) => [.take w task]
      | none => []
    | _ => []
  | _ => []

def history (actions : List (Action n)) : List (Event n) :=
  Transition.trace step observe start actions

def enqueued (events : List (Event n)) : List (SchedulerTask Unit) :=
  events.filterMap fun
    | .enqueue task => some task
    | .take _ _ => none

def takes (events : List (Event n)) : List (Fin n × SchedulerTask Unit) :=
  events.filterMap fun
    | .enqueue _ => none
    | .take w task => some (w,task)

/-- A function pinned to worker `w`. -/
def pinned (w : Fin n) (task : SchedulerTask Unit) : Bool :=
  task.work == .cb () && task.thread == some w.val

/-- The functions pinned to one worker are taken from the front of those enqueued,
and every task is taken by a worker it is not kept from. -/
structure InOrder (events : List (Event n)) (s : State n) : Prop where
  functions : ∀ w : Fin n, (enqueued events).filter (pinned w) =
    ((takes events).map Prod.snd).filter (pinned w) ++ s.queue.m_tasks.filter (pinned w)
  threads : ∀ w task, (w,task) ∈ takes events → task.thread = none ∨ task.thread = some w.val

theorem elsewhere_eq_false (task : SchedulerTask Unit) :
    TaskQueue.elsewhere self task = false ↔ task.thread = none ∨ task.thread = some self := by
  cases thread : task.thread <;> simp [TaskQueue.elsewhere,thread]

/-- Removing a task from the middle takes the first function pinned to a worker. -/
theorem taking_filter (found : taking s v = some (task,rest)) (w : Fin n) :
    s.queue.m_tasks.filter (pinned w) =
      [task].filter (pinned w) ++ rest.m_tasks.filter (pinned w) := by
  obtain ⟨front,back,split,rfl,skipped,here,_⟩ := TaskQueue.take_some found
  simp only [split,List.filter_append,List.filter_cons,List.filter_nil]
  by_cases function : pinned w task = true
  · -- the scan has passed over nothing that is pinned to the same worker
    have passed : front.filter (pinned w) = [] := by
      apply List.filter_eq_nil_iff.mpr
      intro other member same
      simp only [pinned,Bool.and_eq_true,beq_iff_eq] at function same
      rw [elsewhere_eq_false,function.2] at here
      rcases skipped other member with far | running
      · rw [← Bool.not_eq_false,elsewhere_eq_false,same.2] at far
        exact far here
      · simp [TaskQueue.running,same.1] at running
    simp [passed,function]
  · simp [function]

theorem take_inOrder (inOrder : InOrder events s) (found : taking s w = some (task,rest))
    (queue : t.queue = rest) : InOrder (events ++ [.take w task]) t := by
  constructor
  · intro v
    have front := inOrder.functions v
    rw [taking_filter found] at front
    simpa [enqueued,takes,queue] using front
  · intro v other member
    simp only [takes,List.filterMap_append,List.mem_append] at member
    rcases member with old | new
    · exact inOrder.threads v other old
    · obtain ⟨rfl,rfl⟩ : v = w ∧ other = task := by simpa using new
      obtain ⟨_,_,_,_,_,here,_⟩ := TaskQueue.take_some found
      exact (elsewhere_eq_false other).mp here

theorem same_inOrder (inOrder : InOrder events s) (queue : t.queue = s.queue) : InOrder events t :=
  ⟨by rw [queue]; exact inOrder.functions,inOrder.threads⟩

theorem schedule_inOrder (inOrder : InOrder events s) (scheduled : schedule s work thread = some t) :
    InOrder (events ++ appended s work thread) t := by
  obtain ⟨rfl,_⟩ := schedule_some scheduled
  cases work with
  | none =>
    simp only [appended,List.append_nil]
    exact same_inOrder inOrder rfl
  | some work =>
    constructor
    · intro w
      have front := inOrder.functions w
      simp only [enqueued,takes] at front
      simp [appended,enqueued,takes,TaskQueue.scheduleNoLock,front]
    · intro w task member
      exact inOrder.threads w task (by simpa [appended,takes] using member)

/-- A worker outside of the loop head, and a task that does not schedule, leave the
queue as it is. -/
theorem effect_queue (effect : Effect s action t) (still : match action with
      | .advance w => s.pc w ≠ .loop
      | .perform _ (.schedule _ _) | .schedule _ _ => False
      | _ => True) : t.queue = s.queue := by
  cases effect with
  | take pc => exact absurd pc still
  | runningSchedules | schedules => exact still.elim
  | none | resume | callback | exec | switchIn | switchOut | finished | exit | idleEnds | idleYields
  | abort | runningCreates | yields | ends | creates | stops => rfl

theorem step_inOrder (inOrder : InOrder events s) (ran : step s action = some t) :
    InOrder (events ++ observe s action) t := by
  obtain ⟨live,effect⟩ := step_effect ran
  have quiet (nothing : observe s action = []) (queue : t.queue = s.queue) :
      InOrder (events ++ observe s action) t := by
    rw [nothing,List.append_nil]
    exact same_inOrder inOrder queue
  cases action with
  | advance w =>
    by_cases head : s.pc w = .loop
    · simp only [step,live,Bool.false_eq_true,↓reduceIte,advance,head] at ran
      cases found : taking s w with
      | none =>
        rw [found] at ran
        cases ran
        exact quiet (by simp [observe,head,found]) rfl
      | some pair =>
        rw [found] at ran
        cases ran
        have noted : observe s (.advance w) = [.take w pair.1] := by simp [observe,head,found]
        rw [noted]
        exact take_inOrder inOrder found rfl
    · apply quiet
      · simp only [observe]
      · exact effect_queue effect head
  | perform w op =>
    cases op with
    | schedule work thread =>
      simp only [step,live,Bool.false_eq_true,↓reduceIte,perform] at ran
      split at ran
      · split at ran
        · contradiction
        · exact schedule_inOrder inOrder ran
      · contradiction
    | create | yield | returns | throws => exact quiet rfl (effect_queue effect trivial)
  | schedule work thread =>
    simp only [step,live,Bool.false_eq_true,↓reduceIte] at ran
    exact schedule_inOrder inOrder ran
  | create | stop => exact quiet rfl (effect_queue effect trivial)

theorem run_inOrder (ran : Transition.run step start actions = some s) : InOrder (history actions) s := by
  have initial : InOrder ([] : List (Event n)) start := ⟨by simp [enqueued,takes,start,TaskQueue.empty],by simp [takes]⟩
  exact Transition.trace_invariant step observe InOrder
    (fun _ _ _ _ inOrder ran => step_inOrder inOrder ran) initial ran

end Myriel.Workers

namespace Myriel

/-- One loop takes the tasks scheduled for its thread exactly in the order in which
they were enqueued; among any number of workers the functions pinned to one of them
are taken in their order, and nobody takes a task that is pinned elsewhere. -/
theorem tasks_in_order :
    (∀ (self : ThreadId) (bodies : List RunLoop.Script) (held : FiberId → Bool)
        (actions : List RunSteps.Action) (s : RunSteps.State),
      Transition.Along (RunSteps.step self) (RunSteps.Near self) (RunSteps.start bodies held) actions →
      Transition.run (RunSteps.step self) (RunSteps.start bodies held) actions = some s →
      RunSteps.InOrder s (RunSteps.step self s .pass)) ∧
    ∀ (n : Nat) (actions : List (Workers.Action n)) (s : Workers.State n),
      Transition.run Workers.step Workers.start actions = some s →
      Workers.InOrder (Workers.history actions) s :=
  ⟨fun _ _ _ _ _ near ran => RunSteps.run_inOrder near ran,
    fun _ _ _ ran => Workers.run_inOrder ran⟩

instance (self : ThreadId) (s : RunSteps.State) (action : RunSteps.Action) :
    Decidable (RunSteps.Near self s action) :=
  inferInstanceAs (Decidable (∀ task ∈ RunSteps.scheduled s action, _))

/-- A fiber that schedules itself behind a function, and two functions pinned to the
second of two workers. -/
theorem tasks_in_order_runs :
    (∃ s, Transition.run (RunSteps.step 0)
        (RunSteps.start [.scheduleThis none (.yield .returns)] fun _ => true)
        [.schedule (some (.fiber 0)) none,.schedule (some (.cb .returns)) (some 0),
          .pass,.call,.call,.pass,.call,.pass] = some s ∧
      s.loop.queue.taken = [0,1,2] ∧ RunSteps.InOrder s (RunSteps.step 0 s .pass)) ∧
    ∃ s, Transition.run Workers.step (Workers.start : Workers.State 2)
        [.schedule (some (.cb ())) (some 1),.schedule (some (.cb ())) none,
          .schedule (some (.cb ())) (some 1),.advance 0,.advance 1] = some s ∧
      Workers.InOrder (Workers.history [.schedule (some (.cb ())) (some 1),
        .schedule (some (.cb ())) none,.schedule (some (.cb ())) (some 1),.advance 0,.advance 1]) s := by
  constructor
  · refine ⟨_,rfl,rfl,tasks_in_order.1 0 [.scheduleThis none (.yield .returns)] (fun _ => true)
      [.schedule (some (.fiber 0)) none,.schedule (some (.cb .returns)) (some 0),
        .pass,.call,.call,.pass,.call,.pass] _ ?_ rfl⟩
    decide
  · exact ⟨_,rfl,tasks_in_order.2 2 _ _ rfl⟩

end Myriel

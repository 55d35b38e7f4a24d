import Myriel.TaskOrder
import Mathlib.Data.List.ReduceOption

/-! How long a function waits. A scan stops at a function that its worker may take, so
nothing behind such a function is taken before it, whatever the other workers and the
tasks do. -/
namespace Myriel.Workers

variable {n : Nat} {s t : State n}

/-- A function that worker `w` may take: its scan does not pass over it. -/
def eligible (w : Fin n) (task : SchedulerTask Unit) : Bool :=
  task.work == .cb () && (task.thread == none || task.thread == some w.val)

def ahead (q : TaskQueue Unit) (k : Nat) : Nat := q.m_tasks.countP fun task => task.id < k

theorem eligible_blocks (exec : FiberId → Bool) (can : eligible w task = true) :
    TaskQueue.elsewhere w.val task = false ∧ TaskQueue.running exec task = false := by
  simp only [eligible,Bool.and_eq_true,Bool.or_eq_true,beq_iff_eq] at can
  exact ⟨(elsewhere_eq_false task).mpr can.2,by simp [TaskQueue.running,can.1]⟩

/-! ### One step -/

/-- A worker does not turn to its idle fiber while there is a function for it. -/
theorem taking_eligible (member : task ∈ s.queue.m_tasks) (can : eligible w task = true) : (taking s w).isSome = true := by
  obtain ⟨here,free⟩ := eligible_blocks (fun f => (s.fibers f).m_state == .EXEC) can
  rw [taking,TaskQueue.take,Option.isSome_map]
  generalize s.queue.m_tasks = tasks at member ⊢
  induction tasks with
  | nil => cases member
  | cons first tasks ih =>
    rw [TaskQueue.scan]
    rcases List.mem_cons.mp member with rfl | later
    · simp [here,free]
    · split
      · exact ih later
      · split
        · exact ih later
        · rfl

inductive Noted (s : State n) (action : Action n) (t : State n) : Prop where
  | still (nothing : observe s action = []) (queue : t.queue = s.queue)
  | take (w : Fin n) (task : SchedulerTask Unit) (note : observe s action = [.take w task])
      (found : taking s w = some (task,t.queue))
  | enqueue (work : Work Unit) (thread : Option ThreadId)
      (note : observe s action = [.enqueue ⟨work,thread,s.queue.accepted⟩])
      (queue : t.queue = (s.queue.scheduleNoLock (some work) thread).1)

theorem schedule_noted (scheduled : schedule s work thread = some t) (note : observe s action = appended s work thread) :
    Noted s action t := by
  obtain ⟨rfl,_⟩ := schedule_some scheduled
  cases work with
  | none => exact .still note rfl
  | some work => exact .enqueue work thread note rfl

theorem step_noted (ran : step s action = some t) : Noted s action t := by
  obtain ⟨live,effect⟩ := step_effect ran
  cases action with
  | advance w =>
    by_cases head : s.pc w = .loop
    · simp only [step,live,Bool.false_eq_true,↓reduceIte,advance,head] at ran
      cases found : taking s w with
      | none =>
        rw [found] at ran
        cases ran
        exact .still (by simp [observe,head,found]) rfl
      | some pair =>
        rw [found] at ran
        cases ran
        exact .take w pair.1 (by simp [observe,head,found]) found
    · exact .still (by simp only [observe]) (effect_queue effect head)
  | perform w op =>
    cases op with
    | schedule work thread =>
      simp only [step,live,Bool.false_eq_true,↓reduceIte,perform] at ran
      split at ran
      · split at ran
        · contradiction
        · exact schedule_noted ran rfl
      · contradiction
    | create | yield | returns | throws => exact .still rfl (effect_queue effect trivial)
  | schedule work thread =>
    simp only [step,live,Bool.false_eq_true,↓reduceIte] at ran
    exact schedule_noted ran rfl
  | create | stop => exact .still rfl (effect_queue effect trivial)

/-! ### The order -/

abbrev Sorted (q : TaskQueue Unit) : Prop := q.m_tasks.Pairwise fun first second => first.id < second.id

/-- Whatever is left and could have been taken by the same worker stands behind. -/
theorem taking_first (sorted : Sorted s.queue) (found : taking s w = some (task,rest)) :
    ∀ other ∈ rest.m_tasks, eligible w other = true → task.id < other.id := by
  obtain ⟨front,back,split,rfl,skipped,_⟩ := TaskQueue.take_some found
  rw [Sorted,split] at sorted
  intro other member can
  obtain ⟨here,free⟩ := eligible_blocks (fun f => (s.fibers f).m_state == .EXEC) can
  rcases List.mem_append.mp member with before | behind
  · rcases skipped other before with far | busy
    · rw [here] at far; contradiction
    · rw [free] at busy; contradiction
  · exact (List.pairwise_cons.mp (List.pairwise_append.mp sorted).2.1).1 other behind

theorem taking_perm (found : taking s w = some (task,rest)) : s.queue.m_tasks.Perm (task :: rest.m_tasks) := by
  obtain ⟨front,back,split,rfl,_⟩ := TaskQueue.take_some found
  rw [split]
  exact List.perm_middle

theorem taking_sublist (found : taking s w = some (task,rest)) : rest.m_tasks.Sublist s.queue.m_tasks := by
  obtain ⟨front,back,split,rfl,_⟩ := TaskQueue.take_some found
  rw [split]
  exact List.Sublist.append_left (List.sublist_cons_self ..) _

theorem taking_accepted (found : taking s w = some (task,rest)) : rest.accepted = s.queue.accepted := by
  obtain ⟨_,_,_,rfl,_⟩ := TaskQueue.take_some found
  rfl

/-- The enqueued tasks are numbered, each is taken or in the queue, and no worker has taken a
task in front of which there was a function for it. -/
structure NotOvertaken (events : List (Event n)) (s : State n) : Prop where
  numbers : (enqueued events).map SchedulerTask.id = List.range s.queue.accepted
  places : (enqueued events).Perm ((takes events).map Prod.snd ++ s.queue.m_tasks)
  sorted : Sorted s.queue
  waiting : ∀ w task, (w,task) ∈ takes events → ∀ other ∈ s.queue.m_tasks, eligible w other = true → task.id < other.id
  order : (takes events).Pairwise fun first second => eligible first.1 second.2 = true → first.2.id < second.2.id

theorem NotOvertaken.fresh (placed : NotOvertaken events s) (task : SchedulerTask Unit)
    (member : task ∈ s.queue.m_tasks) : task.id < s.queue.accepted := by
  have inside : task ∈ enqueued events := placed.places.mem_iff.mpr (List.mem_append_right _ member)
  have number := List.mem_map_of_mem (f := SchedulerTask.id) inside
  rw [placed.numbers] at number
  exact List.mem_range.mp number

theorem start_notOvertaken : NotOvertaken ([] : List (Event n)) start := by
  constructor <;> simp [Sorted,enqueued,takes,start,TaskQueue.empty]

theorem take_notOvertaken (placed : NotOvertaken events s) (found : taking s w = some (task,t.queue)) :
    NotOvertaken (events ++ [.take w task]) t := by
  have entries : enqueued (events ++ [.take w task]) = enqueued events := by simp [enqueued]
  have noted : takes (events ++ [.take w task]) = takes events ++ [(w,task)] := by simp [takes]
  have taken := taking_perm found
  have left := taking_sublist found
  constructor
  · rw [entries,placed.numbers,taking_accepted found]
  · rw [entries,noted,List.map_append,List.append_assoc]
    exact placed.places.trans (taken.append_left _)
  · exact placed.sorted.sublist left
  · intro v earlier member other inside can
    rw [noted,List.mem_append,List.mem_singleton] at member
    rcases member with before | now
    · exact placed.waiting v earlier before other (left.subset inside) can
    · cases now
      exact taking_first placed.sorted found other inside can
  · rw [noted,List.pairwise_append]
    refine ⟨placed.order,List.pairwise_singleton _ _,fun first member second last can => ?_⟩
    cases List.mem_singleton.mp last
    exact placed.waiting first.1 first.2 member task (taken.mem_iff.mpr (by simp)) can

theorem enqueue_notOvertaken (placed : NotOvertaken events s)
    (queue : t.queue = (s.queue.scheduleNoLock (some work) thread).1) :
    NotOvertaken (events ++ [.enqueue ⟨work,thread,s.queue.accepted⟩]) t := by
  have entries : enqueued (events ++ [.enqueue ⟨work,thread,s.queue.accepted⟩]) =
      enqueued events ++ [⟨work,thread,s.queue.accepted⟩] := by simp [enqueued]
  have noted : takes (events ++ [.enqueue ⟨work,thread,s.queue.accepted⟩]) = takes events := by simp [takes]
  have inside : ∀ w task, (w,task) ∈ takes events → task.id < s.queue.accepted := by
    intro w task member
    have entry : task ∈ enqueued events :=
      placed.places.mem_iff.mpr (List.mem_append_left _ (List.mem_map_of_mem (f := Prod.snd) member))
    have number := List.mem_map_of_mem (f := SchedulerTask.id) entry
    rw [placed.numbers] at number
    exact List.mem_range.mp number
  constructor
  · rw [entries,queue,List.map_append,placed.numbers]
    exact List.range_succ.symm
  · rw [entries,noted,queue,TaskQueue.scheduleNoLock,← List.append_assoc]
    exact placed.places.append_right _
  · rw [queue,Sorted,TaskQueue.scheduleNoLock,List.pairwise_append]
    refine ⟨placed.sorted,List.pairwise_singleton _ _,fun task member other last => ?_⟩
    cases List.mem_singleton.mp last
    exact placed.fresh task member
  · intro w task member other last can
    rw [noted] at member
    rw [queue,TaskQueue.scheduleNoLock,List.mem_append,List.mem_singleton] at last
    rcases last with before | rfl
    · exact placed.waiting w task member other before can
    · exact inside w task member
  · rw [noted]
    exact placed.order

theorem step_notOvertaken (placed : NotOvertaken events s) (ran : step s action = some t) :
    NotOvertaken (events ++ observe s action) t := by
  cases step_noted ran with
  | still nothing queue =>
    rw [nothing,List.append_nil]
    exact ⟨by rw [queue]; exact placed.numbers,by rw [queue]; exact placed.places,by rw [queue]; exact placed.sorted,
      by rw [queue]; exact placed.waiting,placed.order⟩
  | take w task note found =>
    rw [note]
    exact take_notOvertaken placed found
  | enqueue work thread note queue =>
    rw [note]
    exact enqueue_notOvertaken placed queue

theorem run_notOvertaken (ran : Transition.run step start actions = some s) : NotOvertaken (history actions) s :=
  Transition.trace_invariant step observe NotOvertaken
    (fun _ _ _ _ placed ran => step_notOvertaken placed ran) start_notOvertaken ran

/-! ### The wait -/

/-- How often the workers that may take a task have taken another one. -/
def passes (task : SchedulerTask Unit) (events : List (Event n)) : Nat :=
  (takes events).countP fun taken => eligible taken.1 task

@[simp] theorem passes_append (task : SchedulerTask Unit) (first second : List (Event n)) :
    passes task (first ++ second) = passes task first + passes task second := by
  simp [passes,takes]

/-- A take moves a task on that was passed by none: by one place if the worker may take it. -/
theorem taking_ahead (sorted : Sorted s.queue) (found : taking s w = some (taken,rest))
    (member : task ∈ rest.m_tasks) :
    (if eligible w task = true then 1 else 0) + ahead rest task.id ≤ ahead s.queue task.id := by
  have count : ahead s.queue task.id = ahead rest task.id + if taken.id < task.id then 1 else 0 := by
    rw [ahead,(taking_perm found).countP_eq,List.countP_cons]
    simp [ahead]
  by_cases can : eligible w task = true
  · have before := taking_first sorted found task member can
    simp [can,before] at count ⊢
    omega
  · simp only [can,Bool.false_eq_true,↓reduceIte]
    omega

/-- The places that a task has still to move, and those it has moved since `n` were ahead. -/
structure Waits (task : SchedulerTask Unit) (places : Nat) (events : List (Event n)) (s : State n) : Prop where
  sorted : Sorted s.queue
  fresh : ∀ other ∈ s.queue.m_tasks, other.id < s.queue.accepted
  known : task.id < s.queue.accepted
  moved : task ∈ s.queue.m_tasks → passes task events + ahead s.queue task.id ≤ places

theorem step_waits (waits : Waits task places events s) (ran : step s action = some t) :
    Waits task places (events ++ observe s action) t := by
  cases step_noted ran with
  | still nothing queue =>
    rw [nothing,List.append_nil]
    exact ⟨by rw [queue]; exact waits.sorted,by rw [queue]; exact waits.fresh,by rw [queue]; exact waits.known,
      by rw [queue]; exact waits.moved⟩
  | take w taken note found =>
    have left := taking_sublist found
    have same := taking_accepted found
    refine ⟨waits.sorted.sublist left,fun other member => same ▸ waits.fresh other (left.subset member),
      same ▸ waits.known,fun member => ?_⟩
    have before := waits.moved (left.subset member)
    have one := taking_ahead waits.sorted found member
    have here : passes task [Event.take w taken] = if eligible w task = true then 1 else 0 := by
      simp [passes,takes,List.countP_singleton]
    rw [note,passes_append,here]
    omega
  | enqueue work thread note queue =>
    have last : t.queue.m_tasks = s.queue.m_tasks ++ [⟨work,thread,s.queue.accepted⟩] := by
      rw [queue,TaskQueue.scheduleNoLock]
    have grown : t.queue.accepted = s.queue.accepted + 1 := by rw [queue,TaskQueue.scheduleNoLock]
    have behind : ¬ s.queue.accepted < task.id := Nat.not_lt.mpr waits.known.le
    constructor
    · rw [Sorted,last,List.pairwise_append]
      refine ⟨waits.sorted,List.pairwise_singleton _ _,fun other member new inside => ?_⟩
      cases List.mem_singleton.mp inside
      exact waits.fresh other member
    · intro other member
      rw [last,List.mem_append,List.mem_singleton] at member
      rcases member with old | rfl
      · have := waits.fresh other old
        omega
      · simp [grown]
    · have := waits.known
      omega
    · intro member
      rw [last,List.mem_append,List.mem_singleton] at member
      have here : passes task [Event.enqueue (n := n) ⟨work,thread,s.queue.accepted⟩] = 0 := by simp [passes,takes]
      rw [note,passes_append,here,ahead,last,List.countP_append,List.countP_singleton]
      rcases member with old | rfl
      · simpa [behind,ahead] using waits.moved old
      · exact absurd waits.known (Nat.lt_irrefl _)

theorem run_kept (member : task ∈ s.queue.m_tasks) (ran : Transition.run step s actions = some t) :
    task ∈ t.queue.m_tasks ∨ ∃ w, (w,task) ∈ takes (Transition.trace step observe s actions) := by
  refine Transition.trace_invariant step observe
    (fun notes r => task ∈ r.queue.m_tasks ∨ ∃ w, (w,task) ∈ takes notes) ?_
    (show task ∈ s.queue.m_tasks ∨ ∃ w, (w,task) ∈ takes ([] : List (Event n)) from .inl member) ran
  intro notes r action u here ran
  rcases here with inside | ⟨w,taken⟩
  · cases step_noted ran with
    | still _ queue => exact .inl (queue ▸ inside)
    | take w taken note found =>
      rcases List.mem_cons.mp ((taking_perm found).mem_iff.mp inside) with rfl | left
      · exact .inr ⟨w,by simp [note,takes]⟩
      · exact .inl left
    | enqueue _ _ _ queue => exact .inl (by rw [queue]; exact List.mem_append_left _ inside)
  · exact .inr ⟨w,by simp only [takes,List.filterMap_append,List.mem_append] at taken ⊢; exact .inl taken⟩

/-- Where a worker takes a task, it could not have taken an older one that is not gone. -/
theorem NotOvertaken.gone (placed : NotOvertaken events s) (split : takes events = before ++ (w,task) :: after)
    (entry : older ∈ enqueued events) (less : older.id < task.id) (can : eligible w older = true) :
    older ∈ before.map Prod.snd := by
  have order := placed.order
  rw [split] at order
  rcases List.mem_append.mp (placed.places.mem_iff.mp entry) with taken | queued
  · rw [split,List.map_append,List.mem_append,List.map_cons,List.mem_cons] at taken
    rcases taken with earlier | rfl | later
    · exact earlier
    · exact absurd less (Nat.lt_irrefl _)
    · obtain ⟨⟨v,_⟩,member,rfl⟩ := List.mem_map.mp later
      have behind := (List.pairwise_cons.mp (List.pairwise_append.mp order).2.1).1 _ member can
      exact absurd (less.trans behind) (Nat.lt_irrefl _)
  · have behind := placed.waiting w task (by simp [split]) older queued can
    exact absurd (less.trans behind) (Nat.lt_irrefl _)

/-- A task is gone once it has been passed more often than there were tasks before it. -/
theorem NotOvertaken.passed (placed : NotOvertaken events s) (member : task ∈ s.queue.m_tasks)
    (ran : Transition.run step s actions = some t)
    (enough : ahead s.queue task.id < passes task (Transition.trace step observe s actions)) :
    task ∉ t.queue.m_tasks := by
  have waits : Waits task (ahead s.queue task.id) ([] : List (Event n)) s :=
    ⟨placed.sorted,placed.fresh,placed.fresh task member,fun _ => by simp [passes,takes]⟩
  have moved := (Transition.trace_invariant step observe (Waits task (ahead s.queue task.id))
    (fun _ _ _ _ waits ran => step_waits waits ran) waits ran).moved
  intro still
  have bound := moved still
  simp only [List.nil_append] at bound
  omega

/-- Where a worker takes a task, every function enqueued before it that the worker could take is
gone already. While a function is in the queue, the workers that may take it take some task at
each pass, and it is taken before they have taken more other tasks than stand before it now. -/
theorem functions_not_overtaken (actions : List (Action n)) (ran : Transition.run step start actions = some s) :
    (∀ before w task after, takes (history actions) = before ++ (w,task) :: after →
      ∀ older ∈ enqueued (history actions), older.id < task.id → eligible w older = true →
        older ∈ before.map Prod.snd) ∧
    ∀ task ∈ s.queue.m_tasks, (∀ w, eligible w task = true → (taking s w).isSome = true) ∧
      ∀ later t, Transition.run step s later = some t →
      ahead s.queue task.id < passes task (Transition.trace step observe s later) →
      task ∉ t.queue.m_tasks ∧ ∃ w, (w,task) ∈ takes (Transition.trace step observe s later) := by
  have placed := run_notOvertaken ran
  refine ⟨fun before w task after split older entry less can => placed.gone split entry less can,fun task member =>
    ⟨fun w can => taking_eligible member can,fun later t after enough => ?_⟩⟩
  have left := placed.passed member after enough
  exact ⟨left,(run_kept member after).resolve_left left⟩

theorem functions_not_overtaken_two : ∃ s t : State 2,
    Transition.run step start [.schedule (some (.cb ())) none,.schedule (some (.cb ())) none] = some s ∧
    Transition.run step s [.advance 1,.advance 0] = some t ∧
    ⟨.cb (),none,1⟩ ∈ s.queue.m_tasks ∧ ⟨.cb (),none,1⟩ ∉ t.queue.m_tasks :=
  ⟨_,_,rfl,rfl,.tail _ (.head _),((functions_not_overtaken (n := 2)
    [.schedule (some (.cb ())) none,.schedule (some (.cb ())) none] rfl).2 ⟨.cb (),none,1⟩ (.tail _ (.head _))).2
    [.advance 1,.advance 0] _ rfl (by decide) |>.1⟩

end Myriel.Workers

namespace Myriel.TaskQueue

/-- What the loop of `schedule(begin, end)` has done: the queue, what is left in the elements of
the range, whether to tickle. -/
structure Range (κ : Type) where
  queue : TaskQueue κ
  elements : List (Option (Work κ))
  need_tickle : Bool

/-- The loop under `m_mutex`. A task takes the fiber or the function out of its element, which
is null behind; a null one leaves no task. -/
def scheduleRange (queue : TaskQueue κ) (need_tickle : Bool) : List (Option (Work κ)) → Range κ
  | [] => ⟨queue,[],need_tickle⟩
  | element :: elements =>
    let (queue,tickle) := scheduleNoLock queue element none
    let range := scheduleRange queue (tickle || need_tickle) elements
    { range with elements := none :: range.elements }

/-- Only the first task of a range can find the queue empty. -/
theorem scheduleRange_eq (queue : TaskQueue κ) (need_tickle : Bool) (elements : List (Option (Work κ))) :
    (scheduleRange queue need_tickle elements).elements = elements.map (fun _ => none) ∧
    (scheduleRange queue need_tickle elements).need_tickle =
      (need_tickle || queue.m_tasks.isEmpty && !elements.isEmpty) ∧
    (scheduleRange queue need_tickle elements).queue =
      elements.foldl (fun queue element => (scheduleNoLock queue element none).1) queue := by
  induction elements generalizing queue need_tickle with
  | nil => simp [scheduleRange]
  | cons element elements ih =>
    obtain ⟨left,tickle,queued⟩ := ih (scheduleNoLock queue element none).1
      ((scheduleNoLock queue element none).2 || need_tickle)
    refine ⟨by simp [scheduleRange,left],?_,by simp [scheduleRange,queued]⟩
    have first : (scheduleNoLock queue element none).2 = queue.m_tasks.isEmpty := by cases element <;> rfl
    have later : (scheduleNoLock queue element none).1.m_tasks.isEmpty = true → queue.m_tasks.isEmpty = true := by
      cases element <;> simp [scheduleNoLock]
    simp only [scheduleRange]
    rw [tickle,first]
    cases empty : queue.m_tasks.isEmpty with
    | true => simp
    | false =>
      have filled : (scheduleNoLock queue element none).1.m_tasks.isEmpty = false :=
        Bool.eq_false_iff.mpr fun nothing => by simp [later nothing] at empty
      simp [filled]

end Myriel.TaskQueue

namespace Myriel.Workers

variable {n : Nat} {s t : State n}

def oneByOne (elements : List (Option (Work Unit))) : List (Action n) := elements.map fun element => .schedule element none

def rangeTasks (first : Nat) (elements : List (Option (Work Unit))) : List (SchedulerTask Unit) :=
  (elements.reduceOption.zipIdx first).map fun task => ⟨task.1,none,task.2⟩

theorem rangeTasks_cons (first : Nat) (work : Work Unit) (elements : List (Option (Work Unit))) :
    rangeTasks first (some work :: elements) = ⟨work,none,first⟩ :: rangeTasks (first + 1) elements := by
  simp [rangeTasks,List.reduceOption_cons_of_some]

theorem foldl_m_tasks (queue : TaskQueue Unit) (elements : List (Option (Work Unit))) :
    (elements.foldl (fun queue element => (queue.scheduleNoLock element none).1) queue).m_tasks =
      queue.m_tasks ++ rangeTasks queue.accepted elements := by
  induction elements generalizing queue with
  | nil => simp [rangeTasks,List.reduceOption]
  | cons element elements ih =>
    rw [List.foldl_cons,ih]
    cases element with
    | none => simp [TaskQueue.scheduleNoLock,rangeTasks,List.reduceOption_cons_of_none]
    | some work => simp [TaskQueue.scheduleNoLock,rangeTasks_cons]

theorem run_oneByOne (live : s.aborted = false) (made : ∀ f, some (.fiber f) ∈ elements → f < s.created) :
    Transition.run step s (oneByOne elements) = some { s with
      queue := elements.foldl (fun queue element => (queue.scheduleNoLock element none).1) s.queue } := by
  induction elements generalizing s with
  | nil => rfl
  | cons element elements ih =>
    have first : step s (.schedule element none) = some { s with queue := (s.queue.scheduleNoLock element none).1 } := by
      rcases element with _ | f | cb
      · simp [step,live,schedule]
      · have older := made f (by simp)
        simp [step,live,schedule,older]
      · simp [step,live,schedule]
    rw [oneByOne,List.map_cons,Transition.run_cons,first]
    exact ih (s := { s with queue := _ }) live fun f member => made f (List.mem_cons_of_mem _ member)

/-- `schedule(begin, end)` leaves the state that the single calls leave where no other thread comes
between them: its tasks stand in their order behind those in the queue, without the null elements.
The range holds nothing afterwards, and is tickled for if the queue was empty. -/
theorem range_one_by_one (s : State n) (elements : List (Option (Work Unit))) (live : s.aborted = false)
    (made : ∀ f, some (.fiber f) ∈ elements → f < s.created) :
    ∃ t, Transition.run step s (oneByOne elements) = some t ∧
      t = { s with queue := (s.queue.scheduleRange false elements).queue } ∧
      t.queue.m_tasks = s.queue.m_tasks ++ rangeTasks s.queue.accepted elements ∧
      (∀ element ∈ (s.queue.scheduleRange false elements).elements, element = none) ∧
      (s.queue.scheduleRange false elements).need_tickle = (s.queue.m_tasks.isEmpty && !elements.isEmpty) := by
  obtain ⟨left,tickle,queued⟩ := TaskQueue.scheduleRange_eq s.queue false elements
  refine ⟨_,run_oneByOne live made,by rw [queued],foldl_m_tasks s.queue elements,?_,by simpa using tickle⟩
  rw [left]
  simp

theorem range_one_by_one_two : ∃ t : State 1,
    Transition.run step start (oneByOne [some (.cb ()),none,some (.cb ())]) = some t ∧
      t.queue.m_tasks = [⟨.cb (),none,0⟩,⟨.cb (),none,1⟩] := by
  obtain ⟨t,ran,_,tasks,_⟩ := range_one_by_one (start : State 1) [some (.cb ()),none,some (.cb ())] rfl (by simp)
  exact ⟨t,ran,tasks⟩

end Myriel.Workers

import Myriel.WorkersTermination

/-! How often a fiber is resumed: once for each time it has been scheduled, and once for the
function that it has been made for. Every turn that is owed waits in the queue or is in the
hands of a worker. -/
namespace Myriel.Workers

variable {n : Nat} {s t : State n}

/-- What is noted of a step: a task accepted by `scheduleNoLock`, a fiber made for a function,
the switches into and out of a fiber. -/
inductive Turn where
  | ask (work : Work Unit)
  | make (f : FiberId)
  | enter (f : FiberId)
  | leave (f : FiberId)
  deriving DecidableEq

def turns (s : State n) : Action n → List Turn
  | .schedule work _ | .perform _ (.schedule work _) => work.toList.map .ask
  | .advance w =>
    match s.pc w with
    | .taken task =>
      match task.work with
      | .fiber _ => []
      | .cb _ => [.make s.created]
    | .marked f => [.enter f]
    | .leaving f _ => [.leave f]
    | _ => []
  | _ => []

def turnsOf (actions : List (Action n)) : List Turn := Transition.trace step turns start actions

def Turn.isMake : Turn → Bool
  | .make _ => true
  | _ => false

/-- What a worker has in hand, before the switch into it or behind. -/
inductive Stage where
  | towards (work : Work Unit)
  | within (f : FiberId)
  | nothing
  deriving DecidableEq

def Pc.stage : Pc → Stage
  | .taken task => .towards task.work
  | .resuming f | .marked f => .towards (.fiber f)
  | .inside f | .leaving f _ => .within f
  | .loop | .returned | .idle | .exited => .nothing

def standing (s : State n) (stage : Stage) : Nat := Census.count (fun pc => pc.stage == stage) s.pc

def queued (s : State n) (work : Work Unit) : Nat := s.queue.m_tasks.countP fun task => task.work == work

/-- The turns that a task has been promised. -/
def owed (notes : List Turn) : Work Unit → Nat
  | .fiber f => notes.count (.ask (.fiber f)) + notes.count (.make f)
  | .cb cb => notes.count (.ask (.cb cb))

/-- The turns it has had; that of a function is the fiber made for it. -/
def given (notes : List Turn) : Work Unit → Nat
  | .fiber f => notes.count (.enter f)
  | .cb _ => notes.countP Turn.isMake

/-- Each turn that is owed and not given is in the queue or with a worker. -/
structure Balanced (notes : List Turn) (s : State n) : Prop where
  turns : ∀ work, owed notes work = queued s work + standing s (.towards work) + given notes work
  switches : ∀ f, notes.count (.enter f) = notes.count (.leave f) + standing s (.within f)
  once : ∀ f, notes.count (.make f) ≤ 1
  unmade : ∀ f, s.created ≤ f → notes.count (.make f) = 0

/-! ### One step -/

/-- What a step does to the queue and to the worker that takes it. -/
inductive Turned (s : State n) (action : Action n) (t : State n) : Prop where
  | still (note : turns s action = []) (tasks : t.queue.m_tasks = s.queue.m_tasks) (pc : t.pc = s.pc)
      (created : s.created ≤ t.created)
  | ask (work : Work Unit) (thread : Option ThreadId) (note : turns s action = [.ask work])
      (tasks : t.queue.m_tasks = s.queue.m_tasks ++ [⟨work,thread,s.queue.accepted⟩]) (pc : t.pc = s.pc)
      (created : t.created = s.created)
  | take (w : Fin n) (task : SchedulerTask Unit) (note : turns s action = []) (head : s.pc w = .loop)
      (tasks : s.queue.m_tasks.Perm (task :: t.queue.m_tasks))
      (pc : t.pc = Function.update s.pc w (.taken task)) (created : t.created = s.created)
  | make (w : Fin n) (task : SchedulerTask Unit) (note : turns s action = [.make s.created])
      (taken : s.pc w = .taken task) (work : task.work = .cb ()) (tasks : t.queue.m_tasks = s.queue.m_tasks)
      (pc : t.pc = Function.update s.pc w (.resuming s.created)) (created : t.created = s.created + 1)
  | enter (w : Fin n) (f : FiberId) (note : turns s action = [.enter f]) (marked : s.pc w = .marked f)
      (tasks : t.queue.m_tasks = s.queue.m_tasks) (pc : t.pc = Function.update s.pc w (.inside f))
      (created : t.created = s.created)
  | leave (w : Fin n) (f : FiberId) (position : Context Unit) (note : turns s action = [.leave f])
      (leaving : s.pc w = .leaving f position) (tasks : t.queue.m_tasks = s.queue.m_tasks)
      (pc : t.pc = Function.update s.pc w .returned) (created : t.created = s.created)
  | moves (w : Fin n) (after : Pc) (note : turns s action = []) (same : (s.pc w).stage = after.stage)
      (tasks : t.queue.m_tasks = s.queue.m_tasks) (pc : t.pc = Function.update s.pc w after)
      (created : t.created = s.created)

theorem schedule_turned (scheduled : schedule s work thread = some t) (note : turns s action = work.toList.map .ask) :
    Turned s action t := by
  obtain ⟨rfl,_⟩ := schedule_some scheduled
  cases work with
  | none => exact .still note rfl rfl (Nat.le_refl _)
  | some work => exact .ask work thread note rfl rfl rfl

theorem advance_turned (ran : advance s w = some t) : Turned s (.advance w) t := by
  simp only [advance] at ran
  split at ran
  next head =>
    split at ran
    next task rest found =>
      cases ran
      obtain ⟨front,back,split,rfl,_⟩ := TaskQueue.take_some found
      exact .take w task (by simp [turns,head]) head (by rw [split]; exact List.perm_middle) rfl rfl
    next => cases ran; exact .moves w .idle (by simp [turns,head]) (by rw [head]; rfl) rfl rfl rfl
  next task taken =>
    split at ran
    next f work =>
      have note : turns s (.advance w) = [] := by simp [turns,taken,work]
      split at ran
      · cases ran; exact .moves w _ note (by simp [taken,Pc.stage,work]) rfl rfl rfl
      · cases ran; exact .still note rfl rfl (Nat.le_refl _)
    next cb work => cases ran; exact .make w task (by simp [turns,taken,work]) taken work rfl rfl rfl
  next f resuming => cases ran; exact .moves w _ (by simp [turns,resuming]) (by rw [resuming]; rfl) rfl rfl rfl
  next f marked => cases ran; exact .enter w f (by simp [turns,marked]) marked rfl rfl rfl
  next f inside =>
    split at ran
    · cases ran; exact .still (by simp [turns,inside]) rfl rfl (Nat.le_refl _)
    · contradiction
  next f position leaving => cases ran; exact .leave w f position (by simp [turns,leaving]) leaving rfl rfl rfl
  next returned => cases ran; exact .moves w _ (by simp [turns,returned]) (by rw [returned]; rfl) rfl rfl rfl
  next idle =>
    have note : turns s (.advance w) = [] := by simp [turns,idle]
    split at ran
    · cases ran; exact .moves w _ note (by rw [idle]; rfl) rfl rfl rfl
    · split at ran
      · cases ran; exact .moves w _ note (by rw [idle]; rfl) rfl rfl rfl
      · cases ran; exact .moves w _ note (by rw [idle]; rfl) rfl rfl rfl
  next => contradiction

theorem setFiber_same (s : State n) (f : FiberId) : setFiber s f (s.fibers f) = s := by simp [setFiber]

theorem yield_turned (inside : s.pc w = .inside f) (fiber : Fiber Unit) (same : r = setFiber s f fiber)
    (position : Context Unit) (note : turns s action = []) : Turned s action (yield r w f position) := by
  subst same
  rw [yield]
  split
  · exact .moves w _ note (by rw [inside]; rfl) rfl rfl rfl
  · exact .still note rfl rfl (Nat.le_refl _)

theorem perform_turned (ran : perform s w op = some t) : Turned s (.perform w op) t := by
  simp only [perform] at ran
  split at ran
  next f inside =>
    split at ran
    · contradiction
    · cases op with
      | schedule work thread => exact schedule_turned ran rfl
      | create => cases ran; exact .still rfl rfl rfl (Nat.le_succ _)
      | yield | throws => cases ran; exact yield_turned inside _ (setFiber_same s f).symm _ rfl
      | returns => cases ran; exact yield_turned inside _ rfl _ rfl
  next => contradiction

theorem step_turned (ran : step s action = some t) : Turned s action t := by
  have live := (step_effect ran).1
  simp only [step,live,Bool.false_eq_true,↓reduceIte] at ran
  cases action with
  | advance w => exact advance_turned ran
  | perform w op => exact perform_turned ran
  | schedule work thread => exact schedule_turned ran rfl
  | create => cases ran; exact .still rfl rfl rfl (Nat.le_succ _)
  | stop => cases ran; exact .still rfl rfl rfl (Nat.le_refl _)

/-! ### The balance -/

theorem standing_update (pc : t.pc = Function.update s.pc w after) (stage : Stage) :
    standing t stage + (if ((s.pc w).stage == stage) = true then 1 else 0) =
      standing s stage + (if (after.stage == stage) = true then 1 else 0) := by
  rw [standing,pc]
  exact Census.count_update (fun pc => pc.stage == stage) s.pc w after

theorem standing_still (pc : t.pc = s.pc) (stage : Stage) : standing t stage = standing s stage := by rw [standing,pc]; rfl

theorem queued_still (tasks : t.queue.m_tasks = s.queue.m_tasks) (work : Work Unit) : queued t work = queued s work := by
  rw [queued,tasks]; rfl

@[simp] theorem owed_append (first second : List Turn) (work : Work Unit) :
    owed (first ++ second) work = owed first work + owed second work := by
  cases work <;> simp [owed]
  omega

@[simp] theorem given_append (first second : List Turn) (work : Work Unit) :
    given (first ++ second) work = given first work + given second work := by
  cases work <;> simp [given]

theorem start_balanced : Balanced [] (start : State n) := by
  have empty (stage : Stage) (busy : stage ≠ .nothing) : standing (start : State n) stage = 0 :=
    Census.count_none _ _ fun _ => by simpa [start,Pc.stage] using busy.symm
  constructor
  · intro work
    rw [empty (.towards work) (by simp)]
    cases work <;> simp [owed,given,queued,start,TaskQueue.empty]
  · intro f
    rw [empty (.within f) (by simp)]
    simp
  · simp
  · simp

theorem ask_balanced (balanced : Balanced notes s) (work : Work Unit)
    (tasks : t.queue.m_tasks = s.queue.m_tasks ++ [⟨work,thread,number⟩]) (pc : t.pc = s.pc)
    (created : t.created = s.created) : Balanced (notes ++ [.ask work]) t := by
  refine ⟨fun other => ?_,fun f => ?_,fun f => ?_,fun f above => ?_⟩
  · have before := balanced.turns other
    have promised : owed [.ask work] other = if (work == other) = true then 1 else 0 := by
      cases other <;> simp [owed,List.count_singleton]
    have none : given [.ask work] other = 0 := by cases other <;> simp [given,Turn.isMake]
    have longer : queued t other = queued s other + if (work == other) = true then 1 else 0 := by
      simp [queued,tasks,List.countP_singleton]
    rw [owed_append,given_append,standing_still pc,promised,none,longer]
    omega
  · rw [standing_still pc]
    simpa using balanced.switches f
  · simpa using balanced.once f
  · simpa using balanced.unmade f (created ▸ above)

theorem take_balanced (balanced : Balanced notes s) (head : s.pc w = .loop)
    (tasks : s.queue.m_tasks.Perm (task :: t.queue.m_tasks)) (pc : t.pc = Function.update s.pc w (.taken task))
    (created : t.created = s.created) : Balanced notes t := by
  refine ⟨fun work => ?_,fun f => ?_,balanced.once,fun f above => balanced.unmade f (created ▸ above)⟩
  · have before := balanced.turns work
    have moved := standing_update pc (.towards work)
    have shorter : queued s work = queued t work + if (task.work == work) = true then 1 else 0 := by
      rw [queued,tasks.countP_eq,List.countP_cons]
      rfl
    simp [head,Pc.stage] at moved shorter
    omega
  · have moved := standing_update pc (.within f)
    simp [head,Pc.stage] at moved
    rw [moved]
    exact balanced.switches f

theorem make_balanced (balanced : Balanced notes s) (taken : s.pc w = .taken task) (work : task.work = .cb ())
    (tasks : t.queue.m_tasks = s.queue.m_tasks) (pc : t.pc = Function.update s.pc w (.resuming s.created))
    (created : t.created = s.created + 1) : Balanced (notes ++ [.make s.created]) t := by
  refine ⟨fun other => ?_,fun f => ?_,fun f => ?_,fun f above => ?_⟩
  · have before := balanced.turns other
    have moved := standing_update pc (.towards other)
    rw [owed_append,given_append,queued_still tasks]
    cases other with
    | fiber f =>
      -- the function becomes a turn of the new fiber
      have promised : owed [.make s.created] (.fiber f) = if s.created = f then 1 else 0 := by
        simp [owed,List.count_singleton]
      have none : given [.make s.created] (.fiber f) = 0 := by simp [given]
      simp [taken,Pc.stage,work] at moved
      rw [promised,none,moved]
      omega
    | cb cb =>
      have promised : owed [.make s.created] (.cb cb) = 0 := by simp [owed]
      have made : given [.make s.created] (.cb cb) = 1 := rfl
      simp [taken,Pc.stage,work] at moved
      rw [promised,made]
      omega
  · have moved := standing_update pc (.within f)
    simp [taken,Pc.stage] at moved
    rw [moved]
    simpa using balanced.switches f
  · rw [List.count_append,List.count_singleton]
    by_cases same : s.created = f
    · have fresh := balanced.unmade f (Nat.le_of_eq same)
      simp [same,fresh]
    · simpa [same] using balanced.once f
  · rw [created] at above
    have different : s.created ≠ f := Nat.ne_of_lt above
    simpa [different] using balanced.unmade f (Nat.le_of_succ_le above)

theorem enter_balanced (balanced : Balanced notes s) (marked : s.pc w = .marked f)
    (tasks : t.queue.m_tasks = s.queue.m_tasks) (pc : t.pc = Function.update s.pc w (.inside f))
    (created : t.created = s.created) : Balanced (notes ++ [.enter f]) t := by
  refine ⟨fun work => ?_,fun g => ?_,fun g => ?_,fun g above => ?_⟩
  · have before := balanced.turns work
    have moved := standing_update pc (.towards work)
    have promised : owed [.enter f] work = 0 := by cases work <;> simp [owed]
    have had : given [.enter f] work = if (Work.fiber f == work) = true then 1 else 0 := by
      cases work <;> simp [given,Turn.isMake,List.count_singleton]
    simp [marked,Pc.stage] at moved had
    rw [owed_append,given_append,queued_still tasks,promised,had]
    omega
  · have before := balanced.switches g
    have moved := standing_update pc (.within g)
    simp [marked,Pc.stage] at moved
    rw [moved]
    by_cases same : f = g <;> simp [same,List.count_append] <;> omega
  · simpa using balanced.once g
  · simpa using balanced.unmade g (created ▸ above)

theorem leave_balanced (balanced : Balanced notes s) (leaving : s.pc w = .leaving f position)
    (tasks : t.queue.m_tasks = s.queue.m_tasks) (pc : t.pc = Function.update s.pc w .returned)
    (created : t.created = s.created) : Balanced (notes ++ [.leave f]) t := by
  refine ⟨fun work => ?_,fun g => ?_,fun g => ?_,fun g above => ?_⟩
  · have before := balanced.turns work
    have moved := standing_update pc (.towards work)
    have promised : owed [.leave f] work = 0 := by cases work <;> simp [owed]
    have had : given [.leave f] work = 0 := by cases work <;> simp [given,Turn.isMake]
    simp [leaving,Pc.stage] at moved
    rw [owed_append,given_append,queued_still tasks,promised,had,moved]
    exact before
  · have before := balanced.switches g
    have moved := standing_update pc (.within g)
    simp [leaving,Pc.stage] at moved
    by_cases same : f = g <;> simp [same,List.count_append] at moved ⊢ <;> omega
  · simpa using balanced.once g
  · simpa using balanced.unmade g (created ▸ above)

theorem step_balanced (balanced : Balanced notes s) (ran : step s action = some t) :
    Balanced (notes ++ turns s action) t := by
  cases step_turned ran with
  | still note tasks pc created =>
    rw [note,List.append_nil]
    refine ⟨fun work => ?_,fun f => ?_,balanced.once,fun f above => balanced.unmade f (created.trans above)⟩
    · rw [queued_still tasks,standing_still pc]
      exact balanced.turns work
    · rw [standing_still pc]
      exact balanced.switches f
  | ask work thread note tasks pc created => rw [note]; exact ask_balanced balanced work tasks pc created
  | take w task note head tasks pc created =>
    rw [note,List.append_nil]
    exact take_balanced balanced head tasks pc created
  | make w task note taken work tasks pc created => rw [note]; exact make_balanced balanced taken work tasks pc created
  | enter w f note marked tasks pc created => rw [note]; exact enter_balanced balanced marked tasks pc created
  | leave w f position note leaving tasks pc created =>
    rw [note]
    exact leave_balanced balanced leaving tasks pc created
  | moves w after note same tasks pc created =>
    have kept (stage : Stage) : standing t stage = standing s stage := by
      have moved := standing_update pc stage
      rw [same] at moved
      omega
    rw [note,List.append_nil]
    refine ⟨fun work => ?_,fun f => ?_,balanced.once,fun f above => balanced.unmade f (created ▸ above)⟩
    · rw [queued_still tasks,kept]
      exact balanced.turns work
    · rw [kept]
      exact balanced.switches f

theorem run_balanced (ran : Transition.run step start actions = some s) : Balanced (turnsOf actions) s := by
  exact Transition.trace_invariant step turns Balanced
    (fun _ _ _ _ balanced ran => step_balanced balanced ran) start_balanced ran

/-- Under a true stop condition nothing is with a worker. -/
theorem stopping_stage (counted : Counted s) (stops : stopping s = true) (stage : Stage) (busy : stage ≠ .nothing) :
    standing s stage = 0 := by
  refine Census.count_none _ _ fun w => ?_
  cases pc : s.pc w with
  | loop | returned | idle | exited => simpa [Pc.stage] using busy.symm
  | taken | resuming | marked | inside | leaving => exact Bool.noConfusion (stopping_idle counted stops pc)

/-- No fiber is resumed more often than it has been scheduled, and once more for the function it
was made for; what is missing is in the queue or with a worker. Behind the last evaluation of
the stop condition nothing is missing: each function has had its fiber, and each fiber has been
switched into as often as it was scheduled, and out again. -/
theorem resumed_as_scheduled (actions : List (Action n)) (ran : Transition.run step start actions = some s) :
    (∀ work, owed (turnsOf actions) work =
      queued s work + standing s (.towards work) + given (turnsOf actions) work) ∧
    (∀ f, (turnsOf actions).count (.enter f) = (turnsOf actions).count (.leave f) + standing s (.within f)) ∧
    (∀ f, (turnsOf actions).count (.make f) ≤ 1) ∧
    (Transition.Along step Quiet start actions → ∀ w, s.pc w = .exited →
      (∀ work, given (turnsOf actions) work = owed (turnsOf actions) work) ∧
      ∀ f, (turnsOf actions).count (.leave f) = (turnsOf actions).count (.enter f)) := by
  have balanced := run_balanced ran
  refine ⟨balanced.turns,balanced.switches,balanced.once,fun quiet w left => ?_⟩
  have settled := run_settled start_settled quiet ran
  have stops := settled.term w (settled.exited w left)
  have idle := stopping_stage settled.counted stops
  have nothing : s.queue.m_tasks = [] := by
    simp only [stopping,Bool.and_eq_true,List.isEmpty_iff] at stops
    exact stops.1.2
  constructor
  · intro work
    have turn := balanced.turns work
    rw [idle (.towards work) (by simp),queued,nothing] at turn
    simpa using turn.symm
  · intro f
    have switch := balanced.switches f
    rw [idle (.within f) (by simp)] at switch
    exact switch.symm

def twoTurns (w : Fin n) : List (Action n) :=
  [.schedule (some (.cb ())) none,.stop,.advance w,.advance w,.advance w,.advance w,
    .perform w (.schedule (some (.fiber 0)) none),.perform w .yield,.advance w,.advance w,.advance w,.advance w,
    .advance w,.advance w,.perform w .returns,.advance w,.advance w,.advance w,.advance w,.advance w,.advance w]

/-- The fiber has been made for one function and scheduled once: it is entered twice. -/
theorem resumed_as_scheduled_twice : ∃ s : State 1, Transition.run step start (twoTurns 0) = some s ∧
    s.pc 0 = .exited ∧ given (turnsOf (twoTurns (0 : Fin 1))) (.fiber 0) = 2 ∧
    owed (turnsOf (twoTurns (0 : Fin 1))) (.fiber 0) = 2 := by
  have ran : ∃ s : State 1, Transition.run step start (twoTurns 0) = some s ∧ s.pc 0 = .exited := ⟨_,rfl,rfl⟩
  have quiet : Transition.Along step Quiet start (twoTurns (0 : Fin 1)) :=
    ⟨rfl,fun _ _ => Transition.along_forall step Quiet (by simp [Quiet]) _⟩
  obtain ⟨s,ran,left⟩ := ran
  have entered : given (turnsOf (twoTurns (0 : Fin 1))) (.fiber 0) = 2 := rfl
  have all := ((resumed_as_scheduled (twoTurns 0) ran).2.2.2 quiet 0 left).1 (.fiber 0)
  exact ⟨s,ran,left,entered,all ▸ entered⟩

end Myriel.Workers

import Myriel.RunSteps

/-! On which fibers `run` calls `resume`. The scan skips only fibers in state `EXEC`,
so a fiber must not be queued more often than it can still be resumed. -/
namespace Myriel.RunSteps

open RunLoop (Script Here setFiber schedule leave)

/-- How often a callback has to be resumed until its fiber is in state `TERM`. An
exception ends it in state `READY`. -/
def turns : Script → Option Nat
  | .returns => some 1
  | .throws => none
  | .yield rest => (turns rest).map (· + 1)
  | .schedule _ _ rest | .scheduleFiber _ _ rest | .scheduleThis _ rest => turns rest

/-- The same for a fiber that does not run. -/
def rests (fiber : Fiber Script) : Option Nat :=
  if fiber.m_state = .TERM then some 0 else fiber.m_ctx.script.bind turns

def left (s : State) (f : FiberId) : Option Nat :=
  match s.current with
  | some r => if r.fiber = f then (turns r.script).map (· - 1) else rests (s.loop.fibers f)
  | none => rests (s.loop.fibers f)

def entry (self : ThreadId) (f : FiberId) (task : SchedulerTask Script) : Bool :=
  task.work == .fiber f && !TaskQueue.elsewhere self task

def queued (self : ThreadId) (s : State) (f : FiberId) : Nat :=
  s.loop.queue.m_tasks.countP (entry self f)

/-- The step schedules no fiber more often than it can still be resumed. -/
def Room (self : ThreadId) (s : State) (action : Action) : Prop :=
  match scheduled s action with
  | some (.fiber f,thread) => Here self thread → ∀ n ∈ left s f, queued self s f < n
  | _ => True

instance (self : ThreadId) (s : State) (action : Action) : Decidable (Room self s action) := by
  unfold Room
  split <;> infer_instance

def resumed (self : ThreadId) (s : State) : Option FiberState :=
  if s.current = none ∧ s.loop.status = .running then
    match taking self s.loop with
    | some (task,_) =>
      match task.work with
      | .fiber f => some (s.loop.fibers f).m_state
      | .cb cb =>
        match s.loop.cb_fiber with
        | some f => ((s.loop.fibers f).reset cb).map Fiber.m_state
        | none => some (Fiber.create cb).m_state
    | none => if s.loop.idle = .TERM then none else some s.loop.idle
  else none

/-- No fiber is queued more often than it can still be resumed. -/
def Budgeted (self : ThreadId) (s : State) : Prop := ∀ f n, left s f = some n → queued self s f ≤ n

theorem start_budgeted : Budgeted self (start bodies held) := by
  intro f n _
  simp [queued,start,RunLoop.start,RunLoop.scheduleAll,TaskQueue.empty]

theorem left_running {s : RunLoop.State} : left ⟨s,some r⟩ r.fiber = (turns r.script).map (· - 1) := by
  simp [left]

theorem left_other {s : State} (other : ∀ r, s.current = some r → r.fiber ≠ f) :
    left s f = rests (s.loop.fibers f) := by
  cases running : s.current with
  | none => simp [left,running]
  | some r => simp [left,running,other r running]

theorem turns_request (requested : request f script = some (task,rest)) : turns rest = turns script := by
  cases script with
  | returns | throws | yield => contradiction
  | schedule | scheduleFiber | scheduleThis => cases requested; rfl

theorem leave_rests (requested : request f script = none) (exec : fiber.m_state = .EXEC) :
    rests (leave script fiber) = (turns script).map (· - 1) := by
  cases script with
  | returns => simp [leave,Fiber.yield,rests,turns]
  | throws => simp [leave,Fiber.yield,Fiber.setReady,exec,rests,turns,Context.script]
  | yield rest =>
    simp only [leave,Fiber.yield,rests,Fiber.save_state,Fiber.setReady_exec fiber exec,reduceCtorEq,
      ↓reduceIte,Fiber.save_ctx,Context.script,Option.bind_some,turns,Option.map_map]
    cases turns rest <;> simp
  | schedule | scheduleFiber | scheduleThis => contradiction

theorem entry_elsewhere (task : SchedulerTask Script) (far : ¬ Here self task.thread) :
    entry self f task = false := by
  have pinned : TaskQueue.elsewhere self task = true := by
    simpa [TaskQueue.elsewhere,Here] using far
  simp [entry,pinned]

theorem schedule_queued_count (self : ThreadId) (s : State) (current : Option Running)
    (work : Option (Work Script)) (thread : Option ThreadId) (f : FiberId) :
    queued self ⟨schedule s.loop work thread,current⟩ f = queued self s f +
      if work = some (.fiber f) ∧ Here self thread then 1 else 0 := by
  cases work with
  | none => simp [queued,schedule,TaskQueue.scheduleNoLock]
  | some work =>
    simp only [queued,schedule,TaskQueue.scheduleNoLock,List.countP_append,List.countP_singleton]
    congr 2
    rw [eq_iff_iff]
    by_cases here : Here self thread
    · have near : TaskQueue.elsewhere self (⟨work,thread,s.loop.queue.accepted⟩ : SchedulerTask RunLoop.Script) =
          false := Here.elsewhere here
      simp [entry,near,here]
    · simp [entry_elsewhere ⟨work,thread,s.loop.queue.accepted⟩ here,here]

theorem taking_queued_count {s : RunLoop.State} (found : taking self s = some (task,rest)) (f : FiberId) :
    s.queue.m_tasks.countP (entry self f) =
      rest.m_tasks.countP (entry self f) + if task.work = .fiber f then 1 else 0 := by
  obtain ⟨front,back,split,rfl,_,near,_⟩ := TaskQueue.take_some found
  have same : entry self f task = decide (task.work = .fiber f) := by
    simp [entry,near]
    rfl
  simp only [split,List.countP_append,List.countP_cons,same,decide_eq_true_eq]
  omega

/-- A step that schedules within the room that is left keeps all fibers in their budget. -/
theorem schedule_budgeted (budgeted : Budgeted self s) (current : Option Running)
    (same : ∀ f, left ⟨schedule s.loop work thread,current⟩ f = left s f)
    (room : ∀ f, work = some (.fiber f) → Here self thread → ∀ n ∈ left s f, queued self s f < n) :
    Budgeted self ⟨schedule s.loop work thread,current⟩ := by
  intro f n leftover
  rw [same] at leftover
  rw [schedule_queued_count]
  split
  next added => exact room f added.1 added.2 n leftover
  next => exact budgeted f n leftover

/-- A fiber that `run` takes has a turn left, so it is in state `READY`. -/
theorem taken_ready (settled : Settled s) (budgeted : Budgeted self s) (head : s.current = none)
    (found : taking self s.loop = some (task,rest)) (work : task.work = .fiber f) :
    (s.loop.fibers f).m_state = .READY := by
  have count := taking_queued_count found f
  have still := left_other (s := s) (f := f) (by simp [head])
  cases state : (s.loop.fibers f).m_state with
  | READY => rfl
  | EXEC =>
    obtain ⟨r,running,_⟩ := (settled.executing f).mp state
    rw [head] at running
    contradiction
  | TERM =>
    have spent : left s f = some 0 := by rw [still,rests,if_pos state]
    have := budgeted f 0 spent
    simp only [queued,count,work,↓reduceIte] at this
    omega

theorem turns_positive (script : Script) : turns script ≠ some 0 := by
  induction script with
  | returns | throws => simp [turns]
  | yield rest => cases left : turns rest <;> simp [turns,left]
  | schedule _ _ _ _ ih | scheduleFiber _ _ _ ih | scheduleThis _ _ ih => simpa [turns] using ih

/-- The fibers that `run` does not resume keep their turns, and the queue gets shorter. -/
theorem entered_budgeted {u : RunLoop.State} (budgeted : Budgeted self s) (head : s.current = none)
    (found : taking self s.loop = some (task,rest)) (queue : u.queue = rest)
    (others : ∀ g, g ≠ f → u.fibers g = s.loop.fibers g)
    (own : ∀ n, turns script = some (n + 1) → rest.m_tasks.countP (entry self f) ≤ n) :
    Budgeted self ⟨u,some ⟨f,script,callback⟩⟩ := by
  intro g n leftover
  rw [queued,queue]
  by_cases same : g = f
  · subst g
    rw [left_running (r := ⟨f,script,callback⟩)] at leftover
    obtain ⟨m,turnsScript,rfl⟩ := Option.map_eq_some_iff.mp leftover
    cases m with
    | zero => exact absurd turnsScript (turns_positive script)
    | succ m => exact own m turnsScript
  · have count := taking_queued_count found g
    have still : left s g = rests (s.loop.fibers g) := left_other (by simp [head])
    have before := budgeted g n
    rw [left_other (by rintro r ⟨⟩ wrong; exact same wrong.symm),others g same,← still] at leftover
    have enough := before leftover
    simp only [queued,count] at enough
    omega

theorem pass_budgeted (settled : Settled s) (budgeted : Budgeted self s) (head : s.current = none)
    (live : s.loop.status = .running) : (pass self s.loop).loop.status ≠ .failed .resume ∧
      (failed (pass self s.loop) = true ∨ Budgeted self (pass self s.loop)) := by
  have dropped : s.loop.cb_fiber = none := by simp [settled.callback,head]
  have still : ∀ f, left s f = rests (s.loop.fibers f) := fun f => left_other (by simp [head])
  have effect := pass_effect self dropped
  generalize pass self s.loop = t at effect ⊢
  cases effect with
  | @resumes task rest f script found work ready segment =>
    refine ⟨by simp [setFiber,counted,live],.inr ?_⟩
    apply entered_budgeted budgeted head found rfl
    · intro g different
      simp [setFiber,counted,different]
    · intro n script_turns
      have before := budgeted f (n + 1) (by simp [still,rests,ready,segment,script_turns])
      have count := taking_queued_count found f
      simp only [queued,count,work,↓reduceIte] at before
      omega
  | @callback task rest cb found work =>
    refine ⟨by simp [setFiber,made,counted,live],.inr ?_⟩
    apply entered_budgeted budgeted head found rfl
    · intro g different
      simp [setFiber,made,counted,different]
    · -- nobody can have scheduled the fiber that has just been created
      intro n _
      have none : rest.m_tasks.countP (entry self s.loop.created) = 0 := by
        apply List.countP_eq_zero.mpr
        intro other member wrong
        simp only [entry,Bool.and_eq_true,beq_iff_eq] at wrong
        have known := (taking_queued settled.queued found).2 other member _ wrong.1
        exact Nat.lt_irrefl _ known
      omega
  | ended => exact ⟨by simp [RunLoop.fail],.inl rfl⟩
  | refused found work stuck => exact absurd (taken_ready settled budgeted head found work) stuck
  | exits | idleEnds | idleYields =>
    refine ⟨by simp [live],.inr fun g n leftover => ?_⟩
    exact budgeted g n (by rw [still]; exact leftover)

theorem back_budgeted (settled : Settled s) (budgeted : Budgeted self s)
    (live : ∀ a, s.loop.status ≠ .failed a) (running : s.current = some r)
    (requested : request r.fiber r.script = none) : (back s.loop r).loop.status ≠ .failed .resume ∧
      (failed (back s.loop r) = true ∨ Budgeted self (back s.loop r)) := by
  obtain ⟨after,same | lost,eq⟩ := back_cases s.loop r
  · rw [same]
    refine ⟨by rw [eq]; exact live _,.inr fun g n leftover => ?_⟩
    have queue : queued self ⟨after,none⟩ g = queued self s g := by rw [eq]; rfl
    rw [queue]
    apply budgeted g
    rw [← leftover,left_other (s := ⟨after,none⟩) (by simp),eq]
    by_cases here : g = r.fiber
    · have exec := (settled.executing r.fiber).mpr ⟨r,running,rfl⟩
      simp [here,leave_rests requested exec,left,running]
    · rw [left_other (by rintro r' again wrong; cases running.symm.trans again; exact here wrong.symm)]
      simp [here]
  · rw [lost]
    exact ⟨by simp [RunLoop.fail],.inl rfl⟩

/-- What a run within its room keeps: it may end with another assertion only. -/
def Within (self : ThreadId) (s : State) : Prop :=
  s.loop.status ≠ .failed .resume ∧ (failed s = true ∨ Settled s ∧ Budgeted self s)

theorem failed_iff (s : State) : failed s = true ↔ ∃ a, s.loop.status = .failed a := by
  cases status : s.loop.status <;> simp [failed,status]

theorem step_within (within : Within self s) (room : Room self s action)
    (ran : step self s action = some t) : Within self t := by
  obtain ⟨sound,effect⟩ := step_effect ran
  have live : ∀ a, s.loop.status ≠ .failed a := by
    intro a broken
    rw [(failed_iff s).mpr ⟨a,broken⟩] at sound
    contradiction
  obtain ⟨settled,budgeted⟩ := within.2.resolve_left (by simp [sound])
  have next := step_settled settled ran
  have combine : t.loop.status ≠ .failed .resume ∧ (failed t = true ∨ Budgeted self t) → Within self t := by
    rintro ⟨status,budget⟩
    refine ⟨status,?_⟩
    rcases next with broken | settled
    · exact .inl broken
    · exact budget.imp_right fun budget => ⟨settled,budget⟩
  cases effect with
  | pass head running => exact combine (pass_budgeted settled budgeted head running)
  | @outside work thread made =>
    refine combine ⟨live _,.inr (schedule_budgeted budgeted _ (fun _ => rfl) ?_)⟩
    rintro f rfl
    exact room
  | @calls r work thread rest running requested made =>
    refine combine ⟨live _,.inr (schedule_budgeted budgeted _ ?_ ?_)⟩
    · intro f
      simp only [left,running,turns_request requested]
      rfl
    · rintro f ⟨rfl⟩
      simpa [Room,scheduled,running,requested] using room
  | leaves running requested => exact combine (back_budgeted settled budgeted live running requested)
  | stops => exact combine ⟨live _,.inr budgeted⟩

/-- Within its budget the next pass resumes a fiber in state `READY`, the idle fiber
included. -/
theorem within_resumed (within : Within self s) {state : FiberState} (next : resumed self s = some state) :
    state = .READY := by
  unfold resumed at next
  split at next
  next enabled =>
    obtain ⟨head,live⟩ := enabled
    obtain ⟨settled,budgeted⟩ := within.2.resolve_left (by simp [failed,live])
    split at next
    next task rest found =>
      split at next
      next f work =>
        cases next
        exact taken_ready settled budgeted head found work
      next cb work =>
        have dropped : s.loop.cb_fiber = none := by simp [settled.callback,head]
        rw [dropped] at next
        cases next
        rfl
    next found =>
      split at next
      · contradiction
      next alive =>
        cases next
        have turned := settled.idle
        cases idle : s.loop.idle <;> simp_all
  next => contradiction

/-- In every run of the loop in which no fiber is scheduled more often than it can
still be resumed, `run` calls `resume` on fibers in state `READY` only. -/
theorem resume_ready_runs (self : ThreadId) (bodies : List Script) (held : FiberId → Bool)
    (actions : List Action) (room : Transition.Along (step self) (Room self) (start bodies held) actions)
    (ran : Transition.run (step self) (start bodies held) actions = some s) :
    s.loop.status ≠ .failed .resume ∧ ∀ state, resumed self s = some state → state = .READY := by
  have within := Transition.along_invariant (step self) (Room self) (Within self)
    (fun _ _ _ within room ran => step_within within room ran)
    ⟨by simp [start,RunLoop.start],.inr ⟨start_settled bodies held,start_budgeted⟩⟩ room ran
  exact ⟨within.1,fun state => within_resumed within⟩

theorem resume_ready_again : ∃ s,
    Transition.run (step 0) (start [.scheduleThis none (.yield .returns)] fun _ => true)
      [.schedule (some (.fiber 0)) none,.pass,.call,.call,.pass,.call] = some s ∧
    s.loop.status ≠ .failed .resume ∧ ∀ state, resumed 0 s = some state → state = .READY :=
  ⟨_,rfl,resume_ready_runs 0 [.scheduleThis none (.yield .returns)] (fun _ => true)
    [.schedule (some (.fiber 0)) none,.pass,.call,.call,.pass,.call] (by decide) rfl⟩

/-- A fiber that schedules itself and returns without yielding: its entry is taken
when the fiber is in state `TERM`. -/
theorem resume_finished_fiber : ∃ s t,
    Transition.run (step 0) (start [.scheduleThis none .returns] fun _ => true)
      [.schedule (some (.fiber 0)) none,.pass,.call,.call] = some s ∧
    resumed 0 s = some .TERM ∧ step 0 s .pass = some t ∧ t.loop.status = .failed .resume :=
  ⟨_,_,rfl,rfl,rfl,rfl⟩

end Myriel.RunSteps

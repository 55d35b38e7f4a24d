import Myriel.RunLoopDrain

/-! The loop over functions that return, pinned to any thread: no pass fails an assertion,
and `run` is left with an empty queue only. -/
namespace Myriel.RunLoop

/-- A function that schedules functions of its kind and returns; it may yield on the way
when it reschedules its fiber first. -/
inductive Returning : Script → Prop where
  | returns : Returning .returns
  | schedule (task : Returning cb) (next : Returning rest) : Returning (.schedule cb thread rest)
  | again (next : Returning rest) : Returning (.scheduleThis thread (.yield rest))

/-- Every fiber in the queue is suspended there once, with a function to finish. -/
structure Tame (s : State) : Prop where
  functions : ∀ cb thread, (.cb cb,thread) ∈ entries s.queue → Returning cb
  known : ∀ f thread, (.fiber f,thread) ∈ entries s.queue → f < s.created
  fibers : ∀ f thread, (.fiber f,thread) ∈ entries s.queue → (s.fibers f).m_state = .READY ∧
    ∃ rest, (s.fibers f).m_ctx = .suspended rest ∧ Returning rest
  single : ∀ f, tickets f (entries s.queue) ≤ 1
  balanced : s.m_activeThreadCount = 0
  dropped : s.cb_fiber = none

/-- What a segment leaves of its fiber, with the places in the queue that it takes for it. -/
theorem returning_segment (f : FiberId) (fiber : Fiber Script) (task : Returning script) (exec : fiber.m_state = .EXEC) :
    (leave script fiber).m_state = .TERM ∧ tickets f (spawned f script) = 0 ∨
      (leave script fiber).m_state = .READY ∧ tickets f (spawned f script) = 1 ∧
        ∃ rest, (leave script fiber).m_ctx = .suspended rest ∧ Returning rest := by
  induction task with
  | returns => exact .inl ⟨rfl,rfl⟩
  | schedule task next _ ih => simpa [leave,spawned,tickets] using ih
  | again next =>
    right
    refine ⟨?_,by simp [spawned,tickets],_,rfl,next⟩
    exact Fiber.setReady_exec fiber exec

theorem returning_spawned (task : Returning script) (member : (work,thread) ∈ spawned f script) :
    work = .fiber f ∨ ∃ cb, work = .cb cb ∧ Returning cb := by
  induction task with
  | returns => simp [spawned] at member
  | schedule task next _ ih =>
    rcases List.mem_cons.mp member with first | later
    · cases first
      exact .inr ⟨_,rfl,task⟩
    · exact ih later
  | again next =>
    cases List.mem_singleton.mp member
    exact .inl rfl

theorem returning_elsewhere (task : Returning script) (different : g ≠ f) :
    tickets g (spawned f script) = 0 := by
  apply tickets_zero
  intro thread member
  rcases returning_spawned task member with same | ⟨cb,same,_⟩
  · cases same
    exact different rfl
  · cases same

/-- The state in which `run` has taken a task and has fiber `f` for it. -/
structure Taken (s : State) (f : FiberId) (script : Script) : Prop where
  task : Returning script
  ready : (s.fibers f).m_state = .READY
  segment : (s.fibers f).m_ctx.script = some script
  made : f < s.created
  absent : tickets f (entries s.queue) = 0
  functions : ∀ cb thread, (.cb cb,thread) ∈ entries s.queue → Returning cb
  known : ∀ g thread, (.fiber g,thread) ∈ entries s.queue → g < s.created
  fibers : ∀ g thread, (.fiber g,thread) ∈ entries s.queue → (s.fibers g).m_state = .READY ∧
    ∃ rest, (s.fibers g).m_ctx = .suspended rest ∧ Returning rest
  single : ∀ g, tickets g (entries s.queue) ≤ 1
  balanced : s.m_activeThreadCount = 1

theorem Taken.release (taken : Taken s f script) :
    release (resetCbFiber (resume s f)) f = resetCbFiber (resume s f) := by
  apply release_kept taken.ready taken.segment
  intro fiber exec
  rcases returning_segment f fiber taken.task exec with ⟨term,_⟩ | ⟨_,_,rest,left,_⟩
  · exact .inl term
  · right
    rw [left]
    rfl

theorem Taken.entry (taken : Taken s f script)
    (member : (work,thread) ∈ entries (resetCbFiber (resume s f)).queue) :
    (work,thread) ∈ entries s.queue ∨ (work,thread) ∈ spawned f script := by
  rw [resume_ready taken.ready taken.segment,resetCbFiber,entries_scheduleAll,List.mem_append] at member
  exact member

theorem Taken.elsewhere (taken : Taken s f script) (member : (.fiber g,thread) ∈ entries s.queue) :
    g ≠ f := by
  rintro rfl
  have queued := tickets_pos member
  have absent := taken.absent
  omega

theorem Taken.left (taken : Taken s f script) :
    (resetCbFiber (resume s f)).fibers =
      Function.update s.fibers f (leave script (s.fibers f).setExec) := by
  rw [resume_ready taken.ready taken.segment,resetCbFiber]

theorem Taken.suspended (taken : Taken s f script) (member : (.fiber g,thread) ∈ spawned f script) :
    g = f ∧ (leave script (s.fibers f).setExec).m_state = .READY ∧
      ∃ rest, (leave script (s.fibers f).setExec).m_ctx = .suspended rest ∧ Returning rest := by
  rcases returning_spawned taken.task member with same | ⟨_,same,_⟩
  · cases same
    refine ⟨rfl,?_⟩
    rcases returning_segment f (s.fibers f).setExec taken.task rfl with ⟨_,none⟩ | ⟨ready,_,suspended⟩
    · have queued := tickets_pos member
      omega
    · exact ⟨ready,suspended⟩
  · cases same

theorem Taken.single_left (taken : Taken s f script) (g : FiberId) :
    tickets g (entries (resetCbFiber (resume s f)).queue) ≤ 1 := by
  rw [resume_ready taken.ready taken.segment,resetCbFiber,entries_scheduleAll,tickets_append]
  by_cases same : g = f
  · subst same
    have absent := taken.absent
    rcases returning_segment g (s.fibers g).setExec taken.task rfl with ⟨_,none⟩ | ⟨_,one,_⟩ <;> omega
  · have none := returning_elsewhere taken.task same
    have single := taken.single g
    omega

theorem Taken.tame (taken : Taken s f script) : Tame (resetCbFiber (resume s f)) := by
  constructor
  · intro cb thread member
    rcases taken.entry member with old | new
    · exact taken.functions cb thread old
    · rcases returning_spawned taken.task new with same | ⟨other,same,task⟩
      · cases same
      · cases same
        exact task
  · intro g thread member
    rw [resume_ready taken.ready taken.segment]
    rcases taken.entry member with old | new
    · exact taken.known g thread old
    · obtain ⟨rfl,_⟩ := taken.suspended new
      exact taken.made
  · intro g thread member
    rw [taken.left]
    rcases taken.entry member with old | new
    · simpa [taken.elsewhere old] using taken.fibers g thread old
    · obtain ⟨rfl,suspended⟩ := taken.suspended new
      simpa using suspended
  · exact taken.single_left
  · simp [resume_ready taken.ready taken.segment,resetCbFiber,taken.balanced]
  · rfl

theorem tickets_split (front back : List (Work Script × Option ThreadId)) (work : Work Script)
    (thread : Option ThreadId) (f : FiberId) :
    tickets f (front ++ (work,thread) :: back) =
      tickets f (front ++ back) + (work == .fiber f).toNat := by
  cases same : (work == Work.fiber f) <;> simp [tickets,same,Nat.add_assoc]

theorem Taken.flags (taken : Taken s f script) :
    (resetCbFiber (resume s f)).m_stopping = s.m_stopping ∧
      (resetCbFiber (resume s f)).idle = s.idle ∧ (resetCbFiber (resume s f)).status = s.status := by
  rw [resume_ready taken.ready taken.segment,resetCbFiber]
  exact ⟨rfl,rfl,rfl⟩

theorem Tame.others {work : Work Script} {thread : Option ThreadId} {front back} (tame : Tame s)
    (split : entries s.queue = front ++ (work,thread) :: back) :
    (∀ cb thread, (.cb cb,thread) ∈ front ++ back → Returning cb) ∧
      (∀ f thread, (.fiber f,thread) ∈ front ++ back → f < s.created ∧ (s.fibers f).m_state = .READY ∧
        ∃ rest, (s.fibers f).m_ctx = .suspended rest ∧ Returning rest) ∧
      ∀ f, tickets f (front ++ back) + (work == .fiber f).toNat ≤ 1 := by
  have whole : ∀ entry ∈ front ++ back, entry ∈ entries s.queue := by
    intro entry member
    rw [split]
    rcases List.mem_append.mp member with before | after
    · exact List.mem_append_left _ before
    · exact List.mem_append_right _ (List.mem_cons_of_mem _ after)
  refine ⟨?_,?_,?_⟩
  · intro cb thread member
    exact tame.functions cb thread (whole _ member)
  · intro f thread member
    exact ⟨tame.known f thread (whole _ member),tame.fibers f thread (whole _ member)⟩
  · intro f
    rw [← tickets_split front back work thread,← split]
    exact tame.single f

theorem iterate_fiber {s : State} {task : SchedulerTask Script} {rest : TaskQueue Script}
    (found : s.queue.take self (fun f => (s.fibers f).m_state == .EXEC) = some (task,rest))
    (work : task.work = .fiber f) (dropped : s.cb_fiber = none) :
    iterate self s = release (resetCbFiber (resume
      { s with queue := rest, m_activeThreadCount := s.m_activeThreadCount + 1 } f)) f := by
  simp only [iterate,found,work]
  rw [resetCbFiber_eq (by rw [resume_cb_fiber]; exact dropped)]

theorem iterate_cb {s : State} {task : SchedulerTask Script} {rest : TaskQueue Script}
    (found : s.queue.take self (fun f => (s.fibers f).m_state == .EXEC) = some (task,rest))
    (work : task.work = .cb cb) (dropped : s.cb_fiber = none) :
    iterate self s = release (resetCbFiber (resume
      { s with
        queue := rest
        m_activeThreadCount := s.m_activeThreadCount + 1
        fibers := Function.update s.fibers s.created (Fiber.create cb)
        created := s.created + 1
        cb_fiber := some s.created } s.created)) s.created := by
  simp only [iterate,found,work,dropped]
  rfl

theorem Tame.fiber_taken {rest : TaskQueue Script} {front back} (tame : Tame s)
    (split : entries s.queue = front ++ (.fiber f,thread) :: back)
    (remains : entries rest = front ++ back) : ∃ script,
    Taken { s with queue := rest, m_activeThreadCount := s.m_activeThreadCount + 1 } f script := by
  obtain ⟨functions,fibers,single⟩ := tame.others split
  rw [← remains] at functions fibers single
  have member : (.fiber f,thread) ∈ entries s.queue := by simp [split]
  obtain ⟨ready,script,suspended,returning⟩ := tame.fibers f thread member
  refine ⟨script,returning,ready,?_,tame.known f thread member,?_,functions,?_,?_,?_,?_⟩
  · simp [suspended,Context.script]
  · have one := single f
    rw [beq_self_eq_true,Bool.toNat_true] at one
    exact Nat.le_zero.mp (Nat.le_of_succ_le_succ one)
  · exact fun g pin other => (fibers g pin other).1
  · exact fun g pin other => (fibers g pin other).2
  · exact fun g => Nat.le_trans (Nat.le_add_right _ _) (single g)
  · simp [tame.balanced]

theorem Tame.cb_taken {rest : TaskQueue Script} {front back} (tame : Tame s)
    (split : entries s.queue = front ++ (.cb cb,thread) :: back)
    (remains : entries rest = front ++ back) :
    Taken { s with
      queue := rest
      m_activeThreadCount := s.m_activeThreadCount + 1
      fibers := Function.update s.fibers s.created (Fiber.create cb)
      created := s.created + 1
      cb_fiber := some s.created } s.created cb := by
  obtain ⟨functions,fibers,single⟩ := tame.others split
  rw [← remains] at functions fibers single
  have old : ∀ g pin, (.fiber g,pin) ∈ entries rest → g ≠ s.created :=
    fun g pin member => Nat.ne_of_lt (fibers g pin member).1
  refine ⟨?_,?_,?_,Nat.lt_succ_self _,?_,functions,?_,?_,?_,?_⟩
  · apply tame.functions cb thread
    simp [split]
  · simp [Fiber.create]
  · simp [Fiber.create,Context.script]
  · exact tickets_zero fun pin member => old s.created pin member rfl
  · exact fun g pin other => Nat.lt_succ_of_lt (fibers g pin other).1
  · intro g pin other
    simpa [old g pin other] using (fibers g pin other).2
  · exact fun g => Nat.le_trans (Nat.le_add_right _ _) (single g)
  · simp [tame.balanced]

theorem Tame.take {s : State} {task : SchedulerTask Script} {rest : TaskQueue Script}
    (tame : Tame s) (found : s.queue.take self (fun f => (s.fibers f).m_state == .EXEC) = some (task,rest)) :
    Tame (iterate self s) ∧ (iterate self s).m_stopping = s.m_stopping ∧
      (iterate self s).idle = s.idle ∧ (iterate self s).status = s.status := by
  obtain ⟨front,back,tasks,left,_⟩ := TaskQueue.take_some found
  have split : entries s.queue = entries { s.queue with m_tasks := front } ++
      (task.work,task.thread) :: entries { s.queue with m_tasks := back } := by
    simp [entries,tasks]
  have remains : entries rest = entries { s.queue with m_tasks := front } ++
      entries { s.queue with m_tasks := back } := by
    simp [entries,left]
  cases work : task.work with
  | fiber f =>
    rw [work] at split
    obtain ⟨script,taken⟩ := tame.fiber_taken split remains
    rw [iterate_fiber found work tame.dropped,taken.release]
    exact ⟨taken.tame,taken.flags⟩
  | cb cb =>
    rw [work] at split
    have taken := tame.cb_taken split remains
    rw [iterate_cb found work tame.dropped,taken.release]
    exact ⟨taken.tame,taken.flags⟩

/-- No pass over functions that return fails an assertion. Once the idle fiber has ended
the queue is empty, until `run` is left. -/
theorem Tame.step (self : ThreadId) (tame : Tame s) (live : s.status = .running)
    (drained : s.idle = .TERM → s.queue.m_tasks = []) :
    Tame (iterate self s) ∧ (iterate self s).m_stopping = s.m_stopping ∧
      ((iterate self s).idle = .TERM → (iterate self s).queue.m_tasks = []) ∧
      ((iterate self s).status = .running ∨
        (iterate self s).status = .exited ∧ (iterate self s).queue.m_tasks = []) := by
  cases found : s.queue.take self (fun f => (s.fibers f).m_state == .EXEC) with
  | some pair =>
    obtain ⟨task,rest⟩ := pair
    obtain ⟨next,flag,idle,status⟩ := tame.take found
    refine ⟨next,flag,?_,.inl (status.trans live)⟩
    intro term
    obtain ⟨front,back,tasks,_⟩ := TaskQueue.take_some found
    rw [drained (idle.symm.trans term)] at tasks
    simp at tasks
  | none =>
    simp only [iterate,found]
    split
    case isTrue term => exact ⟨{ tame with },rfl,drained,.inr ⟨rfl,drained term⟩⟩
    case isFalse notTerm =>
      split
      case isTrue stop =>
        refine ⟨{ tame with },rfl,fun _ => ?_,.inl live⟩
        simp only [stopping,Bool.and_eq_true,List.isEmpty_iff] at stop
        exact stop.1.2
      case isFalse => exact ⟨tame,rfl,drained,.inl live⟩

theorem tame_schedule (tame : Tame s) (task : Returning cb) (thread : Option ThreadId) :
    Tame (schedule s (some (.cb cb)) thread) := by
  have after : entries (schedule s (some (.cb cb)) thread).queue = entries s.queue ++ [(.cb cb,thread)] :=
    entries_scheduleAll s.queue [(.cb cb,thread)]
  constructor
  · intro other pin member
    rw [after,List.mem_append] at member
    rcases member with old | new
    · exact tame.functions other pin old
    · cases List.mem_singleton.mp new
      exact task
  · intro f pin member
    rw [after] at member
    exact tame.known f pin (by simpa using member)
  · intro f pin member
    rw [after] at member
    exact tame.fibers f pin (by simpa using member)
  · intro f
    rw [after]
    simpa [tickets] using tame.single f
  · exact tame.balanced
  · exact tame.dropped

def unpinned : Script → Bool
  | .returns | .throws => true
  | .yield rest | .scheduleFiber _ none rest | .scheduleThis none rest => unpinned rest
  | .schedule cb none rest => unpinned cb && unpinned rest
  | .schedule _ (some _) _ | .scheduleFiber _ (some _) _ | .scheduleThis (some _) _ => false

theorem Returning.rescheduling (self : ThreadId) (task : Returning script) (free : unpinned script = true) :
    Rescheduling self script ∧ throwing script = false := by
  induction task with
  | returns => exact ⟨.returns,rfl⟩
  | @schedule cb rest thread _ _ first next =>
    cases thread with
    | some thread => simp [unpinned] at free
    | none =>
      simp only [unpinned,Bool.and_eq_true] at free
      obtain ⟨task,quiet⟩ := first free.1
      obtain ⟨later,calm⟩ := next free.2
      exact ⟨.schedule (.inl rfl) task later,by simp [throwing,quiet,calm]⟩
  | @again rest thread _ next =>
    cases thread with
    | some thread => simp [unpinned] at free
    | none =>
      obtain ⟨later,calm⟩ := next (by simpa [unpinned] using free)
      exact ⟨.again (.inl rfl) later,by simpa [throwing] using calm⟩

end Myriel.RunLoop

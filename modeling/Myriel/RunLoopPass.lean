import Myriel.RunLoop

/-! One pass of the loop for tasks that keep themselves in the queue: they reschedule
their fiber before each `yield`, on no thread but this one. -/
namespace Myriel.RunLoop

/-- The thread test of the scan passes on `self`. -/
def Here (self : ThreadId) (thread : Option ThreadId) : Prop := thread = none ∨ thread = some self

instance (self : ThreadId) (thread : Option ThreadId) : Decidable (Here self thread) :=
  inferInstanceAs (Decidable (_ ∨ _))

theorem Here.elsewhere (pin : Here self task.thread) : TaskQueue.elsewhere self task = false := by
  rcases pin with pin | pin <;> simp [TaskQueue.elsewhere,pin]

inductive Rescheduling (self : ThreadId) : Script → Prop where
  | returns : Rescheduling self .returns
  | throws : Rescheduling self .throws
  | schedule (pin : Here self thread) (task : Rescheduling self cb) (next : Rescheduling self rest) :
      Rescheduling self (.schedule cb thread rest)
  | again (pin : Here self thread) (next : Rescheduling self rest) :
      Rescheduling self (.scheduleThis thread (.yield rest))

def throwing : Script → Bool
  | .returns => false
  | .throws => true
  | .yield rest | .scheduleFiber _ _ rest | .scheduleThis _ rest => throwing rest
  | .schedule cb _ rest => throwing cb || throwing rest

def weight : Script → Nat
  | .returns | .throws => 1
  | .yield rest => weight rest + 1
  | .scheduleFiber _ _ rest | .scheduleThis _ rest => weight rest
  | .schedule cb _ rest => weight cb + weight rest

def pending (s : State) : Work Script → Option Script
  | .cb cb => some cb
  | .fiber f => (s.fibers f).m_ctx.script

structure Orderly (id : ThreadId) (s : State) : Prop where
  accounted : s.queue.Accounted
  pinned : ∀ entry ∈ entries s.queue, Here id entry.2
  known : ∀ f thread, (.fiber f,thread) ∈ entries s.queue → f < s.created
  tasks : ∀ work thread script, (work,thread) ∈ entries s.queue → pending s work = some script →
    Rescheduling id script
  switched : ∀ f, (s.fibers f).m_state ≠ .EXEC
  balanced : s.m_activeThreadCount = 0
  dropped : s.cb_fiber = none

/-- A pass that has run a segment: `script` on fiber `f`, for the first task. -/
structure Pass (s t : State) (work : Work Script) (f : FiberId) (script : Script) : Prop where
  tasks : ∃ thread rest, entries s.queue = (work,thread) :: rest ∧
    entries t.queue = rest ++ spawned f script
  segment : pending s work = some script
  target : work = .fiber f ∧ t.created = s.created ∨
    work = .cb script ∧ f = s.created ∧ t.created = s.created + 1
  fibers : ∃ fiber, fiber.m_state = .EXEC ∧ t.fibers = Function.update s.fibers f (leave script fiber)
  accounted : s.queue.Accounted → t.queue.Accounted
  balanced : t.m_activeThreadCount = s.m_activeThreadCount
  dropped : t.cb_fiber = none
  status : t.status = s.status
  flag : t.m_stopping = s.m_stopping
  idle : t.idle = s.idle

theorem release_cases (s : State) (f : FiberId) : release s f = s ∨ release s f = fail s .destructor := by
  by_cases kept : (s.status != .running || referenced s f || (s.fibers f).destroyable) = true
  · exact .inl (by simp [release,kept])
  · exact .inr (by simp [release,kept])

theorem resume_ready (ready : (s.fibers f).m_state = .READY)
    (segment : (s.fibers f).m_ctx.script = some script) :
    resume s f = { s with
      queue := scheduleAll s.queue (spawned f script)
      fibers := Function.update s.fibers f (leave script (s.fibers f).setExec)
      m_activeThreadCount := s.m_activeThreadCount - 1 } := by
  have free : (s.fibers f).resumable = true := (Fiber.resumable_iff _).mpr ready
  cases ctx : (s.fibers f).m_ctx with
  | ended => simp [ctx,Context.script] at segment
  | entry cb | suspended rest =>
    rw [ctx] at segment
    cases segment
    simp [resume,free,ctx,runSegment_eq,setFiber]

/-- An assertion fails unless the fiber is `READY` with something left to run. -/
theorem resume_failed (stuck : (s.fibers f).m_state ≠ .READY ∨ (s.fibers f).m_ctx.script = none) :
    ∃ a, (resume s f).status = .failed a := by
  by_cases free : (s.fibers f).resumable = true
  · have ready := (Fiber.resumable_iff _).mp free
    cases ctx : (s.fibers f).m_ctx with
    | ended => exact ⟨.neverReach,by simp [resume,free,ctx,fail]⟩
    | entry cb | suspended rest => simp [ready,ctx,Context.script] at stuck
  · exact ⟨.resume,by simp [resume,free,fail]⟩

/-- The state `taken` when `run` has taken the first task and has fiber `f` for it. -/
structure Prepared (s taken : State) (work : Work Script) (f : FiberId) : Prop where
  first : ∃ thread, entries s.queue = (work,thread) :: entries taken.queue
  accounted : s.queue.Accounted → taken.queue.Accounted
  target : work = .fiber f ∧ taken.fibers f = s.fibers f ∧ taken.created = s.created ∨
    ∃ cb, work = .cb cb ∧ taken.fibers f = Fiber.create cb ∧ f = s.created ∧
      taken.created = s.created + 1
  fibers : ∀ g ≠ f, taken.fibers g = s.fibers g
  counted : taken.m_activeThreadCount = s.m_activeThreadCount + 1
  status : taken.status = s.status
  flag : taken.m_stopping = s.m_stopping
  idle : taken.idle = s.idle

theorem Prepared.segment (prepared : Prepared s taken work f) :
    pending s work = (taken.fibers f).m_ctx.script := by
  rcases prepared.target with ⟨rfl,same,_⟩ | ⟨cb,rfl,made,_⟩
  · rw [same,pending]
  · rw [made]; rfl

theorem Prepared.pass (prepared : Prepared s taken work f)
    (ready : (taken.fibers f).m_state = .READY)
    (segment : (taken.fibers f).m_ctx.script = some script) :
    Pass s (resetCbFiber (resume taken f)) work f script := by
  rw [resume_ready ready segment,resetCbFiber]
  obtain ⟨thread,first⟩ := prepared.first
  have pend := prepared.segment.trans segment
  exact {
    tasks := ⟨thread,_,first,entries_scheduleAll _ _⟩
    segment := pend
    target := by
      rcases prepared.target with ⟨known,_,same⟩ | ⟨cb,rfl,_,fresh⟩
      · exact .inl ⟨known,same⟩
      · cases pend; exact .inr ⟨rfl,fresh⟩
    fibers := by
      refine ⟨(taken.fibers f).setExec,rfl,?_⟩
      funext g
      by_cases same : g = f
      · subst g; simp
      · simp [same,prepared.fibers g same]
    accounted := fun accounted => scheduleAll_accounted (prepared.accounted accounted) _
    balanced := by simp [prepared.counted]
    dropped := rfl
    status := prepared.status
    flag := prepared.flag
    idle := prepared.idle }

theorem Prepared.outcome (prepared : Prepared s taken work f) :
    (∃ a, (release (resetCbFiber (resume taken f)) f).status = .failed a) ∨
      ∃ script, Pass s (release (resetCbFiber (resume taken f)) f) work f script := by
  by_cases free : (taken.fibers f).m_state = .READY ∧ ((taken.fibers f).m_ctx.script).isSome
  · obtain ⟨ready,remains⟩ := free
    obtain ⟨script,segment⟩ := Option.isSome_iff_exists.mp remains
    rcases release_cases (resetCbFiber (resume taken f)) f with same | failed
    · rw [same]; exact .inr ⟨script,prepared.pass ready segment⟩
    · rw [failed]; exact .inl ⟨.destructor,rfl⟩
  · have stuck : (taken.fibers f).m_state ≠ .READY ∨ (taken.fibers f).m_ctx.script = none := by
      by_cases ready : (taken.fibers f).m_state = .READY
      · exact .inr (by simpa [ready] using free)
      · exact .inl ready
    obtain ⟨a,failed⟩ := resume_failed stuck
    rcases release_cases (resetCbFiber (resume taken f)) f with same | other
    · rw [same]; exact .inl ⟨a,failed⟩
    · rw [other]; exact .inl ⟨.destructor,rfl⟩

/-- A fiber that has yielded is held by its own stack. -/
theorem leave_suspended (left : (leave script fiber).m_ctx.script = some rest) :
    (leave script fiber).m_ctx = .suspended rest := by
  induction script with
  | returns | throws => simp [leave,Fiber.yield,Context.script] at left
  | yield next _ => simpa [leave,Fiber.yield,Context.script] using left
  | schedule _ _ _ _ ih | scheduleFiber _ _ _ ih | scheduleThis _ _ ih => exact ih left

theorem release_kept (ready : (taken.fibers f).m_state = .READY)
    (segment : (taken.fibers f).m_ctx.script = some script)
    (safe : ∀ fiber, fiber.m_state = .EXEC →
      (leave script fiber).m_state = .TERM ∨ ((leave script fiber).m_ctx.script).isSome) :
    release (resetCbFiber (resume taken f)) f = resetCbFiber (resume taken f) := by
  have self_left : (resetCbFiber (resume taken f)).fibers f = leave script (taken.fibers f).setExec := by
    rw [resume_ready ready segment]; simp [resetCbFiber]
  rcases safe (taken.fibers f).setExec rfl with term | more
  · simp [release,self_left,Fiber.destroyable,term]
  · obtain ⟨rest,left⟩ := Option.isSome_iff_exists.mp more
    simp [release,referenced,self_left,leave_suspended left]

theorem resume_cb_fiber (s : State) (f : FiberId) : (resume s f).cb_fiber = s.cb_fiber := by
  by_cases free : (s.fibers f).resumable = true
  · cases ctx : (s.fibers f).m_ctx <;>
      simp [resume,free,ctx,fail,runSegment_eq,setFiber]
  · simp [resume,free,fail]

theorem resetCbFiber_eq (dropped : s.cb_fiber = none) : resetCbFiber s = s := by
  rw [resetCbFiber,← dropped]

theorem entries_cons (first : entries q = (work,thread) :: rest) :
    ∃ task tasks, q.m_tasks = task :: tasks ∧ task.work = work ∧ task.thread = thread ∧
      tasks.map (fun task => (task.work,task.thread)) = rest := by
  obtain ⟨task,tasks,split,head,left⟩ := List.map_eq_cons_iff.mp first
  exact ⟨task,tasks,split,congrArg Prod.fst head,congrArg Prod.snd head,left⟩

theorem iterate_prepared (orderly : Orderly self s) (first : entries s.queue = (work,thread) :: rest) :
    ∃ taken f, Prepared s taken work f ∧
      iterate self s = release (resetCbFiber (resume taken f)) f := by
  obtain ⟨task,tasks,split,rfl,rfl,left⟩ := entries_cons first
  have here := (orderly.pinned (task.work,task.thread) (by simp [first])).elsewhere
  have free : TaskQueue.running (fun f => (s.fibers f).m_state == .EXEC) task = false := by
    cases work : task.work <;> simp [TaskQueue.running,work,orderly.switched]
  have found := TaskQueue.take_head split here free
  have accounted : s.queue.Accounted → _ := fun counted => TaskQueue.take_accounted counted found
  subst left
  cases work : task.work with
  | fiber f =>
    refine ⟨{ s with queue := _, m_activeThreadCount := _ },f,
      ⟨⟨task.thread,by rw [first,work]; rfl⟩,accounted,.inl ⟨rfl,rfl,rfl⟩,
        fun _ _ => rfl,rfl,rfl,rfl,rfl⟩,?_⟩
    simp only [iterate,found,work]
    rw [resetCbFiber_eq (by rw [resume_cb_fiber]; exact orderly.dropped)]
  | cb cb =>
    refine ⟨{ s with
      queue := _
      m_activeThreadCount := _
      fibers := Function.update s.fibers s.created (Fiber.create cb)
      created := s.created + 1
      cb_fiber := some s.created },s.created,
      ⟨⟨task.thread,by rw [first,work]; rfl⟩,accounted,
        .inr ⟨cb,rfl,by simp,rfl,rfl⟩,fun g other => by simp [other],rfl,rfl,rfl,rfl⟩,?_⟩
    simp only [iterate,found,work,orderly.dropped]
    rfl

/-- A pass with a task either fails an assertion or runs a segment of it. -/
theorem iterate_task (orderly : Orderly self s) (first : entries s.queue = (work,thread) :: rest) :
    (∃ a, (iterate self s).status = .failed a) ∨ ∃ f script, Pass s (iterate self s) work f script := by
  obtain ⟨taken,f,prepared,eq⟩ := iterate_prepared orderly first
  rw [eq]
  rcases prepared.outcome with failed | ⟨script,pass⟩
  · exact .inl failed
  · exact .inr ⟨f,script,pass⟩

/-- A pass whose first task is a fiber in state `READY` or a function, and whose
segment leaves the fiber suspended or in state `TERM`. -/
theorem iterate_ready (orderly : Orderly self s) (first : entries s.queue = (work,thread) :: rest)
    (segment : pending s work = some script)
    (ready : ∀ f, work = .fiber f → (s.fibers f).m_state = .READY)
    (safe : ∀ fiber, fiber.m_state = .EXEC →
      (leave script fiber).m_state = .TERM ∨ ((leave script fiber).m_ctx.script).isSome) :
    ∃ f, Pass s (iterate self s) work f script := by
  obtain ⟨taken,f,prepared,eq⟩ := iterate_prepared orderly first
  have state : (taken.fibers f).m_state = .READY := by
    rcases prepared.target with ⟨known,same,_⟩ | ⟨cb,_,made,_⟩
    · rw [same]; exact ready f known
    · rw [made]; rfl
  have script_left := prepared.segment.symm.trans segment
  rw [eq,release_kept state script_left safe]
  exact ⟨f,prepared.pass state script_left⟩

/-! ### Segments of rescheduling scripts -/

theorem spawned_rescheduling (task : Rescheduling self script) (member : (work,thread) ∈ spawned f script) :
    Here self thread ∧ (work = .fiber f ∨ ∃ cb, work = .cb cb ∧ Rescheduling self cb) := by
  induction task with
  | returns | throws => simp [spawned] at member
  | schedule pin task _ _ ih =>
    rcases List.mem_cons.mp member with first | later
    · cases first; exact ⟨pin,.inr ⟨_,rfl,task⟩⟩
    · exact ih later
  | again pin =>
    obtain ⟨rfl,rfl⟩ : work = .fiber f ∧ thread = _ := by simpa [spawned] using member
    exact ⟨pin,.inl rfl⟩

theorem leave_rescheduling (task : Rescheduling self script) (exec : fiber.m_state = .EXEC) :
    (leave script fiber).m_state ≠ .EXEC ∧
      ∀ rest, (leave script fiber).m_ctx.script = some rest → Rescheduling self rest := by
  induction task with
  | returns => simp [leave,Fiber.yield,Context.script]
  | throws => simp [leave,Fiber.yield,Fiber.setReady_exec,exec,Context.script]
  | schedule _ _ _ _ ih => exact ih
  | again _ next _ => simpa [leave,Fiber.yield,Fiber.setReady_exec,exec,Context.script] using next

theorem Pass.other (pass : Pass s t work f script) (different : g ≠ f) : t.fibers g = s.fibers g := by
  obtain ⟨fiber,_,fibers⟩ := pass.fibers
  simp [fibers,different]

theorem Pass.pending_other (pass : Pass s t work f script) {task : Work Script}
    (different : task ≠ .fiber f) : pending t task = pending s task := by
  cases task with
  | cb cb => rfl
  | fiber g => simp only [pending,pass.other fun same : g = f => different (by rw [same])]

theorem Pass.created (pass : Pass s t work f script) (orderly : Orderly self s) :
    f < t.created ∧ s.created ≤ t.created := by
  obtain ⟨thread,rest,first,_⟩ := pass.tasks
  rcases pass.target with ⟨rfl,same⟩ | ⟨_,rfl,more⟩
  · rw [same]
    exact ⟨orderly.known f thread (by simp [first]),le_refl _⟩
  · rw [more]
    exact ⟨Nat.lt_succ_self _,Nat.le_succ _⟩

theorem Pass.orderly (pass : Pass s t work f script) (orderly : Orderly self s) : Orderly self t := by
  obtain ⟨thread,rest,first,after⟩ := pass.tasks
  obtain ⟨fiber,exec,fibers⟩ := pass.fibers
  obtain ⟨fresh,more⟩ := pass.created orderly
  have task := orderly.tasks work thread script (by simp [first]) pass.segment
  have self_left : t.fibers f = leave script fiber := by simp [fibers]
  have kept : ∀ entry ∈ rest, entry ∈ entries s.queue := fun entry member => by simp [first,member]
  exact {
    accounted := pass.accounted orderly.accounted
    pinned := by
      intro entry member
      rw [after,List.mem_append] at member
      rcases member with old | new
      · exact orderly.pinned entry (kept _ old)
      · exact (spawned_rescheduling task new).1
    known := by
      intro g thread member
      rw [after,List.mem_append] at member
      rcases member with old | new
      · exact (orderly.known g thread (kept _ old)).trans_le more
      · rcases (spawned_rescheduling task new).2 with same | ⟨cb,wrong,_⟩
        · cases same; exact fresh
        · cases wrong
    tasks := by
      intro other thread left member segment
      by_cases same : other = .fiber f
      · subst same
        simp only [pending,self_left] at segment
        exact (leave_rescheduling task exec).2 left segment
      · rw [after,List.mem_append] at member
        rcases member with old | new
        · exact orderly.tasks other thread left (kept _ old) (pass.pending_other same ▸ segment)
        · obtain ⟨cb,rfl,rescheduling⟩ := (spawned_rescheduling task new).2.resolve_left same
          cases segment
          exact rescheduling
    switched := by
      intro g
      by_cases same : g = f
      · subst g; rw [self_left]; exact (leave_rescheduling task exec).1
      · rw [pass.other same]; exact orderly.switched g
    balanced := pass.balanced.trans orderly.balanced
    dropped := pass.dropped }

theorem iterate_idle (empty : entries s.queue = []) :
    iterate self s = if s.idle = .TERM then { s with status := .exited }
      else if stopping s then { s with idle := .TERM } else s := by
  have none : s.queue.take self (fun f => (s.fibers f).m_state == .EXEC) = none :=
    TaskQueue.take_nil (List.map_eq_nil_iff.mp empty)
  simp only [iterate,none]

theorem orderly_idle (orderly : Orderly self s) (empty : entries s.queue = []) :
    Orderly self (iterate self s) := by
  rw [iterate_idle empty]
  split
  · exact { orderly with }
  · split
    · exact { orderly with }
    · exact orderly

end Myriel.RunLoop

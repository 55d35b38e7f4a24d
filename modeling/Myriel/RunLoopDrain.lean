import Myriel.RunLoopPass
import Mathlib.Algebra.BigOperators.Group.List.Basic
import Mathlib.Algebra.Ring.Nat

/-! The loop over tasks that throw nothing, no fiber being in the queue twice: the
load falls with every task taken, and no assertion fails before the queue is empty. -/
namespace Myriel.RunLoop

def load (remaining : Work Script → Option Script) (works : List (Work Script × Option ThreadId)) : Nat :=
  (works.map fun entry => ((remaining entry.1).map weight).getD 0).sum

/-- How many functions a script schedules, with those that these schedule. -/
def functions : Script → Nat
  | .returns | .throws => 0
  | .yield rest | .scheduleFiber _ _ rest | .scheduleThis _ rest => functions rest
  | .schedule cb _ rest => functions cb + 1 + functions rest

/-- The functions that some tasks still bring into a fiber of their own. -/
def toMake (remaining : Work Script → Option Script) (works : List (Work Script × Option ThreadId)) : Nat :=
  (works.map fun entry =>
    match entry.1 with
    | .cb cb => functions cb + 1
    | .fiber f => ((remaining (.fiber f)).map functions).getD 0).sum

/-- The entries of the queue for one fiber. -/
def tickets (f : FiberId) (works : List (Work Script × Option ThreadId)) : Nat :=
  works.countP fun entry => entry.1 == .fiber f

def ended (s : State) (f : FiberId) : Bool := (s.fibers f).m_ctx.script.isNone

/-- A fiber that is neither queued nor ended has gone missing; at two or more it will be
resumed after its end. -/
def census (s : State) (f : FiberId) : Nat :=
  tickets f (entries s.queue) + (ended s f).toNat

@[simp] theorem load_append (remaining) (first second) :
    load remaining (first ++ second) = load remaining first + load remaining second := by
  simp [load]

@[simp] theorem toMake_append (remaining) (first second) :
    toMake remaining (first ++ second) = toMake remaining first + toMake remaining second := by
  simp [toMake]

@[simp] theorem tickets_append (f : FiberId) (first second) :
    tickets f (first ++ second) = tickets f first + tickets f second := by
  simp [tickets]

theorem tickets_pos (member : (.fiber f,thread) ∈ works) : 0 < tickets f works :=
  List.countP_pos_iff.mpr ⟨_,member,by simp⟩

theorem tickets_zero (absent : ∀ thread, (.fiber f,thread) ∉ works) : tickets f works = 0 := by
  rw [tickets,List.countP_eq_zero]
  rintro ⟨work,thread⟩ member
  simpa using fun same : work = .fiber f => absent thread (same ▸ member)

/-- A segment puts its fiber back into the queue or ends it, and touches no other. -/
theorem tickets_segment (task : Rescheduling self script) (fiber : Fiber Script) :
    tickets f (spawned f script) + ((leave script fiber).m_ctx.script).isNone.toNat = 1 := by
  induction task with
  | returns | throws => rfl
  | schedule _ _ _ _ ih => simpa [spawned,tickets,leave] using ih
  | again => simp [spawned,tickets,leave,Fiber.yield,Context.script]

theorem tickets_elsewhere (task : Rescheduling self script) (different : g ≠ f) :
    tickets g (spawned f script) = 0 := by
  refine tickets_zero fun thread member => ?_
  rcases (spawned_rescheduling task member).2 with same | ⟨cb,wrong,_⟩
  · cases same; exact different rfl
  · cases wrong

theorem load_segment (remaining : Work Script → Option Script) (task : Rescheduling self script) (fiber : Fiber Script)
    (functions : ∀ cb, remaining (.cb cb) = some cb)
    (suspended : remaining (.fiber f) = (leave script fiber).m_ctx.script) :
    load remaining (spawned f script) < weight script := by
  induction task with
  | returns | throws => simp [load,spawned,weight]
  | @schedule thread cb rest _ _ _ _ ih =>
    have next := ih suspended
    simp only [load,spawned,weight,List.map_cons,List.sum_cons,functions] at next ⊢
    exact Nat.add_lt_add_left next _
  | again =>
    simp [load,spawned,weight,suspended,leave,Fiber.yield,Context.script]

theorem toMake_segment (remaining : Work Script → Option Script) (task : Rescheduling self script) (fiber : Fiber Script)
    (suspended : remaining (.fiber f) = (leave script fiber).m_ctx.script) :
    toMake remaining (spawned f script) = functions script := by
  induction task with
  | returns | throws => rfl
  | @schedule thread cb rest _ _ _ _ ih =>
    have next := ih suspended
    simp only [toMake,spawned,functions,List.map_cons,List.sum_cons] at next ⊢
    rw [next]
  | again => simp [toMake,spawned,functions,suspended,leave,Fiber.yield,Context.script]

theorem calm_segment (task : Rescheduling self script) (quiet : throwing script = false)
    (exec : fiber.m_state = .EXEC) :
    (leave script fiber).m_state =
      (if ((leave script fiber).m_ctx.script).isNone then .TERM else .READY) ∧
    (∀ rest, (leave script fiber).m_ctx.script = some rest → throwing rest = false) ∧
    ∀ cb thread, (.cb cb,thread) ∈ spawned f script → throwing cb = false := by
  induction task with
  | returns => simp [leave,spawned,Fiber.yield,Context.script]
  | throws => simp [throwing] at quiet
  | @schedule thread cb rest _ _ _ _ ih =>
    rw [throwing,Bool.or_eq_false_iff] at quiet
    obtain ⟨state,left,others⟩ := ih quiet.2
    refine ⟨state,left,?_⟩
    intro other thread member
    rcases List.mem_cons.mp member with first | later
    · cases first; exact quiet.1
    · exact others other thread later
  | again =>
    simpa [leave,spawned,Fiber.yield,Fiber.setReady_exec,exec,Context.script,throwing] using quiet

/-! ### One pass -/

theorem Pass.ended_other (pass : Pass s t work f script) (different : g ≠ f) : ended t g = ended s g := by
  rw [ended,pass.other different,← ended]

theorem Pass.tickets_left (pass : Pass s t work f script) (orderly : Orderly self s) :
    ∃ rest, entries t.queue = rest ++ spawned f script ∧
      (∀ g ≠ f, tickets g (entries s.queue) = tickets g rest) ∧
      tickets f (entries s.queue) = tickets f rest + (work == .fiber f).toNat ∧
      (work ≠ .fiber f → tickets f rest = 0) ∧ ∃ thread, entries s.queue = (work,thread) :: rest := by
  obtain ⟨thread,rest,first,after⟩ := pass.tasks
  refine ⟨rest,after,?_,?_,?_,thread,first⟩
  · intro g different
    rcases pass.target with ⟨rfl,_⟩ | ⟨rfl,_⟩ <;> simp [first,tickets,different.symm]
  · rcases pass.target with ⟨rfl,_⟩ | ⟨rfl,_⟩ <;> simp [first,tickets]
  · intro fresh
    obtain ⟨_,rfl,_⟩ := pass.target.resolve_left fun known => fresh known.1
    refine tickets_zero fun thread member => ?_
    exact absurd (orderly.known s.created thread (by simp [first,member])) (Nat.lt_irrefl _)

/-- A pass leaves the census of every old fiber as it is; a new fiber has one. -/
theorem Pass.census_eq (pass : Pass s t work f script) (orderly : Orderly self s) (g : FiberId) :
    census t g = if g = f ∧ work ≠ .fiber f then 1 else census s g := by
  obtain ⟨rest,after,others,mine,fresh,thread,first⟩ := pass.tickets_left orderly
  have task := orderly.tasks work thread script (by simp [first]) pass.segment
  obtain ⟨fiber,exec,fibers⟩ := pass.fibers
  by_cases same : g = f
  · subst g
    have segment := tickets_segment (f := f) task fiber
    have left : ended t f = ((leave script fiber).m_ctx.script).isNone := by simp [ended,fibers]
    have total : census t f = tickets f rest + 1 := by
      rw [census,after,tickets_append,left,Nat.add_assoc,segment]
    by_cases known : work = .fiber f
    · have live : ended s f = false := by
        have segment := pass.segment
        rw [known,pending] at segment
        simp [ended,segment]
      rw [total,if_neg (by simp [known]),census,mine,live,known]
      simp
    · simp [total,known,fresh known]
  · simp [same,census,after,others g same,tickets_elsewhere task same,pass.ended_other same]

/-- Between two passes: nothing left to run throws, and every fiber that has started is
in the queue once or has ended in state `TERM`. -/
structure Sound (id : ThreadId) (s : State) : Prop extends Orderly id s where
  calm : ∀ work thread script, (work,thread) ∈ entries s.queue → pending s work = some script →
    throwing script = false
  states : ∀ f, (s.fibers f).m_state = if ended s f then .TERM else .READY
  single : ∀ f, census s f ≤ 1
  started : ∀ f rest, (s.fibers f).m_ctx = .suspended rest → census s f = 1

theorem Sound.ready (sound : Sound self s) (member : (.fiber f,thread) ∈ entries s.queue) :
    ended s f = false ∧ (s.fibers f).m_state = .READY := by
  have queued := tickets_pos member
  have single := sound.single f
  have live : ended s f = false := by
    cases live : ended s f with
    | false => rfl
    | true => simp only [census,live,Bool.toNat_true] at single; omega
  exact ⟨live,by simp [sound.states f,live]⟩

theorem safe_segment (task : Rescheduling self script) (quiet : throwing script = false)
    (fiber : Fiber Script) (exec : fiber.m_state = .EXEC) :
    (leave script fiber).m_state = .TERM ∨ ((leave script fiber).m_ctx.script).isSome := by
  rw [(calm_segment (f := 0) task quiet exec).1]
  cases (leave script fiber).m_ctx.script <;> simp

theorem Sound.pass (sound : Sound self s) (pass : Pass s t work f script) : Sound self t := by
  obtain ⟨rest,after,_,_,_,thread,first⟩ := pass.tickets_left sound.toOrderly
  have task := sound.tasks work thread script (by simp [first]) pass.segment
  have quiet := sound.calm work thread script (by simp [first]) pass.segment
  obtain ⟨fiber,exec,fibers⟩ := pass.fibers
  have self_left : t.fibers f = leave script fiber := by simp [fibers]
  obtain ⟨state,left,functions⟩ := calm_segment (f := f) task quiet exec
  have census_eq := pass.census_eq sound.toOrderly
  exact {
    pass.orderly sound.toOrderly with
    calm := by
      intro other thread remaining member segment
      by_cases same : other = .fiber f
      · subst same
        rw [pending,self_left] at segment
        exact left remaining segment
      · rw [after,List.mem_append] at member
        rcases member with old | new
        · exact sound.calm other thread remaining (by simp [first,old]) (pass.pending_other same ▸ segment)
        · obtain ⟨cb,rfl,_⟩ := (spawned_rescheduling task new).2.resolve_left same
          cases segment
          exact functions _ thread new
    states := by
      intro g
      by_cases same : g = f
      · subst g; rw [ended,self_left]; exact state
      · rw [pass.other same,pass.ended_other same]; exact sound.states g
    single := by
      intro g
      rw [census_eq g]
      split
      · exact le_refl _
      · exact sound.single g
    started := by
      intro g remaining ctx
      rw [census_eq g]
      split
      · rfl
      · rename_i fresh
        by_cases same : g = f
        · have known : work = .fiber g := by simpa [same] using fresh
          have member : (.fiber g,thread) ∈ entries s.queue := by simp [first,known]
          have queued := tickets_pos member
          exact Nat.le_antisymm (sound.single g) (Nat.le_add_right_of_le queued)
        · exact sound.started g remaining (pass.other same ▸ ctx) }

theorem Sound.iterate_task (sound : Sound self s) (first : entries s.queue = (work,thread) :: rest) :
    ∃ f script, Pass s (iterate self s) work f script := by
  have member : (work,thread) ∈ entries s.queue := by simp [first]
  have ready : ∀ f, work = .fiber f → ended s f = false ∧ (s.fibers f).m_state = .READY := by
    rintro f rfl
    exact sound.ready member
  have segment : ∃ script, pending s work = some script := by
    cases work with
    | cb cb => exact ⟨cb,rfl⟩
    | fiber f =>
      have live := (ready f rfl).1
      exact Option.isSome_iff_exists.mp (by simpa [ended,pending] using live)
  obtain ⟨script,segment⟩ := segment
  have task := sound.tasks work thread script member segment
  have quiet := sound.calm work thread script member segment
  obtain ⟨f,pass⟩ := iterate_ready sound.toOrderly first segment (fun f known => (ready f known).2)
    (safe_segment task quiet)
  exact ⟨f,script,pass⟩

/-- No pass of a sound loop fails an assertion, and none leaves `run` with a task in the queue. -/
theorem Sound.step (sound : Sound self s) (live : s.status = .running) :
    Sound self (iterate self s) ∧ (iterate self s).m_stopping = s.m_stopping ∧
      ((iterate self s).status = .running ∨
        (iterate self s).status = .exited ∧ entries (iterate self s).queue = []) := by
  cases first : entries s.queue with
  | nil =>
    rw [iterate_idle first]
    split
    · exact ⟨{ sound with },rfl,.inr ⟨rfl,first⟩⟩
    · split
      · exact ⟨{ sound with },rfl,.inl live⟩
      · exact ⟨sound,rfl,.inl live⟩
  | cons entry rest =>
    obtain ⟨f,script,pass⟩ := sound.iterate_task first
    exact ⟨sound.pass pass,pass.flag,.inl (pass.status.trans live)⟩

theorem Sound.always (sound : Sound self s) (live : s.status = .running) (passes : Nat) :
    Sound self (loop self passes s) ∧ ∀ a, (loop self passes s).status ≠ .failed a := by
  apply loop_invariant fun s => Sound self s ∧ ∀ a, s.status ≠ .failed a
  · rintro s live ⟨sound,_⟩
    obtain ⟨next,_,status⟩ := sound.step live
    exact ⟨next,fun a failed => by simp [failed] at status⟩
  · exact ⟨sound,fun a failed => by rw [live] at failed; cases failed⟩

/-- The other tasks do not depend on the fiber of a pass: it is not among them. -/
theorem Pass.others (pass : Pass s t work f script) (sound : Sound self s) :
    ∃ rest thread, entries s.queue = (work,thread) :: rest ∧ entries t.queue = rest ++ spawned f script ∧
      ∀ entry ∈ rest, pending t entry.1 = pending s entry.1 := by
  obtain ⟨rest,after,_,mine,fresh,thread,first⟩ := pass.tickets_left sound.toOrderly
  have gone : tickets f rest = 0 := by
    by_cases known : work = .fiber f
    · have single := sound.single f
      simp only [census,mine,known,beq_self_eq_true,Bool.toNat_true] at single
      omega
    · exact fresh known
  refine ⟨rest,thread,first,after,fun entry member => ?_⟩
  rw [pass.pending_other]
  intro same
  have queued : (.fiber f,entry.2) ∈ rest := by rw [← same]; exact member
  exact absurd (tickets_pos queued) (by omega)

theorem Pass.load_lt (pass : Pass s t work f script) (sound : Sound self s) :
    load (pending t) (entries t.queue) < load (pending s) (entries s.queue) := by
  obtain ⟨rest,thread,first,after,same⟩ := pass.others sound
  have task := sound.tasks work thread script (by simp [first]) pass.segment
  obtain ⟨fiber,exec,fibers⟩ := pass.fibers
  have others : load (pending t) rest = load (pending s) rest :=
    congrArg List.sum (List.map_congr_left fun entry member => by rw [same entry member])
  have segment := load_segment (f := f) (pending t) task fiber (fun _ => rfl)
    (by simp [pending,fibers])
  have head : load (pending s) (entries s.queue) = weight script + load (pending s) rest := by
    simp [load,first,pass.segment]
  rw [after,load_append,others,head]
  omega

/-! ### Fibers for functions -/

/-- The fibers that are to run: those of the tasks, and those that have been made for functions. -/
def ToRun (bodies : List Script) (tasks : List (Work Script × Option ThreadId)) (s : State) (f : FiberId) : Prop :=
  0 < tickets f tasks ∨ bodies.length ≤ f ∧ f < s.created

/-- Each fiber that is to run waits in the queue or has ended, and there is a fiber for each function
that has been taken. -/
structure Progress (bodies : List Script) (tasks : List (Work Script × Option ThreadId)) (s : State) : Prop where
  older : bodies.length ≤ s.created
  known : ∀ f, 0 < tickets f tasks → f < s.created
  each : ∀ f, ToRun bodies tasks s f → census s f = 1
  made : s.created + toMake (pending s) (entries s.queue) =
    bodies.length + toMake (fun work => some (body bodies work)) tasks

theorem Pass.toMake_eq (pass : Pass s t work f script) (sound : Sound self s) :
    t.created + toMake (pending t) (entries t.queue) = s.created + toMake (pending s) (entries s.queue) := by
  obtain ⟨rest,thread,first,after,same⟩ := pass.others sound
  have task := sound.tasks work thread script (by simp [first]) pass.segment
  obtain ⟨fiber,exec,fibers⟩ := pass.fibers
  have others : toMake (pending t) rest = toMake (pending s) rest := by
    refine congrArg List.sum (List.map_congr_left fun entry member => ?_)
    cases work : entry.1 with
    | cb cb => rfl
    | fiber g =>
      have kept := same entry member
      rw [work] at kept
      simp only [kept]
  have segment := toMake_segment (f := f) (pending t) task fiber (by simp [pending,fibers])
  rw [after,toMake_append,others,segment,first]
  rcases pass.target with ⟨rfl,created⟩ | ⟨rfl,_,created⟩
  · simp [toMake,pass.segment,created]
    omega
  · simp [toMake,created]
    omega

theorem Pass.progress (pass : Pass s t work f script) (sound : Sound self s) (progress : Progress bodies works s) :
    Progress bodies works t := by
  obtain ⟨fresh,more⟩ := pass.created sound.toOrderly
  refine ⟨progress.older.trans more,fun g ticket => (progress.known g ticket).trans_le more,fun g due => ?_,
    (pass.toMake_eq sound).trans progress.made⟩
  rw [pass.census_eq sound.toOrderly]
  split
  · rfl
  · rename_i old
    refine progress.each g (due.imp_right fun range => ⟨range.1,?_⟩)
    rcases pass.target with ⟨_,created⟩ | ⟨rfl,rfl,created⟩
    · exact range.2.trans_eq created
    · have other : g ≠ s.created := fun same => old ⟨same,by simp⟩
      exact Nat.lt_of_le_of_ne (Nat.le_of_lt_succ (range.2.trans_eq created)) other

theorem Sound.step_progress (sound : Sound self s) (progress : Progress bodies tasks s) :
    Progress bodies tasks (iterate self s) := by
  cases first : entries s.queue with
  | nil =>
    rw [iterate_idle first]
    split
    · exact ⟨progress.older,progress.known,progress.each,progress.made⟩
    · split
      · exact ⟨progress.older,progress.known,progress.each,progress.made⟩
      · exact progress
  | cons entry rest =>
    obtain ⟨f,script,pass⟩ := sound.iterate_task first
    exact pass.progress sound progress

theorem Sound.loop_progress (sound : Sound self s) (progress : Progress bodies tasks s) (passes : Nat) :
    Progress bodies tasks (loop self passes s) :=
  (loop_invariant (fun s => Sound self s ∧ Progress bodies tasks s)
    (fun _ live holds => ⟨(holds.1.step live).1,holds.1.step_progress holds.2⟩) ⟨sound,progress⟩ passes).2

theorem Sound.drains (sound : Sound self s) (live : s.status = .running) :
    ∃ passes, Sound self (loop self passes s) ∧ (loop self passes s).status = .running ∧
      (loop self passes s).m_stopping = s.m_stopping ∧ entries (loop self passes s).queue = [] := by
  induction size : load (pending s) (entries s.queue) using Nat.strongRecOn generalizing s with
  | ind size ih =>
    cases first : entries s.queue with
    | nil => exact ⟨0,sound,live,rfl,first⟩
    | cons entry rest =>
      obtain ⟨f,script,pass⟩ := sound.iterate_task first
      have smaller := pass.load_lt sound
      obtain ⟨passes,later,running,flag,empty⟩ :=
        ih _ (size ▸ smaller) (sound.pass pass) (pass.status.trans live) rfl
      refine ⟨passes + 1,?_⟩
      rw [loop_succ live]
      exact ⟨later,running,flag.trans pass.flag,empty⟩

theorem loop_exit (empty : entries s.queue = []) (live : s.status = .running) (idle : s.idle = .TERM) :
    loop self 1 s = { s with status := .exited } := by
  rw [loop_succ live,iterate_idle empty,if_pos idle]
  rfl

theorem loop_stops (empty : entries s.queue = []) (live : s.status = .running)
    (stop : stopping s = true) :
    ∃ passes, loop self passes s = { s with idle := .TERM, status := .exited } := by
  by_cases idle : s.idle = .TERM
  · exact ⟨1,by rw [loop_exit empty live idle,← idle]⟩
  · have first : loop self 1 s = { s with idle := .TERM } := by
      rw [loop_succ live,iterate_idle empty,if_neg idle,if_pos stop]
      rfl
    exact ⟨1 + 1,by rw [loop_add,first,loop_exit (s := { s with idle := .TERM }) empty live rfl]⟩

theorem Sound.exits (sound : Sound self s) (live : s.status = .running) (flag : s.m_stopping = true) :
    ∃ passes, Sound self (loop self passes s) ∧ (loop self passes s).status = .exited ∧
      entries (loop self passes s).queue = [] := by
  obtain ⟨passes,drained,running,same,empty⟩ := sound.drains live
  have stop : stopping (loop self passes s) = true := by
    have none : (loop self passes s).queue.m_tasks = [] := List.map_eq_nil_iff.mp empty
    simp [stopping,same,flag,none,drained.balanced]
  obtain ⟨more,last⟩ := loop_stops empty running stop
  refine ⟨passes + more,?_⟩
  rw [loop_add,last]
  exact ⟨{ drained with },rfl,empty⟩

/-! ### Whole runs -/

/-- The tasks are for this thread, and each reschedules itself before it yields. -/
structure Submitted (id : ThreadId) (bodies : List Script)
    (tasks : List (Work Script × Option ThreadId)) : Prop where
  pinned : ∀ work thread, (work,thread) ∈ tasks → Here id thread
  known : ∀ f thread, (.fiber f,thread) ∈ tasks → f < bodies.length
  rescheduling : ∀ work thread, (work,thread) ∈ tasks → Rescheduling id (body bodies work)

/-- Every accepted task has been taken once, every function has got a fiber of its own, and each
fiber that was to run has come to the end of its callback. -/
structure Executed (bodies : List Script) (tasks : List (Work Script × Option ThreadId)) (s : State) : Prop where
  empty : s.queue.m_tasks = []
  once : s.queue.taken.Perm (List.range s.queue.accepted)
  functions : s.created = bodies.length + toMake (fun work => some (body bodies work)) tasks
  ended : ∀ f, ToRun bodies tasks s f → (s.fibers f).m_ctx = .ended ∧ (s.fibers f).m_state = .TERM
  complete : ∀ f rest, (s.fibers f).m_ctx ≠ .suspended rest

theorem entries_start : entries (start bodies tasks held m_stopping).queue = tasks :=
  entries_scheduleAll TaskQueue.empty tasks

theorem pending_start (work : Work Script) :
    pending (start bodies tasks held m_stopping) work = some (body bodies work) := by
  cases work <;> rfl

theorem census_start (f : FiberId) : census (start bodies tasks held m_stopping) f = tickets f tasks := by
  rw [census,entries_start]
  rfl

theorem start_orderly (submitted : Submitted self bodies tasks) :
    Orderly self (start bodies tasks held m_stopping) where
  accounted := scheduleAll_accounted TaskQueue.empty_accounted tasks
  pinned := by rw [entries_start]; exact fun entry => submitted.pinned entry.1 entry.2
  known := by rw [entries_start]; exact submitted.known
  tasks := by
    intro work thread script member segment
    rw [entries_start] at member
    rw [pending_start] at segment
    cases segment
    exact submitted.rescheduling work thread member
  switched := fun f exec => by cases exec
  balanced := rfl
  dropped := rfl

theorem start_sound (submitted : Submitted self bodies tasks)
    (quiet : ∀ work thread, (work,thread) ∈ tasks → throwing (body bodies work) = false)
    (single : ∀ f, tickets f tasks ≤ 1) : Sound self (start bodies tasks held m_stopping) where
  toOrderly := start_orderly submitted
  calm := by
    intro work thread script member segment
    rw [entries_start] at member
    rw [pending_start] at segment
    cases segment
    exact quiet work thread member
  states := fun f => rfl
  single := fun f => by rw [census_start]; exact single f
  started := fun f rest ctx => by cases ctx

theorem start_progress (submitted : Submitted self bodies tasks) (single : ∀ f, tickets f tasks ≤ 1) :
    Progress bodies tasks (start bodies tasks held m_stopping) := by
  have known : ∀ f, 0 < tickets f tasks → f < bodies.length := by
    intro f ticket
    by_contra beyond
    rw [tickets_zero fun thread member => beyond (submitted.known f thread member)] at ticket
    exact Nat.lt_irrefl 0 ticket
  refine ⟨Nat.le_refl _,known,fun f due => ?_,?_⟩
  · rcases due with ticket | ⟨above,below⟩
    · rw [census_start]
      exact Nat.le_antisymm (single f) ticket
    · exact absurd (above.trans_lt below) (Nat.lt_irrefl _)
  · rw [entries_start]
    exact congrArg _ (congrArg List.sum (List.map_congr_left fun entry _ => by cases entry.1 <;> rfl))

theorem Sound.executed (sound : Sound self s) (progress : Progress bodies tasks s) (empty : entries s.queue = []) :
    Executed bodies tasks s where
  empty := List.map_eq_nil_iff.mp empty
  once := by
    have accounted := sound.accounted
    rwa [TaskQueue.Accounted,List.map_eq_nil_iff.mp empty,List.map_nil,List.append_nil] at accounted
  functions := by
    have made := progress.made
    rwa [empty] at made
  ended := by
    intro f due
    have one := progress.each f due
    have done : ended s f = true := by simpa [census,empty,tickets] using one
    refine ⟨?_,by rw [sound.states f,if_pos done]⟩
    cases ctx : (s.fibers f).m_ctx with
    | ended => rfl
    | entry cb | suspended rest => simp [ended,ctx,Context.script] at done
  complete := by
    intro f rest ctx
    have one := sound.started f rest ctx
    simp [census,empty,tickets,ended,ctx,Context.script] at one

end Myriel.RunLoop

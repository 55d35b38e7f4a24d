import Myriel.ContextsSwitch

/-! Each fiber of a thread by itself. Whatever the other fibers, the scheduler and the current-fiber
pointer do, the states and the saved contexts of a fiber are those that `Fiber` goes through, and
the code that runs on its stack is what its own context goes on with. -/
namespace Myriel.Contexts

/-! ### One fiber -/

def leave : Body σ → Fiber (Body σ) → Fiber (Body σ)
  | .code (.yields _ rest),fiber => fiber.yield (.suspended (.code rest))
  | .code (.throws _),fiber => fiber.yield .ended
  | .code (.returns _),fiber | .run,fiber => fiber.finish.yield .ended

inductive Event (σ : Type) where
  | resume
  | segment
  | reset (cb : Code σ)

def fiberStep (fiber : Fiber (Body σ)) : Event σ → Option (Fiber (Body σ))
  | .resume => if fiber.resumable then some fiber.setExec else none
  | .segment =>
    if fiber.m_state = .EXEC then fiber.m_ctx.script.map fun body => leave body fiber else none
  | .reset cb => fiber.reset (.code cb)

/-- The segments of a callback that are executed, each up to its switch. -/
def Body.first : Body σ → List σ
  | .code (.returns segment) | .code (.throws segment) | .code (.yields segment _) => [segment]
  | .run => []

def fiberObserve (fiber : Fiber (Body σ)) : Event σ → List σ
  | .segment => (fiber.m_ctx.script.map Body.first).getD []
  | .resume | .reset _ => []

/-! ### The fibers of a thread -/

/-- A fiber as the scheduler models have it. -/
def viewContext (fiber : FiberObject σ) : Myriel.Context (Body σ) :=
  match fiber.m_ctx.position,fiber.m_cb with
  | .entry,some body => .entry body
  | .inside _ rest,_ => .suspended rest
  | _,_ => .ended

def view (fiber : FiberObject σ) : Fiber (Body σ) := ⟨fiber.m_state,viewContext fiber,fiber.m_cb⟩

/-- Neither the main fiber of the thread nor the root fiber of its scheduler. -/
def Task (role : Role) (f : FiberId) : Prop := f ≠ mainFiber ∧ (role = .caller → f ≠ m_rootFiber)

/-- What a step is for a fiber. -/
def happens (f : FiberId) (s : State σ) : Action σ → List (Event σ)
  | .resume g => if g = f then [.resume] else []
  | .reset g cb => if g = f then [.reset cb] else []
  | .advance =>
    match s.running.position with
    | .inside _ _ => if s.running.stack = f then [.segment] else []
    | _ => []
  | .getThis | .construct | .enterRun => []

def executed (f : FiberId) (s : State σ) (action : Action σ) : List σ :=
  ((observe s action).filter fun entry => entry.1 = f).map Prod.snd

structure Hosts (role : Role) (context : Context σ) : Prop where
  stack : ¬ Task role context.stack
  cur : ∀ cur body, context.position = .inside cur body → ¬ Task role cur

structure Owned (f : FiberId) (fiber : FiberObject σ) : Prop where
  stack : fiber.m_ctx.stack = f
  inside : ∀ cur body, fiber.m_ctx.position = .inside cur body → cur = f ∧ body ≠ .run
  entry : fiber.m_ctx.position = .entry → ∃ code, fiber.m_cb = some (.code code)
  thread : fiber.m_ctx.position ≠ .thread

/-- A task runs where its context has been saved, or at the begin of its callback. -/
structure Inside (s : State σ) (f : FiberId) : Prop where
  this : s.t_fiber = some f
  exec : (s.fibers f).m_state = .EXEC
  running : s.running = (s.fibers f).m_ctx ∨ (s.fibers f).m_ctx.position = .entry ∧
    ∃ body, (s.fibers f).m_cb = some body ∧ s.running = ⟨f,.inside f body⟩

structure Outer (role : Role) (s : State σ) : Prop where
  running : Hosts role s.running
  this : ∀ h, s.t_fiber = some h → ¬ Task role h

/-- The tasks keep to their own stacks, and the thread and the root fiber to theirs. -/
structure Apart (role : Role) (s : State σ) : Prop where
  used : s.role = role
  main : ∀ h, s.t_thread_fiber = some h → ¬ Task role h
  scheduler : ∀ h, s.t_scheduler_fiber = some h → ¬ Task role h
  hosts : ∀ h, ¬ Task role h → Hosts role (s.fibers h).m_ctx
  tasks : ∀ f, Task role f → Owned f (s.fibers f)
  running : Outer role s ∨ ∃ f, Task role f ∧ Inside s f

structure Beside (role : Role) (s t : State σ) : Prop where
  apart : Apart role t
  outer : Outer role t
  same : ∀ f, Task role f → view (t.fibers f) = view (s.fibers f)

variable {role : Role} {s t u : State σ} {f h : FiberId}

theorem main_host : ¬ Task role mainFiber := fun task => task.1 rfl

theorem Task.ne (task : Task role f) (host : ¬ Task role h) : f ≠ h := fun self => host (self ▸ task)

theorem Hosts.other {context : Context σ} (stack : context.stack = h) (host : ¬ Task role h)
    (position : context.position = .thread ∨ context.position = .entry) : Hosts role context where
  stack := stack ▸ host
  cur := by rcases position with position | position <;> simp [position]

theorem start_apart (role : Role) (bodies : FiberId → Code σ × Bool) : Apart role (start role bodies) where
  used := rfl
  main _ wrong := by cases wrong
  scheduler _ wrong := by cases wrong
  hosts h host := by
    by_cases self : h = mainFiber
    · subst h
      exact .other rfl host (.inl (by simp [start,FiberObject.main]))
    · exact .other (by simp [start,self,FiberObject.create]) host (.inr (by simp [start,self,FiberObject.create]))
  tasks f task := by
    refine ⟨?_,?_,?_,?_⟩ <;> simp [start,task.1,FiberObject.create]
  running := .inl ⟨.other rfl main_host (.inl rfl),by simp [start]⟩

theorem Beside.refl (apart : Apart role s) (outer : Outer role s) : Beside role s s := ⟨apart,outer,fun _ _ => rfl⟩

theorem Beside.trans (first : Beside role s t) (second : Beside role t u) : Beside role s u :=
  ⟨second.apart,second.outer,fun f task => (second.same f task).trans (first.same f task)⟩

theorem Apart.setHost (apart : Apart role s) (outer : Outer role s) (fiber : FiberObject σ) (host : ¬ Task role h)
    (context : Hosts role fiber.m_ctx) : Beside role s (setFiber s h fiber) where
  apart := {
    used := apart.used
    main := apart.main
    scheduler := apart.scheduler
    hosts := by
      intro k other
      by_cases self : k = h
      · subst k
        rwa [setFiber_same]
      · rw [setFiber_other s fiber self]
        exact apart.hosts k other
    tasks := by
      intro f task
      rw [setFiber_other s fiber (task.ne host)]
      exact apart.tasks f task
    running := .inl ⟨outer.running,outer.this⟩ }
  outer := ⟨outer.running,outer.this⟩
  same f task := by rw [setFiber_other s fiber (task.ne host)]

theorem Apart.getThis (apart : Apart role s) (outer : Outer role s) :
    Beside role s (GetThis s).1 ∧ ¬ Task role (GetThis s).2 := by
  cases this : s.t_fiber with
  | some f =>
    rw [GetThis_known this]
    exact ⟨.refl apart outer,outer.this f this⟩
  | none =>
    have written := apart.setHost outer .main main_host (.other rfl main_host (.inl rfl))
    have known : ∀ h, some mainFiber = some h → ¬ Task role h := by
      rintro h ⟨⟩
      exact main_host
    simp only [GetThis,this]
    refine ⟨⟨?_,⟨written.outer.running,known⟩,written.same⟩,main_host⟩
    exact ⟨written.apart.used,known,written.apart.scheduler,written.apart.hosts,written.apart.tasks,
      .inl ⟨written.outer.running,known⟩⟩

/-! ### The thread and the root fiber -/

theorem Apart.construct (apart : Apart role s) (outer : Outer role s) (caller : s.role = .caller) :
    Beside role s (construct s) := by
  obtain ⟨found,_⟩ := apart.getThis outer
  have host : ¬ Task role m_rootFiber := fun task => task.2 (apart.used.symm.trans caller) rfl
  have made := found.apart.setHost found.outer (.create m_rootFiber .run false) host (.other rfl host (.inr rfl))
  have whole := found.trans made
  have known : ∀ h, some m_rootFiber = some h → ¬ Task role h := by
    rintro h ⟨⟩
    exact host
  refine ⟨?_,⟨whole.outer.running,whole.outer.this⟩,whole.same⟩
  exact ⟨whole.apart.used,whole.apart.main,known,whole.apart.hosts,whole.apart.tasks,
    .inl ⟨whole.outer.running,whole.outer.this⟩⟩

theorem Apart.enterRun (apart : Apart role s) (outer : Outer role s) : Beside role s (enterRun s) := by
  obtain ⟨found,host⟩ := apart.getThis outer
  have known : ∀ h, some (GetThis s).2 = some h → ¬ Task role h := by
    rintro h ⟨⟩
    exact host
  refine ⟨?_,⟨found.outer.running,found.outer.this⟩,found.same⟩
  exact ⟨found.apart.used,found.apart.main,known,found.apart.hosts,found.apart.tasks,
    .inl ⟨found.outer.running,found.outer.this⟩⟩

/-- Fibers are switched with contexts of the thread or of the root fiber. -/
theorem Apart.home (apart : Apart role s) (back : home s f = some h) : ¬ Task role h := by
  unfold Contexts.home at back
  split at back
  · exact apart.scheduler h back
  · exact apart.main h back

theorem yield_effect {position : Position σ} (yielded : yield s f position = some t) :
    ∃ next, home s f = some next ∧ t.t_fiber = s.t_thread_fiber ∧
      (∀ g, (t.fibers g).m_cb = (s.fibers g).m_cb) ∧
      Switched s t f (resting (s.fibers f).m_state) f next position := by
  unfold yield at yielded
  split at yielded
  case isFalse => cases yielded
  case isTrue =>
    obtain ⟨next,back,rfl⟩ := Option.map_eq_some_iff.mp yielded
    exact ⟨next,back,rfl,switch_callback s _ f _ f next position,switch_effect s _ f _ f next position⟩

theorem Switched.hosts {state : FiberState} {saved next : FiberId} {position : Position σ}
    (switched : Switched s t f state saved next position) (apart : Apart role s)
    (context : Hosts role ⟨s.running.stack,position⟩) : ∀ h, ¬ Task role h → Hosts role (t.fibers h).m_ctx := by
  intro h host
  by_cases self : h = saved
  · subst h
    rwa [switched.kept]
  · rw [switched.contexts h self]
    exact apart.hosts h host

theorem Owned.congr {fiber fiber' : FiberObject σ} (owned : Owned f fiber) (context : fiber'.m_ctx = fiber.m_ctx)
    (callback : fiber'.m_cb = fiber.m_cb) : Owned f fiber' := by
  obtain ⟨stack,inside,entry,thread⟩ := owned
  exact ⟨context ▸ stack,context ▸ inside,context ▸ callback ▸ entry,context ▸ thread⟩

theorem view_congr {fiber fiber' : FiberObject σ} (state : fiber'.m_state = fiber.m_state)
    (context : fiber'.m_ctx = fiber.m_ctx) (callback : fiber'.m_cb = fiber.m_cb) : view fiber' = view fiber := by
  simp only [view,viewContext,state,context,callback]

theorem Apart.yield (apart : Apart role s) (host : ¬ Task role f) {position : Position σ}
    (saved : Hosts role ⟨s.running.stack,position⟩) (yielded : yield s f position = some t) : Beside role s t := by
  obtain ⟨next,back,this,callbacks,switched⟩ := yield_effect yielded
  have outer : Outer role t := by
    refine ⟨?_,this ▸ apart.main⟩
    rw [switched.running]
    exact apart.hosts next (apart.home back)
  have tasks (g : FiberId) (task : Task role g) : (t.fibers g).m_ctx = (s.fibers g).m_ctx :=
    switched.contexts g (task.ne host)
  refine ⟨⟨switched.role.trans apart.used,switched.main ▸ apart.main,switched.scheduler ▸ apart.scheduler,
    switched.hosts apart saved,fun g task => ?_,.inl outer⟩,outer,fun g task => ?_⟩
  · exact (apart.tasks g task).congr (tasks g task) (callbacks g)
  · exact view_congr (switched.states g (task.ne host)) (tasks g task) (callbacks g)

theorem Hosts.inside (stack : ¬ Task role f) (host : ¬ Task role h) (body : Body σ) :
    Hosts role ⟨f,.inside h body⟩ where
  stack := stack
  cur := by
    rintro cur other ⟨⟩
    exact host

theorem Hosts.ended (stack : ¬ Task role f) (cur : FiberId) : Hosts role (⟨f,.ended cur⟩ : Context σ) where
  stack := stack
  cur := by rintro cur body ⟨⟩

theorem Apart.finished (apart : Apart role s) (outer : Outer role s) (host : ¬ Task role h)
    (yielded : Contexts.yield (finish s h) h (.ended h) = some t) : Beside role s t := by
  have written := apart.setHost outer { s.fibers h with m_cb := none, m_state := .TERM } host (apart.hosts h host)
  exact written.trans (written.apart.yield host (.ended outer.running.stack _) yielded)

theorem Apart.advance (apart : Apart role s) (outer : Outer role s) (taken : advance s = some t) :
    Beside role s t := by
  unfold Contexts.advance at taken
  split at taken
  case h_1 => cases taken
  case h_2 entry =>
    obtain ⟨found,host⟩ := apart.getThis outer
    obtain ⟨body,callback,rfl⟩ := Option.map_eq_some_iff.mp taken
    have running : Hosts role ⟨(GetThis s).1.running.stack,.inside (GetThis s).2 body⟩ :=
      .inside found.outer.running.stack host body
    exact ⟨⟨found.apart.used,found.apart.main,found.apart.scheduler,found.apart.hosts,found.apart.tasks,
      .inl ⟨running,found.outer.this⟩⟩,⟨running,found.outer.this⟩,found.same⟩
  case h_3 cur segment rest position =>
    obtain ⟨found,host⟩ := apart.getThis outer
    have cur := outer.running.cur cur _ position
    exact found.trans (found.apart.yield host (.inside found.outer.running.stack cur (.code rest)) taken)
  case h_4 cur segment position => exact apart.finished outer (outer.running.cur cur _ position) taken
  case h_5 cur position => exact apart.finished outer (outer.running.cur cur _ position) taken
  case h_6 cur segment position =>
    have host := outer.running.cur cur _ position
    exact apart.yield host (.ended outer.running.stack _) taken
  case h_7 => cases taken

/-! ### A task -/

theorem Apart.entry (apart : Apart role s) (task : Task role f) (inside : Inside s f)
    (position : s.running.position = .entry) (taken : Contexts.advance s = some t) :
    Apart role t ∧ t.fibers = s.fibers := by
  rw [advance_entry inside.this position] at taken
  obtain ⟨body,callback,rfl⟩ := Option.map_eq_some_iff.mp taken
  refine ⟨⟨apart.used,apart.main,apart.scheduler,apart.hosts,apart.tasks,.inr ⟨f,task,inside.this,inside.exec,?_⟩⟩,rfl⟩
  rcases inside.running with saved | ⟨_,other,_,begun⟩
  · have entry : (s.fibers f).m_ctx.position = .entry := saved ▸ position
    have stack : s.running.stack = f := saved ▸ (apart.tasks f task).stack
    exact .inr ⟨entry,body,callback,congrArg (Context.mk · (.inside f body)) stack⟩
  · rw [begun] at position
    cases position

/-- What a task executes is what its own context goes on with. -/
theorem Inside.script (inside : Inside s f) (owned : Owned f (s.fibers f)) {cur : FiberId} {body : Body σ}
    (position : s.running.position = .inside cur body) :
    s.running = ⟨f,.inside f body⟩ ∧ (∃ code, body = .code code) ∧ (view (s.fibers f)).m_ctx.script = some body := by
  have coded (notRun : body ≠ .run) : ∃ code, body = .code code := by
    cases body with
    | code code => exact ⟨code,rfl⟩
    | run => exact (notRun rfl).elim
  rcases inside.running with saved | ⟨entry,own,callback,begun⟩
  · have context : (s.fibers f).m_ctx.position = .inside cur body := saved ▸ position
    obtain ⟨rfl,notRun⟩ := owned.inside cur body context
    have stack : s.running.stack = cur := saved ▸ owned.stack
    exact ⟨congrArg₂ Context.mk stack position,coded notRun,by simp [view,viewContext,context,Context.script]⟩
  · rw [begun] at position
    cases position
    obtain ⟨code,made⟩ := owned.entry entry
    have same : body = .code code := Option.some.inj (callback.symm.trans made)
    exact ⟨begun,⟨code,same⟩,by simp [view,viewContext,entry,callback,Context.script]⟩

theorem resumption_owned {fiber : FiberObject σ} (body : Body σ) (kept : fiber.m_ctx = ⟨f,resumption f body⟩) :
    Owned f fiber := by
  rcases body with (segment | segment | ⟨segment,rest⟩) | _ <;> constructor <;> simp [kept,resumption,eq_comm]

theorem Apart.leaves (apart : Apart role s) (task : Task role f) {body : Body σ} {state : FiberState} {next : FiberId}
    (stack : s.running.stack = f) (back : Contexts.home s f = some next) (this : t.t_fiber = s.t_thread_fiber)
    (switched : Switched s t f state f next (resumption f body)) : Apart role t := by
  have hosts (h : FiberId) (host : ¬ Task role h) : Hosts role (t.fibers h).m_ctx := by
    rw [switched.contexts h (task.ne host).symm]
    exact apart.hosts h host
  have outer : Outer role t := by
    refine ⟨?_,this ▸ apart.main⟩
    rw [switched.running]
    exact apart.hosts next (apart.home back)
  refine ⟨switched.role.trans apart.used,switched.main ▸ apart.main,switched.scheduler ▸ apart.scheduler,hosts,
    fun g other => ?_,.inl outer⟩
  by_cases self : g = f
  · subst g
    exact resumption_owned body (stack ▸ switched.kept)
  · exact (apart.tasks g other).congr (switched.contexts g self) (switched.callbacks g self)

theorem Apart.segment (apart : Apart role s) (task : Task role f) (inside : Inside s f) {body : Body σ}
    (position : s.running.position = .inside f body) (taken : Contexts.advance s = some t) :
    Apart role t ∧ view (t.fibers f) = leave body (view (s.fibers f)) ∧
      ∀ g, g ≠ f → view (t.fibers g) = view (s.fibers g) := by
  obtain ⟨running,⟨code,rfl⟩,script⟩ := inside.script (apart.tasks f task) position
  have stack : s.running.stack = f := by rw [running]
  rw [advance_inside inside.this position] at taken
  have others {state : FiberState} {next : FiberId}
      (switched : Switched s t f state f next (resumption f (.code code))) (g : FiberId) (other : g ≠ f) :
      view (t.fibers g) = view (s.fibers g) :=
    view_congr (switched.states g other) (switched.contexts g other) (switched.callbacks g other)
  cases code with
  | yields first rest | throws first =>
    obtain ⟨next,back,this,callbacks,switched⟩ := yield_effect taken
    refine ⟨apart.leaves task stack back this switched,?_,others switched⟩
    simp [view,viewContext,leave,Fiber.yield,Fiber.setReady,Fiber.save,switched.state,switched.kept,callbacks,
      resumption,resting,left,inside.exec]
  | returns first =>
    obtain ⟨next,back,this,callbacks,switched⟩ := yield_effect taken
    have here : (finish s f).fibers f = { s.fibers f with m_cb := none, m_state := .TERM } := setFiber_same s f _
    have moved := Switched.of_finish (s := s) switched
    refine ⟨apart.leaves task stack ((home_finish s f f).symm.trans back) this moved,?_,others moved⟩
    simp [view,viewContext,leave,Fiber.yield,Fiber.setReady,Fiber.save,Fiber.finish,moved.state,moved.kept,callbacks,
      resumption,resting,left,here]

/-! ### Steps -/

/-- What a step does to the fibers, one by one. -/
structure Matched (role : Role) (s t : State σ) (action : Action σ) : Prop where
  apart : Apart role t
  moved : ∀ f, Task role f →
    Transition.run fiberStep (view (s.fibers f)) (happens f s action) = some (view (t.fibers f))
  shown : ∀ f, Task role f →
    Transition.trace fiberStep fiberObserve (view (s.fibers f)) (happens f s action) = executed f s action

/-- Tasks do not resume, and leave the other calls to the thread. -/
theorem Apart.outer (apart : Apart role s)
    (position : s.running.position = .thread ∨ ∃ cur, s.running.position = .inside cur .run) : Outer role s := by
  rcases apart.running with outer | ⟨f,task,inside⟩
  · exact outer
  · have owned := apart.tasks f task
    rcases position with thread | ⟨cur,run⟩
    · rcases inside.running with saved | ⟨_,_,_,begun⟩
      · exact (owned.thread (saved ▸ thread)).elim
      · rw [begun] at thread
        cases thread
    · obtain ⟨_,⟨code,other⟩,_⟩ := inside.script owned run
      cases other

theorem outside_outer (apart : Apart role s) (isOutside : outside s = true) : Outer role s := by
  apply apart.outer
  unfold outside at isOutside
  split at isOutside
  case h_1 thread => exact .inl thread
  case h_2 => cases isOutside

theorem resumes_outer (apart : Apart role s) (allowed : resumes s f = true) : Outer role s := by
  apply apart.outer
  unfold resumes at allowed
  split at allowed
  case h_1 thread _ => exact .inl thread
  case h_2 thread _ => exact .inl thread
  case h_3 thread _ => exact .inl thread
  case h_4 cur run => exact .inr ⟨cur,run⟩
  case h_5 => cases allowed

theorem Beside.matched {action : Action σ} (beside : Beside role s t) (nothing : ∀ f, Task role f → happens f s action = [])
    (silent : ∀ f, Task role f → executed f s action = []) : Matched role s t action where
  apart := beside.apart
  moved f task := by rw [nothing f task,Transition.run_nil,beside.same f task]
  shown f task := by rw [nothing f task,silent f task]; rfl

theorem Apart.resume (apart : Apart role s) (outer : Outer role s) (resumed : Contexts.resume s f = some t) :
    Matched role s t (.resume f) := by
  obtain ⟨saved,back,ready,this,callback,switched⟩ := resume_effect resumed
  have host := apart.home back
  have hosts := switched.hosts apart outer.running
  have callbacks (g : FiberId) : (t.fibers g).m_cb = (s.fibers g).m_cb := by
    by_cases self : g = f
    · subst g
      exact callback
    · exact switched.callbacks g self
  have running : Outer role t ∨ ∃ g, Task role g ∧ Inside t g := by
    by_cases task : Task role f
    · exact .inr ⟨f,task,this,switched.state,.inl (switched.running.trans (switched.contexts f (task.ne host)).symm)⟩
    · refine .inl ⟨?_,?_⟩
      · rw [switched.running]
        exact apart.hosts f task
      · rw [this]
        rintro h ⟨⟩
        exact task
  refine ⟨⟨switched.role.trans apart.used,switched.main ▸ apart.main,switched.scheduler ▸ apart.scheduler,hosts,
    fun g task => (apart.tasks g task).congr (switched.contexts g (task.ne host)) (callbacks g),running⟩,
    fun g task => ?_,fun g task => ?_⟩
  · by_cases self : f = g
    · subst g
      have same : viewContext (t.fibers f) = viewContext (s.fibers f) := by
        simp only [viewContext,switched.contexts f (task.ne host),callback]
      simp [happens,Transition.run_cons,fiberStep,view,Fiber.resumable,ready,Fiber.setExec,switched.state,same,callback]
    · have same := view_congr (switched.states g (Ne.symm self)) (switched.contexts g (task.ne host)) (callbacks g)
      simp [happens,self,same]
  · by_cases self : f = g
    · simp [happens,executed,observe,self,Transition.trace_single,fiberObserve]
    · simp [happens,executed,observe,self,Transition.trace]

theorem Apart.reset (apart : Apart role s) (outer : Outer role s) {cb : Code σ}
    (reset : Contexts.reset s f cb = some t) : Matched role s t (.reset f cb) := by
  unfold Contexts.reset at reset
  simp only [Option.ite_none_right_eq_some,Option.some.injEq] at reset
  obtain ⟨⟨other,term⟩,rfl⟩ := reset
  by_cases task : Task role f
  · have owned : Owned f { s.fibers f with m_cb := some (.code cb), m_ctx := ⟨f,.entry⟩, m_state := .READY } := by
      constructor <;> simp
    refine ⟨⟨apart.used,apart.main,apart.scheduler,fun h host => ?_,fun g other => ?_,
      .inl ⟨outer.running,outer.this⟩⟩,fun g other => ?_,fun g other => ?_⟩
    · rw [setFiber_other s _ (task.ne host).symm]
      exact apart.hosts h host
    · by_cases self : g = f
      · subst g
        rwa [setFiber_same]
      · rw [setFiber_other s _ self]
        exact apart.tasks g other
    · by_cases self : g = f
      · subst g
        simp [happens,Transition.run_cons,fiberStep,Fiber.reset,view,viewContext,term]
      · simp [happens,Ne.symm self,setFiber_other s _ self]
    · by_cases self : f = g
      · simp [happens,executed,observe,self,Transition.trace_single,fiberObserve]
      · simp [happens,executed,observe,self,Transition.trace]
  · have written := apart.setHost outer { s.fibers f with m_cb := some (.code cb), m_ctx := ⟨f,.entry⟩, m_state := .READY } task
      (.other rfl task (.inr rfl))
    refine written.matched (fun g other => ?_) fun g _ => by simp [executed,observe]
    simp [happens,(other.ne task).symm]

theorem advance_matched (apart : Apart role s) (taken : Contexts.advance s = some t) : Matched role s t .advance := by
  rcases apart.running with outer | ⟨f,task,inside⟩
  · have stack (g : FiberId) (other : Task role g) : s.running.stack ≠ g := (other.ne outer.running.stack).symm
    refine (apart.advance outer taken).matched (fun g other => ?_) fun g other => ?_
    · simp only [happens]
      split <;> simp [stack g other]
    · simp only [executed,observe]
      split <;> simp [stack g other]
  · cases position : s.running.position with
    | thread => simp [Contexts.advance,position] at taken
    | ended cur => simp [Contexts.advance,position] at taken
    | entry =>
      obtain ⟨after,same⟩ := apart.entry task inside position taken
      exact ⟨after,fun g _ => by simp [happens,position,same],
        fun g _ => by simp [happens,executed,observe,position,Transition.trace]⟩
    | inside cur body =>
      obtain ⟨running,⟨code,rfl⟩,script⟩ := inside.script (apart.tasks f task) position
      have here : s.running.position = .inside f (.code code) := by rw [running]
      obtain ⟨after,left,others⟩ := apart.segment task inside here taken
      refine ⟨after,fun g other => ?_,fun g other => ?_⟩
      · by_cases self : f = g
        · subst g
          have exec : (view (s.fibers f)).m_state = .EXEC := inside.exec
          simp [happens,running,Transition.run_cons,fiberStep,exec,script,left]
        · simp [happens,running,self,others g (Ne.symm self)]
      · by_cases self : f = g
        · subst g
          cases code <;>
            simp [happens,executed,observe,running,Transition.trace_single,fiberObserve,script,Body.first]
        · cases code <;> simp [happens,executed,observe,running,self,Transition.trace]

theorem step_matched {action : Action σ} (apart : Apart role s) (taken : step s action = some t) :
    Matched role s t action := by
  cases action with
  | getThis =>
    cases taken
    rcases apart.running with outer | ⟨f,task,inside⟩
    · exact (apart.getThis outer).1.matched (fun _ _ => rfl) fun _ _ => rfl
    · rw [GetThis_known inside.this]
      exact ⟨apart,fun _ _ => rfl,fun _ _ => rfl⟩
  | construct =>
    simp only [step,Option.ite_none_right_eq_some,Bool.and_eq_true,beq_iff_eq,Option.some.injEq] at taken
    obtain ⟨⟨⟨isOutside,caller⟩,_⟩,rfl⟩ := taken
    exact (apart.construct (outside_outer apart isOutside) caller).matched (fun _ _ => rfl) fun _ _ => rfl
  | enterRun =>
    simp only [step,Option.ite_none_right_eq_some,Bool.and_eq_true,Option.some.injEq] at taken
    obtain ⟨⟨⟨isOutside,_⟩,_⟩,rfl⟩ := taken
    exact (apart.enterRun (outside_outer apart isOutside)).matched (fun _ _ => rfl) fun _ _ => rfl
  | resume f =>
    simp only [step,Option.ite_none_right_eq_some] at taken
    exact apart.resume (resumes_outer apart taken.1) taken.2
  | advance => exact advance_matched apart taken
  | reset f cb =>
    simp only [step,Option.ite_none_right_eq_some] at taken
    exact apart.reset (outside_outer apart taken.1) taken.2

/-- Along every run of a thread, also where the current-fiber pointer is wrong, each fiber that is
neither the main fiber nor the root fiber runs as a machine of its own: its states and saved
contexts are those of the calls that were made on it, and what has run on its stack is what its
machine has executed. -/
theorem fibers_apart (role : Role) (bodies : FiberId → Code σ × Bool) (actions : List (Action σ)) (s : State σ)
    (ran : Transition.run step (start role bodies) actions = some s) (f : FiberId) (task : Task role f) :
    Transition.run fiberStep (Fiber.create (.code (bodies f).1))
        (Transition.trace step (happens f) (start role bodies) actions) = some (view (s.fibers f)) ∧
      Transition.trace fiberStep fiberObserve (Fiber.create (.code (bodies f).1))
        (Transition.trace step (happens f) (start role bodies) actions) =
      Transition.trace step (executed f) (start role bodies) actions := by
  have made : view ((start role bodies).fibers f) = Fiber.create (.code (bodies f).1) := by
    simp [start,task.1,view,viewContext,FiberObject.create,Fiber.create]
  rw [← made]
  exact Transition.run_projected step fiberStep (fun s => view (s.fibers f)) (happens f) (executed f) fiberObserve
    (Apart role) (fun _ _ _ apart taken => (step_matched apart taken).apart)
    (fun _ _ _ apart taken => ⟨(step_matched apart taken).moved f task,(step_matched apart taken).shown f task⟩)
    (start_apart role bodies) ran

def twoSegments : List (Action Nat) :=
  [.getThis,.construct,.resume m_rootFiber,.advance,.resume 2,.advance,.advance,.resume 2,.advance]

theorem fibers_apart_two : ∃ s,
    Transition.run step (start .caller fun _ => (.yields 7 (.returns 8),true)) twoSegments = some s ∧
    (s.fibers 2).m_state = .TERM ∧
    Transition.run fiberStep (Fiber.create (.code (.yields 7 (.returns 8)))) [.resume,.segment,.resume,.segment] =
      some (view (s.fibers 2)) ∧
    Transition.trace step (executed 2) (start .caller fun _ => (.yields 7 (.returns 8),true)) twoSegments = [7,8] := by
  have ran : ∃ s, Transition.run step (start .caller fun _ => (.yields 7 (.returns 8),true)) twoSegments = some s ∧
      (s.fibers 2).m_state = .TERM := ⟨_,rfl,rfl⟩
  obtain ⟨s,ran,term⟩ := ran
  obtain ⟨moved,shown⟩ := fibers_apart .caller _ twoSegments s ran 2 ⟨by decide,fun _ => by decide⟩
  exact ⟨s,ran,term,moved,shown.symm⟩

end Myriel.Contexts

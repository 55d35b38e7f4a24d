import Myriel.ContextsSwitch

/-! `t_fiber` along every run: it names the running fiber until a fiber that
`Scheduler::run` has resumed on the caller thread switches back. -/
namespace Myriel.Contexts

/-- What the thread-local pointers promise once `GetThis` has been called. -/
structure Right (s : State σ) : Prop where
  pointer : s.t_thread_fiber.isSome → s.t_fiber = some s.running.stack
  this : (GetThis s).2 = s.running.stack
  id : GetFiberId s = (s.fibers s.running.stack).m_id

/-- The running fiber was resumed by `Scheduler::run` on the thread that owns the
scheduler: the root fiber waits inside a `resume`. -/
def ResumedByRun (s : State σ) : Prop :=
  s.role = .caller ∧ s.running.stack ≠ m_rootFiber ∧ (s.fibers m_rootFiber).m_state = .EXEC

def atSwitch (s : State σ) : Bool :=
  match s.running.position with
  | .inside _ _ => true
  | _ => false

/-- No fiber that `run` has resumed on the caller thread yields or ends. -/
def Allowed (s : State σ) : Action σ → Prop
  | .advance => atSwitch s → ¬ ResumedByRun s
  | _ => True

/-- Where the code on the stack of fiber `f` can be. -/
def Sound (role : Role) (f : FiberId) : Position σ → Prop
  | .thread => False
  | .entry => True
  | .inside cur body => cur = f ∧ (body = .run → f = m_rootFiber ∧ role = .caller)
  | .ended cur => cur = f

structure Stacks (s : State σ) : Prop where
  main : (s.fibers mainFiber).m_state = .EXEC
  own : ∀ f, f ≠ mainFiber → (s.fibers f).m_ctx.stack = f
  positions : ∀ f, f ≠ mainFiber → Sound s.role f (s.fibers f).m_ctx.position
  callbacks : ∀ f, (s.fibers f).m_cb = some .run → f = m_rootFiber ∧ s.role = .caller
  scheduler : ∀ f, s.t_scheduler_fiber = some f →
    s.role = .caller ∧ f = m_rootFiber ∨ s.role = .worker ∧ f = mainFiber

structure Home (s : State σ) : Prop where
  same : s.t_fiber = s.t_thread_fiber
  known : s.t_thread_fiber = some mainFiber ∨
    s.t_thread_fiber = none ∧ s.t_scheduler_fiber = none ∧ (s.fibers mainFiber).m_id = 0
  running : s.running = ⟨mainFiber,.thread⟩
  root : s.role = .caller → (s.fibers m_rootFiber).m_state ≠ .EXEC

structure Running (s : State σ) (f : FiberId) : Prop where
  other : f ≠ mainFiber
  this : s.t_fiber = some f
  main : s.t_thread_fiber = some mainFiber
  stack : s.running.stack = f
  position : Sound s.role f s.running.position
  exec : (s.fibers f).m_state = .EXEC

structure Out (s : State σ) (f : FiberId) : Prop extends Running s f where
  waits : (s.fibers mainFiber).m_ctx = ⟨mainFiber,.thread⟩
  back : home s f = some mainFiber
  root : s.role = .caller → f ≠ m_rootFiber → (s.fibers m_rootFiber).m_state ≠ .EXEC

structure Inner (s : State σ) (f : FiberId) : Prop extends Running s f where
  caller : s.role = .caller
  notRoot : f ≠ m_rootFiber
  busy : (s.fibers m_rootFiber).m_state = .EXEC
  back : ∃ next, home s f = some next ∧ (s.fibers next).m_ctx.stack = m_rootFiber

def Phase (s : State σ) : Prop := Home s ∨ (∃ f, Out s f) ∨ ∃ f, Inner s f

def Coherent (s : State σ) : Prop := Stacks s ∧ Phase s

theorem Running.right {s : State σ} {f : FiberId} (running : Running s f) : Right s where
  pointer _ := by rw [running.this,running.stack]
  this := by rw [GetThis_known running.this,running.stack]
  id := by simp [GetFiberId,running.this,running.stack]

theorem Home.right {s : State σ} (home : Home s) : Right s := by
  rcases home.known with known | ⟨fresh,_,unnumbered⟩
  · have this : s.t_fiber = some mainFiber := home.same.trans known
    constructor
    · intro _
      rw [this,home.running]
    · rw [GetThis_known this,home.running]
    · simp [GetFiberId,this,home.running]
  · have null : s.t_fiber = none := home.same.trans fresh
    constructor
    · simp [fresh]
    · simp [GetThis,null,home.running]
    · simp [GetFiberId,null,home.running,unnumbered]

theorem Coherent.right {s : State σ} (coherent : Coherent s) : Right s := by
  rcases coherent.2 with home | ⟨f,out⟩ | ⟨f,inner⟩
  · exact home.right
  · exact out.right
  · exact inner.right

theorem start_coherent (role : Role) (bodies : FiberId → Code σ × Bool) :
    Coherent (start role bodies) := by
  constructor
  · constructor
    · simp [start,FiberObject.main]
    · intro f other
      simp [start,other,FiberObject.create]
    · intro f other
      simp [start,other,FiberObject.create,Sound]
    · intro f
      simp only [start]
      split <;> simp [FiberObject.create,FiberObject.main]
    · simp [start]
  · left
    constructor
    · rfl
    · right
      exact ⟨rfl,rfl,rfl⟩
    · rfl
    · intro _
      simp [start,mainFiber,m_rootFiber,FiberObject.create]

theorem Running.inside {s : State σ} {f : FiberId} (running : Running s f) :
    s.running.position ≠ .thread := by
  intro thread
  have sound := running.position
  rw [thread] at sound
  exact sound

theorem Coherent.home {s : State σ} (coherent : Coherent s)
    (thread : s.running.position = .thread) : Home s := by
  rcases coherent.2 with home | ⟨f,out⟩ | ⟨f,inner⟩
  · exact home
  · exact absurd thread out.inside
  · exact absurd thread inner.inside

theorem outside_thread {s : State σ} (isOutside : outside s = true) :
    s.running.position = .thread := by
  unfold outside at isOutside
  split at isOutside
  · assumption
  · cases isOutside

theorem Stacks.setFiber {s : State σ} (sound : Stacks s) {f : FiberId} {fiber : FiberObject σ}
    (main : f = mainFiber → fiber.m_state = .EXEC)
    (own : f ≠ mainFiber → fiber.m_ctx.stack = f ∧ Sound s.role f fiber.m_ctx.position)
    (callback : fiber.m_cb = some .run → f = m_rootFiber ∧ s.role = .caller) :
    Stacks (setFiber s f fiber) where
  main := by
    rw [setFiber_fibers]
    split
    case isTrue equal => exact main equal.symm
    case isFalse => exact sound.main
  own g other := by
    rw [setFiber_fibers]
    split
    case isTrue equal =>
      subst equal
      exact (own other).1
    case isFalse => exact sound.own g other
  positions g other := by
    rw [setFiber_fibers]
    split
    case isTrue equal =>
      subst equal
      exact (own other).2
    case isFalse => exact sound.positions g other
  callbacks g := by
    rw [setFiber_fibers]
    split
    case isTrue equal =>
      subst equal
      exact callback
    case isFalse => exact sound.callbacks g
  scheduler := sound.scheduler

theorem GetThis_home {s : State σ} (sound : Stacks s) (home : Home s) :
    Stacks (GetThis s).1 ∧ Home (GetThis s).1 ∧ (GetThis s).1.t_thread_fiber = some mainFiber ∧
      (GetThis s).1.role = s.role ∧ (GetThis s).1.t_scheduler_fiber = s.t_scheduler_fiber ∧
      (GetThis s).2 = mainFiber := by
  rcases home.known with known | ⟨fresh,_,_⟩
  · rw [GetThis_known (home.same.trans known)]
    exact ⟨sound,home,known,rfl,rfl,rfl⟩
  · have null : s.t_fiber = none := home.same.trans fresh
    simp only [GetThis,null]
    have made : Stacks (setFiber s mainFiber .main) := by
      apply sound.setFiber
      · intro _
        rfl
      · intro other
        exact absurd rfl other
      · intro isRun
        cases isRun
    refine ⟨⟨made.main,made.own,made.positions,made.callbacks,made.scheduler⟩,?_,trivial,rfl,rfl,trivial⟩
    constructor
    · rfl
    · exact .inl rfl
    · exact home.running
    · intro caller
      have rootOther : m_rootFiber ≠ mainFiber := by decide
      exact fun exec => home.root caller
        ((congrArg FiberObject.m_state (setFiber_other s .main rootOther)).symm.trans exec)

theorem construct_coherent {s : State σ} (sound : Stacks s) (home : Home s)
    (caller : s.role = .caller) : Coherent (construct s) := by
  obtain ⟨madeStacks,madeHome,known,role,_,_⟩ := GetThis_home sound home
  have made : Stacks (setFiber (GetThis s).1 m_rootFiber (.create m_rootFiber .run false)) := by
    apply madeStacks.setFiber
    · intro isMain
      cases isMain
    · intro _
      exact ⟨rfl,trivial⟩
    · intro _
      exact ⟨rfl,role.trans caller⟩
  refine ⟨⟨made.main,made.own,made.positions,made.callbacks,?_⟩,.inl ?_⟩
  · intro f scheduler
    cases scheduler
    exact .inl ⟨role.trans caller,rfl⟩
  · constructor
    · exact madeHome.same
    · exact .inl known
    · exact madeHome.running
    · intro _ exec
      have state := congrArg FiberObject.m_state (setFiber_same (GetThis s).1 m_rootFiber
        (.create m_rootFiber .run false))
      cases state.symm.trans exec

theorem enterRun_coherent {s : State σ} (sound : Stacks s) (home : Home s)
    (worker : s.role = .worker) : Coherent (enterRun s) := by
  obtain ⟨made,madeHome,known,role,_,this⟩ := GetThis_home sound home
  refine ⟨⟨made.main,made.own,made.positions,made.callbacks,?_⟩,.inl ?_⟩
  · intro f scheduler
    have isMain : f = mainFiber := by
      rw [← this]
      exact (Option.some.inj scheduler).symm
    exact .inr ⟨role.trans worker,isMain⟩
  · exact ⟨madeHome.same,.inl known,madeHome.running,madeHome.root⟩

theorem reset_coherent {s t : State σ} {f : FiberId} {cb : Code σ} (sound : Stacks s)
    (home : Home s) (taken : reset s f cb = some t) : Coherent t := by
  unfold reset at taken
  split at taken
  case isFalse => cases taken
  case isTrue guard =>
    cases taken
    constructor
    · apply sound.setFiber
      · intro isMain
        exact absurd isMain guard.1
      · intro _
        exact ⟨rfl,trivial⟩
      · intro isRun
        cases isRun
    · left
      constructor
      · exact home.same
      · refine home.known.imp id fun fresh => ⟨fresh.1,fresh.2.1,?_⟩
        rw [setFiber_other s _ (Ne.symm guard.1)]
        exact fresh.2.2
      · exact home.running
      · intro caller
        rw [setFiber_fibers]
        split
        · simp
        · exact home.root caller

theorem Switched.home {s t : State σ} {f saved next : FiberId} {state : FiberState}
    {position : Position σ} (switched : Switched s t f state saved next position) (g : FiberId) :
    home t g = home s g := by
  simp [Contexts.home,switched.schedulers,switched.scheduler,switched.main]

theorem Stacks.switch {s t : State σ} {f saved next : FiberId} {state : FiberState}
    {position : Position σ} (sound : Stacks s)
    (switched : Switched s t f state saved next position) (other : f ≠ mainFiber)
    (kept : saved ≠ mainFiber → s.running.stack = saved ∧ Sound s.role saved position) :
    Stacks t where
  main := by
    rw [switched.states mainFiber (Ne.symm other)]
    exact sound.main
  own g notMain := by
    by_cases same : g = saved
    · subst same
      rw [switched.kept]
      exact (kept notMain).1
    · rw [switched.contexts g same]
      exact sound.own g notMain
  positions g notMain := by
    rw [switched.role]
    by_cases same : g = saved
    · subst same
      rw [switched.kept]
      exact (kept notMain).2
    · rw [switched.contexts g same]
      exact sound.positions g notMain
  callbacks g isRun := by
    rw [switched.role]
    by_cases same : g = f
    · subst same
      rcases switched.callback with ended | unchanged
      · cases ended.symm.trans isRun
      · exact sound.callbacks g (unchanged.symm.trans isRun)
    · exact sound.callbacks g ((switched.callbacks g same).symm.trans isRun)
  scheduler g isScheduler := by
    rw [switched.role]
    exact sound.scheduler g (switched.scheduler.symm.trans isScheduler)

theorem Running.resumed {s t : State σ} {f saved : FiberId} {position : Position σ}
    (sound : Stacks s) (known : s.t_thread_fiber = some mainFiber) (this : t.t_fiber = some f)
    (ready : (s.fibers f).m_state = .READY) (switched : Switched s t f .EXEC saved f position) :
    Running t f := by
  have other : f ≠ mainFiber := by
    intro isMain
    subst isMain
    cases ready.symm.trans sound.main
  constructor
  · exact other
  · exact this
  · exact switched.main.trans known
  · rw [switched.running]
    exact sound.own f other
  · rw [switched.running,switched.role]
    exact sound.positions f other
  · exact switched.state

theorem resumes_thread {s : State σ} {f : FiberId} (sound : Stacks s)
    (thread : s.running.position = .thread) (allowed : resumes s f = true)
    {saved : FiberId} (back : home s f = some saved)
    (known : s.t_thread_fiber = some mainFiber) : saved = mainFiber := by
  have main : s.t_thread_fiber = some saved → saved = mainFiber :=
    fun same => Option.some.inj (same.symm.trans known)
  unfold home at back
  split at back
  case isFalse => exact main back
  case isTrue isScheduler =>
    rcases sound.scheduler saved back with ⟨caller,_⟩ | ⟨_,isMain⟩
    · simp [resumes,thread,caller,isScheduler] at allowed
    · exact isMain

theorem resume_thread_coherent {s t : State σ} {f : FiberId} (sound : Stacks s) (home : Home s)
    (allowed : resumes s f = true) (taken : resume s f = some t) : Coherent t := by
  obtain ⟨saved,back,ready,this,_,switched⟩ := resume_effect taken
  have thread : s.running.position = .thread := by rw [home.running]
  have known : s.t_thread_fiber = some mainFiber := by
    refine home.known.elim id fun fresh => ?_
    simp [Contexts.home,fresh.1,fresh.2.1] at back
  have isMain : saved = mainFiber := resumes_thread sound thread allowed back known
  subst isMain
  have running := Running.resumed sound known this ready switched
  constructor
  · apply sound.switch switched running.other
    intro other
    exact absurd rfl other
  · refine .inr (.inl ⟨f,{ running with waits := ?_, back := ?_, root := ?_ }⟩)
    · rw [switched.kept,home.running]
    · rw [switched.home]
      exact back
    · intro caller other
      rw [switched.states m_rootFiber (Ne.symm other)]
      exact home.root (switched.role.symm.trans caller)

/-- Only the root fiber of the caller thread is inside `run`. -/
theorem resumes_inside {s : State σ} {f g : FiberId} (running : Running s g)
    (allowed : resumes s f = true) : g = m_rootFiber ∧ s.role = .caller := by
  have position := running.position
  unfold resumes at allowed
  split at allowed
  case h_1 thread _ => exact absurd thread running.inside
  case h_2 thread _ => exact absurd thread running.inside
  case h_3 thread _ => exact absurd thread running.inside
  case h_4 at_run =>
    rw [at_run] at position
    exact position.2 rfl
  case h_5 => cases allowed

theorem resume_inside_coherent {s t : State σ} {f g : FiberId} (sound : Stacks s)
    (out : Out s g) (allowed : resumes s f = true) (taken : resume s f = some t) : Coherent t := by
  obtain ⟨isRoot,caller⟩ := resumes_inside out.toRunning allowed
  subst isRoot
  obtain ⟨saved,back,ready,this,_,switched⟩ := resume_effect taken
  have running := Running.resumed sound out.main this ready switched
  have notRoot : f ≠ m_rootFiber := by
    intro same
    subst same
    cases ready.symm.trans out.exec
  -- The root fiber is saved in its own object or, for a fiber without scheduler, in the main one.
  have savedIn : saved = m_rootFiber ∨ saved = mainFiber := by
    unfold home at back
    split at back
    · refine (sound.scheduler saved back).imp And.right And.right
    · exact .inr (Option.some.inj (back.symm.trans out.main))
  constructor
  · apply sound.switch switched running.other
    intro other
    have isRoot := savedIn.resolve_right other
    subst isRoot
    exact ⟨out.stack,out.position⟩
  · refine .inr (.inr ⟨f,{ running with caller := ?_, notRoot := notRoot, busy := ?_, back := ?_ }⟩)
    · exact switched.role.trans caller
    · rw [switched.states m_rootFiber (Ne.symm notRoot)]
      exact out.exec
    · refine ⟨saved,?_,?_⟩
      · rw [switched.home]
        exact back
      · rw [switched.kept]
        exact out.stack

theorem entry_effect {s t : State σ} {f : FiberId} (sound : Stacks s) (running : Running s f)
    (position : s.running.position = .entry) (taken : advance s = some t) :
    ∃ body, t = { s with running := { s.running with position := .inside f body } } ∧
      Running t f := by
  rw [advance_entry running.this position] at taken
  obtain ⟨body,callback,rfl⟩ := Option.map_eq_some_iff.mp taken
  refine ⟨body,rfl,⟨running.other,running.this,running.main,running.stack,?_,running.exec⟩⟩
  refine ⟨rfl,fun isRun => ?_⟩
  subst isRun
  exact sound.callbacks f callback

theorem entry_coherent {s t : State σ} {f : FiberId} (sound : Stacks s)
    (phase : Out s f ∨ Inner s f) (position : s.running.position = .entry)
    (taken : advance s = some t) : Coherent t := by
  rcases phase with out | inner
  · obtain ⟨body,rfl,running⟩ := entry_effect sound out.toRunning position taken
    refine ⟨⟨sound.main,sound.own,sound.positions,sound.callbacks,sound.scheduler⟩,.inr (.inl ⟨f,?_⟩)⟩
    exact ⟨running,out.waits,out.back,out.root⟩
  · obtain ⟨body,rfl,running⟩ := entry_effect sound inner.toRunning position taken
    refine ⟨⟨sound.main,sound.own,sound.positions,sound.callbacks,sound.scheduler⟩,.inr (.inr ⟨f,?_⟩)⟩
    exact ⟨running,inner.caller,inner.notRoot,inner.busy,inner.back⟩

/-- A fiber that the code of the thread has resumed switches back to it. -/
theorem switch_home {s t : State σ} {f : FiberId} {body : Body σ} (sound : Stacks s)
    (out : Out s f) (position : s.running.position = .inside f body)
    (taken : advance s = some t) : Coherent t := by
  obtain ⟨u,advanced,this,switched⟩ := segment_effect out.this position out.exec out.back
  cases advanced.symm.trans taken
  have soundBody := out.position
  rw [position] at soundBody
  constructor
  · apply sound.switch switched out.other
    intro _
    refine ⟨out.stack,?_⟩
    cases body with
    | run => rfl
    | code code =>
      cases code with
      | yields segment rest => exact ⟨rfl,fun isRun => nomatch isRun⟩
      | returns segment => rfl
      | throws segment => rfl
  · left
    constructor
    · exact this.trans switched.main.symm
    · exact .inl (switched.main.trans out.main)
    · rw [switched.running]
      exact out.waits
    · intro caller
      by_cases isRoot : f = m_rootFiber
      · subst isRoot
        rw [switched.state]
        cases body with
        | run => simp [Body.rests]
        | code code => cases code <;> simp [Body.rests]
      · rw [switched.states m_rootFiber (Ne.symm isRoot)]
        exact out.root (switched.role.symm.trans caller) isRoot

/-- A fiber that `run` has resumed on the caller thread switches to the root fiber, and
`t_fiber` names the main fiber. -/
theorem switch_inner {s : State σ} {f : FiberId} {body : Body σ}
    (inner : Inner s f) (position : s.running.position = .inside f body) :
    ∃ t, advance s = some t ∧ ¬ Right t := by
  obtain ⟨next,back,isRoot⟩ := inner.back
  obtain ⟨t,advanced,this,switched⟩ := segment_effect inner.this position inner.exec back
  refine ⟨t,advanced,fun right => ?_⟩
  have known : t.t_thread_fiber = some mainFiber := switched.main.trans inner.main
  have pointer := right.pointer (by rw [known]; rfl)
  rw [this,inner.main,switched.running,isRoot] at pointer
  cases pointer

theorem atSwitch_inside {s : State σ} {f : FiberId} (running : Running s f)
    (switches : atSwitch s = true) : ∃ body, s.running.position = .inside f body := by
  have sound := running.position
  unfold atSwitch at switches
  split at switches
  case h_1 cur body position =>
    rw [position] at sound
    rw [sound.1] at position
    exact ⟨body,position⟩
  case h_2 => cases switches

theorem advance_cases {s t : State σ} {f : FiberId} (running : Running s f)
    (taken : advance s = some t) :
    s.running.position = .entry ∨ ∃ body, s.running.position = .inside f body := by
  cases position : s.running.position with
  | thread => exact absurd position running.inside
  | entry => exact .inl rfl
  | inside cur body =>
    obtain ⟨_,same⟩ := atSwitch_inside running (by simp [atSwitch,position])
    exact .inr ⟨_,position.symm.trans same⟩
  | ended cur => simp [advance,position] at taken

theorem Inner.resumed {s : State σ} {f : FiberId} (inner : Inner s f) : ResumedByRun s := by
  refine ⟨inner.caller,?_,inner.busy⟩
  rw [inner.stack]
  exact inner.notRoot

theorem advance_coherent {s t : State σ} (coherent : Coherent s) (allowed : Allowed s .advance)
    (taken : advance s = some t) : Coherent t := by
  obtain ⟨sound,home | ⟨f,out⟩ | ⟨f,inner⟩⟩ := coherent
  · simp [advance,home.running] at taken
  · rcases advance_cases out.toRunning taken with entry | ⟨body,inside⟩
    · exact entry_coherent sound (.inl out) entry taken
    · exact switch_home sound out inside taken
  · rcases advance_cases inner.toRunning taken with entry | ⟨body,inside⟩
    · exact entry_coherent sound (.inr inner) entry taken
    · exact absurd inner.resumed (allowed (by simp [atSwitch,inside]))

theorem step_coherent (s : State σ) (action : Action σ) (t : State σ) (coherent : Coherent s)
    (allowed : Allowed s action) (taken : step s action = some t) : Coherent t := by
  have sound := coherent.1
  cases action with
  | getThis =>
    cases taken
    rcases coherent.2 with home | ⟨f,out⟩ | ⟨f,inner⟩
    · obtain ⟨made,madeHome,_⟩ := GetThis_home sound home
      exact ⟨made,.inl madeHome⟩
    · rw [GetThis_known out.this]
      exact coherent
    · rw [GetThis_known inner.this]
      exact coherent
  | construct =>
    simp only [step,Option.ite_none_right_eq_some,Bool.and_eq_true,beq_iff_eq] at taken
    obtain ⟨⟨⟨isOutside,caller⟩,_⟩,same⟩ := taken
    cases same
    exact construct_coherent sound (coherent.home (outside_thread isOutside)) caller
  | enterRun =>
    simp only [step,Option.ite_none_right_eq_some,Bool.and_eq_true,beq_iff_eq] at taken
    obtain ⟨⟨⟨isOutside,worker⟩,_⟩,same⟩ := taken
    cases same
    exact enterRun_coherent sound (coherent.home (outside_thread isOutside)) worker
  | resume f =>
    simp only [step,Option.ite_none_right_eq_some] at taken
    obtain ⟨resumed,taken⟩ := taken
    rcases coherent.2 with home | ⟨g,out⟩ | ⟨g,inner⟩
    · exact resume_thread_coherent sound home resumed taken
    · exact resume_inside_coherent sound out resumed taken
    · exact absurd (resumes_inside inner.toRunning resumed).1 inner.notRoot
  | advance => exact advance_coherent coherent allowed taken
  | reset f cb =>
    simp only [step,Option.ite_none_right_eq_some] at taken
    exact reset_coherent sound (coherent.home (outside_thread taken.1)) taken.2

/-- A step that is not allowed is possible, and leaves the wrong pointer. -/
theorem forbidden_wrong (s : State σ) (action : Action σ) (coherent : Coherent s)
    (forbidden : ¬ Allowed s action) : ∃ t, step s action = some t ∧ ¬ Right t := by
  cases action with
  | advance =>
    simp only [Allowed,Classical.not_imp,not_not] at forbidden
    obtain ⟨switches,caller,notRoot,busy⟩ := forbidden
    rcases coherent.2 with home | ⟨f,out⟩ | ⟨f,inner⟩
    · simp [atSwitch,home.running] at switches
    · rw [out.stack] at notRoot
      exact absurd busy (out.root caller notRoot)
    · obtain ⟨body,inside⟩ := atSwitch_inside inner.toRunning switches
      exact switch_inner inner inside
  | _ => exact absurd trivial forbidden

/-- Every state of a run has the right pointer if and only if no fiber that `run` has
resumed on the caller thread switches back in it. -/
theorem pointer_right_iff (role : Role) (bodies : FiberId → Code σ × Bool) (actions : List (Action σ)) :
    (∀ before after s, actions = before ++ after →
      Transition.run step (start role bodies) before = some s → Right s) ↔
    Transition.Along step Allowed (start role bodies) actions :=
  (Transition.along_iff_states step Allowed Coherent Right step_coherent
    (fun _ coherent => coherent.right) forbidden_wrong (start_coherent role bodies) actions).symm

/-- `stop` resumes the root fiber, `run` resumes a task, and the task yields: the root
fiber runs, and `t_fiber` is the main fiber. -/
theorem pointer_wrong_root : ¬ ∀ (role : Role) (bodies : FiberId → Code Nat × Bool)
    (actions : List (Action Nat)) (s : State Nat),
    Transition.run step (start role bodies) actions = some s → Right s := by
  intro always
  let bodies : FiberId → Code Nat × Bool := fun _ => (.yields 0 (.returns 1),true)
  let actions : List (Action Nat) :=
    [.construct,.resume m_rootFiber,.advance,.resume 2,.advance,.advance]
  have reached : (Transition.run step (start .caller bodies) actions).map
      (fun s => (s.t_thread_fiber,s.t_fiber,s.running.stack)) =
        some (some mainFiber,some mainFiber,m_rootFiber) := rfl
  obtain ⟨s,ran,found⟩ := Option.map_eq_some_iff.mp reached
  obtain ⟨known,this,root⟩ : s.t_thread_fiber = some mainFiber ∧ s.t_fiber = some mainFiber ∧
      s.running.stack = m_rootFiber := by simpa using found
  have pointer := (always .caller bodies actions s ran).pointer (by rw [known]; rfl)
  rw [this,root] at pointer
  cases pointer

theorem yield_role {s t : State σ} {f : FiberId} {position : Position σ}
    (yielded : yield s f position = some t) : t.role = s.role := by
  unfold yield at yielded
  split at yielded
  case isFalse => cases yielded
  case isTrue =>
    obtain ⟨next,_,rfl⟩ := Option.map_eq_some_iff.mp yielded
    rfl

theorem GetThis_role (s : State σ) : (GetThis s).1.role = s.role := by
  unfold GetThis
  split <;> rfl

theorem step_role {s t : State σ} {action : Action σ} (taken : step s action = some t) :
    t.role = s.role := by
  cases action with
  | getThis =>
    cases taken
    exact GetThis_role s
  | construct =>
    simp only [step,Option.ite_none_right_eq_some] at taken
    cases taken.2
    exact GetThis_role s
  | enterRun =>
    simp only [step,Option.ite_none_right_eq_some] at taken
    cases taken.2
    exact GetThis_role s
  | resume f =>
    simp only [step,Option.ite_none_right_eq_some] at taken
    obtain ⟨_,_,_,_,_,switched⟩ := resume_effect taken.2
    exact switched.role
  | reset f cb =>
    simp only [step,reset,Option.ite_none_right_eq_some] at taken
    cases taken.2.2
    rfl
  | advance =>
    simp only [step,advance] at taken
    split at taken
    · cases taken
    · obtain ⟨body,_,rfl⟩ := Option.map_eq_some_iff.mp taken
      exact GetThis_role s
    · exact (yield_role taken).trans (GetThis_role s)
    · exact (yield_role taken).trans rfl
    · exact (yield_role taken).trans rfl
    · exact yield_role taken
    · cases taken

/-- Without `use_caller` the pointer is right in every run. -/
theorem pointer_right_threads {role : Role} {bodies : FiberId → Code σ × Bool} {s : State σ}
    (threads : role ≠ .caller) (reach : Transition.Reachable step (start role bodies) s) :
    Right s := by
  have invariant : Coherent s ∧ s.role ≠ .caller := by
    apply reach.invariant step (fun s => Coherent s ∧ s.role ≠ .caller)
    · rintro s action t ⟨coherent,notCaller⟩ taken
      have allowed : Allowed s action := by
        cases action with
        | advance => exact fun _ resumed => notCaller resumed.1
        | _ => trivial
      refine ⟨step_coherent s action t coherent allowed taken,?_⟩
      rw [step_role taken]
      exact notCaller
    · exact ⟨start_coherent role bodies,threads⟩
  exact invariant.1.right

end Myriel.Contexts

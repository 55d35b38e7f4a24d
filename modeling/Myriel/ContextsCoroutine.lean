import Myriel.ContextsSwitch
import Myriel.Coroutine

/-! Fibers outside of the scheduler, driven by the code of their thread, are coroutines. -/
namespace Myriel.Contexts

/-- A callback that yields between each two of its segments and then returns. -/
def Code.returning : σ → List σ → Code σ
  | first, [] => .returns first
  | first, next :: later => .yields first (.returning next later)

structure Script (σ : Type) where
  first : σ
  later : List σ

def Script.segments (script : Script σ) : List σ := script.first :: script.later

def Script.code (script : Script σ) : Code σ := .returning script.first script.later

/-- The fibers that are not made for a scheduler. -/
def Driven (schedulers : FiberId → Bool) := { f : FiberId // f ≠ mainFiber ∧ schedulers f = false }

instance : DecidableEq (Driven schedulers) :=
  inferInstanceAs (DecidableEq { f : FiberId // f ≠ mainFiber ∧ schedulers f = false })

def begun (role : Role) (scheduler : Option FiberId) (scripts : FiberId → Script σ)
    (schedulers : FiberId → Bool) : State σ :=
  { (GetThis (start role fun f => ((scripts f).code,schedulers f))).1 with
    t_scheduler_fiber := scheduler }

/-- The steps of the fibers until control is back in the code of the thread, with the
segments that they run. -/
def untilBack : Nat → State σ → Option (State σ × List (FiberId × σ))
  | 0, s => if outside s then some (s,[]) else none
  | fuel + 1, s =>
    if outside s then some (s,[])
    else (advance s).bind fun t =>
      (untilBack fuel t).map fun (back,later) => (back,observe s .advance ++ later)

abbrev Command (schedulers : FiberId → Bool) (σ : Type) := Coroutine.Command (Driven schedulers) σ

def perform (fuel : Nat) (s : State σ) : Command schedulers σ → Option (State σ × List (FiberId × σ))
  | .resume f => (resume s f.val).bind (untilBack fuel)
  | .restart f first later => (reset s f.val (.returning first later)).map fun t => (t,[])

def drive (fuel : Nat) (s : State σ) (command : Command schedulers σ) : Option (State σ) :=
  (perform fuel s command).map Prod.fst

def segmentsRun (fuel : Nat) (s : State σ) (command : Command schedulers σ) : List (FiberId × σ) :=
  ((perform fuel s command).map Prod.snd).getD []

/-- The segment of a coroutine, under the number of its fiber. -/
def segmentsDue (s : Coroutine.State (Driven schedulers) σ) (command : Command schedulers σ) :
    List (FiberId × σ) :=
  (Coroutine.observe s command).map fun (f,segment) => (f.val,segment)

/-- Control is in the main fiber, and a fiber is in state `TERM` when its coroutine has
ended and in state `READY` otherwise. -/
structure Agrees (s : State σ) (c : Coroutine.State (Driven schedulers) σ) : Prop where
  this : s.t_fiber = some mainFiber
  running : s.running = ⟨mainFiber,.thread⟩
  states : ∀ f, (s.fibers f.val).m_state = if (c f).isEmpty then .TERM else .READY

/-- The fiber will continue with `code`: from the entry of `MainFunc`, or inside it. -/
def Awaits (fiber : FiberObject σ) (f : FiberId) (code : Code σ) : Prop :=
  fiber.m_ctx = ⟨f,.entry⟩ ∧ fiber.m_cb = some (.code code) ∨
    fiber.m_ctx = ⟨f,.inside f (.code code)⟩

structure Represents (s : State σ) (c : Coroutine.State (Driven schedulers) σ) : Prop
    extends Agrees s c where
  main : s.t_thread_fiber = some mainFiber
  objects : ∀ f : Driven schedulers, (s.fibers f.val).m_scheduler = false
  awaits : ∀ f first later, c f = first :: later →
    Awaits (s.fibers f.val) f.val (.returning first later)

theorem begun_represents (role : Role) (scheduler : Option FiberId) (scripts : FiberId → Script σ)
    (schedulers : FiberId → Bool) :
    Represents (begun role scheduler scripts schedulers)
      fun f : Driven schedulers => (scripts f.val).segments := by
  have made : ∀ f : Driven schedulers, (begun role scheduler scripts schedulers).fibers f.val =
      .create f.val (.code (scripts f.val).code) false := by
    intro f
    have object := setFiber_other (start role fun f => ((scripts f).code,schedulers f)) .main f.property.1
    apply object.trans
    simp [start,f.property]
  constructor
  · constructor
    · rfl
    · rfl
    · intro f
      rw [made]
      rfl
  · rfl
  · intro f
    rw [made]
    rfl
  · intro f first later same
    rw [made]
    cases same
    exact .inl ⟨rfl,rfl⟩

structure Resumed (s u : State σ) (f : FiberId) : Prop where
  this : u.t_fiber = some f
  main : u.t_thread_fiber = some mainFiber
  exec : (u.fibers f).m_state = .EXEC
  back : home u f = some mainFiber
  waits : (u.fibers mainFiber).m_ctx = ⟨mainFiber,.thread⟩
  schedulers : ∀ g, (u.fibers g).m_scheduler = (s.fibers g).m_scheduler
  others : ∀ g, g ≠ f → g ≠ mainFiber → (u.fibers g).m_state = (s.fibers g).m_state ∧
    (u.fibers g).m_ctx = (s.fibers g).m_ctx ∧ (u.fibers g).m_cb = (s.fibers g).m_cb

/-- From one call of `resume` to its return, where the fiber has ended a segment. -/
structure Returned (s t : State σ) (f : FiberId) (body : Body σ) : Prop where
  this : t.t_fiber = some mainFiber
  main : t.t_thread_fiber = some mainFiber
  running : t.running = ⟨mainFiber,.thread⟩
  state : (t.fibers f).m_state = body.rests
  kept : (t.fibers f).m_ctx = ⟨f,resumption f body⟩
  schedulers : ∀ g, (t.fibers g).m_scheduler = (s.fibers g).m_scheduler
  others : ∀ g, g ≠ f → g ≠ mainFiber → (t.fibers g).m_state = (s.fibers g).m_state ∧
    (t.fibers g).m_ctx = (s.fibers g).m_ctx ∧ (t.fibers g).m_cb = (s.fibers g).m_cb

theorem home_driven {s : State σ} {f : FiberId} (object : (s.fibers f).m_scheduler = false)
    (main : s.t_thread_fiber = some mainFiber) : home s f = some mainFiber := by
  simp [home,object,main]

theorem resume_driven {s : State σ} {c : Coroutine.State (Driven schedulers) σ}
    (represents : Represents s c) (f : Driven schedulers)
    (ready : (s.fibers f.val).m_state = .READY) :
    ∃ u, resume s f.val = some u ∧ Resumed s u f.val ∧ u.running = (s.fibers f.val).m_ctx ∧
      (u.fibers f.val).m_cb = (s.fibers f.val).m_cb := by
  have back := home_driven (represents.objects f) represents.main
  obtain ⟨u,resumed⟩ : ∃ u, resume s f.val = some u := ⟨_,resume_enabled back ready⟩
  obtain ⟨saved,isSaved,_,this,callback,switched⟩ := resume_effect resumed
  cases isSaved.symm.trans back
  have object : (u.fibers f.val).m_scheduler = false :=
    (switched.schedulers f.val).trans (represents.objects f)
  have main : u.t_thread_fiber = some mainFiber := switched.main.trans represents.main
  refine ⟨u,resumed,?_,switched.running,callback⟩
  constructor
  · exact this
  · exact main
  · exact switched.state
  · exact home_driven object main
  · rw [switched.kept,represents.running]
  · exact switched.schedulers
  · intro g other notMain
    exact ⟨switched.states g other,switched.contexts g notMain,switched.callbacks g other⟩

theorem untilBack_outside {s : State σ} (fuel : Nat) (back : outside s = true) :
    untilBack fuel s = some (s,[]) := by
  cases fuel <;> simp [untilBack,back]

theorem untilBack_inside {s t : State σ} {fuel : Nat} (inside : outside s = false)
    (advanced : advance s = some t) :
    untilBack (fuel + 1) s = (untilBack fuel t).map fun (back,later) =>
      (back,observe s .advance ++ later) := by
  simp [untilBack,inside,advanced]

theorem untilBack_segment {s u : State σ} {f : FiberId} {body : Body σ} (fuel : Nat)
    (resumed : Resumed s u f) (running : u.running = ⟨f,.inside f body⟩) :
    ∃ t, untilBack (fuel + 1) u = some (t,observe u .advance) ∧ Returned s t f body := by
  have position : u.running.position = .inside f body := by rw [running]
  obtain ⟨t,advanced,this,switched⟩ :=
    segment_effect resumed.this position resumed.exec resumed.back
  have back : t.running = ⟨mainFiber,.thread⟩ := switched.running.trans resumed.waits
  refine ⟨t,?_,?_⟩
  · rw [untilBack_inside (by simp [outside,position]) advanced,
      untilBack_outside fuel (by simp [outside,back])]
    simp
  · constructor
    · exact this.trans resumed.main
    · exact switched.main.trans resumed.main
    · exact back
    · exact switched.state
    · rw [switched.kept,running]
    · intro g
      exact (switched.schedulers g).trans (resumed.schedulers g)
    · intro g notSame notMain
      obtain ⟨state,context,callback⟩ := resumed.others g notSame notMain
      exact ⟨(switched.states g notSame).trans state,(switched.contexts g notSame).trans context,
        (switched.callbacks g notSame).trans callback⟩

/-- From the entry of `MainFunc` it takes one step more to get there. -/
theorem untilBack_entry {s u : State σ} {f : FiberId} {body : Body σ} (fuel : Nat)
    (resumed : Resumed s u f) (running : u.running = ⟨f,.entry⟩)
    (callback : (u.fibers f).m_cb = some body) :
    ∃ inner t, inner.running = ⟨f,.inside f body⟩ ∧
      untilBack (fuel + 2) u = some (t,observe inner .advance) ∧ Returned s t f body := by
  have position : u.running.position = .entry := by rw [running]
  have advanced : advance u = some { u with running := ⟨f,.inside f body⟩ } := by
    rw [advance_entry resumed.this position,callback]
    simp [running]
  have entered : Resumed s { u with running := ⟨f,.inside f body⟩ } f :=
    ⟨resumed.this,resumed.main,resumed.exec,resumed.back,resumed.waits,resumed.schedulers,
      resumed.others⟩
  obtain ⟨t,back,returned⟩ := untilBack_segment fuel entered rfl
  refine ⟨{ u with running := ⟨f,.inside f body⟩ },t,rfl,?_,returned⟩
  rw [untilBack_inside (by simp [outside,position]) advanced,back]
  simp [observe,position]

theorem observe_returning {s : State σ} {f : FiberId} {first : σ} {later : List σ}
    (running : s.running = ⟨f,.inside f (.code (.returning first later))⟩) :
    observe s .advance = [(f,first)] := by
  cases later <;> simp [observe,running,Code.returning]

theorem perform_resume {s : State σ} {c : Coroutine.State (Driven schedulers) σ}
    (represents : Represents s c) (f : Driven schedulers) (fuel : Nat) {first : σ} {later : List σ}
    (left : c f = first :: later) :
    ∃ t, perform (fuel + 2) s (.resume f : Command schedulers σ) = some (t,[(f.val,first)]) ∧
      Returned s t f.val (.code (.returning first later)) := by
  have ready : (s.fibers f.val).m_state = .READY := by simp [represents.states f,left]
  obtain ⟨u,call,resumed,running,callback⟩ := resume_driven represents f ready
  simp only [perform,call,Option.bind_some]
  rcases represents.awaits f first later left with ⟨context,body⟩ | context
  · obtain ⟨inner,t,inside,back,returned⟩ := untilBack_entry fuel resumed
      (running.trans context) (callback.trans body)
    rw [observe_returning inside] at back
    exact ⟨t,back,returned⟩
  · obtain ⟨t,back,returned⟩ := untilBack_segment (fuel + 1) resumed (running.trans context)
    rw [observe_returning (running.trans context)] at back
    exact ⟨t,back,returned⟩

theorem Represents.update {s t : State σ} {c : Coroutine.State (Driven schedulers) σ}
    (represents : Represents s c) (f : Driven schedulers) {segments : List σ}
    (this : t.t_fiber = some mainFiber) (running : t.running = ⟨mainFiber,.thread⟩)
    (main : t.t_thread_fiber = some mainFiber)
    (objects : ∀ g, (t.fibers g).m_scheduler = (s.fibers g).m_scheduler)
    (state : (t.fibers f.val).m_state = if segments.isEmpty then .TERM else .READY)
    (awaits : ∀ first later, segments = first :: later →
      Awaits (t.fibers f.val) f.val (.returning first later))
    (others : ∀ g, g ≠ f.val → g ≠ mainFiber → (t.fibers g).m_state = (s.fibers g).m_state ∧
      (t.fibers g).m_ctx = (s.fibers g).m_ctx ∧ (t.fibers g).m_cb = (s.fibers g).m_cb) :
    Represents t (Function.update c f segments) := by
  have apart : ∀ g : Driven schedulers, g ≠ f → g.val ≠ f.val :=
    fun g other same => other (Subtype.ext same)
  constructor
  · constructor
    · exact this
    · exact running
    · intro g
      by_cases same : g = f
      · subst same
        rw [Function.update_self]
        exact state
      · rw [Function.update_of_ne same,(others g.val (apart g same) g.property.1).1]
        exact represents.states g
  · exact main
  · intro g
    exact (objects g.val).trans (represents.objects g)
  · intro g next rest left
    by_cases same : g = f
    · subst same
      rw [Function.update_self] at left
      exact awaits next rest left
    · rw [Function.update_of_ne same] at left
      obtain ⟨_,context,callback⟩ := others g.val (apart g same) g.property.1
      have before := represents.awaits g next rest left
      unfold Awaits at before ⊢
      rw [context,callback]
      exact before

theorem returned_represents {s t : State σ} {c : Coroutine.State (Driven schedulers) σ}
    (represents : Represents s c) (f : Driven schedulers) {first : σ} {later : List σ}
    (returned : Returned s t f.val (.code (.returning first later))) :
    Represents t (Function.update c f later) := by
  apply represents.update f returned.this returned.running returned.main returned.schedulers
  · rw [returned.state]
    cases later <;> rfl
  · rintro next rest rfl
    exact .inr returned.kept
  · exact returned.others

theorem reset_represents {s : State σ} {c : Coroutine.State (Driven schedulers) σ}
    (represents : Represents s c) (f : Driven schedulers) (first : σ) (later : List σ)
    (ended : c f = []) :
    ∃ t, reset s f.val (.returning first later) = some t ∧
      Represents t (Function.update c f (first :: later)) := by
  have term : (s.fibers f.val).m_state = .TERM := by simp [represents.states f,ended]
  refine ⟨_,if_pos ⟨f.property.1,term⟩,?_⟩
  refine represents.update f represents.this represents.running represents.main ?_ ?_ ?_ ?_
  · intro g
    rw [setFiber_fibers]
    split
    case isTrue same => rw [same]
    case isFalse => rfl
  · rw [setFiber_same]
    rfl
  · rintro next rest same
    cases same
    rw [setFiber_same]
    exact .inl ⟨rfl,rfl⟩
  · intro g other _
    rw [setFiber_other s _ other]
    exact ⟨rfl,rfl,rfl⟩

theorem perform_matches {s : State σ} {c : Coroutine.State (Driven schedulers) σ}
    (represents : Represents s c) (fuel : Nat) (command : Command schedulers σ) :
    (perform (fuel + 2) s command = none ∧ Coroutine.step c command = none ∧ segmentsDue c command = []) ∨
      ∃ t d, perform (fuel + 2) s command = some (t,segmentsDue c command) ∧
        Coroutine.step c command = some d ∧ Represents t d := by
  cases command with
  | resume f =>
    cases left : c f with
    | nil =>
      left
      have term : (s.fibers f.val).m_state = .TERM := by simp [represents.states f,left]
      simp [perform,resume,term,Coroutine.step,segmentsDue,Coroutine.observe,left]
    | cons first later =>
      right
      obtain ⟨t,performed,returned⟩ := perform_resume represents f fuel left
      refine ⟨t,Function.update c f later,?_,?_,returned_represents represents f returned⟩
      · rw [performed]
        simp [segmentsDue,Coroutine.observe,left]
      · simp [Coroutine.step,left]
  | restart f first later =>
    cases left : c f with
    | nil =>
      right
      obtain ⟨t,taken,again⟩ := reset_represents represents f first later left
      refine ⟨t,Function.update c f (first :: later),?_,?_,again⟩
      · simp [perform,taken,segmentsDue,Coroutine.observe]
      · simp [Coroutine.step,left]
    | cons next rest =>
      left
      have ready : (s.fibers f.val).m_state = .READY := by simp [represents.states f,left]
      simp [perform,reset,ready,Coroutine.step,segmentsDue,Coroutine.observe,left]

theorem drive_matches (fuel : Nat) (s : State σ) (c : Coroutine.State (Driven schedulers) σ)
    (command : Command schedulers σ) (represents : Represents s c) :
    Option.Rel Represents (drive (fuel + 2) s command) (Coroutine.step c command) := by
  rcases perform_matches represents fuel command with ⟨refused,stopped,_⟩ | ⟨t,d,taken,stepped,again⟩
  · rw [drive,refused,stopped]
    exact .none
  · rw [drive,taken,stepped]
    exact .some again

theorem segmentsRun_due (fuel : Nat) (s : State σ) (c : Coroutine.State (Driven schedulers) σ)
    (command : Command schedulers σ) (represents : Represents s c) :
    segmentsRun (fuel + 2) s command = segmentsDue c command := by
  rcases perform_matches represents fuel command with ⟨refused,_,nothing⟩ | ⟨t,d,taken,_,_⟩
  · simp [segmentsRun,refused,nothing]
  · simp [segmentsRun,taken]

theorem runs_match (role : Role) (scheduler : Option FiberId) (scripts : FiberId → Script σ)
    (schedulers : FiberId → Bool) (fuel : Nat) (commands : List (Command schedulers σ)) :
    Option.Rel Represents
        (Transition.run (drive (fuel + 2)) (begun role scheduler scripts schedulers) commands)
        (Transition.run Coroutine.step (fun f : Driven schedulers => (scripts f.val).segments) commands) ∧
      Transition.trace (drive (fuel + 2)) (segmentsRun (fuel + 2))
          (begun role scheduler scripts schedulers) commands =
        Transition.trace Coroutine.step segmentsDue
          (fun f : Driven schedulers => (scripts f.val).segments) commands :=
  Transition.run_matches (drive (fuel + 2)) Coroutine.step (segmentsRun (fuel + 2)) segmentsDue
    Represents (drive_matches fuel) (segmentsRun_due fuel)
    (begun_represents role scheduler scripts schedulers) commands

/-- For every sequence of `resume` and `reset` calls on fibers outside of the scheduler: the
calls that are refused are those that the coroutines refuse, the segments that run are those
of the coroutines, and after each call control is in the main fiber and the states of the
fibers tell which coroutines have ended. Two steps suffice for a call to return. -/
theorem fibers_refine_coroutines (role : Role) (scheduler : Option FiberId)
    (scripts : FiberId → Script σ) (schedulers : FiberId → Bool) (fuel : Nat)
    (commands : List (Command schedulers σ)) :
    Option.Rel Agrees
        (Transition.run (drive (fuel + 2)) (begun role scheduler scripts schedulers) commands)
        (Transition.run Coroutine.step (fun f : Driven schedulers => (scripts f.val).segments) commands) ∧
      Transition.trace (drive (fuel + 2)) (segmentsRun (fuel + 2))
          (begun role scheduler scripts schedulers) commands =
        Transition.trace Coroutine.step segmentsDue
          (fun f : Driven schedulers => (scripts f.val).segments) commands := by
  obtain ⟨runs,notes⟩ := runs_match role scheduler scripts schedulers fuel commands
  refine ⟨?_,notes⟩
  generalize Transition.run (drive (fuel + 2)) _ commands = t at runs ⊢
  generalize Transition.run Coroutine.step _ commands = d at runs ⊢
  cases runs with
  | some represents => exact .some represents.toAgrees
  | none => exact .none

/-- The first `n` calls of `resume` run the first `n` segments of the callback, and the
fiber is in state `TERM` behind the last of them. -/
theorem resume_segments (role : Role) (scheduler : Option FiberId) (scripts : FiberId → Script σ)
    (schedulers : FiberId → Bool) (f : Driven schedulers) (n : Nat)
    (bound : n ≤ (scripts f.val).segments.length) :
    ∃ t, Transition.run (drive 2) (begun role scheduler scripts schedulers)
        (List.replicate n (.resume f : Command schedulers σ)) = some t ∧
      (t.fibers f.val).m_state =
        (if n = (scripts f.val).segments.length then .TERM else .READY) ∧
      Transition.trace (drive 2) (segmentsRun 2) (begun role scheduler scripts schedulers)
        (List.replicate n (.resume f : Command schedulers σ)) =
          ((scripts f.val).segments.take n).map fun segment => (f.val,segment) := by
  obtain ⟨runs,notes⟩ := runs_match role scheduler scripts schedulers 0
    (List.replicate n (.resume f : Command schedulers σ))
  obtain ⟨reached,segments⟩ := Coroutine.resumes_in_order (fun (f,segment) => (f.val,segment))
    (fun f : Driven schedulers => (scripts f.val).segments) f n bound
  rw [reached] at runs
  generalize Transition.run (drive (0 + 2)) (begun role scheduler scripts schedulers)
    (List.replicate n (.resume f : Command schedulers σ)) = result at runs ⊢
  cases runs with
  | some represents =>
    refine ⟨_,rfl,?_,?_⟩
    · rw [represents.states f,Function.update_self]
      by_cases last : n = (scripts f.val).segments.length
      · simp [last]
      · have left : ¬ (scripts f.val).segments.length ≤ n := by omega
        simp [List.isEmpty_iff,last,left]
    · exact notes.trans segments

end Myriel.Contexts

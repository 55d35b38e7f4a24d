import Myriel.Contexts

/-! What one context switch changes, and what it leaves alone. -/
namespace Myriel.Contexts

theorem setFiber_fibers (s : State σ) (f g : FiberId) (fiber : FiberObject σ) :
    (setFiber s f fiber).fibers g = if g = f then fiber else s.fibers g :=
  Function.update_apply s.fibers f fiber g

theorem setFiber_other (s : State σ) {f g : FiberId} (fiber : FiberObject σ) (other : g ≠ f) :
    (setFiber s f fiber).fibers g = s.fibers g := by
  rw [setFiber_fibers,if_neg other]

@[simp] theorem setFiber_same (s : State σ) (f : FiberId) (fiber : FiberObject σ) :
    (setFiber s f fiber).fibers f = fiber := by
  rw [setFiber_fibers,if_pos rfl]

/-- What a write to one fiber leaves alone in it, it leaves alone in every fiber. -/
theorem setFiber_field (field : FiberObject σ → τ) (s : State σ) (f : FiberId)
    (fiber : FiberObject σ) (same : field fiber = field (s.fibers f)) (g : FiberId) :
    field ((setFiber s f fiber).fibers g) = field (s.fibers g) := by
  rw [setFiber_fibers]
  split
  case isTrue equal => rw [same,equal]
  case isFalse => rfl

theorem setState_field (field : FiberObject σ → τ)
    (blind : ∀ fiber state, field { fiber with m_state := state } = field fiber)
    (s : State σ) (f : FiberId) (state : FiberState) (g : FiberId) :
    field ((setState s f state).fibers g) = field (s.fibers g) :=
  setFiber_field field s f _ (blind _ _) g

theorem saveContext_field (field : FiberObject σ → τ)
    (blind : ∀ fiber context, field { fiber with m_ctx := context } = field fiber)
    (s : State σ) (f : FiberId) (context : Context σ) (g : FiberId) :
    field ((saveContext s f context).fibers g) = field (s.fibers g) :=
  setFiber_field field s f _ (blind _ _) g

/-- A switch from the context saved in `saved` to that of `next`, where fiber `f` gets a
new state and the saved context will continue at `position`. It may end the callback of `f`. -/
structure Switched (s t : State σ) (f : FiberId) (state : FiberState) (saved next : FiberId)
    (position : Position σ) : Prop where
  role : t.role = s.role
  main : t.t_thread_fiber = s.t_thread_fiber
  scheduler : t.t_scheduler_fiber = s.t_scheduler_fiber
  running : t.running = (s.fibers next).m_ctx
  state : (t.fibers f).m_state = state
  states : ∀ g, g ≠ f → (t.fibers g).m_state = (s.fibers g).m_state
  kept : (t.fibers saved).m_ctx = ⟨s.running.stack,position⟩
  contexts : ∀ g, g ≠ saved → (t.fibers g).m_ctx = (s.fibers g).m_ctx
  callbacks : ∀ g, g ≠ f → (t.fibers g).m_cb = (s.fibers g).m_cb
  callback : (t.fibers f).m_cb = none ∨ (t.fibers f).m_cb = (s.fibers f).m_cb
  schedulers : ∀ g, (t.fibers g).m_scheduler = (s.fibers g).m_scheduler

theorem switch_callback (s : State σ) (this : Option FiberId) (f : FiberId) (state : FiberState)
    (saved next : FiberId) (position : Position σ) (g : FiberId) :
    ((swapcontext (setState (SetThis s this) f state) saved next position).fibers g).m_cb =
      (s.fibers g).m_cb := by
  apply (saveContext_field FiberObject.m_cb (fun _ _ => rfl) _ saved _ g).trans
  exact setState_field FiberObject.m_cb (fun _ _ => rfl) _ f state g

/-- `resume` and `yield` are the same four writes. -/
theorem switch_effect (s : State σ) (this : Option FiberId) (f : FiberId) (state : FiberState)
    (saved next : FiberId) (position : Position σ) :
    Switched s (swapcontext (setState (SetThis s this) f state) saved next position)
      f state saved next position where
  role := rfl
  main := rfl
  scheduler := rfl
  running := setState_field FiberObject.m_ctx (fun _ _ => rfl) (SetThis s this) f state next
  state := by
    apply (saveContext_field FiberObject.m_state (fun _ _ => rfl) _ saved _ f).trans
    exact congrArg FiberObject.m_state (setFiber_same _ f _)
  states g other := by
    apply (saveContext_field FiberObject.m_state (fun _ _ => rfl) _ saved _ g).trans
    exact congrArg FiberObject.m_state (setFiber_other _ _ other)
  kept := congrArg FiberObject.m_ctx (setFiber_same _ saved _)
  contexts g other := by
    apply (congrArg FiberObject.m_ctx (setFiber_other _ _ other)).trans
    exact setState_field FiberObject.m_ctx (fun _ _ => rfl) _ f state g
  callbacks g _ := switch_callback s this f state saved next position g
  callback := .inr (switch_callback s this f state saved next position f)
  schedulers g := by
    apply (saveContext_field FiberObject.m_scheduler (fun _ _ => rfl) _ saved _ g).trans
    exact setState_field FiberObject.m_scheduler (fun _ _ => rfl) _ f state g

theorem resume_enabled {s : State σ} {f saved : FiberId} (back : home s f = some saved)
    (ready : (s.fibers f).m_state = .READY) :
    resume s f = some (swapcontext (setState (SetThis s (some f)) f .EXEC) saved f s.running.position) := by
  simp [resume,back,ready]

theorem resume_effect {s t : State σ} {f : FiberId} (resumed : resume s f = some t) :
    ∃ saved, home s f = some saved ∧ (s.fibers f).m_state = .READY ∧ t.t_fiber = some f ∧
      (t.fibers f).m_cb = (s.fibers f).m_cb ∧ Switched s t f .EXEC saved f s.running.position := by
  unfold resume at resumed
  split at resumed
  case isFalse => cases resumed
  case isTrue ready =>
    obtain ⟨saved,back,rfl⟩ := Option.map_eq_some_iff.mp resumed
    refine ⟨saved,back,?_,rfl,?_,switch_effect s (some f) f .EXEC saved f s.running.position⟩
    · cases state : (s.fibers f).m_state <;> simp [state] at ready ⊢
    · exact switch_callback s (some f) f .EXEC saved f s.running.position f

theorem yield_enabled {s : State σ} {f next : FiberId} (position : Position σ)
    (back : home s f = some next) (exec : (s.fibers f).m_state = .EXEC ∨ (s.fibers f).m_state = .TERM) :
    yield s f position = some (swapcontext
      (setState (SetThis s s.t_thread_fiber) f (resting (s.fibers f).m_state)) f next position) := by
  simp [yield,back,exec]

/-- Where the fiber will continue behind the switch at the end of a segment. -/
def resumption (f : FiberId) : Body σ → Position σ
  | .code (.yields _ rest) => .inside f (.code rest)
  | .code (.throws _) | .code (.returns _) | .run => .ended f

theorem GetThis_known {s : State σ} {f : FiberId} (this : s.t_fiber = some f) :
    GetThis s = (s,f) := by simp [GetThis,this]

def left (s : State σ) (f : FiberId) : Body σ → State σ
  | .code (.yields _ _) | .code (.throws _) => s
  | .code (.returns _) | .run => finish s f

theorem advance_inside {s : State σ} {f : FiberId} {body : Body σ} (this : s.t_fiber = some f)
    (position : s.running.position = .inside f body) :
    advance s = yield (left s f body) f (resumption f body) := by
  unfold advance
  rw [position]
  cases body with
  | run => rfl
  | code code => cases code <;> simp [GetThis_known this,left,resumption]

theorem advance_entry {s : State σ} {f : FiberId} (this : s.t_fiber = some f)
    (position : s.running.position = .entry) :
    advance s = (s.fibers f).m_cb.map fun body =>
      { s with running := { s.running with position := .inside f body } } := by
  unfold advance
  rw [position]
  simp [GetThis_known this]

theorem finish_field (field : FiberObject σ → τ)
    (blind : ∀ fiber cb state, field { fiber with m_cb := cb, m_state := state } = field fiber)
    (s : State σ) (cur g : FiberId) :
    field ((finish s cur).fibers g) = field (s.fibers g) :=
  setFiber_field field s cur _ (blind _ _ _) g

theorem home_finish (s : State σ) (cur f : FiberId) : home (finish s cur) f = home s f := by
  unfold home
  rw [finish_field FiberObject.m_scheduler (fun _ _ _ => rfl)]
  rfl

theorem Switched.of_finish {s t : State σ} {f next : FiberId} {state : FiberState}
    {position : Position σ} (switched : Switched (finish s f) t f state f next position) :
    Switched s t f state f next position where
  role := switched.role
  main := switched.main
  scheduler := switched.scheduler
  running := switched.running.trans (finish_field FiberObject.m_ctx (fun _ _ _ => rfl) s f next)
  state := switched.state
  states g other := by
    rw [switched.states g other]
    exact congrArg FiberObject.m_state (setFiber_other s _ other)
  kept := switched.kept
  contexts g other := by
    rw [switched.contexts g other]
    exact finish_field FiberObject.m_ctx (fun _ _ _ => rfl) s f g
  callbacks g other := by
    rw [switched.callbacks g other]
    exact congrArg FiberObject.m_cb (setFiber_other s _ other)
  callback := by
    left
    apply switched.callback.elim id
    intro same
    rw [same]
    exact congrArg FiberObject.m_cb (setFiber_same s f _)
  schedulers g := by
    rw [switched.schedulers g]
    exact finish_field FiberObject.m_scheduler (fun _ _ _ => rfl) s f g

theorem segment_effect {s : State σ} {f next : FiberId} {body : Body σ} (this : s.t_fiber = some f)
    (position : s.running.position = .inside f body) (exec : (s.fibers f).m_state = .EXEC)
    (back : home s f = some next) :
    ∃ t, advance s = some t ∧ t.t_fiber = s.t_thread_fiber ∧
      Switched s t f body.rests f next (resumption f body) := by
  rw [advance_inside this position]
  have plain : ∃ t, yield s f (resumption f body) = some t ∧ t.t_fiber = s.t_thread_fiber ∧
      Switched s t f .READY f next (resumption f body) := by
    refine ⟨_,yield_enabled _ back (.inl exec),rfl,?_⟩
    rw [exec]
    exact switch_effect s s.t_thread_fiber f .READY f next _
  have last : ∃ t, yield (finish s f) f (resumption f body) = some t ∧
      t.t_fiber = s.t_thread_fiber ∧ Switched s t f .TERM f next (resumption f body) := by
    have term : ((finish s f).fibers f).m_state = .TERM :=
      congrArg FiberObject.m_state (setFiber_same s f _)
    refine ⟨_,yield_enabled _ ((home_finish s f f).trans back) (.inr term),rfl,?_⟩
    rw [term]
    apply Switched.of_finish
    exact switch_effect (finish s f) s.t_thread_fiber f .TERM f next _
  cases body with
  | run => exact last
  | code code =>
    cases code with
    | returns segment => exact last
    | throws segment => exact plain
    | yields segment rest => exact plain

end Myriel.Contexts

import Myriel.Workers

/-! Which worker executes a fiber. The scan only skips fibers in state `EXEC`, while
a worker holds a fiber from the moment it takes it until its context is saved; the
two differ before `resume` stores `EXEC` and after `yield` stores `READY`. -/
namespace Myriel.Workers

variable {n : Nat} {s t : State n}

/-- From the taking of the fiber to the end of the switch out of it. -/
def Pc.holds (f : FiberId) : Pc → Prop
  | .taken task => task.work = .fiber f
  | .resuming g | .marked g | .inside g | .leaving g _ => g = f
  | .loop | .returned | .idle | .exited => False

instance (f : FiberId) (pc : Pc) : Decidable (pc.holds f) := by
  cases pc <;> unfold Pc.holds <;> infer_instance

/-- Worker `w` is at the switch into a fiber that worker `v` executes or whose
context `v` has not saved yet. -/
def Clash (s : State n) (w v : Fin n) (f : FiberId) : Prop :=
  w ≠ v ∧ s.pc w = .marked f ∧ (s.pc v = .inside f ∨ ∃ position, s.pc v = .leaving f position)

/-- No worker takes a `READY` fiber from the queue that another one holds. -/
def Careful (s : State n) : Action n → Prop
  | .advance w =>
    match s.pc w,taking s w with
    | .loop,some (task,_) =>
      match task.work with
      | .fiber f => (s.fibers f).m_state = .READY → ∀ v, v ≠ w → ¬ (s.pc v).holds f
      | .cb _ => True
    | _,_ => True
  | _ => True

instance (s : State n) (action : Action n) : Decidable (Careful s action) := by
  unfold Careful; repeat' split
  all_goals infer_instance

theorem careful_take (careful : Careful s (.advance w)) (pc : s.pc w = .loop)
    (found : taking s w = some (task,rest)) (work : task.work = .fiber f)
    (ready : (s.fibers f).m_state = .READY) (v : Fin n) (different : v ≠ w) :
    ¬ (s.pc v).holds f := by
  simp only [Careful,pc,found,work] at careful
  exact careful ready v different

/-- A step that breaks the condition takes a `READY` fiber out of another worker's hands. -/
theorem careless_take (careless : ¬ Careful s action) :
    ∃ w task rest f v, action = .advance w ∧ s.pc w = .loop ∧ taking s w = some (task,rest) ∧
      task.work = .fiber f ∧ (s.fibers f).m_state = .READY ∧ v ≠ w ∧ (s.pc v).holds f := by
  unfold Careful at careless
  split at careless
  next w =>
    split at careless
    next task rest pc found =>
      split at careless
      next f work =>
        simp only [Classical.not_imp,not_forall,not_not] at careless
        obtain ⟨ready,v,different,holds⟩ := careless
        exact ⟨w,task,rest,f,v,rfl,pc,found,work,ready,different,holds⟩
      next => exact absurd trivial careless
    next => exact absurd trivial careless
  next => exact absurd trivial careless

/-- Every fiber in the queue or in the hands of a worker exists. -/
structure Known (s : State n) : Prop where
  held : ∀ w f, (s.pc w).holds f → f < s.created
  queued : ∀ task ∈ s.queue.m_tasks, ∀ f, task.work = .fiber f → f < s.created

theorem start_known : Known (start : State n) := by
  constructor <;> simp [start,Pc.holds,TaskQueue.empty]

theorem known_move (known : Known s) (w : Fin n) (after : Pc)
    (pcs : t.pc = Function.update s.pc w after) (grown : s.created ≤ t.created)
    (queue : ∀ task ∈ t.queue.m_tasks, task ∈ s.queue.m_tasks)
    (entered : ∀ f, after.holds f → (s.pc w).holds f ∨ f < t.created) : Known t := by
  constructor
  · intro v f holds
    rw [pcs] at holds
    by_cases same : v = w
    · subst v
      rw [Function.update_self] at holds
      rcases entered f holds with before | created
      · exact (known.held w f before).trans_le grown
      · exact created
    · rw [Function.update_of_ne same] at holds
      exact (known.held v f holds).trans_le grown
  · intro task member f work
    exact (known.queued task (queue task member) f work).trans_le grown

theorem schedule_known (known : Known s) (scheduled : schedule s work thread = some t) :
    Known t := by
  obtain ⟨rfl,exists_⟩ := schedule_some scheduled
  refine ⟨known.held,fun task member f isFiber => ?_⟩
  cases work with
  | none => exact known.queued task member f isFiber
  | some work =>
    rcases List.mem_append.mp member with old | new
    · exact known.queued task old f isFiber
    · rw [List.mem_singleton.mp new] at isFiber
      exact exists_ f (congrArg some isFiber)

theorem effect_known (known : Known s) (effect : Effect s action t) : Known t := by
  cases effect with
  | @take w task rest pc found =>
    obtain ⟨front,back,split,rfl,_⟩ := TaskQueue.take_some found
    refine known_move known w _ rfl (Nat.le_refl _) ?_ ?_
    · intro other member
      rw [split]
      rcases List.mem_append.mp member with before | behind
      · exact List.mem_append_left _ before
      · exact List.mem_append_right _ (List.mem_cons_of_mem _ behind)
    · intro f holds
      exact .inr (known.queued task (by simp [split]) f holds)
  | @callback w =>
    exact known_move known w _ rfl (Nat.le_succ _) (fun _ => id)
      (fun f holds => .inr (by simp only [Pc.holds] at holds; simp [setPc,setFiber,← holds]))
  | @resume w _ f pc work =>
    exact known_move known w _ rfl (Nat.le_refl _) (fun _ => id)
      (fun g holds => .inl (by rw [pc]; exact work.trans (congrArg Work.fiber holds)))
  | @exec w _ pc | @switchIn w _ pc | @yields w _ _ pc | @ends w _ pc =>
    exact known_move known w _ rfl (Nat.le_refl _) (fun _ => id)
      (fun g holds => .inl (by rw [pc]; exact holds))
  | @none w | @switchOut w | @finished w | @exit w | @idleEnds w | @idleYields w =>
    exact known_move known w _ rfl (Nat.le_refl _) (fun _ => id)
      (fun g holds => holds.elim)
  | runningSchedules _ scheduled | schedules scheduled => exact schedule_known known scheduled
  | runningCreates | creates =>
    exact ⟨fun w f holds => (known.held w f holds).trans (Nat.lt_succ_self _),
      fun task member f work => (known.queued task member f work).trans (Nat.lt_succ_self _)⟩
  | abort | stops => exact ⟨known.held,known.queued⟩

/-- The state a fiber must be in while a worker is inside `resume` or executes it. -/
def Pc.Coherent (state : FiberId → FiberState) : Pc → Prop
  | .resuming f => state f = .READY
  | .marked f | .inside f => state f = .EXEC
  | _ => True

def states (s : State n) (f : FiberId) : FiberState := (s.fibers f).m_state

theorem coherent_congr {pc : Pc} (same : ∀ f, pc.holds f → state f = state' f)
    (coherent : pc.Coherent state) : pc.Coherent state' := by
  cases pc with
  | resuming f | marked f | inside f => exact (same f rfl).symm.trans coherent
  | _ => trivial

/-- Two workers hold a fiber only when it is finished, and then neither can enter it. -/
structure Owned (s : State n) : Prop where
  known : Known s
  coherent : ∀ w, (s.pc w).Coherent (states s)
  shared : ∀ v w f, v ≠ w → (s.pc v).holds f → (s.pc w).holds f → states s f = .TERM

theorem start_owned : Owned (start : State n) where
  known := start_known
  coherent := fun _ => trivial
  shared := fun _ _ _ _ holds => holds.elim

theorem Owned.no_clash (owned : Owned s) : ¬ Clash s w v f := by
  rintro ⟨different,entering,executing⟩
  have exec : states s f = .EXEC := by simpa [entering,Pc.Coherent] using owned.coherent w
  have held : (s.pc v).holds f := by rcases executing with pc | ⟨_,pc⟩ <;> rw [pc] <;> rfl
  have term := owned.shared w v f different (by rw [entering]; rfl) held
  rw [exec] at term
  contradiction

theorem owned_move (owned : Owned s) (known : Known t) (w : Fin n) (after : Pc)
    (pcs : t.pc = Function.update s.pc w after)
    (others : ∀ v f, v ≠ w → (s.pc v).holds f → states t f = states s f)
    (coherent : after.Coherent (states t))
    (alone : ∀ v f, v ≠ w → after.holds f → (s.pc v).holds f → states t f = .TERM) : Owned t := by
  have here : t.pc w = after := by rw [pcs,Function.update_self]
  have there (v : Fin n) (different : v ≠ w) : t.pc v = s.pc v := by
    rw [pcs,Function.update_of_ne different]
  refine ⟨known,?_,?_⟩
  · intro v
    by_cases same : v = w
    · rw [same,here]; exact coherent
    · rw [there v same]
      exact coherent_congr (fun f holds => (others v f same holds).symm) (owned.coherent v)
  · intro u v f different first second
    by_cases uw : u = w
    · have vw : v ≠ w := fun same => different (uw.trans same.symm)
      rw [uw,here] at first
      rw [there v vw] at second
      exact alone v f vw first second
    · rw [there u uw] at first
      by_cases vw : v = w
      · rw [vw,here] at second
        exact alone u f uw second first
      · rw [there v vw] at second
        exact (others u f uw first).trans (owned.shared u v f different first second)

theorem Owned.sole (owned : Owned s) (holds : (s.pc w).holds f) (live : states s f ≠ .TERM)
    (v : Fin n) (different : v ≠ w) : ¬ (s.pc v).holds f :=
  fun other => live (owned.shared v w f different other holds)

theorem Owned.alone (owned : Owned s) {after : Pc} (kept : ∀ f, after.holds f → (s.pc w).holds f)
    (v : Fin n) (f : FiberId) (different : v ≠ w) (holds : after.holds f)
    (other : (s.pc v).holds f) : states s f = .TERM :=
  owned.shared v w f different other (kept f holds)

theorem states_created (known : Known s) (fiber : Fiber Unit) (holds : (s.pc v).holds f) :
    states (setFiber s s.created fiber) f = states s f := by
  have older := known.held v f holds
  simp [states,setFiber,Function.update_of_ne (Nat.ne_of_lt older)]

theorem states_other (fiber : Fiber Unit) (different : g ≠ f) :
    states (setFiber s f fiber) g = states s g := by
  simp [states,setFiber,Function.update_of_ne different]

theorem states_self (fiber : Fiber Unit) : states (setFiber s f fiber) f = fiber.m_state := by
  simp [states,setFiber]

theorem owned_update (owned : Owned s) (holds : (s.pc w).holds f) (live : states s f ≠ .TERM)
    (fiber : Fiber Unit) (after : Pc) (kept : ∀ g, after.holds g → g = f)
    (coherent : after.Coherent (states (setFiber s f fiber)))
    (known : Known (setPc (setFiber s f fiber) w after)) :
    Owned (setPc (setFiber s f fiber) w after) := by
  have sole := owned.sole holds live
  refine owned_move owned known w after rfl ?_ coherent ?_
  · intro v g different other
    exact states_other fiber (fun same => sole v different (same ▸ other))
  · intro v g different mine other
    exact absurd (kept g mine ▸ other) (sole v different)

theorem effect_owned (owned : Owned s) (careful : Careful s action)
    (effect : Effect s action t) : Owned t := by
  have known := effect_known owned.known effect
  cases effect with
  | @take w task rest pc found =>
    obtain ⟨_,_,_,_,_,_,free⟩ := TaskQueue.take_some found
    refine owned_move owned known w _ rfl (fun _ _ _ _ => rfl) trivial ?_
    intro v f different (work : task.work = .fiber f) holds
    -- the scan has excluded `EXEC`, and `READY` would be careless
    change states s f = .TERM
    cases state : states s f with
    | READY => exact absurd holds (careful_take careful pc found work state v different)
    | EXEC =>
      have state : (s.fibers f).m_state = .EXEC := state
      simp [TaskQueue.running,work,state] at free
    | TERM => rfl
  | @resume w task f pc work ready =>
    have kept : ∀ g, (Pc.resuming f).holds g → (s.pc w).holds g := by
      rintro g rfl; rw [pc]; exact work
    exact owned_move owned known w _ rfl (fun _ _ _ _ => rfl) ready (owned.alone kept)
  | @callback w _ cb =>
    refine owned_move owned known w _ rfl ?_ ?_ ?_
    · intro v f _ holds
      exact states_created owned.known _ holds
    · exact states_self (s := s) (f := s.created) (Fiber.create cb)
    · rintro v _ _ rfl other
      exact absurd (owned.known.held v _ other) (Nat.lt_irrefl _)
  | @exec w f pc =>
    have ready : states s f = .READY := by simpa [pc,Pc.Coherent] using owned.coherent w
    exact owned_update owned (by rw [pc]; rfl) (by simp [ready]) _ _ (fun _ same => same.symm)
      (states_self _) known
  | @switchIn w f pc =>
    have exec : states s f = .EXEC := by simpa [pc,Pc.Coherent] using owned.coherent w
    have kept : ∀ g, (Pc.inside f).holds g → (s.pc w).holds g := by
      rintro g rfl; rw [pc]; rfl
    exact owned_move owned known w _ rfl (fun _ _ _ _ => rfl) exec (owned.alone kept)
  | @switchOut w f position pc =>
    refine owned_move owned known w _ rfl ?_ trivial (fun _ _ _ holds => holds.elim)
    intro v g _ _
    by_cases same : g = f
    · subst g; exact states_self _
    · exact states_other _ same
  | @yields w f _ pc position | @ends w f pc =>
    have exec : states s f = .EXEC := by simpa [pc,Pc.Coherent] using owned.coherent w
    exact owned_update owned (by rw [pc]; rfl) (by simp [exec]) _ _ (fun _ same => same.symm)
      trivial known
  | @none w | @finished w | @exit w | @idleEnds w | @idleYields w =>
    exact owned_move owned known w _ rfl (fun _ _ _ _ => rfl) trivial
      (fun _ _ _ holds => holds.elim)
  | runningSchedules _ scheduled | schedules scheduled =>
    obtain ⟨rfl,_⟩ := schedule_some scheduled
    exact ⟨known,owned.coherent,owned.shared⟩
  | runningCreates | creates =>
    refine ⟨known,fun w => ?_,fun v w f different first second => ?_⟩
    · exact coherent_congr (fun f holds => (states_created owned.known _ holds).symm) (owned.coherent w)
    · exact (states_created owned.known _ first).trans (owned.shared v w f different first second)
  | abort | stops => exact ⟨known,owned.coherent,owned.shared⟩

theorem run_owned (owned : Owned s)
    (careful : Transition.Along step Careful s actions)
    (ran : Transition.run step s actions = some t) : Owned t :=
  Transition.along_invariant step Careful Owned
    (fun _ _ _ owned careful taken => effect_owned owned careful (step_effect taken).2)
    owned careful ran

theorem step_resume (live : s.aborted = false) (pc : s.pc w = .taken task)
    (work : task.work = .fiber f) (ready : (s.fibers f).m_state = .READY) :
    step s (.advance w) = some (setPc s w (.resuming f)) := by
  simp [step,live,advance,pc,work,(Fiber.resumable_iff _).mpr ready]

theorem step_exec (live : s.aborted = false) (pc : s.pc w = .resuming f) :
    step s (.advance w) = some (setPc (setFiber s f (s.fibers f).setExec) w (.marked f)) := by
  simp [step,live,advance,pc]

theorem step_switchIn (live : s.aborted = false) (pc : s.pc w = .marked f) :
    step s (.advance w) = some (setPc s w (.inside f)) := by
  simp [step,live,advance,pc]

/-- Two workers behind the assertion of `resume` on one fiber both enter it. -/
theorem resuming_clash (live : s.aborted = false) (different : v ≠ w)
    (first : s.pc v = .resuming f) (second : s.pc w = .resuming f) :
    ∃ t, Transition.run step s [.advance v,.advance v,.advance w] = some t ∧ Clash t w v f := by
  have one := step_exec live first
  have two := step_switchIn (s := setPc (setFiber s f (s.fibers f).setExec) v (.marked f))
    (w := v) (f := f) live (by simp [setPc])
  have three := step_exec (w := w) (f := f)
    (s := setPc (setPc (setFiber s f (s.fibers f).setExec) v (.marked f)) v (.inside f))
    live (by simp [setPc,setFiber,different.symm,second])
  refine ⟨_,by simp [Transition.run_cons,one,two,three]; rfl,different.symm,by simp [setPc],.inl ?_⟩
  simp [setPc,setFiber,different]

/-- Whichever way the other worker holds the fiber, both can come to enter it. -/
theorem careless_clash (owned : Owned s) (ran : step s action = some t)
    (careless : ¬ Careful s action) :
    ∃ more u w v f, Transition.run step t more = some u ∧ Clash u w v f := by
  obtain ⟨w,task,rest,f,v,rfl,pc,found,work,ready,different,holds⟩ := careless_take careless
  have live := (step_effect ran).1
  have next : t = setPc { s with
      queue := rest, m_activeThreadCount := s.m_activeThreadCount + 1 } w (.taken task) := by
    simpa [step,live,advance,pc,found] using ran.symm
  have mine : t.pc w = .taken task := by simp [next,setPc]
  have theirs : t.pc v = s.pc v := by simp [next,setPc,different]
  have fresh : (t.fibers f).m_state = .READY := by rw [next]; exact ready
  have alive : t.aborted = false := by rw [next]; exact live
  have one := step_resume alive mine work fresh
  cases position : s.pc v with
  | taken other =>
    have sameFiber : other.work = .fiber f := by rw [position] at holds; exact holds
    have two := step_resume (s := setPc t w (.resuming f)) (w := v) alive
      (by simpa [setPc,different,position] using theirs) sameFiber fresh
    obtain ⟨u,path,clash⟩ := resuming_clash
      (s := setPc (setPc t w (.resuming f)) v (.resuming f)) (f := f) alive different
      (by simp [setPc]) (by simp [setPc,different.symm])
    exact ⟨[.advance w,.advance v] ++ _,u,w,v,f,(Transition.run_append_some step).mpr
      ⟨_,by simp [Transition.run_cons,one,two],path⟩,clash⟩
  | resuming g =>
    have same : g = f := by rw [position] at holds; exact holds
    subst g
    obtain ⟨u,path,clash⟩ := resuming_clash (s := setPc t w (.resuming f)) (f := f) alive different
      (by simpa [setPc,different,position] using theirs) (by simp [setPc])
    exact ⟨[.advance w] ++ _,u,w,v,f,(Transition.run_append_some step).mpr
      ⟨_,by simp [Transition.run_cons,one],path⟩,clash⟩
  | leaving g saved =>
    have same : g = f := by rw [position] at holds; exact holds
    subst g
    have two := step_exec (s := setPc t w (.resuming f)) (w := w) (f := f) alive (by simp [setPc])
    refine ⟨[.advance w,.advance w],_,w,v,f,by simp [Transition.run_cons,one,two]; rfl,
      different.symm,by simp [setPc],.inr ⟨saved,?_⟩⟩
    simpa [setPc,setFiber,different,position] using theirs
  | marked g | inside g =>
    -- such a fiber is `EXEC` and has not been taken
    have same : g = f := by rw [position] at holds; exact holds
    have exec := owned.coherent v
    rw [position] at exec
    have clear : states s g = .EXEC := exec
    rw [same,states,ready] at clear
    contradiction
  | loop | returned | idle | exited => simp [position,Pc.holds] at holds

/-- In a run whose steps are careful no worker comes to switch into a fiber that
another one executes or has not saved yet. The condition cannot be weakened: any
step that breaks it has a continuation that ends in such a switch. -/
theorem fiber_exclusive (actions : List (Action n))
    (ran : Transition.run step start actions = some s)
    (careful : Transition.Along step Careful start actions) :
    (∀ w v f, ¬ Clash s w v f) ∧
    ∀ action t, step s action = some t → ¬ Careful s action →
      ∃ more u w v f, Transition.run step t more = some u ∧ Clash u w v f := by
  have owned := run_owned start_owned careful ran
  exact ⟨fun w v f => owned.no_clash,fun action t taken => careless_clash owned taken⟩

def yieldingTask : List (Action 2) :=
  [.schedule (some (.cb ())) none,.advance 0,.advance 0,.advance 0,.advance 0,
    .perform 0 (.schedule (some (.fiber 0)) none),.perform 0 .yield]

/-- Worker 1 takes the fiber after worker 0 has saved it. -/
theorem fiber_exclusive_handover : ∃ s,
    Transition.run step start (yieldingTask ++ [.advance 0,.advance 1,.advance 1,.advance 1]) = some s ∧
    s.pc 1 = .marked 0 ∧ ∀ v, ¬ Clash s 1 v 0 := by
  have ran : ∃ s, Transition.run step start
      (yieldingTask ++ [.advance 0,.advance 1,.advance 1,.advance 1]) = some s ∧ s.pc 1 = .marked 0 :=
    ⟨_,rfl,rfl⟩
  obtain ⟨s,ran,pc⟩ := ran
  exact ⟨s,ran,pc,fun v => (fiber_exclusive _ ran (by decide)).1 1 v 0⟩

/-- Worker 1 takes the fiber between the two halves of `yield` and switches into the
context that worker 0 is still to save. -/
theorem fiber_switched_unsaved : ∃ s t,
    Transition.run step start (yieldingTask ++ [.advance 1,.advance 1,.advance 1]) = some s ∧
    Clash s 1 0 0 ∧ step s (.advance 1) = some t ∧
    t.pc 1 = .inside 0 ∧ t.pc 0 = .leaving 0 (.suspended ()) :=
  ⟨_,_,rfl,⟨by decide,rfl,.inr ⟨_,rfl⟩⟩,rfl,rfl,rfl⟩

end Myriel.Workers

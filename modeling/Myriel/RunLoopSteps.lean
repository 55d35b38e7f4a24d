import Myriel.RunStepsWorkers

/-! The runs of the loop in which nobody else schedules are the ones that go pass by
pass, so what is known of `RunLoop.loop` is known of them, and each is a run of one
worker. -/
namespace Myriel.RunSteps

open RunLoop (Script setFiber fail schedule leave scheduleAll)

def within (bound : Nat) : Script → Bool
  | .returns | .throws => true
  | .yield rest | .scheduleThis _ rest => within bound rest
  | .schedule cb _ rest => within bound cb && within bound rest
  | .scheduleFiber f _ rest => decide (f < bound) && within bound rest

def workWithin (bound : Nat) : Work Script → Bool
  | .fiber f => f < bound
  | .cb cb => within bound cb

theorem within_mono (more : bound ≤ bound') (inside : within bound script = true) :
    within bound' script = true := by
  induction script with
  | returns | throws => rfl
  | yield rest ih | scheduleThis thread rest ih => exact ih inside
  | schedule cb thread rest first ih =>
    simp only [within,Bool.and_eq_true] at inside ⊢
    exact ⟨first inside.1,ih inside.2⟩
  | scheduleFiber f thread rest ih =>
    simp only [within,Bool.and_eq_true,decide_eq_true_iff] at inside ⊢
    exact ⟨inside.1.trans_le more,ih inside.2⟩

theorem workWithin_mono (more : bound ≤ bound') (inside : workWithin bound work = true) :
    workWithin bound' work = true := by
  cases work with
  | fiber f => exact decide_eq_true ((of_decide_eq_true inside).trans_le more)
  | cb cb => exact within_mono more inside

theorem request_within (inside : within bound script = true) (older : f < bound)
    (requested : request f script = some ((work,thread),rest)) :
    workWithin bound work = true ∧ within bound rest = true := by
  cases script with
  | returns | throws | yield => contradiction
  | schedule cb pin next =>
    cases requested
    exact (Bool.and_eq_true _ _).mp inside
  | scheduleFiber g pin next =>
    cases requested
    exact (Bool.and_eq_true _ _).mp inside
  | scheduleThis pin next =>
    cases requested
    exact ⟨decide_eq_true older,inside⟩

theorem workWithin_known (inside : workWithin s.created work = true) : known s (some work) = true := by
  cases work with
  | fiber f => exact inside
  | cb cb => rfl

/-- No script names a fiber that does not exist. -/
structure Closed (s : State) : Prop where
  tasks : ∀ task ∈ s.loop.queue.m_tasks, workWithin s.loop.created task.work = true
  fibers : ∀ f script, (s.loop.fibers f).m_ctx.script = some script → within s.loop.created script = true
  current : ∀ r, s.current = some r → within s.loop.created r.script = true

theorem leave_script (inside : within bound script = true)
    (left : (leave script fiber).m_ctx.script = some rest) : within bound rest = true := by
  induction script with
  | returns | throws => cases left
  | yield next => cases left; exact inside
  | schedule cb thread next _ ih =>
    exact ih ((Bool.and_eq_true _ _).mp inside).2 left
  | scheduleFiber g thread next ih =>
    exact ih ((Bool.and_eq_true _ _).mp inside).2 left
  | scheduleThis thread next ih => exact ih inside left

theorem Closed.taken (closed : Closed s) (found : taking self s.loop = some (task,rest)) :
    workWithin s.loop.created task.work = true ∧
      ∀ other ∈ rest.m_tasks, workWithin s.loop.created other.work = true :=
  taking_all (workWithin _ · = true) closed.tasks found

theorem Closed.entered (closed : Closed s) (f : FiberId) (rest : TaskQueue Script) (g : FiberId) (script : Script)
    (remains : ((setFiber (counted s.loop rest) f (s.loop.fibers f).setExec).fibers g).m_ctx.script = some script) :
    within s.loop.created script = true := by
  by_cases same : g = f
  · subst g
    exact closed.fibers f script (by simpa [setFiber,counted,Fiber.setExec] using remains)
  · exact closed.fibers g script (by simpa [setFiber,counted,same] using remains)

theorem pass_closed (settled : Settled s) (closed : Closed s) (head : s.current = none) :
    Closed (pass self s.loop) := by
  have dropped : s.loop.cb_fiber = none := by simp [settled.callback,head]
  have effect := pass_effect self dropped
  generalize pass self s.loop = t at effect ⊢
  cases effect with
  | @resumes task rest f script found work ready segment =>
    refine ⟨(closed.taken found).2,closed.entered f rest,?_⟩
    rintro r ⟨⟩
    exact closed.fibers f script segment
  | @callback task rest cb found work =>
    obtain ⟨first,others⟩ := closed.taken found
    have body : within (s.loop.created + 1) cb = true := by
      rw [work] at first
      exact within_mono (Nat.le_succ _) first
    refine ⟨fun task member => workWithin_mono (Nat.le_succ _) (others task member),?_,?_⟩
    · intro g script remains
      by_cases same : g = s.loop.created
      · subst g
        have : cb = script := by simpa [setFiber,Fiber.setExec,Fiber.create,Context.script] using remains
        exact this ▸ body
      · refine within_mono (Nat.le_succ _) (closed.fibers g script ?_)
        simpa [setFiber,made,counted,same] using remains
    · rintro r ⟨⟩
      exact body
  | @ended task rest f found => exact ⟨(closed.taken found).2,closed.entered f rest,by simp⟩
  | refused found => exact ⟨(closed.taken found).2,closed.fibers,by simp⟩
  | exits | idleEnds | idleYields => exact ⟨closed.tasks,closed.fibers,by simp⟩

theorem back_closed (closed : Closed s) (running : s.current = some r) : Closed (back s.loop r) := by
  obtain ⟨left,same,eq⟩ := back_cases s.loop r
  have after : Closed ⟨left,none⟩ := by
    subst left
    refine ⟨closed.tasks,?_,by simp⟩
    intro g script remains
    by_cases here : g = r.fiber
    · subst g
      exact leave_script (closed.current r running) (by simpa using remains)
    · exact closed.fibers g script (by simpa [here] using remains)
  rcases same with same | lost
  · rw [same]; exact after
  · rw [lost]; exact ⟨after.tasks,after.fibers,by simp⟩

def Own : Action → Prop
  | .pass | .call => True
  | .schedule _ _ | .stop => False

theorem step_closed (settled : Settled s) (closed : Closed s) (own : Own action) (ran : step self s action = some t) :
    Closed t := by
  cases (step_effect ran).2 with
  | pass head => exact pass_closed settled closed head
  | outside | stops => exact own.elim
  | @calls r work thread rest running requested =>
    obtain ⟨inside,remains⟩ :=
      request_within (closed.current r running) (settled.created r running) requested
    refine ⟨schedule_all (workWithin _ · = true) closed.tasks ?_,closed.fibers,?_⟩
    · rintro _ ⟨⟩; exact inside
    · rintro _ ⟨⟩; exact remains
  | leaves running => exact back_closed closed running

/-! ### From the passes to the steps -/

theorem live_failed {s : RunLoop.State} (live : s.status = .running) : failed ⟨s,current⟩ = false := by
  simp [failed,live]

theorem call_requested {s : RunLoop.State} (live : s.status = .running)
    (requested : request f script = some ((work,thread),rest)) (made : known s (some work) = true) :
    step self ⟨s,some ⟨f,script,callback⟩⟩ .call =
      some ⟨schedule s (some work) thread,some ⟨f,rest,callback⟩⟩ := by
  simp [step,live_failed live,call,requested,made]

theorem call_back {s : RunLoop.State} (live : s.status = .running) (requested : request f script = none) :
    step self ⟨s,some ⟨f,script,callback⟩⟩ .call = some (back s ⟨f,script,callback⟩) := by
  simp [step,live_failed live,call,requested]

/-- The running callback gets to its next switch when nobody else schedules. -/
def Switches (self : ThreadId) (s : RunLoop.State) (r : Running) : Prop :=
  ∃ calls t, Transition.run (step self) ⟨s,some r⟩ (List.replicate calls .call) = some ⟨t,none⟩

theorem switches_later {s : RunLoop.State} (live : s.status = .running) (inside : within s.created script = true)
    (older : f < s.created) (requested : request f script = some ((work,thread),rest))
    (later : ∀ s : RunLoop.State, s.status = .running → within s.created rest = true → f < s.created →
      Switches self s ⟨f,rest,callback⟩) : Switches self s ⟨f,script,callback⟩ := by
  obtain ⟨known,remains⟩ := request_within inside older requested
  obtain ⟨calls,t,ends⟩ := later (schedule s (some work) thread) live remains older
  refine ⟨calls + 1,t,(Transition.run_cons_some _).mpr ⟨_,?_,ends⟩⟩
  exact call_requested live requested (workWithin_known known)

theorem switches {s : RunLoop.State} (live : s.status = .running) (inside : within s.created script = true)
    (older : f < s.created) : Switches self s ⟨f,script,callback⟩ := by
  induction script generalizing s with
  | returns | throws | yield =>
    exact ⟨1,_,(Transition.run_cons_some _).mpr ⟨_,call_back live rfl,rfl⟩⟩
  | schedule _ _ _ _ ih | scheduleFiber _ _ _ ih | scheduleThis _ _ ih =>
    exact switches_later live inside older rfl fun s live inside older => ih live inside older

/-- A pass and the calls of its segment, one after the other, do what `iterate` does at once. -/
theorem iterate_steps (self : ThreadId) {s : RunLoop.State} (settled : Settled ⟨s,none⟩) (closed : Closed ⟨s,none⟩)
    (live : s.status = .running) : ∃ calls,
    Transition.run (step self) ⟨s,none⟩ (.pass :: List.replicate calls .call) = some ⟨RunLoop.iterate self s,none⟩ := by
  have dropped : s.cb_fiber = none := settled.callback
  have first : step self ⟨s,none⟩ .pass = some (pass self s) := by simp [step,live_failed live,live]
  have ends : ∃ calls t, Transition.run (step self) (pass self s) (List.replicate calls .call) = some ⟨t,none⟩ := by
    have after : failed (pass self s) = true ∨ Settled (pass self s) := pass_settled settled rfl
    have named : Closed (pass self s) := pass_closed settled closed rfl
    have effect := pass_effect self dropped
    generalize pass self s = middle at effect after named ⊢
    cases effect with
    | resumes | callback =>
      have settled := after.resolve_left (by simp [failed,setFiber,made,counted,live])
      exact switches live (named.current _ rfl) (settled.created _ rfl)
    | ended | refused | exits | idleEnds | idleYields => exact ⟨0,_,rfl⟩
  obtain ⟨calls,t,ends⟩ := ends
  have ran := (Transition.run_cons_some _).mpr ⟨_,first,ends⟩
  rw [pass_calls_iterate dropped ran] at ran
  exact ⟨calls,ran⟩

theorem own_steps (calls : Nat) : ∀ action ∈ Action.pass :: List.replicate calls .call, Own action := by
  intro action member
  rcases List.mem_cons.mp member with rfl | later
  · trivial
  · rw [List.eq_of_mem_replicate later]; trivial

/-- What holds between the steps of the loop while nobody else schedules. -/
def Undisturbed (s : State) : Prop := failed s = true ∨ Settled s ∧ Closed s

theorem step_undisturbed (sound : Undisturbed s) (own : Own action) (ran : step self s action = some t) :
    Undisturbed t := by
  obtain ⟨settled,closed⟩ := sound.resolve_left (by simp [(step_effect ran).1])
  exact (step_settled settled ran).imp_right fun after => ⟨after,step_closed settled closed own ran⟩

theorem run_undisturbed (sound : Undisturbed s) (own : ∀ action ∈ actions, Own action)
    (ran : Transition.run (step self) s actions = some t) : Undisturbed t :=
  Transition.along_invariant (step self) (fun _ => Own) Undisturbed (fun _ _ _ => step_undisturbed) sound
    (Transition.along_forall (step self) _ (fun action member _ => own action member) s) ran

/-- However many passes the loop makes at once, its steps make them one after the other. -/
theorem loop_steps (self : ThreadId) {s : RunLoop.State} (sound : Undisturbed ⟨s,none⟩) (passes : Nat) : ∃ actions,
    (∀ action ∈ actions, Own action) ∧
      Transition.run (step self) ⟨s,none⟩ actions = some ⟨RunLoop.loop self passes s,none⟩ := by
  induction passes generalizing s with
  | zero => exact ⟨[],by simp,rfl⟩
  | succ passes ih =>
    by_cases live : s.status = .running
    · obtain ⟨settled,closed⟩ := sound.resolve_left (by simp [live_failed live])
      obtain ⟨calls,first⟩ := iterate_steps self settled closed live
      obtain ⟨actions,own,later⟩ := ih (run_undisturbed sound (own_steps calls) first)
      rw [RunLoop.loop_succ live]
      refine ⟨_ ++ actions,?_,(Transition.run_append_some _).mpr ⟨_,first,later⟩⟩
      exact List.forall_mem_append.mpr ⟨own_steps calls,own⟩
    · rw [RunLoop.loop_stopped live]
      exact ⟨[],by simp,rfl⟩

/-! ### From the steps to the passes -/

/-- The steps so far are a number of whole passes and at most one that has begun. -/
def Paced (self : ThreadId) (s : RunLoop.State) (t : State) : Prop :=
  ∃ passes, t = ⟨RunLoop.loop self passes s,none⟩ ∨
    (RunLoop.loop self passes s).status = .running ∧ (RunLoop.loop self passes s).cb_fiber = none ∧
      ∃ calls, Transition.run (step self) ⟨RunLoop.loop self passes s,none⟩
        (.pass :: List.replicate calls .call) = some t

theorem Paced.head (paced : Paced self s t) (head : t.current = none) :
    ∃ passes, t = ⟨RunLoop.loop self passes s,none⟩ := by
  obtain ⟨passes,same | ⟨live,dropped,calls,ran⟩⟩ := paced
  · exact ⟨passes,same⟩
  · obtain ⟨t,_⟩ := t
    cases head
    refine ⟨passes + 1,?_⟩
    rw [pass_calls_iterate dropped ran,RunLoop.loop_add,RunLoop.loop_succ live,RunLoop.loop]

theorem step_paced (settled : Settled t) (paced : Paced self s t) (own : Own action)
    (ran : step self t action = some u) : Paced self s u := by
  cases (step_effect ran).2 with
  | outside | stops => exact own.elim
  | pass head live =>
    obtain ⟨passes,rfl⟩ := paced.head head
    exact ⟨passes,.inr ⟨live,settled.callback,0,(Transition.run_cons_some _).mpr ⟨_,ran,rfl⟩⟩⟩
  | calls running | leaves running =>
    obtain ⟨passes,rfl | ⟨live,dropped,calls,before⟩⟩ := paced
    · contradiction
    · refine ⟨passes,.inr ⟨live,dropped,calls + 1,?_⟩⟩
      rw [List.replicate_succ',← List.cons_append]
      exact (Transition.run_concat_some _).mpr ⟨_,before,ran⟩

theorem run_paced {s : RunLoop.State} (sound : Undisturbed ⟨s,none⟩) (own : ∀ action ∈ actions, Own action)
    (ran : Transition.run (step self) ⟨s,none⟩ actions = some t) : Paced self s t := by
  have whole : Undisturbed t ∧ Paced self s t := by
    refine Transition.along_invariant (step self) (fun _ => Own) (fun t => Undisturbed t ∧ Paced self s t) ?_
      ⟨sound,0,.inl rfl⟩ (Transition.along_forall (step self) _ (fun action member _ => own action member) _) ran
    intro t action u before own ran
    have settled := (before.1.resolve_left (by simp [(step_effect ran).1])).1
    exact ⟨step_undisturbed before.1 own ran,step_paced settled before.2 own ran⟩
  exact whole.2

/-! ### The start -/

/-- What others have called before the loop starts. -/
def prepare (tasks : List (Work Script × Option ThreadId)) (m_stopping : Bool) : List Action :=
  (tasks.map fun task => .schedule (some task.1) task.2) ++ if m_stopping then [.stop] else []

theorem run_schedules {s : RunLoop.State} (live : s.status = .running)
    (known : ∀ task ∈ tasks, workWithin s.created task.1 = true) :
    Transition.run (step self) ⟨s,none⟩ (tasks.map fun task => .schedule (some task.1) task.2) =
      some ⟨{ s with queue := scheduleAll s.queue tasks },none⟩ := by
  induction tasks generalizing s with
  | nil => rfl
  | cons task tasks ih =>
    have first : step self ⟨s,none⟩ (.schedule (some task.1) task.2) =
        some ⟨schedule s (some task.1) task.2,none⟩ := by
      simp [step,live_failed live,workWithin_known (known task (by simp))]
    rw [List.map_cons,Transition.run_cons,first,Option.bind_some]
    exact ih live fun other member => known other (by simp [member])

theorem run_prepare (known : ∀ task ∈ tasks, workWithin bodies.length task.1 = true) :
    Transition.run (step self) (start bodies held) (prepare tasks m_stopping) =
      some ⟨RunLoop.start bodies tasks held m_stopping,none⟩ := by
  refine (Transition.run_append_some _).mpr ⟨_,run_schedules rfl known,?_⟩
  cases m_stopping <;> rfl

theorem start_closed (scripts : ∀ body ∈ bodies, within bodies.length body = true)
    (known : ∀ task ∈ tasks, workWithin bodies.length task.1 = true) :
    Closed ⟨RunLoop.start bodies tasks held m_stopping,none⟩ where
  tasks := by
    intro task member
    have entry : (task.work,task.thread) ∈ RunLoop.entries (scheduleAll .empty tasks) :=
      List.mem_map_of_mem member
    rw [RunLoop.entries_scheduleAll] at entry
    exact known _ (by simpa [RunLoop.entries,TaskQueue.empty] using entry)
  fibers := by
    rintro f script ⟨⟩
    by_cases old : f < bodies.length
    · simpa [old,RunLoop.start] using scripts bodies[f] (List.getElem_mem old)
    · simp [old,within]
  current := by simp

/-- `loop` goes pass by pass; its states are the ones of the steps at the head of the loop, when
nobody schedules after the start. Each that has failed in no assertion is one of a worker. -/
theorem loop_undisturbed (self : ThreadId) (bodies : List Script) (tasks : List (Work Script × Option ThreadId))
    (held : FiberId → Bool) (m_stopping : Bool) (scripts : ∀ body ∈ bodies, within bodies.length body = true)
    (known : ∀ task ∈ tasks, workWithin bodies.length task.1 = true) (t : RunLoop.State) :
    ((∃ passes, RunLoop.loop self passes (RunLoop.start bodies tasks held m_stopping) = t) ↔
      ∃ actions, (∀ action ∈ actions, Own action) ∧
        Transition.run (step self) (start bodies held) (prepare tasks m_stopping ++ actions) = some ⟨t,none⟩) ∧
    ((∃ passes, RunLoop.loop self passes (RunLoop.start bodies tasks held m_stopping) = t) →
      (∀ assertion, t.status ≠ .failed assertion) →
      ∃ more, Transition.run Workers.step Workers.start more = some (view self ⟨t,none⟩)) := by
  have began : Transition.run (step self) (start bodies held) (prepare tasks m_stopping) =
      some ⟨RunLoop.start bodies tasks held m_stopping,none⟩ := run_prepare known
  have sound : Undisturbed ⟨RunLoop.start bodies tasks held m_stopping,none⟩ :=
    (reachable_settled ⟨_,began⟩).imp_right fun settled => ⟨settled,start_closed scripts known⟩
  refine ⟨⟨?_,?_⟩,?_⟩
  · rintro ⟨passes,rfl⟩
    obtain ⟨actions,own,ran⟩ := loop_steps self sound passes
    exact ⟨actions,own,(Transition.run_append_some _).mpr ⟨_,began,ran⟩⟩
  · rintro ⟨actions,own,ran⟩
    obtain ⟨_,first,later⟩ := (Transition.run_append_some _).mp ran
    cases began.symm.trans first
    obtain ⟨passes,same⟩ := (run_paced sound own later).head rfl
    exact ⟨passes,(congrArg State.loop same).symm⟩
  · rintro ⟨passes,rfl⟩ alive
    obtain ⟨actions,_,ran⟩ := loop_steps self sound passes
    refine live_simulated ((Transition.run_append_some _).mpr ⟨_,began,ran⟩) ?_
    cases status : (RunLoop.loop self passes (RunLoop.start bodies tasks held m_stopping)).status with
    | failed assertion => exact absurd status (alive assertion)
    | running | exited => simp [failed,status]

/-- A fiber that schedules itself once: the loop needs two passes for it, and two to stop. -/
theorem loop_undisturbed_again : ∃ t : RunLoop.State, t.status = .exited ∧
    (∃ actions, (∀ action ∈ actions, Own action) ∧
      Transition.run (step 7) (start [.scheduleThis none (.yield .returns)] fun _ => true)
        (prepare [(.fiber 0,some 7)] true ++ actions) = some ⟨t,none⟩) ∧
    ∃ more, Transition.run Workers.step Workers.start more = some (view 7 ⟨t,none⟩) := by
  have exits : ∃ t, RunLoop.loop 7 4 (RunLoop.start [.scheduleThis none (.yield .returns)] [(.fiber 0,some 7)]
      (fun _ => true) true) = t ∧ t.status = .exited := ⟨_,rfl,rfl⟩
  obtain ⟨t,passes,exited⟩ := exits
  have both := loop_undisturbed 7 [.scheduleThis none (.yield .returns)] [(.fiber 0,some 7)] (fun _ => true) true
    (by decide) (by decide) t
  exact ⟨t,exited,both.1.mp ⟨4,passes⟩,both.2 ⟨4,passes⟩ (by simp [exited])⟩

end Myriel.RunSteps

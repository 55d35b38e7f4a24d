import Myriel.Census
import Myriel.Workers

/-! The stop condition of the scheduler: `m_activeThreadCount` counts the tasks in
flight, so a true `stopping()` means that nothing is left which could schedule. -/
namespace Myriel.Workers

variable {n : Nat} {s t : State n}

/-- A worker that has taken a task and not yet done its decrement. -/
def Pc.inFlight : Pc → Bool
  | .taken _ | .resuming _ | .marked _ | .inside _ | .leaving _ _ | .returned => true
  | .loop | .idle | .exited => false

/-- Only tasks call `schedule` once `m_stopping` is set. -/
def Quiet (s : State n) : Action n → Prop
  | .schedule _ _ => s.m_stopping = false
  | _ => True

def Counted (s : State n) : Prop := s.m_activeThreadCount = Census.count Pc.inFlight s.pc

theorem start_counted : Counted (start : State n) :=
  congrArg Nat.cast (Census.count_none Pc.inFlight _ fun _ => rfl).symm

theorem counted_move (counted : Counted s) (w : Fin n) (old : s.pc w = before)
    (same : before.inFlight = after.inFlight) :
    s.m_activeThreadCount = Census.count Pc.inFlight (Function.update s.pc w after) :=
  counted.trans (congrArg Nat.cast
    (Census.count_update_same Pc.inFlight s.pc w after (by rw [old,same])).symm)

/-- The counter follows the workers: up when a task is taken, down behind it. -/
theorem effect_counted (counted : Counted s) (effect : Effect s action t) :
    Counted t := by
  cases effect with
  | runningSchedules _ scheduled | schedules scheduled =>
    obtain ⟨rfl,_⟩ := schedule_some scheduled; exact counted
  | runningCreates | abort | creates | stops => exact counted
  | @take w task _ pc =>
    have change := Census.count_update Pc.inFlight s.pc w (.taken task)
    simp only [pc,Pc.inFlight,↓reduceIte,Bool.false_eq_true] at change
    simp only [Counted,setPc] at counted ⊢
    omega
  | @finished w pc =>
    have change := Census.count_update Pc.inFlight s.pc w .loop
    simp only [pc,Pc.inFlight,↓reduceIte,Bool.false_eq_true] at change
    simp only [Counted,setPc] at counted ⊢
    omega
  | none pc | resume pc | callback pc | exec pc | switchIn pc | switchOut pc | exit pc
  | idleEnds pc | idleYields pc | yields pc | ends pc => exact counted_move counted _ pc rfl

/-- Under a true stop condition no worker holds a task. -/
theorem stopping_idle (counted : Counted s) (stops : stopping s = true)
    {w : Fin n} (pc : s.pc w = position) : position.inFlight = false := by
  simp only [stopping,Bool.and_eq_true,beq_iff_eq] at stops
  by_contra flying
  have := Census.count_pos Pc.inFlight s.pc w (by simpa [pc] using flying)
  simp only [Counted] at counted
  omega

/-- The stop condition is stable: nobody is left who could schedule or take a task. -/
theorem effect_stopping (counted : Counted s) (stops : stopping s = true)
    (quiet : Quiet s action) (effect : Effect s action t) :
    stopping t = true ∧ t.queue = s.queue := by
  have parts := stops
  simp only [stopping,Bool.and_eq_true,List.isEmpty_iff,beq_iff_eq] at parts
  obtain ⟨⟨flag,empty⟩,_⟩ := parts
  cases effect with
  | @take w _ _ _ found =>
    rw [taking,TaskQueue.take_nil empty] at found
    contradiction
  | resume pc | callback pc | exec pc | switchIn pc | switchOut pc | finished pc
  | runningSchedules pc | runningCreates pc | yields pc | ends pc =>
    exact Bool.noConfusion (stopping_idle counted stops pc)
  | schedules =>
    have unset : s.m_stopping = false := quiet
    rw [flag] at unset
    contradiction
  | none | exit | idleEnds | idleYields | abort | creates => exact ⟨stops,rfl⟩
  | stops => exact ⟨by simpa [stopping,flag] using stops,rfl⟩

/-- What links the queue, the counter and the position of every worker. -/
structure Settled (s : State n) : Prop where
  counted : Counted s
  accounted : s.queue.Accounted
  term : ∀ w, s.idle w = .TERM → stopping s = true
  exited : ∀ w, s.pc w = .exited → s.idle w = .TERM

theorem start_settled : Settled (start : State n) where
  counted := start_counted
  accounted := TaskQueue.empty_accounted
  term := by simp [start]
  exited := by simp [start]

theorem effect_accounted (accounted : s.queue.Accounted) (effect : Effect s action t) :
    t.queue.Accounted := by
  cases effect with
  | take _ found => exact TaskQueue.take_accounted accounted found
  | runningSchedules _ scheduled | schedules scheduled =>
    obtain ⟨rfl,_⟩ := schedule_some scheduled
    exact TaskQueue.scheduleNoLock_accounted accounted
  | _ => exact accounted

theorem effect_idle (effect : Effect s action t) (v : Fin n) :
    (s.idle v = .TERM → t.idle v = .TERM) ∧
      (t.idle v = .TERM → s.idle v = .TERM ∨ stopping s = true) := by
  cases effect with
  | @idleEnds w _ _ stops =>
    refine ⟨fun term => ?_,fun _ => .inr stops⟩
    by_cases same : v = w <;> simp [setPc,same,term]
  | runningSchedules _ scheduled | schedules scheduled =>
    obtain ⟨rfl,_⟩ := schedule_some scheduled; exact ⟨id,.inl⟩
  | _ => exact ⟨id,.inl⟩

theorem effect_exited (effect : Effect s action t) (v : Fin n)
    (left : t.pc v = .exited) : s.pc v = .exited ∨ s.idle v = .TERM := by
  cases effect with
  | @exit w _ term =>
    by_cases same : v = w
    · exact .inr (same ▸ term)
    · exact .inl (by simpa [setPc,Function.update_apply,same] using left)
  | runningSchedules _ scheduled | schedules scheduled =>
    obtain ⟨rfl,_⟩ := schedule_some scheduled; exact .inl left
  | runningCreates | abort | creates | stops => exact .inl left
  | @take w | @none w | @resume w | @callback w | @exec w | @switchIn w | @switchOut w
  | @finished w | @idleEnds w | @idleYields w | @yields w | @ends w =>
    by_cases same : v = w
    · simp [setPc,same] at left
    · exact .inl (by simpa [setPc,setFiber,Function.update_apply,same] using left)

theorem step_settled (settled : Settled s) (quiet : Quiet s action)
    (ran : step s action = some t) : Settled t := by
  obtain ⟨_,effect⟩ := step_effect ran
  refine ⟨effect_counted settled.counted effect,effect_accounted settled.accounted effect,?_,?_⟩
  · intro w term
    have stops : stopping s = true := by
      rcases (effect_idle effect w).2 term with before | stops
      · exact settled.term w before
      · exact stops
    exact (effect_stopping settled.counted stops quiet effect).1
  · intro w left
    rcases effect_exited effect w left with before | before
    · exact (effect_idle effect w).1 (settled.exited w before)
    · exact (effect_idle effect w).1 before

theorem run_counted (counted : Counted s)
    (ran : Transition.run step s actions = some t) : Counted t :=
  Transition.run_invariant step Counted
    (fun _ _ _ counted taken => effect_counted counted (step_effect taken).2) counted ran

theorem run_settled (settled : Settled s) (quiet : Transition.Along step Quiet s actions)
    (ran : Transition.run step s actions = some t) : Settled t :=
  Transition.along_invariant step Quiet Settled
    (fun _ _ _ settled quiet taken => step_settled settled quiet taken) settled quiet ran

theorem run_stopping (settled : Settled s) (stops : stopping s = true)
    (quiet : Transition.Along step Quiet s actions)
    (ran : Transition.run step s actions = some t) : stopping t = true ∧ t.queue = s.queue := by
  refine (Transition.along_invariant step Quiet
    (fun r => Settled r ∧ stopping r = true ∧ r.queue = s.queue) ?_ ⟨settled,stops,rfl⟩ quiet ran).2
  intro r action u ⟨settled,stops,same⟩ quiet taken
  obtain ⟨still,kept⟩ := effect_stopping settled.counted stops quiet (step_effect taken).2
  exact ⟨step_settled settled quiet taken,still,kept.trans same⟩

/-- In every run the counter is the number of tasks in flight. In a run in which only
tasks schedule once `m_stopping` is set, a true stop condition stays true and nothing
more is taken, and a worker that has left `run` leaves an empty queue whose accepted
tasks have each been taken once. -/
theorem workers_stop_soundly (actions : List (Action n))
    (ran : Transition.run step start actions = some s) :
    s.m_activeThreadCount = Census.count Pc.inFlight s.pc ∧
    (Transition.Along step Quiet start actions →
      (∀ later t, stopping s = true → Transition.Along step Quiet s later →
        Transition.run step s later = some t →
        stopping t = true ∧ t.queue.taken = s.queue.taken) ∧
      ∀ w, s.pc w = .exited →
        s.queue.m_tasks = [] ∧ s.queue.taken.Perm (List.range s.queue.accepted)) := by
  refine ⟨run_counted start_counted ran,fun quiet => ?_⟩
  have settled := run_settled start_settled quiet ran
  refine ⟨fun later t stops calm after => ?_,fun w left => ?_⟩
  · obtain ⟨still,kept⟩ := run_stopping settled stops calm after
    exact ⟨still,by rw [kept]⟩
  · have stops := settled.term w (settled.exited w left)
    simp only [stopping,Bool.and_eq_true,List.isEmpty_iff] at stops
    have empty := stops.1.2
    have accounted := settled.accounted
    simp only [TaskQueue.Accounted,empty,List.map_nil,List.append_nil] at accounted
    exact ⟨empty,accounted⟩

/-- The first worker takes a function, which schedules another one for the second worker; that one
passes its idle fiber before and takes it when the first worker has gone idle. -/
def childTask (v w : Fin n) : List (Action n) :=
  [.schedule (some (.cb ())) none,.stop,.advance v,.advance v,.advance v,.advance v,.advance w,.advance w,
    .perform v (.schedule (some (.cb ())) (some w.val)),.perform v .returns,.advance v,.advance v,.advance v,.advance v,
    .advance w,.advance w,.advance w,.advance w,.perform w .returns,.advance w,.advance w,
    .advance w,.advance w,.advance w,.advance w,.advance v,.advance v,.advance v,.advance v]

theorem two_workers_stop : ∃ s : State 2, Transition.run step start (childTask 0 1) = some s ∧
    s.pc 0 = .exited ∧ s.pc 1 = .exited ∧ s.queue.accepted = 2 ∧
    s.queue.m_tasks = [] ∧ s.queue.taken.Perm (List.range s.queue.accepted) := by
  have ran : ∃ s : State 2, Transition.run step start (childTask 0 1) = some s ∧
      s.pc 0 = .exited ∧ s.pc 1 = .exited ∧ s.queue.accepted = 2 := ⟨_,rfl,rfl,rfl,rfl⟩
  have quiet : Transition.Along step Quiet start (childTask (0 : Fin 2) 1) :=
    ⟨rfl,fun _ _ => Transition.along_forall step Quiet (by simp [Quiet]) _⟩
  obtain ⟨s,ran,first,second,both⟩ := ran
  exact ⟨s,ran,first,second,both,((workers_stop_soundly (childTask 0 1) ran).2 quiet).2 1 second⟩

end Myriel.Workers

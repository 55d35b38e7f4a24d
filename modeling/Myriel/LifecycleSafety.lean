import Myriel.Lifecycle
import Myriel.RunLoopFunctions

/-! Which sequences of `schedule`, `start` and `stop` calls are safe. -/
namespace Myriel.Lifecycle
open RunLoop

/-- A task is a function that returns. -/
inductive Functional : Call → Prop where
  | schedule (task : Returning cb) : Functional (.schedule (some (.cb cb)) thread)
  | start : Functional .start
  | stop : Functional .stop

/-- What may be called behind the first `stop`: `start` only where it creates no thread, and
`schedule` only where no root fiber would be resumed for the task. -/
def late (use_caller : Bool) (m_threadCount : Nat) : Call → Bool
  | .stop => true
  | .start => m_threadCount == 0
  | .schedule _ _ => !use_caller

def orderly (use_caller : Bool) (m_threadCount : Nat) : List Call → Bool
  | [] => true
  | .stop :: later => later.all (late use_caller m_threadCount)
  | _ :: later => orderly use_caller m_threadCount later

/-- No assertion has failed, and none will fail nor a joinable thread be left when the
scheduler is destroyed behind the last call. -/
structure Safe (s : Scheduler) : Prop where
  asserted : s.position ≠ .aborted
  destructible : Returned s → s.m_threads = [] ∧ s.shared.m_stopping = true

structure Quiet (use_caller : Bool) (count : Nat) (s : Scheduler) : Prop where
  threads : s.m_threads = []
  useCaller : s.m_useCaller = use_caller
  threadCount : s.m_threadCount = count
  own : s.t_scheduler = use_caller
  tame : Tame (enter s.shared s.root)

inductive Stage (use_caller : Bool) (count : Nat) (s : Scheduler) : Prop where
  | early (front : List Call) (calls : s.calls = front ++ [.stop])
      (ordered : orderly use_caller count s.calls = true) (position : s.position = .outside)
      (flag : s.shared.m_stopping = false) (fresh : s.root.status = .running)
      (idle : s.root.idle = .READY) (rootFiber : s.m_rootFiber = if use_caller then some .READY else none)
  | inside (rooted : use_caller = true) (settled : s.calls.all (late use_caller count) = true)
      (position : s.position = .rootFiber) (flag : s.shared.m_stopping = true)
      (live : s.root.status = .running) (drained : s.root.idle = .TERM → s.shared.queue.m_tasks = [])
  | late (settled : s.calls.all (late use_caller count) = true)
      (position : s.position = .join ∨ s.position = .outside) (flag : s.shared.m_stopping = true)
      (drained : use_caller = true → s.shared.queue.m_tasks = [])
      (rootFiber : use_caller = false → s.m_rootFiber = none)

def Kept (use_caller : Bool) (count : Nat) (s : Scheduler) : Prop :=
  (∀ call ∈ s.calls, Functional call) ∧ Quiet use_caller count s ∧ Stage use_caller count s

theorem start_creates {s : Scheduler} (flag : s.shared.m_stopping = true) (threads : s.m_threads = []) :
    start s = { s with
      m_threads := (List.range s.m_threadCount).map fun i => Thread.create (caller + 1 + i)
      m_threadIds := s.m_threadIds ++
        ((List.range s.m_threadCount).map fun i => Thread.create (caller + 1 + i)).map Thread.id } := by
  simp [start,flag,threads]

theorem Kept.safe {s : Scheduler} (kept : Kept use_caller count s) : Safe s := by
  obtain ⟨_,quiet,stage⟩ := kept
  cases stage with
  | early front calls _ position =>
    refine ⟨by rw [position]; exact fun wrong => (by cases wrong),fun returned => ?_⟩
    rw [returned.1] at calls
    simp at calls
  | inside _ _ position =>
    refine ⟨by rw [position]; exact fun wrong => (by cases wrong),fun returned => ?_⟩
    cases position.symm.trans returned.2
  | late _ position flag =>
    refine ⟨fun aborted => ?_,fun _ => ⟨quiet.threads,flag⟩⟩
    rcases position with position | position <;> cases position.symm.trans aborted

theorem construct_kept (threads : Nat) (use_caller : Bool) (front : List Call)
    (each : ∀ call ∈ front, Functional call)
    (ordered : orderly use_caller (construct threads use_caller []).m_threadCount (front ++ [.stop]) = true) :
    Kept use_caller (construct threads use_caller []).m_threadCount
      (construct threads use_caller (front ++ [.stop])) := by
  refine ⟨?_,⟨rfl,rfl,rfl,rfl,?_⟩,.early front rfl ordered rfl rfl rfl rfl rfl⟩
  · intro call member
    rcases List.mem_append.mp member with before | last
    · exact each call before
    · cases List.mem_singleton.mp last
      exact .stop
  · have nothing : entries (enter (construct threads use_caller (front ++ [.stop])).shared
        (construct threads use_caller (front ++ [.stop])).root).queue = [] := rfl
    constructor
    · intro cb thread member
      rw [nothing] at member
      cases member
    · intro f thread member
      rw [nothing] at member
      cases member
    · intro f thread member
      rw [nothing] at member
      cases member
    · intro f
      rw [nothing]
      exact Nat.zero_le 1
    · rfl
    · rfl

theorem stop_kept {s : Scheduler} (each : ∀ call ∈ s.calls, Functional call)
    (quiet : Quiet use_caller count s) (settled : s.calls.all (late use_caller count) = true)
    (flag : s.shared.m_stopping = false) (fresh : s.root.status = .running)
    (idle : s.root.idle = .READY) (rootFiber : s.m_rootFiber = if use_caller then some .READY else none) :
    Kept use_caller count (stop s) := by
  have unset : stopping s.shared = false := by simp [stopping,flag]
  cases use_caller with
  | true =>
    simp only [stop,unset,quiet.own,quiet.useCaller,rootFiber,Bool.false_eq_true,↓reduceIte,
      bne_self_eq_false]
    refine ⟨each,⟨quiet.threads,rfl,quiet.threadCount,rfl,{ quiet.tame with }⟩,
      .inside rfl settled rfl rfl fresh ?_⟩
    intro term
    cases idle.symm.trans term
  | false =>
    simp only [stop,unset,quiet.own,quiet.useCaller,rootFiber,Bool.false_eq_true,↓reduceIte,
      bne_self_eq_false]
    exact ⟨each,⟨quiet.threads,rfl,quiet.threadCount,rfl,{ quiet.tame with }⟩,
      .late settled (.inl rfl) rfl (fun wrong => by cases wrong) fun _ => rfl⟩

/-- A later `stop`: it returns at once, or there is no root fiber. -/
theorem stop_again {s : Scheduler} (each : ∀ call ∈ s.calls, Functional call)
    (quiet : Quiet use_caller count s) (settled : s.calls.all (late use_caller count) = true)
    (position : s.position = .outside) (flag : s.shared.m_stopping = true)
    (drained : use_caller = true → s.shared.queue.m_tasks = [])
    (rootFiber : use_caller = false → s.m_rootFiber = none) : Kept use_caller count (stop s) := by
  by_cases early : stopping s.shared = true
  · rw [stop,if_pos early]
    exact ⟨each,quiet,.late settled (.inr position) flag drained rootFiber⟩
  · have noCaller : use_caller = false := by
      cases use_caller with
      | false => rfl
      | true =>
        have balanced : s.shared.m_activeThreadCount = 0 := quiet.tame.balanced
        simp [stopping,flag,drained rfl,balanced] at early
    subst noCaller
    simp only [stop,early,quiet.own,quiet.useCaller,rootFiber rfl,Bool.false_eq_true,↓reduceIte,
      bne_self_eq_false]
    exact ⟨each,⟨quiet.threads,rfl,quiet.threadCount,rfl,{ quiet.tame with }⟩,
      .late settled (.inl rfl) rfl (fun wrong => by cases wrong) fun _ => rfl⟩

theorem call_early {s : Scheduler} {call : Call} {front : List Call} (head : Functional call)
    (each : ∀ other ∈ s.calls, Functional other) (quiet : Quiet use_caller count s)
    (split : call :: s.calls = front ++ [.stop])
    (ordered : orderly use_caller count (call :: s.calls) = true) (position : s.position = .outside)
    (flag : s.shared.m_stopping = false) (fresh : s.root.status = .running) (idle : s.root.idle = .READY)
    (rootFiber : s.m_rootFiber = if use_caller then some .READY else none) :
    Kept use_caller count (perform s call) := by
  have remaining : call ≠ .stop → ∃ front, s.calls = front ++ [.stop] := by
    intro other
    cases front with
    | nil => exact absurd (List.cons.inj split).1 other
    | cons first front => exact ⟨front,(List.cons.inj split).2⟩
  cases head with
  | stop => exact stop_kept each quiet ordered flag fresh idle rootFiber
  | start =>
    obtain ⟨front,split⟩ := remaining fun same => by cases same
    simp only [perform,start,flag,Bool.not_false,↓reduceIte]
    exact ⟨each,quiet,.early front split ordered position flag fresh idle rootFiber⟩
  | schedule task =>
    obtain ⟨front,split⟩ := remaining fun same => by cases same
    exact ⟨each,⟨quiet.threads,quiet.useCaller,quiet.threadCount,quiet.own,tame_schedule quiet.tame task _⟩,
      .early front split ordered position flag fresh idle rootFiber⟩

theorem call_late {s : Scheduler} {call : Call} (head : Functional call)
    (each : ∀ other ∈ s.calls, Functional other) (quiet : Quiet use_caller count s)
    (allowed : late use_caller count call = true) (settled : s.calls.all (late use_caller count) = true)
    (position : s.position = .outside) (flag : s.shared.m_stopping = true)
    (drained : use_caller = true → s.shared.queue.m_tasks = [])
    (rootFiber : use_caller = false → s.m_rootFiber = none) :
    Kept use_caller count (perform s call) := by
  cases head with
  | stop => exact stop_again each quiet settled position flag drained rootFiber
  | start =>
    have none : s.m_threadCount = 0 := by
      rw [quiet.threadCount]
      simpa [late] using allowed
    rw [perform,start_creates flag quiet.threads]
    refine ⟨each,⟨?_,quiet.useCaller,quiet.threadCount,quiet.own,quiet.tame⟩,
      .late settled (.inr position) flag drained rootFiber⟩
    simp [none]
  | schedule task =>
    have noCaller : use_caller = false := by simpa [late] using allowed
    subst noCaller
    exact ⟨each,⟨quiet.threads,quiet.useCaller,quiet.threadCount,quiet.own,tame_schedule quiet.tame task _⟩,
      .late settled (.inr position) flag (fun wrong => by cases wrong) rootFiber⟩

theorem call_kept {s : Scheduler} {call : Call} {rest : List Call} (kept : Kept use_caller count s)
    (position : s.position = .outside) (calls : s.calls = call :: rest) :
    Kept use_caller count (perform { s with calls := rest } call) := by
  obtain ⟨each,quiet,stage⟩ := kept
  rw [calls] at each
  have head : Functional call := each call List.mem_cons_self
  have later : ∀ other ∈ rest, Functional other :=
    fun other member => each other (List.mem_cons_of_mem _ member)
  cases stage with
  | inside _ _ rootFiber => cases position.symm.trans rootFiber
  | early front split ordered _ flag fresh idle rootFiber =>
    rw [calls] at split ordered
    exact call_early (s := { s with calls := rest }) head later { quiet with } split ordered position flag
      fresh idle rootFiber
  | late settled _ flag drained rootFiber =>
    rw [calls,List.all_cons,Bool.and_eq_true] at settled
    exact call_late (s := { s with calls := rest }) head later { quiet with } settled.1 settled.2 position
      flag drained rootFiber

theorem pass_kept {s : Scheduler} (kept : Kept use_caller count s) (position : s.position = .rootFiber) :
    Kept use_caller count (rootPass s) := by
  obtain ⟨each,quiet,stage⟩ := kept
  cases stage with
  | early _ _ _ outside => cases position.symm.trans outside
  | late _ outside =>
    rcases outside with outside | outside <;> cases position.symm.trans outside
  | inside rooted settled _ flag live drained =>
    obtain ⟨tame,same,again,status⟩ := quiet.tame.step s.root.id live drained
    rcases status with running | ⟨exited,empty⟩
    · simp only [rootPass,running]
      exact ⟨each,⟨quiet.threads,quiet.useCaller,quiet.threadCount,quiet.own,tame⟩,
        .inside rooted settled position (same.trans flag) running again⟩
    · simp only [rootPass,exited]
      exact ⟨each,⟨quiet.threads,quiet.useCaller,quiet.threadCount,quiet.own,tame⟩,
        .late settled (.inl rfl) (same.trans flag) (fun _ => empty)
          fun wrong => by rw [rooted] at wrong; cases wrong⟩

theorem step_kept (s : Scheduler) (action : Action) (t : Scheduler) (kept : Kept use_caller count s)
    (taken : step s action = some t) : Kept use_caller count t := by
  cases action with
  | call =>
    cases position : s.position with
    | rootFiber | join | aborted => simp [step,position] at taken
    | outside =>
      cases calls : s.calls with
      | nil => simp [step,position,calls] at taken
      | cons call rest =>
        have same : step s .call = some (perform { s with calls := rest } call) := by
          simp [step,position,calls]
        cases same.symm.trans taken
        exact call_kept kept position calls
  | rootPass =>
    simp only [step,Option.ite_none_right_eq_some,Option.some.injEq] at taken
    obtain ⟨position,rfl⟩ := taken
    exact pass_kept kept position
  | threadPass i => simp [step,kept.2.1.threads] at taken
  | joined =>
    simp only [step,Option.ite_none_right_eq_some,Option.some.injEq] at taken
    obtain ⟨⟨position,_⟩,rfl⟩ := taken
    obtain ⟨each,quiet,stage⟩ := kept
    cases stage with
    | early _ _ _ outside => cases position.symm.trans outside
    | inside _ _ outside => cases position.symm.trans outside
    | late settled _ flag drained rootFiber =>
      exact ⟨each,⟨rfl,quiet.useCaller,quiet.threadCount,quiet.own,quiet.tame⟩,
        .late settled (.inr rfl) flag drained rootFiber⟩

end Myriel.Lifecycle

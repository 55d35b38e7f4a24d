import Mathlib.Data.List.Range
import Mathlib.Data.List.Perm.Basic

/-! The task queue of `Scheduler`: `scheduleNoLock` and the scan that `run` makes
under `m_mutex`. `tickle` has an empty body, so the flags that decide on calling
it have no further use. -/
namespace Myriel

abbrev ThreadId := Nat
abbrev FiberId := Nat

/-- A task is a fiber or a function. -/
inductive Work (κ : Type) where
  | fiber (f : FiberId)
  | cb (cb : κ)
  deriving DecidableEq

/-- `thread` is `none` for the default `std::thread::id()`; `id` is history: the
number of the task in the order of acceptance. -/
structure SchedulerTask (κ : Type) where
  work : Work κ
  thread : Option ThreadId
  id : Nat

/-- `m_tasks`, with the number of accepted tasks and the tasks taken so far. -/
structure TaskQueue (κ : Type) where
  m_tasks : List (SchedulerTask κ)
  accepted : Nat
  taken : List Nat

namespace TaskQueue

def empty : TaskQueue κ := ⟨[],0,[]⟩

/-- A null fiber or an empty function is dropped. -/
def scheduleNoLock (q : TaskQueue κ) (work : Option (Work κ)) (thread : Option ThreadId) :
    TaskQueue κ × Bool :=
  let need_tickle := q.m_tasks.isEmpty
  match work with
  | some work =>
    ({ q with
       m_tasks := q.m_tasks ++ [⟨work,thread,q.accepted⟩]
       accepted := q.accepted + 1 }, need_tickle)
  | none => (q,need_tickle)

/-- The thread test of the scan. -/
def elsewhere (self : ThreadId) (task : SchedulerTask κ) : Bool :=
  task.thread != none && task.thread != some self

/-- The state test of the scan, given which fibers are in state `EXEC`. -/
def running (exec : FiberId → Bool) (task : SchedulerTask κ) : Bool :=
  match task.work with
  | .fiber f => exec f
  | .cb _ => false

structure Scan (κ : Type) where
  task : Option (SchedulerTask κ)
  m_tasks : List (SchedulerTask κ)
  tickle_me : Bool

def scan (self : ThreadId) (exec : FiberId → Bool) : List (SchedulerTask κ) → Scan κ
  | [] => ⟨none,[],false⟩
  | task :: tasks =>
    if elsewhere self task then
      let next := scan self exec tasks
      ⟨next.task,task :: next.m_tasks,true⟩
    else if running exec task then
      let next := scan self exec tasks
      ⟨next.task,task :: next.m_tasks,next.tickle_me⟩
    else ⟨some task,tasks,!tasks.isEmpty⟩

/-- The task `run` takes, with the queue it leaves. -/
def take (q : TaskQueue κ) (self : ThreadId) (exec : FiberId → Bool) :
    Option (SchedulerTask κ × TaskQueue κ) :=
  let found := scan self exec q.m_tasks
  found.task.map fun task => (task,{ q with m_tasks := found.m_tasks, taken := q.taken ++ [task.id] })

/-- The scan takes the first task that is neither pinned elsewhere nor executing. -/
theorem scan_some (h : (scan self exec tasks).task = some task) :
    ∃ front back, tasks = front ++ task :: back ∧ (scan self exec tasks).m_tasks = front ++ back ∧
      (∀ other ∈ front, elsewhere self other = true ∨ running exec other = true) ∧
      elsewhere self task = false ∧ running exec task = false := by
  induction tasks with
  | nil => simp [scan] at h
  | cons first tasks ih =>
    by_cases pinned : elsewhere self first = true
    · simp only [scan,pinned,↓reduceIte] at h ⊢
      obtain ⟨front,back,rfl,left,skipped,found⟩ := ih h
      exact ⟨first :: front,back,rfl,by simp [left],
        List.forall_mem_cons.mpr ⟨.inl pinned,skipped⟩,found⟩
    · by_cases busy : running exec first = true
      · simp only [scan,pinned,busy,Bool.false_eq_true,↓reduceIte] at h ⊢
        obtain ⟨front,back,rfl,left,skipped,found⟩ := ih h
        exact ⟨first :: front,back,rfl,by simp [left],
          List.forall_mem_cons.mpr ⟨.inr busy,skipped⟩,found⟩
      · simp only [scan,pinned,busy,Bool.false_eq_true,↓reduceIte,Option.some.injEq] at h ⊢
        subst h
        exact ⟨[],tasks,rfl,by simp,by simp,by simpa using pinned,by simpa using busy⟩

theorem take_some (h : take q self exec = some (task,rest)) :
    ∃ front back, q.m_tasks = front ++ task :: back ∧
      rest = { q with m_tasks := front ++ back, taken := q.taken ++ [task.id] } ∧
      (∀ other ∈ front, elsewhere self other = true ∨ running exec other = true) ∧
      elsewhere self task = false ∧ running exec task = false := by
  simp only [take,Option.map_eq_some_iff,Prod.mk.injEq] at h
  obtain ⟨found,first,rfl,rfl⟩ := h
  obtain ⟨front,back,split,left,skipped⟩ := scan_some first
  exact ⟨front,back,split,by rw [left],skipped⟩

theorem take_nil (empty : q.m_tasks = []) : take q self exec = none := by
  simp [take,empty,scan]

theorem take_head (split : q.m_tasks = task :: tasks) (here : elsewhere self task = false)
    (free : running exec task = false) :
    take q self exec = some (task,{ q with m_tasks := tasks, taken := q.taken ++ [task.id] }) := by
  simp [take,split,scan,here,free]

/-- Every accepted task is in the queue or has been taken, and once only. -/
def Accounted (q : TaskQueue κ) : Prop :=
  (q.taken ++ q.m_tasks.map SchedulerTask.id).Perm (List.range q.accepted)

theorem empty_accounted : Accounted (empty : TaskQueue κ) := List.Perm.refl _

theorem scheduleNoLock_accounted (h : Accounted q) : Accounted (scheduleNoLock q work thread).1 := by
  cases work with
  | none => exact h
  | some work =>
    simp only [Accounted,scheduleNoLock,List.map_append,List.map_singleton,List.range_succ]
    rw [← List.append_assoc]
    exact h.append_right _

theorem take_accounted (h : Accounted q) (found : take q self exec = some (task,rest)) :
    Accounted rest := by
  obtain ⟨front,back,split,rfl,_⟩ := take_some found
  refine List.Perm.trans ?_ h
  simp only [split,List.map_append,List.map_cons,List.append_assoc,List.cons_append,List.nil_append]
  exact List.Perm.append_left _ List.perm_middle.symm

end TaskQueue

end Myriel

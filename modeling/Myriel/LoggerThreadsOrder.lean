import Myriel.LoggerThreads
import Mathlib.Order.Basic

/-! The order of the mutexes of the logging module: the manager, the loggers with the root logger
behind all others, the appenders, their buffers. -/
namespace Myriel.LoggerThreads
open Logging LockMachine

variable {τ E : Type}

/-- The root logger is the first one that is made. -/
def Mutex.rank : Mutex → Nat
  | .manager => 0
  | .logger l => if l = 0 then 2 else 1
  | .appender _ => 3
  | .asyc _ => 4

instance : Preorder Mutex := Preorder.lift Mutex.rank

theorem rank_logger (l : LoggerId) : 1 ≤ (Mutex.logger l).rank ∧ (Mutex.logger l).rank ≤ 2 := by
  simp only [Mutex.rank]
  split <;> omega

/-- No mutex has a rank below this one that the call asks for. -/
def Call.floor : Call τ E → Nat
  | .operation (.getLogger _) | .operation (.getFileLogger _ _) => 0
  | .operation (.addAppender l _) | .operation (.delAppender l _) | .operation (.clearAppender l)
  | .operation (.setFormatter l _) | .LOG_LEVEL l _ | .log l _ | .addAppender l _ => (Mutex.logger l).rank
  | .appenderLog _ _ _ | .getFormatter _ => 3
  | .head _ | .tested _ | .writing _ => 4
  | .operation .getRoot | .operation (.newLogger _) | .operation (.newAppender _) | .operation (.setLevel _ _)
  | .operation (.setPattern _ _) | .attach _ _ | .register _ _ | .stop _ | .join _ => 5

def Section.floor : Section τ E → Nat
  | .getFileLogger _ _ => 1
  | .addAppender _ _ => 3
  | .log l _ => (Mutex.logger l).rank + 1
  | .getLogger _ | .delAppender _ _ | .clearAppender _ | .setFormatter _ _ | .getFormatter _ | .write _ _ _
  | .append _ _ _ _ | .test _ | .swap _ => 5

/-- An appender writes for a logger only where the logger is locked. -/
def rules : Rules Mutex (Call τ E) (Section τ E) where
  asks a m := a.floor ≤ m.rank
  asksIn b m := b.floor ≤ m.rank
  needs a m := match a with
    | .appenderLog l _ _ => m = .logger l
    | _ => False
  needsIn b m := match b with
    | .write l _ _ | .append l _ _ _ => m = .logger l
    | _ => False

def least : Code (Call τ E) (Section τ E) → Nat
  | .call a => a.floor
  | .enter b => b.mutex.rank

theorem section_behind (b : Section τ E) : b.mutex.rank < b.floor := by
  cases b with
  | delAppender l | clearAppender l | setFormatter l | addAppender l =>
    have := (rank_logger l).2
    simp only [Section.mutex,Section.floor]
    omega
  | log l => exact Nat.lt_succ_self _
  | getLogger | getFileLogger | getFormatter | write | append | test | swap =>
    simp [Section.mutex,Section.floor,Mutex.rank]

theorem asked_least {c : Code (Call τ E) (Section τ E)} {m : Mutex} (asked : rules.asked Section.mutex c m) :
    least c ≤ m.rank := by
  cases c with
  | call a => exact asked
  | enter b =>
    rcases asked with rfl | deeper
    · exact le_refl _
    · exact (section_behind b).le.trans deeper

/-- Only loggers other than the root logger have a root, and it is the root logger. -/
structure Rooted (s : System τ E) : Prop where
  first : s.logging.m_root = 0
  count : 0 < s.logging.loggerCount
  links : ∀ l root, (s.logging.loggers l).m_root = some root → root = 0 ∧ l ≠ 0

theorem Rooted.congr {s s' : System τ E} (rooted : Rooted s) (same : s'.logging = s.logging) : Rooted s' := by
  obtain ⟨first,count,links⟩ := rooted
  rw [← same] at first count links
  exact ⟨first,count,links⟩

theorem Rooted.update {s s' : System τ E} (rooted : Rooted s) (first : s'.logging.m_root = s.logging.m_root)
    (count : s'.logging.loggerCount = s.logging.loggerCount)
    (links : ∀ l, (s'.logging.loggers l).m_root = (s.logging.loggers l).m_root) : Rooted s' :=
  ⟨first.trans rooted.first,count ▸ rooted.count,fun l root set => rooted.links l root ((links l).symm.trans set)⟩

theorem setLogger_root (s : Logging.State) (l k : LoggerId) (logger : Logger)
    (same : logger.m_root = (s.loggers l).m_root) :
    ((setLogger s l logger).loggers k).m_root = (s.loggers k).m_root := by
  by_cases self : k = l
  · subst k; simpa [setLogger] using same
  · simp [setLogger,self]

/-- A new logger has the root logger as its root, or none. -/
theorem Rooted.create {s s' : System τ E} (rooted : Rooted s) (logger : Logger)
    (root : logger.m_root = none ∨ logger.m_root = some 0)
    (first : s'.logging.m_root = s.logging.m_root)
    (count : s'.logging.loggerCount = s.logging.loggerCount + 1)
    (loggers : s'.logging.loggers = Function.update s.logging.loggers s.logging.loggerCount logger) : Rooted s' where
  first := first.trans rooted.first
  count := by
    rw [count]
    exact Nat.succ_pos _
  links l r set := by
    rw [loggers] at set
    by_cases self : l = s.logging.loggerCount
    · subst l
      rw [Function.update_self] at set
      refine ⟨?_,Nat.ne_of_gt rooted.count⟩
      rcases root with none | some
      · rw [none] at set
        cases set
      · exact Option.some.inj (set.symm.trans some)
    · rw [Function.update_of_ne self] at set
      exact rooted.links l r set

theorem begin_rooted : Rooted (begin : System τ E) where
  first := rfl
  count := Nat.one_pos
  links l root set := by
    have none : ((begin : System τ E).logging.loggers l).m_root = none := by
      by_cases self : l = 0
      · subst l; rfl
      · simp [begin,Logging.start,register,addAppender,newAppender,newLogger,setLogger,self,Logger.new]
    rw [none] at set
    cases set

section Steps
variable [DecidableEq τ] {level : E → LogLevel} {render : Text → E → Text} {t : Thread τ} {s s' : System τ E}
  {body : List (Code (Call τ E) (Section τ E))}

omit [DecidableEq τ] in
theorem operation_rooted (rooted : Rooted s) (op : Operation) : Rooted (operation s op).1 := by
  cases op with
  | newLogger name => exact rooted.create (Logger.new name) (.inl rfl) rfl rfl rfl
  | setLevel l val | setPattern l val => exact rooted.update rfl rfl fun k => setLogger_root _ _ _ _ rfl
  | newAppender => exact rooted.update rfl rfl fun _ => rfl
  | getRoot | getLogger | getFileLogger | addAppender | delAppender | clearAppender | setFormatter => exact rooted

theorem called_rooted (rooted : Rooted s) {a : Call τ E} (called : Called level render t s a s' body) :
    Rooted s' := by
  cases called with
  | operation op => exact operation_rooted rooted op
  | attach => exact rooted.update rfl rfl fun k => setLogger_root _ _ _ _ rfl
  | register => exact rooted.update rfl rfl fun _ => rfl
  | event | quiet | below | stop | ends | head | again | writing => exact rooted.congr rfl
  | log | print | buffer | refuse | addAppender | getFormatter | join | waited | tested => exact rooted

theorem performed_rooted (rooted : Rooted s) {b : Section τ E} (performed : Performed render t s b s' body) :
    Rooted s' := by
  cases performed with
  | @getLogger name =>
    cases found : s.logging.m_loggers name with
    | some l => exact rooted.congr (by simp [Logging.getLogger,found])
    | none =>
      refine rooted.create { Logger.new name with m_root := some s.logging.m_root } (.inr ?_) ?_ ?_ ?_
      · exact congrArg some rooted.first
      all_goals simp [Logging.getLogger,found,register,newLogger,setLogger]
  | @getFileLogger name path =>
    exact rooted.create { Logger.new name with m_root := some s.logging.m_root }
      (.inr (congrArg some rooted.first)) rfl rfl rfl
  | delAppender | clearAppender | setFormatter => exact rooted.update rfl rfl fun k => setLogger_root _ _ _ _ rfl
  | log | getFormatter | write | append | test | swap => exact rooted.congr rfl
  | known | addAppender | root => exact rooted

theorem called_least {a : Call τ E} (called : Called level render t s a s' body) {c : Code (Call τ E) (Section τ E)}
    (member : c ∈ body) : a.floor ≤ least c := by
  cases called with
  | operation op =>
    cases op <;> simp only [operation,List.not_mem_nil,List.mem_singleton] at member
    all_goals
      subst member
      exact le_refl _
  | event | log | addAppender =>
    cases List.mem_singleton.mp member
    exact le_refl _
  | print | buffer | getFormatter | again | writing | tested =>
    cases List.mem_singleton.mp member
    simp [Call.floor,least,Section.mutex,Mutex.rank]
  | stop =>
    cases List.mem_singleton.mp member
    exact le_refl _
  | head | waited =>
    rcases List.mem_pair.mp member with rfl | rfl <;> simp [Call.floor,least,Section.mutex,Mutex.rank]
  | quiet | below | refuse | attach | register | join | ends => cases member

theorem performed_least (rooted : Rooted s) {b : Section τ E} (performed : Performed render t s b s' body)
    {c : Code (Call τ E) (Section τ E)} (member : c ∈ body) : b.floor ≤ least c := by
  cases performed with
  | getFileLogger =>
    rcases List.mem_pair.mp member with rfl | rfl
    · exact (rank_logger _).1
    · simp [Section.floor,least,Call.floor]
  | addAppender =>
    rcases List.mem_pair.mp member with rfl | rfl <;>
      simp [Section.floor,least,Call.floor,Section.mutex,Mutex.rank]
  | root link =>
    obtain ⟨rfl,other⟩ := rooted.links _ _ link
    cases List.mem_singleton.mp member
    simp [Section.floor,least,Call.floor,Mutex.rank,other]
  | @log l r =>
    obtain ⟨i,_,rfl⟩ := List.mem_map.mp member
    exact Nat.succ_le_succ (rank_logger l).2
  | getLogger | known | delAppender | clearAppender | setFormatter | getFormatter | write | append | test | swap =>
    cases member

theorem called_needs {a : Call τ E} (called : Called level render t s a s' body)
    {c : Code (Call τ E) (Section τ E)} (member : c ∈ body) {m : Mutex} (needed : rules.needed c m) :
    rules.needs a m := by
  cases called with
  | operation op =>
    cases op <;> simp only [operation,List.not_mem_nil,List.mem_singleton] at member
    all_goals
      subst member
      exact needed.elim
  | print | buffer =>
    cases List.mem_singleton.mp member
    exact needed
  | event | log | addAppender | getFormatter | again | writing | tested | stop =>
    cases List.mem_singleton.mp member
    exact needed.elim
  | head | waited => rcases List.mem_pair.mp member with rfl | rfl <;> exact needed.elim
  | quiet | below | refuse | attach | register | join | ends => cases member

theorem performed_needs {b : Section τ E} (performed : Performed render t s b s' body)
    {c : Code (Call τ E) (Section τ E)} (member : c ∈ body) {m : Mutex} (needed : rules.needed c m) :
    m = b.mutex ∨ rules.needsIn b m := by
  cases performed with
  | log =>
    obtain ⟨i,_,rfl⟩ := List.mem_map.mp member
    exact .inl needed
  | getFileLogger | addAppender => rcases List.mem_pair.mp member with rfl | rfl <;> exact needed.elim
  | root =>
    cases List.mem_singleton.mp member
    exact needed.elim
  | getLogger | known | delAppender | clearAppender | setFormatter | getFormatter | write | append | test | swap =>
    cases member

theorem program_keeps : Keeps (program (τ := τ) level render) rules Rooted where
  call_good _ _ _ _ _ rooted called := called_rooted rooted (call_called level render called)
  perform_good _ _ _ _ _ rooted performed := performed_rooted rooted (perform_performed render performed)
  call_asks _ _ _ _ _ _ called _ member _ asked :=
    (called_least (call_called level render called) member).trans (asked_least asked)
  perform_asks _ _ _ _ _ rooted performed _ member _ asked :=
    (performed_least rooted (perform_performed render performed) member).trans (asked_least asked)
  behind b _ asked := (section_behind b).trans_le asked
  call_needs _ _ _ _ _ _ called _ member _ := called_needs (call_called level render called) member
  perform_needs _ _ _ _ _ _ performed _ member _ := performed_needs (perform_performed render performed) member
  invoked t s a invocable m needs := by
    cases a <;> first | exact needs | cases invocable

end Steps

/-- Whatever the threads call, and wherever the workers stand, no set of threads waits for
mutexes that are held in that set. -/
theorem logging_not_deadlocked [DecidableEq τ] (level : E → LogLevel) (render : Text → E → Text) (s : State τ E)
    (reach : Reachable level render s) : ¬ Deadlocked (program level render) s :=
  not_deadlocked program_keeps begin_rooted reach

theorem logging_not_deadlocked_waiting : ∃ s : State Bool Unit,
    waits (program (fun _ => .INFO) fun _ _ => []) s (.client true) = some (.logger 0) ∧
    ¬ Deadlocked (program (fun _ => .INFO) fun _ _ => []) s := by
  have ran : ∃ s : State Bool Unit,
      Transition.run (step (program (fun _ => .INFO) fun _ _ => [])) (start begin)
        [.invoke (.client false) (.LOG_LEVEL 0 ()),.run (.client false),.run (.client false),.run (.client false),
          .invoke (.client true) (.LOG_LEVEL 0 ()),.run (.client true),.run (.client true)] = some s ∧
      waits (program (fun _ => .INFO) fun _ _ => []) s (.client true) = some (.logger 0) := ⟨_,rfl,rfl⟩
  obtain ⟨s,ran,waiting⟩ := ran
  exact ⟨s,waiting,logging_not_deadlocked _ _ s ⟨_,ran⟩⟩

end Myriel.LoggerThreads

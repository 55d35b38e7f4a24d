import Myriel.AsyncLog
import Myriel.LockMachine
import Myriel.Logger

/-! Logging by any number of threads: the operations on loggers and the manager cut at their
mutexes, `Logger::log` appender by appender, and the worker threads of the asynchronous
appenders. What is read or written between two of the cuts is one step. -/
namespace Myriel.LoggerThreads
open Logging LockMachine

inductive Mutex where
  /-- `m_mutex` of the `LoggerManager` -/
  | manager
  | logger (l : LoggerId)
  /-- `m_mutex` of the base class `LogAppender` -/
  | appender (i : AppenderId)
  /-- `m_mutex` of an `AsycLogAppender`, which hides that of its base class -/
  | asyc (i : AppenderId)
  deriving DecidableEq

inductive Thread (τ : Type) where
  | client (t : τ)
  /-- `m_workThread` -/
  | worker (i : AppenderId)
  deriving DecidableEq

/-- An event with the logger that it names, the thread that logs it and how many that had logged
before. -/
structure Record (τ E : Type) where
  thread : Thread τ
  number : Nat
  m_logger : LoggerId
  event : E

/-- A line that an appender has been given by a logger: to be written to `std::cout`, or into
the buffers of the appender. -/
structure Delivery (τ E : Type) where
  logger : LoggerId
  record : Record τ E
  buffered : Bool
  line : Text

/-- An event that a logger has handed on to the appenders it then had. -/
structure Handing (τ E : Type) where
  logger : LoggerId
  record : Record τ E
  appenders : List AppenderId

/-- `found` is what `getFormatter` has returned to a thread. The rest is history: the events that
a thread has logged and their loggers, those that the level of a logger has kept back, those that a logger has
handed on, and what an appender has been given. -/
structure System (τ E : Type) where
  logging : Logging.State
  found : Thread τ → FormatterPtr
  asyc : AppenderId → AsyncLog.State
  events : Thread τ → List (LoggerId × E)
  suppressed : List (Record τ E)
  handed : List (Handing τ E)
  given : AppenderId → List (Delivery τ E)

/-- The functions, and those parts of them that no section of their own begins with. -/
inductive Call (τ E : Type) where
  | operation (op : Operation)
  | LOG_LEVEL (l : LoggerId) (event : E)
  /-- `Logger::log` -/
  | log (l : LoggerId) (r : Record τ E)
  /-- `log` of an appender, called by a logger -/
  | appenderLog (l : LoggerId) (i : AppenderId) (r : Record τ E)
  | addAppender (l : LoggerId) (i : AppenderId)
  /-- the rest of `addAppender` behind the call of `getFormatter` -/
  | attach (l : LoggerId) (i : AppenderId)
  /-- the end of `getFileLogger` -/
  | register (name : Text) (l : LoggerId)
  | getFormatter (i : AppenderId)
  | stop (i : AppenderId)
  /-- the wait for the worker in `stop` -/
  | join (i : AppenderId)
  /-- the head of the loop of `backendThread` -/
  | head (i : AppenderId)
  /-- behind the test of `m_buffers`, which may have led to a wait -/
  | tested (i : AppenderId)
  /-- the rest of the loop, behind its section -/
  | writing (i : AppenderId)

inductive Section (τ E : Type) where
  | getLogger (name : Text)
  | getFileLogger (name path : Text)
  | addAppender (l : LoggerId) (i : AppenderId)
  | delAppender (l : LoggerId) (i : AppenderId)
  | clearAppender (l : LoggerId)
  | setFormatter (l : LoggerId) (val : Text)
  /-- the section of `Logger::log` -/
  | log (l : LoggerId) (r : Record τ E)
  | getFormatter (i : AppenderId)
  /-- the section of `StdoutLogAppender::log` -/
  | write (l : LoggerId) (i : AppenderId) (r : Record τ E)
  /-- `AsycLogAppender::append` -/
  | append (l : LoggerId) (i : AppenderId) (r : Record τ E) (line : Text)
  /-- the section of `backendThread`, up to the wait or the end -/
  | test (i : AppenderId)
  /-- the rest of it behind the wait -/
  | swap (i : AppenderId)

def Section.mutex : Section τ E → Mutex
  | .getLogger _ | .getFileLogger _ _ => .manager
  | .addAppender l _ | .delAppender l _ | .clearAppender l | .setFormatter l _ | .log l _ => .logger l
  | .getFormatter i | .write _ i _ => .appender i
  | .append _ i _ _ | .test i | .swap i => .asyc i

section Functions
variable {τ E : Type} [DecidableEq τ]

def setAsyc (s : System τ E) (i : AppenderId) (asyc : AsyncLog.State) : System τ E :=
  { s with asyc := Function.update s.asyc i asyc }

def give (s : System τ E) (i : AppenderId) (d : Delivery τ E) : System τ E :=
  { s with given := Function.update s.given i (s.given i ++ [d]) }

def suppress (s : System τ E) (r : Record τ E) : System τ E := { s with suppressed := s.suppressed ++ [r] }

def operation (s : System τ E) (op : Operation) : System τ E × List (Code (Call τ E) (Section τ E)) :=
  match op with
  | .getRoot => (s,[])
  | .getLogger name => (s,[.enter (.getLogger name)])
  | .getFileLogger name path => (s,[.enter (.getFileLogger name path)])
  | .addAppender l i => (s,[.call (.addAppender l i)])
  | .delAppender l i => (s,[.enter (.delAppender l i)])
  | .clearAppender l => (s,[.enter (.clearAppender l)])
  | .setFormatter l val => (s,[.enter (.setFormatter l val)])
  | .newLogger _ | .newAppender _ | .setLevel _ _ | .setPattern _ _ =>
    ({ s with logging := Logging.perform s.logging op },[])

/-- `addAppender` after `getFormatter`: the formatter of the logger is taken over if there was none. -/
def attach (s : Logging.State) (found : FormatterPtr) (l : LoggerId) (i : AppenderId) : Logging.State :=
  let logger := s.loggers l
  let appender := s.appenders i
  { setLogger s l { logger with m_appenders := logger.m_appenders ++ [i] } with
    appenders := Function.update s.appenders i
      (if found.isNone then { appender with m_formatter := logger.m_formatter } else appender) }

def fileLogger (s : Logging.State) (name path : Text) : Logging.State :=
  newAppender (newLogger s { Logger.new name with m_root := some s.m_root }) (.AsycLogAppender path)

variable (level : E → LogLevel) (render : Text → E → Text)

/-- A call; `render` is `format` of the formatter with a pattern. -/
def call (t : Thread τ) (s : System τ E) :
    Call τ E → Option (System τ E × List (Code (Call τ E) (Section τ E)))
  | .operation op => some (operation s op)
  | .LOG_LEVEL l event =>
    let r : Record τ E := ⟨t,(s.events t).length,l,event⟩
    let s := { s with events := Function.update s.events t (s.events t ++ [(l,event)]) }
    if (s.logging.loggers l).m_level.value ≤ (level event).value then some (s,[.call (.log l r)])
    else some (suppress s r,[])
  | .log l r =>
    if (level r.event).value ≥ (s.logging.loggers l).m_level.value then some (s,[.enter (.log l r)])
    else some (suppress s r,[])
  | .appenderLog l i r =>
    let appender := s.logging.appenders i
    if (level r.event).value ≥ appender.m_level.value then
      match appender.kind with
      | .StdoutLogAppender => some (s,[.enter (.write l i r)])
      | .AsycLogAppender _ =>
        appender.m_formatter.map fun formatter => (s,[.enter (.append l i r (render formatter r.event))])
    else some (s,[])
  | .addAppender l i => some (s,[.enter (.addAppender l i)])
  | .attach l i => some ({ s with logging := attach s.logging (s.found t) l i },[])
  | .register name l => some ({ s with logging := register s.logging name l },[])
  | .getFormatter i => some (s,[.enter (.getFormatter i)])
  | .stop i => (AsyncLog.step (s.asyc i) .stop).map fun asyc => (setAsyc s i asyc,[.call (.join i)])
  | .join i => if (s.asyc i).pc = .finished then some (s,[]) else none
  | .head i =>
    (AsyncLog.backend (s.asyc i)).map fun asyc =>
      (setAsyc s i asyc,if asyc.pc = .finished then [] else [.enter (.test i),.call (.tested i)])
  | .tested i =>
    some (s,if (s.asyc i).pc = .wait then [.enter (.swap i),.call (.writing i)] else [.call (.writing i)])
  | .writing i =>
    (AsyncLog.backend (s.asyc i)).map fun asyc =>
      (setAsyc s i asyc,if asyc.pc = .head then [.call (.head i)] else [.call (.writing i)])

def perform (t : Thread τ) (s : System τ E) :
    Section τ E → Option (System τ E × List (Code (Call τ E) (Section τ E)))
  | .getLogger name => some ({ s with logging := (getLogger s.logging name).1 },[])
  | .getFileLogger name path =>
    match s.logging.m_loggers name with
    | some _ => some (s,[])
    | none =>
      let logger := s.logging.loggerCount
      let asycLogAppender := s.logging.appenderCount
      some ({ s with logging := fileLogger s.logging name path },
        [.call (.addAppender logger asycLogAppender),.call (.register name logger)])
  | .addAppender l i => some (s,[.enter (.getFormatter i),.call (.attach l i)])
  | .delAppender l i => some ({ s with logging := delAppender s.logging l i },[])
  | .clearAppender l => some ({ s with logging := clearAppender s.logging l },[])
  | .setFormatter l val => some ({ s with logging := setFormatter s.logging l (some val) },[])
  | .log l r =>
    let logger := s.logging.loggers l
    if logger.m_appenders.isEmpty then
      logger.m_root.map fun root => (s,[.call (.log root r)])
    else
      some ({ s with handed := s.handed ++ [⟨l,r,logger.m_appenders⟩] },
        logger.m_appenders.map fun i => .call (.appenderLog l i r))
  | .getFormatter i => some ({ s with found := Function.update s.found t (s.logging.appenders i).m_formatter },[])
  | .write l i r =>
    (s.logging.appenders i).m_formatter.map fun formatter => (give s i ⟨l,r,false,render formatter r.event⟩,[])
  | .append l i r line =>
    (AsyncLog.step (s.asyc i) (.append line)).map fun asyc => (give (setAsyc s i asyc) i ⟨l,r,true,line⟩,[])
  | .test i | .swap i => (AsyncLog.backend (s.asyc i)).map fun asyc => (setAsyc s i asyc,[])

def asynchronous (s : System τ E) (i : AppenderId) : Bool :=
  decide (i < s.logging.appenderCount) && (s.logging.appenders i).kind != .StdoutLogAppender

/-- What the users of the library call, on objects that exist, and where a worker begins. -/
def invocable (t : Thread τ) (s : System τ E) : Call τ E → Bool
  | .operation op => t matches .client _ && op.valid s.logging
  | .LOG_LEVEL l _ => t matches .client _ && decide (l < s.logging.loggerCount)
  | .getFormatter i => t matches .client _ && decide (i < s.logging.appenderCount)
  | .stop i => t matches .client _ && asynchronous s i
  | .head i => t == .worker i && asynchronous s i
  | _ => false

def program : Program (Thread τ) Mutex (System τ E) (Call τ E) (Section τ E) where
  mutex := Section.mutex
  call := call level render
  perform := perform render
  invocable := invocable

/-- Everything a call can do. -/
inductive Called (t : Thread τ) (s : System τ E) :
    Call τ E → System τ E → List (Code (Call τ E) (Section τ E)) → Prop where
  | operation (op : Operation) : Called t s (.operation op) (operation s op).1 (operation s op).2
  | event (passes : (s.logging.loggers l).m_level.value ≤ (level event).value) :
      Called t s (.LOG_LEVEL l event) { s with events := Function.update s.events t (s.events t ++ [(l,event)]) }
        [.call (.log l ⟨t,(s.events t).length,l,event⟩)]
  | quiet (fails : ¬ (s.logging.loggers l).m_level.value ≤ (level event).value) :
      Called t s (.LOG_LEVEL l event)
        (suppress { s with events := Function.update s.events t (s.events t ++ [(l,event)]) }
          ⟨t,(s.events t).length,l,event⟩) []
  | log (passes : (level r.event).value ≥ (s.logging.loggers l).m_level.value) :
      Called t s (.log l r) s [.enter (.log l r)]
  | below (fails : ¬ (level r.event).value ≥ (s.logging.loggers l).m_level.value) :
      Called t s (.log l r) (suppress s r) []
  | print (accepts : (level r.event).value ≥ (s.logging.appenders i).m_level.value)
      (kind : (s.logging.appenders i).kind = .StdoutLogAppender) :
      Called t s (.appenderLog l i r) s [.enter (.write l i r)]
  | buffer (accepts : (level r.event).value ≥ (s.logging.appenders i).m_level.value)
      (kind : (s.logging.appenders i).kind = .AsycLogAppender path)
      (formatter : (s.logging.appenders i).m_formatter = some pattern) :
      Called t s (.appenderLog l i r) s [.enter (.append l i r (render pattern r.event))]
  | refuse (rejects : ¬ (level r.event).value ≥ (s.logging.appenders i).m_level.value) :
      Called t s (.appenderLog l i r) s []
  | addAppender : Called t s (.addAppender l i) s [.enter (.addAppender l i)]
  | attach : Called t s (.attach l i) { s with logging := attach s.logging (s.found t) l i } []
  | register : Called t s (.register name l) { s with logging := register s.logging name l } []
  | getFormatter : Called t s (.getFormatter i) s [.enter (.getFormatter i)]
  | stop (stopped : AsyncLog.step (s.asyc i) .stop = some asyc) :
      Called t s (.stop i) (setAsyc s i asyc) [.call (.join i)]
  | join : Called t s (.join i) s []
  | ends (ran : AsyncLog.step (s.asyc i) .backend = some asyc) : Called t s (.head i) (setAsyc s i asyc) []
  | head (ran : AsyncLog.step (s.asyc i) .backend = some asyc) :
      Called t s (.head i) (setAsyc s i asyc) [.enter (.test i),.call (.tested i)]
  | waited : Called t s (.tested i) s [.enter (.swap i),.call (.writing i)]
  | tested : Called t s (.tested i) s [.call (.writing i)]
  | again (ran : AsyncLog.step (s.asyc i) .backend = some asyc) :
      Called t s (.writing i) (setAsyc s i asyc) [.call (.head i)]
  | writing (ran : AsyncLog.step (s.asyc i) .backend = some asyc) :
      Called t s (.writing i) (setAsyc s i asyc) [.call (.writing i)]

theorem call_called {t : Thread τ} {s s' : System τ E} {a : Call τ E}
    {body : List (Code (Call τ E) (Section τ E))} (called : call level render t s a = some (s',body)) :
    Called level render t s a s' body := by
  cases a with
  | operation op =>
    have same : operation s op = (s',body) := Option.some.inj called
    obtain rfl : (operation s op).1 = s' := congrArg Prod.fst same
    obtain rfl : (operation s op).2 = body := congrArg Prod.snd same
    exact .operation op
  | LOG_LEVEL l event =>
    by_cases passes : (s.logging.loggers l).m_level.value ≤ (level event).value
    · simp only [call,passes,if_true,Option.some.injEq,Prod.mk.injEq] at called
      obtain ⟨rfl,rfl⟩ := called
      exact .event passes
    · simp only [call,passes,if_false,Option.some.injEq,Prod.mk.injEq] at called
      obtain ⟨rfl,rfl⟩ := called
      exact .quiet passes
  | log l r =>
    simp only [call] at called
    split at called
    case isTrue passes =>
      cases called
      exact .log passes
    case isFalse fails =>
      cases called
      exact .below fails
  | appenderLog l i r =>
    simp only [call] at called
    split at called
    case isTrue accepts =>
      split at called
      case h_1 kind =>
        cases called
        exact .print accepts kind
      case h_2 path kind =>
        obtain ⟨pattern,formatter,same⟩ := Option.map_eq_some_iff.mp called
        cases same
        exact .buffer accepts kind formatter
    case isFalse rejects =>
      cases called
      exact .refuse rejects
  | addAppender => cases called; exact .addAppender
  | attach => cases called; exact .attach
  | register => cases called; exact .register
  | getFormatter => cases called; exact .getFormatter
  | stop i =>
    obtain ⟨asyc,stopped,same⟩ := Option.map_eq_some_iff.mp called
    cases same
    exact .stop stopped
  | join i =>
    simp only [call,Option.ite_none_right_eq_some] at called
    cases called.2
    exact .join
  | head i =>
    obtain ⟨asyc,ran,same⟩ := Option.map_eq_some_iff.mp called
    obtain ⟨rfl,rfl⟩ := Prod.mk.inj same
    split
    · exact .ends ran
    · exact .head ran
  | tested i =>
    simp only [call,Option.some.injEq,Prod.mk.injEq] at called
    obtain ⟨rfl,rfl⟩ := called
    split
    · exact .waited
    · exact .tested
  | writing i =>
    obtain ⟨asyc,ran,same⟩ := Option.map_eq_some_iff.mp called
    obtain ⟨rfl,rfl⟩ := Prod.mk.inj same
    split
    · exact .again ran
    · exact .writing ran

inductive Performed (t : Thread τ) (s : System τ E) :
    Section τ E → System τ E → List (Code (Call τ E) (Section τ E)) → Prop where
  | getLogger : Performed t s (.getLogger name) { s with logging := (getLogger s.logging name).1 } []
  | known : Performed t s (.getFileLogger name path) s []
  | getFileLogger : Performed t s (.getFileLogger name path)
      { s with logging := fileLogger s.logging name path }
      [.call (.addAppender s.logging.loggerCount s.logging.appenderCount),
        .call (.register name s.logging.loggerCount)]
  | addAppender : Performed t s (.addAppender l i) s [.enter (.getFormatter i),.call (.attach l i)]
  | delAppender : Performed t s (.delAppender l i) { s with logging := delAppender s.logging l i } []
  | clearAppender : Performed t s (.clearAppender l) { s with logging := clearAppender s.logging l } []
  | setFormatter : Performed t s (.setFormatter l val) { s with logging := setFormatter s.logging l (some val) } []
  | root (link : (s.logging.loggers l).m_root = some root) : Performed t s (.log l r) s [.call (.log root r)]
  | log : Performed t s (.log l r)
      { s with handed := s.handed ++ [⟨l,r,(s.logging.loggers l).m_appenders⟩] }
      ((s.logging.loggers l).m_appenders.map fun i => .call (.appenderLog l i r))
  | getFormatter : Performed t s (.getFormatter i)
      { s with found := Function.update s.found t (s.logging.appenders i).m_formatter } []
  | write (formatter : (s.logging.appenders i).m_formatter = some pattern) :
      Performed t s (.write l i r) (give s i ⟨l,r,false,render pattern r.event⟩) []
  | append (ran : AsyncLog.step (s.asyc i) (.append line) = some asyc) :
      Performed t s (.append l i r line) (give (setAsyc s i asyc) i ⟨l,r,true,line⟩) []
  | test (ran : AsyncLog.step (s.asyc i) .backend = some asyc) : Performed t s (.test i) (setAsyc s i asyc) []
  | swap (ran : AsyncLog.step (s.asyc i) .backend = some asyc) : Performed t s (.swap i) (setAsyc s i asyc) []

theorem perform_performed {t : Thread τ} {s s' : System τ E} {b : Section τ E}
    {body : List (Code (Call τ E) (Section τ E))} (performed : perform render t s b = some (s',body)) :
    Performed render t s b s' body := by
  cases b with
  | getLogger => cases performed; exact .getLogger
  | getFileLogger name path =>
    simp only [perform] at performed
    split at performed
    · cases performed
      exact .known
    · cases performed
      exact .getFileLogger
  | addAppender => cases performed; exact .addAppender
  | delAppender => cases performed; exact .delAppender
  | clearAppender => cases performed; exact .clearAppender
  | setFormatter => cases performed; exact .setFormatter
  | log l r =>
    simp only [perform] at performed
    split at performed
    · obtain ⟨root,link,same⟩ := Option.map_eq_some_iff.mp performed
      cases same
      exact .root link
    · cases performed
      exact .log
  | getFormatter => cases performed; exact .getFormatter
  | write l i r =>
    obtain ⟨pattern,formatter,same⟩ := Option.map_eq_some_iff.mp performed
    cases same
    exact .write formatter
  | append l i r line =>
    obtain ⟨asyc,ran,same⟩ := Option.map_eq_some_iff.mp performed
    cases same
    exact .append ran
  | test i =>
    obtain ⟨asyc,ran,same⟩ := Option.map_eq_some_iff.mp performed
    cases same
    exact .test ran
  | swap i =>
    obtain ⟨asyc,ran,same⟩ := Option.map_eq_some_iff.mp performed
    cases same
    exact .swap ran

end Functions

abbrev State (τ E : Type) := LockMachine.State (Thread τ) Mutex (System τ E) (Call τ E) (Section τ E)

def begin : System τ E where
  logging := Logging.start
  found := fun _ => none
  asyc := fun _ => AsyncLog.start
  events := fun _ => []
  suppressed := []
  handed := []
  given := fun _ => []

abbrev Reachable [DecidableEq τ] (level : E → LogLevel) (render : Text → E → Text) : State τ E → Prop :=
  Transition.Reachable (LockMachine.step (program level render)) (LockMachine.start begin)

end Myriel.LoggerThreads

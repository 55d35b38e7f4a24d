import Myriel.Platform
import Myriel.Transition
import Mathlib.Logic.Function.Basic

/-! `Logger`, its appenders and `LoggerManager`. Objects have numbers, which stand for the
pointers to them; they live as long as anything refers to them. -/
namespace Myriel.Logging

inductive LogLevel where
  | UNKNOW
  | TRACE
  | DEBUG
  | INFO
  | WRAN
  | ERROR
  | FATAL
  deriving DecidableEq

/-- The value of the enumerator, which the comparisons use. -/
def LogLevel.value : LogLevel → Nat
  | UNKNOW => 0
  | TRACE => 1
  | DEBUG => 2
  | INFO => 3
  | WRAN => 4
  | ERROR => 5
  | FATAL => 6

abbrev LoggerId := Nat
abbrev AppenderId := Nat

/-- A `LogFormatter::ptr`, by the pattern that its formatter was made from. -/
abbrev FormatterPtr := Option Text

inductive Kind where
  | StdoutLogAppender
  | AsycLogAppender (m_path : Text)
  deriving DecidableEq

structure LogAppender where
  kind : Kind
  m_level : LogLevel
  m_formatter : FormatterPtr

structure Logger where
  m_name : Text
  m_level : LogLevel
  m_formatter : FormatterPtr
  m_appenders : List AppenderId
  m_root : Option LoggerId

/-- All objects below their count, with the members of the `LoggerManager`. -/
structure State where
  loggers : LoggerId → Logger
  loggerCount : Nat
  appenders : AppenderId → LogAppender
  appenderCount : Nat
  m_loggers : Text → Option LoggerId
  m_root : LoggerId

def defaultPattern : Text := "%d{%Y-%m-%d %H:%M:%S}%T%t%T%F%T[%p]%T[%c]%T%f:%l%T%m%n".toList

def LogAppender.new (kind : Kind) : LogAppender := ⟨kind,.DEBUG,none⟩

def Logger.new (name : Text) : Logger := ⟨name,.DEBUG,some defaultPattern,[],none⟩

def LogAppender.inherit (formatter : FormatterPtr) (appender : LogAppender) : LogAppender :=
  if appender.m_formatter.isNone then { appender with m_formatter := formatter } else appender

def setLogger (s : State) (l : LoggerId) (logger : Logger) : State :=
  { s with loggers := Function.update s.loggers l logger }

def newLogger (s : State) (logger : Logger) : State :=
  { setLogger s s.loggerCount logger with loggerCount := s.loggerCount + 1 }

def newAppender (s : State) (kind : Kind) : State :=
  { s with
    appenders := Function.update s.appenders s.appenderCount (LogAppender.new kind)
    appenderCount := s.appenderCount + 1 }

def addAppender (s : State) (l : LoggerId) (appender : AppenderId) : State :=
  let logger := s.loggers l
  { setLogger s l { logger with m_appenders := logger.m_appenders ++ [appender] } with
    appenders := Function.update s.appenders appender
      ((s.appenders appender).inherit logger.m_formatter) }

def delAppender (s : State) (l : LoggerId) (appender : AppenderId) : State :=
  setLogger s l { s.loggers l with m_appenders := (s.loggers l).m_appenders.erase appender }

def clearAppender (s : State) (l : LoggerId) : State :=
  setLogger s l { s.loggers l with m_appenders := [] }

def setLevel (s : State) (l : LoggerId) (level : LogLevel) : State :=
  setLogger s l { s.loggers l with m_level := level }

/-- The loop over the appenders in `setFormatter`. -/
def inheritAll (formatter : FormatterPtr) (appenders : AppenderId → LogAppender)
    (list : List AppenderId) : AppenderId → LogAppender :=
  list.foldl (fun appenders i => Function.update appenders i ((appenders i).inherit formatter)) appenders

/-- `setFormatter(LogFormatter::ptr)` -/
def setFormatter (s : State) (l : LoggerId) (val : FormatterPtr) : State :=
  { setLogger s l { s.loggers l with m_formatter := val } with
    appenders := inheritAll val s.appenders (s.loggers l).m_appenders }

/-- `setFormatter(std::string)` -/
def setPattern (s : State) (l : LoggerId) (val : Text) : State :=
  setLogger s l { s.loggers l with m_formatter := some val }

def register (s : State) (name : Text) (l : LoggerId) : State :=
  { s with m_loggers := Function.update s.m_loggers name (some l) }

def getLogger (s : State) (name : Text) : State × LoggerId :=
  match s.m_loggers name with
  | some l => (s,l)
  | none =>
    let logger := s.loggerCount
    (register (newLogger s { Logger.new name with m_root := some s.m_root }) name logger,logger)

def getFileLogger (s : State) (name path : Text) : State × LoggerId :=
  match s.m_loggers name with
  | some l => (s,l)
  | none =>
    let logger := s.loggerCount
    let created := newLogger s { Logger.new name with m_root := some s.m_root }
    let asycLogAppender := created.appenderCount
    let opened := newAppender created (.AsycLogAppender path)
    (register (addAppender opened logger asycLogAppender) name logger,logger)

def rootName : Text := "root".toList

/-- The constructor of `LoggerManager`, before which there is no object. -/
def start : State :=
  let nothing : State := {
    loggers := fun _ => Logger.new []
    loggerCount := 0
    appenders := fun _ => LogAppender.new .StdoutLogAppender
    appenderCount := 0
    m_loggers := fun _ => none
    m_root := 0 }
  register (addAppender (newAppender (newLogger nothing (Logger.new rootName)) .StdoutLogAppender) 0 0)
    rootName 0

/-! ### Writing an event -/

/-- What a null pointer was when it was used. -/
inductive NullPointer where
  | m_root
  | m_formatter
  deriving DecidableEq

/-- One call of `m_formatter->format` by an appender. -/
structure Written where
  appender : AppenderId
  m_formatter : Text
  deriving DecidableEq

/-- `StdoutLogAppender::log` and `AsycLogAppender::log`, which differ in what they do with
the formatted text. -/
def appenderLog (s : State) (level : LogLevel) (i : AppenderId) : Except NullPointer (List Written) :=
  if level.value ≥ (s.appenders i).m_level.value then
    match (s.appenders i).m_formatter with
    | some formatter => .ok [⟨i,formatter⟩]
    | none => .error .m_formatter
  else .ok []

def appendersLog (s : State) (level : LogLevel) (list : List AppenderId) :
    Except NullPointer (List Written) :=
  (list.mapM (appenderLog s level)).map List.flatten

/-- `Logger::log`, with a bound on the length of the chain of `m_root` pointers. -/
def log : Nat → State → LoggerId → LogLevel → Option (Except NullPointer (List Written))
  | 0,_,_,_ => none
  | depth + 1,s,l,level =>
    let logger := s.loggers l
    if level.value ≥ logger.m_level.value then
      if logger.m_appenders.isEmpty then
        match logger.m_root with
        | some root => log depth s root level
        | none => some (.error .m_root)
      else some (appendersLog s level logger.m_appenders)
    else some (.ok [])

/-! ### The public operations -/

inductive Operation where
  | getRoot
  | getLogger (name : Text)
  | getFileLogger (name path : Text)
  /-- a `Logger` made by its constructor -/
  | newLogger (name : Text)
  /-- an appender made by its constructor -/
  | newAppender (kind : Kind)
  | addAppender (l : LoggerId) (appender : AppenderId)
  | delAppender (l : LoggerId) (appender : AppenderId)
  | clearAppender (l : LoggerId)
  | setLevel (l : LoggerId) (level : LogLevel)
  | setFormatter (l : LoggerId) (val : Text)
  | setPattern (l : LoggerId) (val : Text)

/-- The objects that an operation uses exist. -/
def Operation.valid (s : State) : Operation → Bool
  | .addAppender l appender | .delAppender l appender =>
    decide (l < s.loggerCount) && decide (appender < s.appenderCount)
  | .clearAppender l | .setLevel l _ | .setFormatter l _ | .setPattern l _ => decide (l < s.loggerCount)
  | .getRoot | .getLogger _ | .getFileLogger _ _ | .newLogger _ | .newAppender _ => true

def perform (s : State) : Operation → State
  | .getRoot => s
  | .getLogger name => (getLogger s name).1
  | .getFileLogger name path => (getFileLogger s name path).1
  | .newLogger name => newLogger s (Logger.new name)
  | .newAppender kind => newAppender s kind
  | .addAppender l appender => addAppender s l appender
  | .delAppender l appender => delAppender s l appender
  | .clearAppender l => clearAppender s l
  | .setLevel l level => setLevel s l level
  | .setFormatter l val => setFormatter s l (some val)
  | .setPattern l val => setPattern s l val

def step (s : State) (operation : Operation) : Option State :=
  if operation.valid s then some (perform s operation) else none

abbrev Reachable : State → Prop := Transition.Reachable step start

/-! ### Formatters -/

theorem inherit_formatter (formatter : FormatterPtr) (appender : LogAppender) :
    (appender.inherit formatter).m_formatter = appender.m_formatter.or formatter := by
  cases own : appender.m_formatter <;> simp [LogAppender.inherit,own]

theorem inheritAll_formatter (formatter : FormatterPtr) (appenders : AppenderId → LogAppender)
    (list : List AppenderId) (i : AppenderId) :
    (inheritAll formatter appenders list i).m_formatter =
      if i ∈ list then (appenders i).m_formatter.or formatter else (appenders i).m_formatter := by
  induction list generalizing appenders with
  | nil => simp [inheritAll]
  | cons first list ih =>
    have later := ih (Function.update appenders first ((appenders first).inherit formatter))
    rw [inheritAll,List.foldl_cons,← inheritAll,later]
    by_cases same : i = first
    · subst same
      cases own : (appenders i).m_formatter <;> cases formatter <;>
        simp [inherit_formatter,own]
    · simp [same]

end Myriel.Logging

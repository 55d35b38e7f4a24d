import Myriel.AsyncLogDelay
import Myriel.LoggerFormatter

/-! File loggers by name. `getLogger` and `getFileLogger` share one map, and whichever
call comes first decides what the logger of that name has. What a file logger is given goes
through the buffers of its appender to the file. -/
namespace Myriel.Logging

inductive Call where
  | getLogger (name : Text)
  | getFileLogger (name path : Text)
  deriving DecidableEq

def Call.name : Call → Text
  | getLogger name | getFileLogger name _ => name

def call (s : State) : Call → State × LoggerId
  | .getLogger name => getLogger s name
  | .getFileLogger name path => getFileLogger s name path

def calls (list : List Call) : State := list.foldl (fun s c => (call s c).1) start

section Files
variable {E : Type} (level : E → LogLevel) (render : Text → E → Text) (opens : Text → Bool)

/-- The logger has an appender for the file, which gets the event if the levels of both let it
through, and the text that its formatter makes of the event reaches the file. -/
def WritesTo (s : State) (l : LoggerId) (path : Text) (event : E) : Prop :=
  ∃ i ∈ (s.loggers l).m_appenders, (s.appenders i).kind = .AsycLogAppender path ∧
    ∀ depth, (s.loggers l).m_level.value ≤ (level event).value →
      (s.appenders i).m_level.value ≤ (level event).value →
      ∃ written, log (depth + 1) s l (level event) = some (.ok written) ∧
        ∃ w ∈ written, w.appender = i ∧ AsyncLog.Reaches opens path (render w.m_formatter event)

/-- What is expected of a call of `getFileLogger` behind some other calls. -/
structure FileLogged (before : List Call) (name path : Text) (event : E) : Prop where
  writes : WritesTo level render opens (call (calls before) (.getFileLogger name path)).1
    (call (calls before) (.getFileLogger name path)).2 path event
  same : ∀ between again, again.name = name →
    (call (calls (before ++ .getFileLogger name path :: between)) again).2 =
      (call (calls before) (.getFileLogger name path)).2

end Files

/-- The call that created the logger with the name, where it is not the manager. -/
def creator (list : List Call) (name : Text) : Option Call := list.find? fun c => c.name == name

def ownAppenders (s : State) (l : LoggerId) : Call → Prop
  | .getLogger _ => (s.loggers l).m_appenders = []
  | .getFileLogger _ path => (s.loggers l).m_level = .DEBUG ∧ ∃ i < s.appenderCount,
      (s.loggers l).m_appenders = [i] ∧ s.appenders i = ⟨.AsycLogAppender path,.DEBUG,some defaultPattern⟩

structure Registered (list : List Call) (s : State) : Prop where
  reach : Reachable s
  root : s.m_loggers rootName = some s.m_root
  builtIn : ∃ i < s.appenderCount, (s.loggers s.m_root).m_appenders = [i] ∧
    (s.appenders i).kind = .StdoutLogAppender
  created : ∀ name ≠ rootName, ∀ c, creator list name = some c →
    ∃ l < s.loggerCount, s.m_loggers name = some l ∧ ownAppenders s l c
  absent : ∀ name ≠ rootName, creator list name = none → s.m_loggers name = none

/-! ### One call -/

def Call.operation : Call → Operation
  | getLogger name => .getLogger name
  | getFileLogger name path => .getFileLogger name path

theorem call_step (s : State) (c : Call) : step s c.operation = some (call s c).1 := by
  cases c <;> rfl

theorem call_found {c : Call} (found : s.m_loggers c.name = some l) : call s c = (s,l) := by
  cases c with
  | getLogger name => simp only [Call.name] at found; simp [call,getLogger,found]
  | getFileLogger name path => simp only [Call.name] at found; simp [call,getFileLogger,found]

structure Made (s : State) (c : Call) : Prop where
  created : Created s (call s c).1
  table : (call s c).1.m_loggers = Function.update s.m_loggers c.name (some s.loggerCount)
  result : (call s c).2 = s.loggerCount
  own : ownAppenders (call s c).1 s.loggerCount c

theorem call_made {c : Call} (absent : s.m_loggers c.name = none) : Made s c := by
  cases c with
  | getLogger name =>
    have absent : s.m_loggers name = none := absent
    exact {
      created := getLogger_created absent
      table := by simp [call,getLogger,absent,register,newLogger,setLogger,Call.name]
      result := by simp [call,getLogger,absent]
      own := by simp [ownAppenders,call,getLogger,absent,register,newLogger,setLogger,Logger.new] }
  | getFileLogger name path =>
    have absent : s.m_loggers name = none := absent
    exact {
      created := getFileLogger_created absent path
      table := by
        simp [call,getFileLogger,absent,register,addAppender,newAppender,newLogger,setLogger,Call.name]
      result := by simp [call,getFileLogger,absent]
      own := by
        refine ⟨?_,s.appenderCount,?_,?_,?_⟩
        · simp [call,getFileLogger,absent,register,addAppender,newAppender,newLogger,setLogger,Logger.new]
        · simp [call,getFileLogger,absent,register,addAppender,newAppender,newLogger,setLogger]
        · simp [call,getFileLogger,absent,register,addAppender,newAppender,newLogger,setLogger,Logger.new]
        · simp [call,getFileLogger,absent,register,addAppender,newAppender,newLogger,setLogger,
            LogAppender.inherit,LogAppender.new,Logger.new] }

theorem Created.own (created : Created s next) (inside : l < s.loggerCount) (own : ownAppenders s l c) :
    ownAppenders next l c := by
  cases c with
  | getLogger => simpa [ownAppenders,created.same l inside] using own
  | getFileLogger =>
    obtain ⟨debug,i,made,list,appender⟩ := own
    exact ⟨by simpa [created.same l inside] using debug,i,Nat.lt_of_lt_of_le made created.more,
      by simpa [created.same l inside] using list,by simpa [created.kept i made] using appender⟩

theorem call_keeps (c : Call) (found : s.m_loggers name = some l) :
    (call s c).1.m_loggers name = some l := by
  cases known : s.m_loggers c.name with
  | some k => rw [call_found known]; exact found
  | none => exact (call_made known).created.registered found

theorem call_registers (s : State) (c : Call) : (call s c).1.m_loggers c.name = some (call s c).2 := by
  cases known : s.m_loggers c.name with
  | some k => rw [call_found known]; exact known
  | none => rw [(call_made known).table,(call_made known).result,Function.update_self]

theorem creator_concat (list : List Call) (c : Call) (name : Text) :
    creator (list ++ [c]) name = (creator list name).or (if c.name = name then some c else none) := by
  by_cases same : c.name = name <;> simp [creator,same]

theorem Registered.found (registered : Registered list s) (known : s.m_loggers c.name = some k) :
    Registered (list ++ [c]) s := by
  have old (name : Text) (other : name ≠ rootName) : creator (list ++ [c]) name = creator list name := by
    cases before : creator list name with
    | some first => simp [creator_concat,before]
    | none =>
      have different : c.name ≠ name := by
        rintro rfl
        simp [registered.absent _ other before] at known
      simp [creator_concat,before,different]
  exact { registered with
    created := fun name other first found => registered.created name other first (old name other ▸ found)
    absent := fun name other none => registered.absent name other (old name other ▸ none) }

theorem Registered.made (registered : Registered list s) (made : Made s c) :
    Registered (list ++ [c]) (Logging.call s c).1 where
  reach := registered.reach.next step (call_step s c)
  root := by rw [made.created.root]; exact call_keeps c registered.root
  builtIn := by
    obtain ⟨i,inside,alone,kind⟩ := registered.builtIn
    have rootInside := (reachable_linked registered.reach).root
    refine ⟨i,Nat.lt_of_lt_of_le inside made.created.more,?_,?_⟩
    · simpa [made.created.root,made.created.same _ rootInside] using alone
    · simpa [made.created.kept i inside] using kind
  created := by
    intro name other c' found
    rw [creator_concat] at found
    cases before : creator list name with
    | some first =>
      have same : first = c' := by simpa [before] using found
      subst same
      obtain ⟨l,inside,listed,own⟩ := registered.created name other first before
      refine ⟨l,?_,call_keeps c listed,made.created.own inside own⟩
      rw [made.created.count]
      omega
    | none =>
      obtain ⟨rfl,rfl⟩ : c.name = name ∧ c = c' := by simpa [before] using found
      refine ⟨s.loggerCount,?_,by rw [made.table,Function.update_self],made.own⟩
      rw [made.created.count]
      omega
  absent := by
    intro name other none
    rw [creator_concat,Option.or_eq_none_iff] at none
    have different : name ≠ c.name := by
      rintro rfl
      simp at none
    rw [made.table,Function.update_of_ne different]
    exact registered.absent name other none.1

theorem Registered.call (registered : Registered list s) (c : Call) :
    Registered (list ++ [c]) (call s c).1 := by
  cases known : s.m_loggers c.name with
  | some k =>
    rw [call_found known]
    exact registered.found known
  | none => exact registered.made (call_made known)

/-! ### All calls -/

theorem calls_concat (list : List Call) (c : Call) : calls (list ++ [c]) = (call (calls list) c).1 := by
  simp [calls]

theorem calls_registered (list : List Call) : Registered list (calls list) := by
  induction list using List.reverseRecOn with
  | nil =>
    exact {
      reach := Transition.Reachable.start step start
      root := by simp [calls,start,register,addAppender,newAppender,newLogger,setLogger]
      builtIn := ⟨0,by decide,rfl,rfl⟩
      created := fun _ _ _ found => nomatch found
      absent := by
        intro name other _
        simp [calls,start,register,addAppender,newAppender,newLogger,setLogger,other] }
  | append_singleton list c ih => exact calls_concat list c ▸ ih.call c

theorem calls_keep (before between : List Call) (found : (calls before).m_loggers name = some l) :
    (calls (before ++ between)).m_loggers name = some l := by
  induction between using List.reverseRecOn with
  | nil => simpa using found
  | append_singleton between c ih =>
    rw [← List.append_assoc,calls_concat]
    exact call_keeps c ih

section Files
variable {E : Type} (level : E → LogLevel) (render : Text → E → Text) (opens : Text → Bool)

/-- What comes to the file of a file logger: every event below `DEBUG`, which is none of its own, and
of the others those whose lines a buffer can hold, if the file is opened. -/
def Delivered (path : Text) (event : E) : Prop :=
  LogLevel.DEBUG.value ≤ (level event).value →
    opens path = true ∧ (render defaultPattern event).length < LargeBuffer

theorem file_writes_iff {s : State} {l : LoggerId} {path : Text} (event : E)
    (own : ownAppenders s l (.getFileLogger name path)) :
    WritesTo level render opens s l path event ↔ Delivered level render opens path event := by
  obtain ⟨debug,i,_,alone,appender⟩ := own
  have written (depth : Nat) (passes : LogLevel.DEBUG.value ≤ (level event).value) :
      log (depth + 1) s l (level event) = some (.ok [⟨i,defaultPattern⟩]) := by
    simp [log,debug,alone,appendersLog,appenderLog,appender,passes,Except.map,pure,Except.pure,bind,Except.bind]
  unfold WritesTo Delivered
  simp only [alone,List.mem_singleton,exists_eq_left,appender,debug,true_and]
  constructor
  · intro reaches passes
    obtain ⟨list,wrote,w,member,_,arrives⟩ := reaches 0 passes passes
    rw [written 0 passes] at wrote
    cases wrote
    cases List.mem_singleton.mp member
    exact (AsyncLog.reaches_iff opens path _).mp arrives
  · intro delivered depth passes _
    exact ⟨_,written depth passes,_,List.mem_singleton_self _,rfl,
      (AsyncLog.reaches_iff opens path _).mpr (delivered passes)⟩

/-- The name of the root logger stands for it, and every other name for the logger that
the first call with it has made. -/
theorem writes_iff (registered : Registered list s) (found : s.m_loggers name = some l)
    (first : creator list name = some c) (path : Text) (event : E) :
    WritesTo level render opens s l path event ↔
      name ≠ rootName ∧ c = .getFileLogger name path ∧ Delivered level render opens path event := by
  by_cases root : name = rootName
  · subst root
    obtain ⟨i,_,alone,kind⟩ := registered.builtIn
    have this : l = s.m_root := Option.some.inj (found.symm.trans registered.root)
    subst this
    simp only [ne_eq,not_true_eq_false,false_and,iff_false]
    rintro ⟨j,member,file,_⟩
    rw [alone,List.mem_singleton] at member
    rw [member,kind] at file
    cases file
  · obtain ⟨k,inside,listed,own⟩ := registered.created name root c first
    have this : k = l := Option.some.inj (listed.symm.trans found)
    subst this
    have named : c.name = name := by simpa using List.find?_some first
    cases c with
    | getLogger other =>
      have none : (s.loggers k).m_appenders = [] := own
      simp [WritesTo,none]
    | getFileLogger other path' =>
      obtain rfl : other = name := named
      simp only [ne_eq,root,not_false_eq_true,true_and,Call.getFileLogger.injEq]
      constructor
      · intro writes
        have same : path' = path := by
          obtain ⟨j,member,file,_⟩ := writes
          obtain ⟨_,i,_,alone,appender⟩ := own
          rw [alone,List.mem_singleton] at member
          rw [member,appender] at file
          exact Kind.AsycLogAppender.inj file
        subst path'
        exact ⟨rfl,(file_writes_iff level render opens event own).mp writes⟩
      · rintro ⟨rfl,delivered⟩
        exact (file_writes_iff level render opens event own).mpr delivered

/-- Behind any other calls, a call of `getFileLogger` gives a logger through which an event reaches
the file, and always the same one, exactly when the name is not that of the root logger, the first
call with the name was one of `getFileLogger` with this path, and the event, unless it is below
`DEBUG`, has a line that a buffer can hold and a file that is opened. -/
theorem file_logged_iff (before : List Call) (name path : Text) (event : E) :
    FileLogged level render opens before name path event ↔
      name ≠ rootName ∧ creator (before ++ [.getFileLogger name path]) name = some (.getFileLogger name path) ∧
        (LogLevel.DEBUG.value ≤ (level event).value →
          opens path = true ∧ (render defaultPattern event).length < LargeBuffer) := by
  have registered := calls_registered (before ++ [.getFileLogger name path])
  have listed := call_registers (calls before) (.getFileLogger name path)
  rw [calls_concat] at registered
  obtain ⟨c,first⟩ : ∃ c, creator (before ++ [.getFileLogger name path]) name = some c := by
    cases earlier : creator before name <;> simp [creator_concat,earlier,Call.name]
  have written := writes_iff level render opens registered listed first path event
  rw [first,Option.some.injEq]
  refine ⟨fun logged => written.mp logged.writes,fun right => ⟨written.mpr right,?_⟩⟩
  intro between again same
  rw [← calls_concat] at listed
  have kept := calls_keep _ between listed
  rw [List.append_assoc,List.singleton_append] at kept
  have found : (calls (before ++ .getFileLogger name path :: between)).m_loggers again.name =
    some (call (calls before) (.getFileLogger name path)).2 := same ▸ kept
  rw [call_found found]

end Files

/-- The logger that `getLogger` has registered is returned for the file and has no appender. -/
theorem file_logger_writes_elsewhere :
    ¬ FileLogged (fun _ : Unit => .INFO) (fun _ _ => "line\n".toList) (fun _ => true)
      [.getLogger "system".toList] "system".toList "./bin/log/system.log".toList () := by
  intro logged
  obtain ⟨i,member,_⟩ := logged.writes
  have none : ((call (calls [.getLogger "system".toList])
      (.getFileLogger "system".toList "./bin/log/system.log".toList)).1.loggers 1).m_appenders = [] := rfl
  have member : i ∈ ((call (calls [.getLogger "system".toList])
      (.getFileLogger "system".toList "./bin/log/system.log".toList)).1.loggers 1).m_appenders := member
  rw [none] at member
  cases member

end Myriel.Logging

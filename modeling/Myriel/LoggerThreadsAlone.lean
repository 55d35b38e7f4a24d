import Myriel.LoggerFormatter
import Myriel.LoggerThreadsFile

/-! Logging by one thread after the other. While the mutexes are free and no other thread runs, a
thread gets through what it calls, with the effect that the call has on the loggers without
threads. -/
namespace Myriel.LoggerThreads
open Logging LockMachine

variable {τ E : Type}

/-! ### Without threads -/

inductive Request (E : Type) where
  | operation (op : Operation)
  | LOG_LEVEL (l : LoggerId) (event : E)

structure Serial where
  logging : Logging.State
  lines : AppenderId → List Text

def deliver (render : Text → E → Text) (event : E) (lines : AppenderId → List Text) (written : List Written) :
    AppenderId → List Text :=
  fun i => lines i ++ (written.filter fun w => w.appender = i).map fun w => render w.m_formatter event

/-- An operation, or the event of a `LOG_LEVEL`, with a bound on the chain of `m_root` pointers. -/
def Serial.step (level : E → LogLevel) (render : Text → E → Text) (depth : Nat) (s : Serial) :
    Request E → Option Serial
  | .operation op => (Logging.step s.logging op).map fun logging => { s with logging := logging }
  | .LOG_LEVEL l event =>
    if l < s.logging.loggerCount then
      match Logging.log depth s.logging l (level event) with
      | some (.ok written) => some { s with lines := deliver render event s.lines written }
      | _ => none
    else none

/-- What a system looks like without its threads. -/
def view (s : System τ E) : Serial := ⟨s.logging,fun i => (s.given i).map Delivery.line⟩

def Request.call : Request E → Call τ E
  | .operation op => .operation op
  | .LOG_LEVEL l event => .LOG_LEVEL l event

section Alone
variable [DecidableEq τ] (level : E → LogLevel) (render : Text → E → Text) (t : Thread τ) (s : System τ E)

/-! ### Operations -/

theorem attach_found (s : Logging.State) (l : LoggerId) (i : AppenderId) :
    attach s (s.appenders i).m_formatter l i = Logging.addAppender s l i := rfl

theorem addAppender_runs (locks : List Mutex) (l : LoggerId) (i : AppenderId) (logger : .logger l ∉ locks)
    (appender : .appender i ∉ locks) : ∃ found, Runs (program level render) t locks s [.call (.addAppender l i)]
      { s with logging := Logging.addAppender s.logging l i, found := found } := by
  let found := Function.update s.found t (s.logging.appenders i).m_formatter
  refine ⟨found,.last_call rfl (.last_enter logger rfl (.enter ?_ rfl .nil (.last_call ?_ .nil)))⟩
  · simpa [program,Section.mutex] using appender
  · simp [program,LoggerThreads.call,attach_found,found]

theorem getFileLogger_runs (name path : Text) : ∃ found,
    Runs (program level render) t [] s [.call (.operation (.getFileLogger name path))]
      { s with logging := (Logging.getFileLogger s.logging name path).1, found := found } := by
  cases known : s.logging.m_loggers name with
  | some l =>
    have same : (Logging.getFileLogger s.logging name path).1 = s.logging := by simp [getFileLogger,known]
    have performed : LoggerThreads.perform render t s (.getFileLogger name path) = some (s,[]) := by
      simp [LoggerThreads.perform,known]
    rw [same]
    exact ⟨s.found,.last_call rfl (.last_enter List.not_mem_nil performed .nil)⟩
  | none =>
    let made : System τ E := { s with logging := fileLogger s.logging name path }
    let attached := Logging.addAppender made.logging s.logging.loggerCount s.logging.appenderCount
    have performed : LoggerThreads.perform render t s (.getFileLogger name path) =
        some (made,[.call (.addAppender s.logging.loggerCount s.logging.appenderCount),
          .call (.register name s.logging.loggerCount)]) := by
      simp [LoggerThreads.perform,known,made]
    have same : (Logging.getFileLogger s.logging name path).1 = register attached name s.logging.loggerCount := by
      simp [getFileLogger,known,attached,made,fileLogger,newLogger,setLogger]
    obtain ⟨found,runs⟩ := addAppender_runs level render t made [.manager] s.logging.loggerCount
      s.logging.appenderCount (by simp) (by simp)
    let last : System τ E := { made with logging := register attached name s.logging.loggerCount, found := found }
    have registered : Runs (program level render) t [.manager] { made with logging := attached, found := found }
        [.call (.register name s.logging.loggerCount)] last := .last_call rfl .nil
    rw [same]
    exact ⟨found,.last_call rfl (.last_enter List.not_mem_nil performed (runs.append registered))⟩

/-- A thread alone gets through an operation, and it has the effect that it has without threads. -/
theorem operation_runs (op : Operation) : ∃ found, Runs (program level render) t [] s [.call (.operation op)]
    { s with logging := Logging.perform s.logging op, found := found } := by
  cases op with
  | getRoot | newLogger | newAppender | setLevel | setPattern => exact ⟨s.found,.last_call rfl .nil⟩
  | getLogger | delAppender | clearAppender | setFormatter =>
    exact ⟨s.found,.last_call rfl (.last_enter List.not_mem_nil rfl .nil)⟩
  | addAppender l i =>
    obtain ⟨found,runs⟩ := addAppender_runs level render t s [] l i List.not_mem_nil List.not_mem_nil
    exact ⟨found,.last_call rfl runs⟩
  | getFileLogger name path => exact getFileLogger_runs level render t s name path

end Alone

/-! ### Events -/

theorem deliver_append (render : Text → E → Text) (event : E) (lines : AppenderId → List Text)
    (here rest : List Written) :
    deliver render event (deliver render event lines here) rest = deliver render event lines (here ++ rest) := by
  funext i
  simp [deliver]

structure Told (render : Text → E → Text) (event : E) (written : List Written) (s s' : System τ E) : Prop where
  logging : s'.logging = s.logging
  lines : (view s').lines = deliver render event (view s).lines written
  asyc : ∀ i, AsyncLog.Reachable (s'.asyc i)

section Events
variable {render : Text → E → Text} {event : E} {s s' s'' : System τ E}

theorem Told.nothing (logging : s'.logging = s.logging) (given : s'.given = s.given) (asyc : s'.asyc = s.asyc)
    (machines : ∀ i, AsyncLog.Reachable (s.asyc i)) : Told render event [] s s' where
  logging := logging
  lines := by
    funext i
    simp [view,deliver,given]
  asyc i := asyc ▸ machines i

theorem Told.trans {here rest : List Written} (told : Told render event here s s')
    (more : Told render event rest s' s'') : Told render event (here ++ rest) s s'' where
  logging := more.logging.trans told.logging
  lines := by rw [more.lines,told.lines,deliver_append]
  asyc := more.asyc

theorem Told.one {i : AppenderId} {pattern : Text} {d : Delivery τ E} {asyc : AsyncLog.State}
    (line : d.line = render pattern event) (machines : ∀ i, AsyncLog.Reachable (s.asyc i))
    (reach : AsyncLog.Reachable asyc) : Told render event [⟨i,pattern⟩] s (give (setAsyc s i asyc) i d) where
  logging := rfl
  lines := by
    funext j
    by_cases self : j = i
    · subst j
      simp [view,give,setAsyc,deliver,line]
    · simp [view,give,setAsyc,deliver,self,Ne.symm self]
  asyc j := by
    by_cases self : j = i
    · subst j
      simpa [give,setAsyc] using reach
    · simpa [give,setAsyc,self] using machines j

variable (render) [DecidableEq τ] {level : E → LogLevel} (t : Thread τ) {r : Record τ E} {locks : List Mutex}
  {written : List Written}

theorem appender_runs {i : AppenderId} (l : LoggerId) (machines : ∀ i, AsyncLog.Reachable (s.asyc i))
    (below : ∀ m ∈ locks, m.rank < 3) (wrote : appenderLog s.logging (level r.event) i = .ok written) :
    ∃ s', Runs (program level render) t locks s [.call (.appenderLog l i r)] s' ∧
      Told render r.event written s s' := by
  rcases appenderLog_cases wrote with ⟨low,rfl⟩ | ⟨high,pattern,formatter,rfl⟩
  · refine ⟨s,.last_call ?_ .nil,.nothing rfl rfl rfl machines⟩
    simp [program,LoggerThreads.call,low]
  · cases kind : (s.logging.appenders i).kind with
    | StdoutLogAppender =>
      have unlocked : Mutex.appender i ∉ locks := fun member => absurd (below _ member) (Nat.lt_irrefl 3)
      have same : setAsyc s i (s.asyc i) = s := by simp [setAsyc]
      have told : Told render r.event [⟨i,pattern⟩] s
          (give (setAsyc s i (s.asyc i)) i ⟨l,r,false,render pattern r.event⟩) := .one rfl machines (machines i)
      rw [same] at told
      have called : (program level render).call t s (.appenderLog l i r) = some (s,[.enter (.write l i r)]) := by
        simp [program,LoggerThreads.call,high,kind]
      have performed : (program level render).perform t s (.write l i r) =
          some (give s i ⟨l,r,false,render pattern r.event⟩,[]) := by
        simp [program,LoggerThreads.perform,formatter]
      exact ⟨_,.last_call called (.last_enter (b := Section.write l i r) unlocked performed .nil),told⟩
    | AsycLogAppender path =>
      have unlocked : Mutex.asyc i ∉ locks := fun member => absurd (below _ member) (by simp [Mutex.rank])
      let line := render pattern r.event
      obtain ⟨asyc,appended⟩ := AsyncLog.append_enabled (machines i) line
      have called : (program level render).call t s (.appenderLog l i r) = some (s,[.enter (.append l i r line)]) := by
        simp [program,LoggerThreads.call,high,kind,formatter,line]
      have performed : (program level render).perform t s (.append l i r line) =
          some (give (setAsyc s i asyc) i ⟨l,r,true,line⟩,[]) := by
        simp [program,LoggerThreads.perform,appended]
      exact ⟨_,.last_call called (.last_enter (b := Section.append l i r line) unlocked performed .nil),
        .one rfl machines ((machines i).next AsyncLog.step appended)⟩

theorem appenders_runs {list : List AppenderId} (l : LoggerId) (machines : ∀ i, AsyncLog.Reachable (s.asyc i))
    (below : ∀ m ∈ locks, m.rank < 3) (wrote : appendersLog s.logging (level r.event) list = .ok written) :
    ∃ s', Runs (program level render) t locks s (list.map fun i => .call (.appenderLog l i r)) s' ∧
      Told render r.event written s s' := by
  induction list generalizing s written with
  | nil =>
    cases wrote
    exact ⟨s,.nil,.nothing rfl rfl rfl machines⟩
  | cons i list ih =>
    obtain ⟨here,rest,first,later,rfl⟩ := appendersLog_cons wrote
    obtain ⟨middle,runs,told⟩ := appender_runs render t l machines below first
    rw [← told.logging] at later
    obtain ⟨last,more,ended⟩ := ih told.asyc later
    exact ⟨last,runs.append more,told.trans ended⟩

/-- `Logger::log` and the fall-back to the root logger in it. -/
theorem log_runs {depth : Nat} {l : LoggerId} (rooted : Rooted s) (machines : ∀ i, AsyncLog.Reachable (s.asyc i))
    (below : ∀ m ∈ locks, m.rank < (Mutex.logger l).rank)
    (wrote : Logging.log depth s.logging l (level r.event) = some (.ok written)) :
    ∃ s', Runs (program level render) t locks s [.call (.log l r)] s' ∧ Told render r.event written s s' := by
  induction depth generalizing l locks with
  | zero => cases wrote
  | succ depth ih =>
    rw [Logging.log] at wrote
    split at wrote
    case isFalse low =>
      cases wrote
      refine ⟨suppress s r,.last_call ?_ .nil,.nothing rfl rfl rfl machines⟩
      simp [program,LoggerThreads.call,low]
    case isTrue high =>
      have called : (program level render).call t s (.log l r) = some (s,[.enter (.log l r)]) := by
        simp [program,LoggerThreads.call,high]
      have unlocked : Mutex.logger l ∉ locks := fun member => Nat.lt_irrefl _ (below _ member)
      split at wrote
      case isTrue empty =>
        split at wrote
        case h_1 root link =>
          have performed : (program level render).perform t s (.log l r) = some (s,[.call (.log root r)]) := by
            simp [program,LoggerThreads.perform,empty,link]
          obtain ⟨rfl,other⟩ := rooted.links l root link
          have inner : ∀ m ∈ Mutex.logger l :: locks, m.rank < (Mutex.logger 0).rank := by
            have behind : (Mutex.logger l).rank < (Mutex.logger 0).rank := by simp [Mutex.rank,other]
            exact List.forall_mem_cons.mpr ⟨behind,fun m member => (below m member).trans behind⟩
          obtain ⟨s',runs,told⟩ := ih inner wrote
          exact ⟨s',.last_call called (.last_enter (b := Section.log l r) unlocked performed runs),told⟩
        case h_2 => cases wrote
      case isFalse some_ =>
        let handed : System τ E := { s with handed := s.handed ++ [⟨l,r,(s.logging.loggers l).m_appenders⟩] }
        have performed : (program level render).perform t s (.log l r) =
            some (handed,(s.logging.loggers l).m_appenders.map fun i => .call (.appenderLog l i r)) := by
          simp [program,LoggerThreads.perform,some_,handed]
        have inner : ∀ m ∈ Mutex.logger l :: locks, m.rank < 3 := by
          have bound := (rank_logger l).2
          refine List.forall_mem_cons.mpr ⟨by omega,fun m member => ?_⟩
          have := below m member
          omega
        obtain ⟨s',runs,told⟩ := appenders_runs render t (s := handed) l machines inner (Option.some.inj wrote)
        exact ⟨s',.last_call called (.last_enter (b := Section.log l r) unlocked performed runs),
          told.logging,told.lines,told.asyc⟩

/-- A thread alone gets through `LOG_LEVEL` where `Logger::log` meets no null pointer. -/
theorem event_runs {depth : Nat} {l : LoggerId} {event : E} (rooted : Rooted s)
    (machines : ∀ i, AsyncLog.Reachable (s.asyc i))
    (wrote : Logging.log depth s.logging l (level event) = some (.ok written)) :
    ∃ s', Runs (program level render) t [] s [.call (.LOG_LEVEL l event)] s' ∧ Told render event written s s' := by
  let noted : System τ E := { s with events := Function.update s.events t (s.events t ++ [(l,event)]) }
  by_cases passes : (s.logging.loggers l).m_level.value ≤ (level event).value
  · have outside : ∀ m ∈ ([] : List Mutex), m.rank < (Mutex.logger l).rank := by simp
    obtain ⟨s',runs,told⟩ := log_runs render t (s := noted) (r := ⟨t,(s.events t).length,l,event⟩) (rooted.congr rfl)
      machines outside wrote
    refine ⟨s',.last_call ?_ runs,told.logging,told.lines,told.asyc⟩
    simp [program,LoggerThreads.call,passes,noted]
  · obtain rfl : written = [] := by
      cases depth with
      | zero => cases wrote
      | succ depth =>
        rw [Logging.log,if_neg passes] at wrote
        cases wrote
        rfl
    refine ⟨suppress noted ⟨t,(s.events t).length,l,event⟩,.last_call ?_ .nil,.nothing rfl rfl rfl machines⟩
    simp [program,LoggerThreads.call,passes,noted]

end Events

/-! ### Requests -/

def alone (turn : (τ × Request E) × Nat) : List (Action (Thread τ) (Call τ E)) :=
  .invoke (.client turn.1.1) turn.1.2.call :: List.replicate turn.2 (.run (.client turn.1.1))

section Requests
variable [DecidableEq τ] {level : E → LogLevel} {render : Text → E → Text} {s : State τ E}

theorem request_alone {t : τ} {request : Request E} {depth : Nat} {next : Serial} (reach : Reachable level render s)
    (free : ∀ m, s.owner m = none) (idle : s.threads (.client t) = [])
    (stepped : Serial.step level render depth (view s.shared) request = some next) :
    ∃ n shared, Transition.run (step (program level render)) s (alone ((t,request),n)) =
      some { s with shared := shared } ∧ view shared = next := by
  cases request with
  | operation op =>
    obtain ⟨logging,taken,rfl⟩ := Option.map_eq_some_iff.mp stepped
    simp only [Logging.step,Option.ite_none_right_eq_some,Option.some.injEq] at taken
    obtain ⟨valid,rfl⟩ := taken
    obtain ⟨found,runs⟩ := operation_runs level render (.client t) s.shared op
    have allowed : (program level render).invocable (.client t) s.shared (.operation op) = true := by
      simpa [program,invocable,view] using valid
    obtain ⟨n,ran⟩ := runs.invoked idle allowed free
    exact ⟨n,_,ran,rfl⟩
  | LOG_LEVEL l event =>
    simp only [Serial.step,Option.ite_none_right_eq_some] at stepped
    obtain ⟨inside,stepped⟩ := stepped
    split at stepped
    case h_1 written wrote =>
      cases stepped
      have rooted := (reachable_orderly program_keeps begin_rooted reach).good
      have filed := (reachable_fitting program_preserves begin_filed reach).good
      obtain ⟨shared,runs,told⟩ := event_runs render (.client t) rooted (fun i => (filed.asyc i).1) wrote
      have allowed : (program level render).invocable (.client t) s.shared (.LOG_LEVEL l event) = true := by
        simpa [program,invocable,view] using inside
      obtain ⟨n,ran⟩ := runs.invoked idle allowed free
      refine ⟨n,shared,ran,?_⟩
      rw [← told.lines]
      exact congrArg (Serial.mk · _) told.logging
    case h_2 => cases stepped

/-- What the loggers do without threads is a run of the threads: from any reachable state in which
no mutex is held, clients that have nothing to do can make their requests one after the other,
each while no other thread runs, and the loggers and the lines that the appenders have been given
are those without threads. The other threads stay where they are. -/
theorem requests_alone (level : E → LogLevel) (render : Text → E → Text) (depth : Nat) (s : State τ E)
    (reach : Reachable level render s) (free : ∀ m, s.owner m = none) (requests : List (τ × Request E))
    (idle : ∀ q ∈ requests, s.threads (.client q.1) = []) (final : Serial)
    (ran : Transition.run (Serial.step level render depth) (view s.shared) (requests.map Prod.snd) = some final) :
    ∃ turns : List ((τ × Request E) × Nat), turns.map Prod.fst = requests ∧
      ∃ shared, Transition.run (step (program level render)) s (turns.flatMap alone) =
        some { s with shared := shared } ∧ view shared = final := by
  induction requests generalizing s with
  | nil =>
    cases ran
    exact ⟨[],rfl,s.shared,rfl,rfl⟩
  | cons first requests ih =>
    obtain ⟨firstIdle,restIdle⟩ := List.forall_mem_cons.mp idle
    obtain ⟨middle,stepped,later⟩ := (Transition.run_cons_some _).mp ran
    obtain ⟨n,shared,begun,rfl⟩ := request_alone reach free firstIdle stepped
    have reached : Reachable level render { s with shared := shared } := by
      obtain ⟨actions,before⟩ := reach
      exact ⟨_,(Transition.run_append_some _).mpr ⟨s,before,begun⟩⟩
    obtain ⟨turns,rfl,last,ended,seen⟩ := ih { s with shared := shared } reached free restIdle later
    refine ⟨(first,n) :: turns,rfl,last,?_,seen⟩
    rw [List.flatMap_cons]
    exact (Transition.run_append_some _).mpr ⟨_,begun,ended⟩

theorem requests_alone_two : ∃ final,
    Transition.run (Serial.step (fun _ => .INFO) (fun _ _ => ['a']) 2) (view (begin : System Bool Unit))
      [.operation (.getFileLogger ['l'] ['p']),.LOG_LEVEL 1 ()] = some final ∧ final.lines 1 = [['a']] ∧
    ∃ turns : List ((Bool × Request Unit) × Nat),
      turns.map Prod.fst = [(false,.operation (.getFileLogger ['l'] ['p'])),(true,.LOG_LEVEL 1 ())] ∧
      ∃ shared, Transition.run (step (program (fun _ => .INFO) fun _ _ => ['a'])) (start begin)
        (turns.flatMap alone) = some { (start begin : State Bool Unit) with shared := shared } ∧ view shared = final := by
  have ran : ∃ final, Transition.run (Serial.step (fun _ => .INFO) (fun _ _ => ['a']) 2)
      (view (begin : System Bool Unit)) [.operation (.getFileLogger ['l'] ['p']),.LOG_LEVEL 1 ()] = some final ∧
      final.lines 1 = [['a']] := ⟨_,rfl,rfl⟩
  obtain ⟨final,ran,line⟩ := ran
  refine ⟨final,ran,line,?_⟩
  exact requests_alone _ _ 2 (start begin) (.start _ _) (fun _ => rfl)
    [(false,.operation (.getFileLogger ['l'] ['p'])),(true,.LOG_LEVEL 1 ())] (fun _ _ => rfl) final ran

end Requests

end Myriel.LoggerThreads

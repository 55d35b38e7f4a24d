import Myriel.LoggerThreadsOrder

/-! What the appenders of a logger are given. A logger keeps its mutex until all its appenders
have been called, so they get the same events in the same order. -/
namespace Myriel.LoggerThreads
open Logging LockMachine

variable {τ E : Type}

/-- No operation changes the level of an appender. -/
def accepts (level : E → LogLevel) (r : Record τ E) : Bool :=
  decide ((level r.event).value ≥ LogLevel.DEBUG.value)

structure Due (τ E : Type) where
  logger : LoggerId
  appender : AppenderId
  record : Record τ E

def Call.due (level : E → LogLevel) : Call τ E → Option (Due τ E)
  | .appenderLog l i r => if accepts level r then some ⟨l,i,r⟩ else none
  | _ => none

def Section.due : Section τ E → Option (Due τ E)
  | .write l i r | .append l i r _ => some ⟨l,i,r⟩
  | _ => none

def codeDue (level : E → LogLevel) : Code (Call τ E) (Section τ E) → Option (Due τ E)
  | .call a => a.due level
  | .enter b => b.due

def instrDue (level : E → LogLevel) : Instr Mutex (Call τ E) (Section τ E) → Option (Due τ E)
  | .code c => codeDue level c
  | .perform b => b.due
  | .leave _ => none

def Due.meant (l : LoggerId) (i : AppenderId) (due : Due τ E) : Option (Record τ E) :=
  if due.logger = l ∧ due.appender = i then some due.record else none

/-- What is in the hands of a thread for an appender, from a logger. -/
def pending (level : E → LogLevel) (l : LoggerId) (i : AppenderId)
    (code : List (Instr Mutex (Call τ E) (Section τ E))) : List (Record τ E) :=
  (code.filterMap (instrDue level)).filterMap (Due.meant l i)

/-- What an appender has been given by a logger. -/
def told (s : System τ E) (l : LoggerId) (i : AppenderId) : List (Record τ E) :=
  ((s.given i).filter fun d => d.logger == l).map Delivery.record

/-- An appender is due each event that it accepts as often as the logger had it in its list. -/
def share (level : E → LogLevel) (l : LoggerId) (i : AppenderId) (handed : List (Handing τ E)) : List (Record τ E) :=
  (handed.filter fun h => h.logger == l).flatMap fun h =>
    if accepts level h.record then List.replicate (h.appenders.count i) h.record else []

/-- What is on its way from a logger to an appender: only the thread in the section of the
logger has any of it. -/
def waiting (level : E → LogLevel) (s : State τ E) (l : LoggerId) (i : AppenderId) : List (Record τ E) :=
  match s.owner (.logger l) with
  | some t => pending level l i (s.threads t)
  | none => []

/-- All appenders write from `DEBUG` on, and every event that a logger has handed on has come to
its appenders or is on its way. -/
structure Shared (level : E → LogLevel) (s : State τ E) : Prop where
  levels : ∀ i, (s.shared.logging.appenders i).m_level = .DEBUG
  shares : ∀ l i, told s.shared l i ++ waiting level s l i = share level l i s.shared.handed

/-! ### What is pending -/

theorem instrDue_wants (level : E → LogLevel) {instr : Instr Mutex (Call τ E) (Section τ E)} {due : Due τ E}
    (found : instrDue level instr = some due) : rules.wants instr (.logger due.logger) := by
  cases instr with
  | code c =>
    cases c with
    | call a =>
      cases a with
      | appenderLog l i r =>
        obtain ⟨_,same⟩ := Option.ite_none_right_eq_some.mp found
        cases same
        rfl
      | _ => cases found
    | enter b => cases b <;> cases found <;> rfl
  | perform b => cases b <;> cases found <;> rfl
  | leave m => cases found

theorem pending_nil (level : E → LogLevel) {p : Program (Thread τ) Mutex (System τ E) (Call τ E) (Section τ E)}
    {l : LoggerId} {code : List (Instr Mutex (Call τ E) (Section τ E))} (fine : Fine p rules code)
    (free : .logger l ∉ held p code) (i : AppenderId) : pending level l i code = [] := by
  induction code with
  | nil => rfl
  | cons instr code ih =>
    have below : .logger l ∉ held p code := by
      intro member
      apply free
      cases instr with
      | code => exact member
      | perform | leave => exact List.mem_cons_of_mem _ member
    have later := ih fine.2.2 below
    rw [pending] at later ⊢
    cases found : instrDue level instr with
    | none => rwa [List.filterMap_cons_none found]
    | some due =>
      rw [List.filterMap_cons_some found,List.filterMap_cons_none,later]
      refine if_neg fun ⟨same,_⟩ => ?_
      have wants := fine.2.1 _ (instrDue_wants level found)
      rw [same] at wants
      exact below wants

theorem pending_stack (level : E → LogLevel) (l : LoggerId) (i : AppenderId)
    (body : List (Code (Call τ E) (Section τ E))) (code : List (Instr Mutex (Call τ E) (Section τ E))) :
    pending level l i (Code.stack body code) =
      (body.filterMap (codeDue level)).filterMap (Due.meant l i) ++ pending level l i code := by
  simp [pending,Code.stack,List.filterMap_append,List.filterMap_map,Function.comp_def,instrDue]

theorem pending_cons (level : E → LogLevel) (l : LoggerId) (i : AppenderId)
    (instr : Instr Mutex (Call τ E) (Section τ E)) (code : List (Instr Mutex (Call τ E) (Section τ E))) :
    pending level l i (instr :: code) = ((instrDue level instr).bind (Due.meant l i)).toList ++ pending level l i code := by
  cases found : instrDue level instr with
  | none => simp [pending,found]
  | some due => cases meant : due.meant l i <;> simp [pending,found,meant]

/-- The appenders of a list are due the event as often as they are in it. -/
theorem due_list (level : E → LogLevel) (l k : LoggerId) (i : AppenderId) (r : Record τ E) (list : List AppenderId) :
    ((list.map fun j => (Code.call (Call.appenderLog k j r) : Code (Call τ E) (Section τ E))).filterMap
        (codeDue level)).filterMap (Due.meant l i) =
      share level l i [⟨k,r,list⟩] := by
  induction list with
  | nil => simp [share]
  | cons j list ih =>
    by_cases accepted : accepts level r = true
    · by_cases here : k = l
      · by_cases this : j = i <;> simp_all [share,codeDue,Call.due,Due.meant,List.replicate_succ]
      · simp_all [share,codeDue,Call.due,Due.meant]
    · by_cases here : k = l <;> simp_all [share,codeDue,Call.due]

/-! ### The parts of a step -/

section Steps
variable [DecidableEq τ] {level : E → LogLevel} {render : Text → E → Text} {t : Thread τ} {s s' : System τ E}
  {body : List (Code (Call τ E) (Section τ E))}

theorem inheritAll_level (formatter : FormatterPtr) (appenders : AppenderId → LogAppender) (list : List AppenderId)
    (i : AppenderId) : (inheritAll formatter appenders list i).m_level = (appenders i).m_level := by
  induction list generalizing appenders with
  | nil => rfl
  | cons first list ih =>
    rw [inheritAll,List.foldl_cons,← inheritAll,ih]
    by_cases self : i = first
    · subst i
      simp only [Function.update_self,LogAppender.inherit]
      split <;> rfl
    · rw [Function.update_of_ne self]

theorem called_due (levels : ∀ i, (s.logging.appenders i).m_level = .DEBUG) {a : Call τ E}
    (called : Called level render t s a s' body) :
    s'.given = s.given ∧ s'.handed = s.handed ∧ body.filterMap (codeDue level) = (a.due level).toList := by
  cases called with
  | operation op => cases op <;> exact ⟨rfl,rfl,rfl⟩
  | @print i _ r accepted | @buffer i _ _ _ r accepted =>
    rw [levels] at accepted
    have passes : accepts level r = true := decide_eq_true accepted
    exact ⟨rfl,rfl,by simp [codeDue,Call.due,Section.due,passes]⟩
  | @refuse i _ r rejects =>
    rw [levels] at rejects
    have fails : accepts level r = false := decide_eq_false rejects
    exact ⟨rfl,rfl,by simp [Call.due,fails]⟩
  | event | quiet | log | below | addAppender | attach | register | getFormatter | stop | join | ends | head
  | waited | tested | again | writing => exact ⟨rfl,rfl,rfl⟩

theorem called_levels (levels : ∀ i, (s.logging.appenders i).m_level = .DEBUG) {a : Call τ E}
    (called : Called level render t s a s' body) (i : AppenderId) : (s'.logging.appenders i).m_level = .DEBUG := by
  cases called with
  | operation op =>
    cases op with
    | newAppender kind =>
      by_cases self : i = s.logging.appenderCount
      · subst i; simp [operation,Logging.perform,newAppender,LogAppender.new]
      · simpa [operation,Logging.perform,newAppender,self] using levels i
    | _ => exact levels i
  | @attach l j =>
    by_cases self : i = j
    · subst i
      simp only [attach,Function.update_self]
      split <;> exact levels j
    · simpa [attach,self] using levels i
  | _ => exact levels i

theorem performed_levels (levels : ∀ i, (s.logging.appenders i).m_level = .DEBUG) {b : Section τ E}
    (performed : Performed render t s b s' body) (i : AppenderId) : (s'.logging.appenders i).m_level = .DEBUG := by
  cases performed with
  | @getLogger name =>
    simp only [Logging.getLogger]
    split <;> exact levels i
  | getFileLogger =>
    by_cases self : i = s.logging.appenderCount
    · subst i; simp [fileLogger,newAppender,newLogger,setLogger,LogAppender.new]
    · simpa [fileLogger,newAppender,newLogger,setLogger,self] using levels i
  | setFormatter => exact (inheritAll_level _ _ _ i).trans (levels i)
  | _ => exact levels i

/-- A section does one of three things: it hands an event on to the appenders, it gives one to
an appender, or neither. -/
inductive Handles (level : E → LogLevel) (s s' : System τ E) : Section τ E → List (Code (Call τ E) (Section τ E)) → Prop where
  | hand (given : s'.given = s.given)
      (handed : s'.handed = s.handed ++ [⟨l,r,list⟩]) :
      Handles level s s' (.log l r) (list.map fun i => .call (.appenderLog l i r))
  | give (due : b.due = some ⟨l,i,r⟩) (handed : s'.handed = s.handed)
      (given : s'.given = Function.update s.given i (s.given i ++ [⟨l,r,buffered,line⟩])) : Handles level s s' b []
  | neither (due : b.due = none) (bodyDue : more.filterMap (codeDue level) = []) (given : s'.given = s.given)
      (handed : s'.handed = s.handed) : Handles level s s' b more

theorem performed_handles (level : E → LogLevel) {b : Section τ E} (performed : Performed render t s b s' body) :
    Handles level s s' b body := by
  cases performed with
  | log => exact .hand rfl rfl
  | write => exact .give rfl rfl rfl
  | append => exact .give rfl rfl rfl
  | getLogger | known | getFileLogger | addAppender | delAppender | clearAppender | setFormatter | root
  | getFormatter | test | swap => exact .neither rfl rfl rfl rfl

end Steps

/-! ### Steps -/

section Machine
variable [DecidableEq τ] {level : E → LogLevel} {render : Text → E → Text} {s : State τ E} {t : Thread τ}

theorem waiting_setThread (s : State τ E) (t : Thread τ) (next : System τ E)
    (code : List (Instr Mutex (Call τ E) (Section τ E))) (l : LoggerId) (i : AppenderId) :
    waiting level (setThread { s with shared := next } t code) l i =
      if s.owner (.logger l) = some t then pending level l i code else waiting level s l i := by
  cases owner : s.owner (.logger l) with
  | none => simp [waiting,setThread,owner]
  | some u =>
    by_cases self : u = t
    · subst u; simp [waiting,setThread,owner]
    · simp [waiting,setThread,owner,self]

omit [DecidableEq τ] in
theorem waiting_owner (owns : s.owner (.logger l) = some t) (i : AppenderId) :
    waiting level s l i = pending level l i (s.threads t) := by
  simp [waiting,owns]

theorem waiting_other {m : Mutex} (owner : Option (Thread τ)) {l : LoggerId} (other : Mutex.logger l ≠ m)
    {code : List (Instr Mutex (Call τ E) (Section τ E))} {i : AppenderId}
    (same : pending level l i code = pending level l i (s.threads t)) :
    waiting level (setThread { s with owner := Function.update s.owner m owner } t code) l i = waiting level s l i := by
  cases owns : s.owner (.logger l) with
  | none => simp [waiting,setThread,other,owns]
  | some u =>
    by_cases self : u = t
    · subst u; simp [waiting,setThread,other,owns,same]
    · simp [waiting,setThread,other,owns,self]

theorem Shared.move (shared : Shared level s) {next : System τ E}
    {code : List (Instr Mutex (Call τ E) (Section τ E))}
    (levels : ∀ i, (next.logging.appenders i).m_level = .DEBUG) (given : next.given = s.shared.given)
    (handed : next.handed = s.shared.handed)
    (same : ∀ l i, pending level l i code = pending level l i (s.threads t)) :
    Shared level (setThread { s with shared := next } t code) where
  levels := levels
  shares l i := by
    rw [waiting_setThread,same]
    have before := shared.shares l i
    by_cases owns : s.owner (.logger l) = some t
    · rw [waiting_owner owns] at before
      simpa [owns,setThread,told,given,handed] using before
    · simpa [owns,setThread,told,given,handed] using before

theorem Shared.call (shared : Shared level s) {a : Call τ E} {rest : List (Instr Mutex (Call τ E) (Section τ E))}
    {next : System τ E} {body : List (Code (Call τ E) (Section τ E))}
    (code : s.threads t = .code (.call a) :: rest) (called : Called level render t s.shared a next body) :
    Shared level (setThread { s with shared := next } t (Code.stack body rest)) := by
  obtain ⟨given,handed,due⟩ := called_due shared.levels called
  apply shared.move (called_levels shared.levels called) given handed
  intro l i
  rw [pending_stack,due,code,pending_cons]
  congr 1
  cases found : a.due level with
  | none => simp [instrDue,codeDue,found]
  | some due => cases meant : due.meant l i <;> simp [instrDue,codeDue,found,meant]

/-- The event is handed on: from now on the appenders of the list are due it. -/
theorem Shared.hand (shared : Shared level s) (orderly : Orderly (program level render) rules Rooted s)
    {k : LoggerId} {r : Record τ E} {list : List AppenderId} {rest : List (Instr Mutex (Call τ E) (Section τ E))}
    {next : System τ E} (code : s.threads t = .perform (.log k r) :: rest)
    (levels : ∀ i, (next.logging.appenders i).m_level = .DEBUG) (given : next.given = s.shared.given)
    (handed : next.handed = s.shared.handed ++ [⟨k,r,list⟩]) :
    Shared level (setThread { s with shared := next } t
      (Code.stack (list.map fun i => .call (.appenderLog k i r)) (.leave (.logger k) :: rest))) where
  levels := levels
  shares l i := by
    have fine := orderly.fine t
    rw [code] at fine
    have before := shared.shares l i
    have same : told next l i = told s.shared l i := by simp [told,given]
    have grown : share level l i next.handed = share level l i s.shared.handed ++ share level l i [⟨k,r,list⟩] := by
      rw [handed]
      simp only [share,List.filter_append,List.flatMap_append]
    change told next l i ++ waiting level (setThread { s with shared := next } t _) l i = share level l i next.handed
    rw [waiting_setThread,pending_stack,due_list,pending_cons,same,grown,← before]
    by_cases here : k = l
    · subst k
      have owns : s.owner (.logger l) = some t := by
        apply (orderly.owned _ t).mpr
        rw [code]
        exact List.mem_cons_self
      -- nothing else of the logger is in the hands of its owner
      have nothing := pending_nil level fine.2.2 fine.perform_fresh i
      rw [waiting_owner owns,code,pending_cons,nothing]
      simp [owns,instrDue,Section.due]
    · have others : share level l i [⟨k,r,list⟩] = [] := by simp [share,here]
      by_cases owns : s.owner (.logger l) = some t
      · rw [waiting_owner owns,code,pending_cons]
        simp [owns,others,instrDue,Section.due]
      · simp [owns,others]

theorem Shared.give (shared : Shared level s) (orderly : Orderly (program level render) rules Rooted s)
    {b : Section τ E} {j : AppenderId} {d : Delivery τ E}
    {rest : List (Instr Mutex (Call τ E) (Section τ E))} {next : System τ E}
    (code : s.threads t = .perform b :: rest) (due : b.due = some ⟨d.logger,j,d.record⟩)
    (levels : ∀ i, (next.logging.appenders i).m_level = .DEBUG) (handed : next.handed = s.shared.handed)
    (given : next.given = Function.update s.shared.given j (s.shared.given j ++ [d])) :
    Shared level (setThread { s with shared := next } t (.leave b.mutex :: rest)) where
  levels := levels
  shares l i := by
    have fine := orderly.fine t
    rw [code] at fine
    have owns : s.owner (.logger d.logger) = some t := by
      apply (orderly.owned _ t).mpr
      rw [code]
      have wants : rules.wants (.perform b) (.logger d.logger) := @instrDue_wants τ E level (.perform b) _ due
      exact List.mem_cons_of_mem _ (fine.2.1 _ wants)
    have before := shared.shares l i
    rw [waiting_setThread,pending_cons]
    by_cases here : d.logger = l
    · subst l
      rw [waiting_owner owns,code,pending_cons] at before
      by_cases this : j = i
      · subst j
        simpa [owns,instrDue,due,Due.meant,setThread,told,given,handed] using before
      · simpa [owns,instrDue,due,Due.meant,this,setThread,told,given,handed,Ne.symm this] using before
    · have same : told next l i = told s.shared l i := by
        by_cases this : j = i
        · subst j; simp [told,given,here]
        · simp [told,given,Ne.symm this]
      by_cases holds : s.owner (.logger l) = some t
      · rw [waiting_owner holds,code,pending_cons] at before
        simpa [holds,instrDue,due,Due.meant,here,setThread,same,handed] using before
      · simpa [holds,setThread,same,handed] using before

theorem Shared.perform (shared : Shared level s) (orderly : Orderly (program level render) rules Rooted s)
    {b : Section τ E} {rest : List (Instr Mutex (Call τ E) (Section τ E))} {next : System τ E}
    {body : List (Code (Call τ E) (Section τ E))} (code : s.threads t = .perform b :: rest)
    (performed : Performed render t s.shared b next body) :
    Shared level (setThread { s with shared := next } t (Code.stack body (.leave b.mutex :: rest))) := by
  have levels := performed_levels shared.levels performed
  cases performed_handles level performed with
  | hand given handed => exact shared.hand orderly code levels given handed
  | give due handed given => exact shared.give orderly code due levels handed given
  | neither due bodyDue given handed =>
    apply shared.move levels given handed
    intro l i
    rw [pending_stack,bodyDue,code,pending_cons,pending_cons]
    simp [instrDue,due]

theorem Shared.enter (shared : Shared level s) (orderly : Orderly (program level render) rules Rooted s)
    {b : Section τ E} {rest : List (Instr Mutex (Call τ E) (Section τ E))}
    (code : s.threads t = .code (.enter b) :: rest) (free : s.owner b.mutex = none) :
    Shared level (setThread { s with owner := Function.update s.owner b.mutex (some t) } t (.perform b :: rest)) where
  levels := shared.levels
  shares l i := by
    have before := shared.shares l i
    have same : pending level l i (.perform b :: rest) = pending level l i (s.threads t) := by
      rw [code,pending_cons,pending_cons]
      rfl
    by_cases taken : Mutex.logger l = b.mutex
    · -- the mutex was free, and nobody had anything of the logger in hand
      have unheld : Mutex.logger l ∉ held (program level render) (s.threads t) := by
        rw [← orderly.owned,taken,free]
        exact nofun
      have nothing := pending_nil level (orderly.fine t) unheld i
      simp only [waiting,taken,free,List.append_nil] at before
      simpa [waiting,setThread,taken,same,nothing] using before
    · rw [waiting_other _ taken same]
      exact before

theorem Shared.leave (shared : Shared level s) (orderly : Orderly (program level render) rules Rooted s)
    {m : Mutex} {rest : List (Instr Mutex (Call τ E) (Section τ E))} (code : s.threads t = .leave m :: rest) :
    Shared level (setThread { s with owner := Function.update s.owner m none } t rest) where
  levels := shared.levels
  shares l i := by
    have fine := orderly.fine t
    rw [code] at fine
    have before := shared.shares l i
    have same : pending level l i rest = pending level l i (s.threads t) := by
      rw [code,pending_cons]
      rfl
    by_cases left : Mutex.logger l = m
    · subst m
      have owns : s.owner (.logger l) = some t := by
        apply (orderly.owned _ t).mpr
        rw [code]
        exact List.mem_cons_self
      rw [waiting_owner owns,← same,pending_nil level fine.2.2 fine.leave_fresh] at before
      simpa [waiting,setThread] using before
    · rw [waiting_other _ left same]
      exact before

theorem effect_shared (shared : Shared level s) (orderly : Orderly (program level render) rules Rooted s)
    {action : Action (Thread τ) (Call τ E)} {next : State τ E}
    (effect : Effect (program level render) s action next) : Shared level next := by
  cases effect with
  | @invoke t a idle invocable =>
    apply shared.move shared.levels rfl rfl
    intro l i
    rw [idle,pending_cons]
    cases a <;> first | rfl | cases invocable
  | call code called => exact shared.call code (call_called level render called)
  | enter code free => exact shared.enter orderly code free
  | perform code performed => exact shared.perform orderly code (perform_performed render performed)
  | leave code => exact shared.leave orderly code

omit [DecidableEq τ] in
theorem begin_shared (level : E → LogLevel) : Shared level (LockMachine.start begin : State τ E) where
  levels i := by
    by_cases first : i = 0
    · subst i; rfl
    · simp [LockMachine.start,begin,Logging.start,register,addAppender,newAppender,newLogger,setLogger,first,
        LogAppender.new]
  shares l i := rfl

theorem reachable_shared (reach : Reachable level render s) : Shared level s := by
  have both := reach.invariant _ (fun s => Orderly (program level render) rules Rooted s ∧ Shared level s)
    (fun _ _ _ both taken =>
      have effect := step_effect _ taken
      ⟨effect_orderly program_keeps both.1 effect,effect_shared both.2 both.1 effect⟩)
    ⟨start_orderly begin_rooted,begin_shared level⟩
  exact both.2

/-- Each appender has been given, by each logger, the first of the events that it is due, in the
order in which the logger was locked for them, and all of them where no thread is in the logger.
Appenders that a logger had equally often have been given the same ones, as far as they go. -/
theorem loggers_deliver (level : E → LogLevel) (render : Text → E → Text) (s : State τ E)
    (reach : Reachable level render s) (l : LoggerId) :
    (∀ i, told s.shared l i <+: share level l i s.shared.handed ∧
      (s.owner (.logger l) = none → told s.shared l i = share level l i s.shared.handed)) ∧
    ∀ i j, (∀ h ∈ s.shared.handed, h.logger = l → h.appenders.count i = h.appenders.count j) →
      told s.shared l i <+: told s.shared l j ∨ told s.shared l j <+: told s.shared l i := by
  have shares := (reachable_shared reach).shares l
  have first (i : AppenderId) : told s.shared l i <+: share level l i s.shared.handed := ⟨_,shares i⟩
  refine ⟨fun i => ⟨first i,fun free => ?_⟩,fun i j alike => ?_⟩
  · have nothing : waiting level s l i = [] := by simp [waiting,free]
    rw [← shares i,nothing,List.append_nil]
  · have same : share level l i s.shared.handed = share level l j s.shared.handed := by
      unfold share
      refine List.flatMap_congr fun h member => ?_
      obtain ⟨inside,here⟩ := List.mem_filter.mp member
      rw [alike h inside (eq_of_beq here)]
    exact List.prefix_or_prefix_of_prefix (first i) (same ▸ first j)

end Machine

/-- The root logger has two appenders. A thread logs with it, and while that one is in the root
logger another thread logs with a logger that has no appender, and comes to the root logger. -/
def twoEvents : List (Action (Thread Bool) (Call Bool Unit)) :=
  let turn (t : Bool) (n : Nat) : List (Action (Thread Bool) (Call Bool Unit)) := List.replicate n (.run (.client t))
  .invoke (.client false) (.operation (.newAppender .StdoutLogAppender)) :: turn false 1 ++
    .invoke (.client false) (.operation (.addAppender 0 1)) :: turn false 9 ++
    .invoke (.client true) (.operation (.getLogger ['l'])) :: turn true 4 ++
    .invoke (.client false) (.LOG_LEVEL 0 ()) :: turn false 4 ++
    .invoke (.client true) (.LOG_LEVEL 1 ()) :: turn true 4 ++ turn false 9 ++ turn true 9

theorem both_appenders {handed : List (Handing Bool Unit)}
    (lists : handed.map Handing.appenders = [[0,1],[0,1]]) : ∀ h ∈ handed, h.appenders = [0,1] := by
  intro h member
  have list : h.appenders ∈ [[0,1],[0,1]] := lists ▸ List.mem_map_of_mem member
  simpa using list

/-- The second appender has been given one of the events, and is to be given the other. -/
theorem loggers_deliver_two : ∃ s : State Bool Unit,
    Transition.run (step (program (fun _ => .INFO) fun _ _ => [])) (start begin) twoEvents = some s ∧
    (told s.shared 0 0).length = 2 ∧ (told s.shared 0 1).length = 1 ∧ told s.shared 0 1 <+: told s.shared 0 0 := by
  have ran : ∃ s : State Bool Unit,
      Transition.run (step (program (fun _ => .INFO) fun _ _ => [])) (start begin) twoEvents = some s ∧
      (told s.shared 0 0).length = 2 ∧ (told s.shared 0 1).length = 1 ∧
      s.shared.handed.map Handing.appenders = [[0,1],[0,1]] := ⟨_,rfl,rfl,rfl,rfl⟩
  obtain ⟨s,ran,two,one,lists⟩ := ran
  have alike : ∀ h ∈ s.shared.handed, h.logger = 0 → h.appenders.count 0 = h.appenders.count 1 := by
    intro h member _
    rw [both_appenders lists h member]
    rfl
  have more : ¬ told s.shared 0 0 <+: told s.shared 0 1 := fun front => by
    have length := front.length_le
    omega
  exact ⟨s,ran,two,one,((loggers_deliver _ _ s ⟨_,ran⟩ 0).2 0 1 alike).resolve_left more⟩

end Myriel.LoggerThreads

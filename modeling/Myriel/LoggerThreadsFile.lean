import Myriel.AsyncLogDelay
import Myriel.LoggerThreadsEvents

/-! The files. Each asynchronous appender of the system runs as its own machine, and its file
holds the lines of the first events that it has been given. -/
namespace Myriel.LoggerThreads
open Logging LockMachine

variable {τ E : Type}

def Call.Fits (s : Logging.State) : Call τ E → Prop
  | .operation (.addAppender _ i) | .addAppender _ i | .attach _ i | .appenderLog _ i _ => i < s.appenderCount
  | _ => True

/-- The appender exists, and is of the class whose section it is; a line comes from a formatter. -/
def Section.Fits (render : Text → E → Text) (s : Logging.State) : Section τ E → Prop
  | .addAppender _ i => i < s.appenderCount
  | .write _ i _ => i < s.appenderCount ∧ (s.appenders i).kind = .StdoutLogAppender
  | .append _ i r line =>
    i < s.appenderCount ∧ (s.appenders i).kind ≠ .StdoutLogAppender ∧ ∃ pattern, line = render pattern r.event
  | _ => True

def Fits (render : Text → E → Text) (s : System τ E) : Code (Call τ E) (Section τ E) → Prop
  | .call a => a.Fits s.logging
  | .enter b => b.Fits render s.logging

def lines (s : System τ E) (i : AppenderId) : List Text := ((s.given i).filter Delivery.buffered).map Delivery.line

/-- The lists hold appenders that exist, and each appender has been given what its class takes. -/
structure Filed (render : Text → E → Text) (s : System τ E) : Prop where
  lists : ∀ l, ∀ i ∈ (s.logging.loggers l).m_appenders, i < s.logging.appenderCount
  given : ∀ i, ∀ d ∈ s.given i, i < s.logging.appenderCount ∧
    (d.buffered = true ↔ (s.logging.appenders i).kind ≠ .StdoutLogAppender) ∧
    ∃ pattern, d.line = render pattern d.record.event
  asyc : ∀ i, AsyncLog.Reachable (s.asyc i) ∧ (s.asyc i).appended = lines s i

/-! ### Appenders stay -/

/-- No appender goes away or changes its class. -/
structure Kept (s s' : Logging.State) : Prop where
  count : s.appenderCount ≤ s'.appenderCount
  kinds : ∀ i < s.appenderCount, (s'.appenders i).kind = (s.appenders i).kind

theorem Kept.refl (s : Logging.State) : Kept s s := ⟨Nat.le_refl _,fun _ _ => rfl⟩

theorem newAppender_kept (s : Logging.State) (kind : Kind) : Kept s (newAppender s kind) where
  count := Nat.le_succ _
  kinds i bound := by simp [newAppender,Nat.ne_of_lt bound]

theorem inheritAll_kind (formatter : FormatterPtr) (appenders : AppenderId → LogAppender) (list : List AppenderId)
    (i : AppenderId) : (inheritAll formatter appenders list i).kind = (appenders i).kind := by
  induction list generalizing appenders with
  | nil => rfl
  | cons first list ih =>
    rw [inheritAll,List.foldl_cons,← inheritAll,ih]
    by_cases self : i = first
    · subst i
      simp only [Function.update_self,LogAppender.inherit]
      split <;> rfl
    · rw [Function.update_of_ne self]

theorem fits_kept {render : Text → E → Text} {s s' : System τ E} (kept : Kept s.logging s'.logging)
    (c : Code (Call τ E) (Section τ E)) (fits : Fits render s c) : Fits render s' c := by
  have grow {i : AppenderId} (bound : i < s.logging.appenderCount) : i < s'.logging.appenderCount :=
    bound.trans_le kept.count
  cases c with
  | call a =>
    cases a with
    | operation op => cases op <;> first | exact grow fits | trivial
    | addAppender | attach | appenderLog => exact grow fits
    | _ => trivial
  | enter b =>
    cases b with
    | addAppender => exact grow fits
    | write l i r => exact ⟨grow fits.1,(kept.kinds i fits.1).trans fits.2⟩
    | append l i r line => exact ⟨grow fits.1,(kept.kinds i fits.1).trans_ne fits.2.1,fits.2.2⟩
    | _ => trivial

section Steps
variable [DecidableEq τ] {level : E → LogLevel} {render : Text → E → Text} {t : Thread τ} {s s' : System τ E}
  {body : List (Code (Call τ E) (Section τ E))}

theorem called_kept {a : Call τ E} (called : Called level render t s a s' body) : Kept s.logging s'.logging := by
  cases called with
  | operation op =>
    cases op with
    | newAppender kind => exact newAppender_kept _ kind
    | _ => exact ⟨Nat.le_refl _,fun _ _ => rfl⟩
  | @attach l i =>
    refine ⟨Nat.le_refl _,fun j _ => ?_⟩
    by_cases self : j = i
    · subst j
      simp only [attach,Function.update_self]
      split <;> rfl
    · simp [attach,self]
  | _ => exact ⟨Nat.le_refl _,fun _ _ => rfl⟩

theorem performed_kept {b : Section τ E} (performed : Performed render t s b s' body) :
    Kept s.logging s'.logging := by
  cases performed with
  | @getLogger name =>
    simp only [Logging.getLogger]
    split <;> exact ⟨Nat.le_refl _,fun _ _ => rfl⟩
  | @getFileLogger name path =>
    have kept := newAppender_kept (newLogger s.logging { Logger.new name with m_root := some s.logging.m_root })
      (.AsycLogAppender path)
    exact ⟨kept.count,kept.kinds⟩
  | setFormatter => exact ⟨Nat.le_refl _,fun i _ => inheritAll_kind _ _ _ i⟩
  | _ => exact ⟨Nat.le_refl _,fun _ _ => rfl⟩

/-! ### The parts of a step -/

omit [DecidableEq τ] in
theorem Filed.relist (filed : Filed render s) {next : Logging.State} (kept : Kept s.logging next) (l : LoggerId)
    (other : ∀ k, k ≠ l → (next.loggers k).m_appenders = (s.logging.loggers k).m_appenders)
    (inside : ∀ i ∈ (next.loggers l).m_appenders, i < next.appenderCount) :
    ∀ k, ∀ i ∈ (next.loggers k).m_appenders, i < next.appenderCount := by
  intro k i member
  by_cases self : k = l
  · subst k
    exact inside i member
  · rw [other k self] at member
    exact (filed.lists k i member).trans_le kept.count

theorem called_lists (filed : Filed render s) {a : Call τ E} (fits : a.Fits s.logging)
    (called : Called level render t s a s' body) :
    ∀ l, ∀ i ∈ (s'.logging.loggers l).m_appenders, i < s'.logging.appenderCount := by
  have kept := called_kept called
  cases called with
  | operation op =>
    cases op with
    | newLogger name =>
      refine filed.relist kept s.logging.loggerCount (fun k other => ?_) fun i member => ?_
      · simp [operation,Logging.perform,newLogger,setLogger,other]
      · simp [operation,Logging.perform,newLogger,setLogger,Logger.new] at member
    | setLevel l val | setPattern l val =>
      refine filed.relist kept l (fun k other => ?_) fun i member => ?_
      · simp [operation,Logging.perform,setLevel,setPattern,setLogger,other]
      · refine filed.lists l i ?_
        simpa [operation,Logging.perform,setLevel,setPattern,setLogger] using member
    | newAppender kind => exact fun l i member => (filed.lists l i member).trans_le kept.count
    | _ => exact filed.lists
  | @attach l i =>
    refine filed.relist kept l (fun k other => ?_) fun j member => ?_
    · simp [attach,setLogger,other]
    · rcases List.mem_append.mp (show j ∈ (s.logging.loggers l).m_appenders ++ [i] by
          simpa [attach,setLogger] using member) with old | new
      · exact filed.lists l j old
      · cases List.mem_singleton.mp new
        exact fits
  | _ => exact filed.lists

theorem performed_lists (filed : Filed render s) {b : Section τ E} (performed : Performed render t s b s' body) :
    ∀ l, ∀ i ∈ (s'.logging.loggers l).m_appenders, i < s'.logging.appenderCount := by
  have kept := performed_kept performed
  cases performed with
  | @getLogger name =>
    cases found : s.logging.m_loggers name with
    | some l => simpa [Logging.getLogger,found] using filed.lists
    | none =>
      refine filed.relist kept s.logging.loggerCount (fun k other => ?_) fun i member => ?_
      · simp [Logging.getLogger,found,register,newLogger,setLogger,other]
      · simp [Logging.getLogger,found,register,newLogger,setLogger,Logger.new] at member
  | getFileLogger =>
    refine filed.relist kept s.logging.loggerCount (fun k other => ?_) fun i member => ?_
    · simp [fileLogger,newAppender,newLogger,setLogger,other]
    · simp [fileLogger,newAppender,newLogger,setLogger,Logger.new] at member
  | @delAppender l i =>
    refine filed.relist kept l (fun k other => ?_) fun j member => ?_
    · simp [delAppender,setLogger,other]
    · refine filed.lists l j (List.mem_of_mem_erase (b := i) ?_)
      simpa [delAppender,setLogger] using member
  | @clearAppender l =>
    refine filed.relist kept l (fun k other => ?_) fun j member => ?_
    · simp [clearAppender,setLogger,other]
    · simp [clearAppender,setLogger] at member
  | @setFormatter l =>
    refine filed.relist kept l (fun k other => ?_) fun j member => ?_
    · simp [setFormatter,setLogger,other]
    · refine filed.lists l j ?_
      simpa [setFormatter,setLogger] using member
  | _ => exact filed.lists

omit [DecidableEq τ] in
theorem Filed.given_kept (filed : Filed render s) (kept : Kept s.logging s'.logging) (i : AppenderId) (d : Delivery τ E)
    (member : d ∈ s.given i) : i < s'.logging.appenderCount ∧
      (d.buffered = true ↔ (s'.logging.appenders i).kind ≠ .StdoutLogAppender) ∧
      ∃ pattern, d.line = render pattern d.record.event := by
  obtain ⟨bound,buffered,line⟩ := filed.given i d member
  exact ⟨bound.trans_le kept.count,by rw [kept.kinds i bound,buffered],line⟩

omit [DecidableEq τ] in
theorem Filed.keep (filed : Filed render s) (kept : Kept s.logging s'.logging)
    (lists : ∀ l, ∀ i ∈ (s'.logging.loggers l).m_appenders, i < s'.logging.appenderCount)
    (given : s'.given = s.given) (asyc : s'.asyc = s.asyc) : Filed render s' where
  lists := lists
  given i d member := filed.given_kept kept i d (given ▸ member)
  asyc i := by
    have before := filed.asyc i
    rwa [asyc,lines,given]

omit [DecidableEq τ] in
theorem Filed.setAsyc (filed : Filed render s) {i : AppenderId} {a : AsyncLog.Action} {asyc : AsyncLog.State}
    (other : ∀ message, a ≠ .append message) (ran : AsyncLog.step (s.asyc i) a = some asyc) :
    Filed render (LoggerThreads.setAsyc s i asyc) where
  lists := filed.lists
  given := filed.given
  asyc j := by
    have before := filed.asyc j
    by_cases self : j = i
    · subst j
      have next := before.1.next AsyncLog.step ran
      have same := AsyncLog.step_appended (AsyncLog.reachable_pool before.1) other ran
      simpa [LoggerThreads.setAsyc,lines,same] using And.intro next before.2
    · simpa [LoggerThreads.setAsyc,lines,self] using before

omit [DecidableEq τ] in
theorem Filed.give (filed : Filed render s) {i : AppenderId} {d : Delivery τ E} {asyc : AsyncLog.State}
    (bound : i < s.logging.appenderCount)
    (buffered : d.buffered = true ↔ (s.logging.appenders i).kind ≠ .StdoutLogAppender)
    (line : ∃ pattern, d.line = render pattern d.record.event)
    (reach : AsyncLog.Reachable asyc)
    (appended : asyc.appended = (s.asyc i).appended ++ if d.buffered then [d.line] else []) :
    Filed render (LoggerThreads.give (LoggerThreads.setAsyc s i asyc) i d) where
  lists := filed.lists
  given j e member := by
    by_cases self : j = i
    · subst j
      rcases List.mem_append.mp (show e ∈ s.given i ++ [d] by
        simpa [LoggerThreads.give,LoggerThreads.setAsyc] using member) with old | new
      · exact filed.given i e old
      · cases List.mem_singleton.mp new
        exact ⟨bound,buffered,line⟩
    · refine filed.given j e ?_
      simpa [LoggerThreads.give,LoggerThreads.setAsyc,self] using member
  asyc j := by
    have before := filed.asyc j
    by_cases self : j = i
    · subst j
      refine ⟨by simpa [LoggerThreads.give,LoggerThreads.setAsyc] using reach,?_⟩
      rw [lines] at before
      cases wide : d.buffered <;>
        simpa [LoggerThreads.give,LoggerThreads.setAsyc,lines,wide,before.2] using appended
    · simpa [LoggerThreads.give,LoggerThreads.setAsyc,lines,self] using before

theorem called_filed (filed : Filed render s) {a : Call τ E} (fits : a.Fits s.logging)
    (called : Called level render t s a s' body) : Filed render s' := by
  have kept := called_kept called
  have lists := called_lists filed fits called
  cases called with
  | stop ran | ends ran | head ran | again ran | writing ran => exact filed.setAsyc (by simp) ran
  | operation op => cases op <;> exact filed.keep kept lists rfl rfl
  | event | quiet | log | below | print | buffer | refuse | addAppender | attach | register | getFormatter | join
  | waited | tested => exact filed.keep kept lists rfl rfl

theorem performed_filed (filed : Filed render s) {b : Section τ E} (fits : b.Fits render s.logging)
    (performed : Performed render t s b s' body) : Filed render s' := by
  have kept := performed_kept performed
  have lists := performed_lists filed performed
  cases performed with
  | test ran | swap ran => exact filed.setAsyc (by simp) ran
  | @append i line asyc l r ran =>
    obtain ⟨bound,kind,line⟩ := fits
    have before := filed.asyc i
    exact filed.give bound (by simpa using kind) line (before.1.next AsyncLog.step ran) (AsyncLog.appendLog_appended ran)
  | @write i pattern l r formatter =>
    obtain ⟨bound,kind⟩ := fits
    have same : setAsyc s i (s.asyc i) = s := by simp [setAsyc]
    have given : Filed render (give (setAsyc s i (s.asyc i)) i ⟨l,r,false,render pattern r.event⟩) :=
      filed.give bound (by simp [kind]) ⟨pattern,rfl⟩ (filed.asyc i).1 (by simp)
    rwa [same] at given
  | getLogger | known | getFileLogger | addAppender | delAppender | clearAppender | setFormatter | root | log
  | getFormatter => exact filed.keep kept lists rfl rfl

theorem called_fits {a : Call τ E} (fits : a.Fits s.logging)
    (called : Called level render t s a s' body) {c : Code (Call τ E) (Section τ E)} (member : c ∈ body) :
    Fits render s' c := by
  cases called with
  | operation op =>
    cases op <;> simp only [operation,List.not_mem_nil,List.mem_singleton] at member
    all_goals
      subst member
      exact fits
  | print _ kind =>
    cases List.mem_singleton.mp member
    exact ⟨fits,kind⟩
  | buffer _ kind =>
    cases List.mem_singleton.mp member
    exact ⟨fits,by simp [kind],_,rfl⟩
  | event | log | addAppender | getFormatter | stop | tested | again | writing =>
    cases List.mem_singleton.mp member
    exact fits
  | head | waited => rcases List.mem_pair.mp member with rfl | rfl <;> trivial
  | quiet | below | refuse | attach | register | join | ends => cases member

theorem performed_fits (filed : Filed render s) {b : Section τ E} (fits : b.Fits render s.logging)
    (performed : Performed render t s b s' body) {c : Code (Call τ E) (Section τ E)} (member : c ∈ body) :
    Fits render s' c := by
  cases performed with
  | log =>
    obtain ⟨i,inside,rfl⟩ := List.mem_map.mp member
    exact filed.lists _ i inside
  | getFileLogger =>
    rcases List.mem_pair.mp member with rfl | rfl
    · exact Nat.lt_succ_self _
    · trivial
  | addAppender =>
    rcases List.mem_pair.mp member with rfl | rfl
    · trivial
    · exact fits
  | root =>
    cases List.mem_singleton.mp member
    trivial
  | getLogger | known | delAppender | clearAppender | setFormatter | getFormatter | write | append | test | swap =>
    cases member

theorem program_preserves :
    Preserves (program (τ := τ) level render) (Filed render) (Fits render) := by
  refine ⟨fun t s a filed invocable => ?_,fun t s a s' body filed fits called => ?_,
    fun t s b s' body filed fits performed => ?_⟩
  · cases a with
    | operation op =>
      cases op with
      | addAppender l i =>
        have valid := (Bool.and_eq_true_iff.mp invocable).2
        have bound : i < s.logging.appenderCount := of_decide_eq_true (Bool.and_eq_true_iff.mp valid).2
        exact bound
      | _ => trivial
    | addAppender | attach | appenderLog => cases invocable
    | _ => trivial
  · have made := call_called level render called
    exact ⟨called_filed filed fits made,fun c member => called_fits fits made member,
      fits_kept (called_kept made)⟩
  · have made := perform_performed render performed
    exact ⟨performed_filed filed fits made,fun c member => performed_fits filed fits made member,
      fits_kept (performed_kept made)⟩

omit [DecidableEq τ] in
theorem begin_filed : Filed render (begin : System τ E) where
  lists l i member := by
    by_cases first : l = 0
    · subst l
      obtain rfl : i = 0 := List.mem_singleton.mp member
      exact Nat.one_pos
    · simp [begin,Logging.start,register,addAppender,newAppender,newLogger,setLogger,first,Logger.new] at member
  given _ _ member := by cases member
  asyc _ := ⟨.start _ _,rfl⟩

end Steps

/-- The file of an asynchronous appender holds the first lines that the appender has been given,
in that order, and its buffers hold the others; each line is that of an event under some
pattern. The appender runs as its own machine, so all that holds of that machine holds here. -/
theorem files_hold_lines [DecidableEq τ] (level : E → LogLevel) (render : Text → E → Text) (s : State τ E)
    (reach : Reachable level render s) (i : AppenderId) (file : asynchronous s.shared i = true) :
    AsyncLog.Reachable (s.shared.asyc i) ∧
    (s.shared.asyc i).appended = (s.shared.given i).map Delivery.line ∧
    (∃ k, AsyncLog.file (s.shared.asyc i) =
        AsyncLog.block AsyncLog.stored (((s.shared.given i).take k).map Delivery.line) ∧
      ((AsyncLog.unwritten (s.shared.asyc i) ++ AsyncLog.shared (s.shared.asyc i)).map AsyncLog.held).flatten =
        AsyncLog.block AsyncLog.stored (((s.shared.given i).drop k).map Delivery.line)) ∧
    ∀ d ∈ s.shared.given i, ∃ pattern, d.line = render pattern d.record.event := by
  have filed := (reachable_fitting program_preserves begin_filed reach).good
  obtain ⟨machine,appended⟩ := filed.asyc i
  have kind : (s.shared.logging.appenders i).kind ≠ .StdoutLogAppender := by
    simpa using (Bool.and_eq_true_iff.mp file).2
  have all : (s.shared.given i).filter Delivery.buffered = s.shared.given i :=
    List.filter_eq_self.mpr fun d member => (filed.given i d member).2.1.mpr kind
  rw [lines,all] at appended
  refine ⟨machine,appended,?_,fun d member => (filed.given i d member).2.2⟩
  obtain ⟨k,front,rest⟩ := AsyncLog.file_block (AsyncLog.reachable_blocks machine)
  rw [appended] at front rest
  exact ⟨k,by rw [front,List.map_take],by rw [rest,List.map_drop]⟩

def oneLine : List (Action (Thread Unit) (Call Unit Unit)) :=
  .invoke (.client ()) (.operation (.getFileLogger ['l'] ['p'])) :: List.replicate 13 (.run (.client ())) ++
    .invoke (.client ()) (.LOG_LEVEL 1 ()) :: List.replicate 9 (.run (.client ())) ++
    .invoke (.worker 1) (.head 1) :: List.replicate 9 (.run (.worker 1))

theorem files_hold_lines_one : ∃ s : State Unit Unit,
    Transition.run (step (program (fun _ => .INFO) fun _ _ => ['a'])) (start begin) oneLine = some s ∧
    AsyncLog.file (s.shared.asyc 1) = ['a'] ∧
    (s.shared.asyc 1).appended = (s.shared.given 1).map Delivery.line := by
  have ran : ∃ s : State Unit Unit,
      Transition.run (step (program (fun _ => .INFO) fun _ _ => ['a'])) (start begin) oneLine = some s ∧
      AsyncLog.file (s.shared.asyc 1) = ['a'] ∧ asynchronous s.shared 1 = true := ⟨_,rfl,rfl,rfl⟩
  obtain ⟨s,ran,written,file⟩ := ran
  exact ⟨s,ran,written,(files_hold_lines _ _ s ⟨_,ran⟩ 1 file).2.1⟩

end Myriel.LoggerThreads

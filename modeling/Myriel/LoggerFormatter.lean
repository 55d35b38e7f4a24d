import Myriel.LoggerRoot
import Mathlib.Data.List.Induction

/-! The formatters of the appenders. An appender takes that of the logger it is first
added to, at that moment, and keeps it. -/
namespace Myriel.Logging

inductive Note where
  | attached (l : LoggerId) (i : AppenderId)
  | formatted (l : LoggerId) (val : Text)

/-- A new file logger has its appender from the manager. -/
def notes (s : State) : Operation → List Note
  | .addAppender l i => [.attached l i]
  | .setFormatter l val | .setPattern l val => [.formatted l val]
  | .getFileLogger name _ =>
    match s.m_loggers name with
    | some _ => []
    | none => [.attached s.loggerCount s.appenderCount]
  | .getRoot | .getLogger _ | .newLogger _ | .newAppender _ | .delAppender _ _ | .clearAppender _
  | .setLevel _ _ => []

/-- The notes of a run, behind that of the built-in appender of the root logger. -/
def history (operations : List Operation) : List Note :=
  .attached 0 0 :: Transition.trace step notes start operations

/-- The pattern that was set last, by either of the two functions. -/
def inForce (l : LoggerId) (h : List Note) : Text :=
  h.foldl (fun current note =>
    match note with
    | .formatted k val => if k = l then val else current
    | .attached _ _ => current) defaultPattern

/-- The pattern in force when the appender was added to a logger for the first time. -/
def Inherited (h : List Note) (i : AppenderId) (val : Text) : Prop :=
  ∃ before k after, h = before ++ .attached k i :: after ∧ (∀ k', .attached k' i ∉ before) ∧
    val = inForce k before

/-- Whatever the logger hands to one of its appenders is rendered with its own formatter. -/
def Rendered (s : State) (l : LoggerId) : Prop :=
  ∀ depth level written, log depth s l level = some (.ok written) → (s.loggers l).m_appenders ≠ [] →
    ∀ w ∈ written, some w.m_formatter = (s.loggers l).m_formatter

/-! ### Histories -/

@[simp] theorem inForce_attached (l k : LoggerId) (i : AppenderId) (h : List Note) :
    inForce l (h ++ [.attached k i]) = inForce l h := by
  simp [inForce]

@[simp] theorem inForce_formatted (l k : LoggerId) (val : Text) (h : List Note) :
    inForce l (h ++ [.formatted k val]) = if k = l then val else inForce l h := by
  simp [inForce]

theorem inForce_default (h : List Note) (unset : ∀ val, .formatted l val ∉ h) :
    inForce l h = defaultPattern := by
  induction h using List.reverseRecOn with
  | nil => rfl
  | append_singleton h note ih =>
    have before := ih fun val member => unset val (by simp [member])
    cases note with
    | attached k i => simpa using before
    | formatted k val =>
      have other : k ≠ l := by
        rintro rfl
        exact unset val (by simp)
      simpa [other] using before

theorem Inherited.append (inherited : Inherited h i val) (more : List Note) : Inherited (h ++ more) i val := by
  obtain ⟨before,k,after,rfl,first,value⟩ := inherited
  exact ⟨before,k,after ++ more,by simp,first,value⟩

theorem inherited_concat (inherited : Inherited (h ++ [note]) i val) : Inherited h i val ∨
    ∃ k, note = .attached k i ∧ (∀ k', .attached k' i ∉ h) ∧ val = inForce k h := by
  obtain ⟨before,k,after,split,first,value⟩ := inherited
  cases after using List.reverseRecOn with
  | nil =>
    obtain ⟨rfl,last⟩ := List.append_inj' split rfl
    exact .inr ⟨k,(List.singleton_inj.mp last),first,value⟩
  | append_singleton after last =>
    have parts : h ++ [note] = (before ++ .attached k i :: after) ++ [last] := by simpa using split
    exact .inl ⟨before,k,after,(List.append_inj' parts rfl).1,first,value⟩

theorem attached_inherited (member : ∃ k, .attached k i ∈ h) : ∃ val, Inherited h i val := by
  induction h using List.reverseRecOn with
  | nil => simp at member
  | append_singleton h note ih =>
    by_cases known : ∃ k, .attached k i ∈ h
    · exact (ih known).imp fun _ inherited => inherited.append [note]
    · obtain ⟨k,member⟩ := member
      have last : note = .attached k i := by
        rcases List.mem_append.mp member with before | last
        · exact absurd ⟨k,before⟩ known
        · exact (List.mem_singleton.mp last).symm
      exact ⟨inForce k h,h,k,[],by rw [last],fun k' before => known ⟨k',before⟩,rfl⟩

/-! ### Runs -/

structure Traced (h : List Note) (s : State) : Prop where
  attached : ∀ k i, .attached k i ∈ h → k < s.loggerCount ∧ i < s.appenderCount
  formatted : ∀ k val, .formatted k val ∈ h → k < s.loggerCount
  loggers : ∀ l < s.loggerCount, (s.loggers l).m_formatter = some (inForce l h)
  fresh : ∀ i < s.appenderCount, (∀ k, .attached k i ∉ h) → (s.appenders i).m_formatter = none
  kept : ∀ i val, Inherited h i val → (s.appenders i).m_formatter = some val
  listed : ∀ l < s.loggerCount, ∀ i ∈ (s.loggers l).m_appenders, ∃ k, .attached k i ∈ h

theorem Traced.unnoted (traced : Traced h s) (loggerCount : t.loggerCount = s.loggerCount)
    (appenderCount : t.appenderCount = s.appenderCount) (appenders : t.appenders = s.appenders)
    (formatters : ∀ l, (t.loggers l).m_formatter = (s.loggers l).m_formatter)
    (lists : ∀ l, (t.loggers l).m_appenders ⊆ (s.loggers l).m_appenders) : Traced h t where
  attached := by simpa [loggerCount,appenderCount] using traced.attached
  formatted := by simpa [loggerCount] using traced.formatted
  loggers := by simpa [loggerCount,formatters] using traced.loggers
  fresh := by simpa [appenderCount,appenders] using traced.fresh
  kept := by simpa [appenders] using traced.kept
  listed := by
    intro l inside i member
    rw [loggerCount] at inside
    exact traced.listed l inside i (lists l member)

theorem Traced.register (traced : Traced h s) (name : Text) (l : LoggerId) : Traced h (register s name l) :=
  traced.unnoted rfl rfl rfl (fun _ => rfl) (fun _ => List.Subset.refl _)

/-- An operation on the logger `l` that sets no formatter and lists no appender. -/
theorem Traced.setLogger (traced : Traced h s) (formatter : logger.m_formatter = (s.loggers l).m_formatter)
    (list : logger.m_appenders ⊆ (s.loggers l).m_appenders) : Traced h (setLogger s l logger) := by
  refine traced.unnoted (t := Logging.setLogger s l logger) rfl rfl rfl ?_ ?_
  · intro k
    by_cases same : k = l
    · subst k; simpa [Logging.setLogger] using formatter
    · simp [Logging.setLogger,same]
  · intro k
    by_cases same : k = l
    · subst k; simpa [Logging.setLogger] using list
    · simp [Logging.setLogger,same]

theorem Traced.newLogger (traced : Traced h s) (formatter : logger.m_formatter = some defaultPattern)
    (list : logger.m_appenders = []) : Traced h (newLogger s logger) where
  attached := by
    intro k i member
    obtain ⟨there,made⟩ := traced.attached k i member
    exact ⟨Nat.lt_succ_of_lt there,made⟩
  formatted := by
    intro k val member
    exact Nat.lt_succ_of_lt (traced.formatted k val member)
  loggers := by
    intro l inside
    rcases Nat.lt_succ_iff_lt_or_eq.mp inside with before | rfl
    · simpa [Logging.newLogger,Logging.setLogger,Nat.ne_of_lt before] using traced.loggers l before
    · have unset : ∀ val, .formatted s.loggerCount val ∉ h := fun val member =>
        Nat.lt_irrefl _ (traced.formatted _ val member)
      simp [Logging.newLogger,Logging.setLogger,formatter,inForce_default h unset]
  fresh := traced.fresh
  kept := traced.kept
  listed := by
    intro l inside i member
    rcases Nat.lt_succ_iff_lt_or_eq.mp inside with before | rfl
    · simp only [Logging.newLogger,Logging.setLogger,Function.update_of_ne (Nat.ne_of_lt before)] at member
      exact traced.listed l before i member
    · simp [Logging.newLogger,Logging.setLogger,list] at member

theorem Traced.newAppender (traced : Traced h s) (kind : Kind) : Traced h (newAppender s kind) where
  attached := by
    intro k i member
    obtain ⟨there,made⟩ := traced.attached k i member
    exact ⟨there,Nat.lt_succ_of_lt made⟩
  formatted := traced.formatted
  loggers := traced.loggers
  fresh := by
    intro i inside unattached
    rcases Nat.lt_succ_iff_lt_or_eq.mp inside with before | rfl
    · simpa [Logging.newAppender,Nat.ne_of_lt before] using traced.fresh i before unattached
    · simp [Logging.newAppender,LogAppender.new]
  kept := by
    intro i val inherited
    have made : i < s.appenderCount := by
      obtain ⟨before,k,after,rfl,_,_⟩ := inherited
      exact (traced.attached k i (by simp)).2
    simpa [Logging.newAppender,Nat.ne_of_lt made] using traced.kept i val inherited
  listed := traced.listed

theorem addAppender_formatter (s : State) (l k : LoggerId) (i : AppenderId) :
    ((addAppender s l i).loggers k).m_formatter = (s.loggers k).m_formatter := by
  by_cases same : k = l
  · subst k; simp [addAppender,setLogger]
  · simp [addAppender,setLogger,same]

theorem mem_addAppender (s : State) (l k : LoggerId) (i j : AppenderId) :
    j ∈ ((addAppender s l i).loggers k).m_appenders ↔
      j ∈ (s.loggers k).m_appenders ∨ k = l ∧ j = i := by
  by_cases same : k = l
  · subst k; simp [addAppender,setLogger]
  · simp [addAppender,setLogger,same]

/-- The appender takes the logger's formatter if it has not been added to a logger before. -/
theorem Traced.addAppender (traced : Traced h s) (here : l < s.loggerCount) (made : i < s.appenderCount) :
    Traced (h ++ [.attached l i]) (addAppender s l i) where
  attached := by
    intro k j member
    rcases List.mem_append.mp member with before | last
    · exact traced.attached k j before
    · cases List.mem_singleton.mp last
      exact ⟨here,made⟩
  formatted := by
    intro k val member
    exact traced.formatted k val (by simpa using member)
  loggers := by
    intro k inside
    simpa [addAppender_formatter] using traced.loggers k inside
  fresh := by
    intro j inside unattached
    have other : j ≠ i := by
      rintro rfl
      exact unattached l (by simp)
    simpa [Logging.addAppender,other] using
      traced.fresh j inside fun k member => unattached k (by simp [member])
  kept := by
    intro j val inherited
    rcases inherited_concat inherited with before | ⟨k,last,first,rfl⟩
    · have old := traced.kept j val before
      by_cases same : j = i
      · subst j; simp [Logging.addAppender,inherit_formatter,old]
      · simpa [Logging.addAppender,same] using old
    · cases last
      have none := traced.fresh i made first
      simp [Logging.addAppender,inherit_formatter,none,traced.loggers l here]
  listed := by
    intro k inside j member
    rcases (mem_addAppender s l k i j).mp member with before | ⟨_,rfl⟩
    · obtain ⟨m,listed⟩ := traced.listed k inside j before
      exact ⟨m,by simp [listed]⟩
    · exact ⟨l,by simp⟩

theorem setPattern_formatter (s : State) (l k : LoggerId) (val : Text) :
    ((setPattern s l val).loggers k).m_formatter = if l = k then some val else (s.loggers k).m_formatter := by
  by_cases same : l = k
  · subst k; simp [setPattern,setLogger]
  · simp [setPattern,setLogger,same,Ne.symm same]

theorem setPattern_appenders (s : State) (l k : LoggerId) (val : Text) :
    ((setPattern s l val).loggers k).m_appenders = (s.loggers k).m_appenders := by
  by_cases same : k = l
  · subst k; simp [setPattern,setLogger]
  · simp [setPattern,setLogger,same]

theorem Traced.setPattern (traced : Traced h s) (here : l < s.loggerCount) (val : Text) :
    Traced (h ++ [.formatted l val]) (setPattern s l val) where
  attached := by
    intro k i member
    exact traced.attached k i (by simpa using member)
  formatted := by
    intro k val' member
    rcases List.mem_append.mp member with before | last
    · exact traced.formatted k val' before
    · cases List.mem_singleton.mp last
      exact here
  loggers := by
    intro k inside
    rw [setPattern_formatter,inForce_formatted,apply_ite some,traced.loggers k inside]
  fresh := by
    intro i inside unattached
    exact traced.fresh i inside fun k member => unattached k (by simp [member])
  kept := by
    intro i val' inherited
    rcases inherited_concat inherited with before | ⟨k,last,_⟩
    · exact traced.kept i val' before
    · cases last
  listed := by
    intro k inside i member
    rw [setPattern_appenders] at member
    exact (traced.listed k inside i member).imp fun _ listed => by simp [listed]

theorem inheritAll_equipped (formatter : FormatterPtr) (appenders : AppenderId → LogAppender)
    (list : List AppenderId) (equipped : ∀ i ∈ list, (appenders i).m_formatter ≠ none) :
    inheritAll formatter appenders list = appenders := by
  induction list with
  | nil => rfl
  | cons first list ih =>
    obtain ⟨here,rest⟩ := List.forall_mem_cons.mp equipped
    have same : (appenders first).inherit formatter = appenders first := by
      simp [LogAppender.inherit,Option.isNone_iff_eq_none,here]
    rw [inheritAll,List.foldl_cons,same,Function.update_eq_self]
    exact ih rest

theorem Traced.inherited (traced : Traced h s) (here : l < s.loggerCount)
    (member : i ∈ (s.loggers l).m_appenders) :
    ∃ val, Inherited h i val ∧ (s.appenders i).m_formatter = some val := by
  obtain ⟨val,inherited⟩ := attached_inherited (traced.listed l here i member)
  exact ⟨val,inherited,traced.kept i val inherited⟩

/-- The loop of `setFormatter` changes nothing: every appender of the logger has a
formatter since it was added. -/
theorem setFormatter_setPattern (traced : Traced h s) (here : l < s.loggerCount) (val : Text) :
    setFormatter s l (some val) = setPattern s l val := by
  have unchanged : inheritAll (some val) s.appenders (s.loggers l).m_appenders = s.appenders := by
    refine inheritAll_equipped _ _ _ fun i member => ?_
    obtain ⟨old,_,formatter⟩ := traced.inherited here member
    simp [formatter]
  rw [setFormatter,unchanged]
  rfl

theorem Traced.step (traced : Traced h s) (taken : step s operation = some t) :
    Traced (h ++ notes s operation) t := by
  simp only [Logging.step,Option.ite_none_right_eq_some,Option.some.injEq] at taken
  obtain ⟨valid,rfl⟩ := taken
  cases operation with
  | getRoot => simpa [notes,perform] using traced
  | getLogger name =>
    cases found : s.m_loggers name with
    | some l => simpa [notes,perform,getLogger,found] using traced
    | none =>
      have created : Traced h (Logging.newLogger s { Logger.new name with m_root := some s.m_root }) :=
        traced.newLogger rfl rfl
      simpa [notes,perform,getLogger,found] using created.register name s.loggerCount
  | getFileLogger name path =>
    cases found : s.m_loggers name with
    | some l => simpa [notes,perform,getFileLogger,found] using traced
    | none =>
      have created : Traced h (Logging.newLogger s { Logger.new name with m_root := some s.m_root }) :=
        traced.newLogger rfl rfl
      have opened := created.newAppender (.AsycLogAppender path)
      have added := opened.addAppender (l := s.loggerCount) (i := s.appenderCount) (Nat.lt_succ_self _)
        (Nat.lt_succ_self _)
      simp only [notes,perform,getFileLogger,found]
      exact added.register name s.loggerCount
  | newLogger name =>
    have created : Traced h (Logging.newLogger s (Logger.new name)) := traced.newLogger rfl rfl
    simpa [notes,perform] using created
  | newAppender kind => simpa [notes,perform] using traced.newAppender kind
  | addAppender l i =>
    simp only [Operation.valid,Bool.and_eq_true,decide_eq_true_eq] at valid
    exact traced.addAppender valid.1 valid.2
  | delAppender l i =>
    have erased : Traced h (delAppender s l i) := traced.setLogger rfl List.erase_subset
    simpa [notes,perform] using erased
  | clearAppender l =>
    have cleared : Traced h (clearAppender s l) := traced.setLogger rfl (List.nil_subset _)
    simpa [notes,perform] using cleared
  | setLevel l level =>
    have levelled : Traced h (setLevel s l level) := traced.setLogger rfl (List.Subset.refl _)
    simpa [notes,perform] using levelled
  | setFormatter l val =>
    have here : l < s.loggerCount := of_decide_eq_true valid
    rw [perform,setFormatter_setPattern traced here]
    exact traced.setPattern here val
  | setPattern l val => exact traced.setPattern (of_decide_eq_true valid) val

theorem start_traced : Traced [.attached 0 0] start := by
  have nothing (s : State) (loggers : s.loggerCount = 0) (appenders : s.appenderCount = 0) : Traced [] s :=
    ⟨by simp,by simp,by simp [loggers],by simp [appenders],by simp [Inherited],by simp [loggers]⟩
  have created : Traced [] (newLogger
      ⟨fun _ => Logger.new [],0,fun _ => LogAppender.new .StdoutLogAppender,0,fun _ => none,0⟩
      (Logger.new rootName)) := (nothing _ rfl rfl).newLogger rfl rfl
  have opened := created.newAppender .StdoutLogAppender
  have added := opened.addAppender (l := 0) (i := 0) (Nat.lt_succ_self _) (Nat.lt_succ_self _)
  exact added.register rootName 0

theorem run_traced (ran : Transition.run step start operations = some s) : Traced (history operations) s :=
  Transition.trace_invariant step notes Traced (fun _ _ _ _ traced taken => traced.step taken) start_traced ran

/-! ### Events -/

theorem appenderLog_cases (wrote : appenderLog s level i = .ok written) :
    (level.value < (s.appenders i).m_level.value ∧ written = []) ∨
    ((s.appenders i).m_level.value ≤ level.value ∧
      ∃ formatter, (s.appenders i).m_formatter = some formatter ∧ written = [⟨i,formatter⟩]) := by
  unfold appenderLog at wrote
  split at wrote
  case isTrue high =>
    split at wrote
    · cases wrote; exact .inr ⟨high,_,‹_›,rfl⟩
    · cases wrote
  case isFalse low => cases wrote; exact .inl ⟨by omega,rfl⟩

theorem appendersLog_cons (wrote : appendersLog s level (i :: list) = .ok written) :
    ∃ here rest, appenderLog s level i = .ok here ∧ appendersLog s level list = .ok rest ∧
      written = here ++ rest := by
  rw [appendersLog,List.mapM_cons] at wrote
  cases first : appenderLog s level i with
  | error e => rw [first] at wrote; cases wrote
  | ok here =>
    cases later : list.mapM (appenderLog s level) with
    | error e => rw [first,later] at wrote; cases wrote
    | ok rest =>
      rw [first,later] at wrote
      cases wrote
      exact ⟨here,rest.flatten,rfl,by rw [appendersLog,later]; rfl,by simp⟩

theorem mem_appendersLog (wrote : appendersLog s level list = .ok written) (w : Written) : w ∈ written ↔
    w.appender ∈ list ∧ (s.appenders w.appender).m_level.value ≤ level.value ∧
      (s.appenders w.appender).m_formatter = some w.m_formatter := by
  induction list generalizing written with
  | nil => cases wrote; simp
  | cons i list ih =>
    obtain ⟨here,rest,first,later,rfl⟩ := appendersLog_cons wrote
    obtain ⟨i',formatter'⟩ := w
    rw [List.mem_append,ih later,List.mem_cons,or_and_right]
    refine or_congr ?_ Iff.rfl
    rcases appenderLog_cases first with ⟨low,rfl⟩ | ⟨high,formatter,given,rfl⟩
    · simp only [List.not_mem_nil,false_iff]
      rintro ⟨rfl,high,_⟩
      omega
    · constructor
      · intro member
        cases List.mem_singleton.mp member
        exact ⟨rfl,high,given⟩
      · rintro ⟨rfl,_,other⟩
        simp [Option.some.inj (given.symm.trans other)]

theorem log_appenders (some_ : (s.loggers l).m_appenders ≠ [])
    (high : (s.loggers l).m_level.value ≤ level.value) (depth : Nat) :
    log (depth + 1) s l level = some (appendersLog s level (s.loggers l).m_appenders) := by
  simp [log,high,some_]

theorem rendered_iff (reach : Reachable s) (inside : l < s.loggerCount) : Rendered s l ↔
    ∀ i ∈ (s.loggers l).m_appenders, (s.appenders i).m_formatter = (s.loggers l).m_formatter := by
  constructor
  · intro rendered i member
    have some_ : (s.loggers l).m_appenders ≠ [] := List.ne_nil_of_mem member
    have highest (level : LogLevel) : level.value ≤ LogLevel.FATAL.value := by cases level <;> decide
    have handed := log_appenders some_ (highest _) 0
    obtain ⟨written,wrote⟩ := appendersLog_ok .FATAL (s.loggers l).m_appenders
      fun i member => (((reachable_linked reach).equipped l inside).appenders i member).2
    obtain ⟨formatter,given⟩ := Option.ne_none_iff_exists'.mp
      (((reachable_linked reach).equipped l inside).appenders i member).2
    have line := (mem_appendersLog wrote ⟨i,formatter⟩).mpr ⟨member,highest _,given⟩
    rw [wrote] at handed
    exact given.trans (rendered 1 .FATAL written handed some_ _ line)
  · intro same depth level written logged some_ w member
    cases depth with
    | zero => cases logged
    | succ depth =>
      by_cases high : (s.loggers l).m_level.value ≤ level.value
      · rw [log_appenders some_ high] at logged
        obtain ⟨listed,_,given⟩ := (mem_appendersLog (Option.some.inj logged) w).mp member
        exact given.symm.trans (same _ listed)
      · have nothing : written = [] := by simpa [log,high] using logged.symm
        rw [nothing] at member
        cases member

/-- In every run: the events that a logger hands to its appenders are rendered with its
own formatter exactly when each appender was first added to a logger while the formatter in
force there was the one that this logger has now. -/
theorem formatter_applies_iff (ran : Transition.run step start operations = some s)
    (inside : l < s.loggerCount) : Rendered s l ↔ ∀ i ∈ (s.loggers l).m_appenders,
      ∀ val, Inherited (history operations) i val → val = inForce l (history operations) := by
  have traced := run_traced ran
  rw [rendered_iff ⟨operations,ran⟩ inside,traced.loggers l inside]
  constructor
  · intro same i member val inherited
    exact Option.some.inj ((traced.kept i val inherited).symm.trans (same i member))
  · intro same i member
    obtain ⟨val,inherited,given⟩ := traced.inherited inside member
    rw [given,same i member val inherited]

def messageOnly : Text := "%m%n".toList

def replaced : List Operation :=
  [.setFormatter 0 messageOnly,.newAppender .StdoutLogAppender,.clearAppender 0,.addAppender 0 1]

theorem formatter_applies_replaced : ∃ s, Transition.run step start replaced = some s ∧
    log 1 s 0 .INFO = some (.ok [⟨1,messageOnly⟩]) ∧ Rendered s 0 := by
  have told : history replaced = [.attached 0 0,.formatted 0 messageOnly] ++ [.attached 0 1] := rfl
  have ran : ∃ s, Transition.run step start replaced = some s ∧ log 1 s 0 .INFO = some (.ok [⟨1,messageOnly⟩]) ∧
      0 < s.loggerCount ∧ (s.loggers 0).m_appenders = [1] := ⟨_,rfl,rfl,by decide,rfl⟩
  obtain ⟨s,ran,written,inside,list⟩ := ran
  refine ⟨s,ran,written,(formatter_applies_iff ran inside).mpr fun i member val inherited => ?_⟩
  obtain rfl : i = 1 := by simpa [list] using member
  rw [told] at inherited
  rcases inherited_concat inherited with ⟨before,k,after,split,_⟩ | ⟨k,note,_,value⟩
  · have early : Note.attached k 1 ∈ [Note.attached 0 0,.formatted 0 messageOnly] := by simp [split]
    simp at early
  · cases note
    exact value

/-- `setFormatter` on the root logger leaves its built-in appender with the default. -/
theorem root_appender_default : ∃ s, Transition.run step start [.setFormatter 0 messageOnly] = some s ∧
    (s.loggers 0).m_formatter = some messageOnly ∧
    log 1 s 0 .INFO = some (.ok [⟨0,defaultPattern⟩]) ∧ ¬ Rendered s 0 := by
  have different : some defaultPattern ≠ some messageOnly := by decide
  refine ⟨_,rfl,rfl,rfl,fun rendered => different ?_⟩
  exact rendered 1 .INFO [⟨0,defaultPattern⟩] rfl (List.cons_ne_nil _ _) _ (List.mem_singleton.mpr rfl)

end Myriel.Logging

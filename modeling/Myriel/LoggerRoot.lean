import Myriel.Logger

/-! The pointers that logging goes through. Every appender of a logger has a formatter;
`m_root` is set for the loggers made by the manager and null for all others, the root
logger among them. -/
namespace Myriel.Logging

/-- The logger came from `getLogger` or `getFileLogger` and is not the root logger. -/
def Managed (s : State) (l : LoggerId) : Prop := l ≠ s.m_root ∧ ∃ name, s.m_loggers name = some l

/-- The logger can be used: its own formatter and those of its appenders are there. -/
structure Equipped (s : State) (l : LoggerId) : Prop where
  formatter : (s.loggers l).m_formatter ≠ none
  appenders : ∀ i ∈ (s.loggers l).m_appenders, i < s.appenderCount ∧ (s.appenders i).m_formatter ≠ none

structure Linked (s : State) : Prop where
  root : s.m_root < s.loggerCount
  registered : ∀ name l, s.m_loggers name = some l → l < s.loggerCount
  managed : ∀ l, Managed s l → (s.loggers l).m_root = some s.m_root
  others : ∀ l < s.loggerCount, ¬ Managed s l → (s.loggers l).m_root = none
  equipped : ∀ l < s.loggerCount, Equipped s l

theorem linked_update (linked : Linked s) (here : l < s.loggerCount)
    (root : logger.m_root = (s.loggers l).m_root) (formatter : logger.m_formatter ≠ none)
    (kept : ∀ i, (s.appenders i).m_formatter ≠ none → (appenders i).m_formatter ≠ none)
    (listed : ∀ i ∈ logger.m_appenders, i < s.appenderCount ∧ (appenders i).m_formatter ≠ none) :
    Linked { setLogger s l logger with appenders := appenders } where
  root := linked.root
  registered := linked.registered
  managed := by
    intro k managed
    by_cases same : k = l
    · subst k
      simpa [setLogger,root] using linked.managed l managed
    · simpa [setLogger,same] using linked.managed k managed
  others := by
    intro k inside other
    by_cases same : k = l
    · subst k
      simpa [setLogger,root] using linked.others l here other
    · simpa [setLogger,same] using linked.others k inside other
  equipped := by
    intro k inside
    by_cases same : k = l
    · subst k
      exact ⟨by simpa [setLogger] using formatter,by simpa [setLogger] using listed⟩
    · have old := linked.equipped k inside
      refine ⟨by simpa [setLogger,same] using old.formatter,?_⟩
      intro i member
      simp only [setLogger,same,ne_eq,not_false_eq_true,Function.update_of_ne] at member
      exact ⟨(old.appenders i member).1,kept i (old.appenders i member).2⟩

/-- A new logger, alone or in the registry, that changes nothing of what was there. -/
structure Created (s next : State) : Prop where
  root : next.m_root = s.m_root
  count : next.loggerCount = s.loggerCount + 1
  same : ∀ k < s.loggerCount, next.loggers k = s.loggers k
  more : s.appenderCount ≤ next.appenderCount
  kept : ∀ i < s.appenderCount, next.appenders i = s.appenders i
  fresh : Equipped next s.loggerCount
  registry : next.m_loggers = s.m_loggers ∧ (next.loggers s.loggerCount).m_root = none ∨
    ∃ name, s.m_loggers name = none ∧
      next.m_loggers = Function.update s.m_loggers name (some s.loggerCount) ∧
      (next.loggers s.loggerCount).m_root = some s.m_root

theorem Created.lookup (created : Created s next) (found : next.m_loggers name = some l) :
    s.m_loggers name = some l ∨
      l = s.loggerCount ∧ (next.loggers s.loggerCount).m_root = some s.m_root := by
  rcases created.registry with ⟨table,_⟩ | ⟨key,_,table,set⟩
  · rw [table] at found
    exact .inl found
  · rw [table] at found
    by_cases this : name = key
    · subst this
      rw [Function.update_self] at found
      exact .inr ⟨(Option.some.inj found).symm,set⟩
    · rw [Function.update_of_ne this] at found
      exact .inl found

theorem Created.registered (created : Created s next) (found : s.m_loggers name = some l) :
    next.m_loggers name = some l := by
  rcases created.registry with ⟨table,_⟩ | ⟨key,absent,table,_⟩
  · rw [table]
    exact found
  · have this : name ≠ key := by
      rintro rfl
      rw [absent] at found
      contradiction
    rw [table,Function.update_of_ne this]
    exact found

theorem Created.managed_old (created : Created s next) (inside : k < s.loggerCount) :
    Managed next k ↔ Managed s k := by
  rw [Managed,Managed,created.root]
  refine and_congr_right fun _ => ?_
  constructor
  · rintro ⟨name,found⟩
    rcases created.lookup found with old | ⟨newest,_⟩
    · exact ⟨name,old⟩
    · exact absurd newest (Nat.ne_of_lt inside)
  · rintro ⟨name,found⟩
    exact ⟨name,created.registered found⟩

theorem Created.managed_new (created : Created s next) (linked : Linked s) :
    Managed next s.loggerCount ∧ (next.loggers s.loggerCount).m_root = some s.m_root ∨
      ¬ Managed next s.loggerCount ∧ (next.loggers s.loggerCount).m_root = none := by
  rcases created.registry with ⟨table,null⟩ | ⟨name,_,table,set⟩
  · refine .inr ⟨?_,null⟩
    rintro ⟨_,name,found⟩
    rw [table] at found
    exact absurd (linked.registered name _ found) (Nat.lt_irrefl _)
  · refine .inl ⟨⟨?_,name,?_⟩,set⟩
    · rw [created.root]
      exact Nat.ne_of_gt linked.root
    · rw [table,Function.update_self]

theorem Created.linked (created : Created s next) (linked : Linked s) : Linked next where
  root := by
    rw [created.root,created.count]
    exact Nat.lt_succ_of_lt linked.root
  registered := by
    intro name l found
    rw [created.count]
    rcases created.lookup found with old | ⟨rfl,_⟩
    · exact Nat.lt_succ_of_lt (linked.registered name l old)
    · exact Nat.lt_succ_self _
  managed := by
    intro k managed
    have ⟨_,name,found⟩ := managed
    rcases created.lookup found with old | ⟨rfl,set⟩
    · have inside := linked.registered name k old
      rw [created.same k inside,created.root]
      exact linked.managed k ((created.managed_old inside).mp managed)
    · rw [set,created.root]
  others := by
    intro k inside other
    rw [created.count] at inside
    rcases Nat.lt_succ_iff_lt_or_eq.mp inside with before | rfl
    · rw [created.same k before]
      exact linked.others k before fun managed => other ((created.managed_old before).mpr managed)
    · rcases created.managed_new linked with ⟨managed,_⟩ | ⟨_,null⟩
      · exact absurd managed other
      · exact null
  equipped := by
    intro k inside
    rw [created.count] at inside
    rcases Nat.lt_succ_iff_lt_or_eq.mp inside with before | rfl
    · have old := linked.equipped k before
      refine ⟨by rw [created.same k before]; exact old.formatter,fun i member => ?_⟩
      rw [created.same k before] at member
      obtain ⟨made,ready⟩ := old.appenders i member
      exact ⟨Nat.lt_of_lt_of_le made created.more,by rw [created.kept i made]; exact ready⟩
    · exact created.fresh

theorem newLogger_linked (linked : Linked s) (name : Text) : Linked (newLogger s (Logger.new name)) := by
  apply Created.linked (s := s) _ linked
  exact {
    root := rfl
    count := rfl
    same := fun k inside => Function.update_of_ne (Nat.ne_of_lt inside) _ _
    more := le_refl _
    kept := fun _ _ => rfl
    fresh := ⟨by simp [newLogger,setLogger,Logger.new],by simp [newLogger,setLogger,Logger.new]⟩
    registry := .inl ⟨rfl,by simp [newLogger,setLogger,Logger.new]⟩ }

theorem getLogger_created (absent : s.m_loggers name = none) : Created s (getLogger s name).1 := by
  simp only [getLogger,absent]
  exact {
    root := rfl
    count := rfl
    same := fun k inside => Function.update_of_ne (Nat.ne_of_lt inside) _ _
    more := le_refl _
    kept := fun _ _ => rfl
    fresh := ⟨by simp [register,newLogger,setLogger,Logger.new],
      by simp [register,newLogger,setLogger,Logger.new]⟩
    registry := .inr ⟨name,absent,rfl,by simp [register,newLogger,setLogger]⟩ }

theorem getLogger_linked (linked : Linked s) (name : Text) : Linked (getLogger s name).1 := by
  cases found : s.m_loggers name with
  | some l => simpa [getLogger,found] using linked
  | none => exact (getLogger_created found).linked linked

theorem getFileLogger_created (absent : s.m_loggers name = none) (path : Text) :
    Created s (getFileLogger s name path).1 := by
  simp only [getFileLogger,absent]
  exact {
    root := rfl
    count := rfl
    same := by
      intro k inside
      simp [register,addAppender,newAppender,newLogger,setLogger,Nat.ne_of_lt inside]
    more := Nat.le_succ _
    kept := by
      intro i inside
      simp [register,addAppender,newAppender,newLogger,setLogger,Nat.ne_of_lt inside]
    fresh := by
      constructor
      · simp [register,addAppender,newAppender,newLogger,setLogger,Logger.new]
      · simp [register,addAppender,newAppender,newLogger,setLogger,Logger.new,inherit_formatter]
    registry := .inr ⟨name,absent,rfl,by simp [register,addAppender,newAppender,newLogger,setLogger]⟩ }

theorem getFileLogger_linked (linked : Linked s) (name path : Text) :
    Linked (getFileLogger s name path).1 := by
  cases found : s.m_loggers name with
  | some l => simpa [getFileLogger,found] using linked
  | none => exact (getFileLogger_created found path).linked linked

theorem newAppender_linked (linked : Linked s) (kind : Kind) : Linked (newAppender s kind) where
  root := linked.root
  registered := linked.registered
  managed := linked.managed
  others := linked.others
  equipped := by
    intro k inside
    have old := linked.equipped k inside
    refine ⟨old.formatter,fun i member => ?_⟩
    obtain ⟨made,ready⟩ := old.appenders i member
    exact ⟨Nat.lt_succ_of_lt made,by simpa [newAppender,Nat.ne_of_lt made] using ready⟩

theorem addAppender_linked (linked : Linked s) (here : l < s.loggerCount) (made : i < s.appenderCount) :
    Linked (addAppender s l i) := by
  have old := linked.equipped l here
  have given : ((s.appenders i).inherit (s.loggers l).m_formatter).m_formatter ≠ none := by
    simp [inherit_formatter,old.formatter]
  have kept : ∀ k, (s.appenders k).m_formatter ≠ none →
      (Function.update s.appenders i ((s.appenders i).inherit (s.loggers l).m_formatter) k).m_formatter ≠
        none := by
    intro k ready
    by_cases same : k = i
    · subst k
      simpa using given
    · simpa [same] using ready
  refine linked_update linked here rfl old.formatter kept fun k member => ?_
  rcases List.mem_append.mp member with before | new
  · obtain ⟨listed,ready⟩ := old.appenders k before
    exact ⟨listed,kept k ready⟩
  · cases List.mem_singleton.mp new
    exact ⟨made,by simpa using given⟩

theorem perform_linked (linked : Linked s) (valid : operation.valid s = true) :
    Linked (perform s operation) := by
  have keep : ∀ i, (s.appenders i).m_formatter ≠ none → (s.appenders i).m_formatter ≠ none := fun _ => id
  cases operation with
  | getRoot => exact linked
  | getLogger name => exact getLogger_linked linked name
  | getFileLogger name path => exact getFileLogger_linked linked name path
  | newLogger name => exact newLogger_linked linked name
  | newAppender kind => exact newAppender_linked linked kind
  | addAppender l i =>
    simp only [Operation.valid,Bool.and_eq_true,decide_eq_true_eq] at valid
    exact addAppender_linked linked valid.1 valid.2
  | delAppender l i =>
    simp only [Operation.valid,Bool.and_eq_true,decide_eq_true_eq] at valid
    have old := linked.equipped l valid.1
    exact linked_update linked valid.1 rfl old.formatter keep
      fun i member => old.appenders i (List.mem_of_mem_erase member)
  | clearAppender l =>
    have here : l < s.loggerCount := of_decide_eq_true valid
    exact linked_update linked here rfl (linked.equipped l here).formatter keep (by simp)
  | setLevel l level =>
    have here : l < s.loggerCount := of_decide_eq_true valid
    have old := linked.equipped l here
    exact linked_update linked here rfl old.formatter keep old.appenders
  | setFormatter l val =>
    have here : l < s.loggerCount := of_decide_eq_true valid
    have old := linked.equipped l here
    have kept : ∀ k, (s.appenders k).m_formatter ≠ none →
        (inheritAll (some val) s.appenders (s.loggers l).m_appenders k).m_formatter ≠ none := by
      intro k ready
      rw [inheritAll_formatter]
      split
      · simp
      · exact ready
    refine linked_update linked here rfl (by simp) kept fun k member => ?_
    obtain ⟨made,ready⟩ := old.appenders k member
    exact ⟨made,kept k ready⟩
  | setPattern l val =>
    have here : l < s.loggerCount := of_decide_eq_true valid
    have old := linked.equipped l here
    exact linked_update linked here rfl (by simp) keep old.appenders

theorem start_linked : Linked start where
  root := by decide
  registered := by
    intro name l found
    by_cases same : name = rootName
    · have zero : l = 0 := by simpa [start,register,same] using found.symm
      subst zero
      decide
    · simp [start,register,addAppender,newAppender,newLogger,setLogger,same] at found
  managed := by
    rintro l ⟨other,name,found⟩
    by_cases same : name = rootName
    · have zero : l = 0 := by simpa [start,register,same] using found.symm
      exact absurd zero other
    · simp [start,register,addAppender,newAppender,newLogger,setLogger,same] at found
  others := by
    intro l inside _
    have zero : l = 0 := Nat.lt_one_iff.mp inside
    subst zero
    rfl
  equipped := by
    intro l inside
    have zero : l = 0 := Nat.lt_one_iff.mp inside
    subst zero
    constructor
    · simp [start,register,addAppender,newAppender,newLogger,setLogger,Logger.new]
    · simp [start,register,addAppender,newAppender,newLogger,setLogger,Logger.new,inherit_formatter]

theorem reachable_linked (reach : Reachable s) : Linked s := by
  refine reach.invariant step Linked ?_ start_linked
  intro s operation t linked ran
  simp only [step,Option.ite_none_right_eq_some,Option.some.injEq] at ran
  obtain ⟨valid,rfl⟩ := ran
  exact perform_linked linked valid

/-! ### Writing an event -/

/-- The event is below the level of the logger or meets one of its appenders. -/
def Kept (s : State) (l : LoggerId) (level : LogLevel) : Prop :=
  level.value < (s.loggers l).m_level.value ∨ (s.loggers l).m_appenders ≠ []

/-- The same after the fall-back to the root logger, where there is one. -/
def Heard (s : State) (l : LoggerId) (level : LogLevel) : Prop :=
  Kept s l level ∨ Managed s l ∧ Kept s s.m_root level

/-- No appender of an equipped logger meets a null formatter. -/
theorem appendersLog_ok (level : LogLevel) (list : List AppenderId)
    (ready : ∀ i ∈ list, (s.appenders i).m_formatter ≠ none) :
    ∃ written, appendersLog s level list = .ok written := by
  have all : ∃ written, list.mapM (appenderLog s level) = .ok written := by
    induction list with
    | nil => exact ⟨[],rfl⟩
    | cons i list ih =>
      obtain ⟨rest,later⟩ := ih fun k member => ready k (by simp [member])
      have first : ∃ here, appenderLog s level i = .ok here := by
        obtain ⟨formatter,given⟩ := Option.ne_none_iff_exists'.mp (ready i (by simp))
        unfold appenderLog
        rw [given]
        split <;> exact ⟨_,rfl⟩
      obtain ⟨here,wrote⟩ := first
      exact ⟨here :: rest,by rw [List.mapM_cons,wrote,later]; rfl⟩
  obtain ⟨written,wrote⟩ := all
  exact ⟨written.flatten,by rw [appendersLog,wrote]; rfl⟩

theorem log_kept (linked : Linked s) (inside : l < s.loggerCount) (kept : Kept s l level) :
    ∃ written, log (depth + 1) s l level = some (.ok written) := by
  by_cases below : level.value ≥ (s.loggers l).m_level.value
  · have some_ : (s.loggers l).m_appenders ≠ [] := kept.resolve_left (by omega)
    obtain ⟨written,wrote⟩ := appendersLog_ok level (s.loggers l).m_appenders
      fun i member => ((linked.equipped l inside).appenders i member).2
    exact ⟨written,by simp [log,below,some_,wrote]⟩
  · exact ⟨[],by simp [log,below]⟩

theorem log_falls (lost : ¬ Kept s l level) : log (depth + 1) s l level =
    match (s.loggers l).m_root with
    | some root => log depth s root level
    | none => some (.error .m_root) := by
  obtain ⟨high,none⟩ : (s.loggers l).m_level.value ≤ level.value ∧ (s.loggers l).m_appenders = [] := by
    simpa only [Kept,not_or,not_lt,not_not] using lost
  have empty : (s.loggers l).m_appenders.isEmpty = true := by
    rw [none]
    rfl
  rw [log]
  exact (if_pos high).trans (if_pos empty)

/-- In every reachable state an event logged through any logger reaches its end without
a null pointer exactly when the logger keeps it or the root logger does for a logger that
falls back to it. -/
theorem log_total_iff (reach : Reachable s) (inside : l < s.loggerCount) (level : LogLevel)
    (enough : 2 ≤ depth) : (∃ written, log depth s l level = some (.ok written)) ↔ Heard s l level := by
  have linked := reachable_linked reach
  obtain ⟨depth,rfl⟩ := Nat.exists_eq_add_of_le' enough
  by_cases here : Kept s l level
  · exact ⟨fun _ => .inl here,fun _ => log_kept linked inside here⟩
  · rw [log_falls here]
    by_cases managed : Managed s l
    · rw [linked.managed l managed]
      by_cases there : Kept s s.m_root level
      · exact ⟨fun _ => .inr ⟨managed,there⟩,fun _ => log_kept linked linked.root there⟩
      · have rootless := linked.others s.m_root linked.root fun self => self.1 rfl
        simp [log_falls there,rootless,Heard,here,there]
    · simp [linked.others l inside managed,Heard,here,managed]

/-- A logger of the manager has no appender of its own, and the root logger writes its event. -/
theorem log_total_system : ∃ s, Transition.run step start [.getLogger "system".toList] = some s ∧
    Managed s 1 ∧ ∃ written, log 2 s 1 .INFO = some (.ok written) := by
  have ran : ∃ s, Transition.run step start [.getLogger "system".toList] = some s ∧
      (1 ≠ s.m_root ∧ s.m_loggers "system".toList = some 1) ∧ 1 < s.loggerCount ∧
      (s.loggers s.m_root).m_appenders ≠ [] := ⟨_,rfl,by decide⟩
  obtain ⟨s,ran,⟨other,found⟩,inside,listed⟩ := ran
  have managed : Managed s 1 := ⟨other,_,found⟩
  exact ⟨s,ran,managed,(log_total_iff ⟨_,ran⟩ inside .INFO (le_refl 2)).mpr (.inr ⟨managed,.inr listed⟩)⟩

theorem log_constructed_null : ∃ s, Transition.run step start [.newLogger "system".toList] = some s ∧
    log 2 s 1 .INFO = some (.error .m_root) :=
  ⟨_,rfl,rfl⟩

end Myriel.Logging

import Myriel.LoggerThreadsLines

/-! The events of one thread. Each is handed on once by one logger, or kept back by the level of
one, and no appender is given them in another order. -/
namespace Myriel.LoggerThreads
open Logging LockMachine

variable {τ E : Type}

def Call.record : Call τ E → Option (Record τ E)
  | .log _ r | .appenderLog _ _ r => some r
  | _ => none

def Section.record : Section τ E → Option (Record τ E)
  | .log _ r | .write _ _ r | .append _ _ r _ => some r
  | _ => none

/-- An event that has not been handed on yet. -/
def Call.ahead : Call τ E → Option (Record τ E)
  | .log _ r => some r
  | _ => none

def Section.ahead : Section τ E → Option (Record τ E)
  | .log _ r => some r
  | _ => none

def Call.begins : Call τ E → Option (LoggerId × E)
  | .LOG_LEVEL l event => some (l,event)
  | _ => none

/-- What is known of a call and of a section, of an instruction. -/
def instrOf {γ : Type} (call : Call τ E → Option γ) (part : Section τ E → Option γ) :
    Instr Mutex (Call τ E) (Section τ E) → Option γ
  | .code (.call a) => call a
  | .code (.enter b) | .perform b => part b
  | .leave _ => none

def codeOf {γ : Type} (call : Call τ E → Option γ) (part : Section τ E → Option γ) :
    Code (Call τ E) (Section τ E) → Option γ
  | .call a => call a
  | .enter b => part b

def noted {γ : Type} (call : Call τ E → Option γ) (part : Section τ E → Option γ)
    (code : List (Instr Mutex (Call τ E) (Section τ E))) : List γ :=
  code.filterMap (instrOf call part)

def records : List (Instr Mutex (Call τ E) (Section τ E)) → List (Record τ E) := noted Call.record Section.record

def aheads : List (Instr Mutex (Call τ E) (Section τ E)) → List (Record τ E) := noted Call.ahead Section.ahead

def begins : List (Instr Mutex (Call τ E) (Section τ E)) → List (LoggerId × E) := noted Call.begins fun _ => none

/-- An event is logged by a thread that does nothing else. -/
def Alone (code : List (Instr Mutex (Call τ E) (Section τ E))) : Prop :=
  begins code = [] ∨ ∃ l event, code = [.code (.call (.LOG_LEVEL l event))]

@[simp] def Record.of (t : Thread τ) (number : Nat) (event : LoggerId × E) : Record τ E :=
  ⟨t,number,event.1,event.2⟩

/-- The record is that of an event of its thread. -/
def Known (s : System τ E) (r : Record τ E) : Prop :=
  (s.events r.thread)[r.number]? = some (r.m_logger,r.event)

/-- A thread has only its last event in hand. -/
structure Latest (s : System τ E) (t : Thread τ) (r : Record τ E) : Prop where
  thread : r.thread = t
  number : r.number + 1 = (s.events t).length
  known : Known s r

def handled (s : System τ E) : List (Record τ E) := s.handed.map Handing.record ++ s.suppressed

/-- The events of a thread that have been handled, and what it has in hand. -/
def placed [DecidableEq τ] (s : State τ E) (t : Thread τ) : List (Record τ E) :=
  (handled s.shared ++ aheads (s.threads t)).filter fun r => r.thread == t

def heard [DecidableEq τ] (s : System τ E) (t : Thread τ) (i : AppenderId) : List (Record τ E) :=
  ((s.given i).map Delivery.record).filter fun r => r.thread == t

def logged (s : System τ E) (t : Thread τ) : List (Record τ E) := (s.events t).mapIdx (Record.of t)

structure Numbered [DecidableEq τ] (s : State τ E) : Prop where
  hands : ∀ t, ∀ r ∈ records (s.threads t), Latest s.shared t r
  alone : ∀ t, Alone (s.threads t)
  placed : ∀ t, ((placed s t).map Record.number).Perm (List.range (s.shared.events t).length)
  known : ∀ r ∈ handled s.shared, Known s.shared r
  given : ∀ i, ∀ d ∈ s.shared.given i, Known s.shared d.record
  order : ∀ t i, (heard s.shared t i).Pairwise fun first second => first.number ≤ second.number

/-! ### The parts of a step -/

/-- What a step of a thread does with its events: it may begin a new one, it may hand one on or
keep it back, and it may give one that it has in hand to an appender. -/
structure Moves [DecidableEq τ] (t : Thread τ) (s next : System τ E)
    (old new : List (Instr Mutex (Call τ E) (Section τ E))) (fresh : Option (LoggerId × E)) : Prop where
  events : next.events = Function.update s.events t (s.events t ++ fresh.toList)
  alone : fresh.isSome → records old = []
  placed : (handled next ++ aheads new).Perm
    (handled s ++ aheads old ++ fresh.toList.map (Record.of t (s.events t).length))
  hands : records new ⊆ records old ++ fresh.toList.map (Record.of t (s.events t).length)
  given : next.given = s.given ∨
    ∃ i d, d.record ∈ records old ∧ next.given = Function.update s.given i (s.given i ++ [d])

theorem noted_cons {γ : Type} (call : Call τ E → Option γ) (part : Section τ E → Option γ)
    (instr : Instr Mutex (Call τ E) (Section τ E)) (code : List (Instr Mutex (Call τ E) (Section τ E))) :
    noted call part (instr :: code) = (instrOf call part instr).toList ++ noted call part code := by
  cases found : instrOf call part instr <;> simp [noted,found]

theorem noted_stack {γ : Type} (call : Call τ E → Option γ) (part : Section τ E → Option γ)
    (body : List (Code (Call τ E) (Section τ E))) (code : List (Instr Mutex (Call τ E) (Section τ E))) :
    noted call part (Code.stack body code) = body.filterMap (codeOf call part) ++ noted call part code := by
  rw [noted,Code.stack,List.filterMap_append,List.filterMap_map,noted]
  congr 2
  funext c
  cases c <;> rfl

section Steps
variable [DecidableEq τ] {level : E → LogLevel} {render : Text → E → Text} {t : Thread τ} {s next : System τ E}
  {body : List (Code (Call τ E) (Section τ E))} {rest : List (Instr Mutex (Call τ E) (Section τ E))}

theorem Moves.same {old new : List (Instr Mutex (Call τ E) (Section τ E))} (events : next.events = s.events)
    (done : handled next = handled s) (given : next.given = s.given) (ahead : aheads new = aheads old)
    (hands : records new ⊆ records old) : Moves t s next old new none where
  events := by simp [events]
  alone := nofun
  placed := by simp [done,ahead]
  hands := by simpa using hands
  given := .inl given

theorem called_moves {a : Call τ E} (called : Called level render t s a next body)
    (alone : ∀ l event, a = .LOG_LEVEL l event → rest = []) :
    ∃ fresh, Moves t s next (.code (.call a) :: rest) (Code.stack body rest) fresh := by
  cases called with
  | event | quiet =>
    obtain rfl := alone _ _ rfl
    refine ⟨some _,⟨rfl,fun _ => rfl,?_,?_,.inl rfl⟩⟩ <;>
      simp [aheads,records,noted,Code.stack,List.filterMap_cons,instrOf,Call.ahead,Call.record,handled,suppress]
  | below =>
    refine ⟨none,⟨?_,fun begun => (Bool.false_ne_true begun).elim,?_,?_,.inl rfl⟩⟩ <;>
      simp [aheads,records,noted_cons,noted_stack,instrOf,Call.ahead,handled,suppress]
  | refuse =>
    refine ⟨none,.same rfl rfl rfl rfl ?_⟩
    simp [records,noted_cons,noted_stack]
  | operation op =>
    refine ⟨none,.same ?_ ?_ ?_ ?_ ?_⟩ <;>
      cases op <;> simp [operation,handled,aheads,records,noted_cons,noted_stack,List.filterMap_cons,instrOf,codeOf,
        Call.ahead,Call.record,Section.ahead,Section.record]
  | log | print | buffer | addAppender | attach | register | getFormatter | stop | join | ends | head | waited
  | tested | again | writing =>
    refine ⟨none,.same rfl rfl rfl ?_ ?_⟩ <;>
      simp [aheads,records,noted_cons,noted_stack,List.filterMap_cons,instrOf,codeOf,Call.ahead,Call.record,
        Section.ahead,Section.record]

theorem performed_moves {b : Section τ E} (performed : Performed render t s b next body) :
    Moves t s next (.perform b :: rest) (Code.stack body (.leave b.mutex :: rest)) none := by
  cases performed with
  | @log r l =>
    refine ⟨?_,fun begun => (Bool.false_ne_true begun).elim,?_,?_,.inl rfl⟩
    · simp
    · simpa [aheads,noted_cons,noted_stack,instrOf,codeOf,Section.ahead,Call.ahead,handled,List.filterMap_map,
        Function.comp_def] using List.perm_middle.symm.append_left _
    · intro x
      simp only [records,noted_cons,noted_stack,instrOf,codeOf,Section.record,Call.record,List.filterMap_map,
        Function.comp_def,Option.toList_none,Option.toList_some,List.mem_append,List.mem_filterMap,List.mem_singleton,
        List.map_nil,List.nil_append,List.append_nil]
      rintro (⟨i,_,same⟩ | later)
      · exact .inl (Option.some.inj same).symm
      · exact .inr later
  | write | append =>
    refine ⟨?_,fun begun => (Bool.false_ne_true begun).elim,?_,?_,.inr ⟨_,_,?_,rfl⟩⟩ <;>
      simp [aheads,records,noted_cons,noted_stack,instrOf,Section.ahead,Section.record,handled,give,setAsyc]
  | getLogger | known | getFileLogger | addAppender | delAppender | clearAppender | setFormatter | root
  | getFormatter | test | swap =>
    refine .same rfl rfl rfl ?_ ?_ <;>
      simp [aheads,records,noted_cons,noted_stack,List.filterMap_cons,instrOf,codeOf,Call.ahead,Call.record,
        Section.ahead,Section.record]

theorem called_begins {a : Call τ E} (called : Called level render t s a next body) (none : begins rest = []) :
    begins (Code.stack body rest) = [] := by
  cases called with
  | operation op =>
    cases op <;> simpa [operation,begins,noted_stack,List.filterMap_cons,codeOf,Call.begins] using none
  | _ => simpa [begins,noted_stack,List.filterMap_cons,codeOf,Call.begins] using none

theorem performed_begins {b : Section τ E} (performed : Performed render t s b next body) (none : begins rest = []) :
    begins (Code.stack body rest) = [] := by
  cases performed with
  | log => simpa [begins,noted_stack,codeOf,Call.begins] using none
  | _ => simpa [begins,noted_stack,List.filterMap_cons,codeOf,Call.begins] using none

end Steps

/-! ### Steps -/

section Machine
variable [DecidableEq τ] {level : E → LogLevel} {render : Text → E → Text} {s u : State τ E} {t : Thread τ}
  {code : List (Instr Mutex (Call τ E) (Section τ E))} {fresh : Option (LoggerId × E)}

theorem Known.grow {next : System τ E} {r : Record τ E} (known : Known s.shared r)
    (moves : Moves t s.shared next (s.threads t) code fresh) : Known next r := by
  unfold Known
  rw [moves.events]
  by_cases self : r.thread = t
  · subst self
    rw [Function.update_self,List.getElem?_append_left (List.getElem?_eq_some_iff.mp known).1]
    exact known
  · rw [Function.update_of_ne self]
    exact known

theorem Moves.latest {next : System τ E} {r : Record τ E} (moves : Moves t s.shared next (s.threads t) code fresh)
    (member : r ∈ fresh.toList.map (Record.of t (s.shared.events t).length)) : Latest next t r := by
  obtain ⟨event,begun,rfl⟩ := List.mem_map.mp member
  obtain rfl : fresh = some event := by simpa using begun
  refine ⟨rfl,?_,?_⟩
  · simp [moves.events]
  · simp [Known,moves.events]

theorem Numbered.hands_move (numbered : Numbered s) {next : System τ E}
    (moves : Moves t s.shared next (s.threads t) code fresh) : ∀ r ∈ records code, Latest next t r := by
  intro r member
  rcases List.mem_append.mp (moves.hands member) with before | begun
  · have latest := numbered.hands t r before
    have none : fresh = none := by
      rw [← Option.not_isSome_iff_eq_none]
      intro some
      rw [moves.alone some] at before
      cases before
    refine ⟨latest.thread,?_,latest.known.grow moves⟩
    rw [moves.events,none,latest.number]
    simp
  · exact moves.latest begun

theorem Numbered.hands_other (numbered : Numbered s) {next : System τ E}
    (moves : Moves t s.shared next (s.threads t) code fresh) {v : Thread τ} (other : v ≠ t) :
    ∀ r ∈ records (s.threads v), Latest next v r := by
  intro r member
  have latest := numbered.hands v r member
  refine ⟨latest.thread,?_,latest.known.grow moves⟩
  rw [moves.events,Function.update_of_ne other]
  exact latest.number

omit [DecidableEq τ] in
theorem aheads_records (code : List (Instr Mutex (Call τ E) (Section τ E))) : aheads code ⊆ records code := by
  intro r member
  obtain ⟨instr,inside,ahead⟩ := List.mem_filterMap.mp member
  refine List.mem_filterMap.mpr ⟨instr,inside,?_⟩
  cases instr with
  | code c =>
    cases c with
    | call a => cases a <;> cases ahead; rfl
    | enter b => cases b <;> cases ahead; rfl
  | perform b => cases b <;> cases ahead; rfl
  | leave m => cases ahead

theorem filter_other {list : List (Record τ E)} {v : Thread τ} (mine : ∀ r ∈ list, r.thread = t) (other : v ≠ t) :
    list.filter (fun r => r.thread == v) = [] := by
  refine List.filter_eq_nil_iff.mpr fun r member => ?_
  simpa [mine r member] using other.symm

theorem Moves.begun {next : System τ E} (moves : Moves t s.shared next (s.threads t) code fresh) :
    ∀ r ∈ fresh.toList.map (Record.of t (s.shared.events t).length), r.thread = t :=
  fun _ member => (moves.latest member).thread

theorem Numbered.placed_move (numbered : Numbered s) {next : System τ E}
    (moves : Moves t s.shared next (s.threads t) code fresh) (shared : u.shared = next)
    (threads : u.threads = Function.update s.threads t code) (v : Thread τ) :
    ((LoggerThreads.placed u v).map Record.number).Perm (List.range (next.events v).length) := by
  have before := numbered.placed v
  have step := moves.placed.filter fun r => r.thread == v
  by_cases self : v = t
  · subst v
    have all : (fresh.toList.map (Record.of t (s.shared.events t).length)).filter (fun r => r.thread == t) =
        fresh.toList.map (Record.of t (s.shared.events t).length) :=
      List.filter_eq_self.mpr fun r member => by simp [moves.begun r member]
    rw [LoggerThreads.placed,shared,threads,Function.update_self,moves.events,Function.update_self]
    rw [List.filter_append (handled s.shared ++ _),all] at step
    refine (step.map Record.number).trans ?_
    rw [List.map_append]
    refine (before.append_right _).trans ?_
    cases fresh <;> simp [List.range_succ]
  · have ahead : ∀ r ∈ aheads code, r.thread = t :=
      fun r member => (numbered.hands_move moves r (aheads_records code member)).thread
    have old : ∀ r ∈ aheads (s.threads t), r.thread = t :=
      fun r member => (numbered.hands t r (aheads_records _ member)).thread
    simp only [List.filter_append,filter_other ahead self,filter_other old self,filter_other moves.begun self,
      List.append_nil] at step
    rw [LoggerThreads.placed,shared,threads,Function.update_of_ne self,moves.events,Function.update_of_ne self,
      List.filter_append]
    refine ((step.append_right _).map Record.number).trans ?_
    rw [← List.filter_append]
    exact before

theorem Numbered.known_move (numbered : Numbered s) {next : System τ E}
    (moves : Moves t s.shared next (s.threads t) code fresh) : ∀ r ∈ handled next, Known next r := by
  intro r member
  have origin := moves.placed.subset (List.mem_append_left _ member)
  rcases List.mem_append.mp origin with before | begun
  · rcases List.mem_append.mp before with done | ahead
    · exact (numbered.known r done).grow moves
    · exact (numbered.hands t r (aheads_records _ ahead)).known.grow moves
  · exact (moves.latest begun).known

theorem Numbered.given_move (numbered : Numbered s) {next : System τ E}
    (moves : Moves t s.shared next (s.threads t) code fresh) :
    ∀ i, ∀ d ∈ next.given i, Known next d.record := by
  intro i d member
  have origin : d ∈ s.shared.given i ∨ d.record ∈ records (s.threads t) := by
    rcases moves.given with same | ⟨j,e,inside,grown⟩
    · exact .inl (same ▸ member)
    · rw [grown] at member
      by_cases this : i = j
      · subst i
        rw [Function.update_self] at member
        rcases List.mem_append.mp member with before | last
        · exact .inl before
        · cases List.mem_singleton.mp last
          exact .inr inside
      · rw [Function.update_of_ne this] at member
        exact .inl member
  rcases origin with before | inside
  · exact (numbered.given i d before).grow moves
  · exact (numbered.hands t _ inside).known.grow moves

theorem Numbered.order_move (numbered : Numbered s) {next : System τ E}
    (moves : Moves t s.shared next (s.threads t) code fresh) (v : Thread τ) (i : AppenderId) :
    (heard next v i).Pairwise fun first second => first.number ≤ second.number := by
  have before := numbered.order v i
  rcases moves.given with same | ⟨j,d,inside,grown⟩
  · simpa only [heard,same] using before
  by_cases this : i = j
  swap
  · simpa only [heard,grown,Function.update_of_ne this] using before
  subst i
  have latest := numbered.hands t _ inside
  rw [heard,grown,Function.update_self,List.map_append,List.filter_append]
  refine List.pairwise_append.mpr ⟨before,?_,?_⟩
  · cases mine : d.record.thread == v <;> simp [mine]
  · -- no event of the thread is behind the one that it has in hand
    intro first earlier second last
    obtain ⟨heardBefore,self⟩ := List.mem_filter.mp earlier
    obtain ⟨e,member,rfl⟩ := List.mem_map.mp heardBefore
    obtain ⟨lastOne,mine⟩ := List.mem_filter.mp last
    obtain rfl : second = d.record := by simpa using lastOne
    have known := numbered.given j e member
    have bound : e.record.number < (s.shared.events e.record.thread).length := (List.getElem?_eq_some_iff.mp known).1
    have number := latest.number
    have together : e.record.thread = t := (eq_of_beq self).trans ((eq_of_beq mine).symm.trans latest.thread)
    rw [together] at bound
    omega

theorem Numbered.move (numbered : Numbered s) {next : System τ E}
    (moves : Moves t s.shared next (s.threads t) code fresh) (alone : Alone code) (shared : u.shared = next)
    (threads : u.threads = Function.update s.threads t code) : Numbered u := by
  subst next
  refine ⟨fun v => ?_,fun v => ?_,numbered.placed_move moves rfl threads,numbered.known_move moves,
    numbered.given_move moves,numbered.order_move moves⟩
  · rw [threads]
    by_cases self : v = t
    · subst v
      rw [Function.update_self]
      exact numbered.hands_move moves
    · rw [Function.update_of_ne self]
      exact numbered.hands_other moves self
  · rw [threads]
    by_cases self : v = t
    · subst v
      rwa [Function.update_self]
    · rw [Function.update_of_ne self]
      exact numbered.alone v

omit [DecidableEq τ] in
theorem Alone.rest {instr : Instr Mutex (Call τ E) (Section τ E)} (alone : Alone (instr :: code)) :
    begins code = [] := by
  rcases alone with none | ⟨l,event,single⟩
  · rw [begins,noted_cons] at none
    exact (List.append_eq_nil_iff.mp none).2
  · cases single
    rfl

omit [DecidableEq τ] in
theorem Alone.single {l : LoggerId} {event : E} (alone : Alone (.code (.call (.LOG_LEVEL l event)) :: code)) :
    code = [] := by
  rcases alone with none | ⟨_,_,single⟩
  · cases none
  · cases single
    rfl

theorem Numbered.call (numbered : Numbered s) {a : Call τ E} {rest : List (Instr Mutex (Call τ E) (Section τ E))}
    {next : System τ E} {body : List (Code (Call τ E) (Section τ E))} (now : s.threads t = .code (.call a) :: rest)
    (called : Called level render t s.shared a next body) :
    Numbered (setThread { s with shared := next } t (Code.stack body rest)) := by
  have alone := numbered.alone t
  rw [now] at alone
  have single : ∀ l event, a = .LOG_LEVEL l event → rest = [] := by
    rintro l event rfl
    exact alone.single
  obtain ⟨fresh,moves⟩ := called_moves called single
  rw [← now] at moves
  exact numbered.move moves (.inl (called_begins called alone.rest)) rfl rfl

theorem Numbered.perform (numbered : Numbered s) {b : Section τ E}
    {rest : List (Instr Mutex (Call τ E) (Section τ E))} {next : System τ E}
    {body : List (Code (Call τ E) (Section τ E))} (now : s.threads t = .perform b :: rest)
    (performed : Performed render t s.shared b next body) :
    Numbered (setThread { s with shared := next } t (Code.stack body (.leave b.mutex :: rest))) := by
  have alone := numbered.alone t
  rw [now] at alone
  have moves : Moves t s.shared next (s.threads t) (Code.stack body (.leave b.mutex :: rest)) none := by
    rw [now]
    exact performed_moves performed
  exact numbered.move moves (.inl (performed_begins performed alone.rest)) rfl rfl

theorem Numbered.skip (numbered : Numbered s) {instr : Instr Mutex (Call τ E) (Section τ E)}
    {rest : List (Instr Mutex (Call τ E) (Section τ E))} (now : s.threads t = instr :: rest)
    (ahead : aheads code = aheads (instr :: rest)) (hands : records code = records (instr :: rest))
    (begun : begins code = begins rest) (owner : Mutex → Option (Thread τ)) :
    Numbered (setThread { s with owner := owner } t code) := by
  have alone := numbered.alone t
  rw [now] at alone
  refine numbered.move (.same rfl rfl rfl (now ▸ ahead) ?_) (.inl (begun.trans alone.rest)) rfl rfl
  rw [now,hands]
  exact List.Subset.refl _

theorem effect_numbered (numbered : Numbered s) {action : Action (Thread τ) (Call τ E)}
    (effect : Effect (program level render) s action u) : Numbered u := by
  cases effect with
  | @invoke t a idle invocable =>
    have plain : aheads [.code (.call a)] = aheads (s.threads t) ∧ records [.code (.call a)] = records (s.threads t) := by
      rw [idle]
      cases a <;> first | exact ⟨rfl,rfl⟩ | cases invocable
    refine numbered.move (.same rfl rfl rfl plain.1 (plain.2 ▸ List.Subset.refl _)) ?_ rfl rfl
    cases a with
    | LOG_LEVEL l event => exact .inr ⟨l,event,rfl⟩
    | _ => exact .inl rfl
  | call now called => exact numbered.call now (call_called level render called)
  | enter now free => refine numbered.skip now ?_ ?_ ?_ _ <;> rfl
  | perform now performed => exact numbered.perform now (perform_performed render performed)
  | leave now => refine numbered.skip now ?_ ?_ ?_ _ <;> rfl

theorem begin_numbered : Numbered (LockMachine.start begin : State τ E) where
  hands _ _ member := by cases member
  alone _ := .inl rfl
  placed _ := .nil
  known _ member := by cases member
  given _ _ member := by cases member
  order _ _ := .nil

theorem reachable_numbered (reach : Reachable level render s) : Numbered s :=
  reach.invariant _ Numbered (fun _ _ _ numbered taken => effect_numbered numbered (step_effect _ taken)) begin_numbered

/-! ### The loggers that hand the events on -/

/-- A logger has events of its own; the root logger has those of the others too. -/
def Call.Named : Call τ E → Prop
  | .log l r => l = r.m_logger ∨ l = 0
  | _ => True

def Section.Named : Section τ E → Prop
  | .log l r => l = r.m_logger ∨ l = 0
  | _ => True

def Named : Code (Call τ E) (Section τ E) → Prop
  | .call a => a.Named
  | .enter b => b.Named

structure Handed (s : System τ E) : Prop where
  rooted : Rooted s
  named : ∀ h ∈ s.handed, h.logger = h.record.m_logger ∨ h.logger = 0

theorem called_named {next : System τ E} {body : List (Code (Call τ E) (Section τ E))} {data : System τ E}
    {a : Call τ E} (called : Called level render t data a next body) (fits : a.Named) :
    next.handed = data.handed ∧ ∀ c ∈ body, Named c := by
  cases called with
  | operation op => cases op <;> simp [operation,Named,Call.Named,Section.Named]
  | event => exact ⟨rfl,by simp [Named,Call.Named]⟩
  | log passes =>
    refine ⟨rfl,fun c member => ?_⟩
    cases List.mem_singleton.mp member
    exact fits
  | quiet | below | print | buffer | refuse | addAppender | attach | register | getFormatter | stop | join | ends
  | head | waited | tested | again | writing =>
    exact ⟨rfl,by simp [Named,Call.Named,Section.Named]⟩

theorem performed_named {next : System τ E} {body : List (Code (Call τ E) (Section τ E))} {data : System τ E}
    {b : Section τ E} (rooted : Rooted data) (performed : Performed render t data b next body) (fits : b.Named) :
    (∀ h ∈ next.handed, h ∈ data.handed ∨ h.logger = h.record.m_logger ∨ h.logger = 0) ∧ ∀ c ∈ body, Named c := by
  cases performed with
  | @root l root r link =>
    refine ⟨fun _ => .inl,fun c member => ?_⟩
    cases List.mem_singleton.mp member
    exact .inr (rooted.links l root link).1
  | log =>
    refine ⟨fun h member => ?_,?_⟩
    · rcases List.mem_append.mp member with before | last
      · exact .inl before
      · cases List.mem_singleton.mp last
        exact .inr fits
    · simp [Named,Call.Named]
  | getLogger | known | getFileLogger | addAppender | delAppender | clearAppender | setFormatter | getFormatter
  | write | append | test | swap =>
    exact ⟨fun _ => .inl,by simp [Named,Call.Named,Section.Named]⟩

theorem program_names : Preserves (program (τ := τ) level render) Handed fun _ => Named := by
  refine ⟨fun t data a _ invocable => ?_,fun t data a next body good fits called => ?_,
    fun t data b next body good fits performed => ?_⟩
  · cases a with
    | log => cases invocable
    | _ => trivial
  · have made := call_called level render called
    obtain ⟨same,names⟩ := called_named made fits
    exact ⟨⟨called_rooted good.rooted made,same ▸ good.named⟩,names,fun _ => id⟩
  · have made := perform_performed render performed
    obtain ⟨more,names⟩ := performed_named good.rooted made fits
    exact ⟨⟨performed_rooted good.rooted made,fun h member => (more h member).elim (good.named h) id⟩,names,
      fun _ => id⟩

/-- An event is handed on by the logger that it names, or by the root logger. -/
theorem reachable_named (reach : Reachable level render s) :
    ∀ h ∈ s.shared.handed, h.logger = h.record.m_logger ∨ h.logger = s.shared.logging.m_root := by
  have handed := (reachable_fitting program_names ⟨begin_rooted,by simp [begin]⟩ reach).good
  rw [handed.rooted.first]
  exact handed.named

/-! ### What the appenders have been given -/

omit [DecidableEq τ] in
theorem mem_logged (s : System τ E) (t : Thread τ) (r : Record τ E) : r ∈ logged s t ↔ r.thread = t ∧ Known s r := by
  simp only [logged,List.mem_mapIdx,Known]
  constructor
  · rintro ⟨n,bound,rfl⟩
    exact ⟨rfl,List.getElem?_eq_getElem bound⟩
  · rintro ⟨rfl,known⟩
    obtain ⟨bound,same⟩ := List.getElem?_eq_some_iff.mp known
    exact ⟨r.number,bound,by simp [same]⟩

omit [DecidableEq τ] in
theorem logged_ordered (s : System τ E) (t : Thread τ) :
    (logged s t).Pairwise fun first second => first.number < second.number := by
  rw [List.pairwise_iff_getElem]
  intro i j _ _ less
  simpa [logged] using less

omit [DecidableEq τ] in
theorem ordered_sublist {s : System τ E} {list : List (Record τ E)}
    (order : list.Pairwise fun first second => first.number ≤ second.number) (nodup : list.Nodup)
    (inside : list ⊆ logged s t) : list.Sublist (logged s t) := by
  have ordered : list.Pairwise fun first second => first.number < second.number := by
    refine (order.and nodup).imp_of_mem fun {first second} member member' both => ?_
    obtain ⟨thread,known⟩ := (mem_logged _ _ _).mp (inside member)
    obtain ⟨thread',known'⟩ := (mem_logged _ _ _).mp (inside member')
    refine lt_of_le_of_ne both.1 fun number => both.2 ?_
    have event : (first.m_logger,first.event) = (second.m_logger,second.event) := by
      rw [Known,thread,number] at known
      rw [Known,thread',known] at known'
      exact Option.some.inj known'
    cases first
    cases second
    simp_all
  have antisymm : Std.Antisymm fun first second : Record τ E => first.number < second.number :=
    ⟨fun _ _ less more => absurd more less.asymm⟩
  exact List.sublist_of_subperm_of_pairwise (List.subperm_of_subset nodup inside) ordered (logged_ordered s t)

/-- Every event of a thread has been handled once, unless the thread has it in hand. -/
theorem Numbered.placed_logged (numbered : Numbered s) (t : Thread τ) :
    (LoggerThreads.placed s t).Perm (logged s.shared t) := by
  have places := numbered.placed t
  have nodup : (LoggerThreads.placed s t).Nodup := (places.nodup_iff.mpr List.nodup_range).of_map _
  apply (List.subperm_of_subset nodup ?_).perm_of_length_le
  · have length := places.length_eq
    rw [List.length_map,List.length_range] at length
    simp [logged,length]
  · intro r member
    obtain ⟨inside,mine⟩ := List.mem_filter.mp member
    refine (mem_logged _ _ _).mpr ⟨eq_of_beq mine,?_⟩
    rcases List.mem_append.mp inside with done | ahead
    · exact numbered.known r done
    · exact (numbered.hands t r (aheads_records _ ahead)).known

theorem Numbered.handed_nodup (numbered : Numbered s) : (s.shared.handed.map Handing.record).Nodup := by
  refine List.pairwise_iff_forall_sublist.mpr fun {first second} pair same => ?_
  subst second
  have places := (numbered.placed first.thread).nodup_iff.mpr List.nodup_range
  have twice : [first,first].Sublist (LoggerThreads.placed s first.thread) := by
    have whole := pair.trans ((List.sublist_append_left _ s.shared.suppressed).trans
      (List.sublist_append_left _ (aheads (s.threads first.thread))))
    simpa [LoggerThreads.placed,handled] using whole.filter fun r => r.thread == first.thread
  simpa using places.sublist (twice.map Record.number)

omit [DecidableEq τ] in
theorem eq_of_copies {accepted : Bool} {count : Nat} {r copy : Record τ E}
    (member : copy ∈ if accepted then List.replicate count r else []) : copy = r := by
  split at member
  · exact List.eq_of_mem_replicate member
  · cases member

omit [DecidableEq τ] in
theorem Shared.handed (shared : Shared level s) {i : AppenderId} {d : Delivery τ E} (member : d ∈ s.shared.given i) :
    ∃ h ∈ s.shared.handed, h.logger = d.logger ∧ h.record = d.record := by
  have inside : d.record ∈ told s.shared d.logger i :=
    List.mem_map_of_mem (List.mem_filter.mpr ⟨member,beq_self_eq_true _⟩)
  have due : d.record ∈ share level d.logger i s.shared.handed := by
    rw [← shared.shares]
    exact List.mem_append_left _ inside
  obtain ⟨h,handed,copies⟩ := List.mem_flatMap.mp due
  obtain ⟨known,logger⟩ := List.mem_filter.mp handed
  exact ⟨h,known,eq_of_beq logger,(eq_of_copies copies).symm⟩

/-- A logger gives an event to an appender once, if it has the appender once. -/
theorem Shared.told_nodup (shared : Shared level s) (numbered : Numbered s)
    {i : AppenderId} (single : ∀ h ∈ s.shared.handed, h.appenders.count i ≤ 1) (l : LoggerId) :
    (told s.shared l i).Nodup := by
  have due : (share level l i s.shared.handed).Nodup := by
    refine List.nodup_flatMap.mpr ⟨fun h member => ?_,?_⟩
    · split
      · exact List.nodup_replicate.mpr (single h (List.mem_filter.mp member).1)
      · exact List.nodup_nil
    · have apart := (List.pairwise_map.mp numbered.handed_nodup).filter fun h => h.logger == l
      refine apart.imp fun {first second} different r here there => ?_
      exact different ((eq_of_copies here).symm.trans (eq_of_copies there))
  exact due.sublist (List.IsPrefix.sublist ⟨_,shared.shares l i⟩)

/-- An appender gets no event twice, if no logger has it twice. -/
theorem Shared.given_nodup (shared : Shared level s) (numbered : Numbered s)
    {i : AppenderId} (single : ∀ h ∈ s.shared.handed, h.appenders.count i ≤ 1) :
    ((s.shared.given i).map Delivery.record).Nodup := by
  refine List.pairwise_map.mpr (List.pairwise_iff_forall_sublist.mpr fun {first second} pair same => ?_)
  obtain ⟨h,handed,logger,record⟩ := shared.handed (pair.subset (List.mem_cons_self))
  obtain ⟨k,other,logger',record'⟩ := shared.handed (pair.subset (List.mem_cons_of_mem _ List.mem_cons_self))
  -- one handing, so one logger
  obtain rfl : h = k := List.inj_on_of_nodup_map numbered.handed_nodup handed other (by rw [record,record',same])
  have nodup := shared.told_nodup numbered single first.logger
  have twice := (pair.filter fun d => d.logger == first.logger).map Delivery.record
  rw [List.filter_cons_of_pos (by simp),List.filter_cons_of_pos (by simp [← logger',logger])] at twice
  simpa [same] using nodup.sublist twice

/-- Every event that a thread has logged is at one place: it has been handed on by one logger, the
one that it names or the root logger, a level has kept it back, or the thread has it in hand. An
appender is given the events of a thread in the order in which the thread logs them, and each at
most once where no logger has had that appender twice. -/
theorem events_in_order (level : E → LogLevel) (render : Text → E → Text) (s : State τ E)
    (reach : Reachable level render s) (t : Thread τ) :
    (placed s t).Perm (logged s.shared t) ∧
      (∀ h ∈ s.shared.handed, h.logger = h.record.m_logger ∨ h.logger = s.shared.logging.m_root) ∧
      ∀ i, (heard s.shared t i).Pairwise (fun first second => first.number ≤ second.number) ∧
        heard s.shared t i ⊆ logged s.shared t ∧
        ((∀ h ∈ s.shared.handed, h.appenders.count i ≤ 1) → (heard s.shared t i).Sublist (logged s.shared t)) := by
  have numbered := reachable_numbered reach
  refine ⟨numbered.placed_logged t,reachable_named reach,fun i => ?_⟩
  have inside : heard s.shared t i ⊆ logged s.shared t := by
    intro r member
    obtain ⟨given,mine⟩ := List.mem_filter.mp member
    obtain ⟨d,delivered,rfl⟩ := List.mem_map.mp given
    exact (mem_logged _ _ _).mpr ⟨eq_of_beq mine,numbered.given i d delivered⟩
  refine ⟨numbered.order t i,inside,fun single => ?_⟩
  have nodup : (heard s.shared t i).Nodup := ((reachable_shared reach).given_nodup numbered single).filter _
  exact ordered_sublist (numbered.order t i) nodup inside

end Machine

/-- The event of the second thread names a logger without appenders; the root logger has handed
it on, and the first appender has been given it. -/
theorem events_in_order_two : ∃ s : State Bool Unit,
    Transition.run (step (program (fun _ => .INFO) fun _ _ => [])) (start begin) twoEvents = some s ∧
    logged s.shared (.client true) = [⟨.client true,0,1,()⟩] ∧
    (placed s (.client true)).Perm (logged s.shared (.client true)) ∧
    (∀ h ∈ s.shared.handed, h.logger = h.record.m_logger ∨ h.logger = 0) ∧
    (heard s.shared (.client true) 0).length = 1 ∧
    (heard s.shared (.client true) 0).Sublist (logged s.shared (.client true)) := by
  have ran : ∃ s : State Bool Unit,
      Transition.run (step (program (fun _ => .INFO) fun _ _ => [])) (start begin) twoEvents = some s ∧
      logged s.shared (.client true) = [⟨.client true,0,1,()⟩] ∧
      s.shared.handed.map Handing.appenders = [[0,1],[0,1]] ∧ s.shared.logging.m_root = 0 ∧
      (heard s.shared (.client true) 0).length = 1 := ⟨_,rfl,rfl,rfl,rfl,rfl⟩
  obtain ⟨s,ran,events,lists,root,one⟩ := ran
  have single : ∀ h ∈ s.shared.handed, h.appenders.count 0 ≤ 1 := by
    intro h member
    rw [both_appenders lists h member]
    decide
  obtain ⟨place,names,order⟩ := events_in_order _ _ s ⟨_,ran⟩ (.client true)
  rw [root] at names
  exact ⟨s,ran,events,place,names,one,(order 0).2.2 single⟩

end Myriel.LoggerThreads

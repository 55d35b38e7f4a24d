import Myriel.ConfigLocks

/-! The order in which listeners and lookups take the mutexes of the configuration. -/
namespace Myriel.ConfigLocks

variable {ι V : Type}

def Op.mutex : Op V → Option Mutex
  | .lookup _ _ | .lookupOr _ _ _ _ | .lookupBase _ => some .registry
  | .getValue name | .setValue name _ | .fromString name _ | .toString name | .addListener name _
  | .delListener name _ => some (.var name)
  | .attempt _ _ => none

inductive Locks : Op V → Mutex → Prop where
  | own (asks : op.mutex = some m) : Locks op m
  | attempt (member : op ∈ body) (asks : Locks op m) : Locks (.attempt handler body) m

/-- What is promised of a program: the mutexes that the listeners of a variable ask for, and
the names that are looked up with a value of another type than theirs. -/
structure Policy where
  type : Text → TypeId
  uses : Text → Mutex → Prop
  clash : Text → Prop

/-- The second mutex may be asked for where the first one is held. -/
def Before (policy : Policy) : Mutex → Mutex → Prop
  | .var name,m => policy.uses name m
  | .registry,.var name => policy.clash name
  | .registry,.registry => False

abbrev Behind (policy : Policy) : Mutex → Mutex → Prop := Relation.TransGen (Before policy)

/-- An operation keeps the promise, with all listeners in it. -/
inductive Keeps (policy : Policy) : Op V → Prop where
  | lookup : Keeps policy (.lookup name type)
  | lookupOr (agrees : type = policy.type name ∨ policy.clash name) :
      Keeps policy (.lookupOr name type value logged)
  | lookupBase : Keeps policy (.lookupBase name)
  | getValue : Keeps policy (.getValue name)
  | setValue : Keeps policy (.setValue name value)
  | fromString : Keeps policy (.fromString name str)
  | toString : Keeps policy (.toString name)
  | addListener (each : ∀ old new op, op ∈ cb old new → Keeps policy op)
      (asks : ∀ old new op m, op ∈ cb old new → Locks op m → policy.uses name m) :
      Keeps policy (.addListener name cb)
  | delListener : Keeps policy (.delListener name key)
  | attempt (each : ∀ op, op ∈ body → Keeps policy op) : Keeps policy (.attempt handler body)

structure Obedient (policy : Policy) (name : Text) (cb : Callback V) : Prop where
  each : ∀ old new op, op ∈ cb old new → Keeps policy op
  asks : ∀ old new op m, op ∈ cb old new → Locks op m → policy.uses name m

structure VarKeeps (policy : Policy) (name : Text) (var : Var V) : Prop where
  type : var.type = policy.type name ∨ policy.clash name
  listeners : ∀ key cb, (key,cb) ∈ var.m_callbacks → Obedient policy name cb

/-! ### The mutexes that a thread holds -/

def held (stack : List (Frame V)) : List Mutex := stack.filterMap Frame.lock

def Last (policy : Policy) (mutexes : List Mutex) (m : Mutex) : Prop :=
  ∀ other ∈ mutexes, Behind policy other m

def SectionKeeps (policy : Policy) : Section V → Prop
  | .findOr name type _ _ => type = policy.type name ∨ policy.clash name
  | .insert name cb => Obedient policy name cb
  | _ => True

def InstrKeeps (policy : Policy) (mutexes : List Mutex) (lock : Option Mutex) : Instr V → Prop
  | .call op => Keeps policy op ∧ ∀ m, Locks op m → Last policy mutexes m
  | .enter part => SectionKeeps policy part ∧ Last policy mutexes part.mutex
  | .perform part => SectionKeeps policy part ∧ lock = some part.mutex

def StackKeeps (policy : Policy) : List (Frame V) → Prop
  | [] => True
  | frame :: below =>
    (∀ m, frame.lock = some m → Last policy (held below) m) ∧
      (∀ instr ∈ frame.code, InstrKeeps policy (held (frame :: below)) frame.lock instr) ∧
      StackKeeps policy below

/-- Every thread asks for mutexes behind all those that it holds. -/
structure Ordered (policy : Policy) (s : State ι V) : Prop where
  vars : ∀ name var, s.vars name = some var → VarKeeps policy name var
  frames : ∀ t, StackKeeps policy (s.threads t)
  owned : ∀ m t, s.owner m = some t → m ∈ held (s.threads t)

theorem held_cons (frame : Frame V) (below : List (Frame V)) :
    held (frame :: below) = frame.lock.toList ++ held below := by
  cases lock : frame.lock <;> simp [held,lock]

theorem held_push (code : List (Instr V)) (stack : List (Frame V)) :
    held (push code stack) = held stack := by
  cases stack <;> rfl

theorem push_keeps {policy : Policy} {code : List (Instr V)} {stack : List (Frame V)}
    (keeps : StackKeeps policy stack)
    (new : ∀ lock, ∀ instr ∈ code, InstrKeeps policy (held stack) lock instr) :
    StackKeeps policy (push code stack) := by
  cases stack with
  | nil => trivial
  | cons frame below =>
    refine ⟨keeps.1,?_,keeps.2.2⟩
    intro instr member
    rcases List.mem_append.mp member with first | old
    · exact new frame.lock instr first
    · exact keeps.2.1 instr old

theorem push_below {policy : Policy} {code : List (Instr V)} {frame : Frame V} {below : List (Frame V)}
    (keeps : StackKeeps policy (frame :: below))
    (new : ∀ lock, ∀ instr ∈ code, InstrKeeps policy (held below) lock instr) :
    StackKeeps policy (frame :: push code below) := by
  refine ⟨?_,?_,push_keeps keeps.2.2 new⟩
  · simpa only [held_push] using keeps.1
  · intro instr member
    simpa only [held_cons,held_push] using keeps.2.1 instr member

theorem code_keeps {policy : Policy} {code : List (Instr V)} {frame : Frame V} {below : List (Frame V)}
    (keeps : StackKeeps policy (frame :: below))
    (new : ∀ instr ∈ code, InstrKeeps policy (held (frame :: below)) frame.lock instr) :
    StackKeeps policy ({ frame with code := code } :: below) :=
  ⟨keeps.1,new,keeps.2.2⟩

theorem unwind_keeps {policy : Policy} {thrown : Thrown} {stack left : List (Frame V)}
    {released : List Mutex} (keeps : StackKeeps policy stack)
    (unwound : unwind thrown stack = some (released,left)) :
    StackKeeps policy left ∧ held stack = released ++ held left := by
  induction stack generalizing released left with
  | nil => cases unwound
  | cons frame below ih =>
    simp only [unwind] at unwound
    split at unwound
    case isTrue =>
      cases unwound
      exact ⟨keeps.2.2,held_cons frame _⟩
    case isFalse =>
      obtain ⟨⟨released,left⟩,later,same⟩ := Option.map_eq_some_iff.mp unwound
      cases same
      obtain ⟨rest,all⟩ := ih keeps.2.2 later
      exact ⟨rest,by rw [held_cons,all,List.append_assoc]⟩

theorem release_nil (s : State ι V) : release s [] = s := by
  simp [release]

theorem Ordered.setVar {policy : Policy} {s : State ι V} {name : Text} {var : Var V}
    (ordered : Ordered policy s) (keeps : VarKeeps policy name var) :
    Ordered policy (setVar s name var) where
  vars other found := by
    intro known
    by_cases same : other = name
    · subst same
      simp only [ConfigLocks.setVar,Function.update_self,Option.some.injEq] at known
      subst known
      exact keeps
    · simp only [ConfigLocks.setVar,Function.update_of_ne same] at known
      exact ordered.vars other found known
  frames := ordered.frames
  owned := ordered.owned

variable [DecidableEq ι]

/-- A thread gets another stack and lets go of the mutexes that are not in it. -/
theorem Ordered.setStack {policy : Policy} {s : State ι V} {t : ι} {stack : List (Frame V)}
    (released : List Mutex) (ordered : Ordered policy s) (keeps : StackKeeps policy stack)
    (same : held (s.threads t) = released ++ held stack) :
    Ordered policy (setStack (release s released) t stack) where
  vars := ordered.vars
  frames u := by
    by_cases self : u = t
    · subst self
      simpa [ConfigLocks.setStack] using keeps
    · simpa [ConfigLocks.setStack,self,release] using ordered.frames u
  owned m u owns := by
    simp only [ConfigLocks.setStack,release] at owns
    split at owns
    case isTrue => cases owns
    case isFalse kept =>
      have member := ordered.owned m u owns
      by_cases self : u = t
      · subst self
        rw [same] at member
        simpa [ConfigLocks.setStack] using (List.mem_append.mp member).resolve_left kept
      · simpa [ConfigLocks.setStack,self,release] using member

theorem Ordered.setStack_same {policy : Policy} {s : State ι V} {t : ι} {stack : List (Frame V)}
    (ordered : Ordered policy s) (keeps : StackKeeps policy stack)
    (same : held (s.threads t) = held stack) : Ordered policy (ConfigLocks.setStack s t stack) := by
  have next := ordered.setStack [] keeps (by simpa using same)
  rwa [release_nil] at next

theorem Ordered.seize {policy : Policy} {s : State ι V} {t : ι} {stack : List (Frame V)} {m : Mutex}
    (ordered : Ordered policy s) (keeps : StackKeeps policy stack)
    (more : held stack = m :: held (s.threads t)) :
    Ordered policy { ConfigLocks.setStack s t stack with owner := Function.update s.owner m (some t) } where
  vars := ordered.vars
  frames u := by
    by_cases self : u = t
    · subst self
      simpa [ConfigLocks.setStack] using keeps
    · simpa [ConfigLocks.setStack,self] using ordered.frames u
  owned other u owns := by
    by_cases same : other = m
    · subst same
      simp only [Function.update_self,Option.some.injEq] at owns
      subst owns
      simp [ConfigLocks.setStack,more]
    · simp only [Function.update_of_ne same] at owns
      have member := ordered.owned other u owns
      by_cases self : u = t
      · subst self
        simpa [ConfigLocks.setStack,more] using Or.inr member
      · simpa [ConfigLocks.setStack,self] using member

theorem Ordered.raise {policy : Policy} {s u : State ι V} {t : ι} {thrown : Thrown}
    {stack : List (Frame V)} (ordered : Ordered policy s) (keeps : StackKeeps policy stack)
    (same : held (s.threads t) = held stack) (raised : raise s t thrown stack = some u) :
    Ordered policy u := by
  obtain ⟨⟨released,left⟩,unwound,rfl⟩ := Option.map_eq_some_iff.mp raised
  obtain ⟨rest,all⟩ := unwind_keeps keeps unwound
  exact ordered.setStack released rest (same.trans all)

/-! ### Steps -/

theorem Ordered.enter {policy : Policy} {s : State ι V} {t : ι} {stack : List (Frame V)}
    {code : List (Instr V)} (ordered : Ordered policy s) (part : Section V)
    (keeps : StackKeeps policy stack) (same : held (s.threads t) = held stack)
    (promise : SectionKeeps policy part) (last : Last policy (held stack) part.mutex)
    (only : ∀ instr ∈ code, instr = .enter part) :
    Ordered policy (ConfigLocks.setStack s t (push code stack)) := by
  apply ordered.setStack_same
  · apply push_keeps keeps
    intro lock instr member
    rw [only instr member]
    exact ⟨promise,last⟩
  · rw [same,held_push]

omit [DecidableEq ι] in
theorem through_only (s : State ι V) (name : Text) (part : Section V) :
    ∀ instr ∈ through s name part, instr = .enter part := by
  intro instr member
  unfold through at member
  split at member
  · exact List.mem_singleton.mp member
  · cases member

theorem call_ordered {policy : Policy} {fromStr : TypeId → Text → Except Thrown V} {s u : State ι V}
    {t : ι} {stack : List (Frame V)} {op : Op V} (ordered : Ordered policy s)
    (keeps : StackKeeps policy stack) (same : held (s.threads t) = held stack)
    (promise : Keeps policy op) (last : ∀ m, Locks op m → Last policy (held stack) m)
    (called : call fromStr s t stack op = some u) : Ordered policy u := by
  cases promise with
  | lookup | lookupBase =>
    cases called
    apply ordered.enter (.find _) keeps same trivial (last _ (.own rfl))
    intro instr member
    exact List.mem_singleton.mp member
  | lookupOr agrees =>
    cases called
    apply ordered.enter (.findOr _ _ _ _) keeps same agrees (last _ (.own rfl))
    intro instr member
    exact List.mem_singleton.mp member
  | getValue | toString =>
    cases called
    exact ordered.enter (.read _) keeps same trivial (last _ (.own rfl)) (through_only s _ (.read _))
  | setValue =>
    cases called
    exact ordered.enter (.announce _ _) keeps same trivial (last _ (.own rfl)) (through_only s _ (.announce _ _))
  | addListener each asks =>
    cases called
    exact ordered.enter (.insert _ _) keeps same ⟨each,asks⟩ (last _ (.own rfl)) (through_only s _ (.insert _ _))
  | delListener =>
    cases called
    exact ordered.enter (.erase _ _) keeps same trivial (last _ (.own rfl)) (through_only s _ (.erase _ _))
  | @fromString name str =>
    simp only [call] at called
    split at called
    · cases called
      apply ordered.setStack_same
      · refine ⟨fun m none => (by cases none),?_,keeps⟩
        intro instr member
        rw [through_only s _ _ instr member]
        exact ⟨trivial,last _ (.own rfl)⟩
      · exact same
    · cases called
      exact ordered.setStack_same keeps same
    · exact ordered.raise keeps same called
  | attempt each =>
    cases called
    apply ordered.setStack_same
    · refine ⟨fun m none => (by cases none),?_,keeps⟩
      intro instr member
      obtain ⟨op,inside,rfl⟩ := List.mem_map.mp member
      exact ⟨each op inside,fun m asks => last m (.attempt inside asks)⟩
    · exact same

theorem listeners_keep {policy : Policy} {name : Text} {var : Var V} {value : V} {frame : Frame V}
    {below : List (Frame V)} (promise : VarKeeps policy name var)
    (lock : frame.lock = some (.var name)) (last : Last policy (held below) (.var name)) :
    ∀ instr ∈ listeners var value, InstrKeeps policy (held (frame :: below)) frame.lock instr := by
  intro instr member
  obtain ⟨⟨key,cb⟩,registered,inside⟩ := List.mem_flatMap.mp member
  obtain ⟨op,body,rfl⟩ := List.mem_map.mp inside
  have obedient := promise.listeners key cb registered
  refine ⟨obedient.each _ _ op body,?_⟩
  intro m asks other holds
  have edge : Behind policy (.var name) m := .single (obedient.asks _ _ op m body asks)
  rw [held_cons,lock] at holds
  rcases List.mem_cons.mp holds with rfl | deeper
  · exact edge
  · exact (last other deeper).trans edge

section Performing
variable {policy : Policy} {s u : State ι V} {t : ι} {frame : Frame V} {below : List (Frame V)}

/-- `findOr` asks for the mutex of a variable of another type under that of the registry. -/
theorem clash_ordered {name : Text} {type : TypeId} {value : V} {var : Var V}
    (ordered : Ordered policy s) (keeps : StackKeeps policy (frame :: below))
    (same : held (s.threads t) = held (frame :: below))
    (promise : SectionKeeps policy (.findOr name type value logged)) (lock : frame.lock = some .registry)
    (known : s.vars name = some var) (other : var.type ≠ type) :
    Ordered policy (ConfigLocks.setStack s t (push [.enter (.read name)] (frame :: below))) := by
  have clash : policy.clash name := by
    rcases (ordered.vars name var known).type with declared | clash
    · rcases promise with agrees | clash
      · exact absurd (declared.trans agrees.symm) other
      · exact clash
    · exact clash
  have edge : Behind policy .registry (.var name) := .single clash
  apply ordered.enter (.read name) keeps same trivial
  · intro m holds
    rw [held_cons,lock] at holds
    rcases List.mem_cons.mp holds with rfl | deeper
    · exact edge
    · exact (keeps.1 _ lock m deeper).trans edge
  · intro instr member
    exact List.mem_singleton.mp member

/-- The listeners are called under the mutex of the variable, the new value is stored behind
them. -/
theorem announce_ordered {name : Text} {value : V} {var : Var V} (ordered : Ordered policy s)
    (keeps : StackKeeps policy (frame :: below)) (same : held (s.threads t) = held (frame :: below))
    (lock : frame.lock = some (.var name)) (known : s.vars name = some var) :
    Ordered policy (ConfigLocks.setStack s t ({ frame with code := listeners var value ++ frame.code } ::
      push [.enter (.store name value)] below)) := by
  have last : Last policy (held below) (.var name) := keeps.1 _ lock
  have lower : StackKeeps policy (frame :: push [.enter (.store name value)] below) := by
    apply push_below keeps
    intro _ instr member
    cases List.mem_singleton.mp member
    exact ⟨trivial,last⟩
  apply ordered.setStack_same
  · apply code_keeps lower
    intro instr member
    rcases List.mem_append.mp member with new | old
    · apply listeners_keep (ordered.vars name var known) lock ?_ instr new
      simpa only [held_push] using last
    · exact lower.2.1 instr old
  · simp only [same,held_cons,held_push]

theorem VarKeeps.insert {name : Text} {var : Var V} {cb : Callback V} (keeps : VarKeeps policy name var)
    (obedient : Obedient policy name cb) (key : Nat) :
    VarKeeps policy name { var with m_callbacks := var.m_callbacks ++ [(key,cb)] } where
  type := keeps.type
  listeners other cb member := by
    rcases List.mem_append.mp member with old | new
    · exact keeps.listeners other cb old
    · cases List.mem_singleton.mp new
      exact obedient

omit [DecidableEq ι] in
/-- A section on a variable, which leaves the state where the name is not registered. -/
theorem Ordered.onVar {entry : Option (Var V)} {after : Var V → State ι V} (stays : Ordered policy s)
    (performed : (match entry with | none => some s | some var => some (after var)) = some u)
    (known : ∀ var, entry = some var → Ordered policy (after var)) : Ordered policy u := by
  cases entry with
  | none =>
    cases performed
    exact stays
  | some var =>
    cases performed
    exact known var rfl

theorem perform_ordered [BEq V] {part : Section V} (ordered : Ordered policy s)
    (keeps : StackKeeps policy (frame :: below)) (same : held (s.threads t) = held (frame :: below))
    (promise : SectionKeeps policy part) (lock : frame.lock = some part.mutex)
    (performed : perform s t frame below part = some u) : Ordered policy u := by
  have stays := ordered.setStack_same keeps same
  cases part with
  | find | read =>
    cases performed
    exact stays
  | findOr name type value logged =>
    simp only [perform] at performed
    split at performed
    case h_1 var known =>
      split at performed
      · cases performed
        exact stays
      case isFalse other =>
        cases performed
        exact clash_ordered ordered keeps same promise lock known fun typed => other (.inl typed)
    case h_2 =>
      split at performed
      · cases performed
        exact stays.setVar ⟨promise,fun key cb none => (by cases none)⟩
      · exact ordered.raise keeps same performed
  | announce name value =>
    simp only [perform] at performed
    split at performed
    case h_1 =>
      cases performed
      exact stays
    case h_2 var known =>
      split at performed
      · cases performed
        exact stays
      · cases performed
        exact announce_ordered ordered keeps same lock known
  | store name value =>
    refine stays.onVar performed fun var known => ?_
    have before := ordered.vars name var known
    exact stays.setVar ⟨before.type,before.listeners⟩
  | insert name cb =>
    refine stays.onVar performed fun var known => ?_
    have next := stays.setVar ((ordered.vars name var known).insert promise (s.s_fun_id var.type + 1))
    exact ⟨next.vars,next.frames,next.owned⟩
  | erase name key =>
    refine stays.onVar performed fun var known => ?_
    have before := ordered.vars name var known
    refine stays.setVar ⟨before.type,?_⟩
    intro other cb member
    exact before.listeners other cb (List.mem_filter.mp member).1

end Performing

theorem rest_keeps {policy : Policy} {lock : Option Mutex} {handler : Option Handler} {instr : Instr V}
    {code : List (Instr V)} {below : List (Frame V)}
    (keeps : StackKeeps policy (⟨lock,handler,instr :: code⟩ :: below)) :
    StackKeeps policy (⟨lock,handler,code⟩ :: below) ∧
      InstrKeeps policy (held ((⟨lock,handler,code⟩ : Frame V) :: below)) lock instr := by
  have first := keeps.2.1 instr List.mem_cons_self
  refine ⟨code_keeps keeps ?_,first⟩
  intro other member
  exact keeps.2.1 other (List.mem_cons_of_mem _ member)

theorem step_ordered [BEq V] {policy : Policy} {fromStr : TypeId → Text → Except Thrown V}
    (s : State ι V) (t : ι) (u : State ι V) (ordered : Ordered policy s)
    (taken : step fromStr s t = some u) : Ordered policy u := by
  have keeps := ordered.frames t
  unfold step at taken
  split at taken
  case h_1 => cases taken
  case h_2 lock handler below stack =>
    cases taken
    rw [stack] at keeps
    apply ordered.setStack lock.toList keeps.2.2
    rw [stack,held_cons]
  case h_3 lock handler op code below stack =>
    rw [stack] at keeps
    obtain ⟨rest,promise,last⟩ := rest_keeps keeps
    apply call_ordered ordered rest ?_ promise last taken
    simp only [stack,held_cons]
  case h_4 lock handler part code below stack =>
    rw [stack] at keeps
    obtain ⟨rest,promise,last⟩ := rest_keeps keeps
    split at taken
    case isFalse => cases taken
    case isTrue free =>
      cases taken
      -- The block of the section comes on top, with the mutex that is behind all others.
      apply ordered.seize
      · refine ⟨?_,?_,rest⟩
        · intro m same
          cases same
          exact last
        · intro instr member
          cases List.mem_singleton.mp member
          exact ⟨promise,rfl⟩
      · simp only [stack,held_cons]
        rfl
  case h_5 lock handler part code below stack =>
    rw [stack] at keeps
    obtain ⟨rest,promise,own⟩ := rest_keeps keeps
    apply perform_ordered ordered rest ?_ promise own taken
    simp only [stack,held_cons]

/-- The program keeps the promise from the start on. -/
structure Promised (policy : Policy) (vars : Text → Option (Var V)) (programs : ι → List (Op V)) : Prop where
  vars : ∀ name var, vars name = some var → VarKeeps policy name var
  programs : ∀ t op, op ∈ programs t → Keeps policy op

omit [DecidableEq ι] in
theorem start_ordered {policy : Policy} {vars : Text → Option (Var V)} {programs : ι → List (Op V)}
    (promised : Promised policy vars programs) (s_fun_id : TypeId → Nat) :
    Ordered policy (start vars s_fun_id programs) := by
  constructor
  · exact promised.vars
  · intro t
    refine ⟨fun m none => (by cases none),?_,trivial⟩
    intro instr member
    obtain ⟨op,inside,rfl⟩ := List.mem_map.mp member
    refine ⟨promised.programs t op inside,fun m _ other holds => ?_⟩
    cases holds
  · intro m t owns
    cases owns

omit [DecidableEq ι] in
theorem Ordered.waits {policy : Policy} {s : State ι V} (ordered : Ordered policy s) {t : ι}
    {m other : Mutex} (waiting : waits s t = some m) (owns : s.owner other = some t) :
    Behind policy other m := by
  have keeps := ordered.frames t
  have holds := ordered.owned other t owns
  unfold ConfigLocks.waits at waiting
  split at waiting
  case h_1 lock handler part code below stack =>
    cases waiting
    rw [stack] at keeps holds
    exact (keeps.2.1 (.enter part) List.mem_cons_self).2 other holds
  case h_2 => cases waiting

theorem not_deadlocked [BEq V] {policy : Policy} {fromStr : TypeId → Text → Except Thrown V}
    {vars : Text → Option (Var V)} {s_fun_id : TypeId → Nat} {programs : ι → List (Op V)} {s : State ι V}
    (acyclic : ∀ m, ¬ Behind policy m m) (promised : Promised policy vars programs)
    (reach : Transition.Reachable (step fromStr) (start vars s_fun_id programs) s) : ¬ Deadlocked s := by
  have ordered : Ordered policy s :=
    reach.invariant (step fromStr) (Ordered policy) step_ordered (start_ordered promised s_fun_id)
  rintro ⟨threads,deadlock⟩
  exact LockOrder.not_deadlock (Before policy) acyclic
    (fun t m other waiting owns => ordered.waits waiting owns) threads deadlock

end Myriel.ConfigLocks

import Myriel.ConfigLoad
import Myriel.LockOrder
import Myriel.Transition

/-! The mutexes of `Config` and `ConfigVar`, under any number of threads. A listener is a
list of the same operations. A step is the call of an operation, the entry into one of its
sections, what it does there, or the end of a block. -/
namespace Myriel.ConfigLocks

abbrev TypeId := Nat

inductive Mutex where
  /-- `GetMutex()` -/
  | registry
  /-- `m_mutex` of the variable of that name -/
  | var (name : Text)
  deriving DecidableEq

inductive Handler where
  /-- `catch (std::exception&)` -/
  | exceptions
  /-- `catch (...)` -/
  | all
  deriving DecidableEq

/-- `V` has the values of all types. `attempt` is a `try` block in the code of the user, and `logged`
tells whether the logger `system` takes an `ERROR` then. -/
inductive Op (V : Type) where
  | lookup (name : Text) (type : TypeId)
  | lookupOr (name : Text) (type : TypeId) (value : V) (logged : Bool)
  | lookupBase (name : Text)
  | getValue (name : Text)
  | setValue (name : Text) (value : V)
  | fromString (name : Text) (str : Text)
  | toString (name : Text)
  | addListener (name : Text) (cb : V → V → List (Op V))
  | delListener (name : Text) (key : Nat)
  | attempt (handler : Handler) (body : List (Op V))

abbrev Callback (V : Type) := V → V → List (Op V)

structure Var (V : Type) where
  type : TypeId
  m_val : V
  m_callbacks : List (Nat × Callback V)

/-- The sections under a mutex. -/
inductive Section (V : Type) where
  | find (name : Text)
  | findOr (name : Text) (type : TypeId) (value : V) (logged : Bool)
  | read (name : Text)
  /-- the first section of `setValue` -/
  | announce (name : Text) (value : V)
  | store (name : Text) (value : V)
  | insert (name : Text) (cb : Callback V)
  | erase (name : Text) (key : Nat)

def Section.mutex : Section V → Mutex
  | .find _ | .findOr _ _ _ _ => .registry
  | .read name | .announce name _ | .store name _ | .insert name _ | .erase name _ => .var name

inductive Instr (V : Type) where
  | call (op : Op V)
  | enter (part : Section V)
  | perform (part : Section V)

/-- A block: the lock that lives in it, the handler of a `try` block, the code that is left. -/
structure Frame (V : Type) where
  lock : Option Mutex
  handler : Option Handler
  code : List (Instr V)

/-- `s_fun_id` counts the listeners of all variables of one type. -/
structure State (ι V : Type) where
  vars : Text → Option (Var V)
  s_fun_id : TypeId → Nat
  owner : Mutex → Option ι
  threads : ι → List (Frame V)

variable {ι V : Type} [DecidableEq ι]

def setStack (s : State ι V) (t : ι) (stack : List (Frame V)) : State ι V :=
  { s with threads := Function.update s.threads t stack }

def setVar (s : State ι V) (name : Text) (var : Var V) : State ι V :=
  { s with vars := Function.update s.vars name (some var) }

def release (s : State ι V) (mutexes : List Mutex) : State ι V :=
  { s with owner := fun m => if m ∈ mutexes then none else s.owner m }

def catches (handler : Option Handler) (thrown : Thrown) : Bool :=
  handler == some .all || handler == some .exceptions && thrown == .exception

/-- The blocks that an exception leaves, up to the one whose handler takes it. -/
def unwind (thrown : Thrown) : List (Frame V) → Option (List Mutex × List (Frame V))
  | [] => none
  | frame :: below =>
    if catches frame.handler thrown then some (frame.lock.toList,below)
    else (unwind thrown below).map fun (released,left) => (frame.lock.toList ++ released,left)

/-- An exception that nobody takes ends the process. -/
def raise (s : State ι V) (t : ι) (thrown : Thrown) (stack : List (Frame V)) : Option (State ι V) :=
  (unwind thrown stack).map fun (released,left) => setStack (release s released) t left

def push (code : List (Instr V)) : List (Frame V) → List (Frame V)
  | [] => []
  | frame :: below => { frame with code := code ++ frame.code } :: below

/-- A call through the pointer to a variable, where there is one. -/
def through (s : State ι V) (name : Text) (part : Section V) : List (Instr V) :=
  if (s.vars name).isSome then [.enter part] else []

def typeOf (s : State ι V) (name : Text) : TypeId := ((s.vars name).map Var.type).getD 0

/-- The call of an operation; `fromStr` is `FromStr` for each type. -/
def call (fromStr : TypeId → Text → Except Thrown V) (s : State ι V) (t : ι)
    (stack : List (Frame V)) : Op V → Option (State ι V)
  | .lookup name _ | .lookupBase name => some (setStack s t (push [.enter (.find name)] stack))
  | .lookupOr name type value logged => some (setStack s t (push [.enter (.findOr name type value logged)] stack))
  | .getValue name | .toString name => some (setStack s t (push (through s name (.read name)) stack))
  | .setValue name value => some (setStack s t (push (through s name (.announce name value)) stack))
  | .fromString name str =>
    match fromStr (typeOf s name) str with
    | .ok value =>
      some (setStack s t (⟨none,some .exceptions,through s name (.announce name value)⟩ :: stack))
    | .error .exception => some (setStack s t stack)
    | .error .other => raise s t .other stack
  | .addListener name cb => some (setStack s t (push (through s name (.insert name cb)) stack))
  | .delListener name key => some (setStack s t (push (through s name (.erase name key)) stack))
  | .attempt handler body => some (setStack s t (⟨none,some handler,body.map .call⟩ :: stack))

def listeners (var : Var V) (value : V) : List (Instr V) :=
  var.m_callbacks.flatMap fun listener => (listener.2 var.m_val value).map .call

/-- What is done in a section, on the block that holds its mutex and those below it. -/
def perform [BEq V] (s : State ι V) (t : ι) (frame : Frame V) (below : List (Frame V)) :
    Section V → Option (State ι V)
  | .find _ | .read _ => some (setStack s t (frame :: below))
  | .findOr name type value logged =>
    match s.vars name with
    | some var =>
      -- the message with `toString()` is not composed where it is not logged
      if var.type = type ∨ logged = false then some (setStack s t (frame :: below))
      else some (setStack s t (push [.enter (.read name)] (frame :: below)))
    | none =>
      if Config.validName name then some (setVar (setStack s t (frame :: below)) name ⟨type,value,[]⟩)
      else raise s t .exception (frame :: below)
  | .announce name value =>
    match s.vars name with
    | none => some (setStack s t (frame :: below))
    | some var =>
      if value == var.m_val then some (setStack s t (frame :: below))
      else some (setStack s t ({ frame with code := listeners var value ++ frame.code } ::
        push [.enter (.store name value)] below))
  | .store name value =>
    match s.vars name with
    | none => some (setStack s t (frame :: below))
    | some var => some (setVar (setStack s t (frame :: below)) name { var with m_val := value })
  | .insert name cb =>
    match s.vars name with
    | none => some (setStack s t (frame :: below))
    | some var =>
      let key := s.s_fun_id var.type + 1
      some { setVar (setStack s t (frame :: below)) name
          { var with m_callbacks := var.m_callbacks ++ [(key,cb)] } with
        s_fun_id := Function.update s.s_fun_id var.type key }
  | .erase name key =>
    match s.vars name with
    | none => some (setStack s t (frame :: below))
    | some var =>
      some (setVar (setStack s t (frame :: below)) name
        { var with m_callbacks := var.m_callbacks.filter fun listener => listener.1 != key })

/-- The next step of thread `t`; a thread that waits for a mutex has none. -/
def step [BEq V] (fromStr : TypeId → Text → Except Thrown V) (s : State ι V) (t : ι) :
    Option (State ι V) :=
  match s.threads t with
  | [] => none
  | ⟨lock,_,[]⟩ :: below => some (setStack (release s lock.toList) t below)
  | ⟨lock,handler,.call op :: code⟩ :: below => call fromStr s t (⟨lock,handler,code⟩ :: below) op
  | ⟨lock,handler,.enter part :: code⟩ :: below =>
    if s.owner part.mutex = none then
      some { setStack s t (⟨some part.mutex,none,[.perform part]⟩ :: ⟨lock,handler,code⟩ :: below) with
        owner := Function.update s.owner part.mutex (some t) }
    else none
  | ⟨lock,handler,.perform part :: code⟩ :: below => perform s t ⟨lock,handler,code⟩ below part

def waits (s : State ι V) (t : ι) : Option Mutex :=
  match s.threads t with
  | ⟨_,_,.enter part :: _⟩ :: _ => some part.mutex
  | _ => none

def Deadlocked (s : State ι V) : Prop := ∃ threads, LockOrder.Deadlock (waits s) s.owner threads

def start (vars : Text → Option (Var V)) (s_fun_id : TypeId → Nat) (programs : ι → List (Op V)) :
    State ι V where
  vars := vars
  s_fun_id := s_fun_id
  owner := fun _ => none
  threads := fun t => [⟨none,none,(programs t).map .call⟩]

end Myriel.ConfigLocks

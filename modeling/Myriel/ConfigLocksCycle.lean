import Myriel.ConfigLocksOrder

/-! A cycle in the order of the mutexes: threads that deadlock along it. -/
namespace Myriel.ConfigLocks

def asking : Mutex → Op Bool
  | .registry => .lookupBase []
  | .var name => .getValue name

variable (policy : Policy) (n : Nat) (cycle : Nat → Mutex)

def follower (name : Text) : Option Mutex :=
  ((List.range n).find? fun i => cycle i = .var name).map fun i => cycle (i + 1)

/-- The variable has a listener that asks for the next mutex. -/
def cycleVars (name : Text) : Option (Var Bool) :=
  (follower n cycle name).map fun m => ⟨policy.type name,false,[(1,fun _ _ => [asking m])]⟩

/-- Each thread takes one mutex of the cycle, and asks for the next one under it. -/
def cycleProgram (i : Fin n) : List (Op Bool) :=
  match cycle i,cycle (i + 1) with
  | .var name,_ => [.setValue name true]
  | .registry,.var name => [.lookupOr name (policy.type name + 1) false true]
  | .registry,.registry => []

variable {policy n cycle} {ι : Type} [DecidableEq ι] {fromStr : TypeId → Text → Except Thrown Bool}

def seized (s : State ι Bool) (t : ι) (m : Mutex) (stack : List (Frame Bool)) : State ι Bool :=
  { setStack s t stack with owner := Function.update s.owner m (some t) }

theorem seized_threads (s : State ι Bool) (t : ι) (m : Mutex) (stack : List (Frame Bool)) :
    (seized s t m stack).threads t = stack := by
  simp [seized,setStack]

theorem setStack_threads (s : State ι Bool) (t : ι) (stack : List (Frame Bool)) :
    (setStack s t stack).threads t = stack := by
  simp [setStack]

theorem setStack_seized (s : State ι Bool) (t : ι) (m : Mutex) (stack next : List (Frame Bool)) :
    setStack (seized s t m stack) t next = seized s t m next := by
  simp [seized,setStack]

theorem seized_setStack (s : State ι Bool) (t : ι) (m : Mutex) (stack next : List (Frame Bool)) :
    seized (setStack s t stack) t m next = seized s t m next := by
  simp [seized,setStack]

theorem step_call {s : State ι Bool} {t : ι} {op : Op Bool}
    (stack : s.threads t = ⟨lock,handler,.call op :: code⟩ :: below) :
    step fromStr s t = call fromStr s t (⟨lock,handler,code⟩ :: below) op := by
  simp [step,stack]

theorem step_enter {s : State ι Bool} {t : ι} {part : Section Bool}
    (stack : s.threads t = ⟨lock,handler,.enter part :: code⟩ :: below)
    (free : s.owner part.mutex = none) :
    step fromStr s t = some (seized s t part.mutex
      (⟨some part.mutex,none,[.perform part]⟩ :: ⟨lock,handler,code⟩ :: below)) := by
  simp [step,stack,free,seized]

theorem step_perform {s : State ι Bool} {t : ι} {part : Section Bool}
    (stack : s.threads t = ⟨lock,handler,.perform part :: code⟩ :: below) :
    step fromStr s t = perform s t ⟨lock,handler,code⟩ below part := by
  simp [step,stack]

def askingSection : Mutex → Section Bool
  | .registry => .find []
  | .var name => .read name

theorem call_asking {s : State ι Bool} {t : ι} {stack : List (Frame Bool)} {m : Mutex}
    (target : ∀ name, m = .var name → (s.vars name).isSome = true) :
    call fromStr s t stack (asking m) = some (setStack s t (push [.enter (askingSection m)] stack)) := by
  cases m with
  | registry => rfl
  | var name => simp [asking,call,through,target name rfl,askingSection]

omit [DecidableEq ι] in
theorem waits_asking {s : State ι Bool} {t : ι} {m : Mutex}
    (stack : s.threads t = ⟨lock,handler,.enter (askingSection m) :: code⟩ :: below) :
    waits s t = some m := by
  cases m <;> simp [waits,stack,askingSection,Section.mutex]

/-- What a thread does to come to wait for a mutex under another one. -/
structure Seizes (s u : State ι Bool) (t : ι) (m next : Mutex) : Prop where
  vars : u.vars = s.vars
  owner : u.owner = Function.update s.owner m (some t)
  waits : waits u t = some next
  others : ∀ v, v ≠ t → u.threads v = s.threads v

theorem seized_seizes (s : State ι Bool) (t : ι) (m next : Mutex) {lock handler code below} :
    Seizes s (seized s t m (⟨lock,handler,.enter (askingSection next) :: code⟩ :: below)) t m next where
  vars := rfl
  owner := rfl
  waits := waits_asking (seized_threads s t m _)
  others _ other := Function.update_of_ne other _ _

variable (fromStr)

theorem setValue_seizes {s : State ι Bool} {t : ι} {name : Text} {type : TypeId} {next : Mutex}
    (stack : s.threads t = [⟨none,none,[.call (.setValue name true)]⟩])
    (known : s.vars name = some ⟨type,false,[(1,fun _ _ => [asking next])]⟩)
    (free : s.owner (.var name) = none)
    (target : ∀ other, next = .var other → (s.vars other).isSome = true) :
    ∃ u, Transition.run (step fromStr) s [t,t,t,t] = some u ∧ Seizes s u t (.var name) next := by
  have called : step fromStr s t =
      some (setStack s t [⟨none,none,[.enter (.announce name true)]⟩]) := by
    rw [step_call stack]
    simp [call,through,known,push]
  have entered : step fromStr (setStack s t [⟨none,none,[.enter (.announce name true)]⟩]) t =
      some (seized s t (.var name)
        [⟨some (.var name),none,[.perform (.announce name true)]⟩,⟨none,none,[]⟩]) := by
    have unlocked : (setStack s t [⟨none,none,[.enter (.announce name true)]⟩]).owner
        (Section.announce name true).mutex = none := free
    rw [step_enter (setStack_threads s t _) unlocked,seized_setStack]
    rfl
  have told : step fromStr (seized s t (.var name)
        [⟨some (.var name),none,[.perform (.announce name true)]⟩,⟨none,none,[]⟩]) t =
      some (seized s t (.var name) [⟨some (.var name),none,[.call (asking next)]⟩,
        ⟨none,none,[.enter (.store name true)]⟩]) := by
    have same : (seized s t (.var name)
        [⟨some (.var name),none,[.perform (.announce name true)]⟩,⟨none,none,[]⟩]).vars name =
          some ⟨type,false,[(1,fun _ _ => [asking next])]⟩ := known
    rw [step_perform (seized_threads s t (.var name) _)]
    simp [perform,same,setStack_seized,listeners,push]
  have asked : step fromStr (seized s t (.var name) [⟨some (.var name),none,[.call (asking next)]⟩,
        ⟨none,none,[.enter (.store name true)]⟩]) t =
      some (seized s t (.var name) [⟨some (.var name),none,[.enter (askingSection next)]⟩,
        ⟨none,none,[.enter (.store name true)]⟩]) := by
    have present : ∀ other, next = .var other → ((seized s t (.var name)
        [⟨some (.var name),none,[.call (asking next)]⟩,⟨none,none,[.enter (.store name true)]⟩]).vars
          other).isSome = true := target
    rw [step_call (seized_threads s t (.var name) _),call_asking present,setStack_seized]
    rfl
  have ran : Transition.run (step fromStr) s [t,t,t,t] =
      some (seized s t (.var name) [⟨some (.var name),none,[.enter (askingSection next)]⟩,
        ⟨none,none,[.enter (.store name true)]⟩]) := by
    simp only [Transition.run,called,entered,told,asked,Option.bind_some]
  exact ⟨_,ran,seized_seizes s t (.var name) next⟩

theorem lookupOr_seizes {s : State ι Bool} {t : ι} {name : Text} {type other : TypeId} {var : Var Bool}
    (stack : s.threads t = [⟨none,none,[.call (.lookupOr name other false true)]⟩])
    (known : s.vars name = some var) (typed : var.type = type) (different : type ≠ other)
    (free : s.owner .registry = none) :
    ∃ u, Transition.run (step fromStr) s [t,t,t] = some u ∧ Seizes s u t .registry (.var name) := by
  have called : step fromStr s t =
      some (setStack s t [⟨none,none,[.enter (.findOr name other false true)]⟩]) := by
    rw [step_call stack]
    rfl
  have entered : step fromStr (setStack s t [⟨none,none,[.enter (.findOr name other false true)]⟩]) t =
      some (seized s t .registry
        [⟨some .registry,none,[.perform (.findOr name other false true)]⟩,⟨none,none,[]⟩]) := by
    have unlocked : (setStack s t [⟨none,none,[.enter (.findOr name other false true)]⟩]).owner
        (Section.findOr name other false true).mutex = none := free
    rw [step_enter (setStack_threads s t _) unlocked,seized_setStack]
    rfl
  have found : step fromStr (seized s t .registry
        [⟨some .registry,none,[.perform (.findOr name other false true)]⟩,⟨none,none,[]⟩]) t =
      some (seized s t .registry
        [⟨some .registry,none,[.enter (askingSection (.var name))]⟩,⟨none,none,[]⟩]) := by
    have same : (seized s t .registry
        [⟨some .registry,none,[.perform (.findOr name other false true)]⟩,⟨none,none,[]⟩]).vars name =
          some var := known
    have mismatch : ¬ var.type = other := by
      rw [typed]
      exact different
    rw [step_perform (seized_threads s t .registry _)]
    simp [perform,same,mismatch,setStack_seized,push,askingSection]
  have ran : Transition.run (step fromStr) s [t,t,t] =
      some (seized s t .registry
        [⟨some .registry,none,[.enter (askingSection (.var name))]⟩,⟨none,none,[]⟩]) := by
    simp only [Transition.run,called,entered,found,Option.bind_some]
  exact ⟨_,ran,seized_seizes s t .registry (.var name)⟩

structure Cycle (policy : Policy) (n : Nat) (cycle : Nat → Mutex) : Prop where
  positive : 0 < n
  edges : LockOrder.Path (Before policy) n cycle
  closed : cycle n = cycle 0
  simple : ∀ i j, i < n → j < n → cycle i = cycle j → i = j

theorem follower_eq {i : Nat} {name : Text} (ring : Cycle policy n cycle) (bound : i < n)
    (here : cycle i = .var name) : follower n cycle name = some (cycle (i + 1)) := by
  have found : (List.range n).find? (fun j => cycle j = .var name) = some i := by
    apply List.find?_range_eq_some.mpr
    refine ⟨by simpa using here,List.mem_range.mpr bound,?_⟩
    intro j less
    have different : cycle j ≠ .var name := by
      intro same
      have equal := ring.simple j i (Nat.lt_trans less bound) bound (same.trans here.symm)
      exact Nat.ne_of_lt less equal
    simpa using different
  rw [follower,found]
  rfl

theorem follower_edge {name : Text} {m : Mutex} (ring : Cycle policy n cycle)
    (found : follower n cycle name = some m) : policy.uses name m := by
  obtain ⟨i,first,rfl⟩ := Option.map_eq_some_iff.mp found
  have bound : i < n := List.mem_range.mp (List.mem_of_find?_eq_some first)
  have here : cycle i = .var name := by simpa using List.find?_some first
  have edge := ring.edges i bound
  rw [here] at edge
  exact edge

theorem cycleVars_known {i : Nat} {name : Text} (ring : Cycle policy n cycle) (bound : i ≤ n)
    (here : cycle i = .var name) : (cycleVars policy n cycle name).isSome = true := by
  have inside : ∃ j, j < n ∧ cycle j = .var name := by
    rcases Nat.lt_or_eq_of_le bound with less | equal
    · exact ⟨i,less,here⟩
    · refine ⟨0,ring.positive,?_⟩
      rw [← ring.closed,← equal]
      exact here
  obtain ⟨j,less,at_j⟩ := inside
  simp [cycleVars,follower_eq ring less at_j]

theorem asking_locks {m other : Mutex} (asks : Locks (asking m) other) : other = m := by
  cases m with
  | registry =>
    cases asks with
    | own same => exact (Option.some.inj same).symm
  | var name =>
    cases asks with
    | own same => exact (Option.some.inj same).symm

theorem asking_keeps (policy : Policy) (m : Mutex) : Keeps policy (asking m) := by
  cases m with
  | registry => exact .lookupBase
  | var name => exact .getValue

theorem cycle_promised (ring : Cycle policy n cycle) :
    Promised policy (cycleVars policy n cycle) (cycleProgram policy n cycle) := by
  constructor
  · intro name var known
    obtain ⟨m,found,rfl⟩ := Option.map_eq_some_iff.mp known
    refine ⟨.inl rfl,?_⟩
    intro key cb member
    cases List.mem_singleton.mp member
    constructor
    · intro old new op inside
      rw [List.mem_singleton.mp inside]
      exact asking_keeps policy m
    · intro old new op other inside asks
      rw [List.mem_singleton.mp inside] at asks
      rw [asking_locks asks]
      exact follower_edge ring found
  · intro i op member
    have edge := ring.edges i i.isLt
    unfold cycleProgram at member
    split at member
    case h_1 =>
      cases List.mem_singleton.mp member
      exact .setValue
    case h_2 name here next =>
      cases List.mem_singleton.mp member
      rw [here,next] at edge
      exact .lookupOr (.inr edge)
    case h_3 => cases member

/-- The first `k` threads hold their mutexes and wait; the others have not begun. -/
structure Seized (policy : Policy) (cycle : Nat → Mutex) (k : Nat) (s : State (Fin n) Bool) : Prop where
  vars : s.vars = cycleVars policy n cycle
  free : ∀ i, k ≤ i → i < n → s.owner (cycle i) = none
  owner : ∀ i : Fin n, i < k → s.owner (cycle i) = some i
  waits : ∀ i : Fin n, i < k → waits s i = some (cycle (i + 1))
  others : ∀ i : Fin n, k ≤ i → s.threads i = [⟨none,none,(cycleProgram policy n cycle i).map .call⟩]

theorem thread_seizes {k : Nat} {s : State (Fin n) Bool} (ring : Cycle policy n cycle)
    (seized : Seized policy cycle k s) (bound : k < n) :
    ∃ actions u, Transition.run (step fromStr) s actions = some u ∧
      Seizes s u (⟨k,bound⟩ : Fin n) (cycle k) (cycle (k + 1)) := by
  have stack := seized.others ⟨k,bound⟩ (Nat.le_refl k)
  have unlocked := seized.free k (Nat.le_refl k) bound
  have edge := ring.edges k bound
  have target : ∀ other, cycle (k + 1) = .var other → (s.vars other).isSome = true := by
    intro other next
    rw [seized.vars]
    exact cycleVars_known ring bound next
  cases here : cycle k with
  | var name =>
    have program : cycleProgram policy n cycle ⟨k,bound⟩ = [.setValue name true] := by
      simp [cycleProgram,here]
    rw [program] at stack
    rw [here] at unlocked
    have known : s.vars name = some
        ⟨policy.type name,false,[(1,fun _ _ => [asking (cycle (k + 1))])]⟩ := by
      rw [seized.vars,cycleVars,follower_eq ring bound here]
      rfl
    obtain ⟨u,ran,seizes⟩ := setValue_seizes fromStr stack known unlocked target
    exact ⟨_,u,ran,seizes⟩
  | registry =>
    rw [here] at unlocked edge
    cases next : cycle (k + 1) with
    | registry =>
      rw [next] at edge
      exact edge.elim
    | var name =>
      have program : cycleProgram policy n cycle ⟨k,bound⟩ =
          [.lookupOr name (policy.type name + 1) false true] := by
        simp [cycleProgram,here,next]
      rw [program] at stack
      obtain ⟨var,known⟩ := Option.isSome_iff_exists.mp (target name next)
      have typed : var.type = policy.type name := by
        rw [seized.vars] at known
        obtain ⟨m,_,rfl⟩ := Option.map_eq_some_iff.mp known
        rfl
      obtain ⟨u,ran,seizes⟩ := lookupOr_seizes fromStr stack known typed
        (Nat.ne_of_lt (Nat.lt_succ_self _)) unlocked
      exact ⟨_,u,ran,seizes⟩

theorem seizes_next {k : Nat} {s u : State (Fin n) Bool} (ring : Cycle policy n cycle)
    (seized : Seized policy cycle k s) (bound : k < n)
    (seizes : Seizes s u (⟨k,bound⟩ : Fin n) (cycle k) (cycle (k + 1))) :
    Seized policy cycle (k + 1) u := by
  have other_mutex : ∀ i, i < n → i ≠ k → cycle i ≠ cycle k :=
    fun i less different same => different (ring.simple i k less bound same)
  constructor
  · exact seizes.vars.trans seized.vars
  · intro i above less
    rw [seizes.owner,Function.update_of_ne (other_mutex i less (by omega))]
    exact seized.free i (by omega) less
  · intro i below
    rw [seizes.owner]
    by_cases same : i = ⟨k,bound⟩
    · subst same
      exact Function.update_self _ _ _
    · have different : i.val ≠ k := fun equal => same (Fin.ext equal)
      rw [Function.update_of_ne (other_mutex i i.isLt different)]
      exact seized.owner i (by omega)
  · intro i below
    by_cases same : i = ⟨k,bound⟩
    · subst same
      exact seizes.waits
    · have different : i.val ≠ k := fun equal => same (Fin.ext equal)
      have stays : waits u i = waits s i := by
        simp only [waits,seizes.others i same]
      rw [stays]
      exact seized.waits i (by omega)
  · intro i above
    have different : i ≠ ⟨k,bound⟩ := by
      intro equal
      subst equal
      exact Nat.not_succ_le_self k above
    rw [seizes.others i different]
    exact seized.others i (by omega)

theorem all_seized (ring : Cycle policy n cycle) (s_fun_id : TypeId → Nat) (k : Nat) (bound : k ≤ n) :
    ∃ s, Transition.Reachable (step fromStr)
        (start (cycleVars policy n cycle) s_fun_id (cycleProgram policy n cycle)) s ∧
      Seized policy cycle k s := by
  induction k with
  | zero =>
    refine ⟨_,Transition.Reachable.start _ _,?_⟩
    constructor
    · rfl
    · intro i _ _
      rfl
    · intro i below
      exact absurd below (Nat.not_lt_zero _)
    · intro i below
      exact absurd below (Nat.not_lt_zero _)
    · intro i _
      rfl
  | succ k ih =>
    obtain ⟨s,⟨before,reached⟩,seized⟩ := ih (Nat.le_of_succ_le bound)
    obtain ⟨actions,u,ran,seizes⟩ := thread_seizes fromStr ring seized bound
    refine ⟨u,⟨before ++ actions,?_⟩,seizes_next ring seized bound seizes⟩
    exact (Transition.run_append_some _).mpr ⟨s,reached,ran⟩

/-- When all threads wait for each other around the cycle they are deadlocked. -/
theorem seized_deadlocked {s : State (Fin n) Bool} (ring : Cycle policy n cycle)
    (seized : Seized policy cycle n s) : Deadlocked s := by
  refine ⟨Finset.univ,⟨⟨⟨0,ring.positive⟩,Finset.mem_univ _⟩,?_⟩⟩
  intro i _
  have waiting := seized.waits i i.isLt
  by_cases last : i.val + 1 < n
  · exact ⟨_,_,waiting,seized.owner ⟨i.val + 1,last⟩ last,Finset.mem_univ _⟩
  · have closes : cycle (i + 1) = cycle 0 := by
      have equal : i.val + 1 = n := by omega
      rw [equal]
      exact ring.closed
    refine ⟨_,⟨0,ring.positive⟩,waiting,?_,Finset.mem_univ _⟩
    rw [closes]
    exact seized.owner ⟨0,ring.positive⟩ ring.positive

/-- No program that keeps to the policy deadlocks, whatever its threads and listeners are,
if and only if the order of the mutexes under the policy has no cycle. -/
theorem deadlock_free_iff (policy : Policy) :
    (∀ (ι V : Type) [DecidableEq ι] [BEq V] (fromStr : TypeId → Text → Except Thrown V)
        (vars : Text → Option (Var V)) (s_fun_id : TypeId → Nat) (programs : ι → List (Op V)),
      Promised policy vars programs → ∀ s,
        Transition.Reachable (step fromStr) (start vars s_fun_id programs) s → ¬ Deadlocked s) ↔
    ∀ m, ¬ Behind policy m m := by
  constructor
  · intro free m around
    obtain ⟨n,cycle,positive,edges,closed,simple⟩ := LockOrder.exists_simple_cycle around
    have ring : Cycle policy n cycle := ⟨positive,edges,closed,simple⟩
    obtain ⟨s,reach,seized⟩ := all_seized (fun _ _ => .error .exception) ring (fun _ => 1) n
      (Nat.le_refl n)
    exact free (Fin n) Bool _ _ _ _ (cycle_promised ring) s reach (seized_deadlocked ring seized)
  · intro acyclic ι V _ _ fromStr vars s_fun_id programs promised s reach
    exact not_deadlocked acyclic promised reach

/-! ### A listener that reads another variable -/

def readingPolicy : Policy where
  type _ := 0
  uses name m := name = ['a'] ∧ m = .var ['b']
  clash _ := False

theorem readingPolicy_edge (edge : Before readingPolicy m next) : m = .var ['a'] ∧ next = .var ['b'] := by
  cases m with
  | var name => exact ⟨congrArg Mutex.var edge.1,edge.2⟩
  | registry => cases next <;> cases edge

theorem readingPolicy_acyclic (m : Mutex) : ¬ Behind readingPolicy m m := by
  intro around
  obtain ⟨_,first,_⟩ := Relation.TransGen.head'_iff.mp around
  obtain ⟨_,_,last⟩ := Relation.TransGen.tail'_iff.mp around
  have same := (readingPolicy_edge first).1.symm.trans (readingPolicy_edge last).2
  cases same

def readingVars (name : Text) : Option (Var Bool) :=
  if name = ['a'] then some ⟨0,false,[(1,fun _ _ => [.getValue ['b']])]⟩
  else if name = ['b'] then some ⟨0,false,[]⟩ else none

/-- One thread sets the variable with the listener, the other one sets what the listener reads. -/
def readingPrograms (t : Bool) : List (Op Bool) :=
  if t then [.setValue ['a'] true] else [.lookupOr ['b'] 0 false true,.setValue ['b'] true]

theorem reading_promised : Promised readingPolicy readingVars readingPrograms where
  vars name var found := by
    unfold readingVars at found
    split at found
    next same =>
      cases found
      refine ⟨.inl rfl,fun key cb member => ?_⟩
      cases List.mem_singleton.mp member
      refine ⟨fun _ _ op inside => ?_,fun _ _ op m inside asks => ?_⟩ <;> cases List.mem_singleton.mp inside
      · exact .getValue
      · cases asks with
        | own asks => exact ⟨same,(Option.some.inj asks).symm⟩
    · split at found <;> cases found
      exact ⟨.inl rfl,fun _ _ member => by cases member⟩
  programs t op member := by
    cases t with
    | true =>
      cases List.mem_singleton.mp member
      exact .setValue
    | false =>
      rcases List.mem_cons.mp member with rfl | member
      · exact .lookupOr (.inl rfl)
      · cases List.mem_singleton.mp member
        exact .setValue

theorem reading_not_deadlocked (fromStr : TypeId → Text → Except Thrown Bool)
    (reach : Transition.Reachable (step fromStr) (start readingVars (fun _ => 1) readingPrograms) s) :
    ¬ Deadlocked s :=
  not_deadlocked readingPolicy_acyclic reading_promised reach

/-- A listener that reads its own variable: the thread waits for a mutex that it holds. -/
theorem listener_deadlocks :
    ¬ ∀ (ι V : Type) [DecidableEq ι] [BEq V] (fromStr : TypeId → Text → Except Thrown V)
      (vars : Text → Option (Var V)) (s_fun_id : TypeId → Nat) (programs : ι → List (Op V)) (s : State ι V),
      Transition.Reachable (step fromStr) (start vars s_fun_id programs) s → ¬ Deadlocked s := by
  intro free
  let name : Text := ['a']
  let vars : Text → Option (Var Bool) := fun _ => some ⟨0,false,[(1,fun _ _ => [asking (.var name)])]⟩
  let fromStr : TypeId → Text → Except Thrown Bool := fun _ _ => .error .exception
  let begun : State Unit Bool := start vars (fun _ => 1) fun _ => [.setValue name true]
  have stack : begun.threads () = [⟨none,none,[.call (.setValue name true)]⟩] := rfl
  have known : begun.vars name = some ⟨0,false,[(1,fun _ _ => [asking (.var name)])]⟩ := rfl
  obtain ⟨s,ran,seizes⟩ := setValue_seizes fromStr stack known rfl fun _ _ => rfl
  have owns : s.owner (.var name) = some () := by
    rw [seizes.owner]
    exact Function.update_self _ _ _
  have waiting : LockOrder.Deadlock (waits s) s.owner {()} :=
    ⟨⟨(),Finset.mem_singleton_self ()⟩,fun t _ => ⟨_,(),seizes.waits,owns,Finset.mem_singleton_self ()⟩⟩
  exact free Unit Bool fromStr vars (fun _ => 1) (fun _ => [.setValue name true]) s ⟨_,ran⟩ ⟨{()},waiting⟩

end Myriel.ConfigLocks

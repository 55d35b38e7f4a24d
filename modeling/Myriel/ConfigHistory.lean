import Myriel.ConfigVar
import Myriel.Transition
import Mathlib.Data.Fintype.Basic
import Mathlib.Data.List.Nodup

/-! Calls of `setValue` on one variable by any number of threads. Each of its two sections
under `m_mutex` is a step. -/
namespace Myriel.ConfigHistory

variable {ι T : Type}

/-- Each old value is the new one before it, the first one is the initial value. -/
def Chain : T → List (T × T) → Prop
  | _,[] => True
  | value,pair :: pairs => pair.1 = value ∧ Chain pair.2 pairs

/-- The last new value, the initial one if there is none. -/
def latest : T → List (T × T) → T
  | value,[] => value
  | _,pair :: pairs => latest pair.2 pairs

theorem chain_concat (initial : T) (pairs : List (T × T)) (pair : T × T) :
    Chain initial (pairs ++ [pair]) ↔ Chain initial pairs ∧ pair.1 = latest initial pairs := by
  induction pairs generalizing initial with
  | nil => simp [Chain,latest]
  | cons first pairs ih => rw [List.cons_append,Chain,ih,Chain,latest,and_assoc]

@[simp] theorem latest_concat (initial : T) (pairs : List (T × T)) (pair : T × T) :
    latest initial (pairs ++ [pair]) = pair.2 := by
  induction pairs generalizing initial with
  | nil => rfl
  | cons first pairs ih => exact ih first.2

/-- `pending` has the value of each call that is between its sections, `told` the calls of
listeners so far. -/
structure State (ι T : Type) where
  var : ConfigVar T
  pending : ι → Option T
  told : List (Int × T × T)

inductive Action (ι T : Type) where
  | announce (w : ι) (value : T)
  | store (w : ι)
  deriving DecidableEq

def start (var : ConfigVar T) : State ι T := ⟨var,fun _ => none,[]⟩

def received (key : Int) (s : State ι T) : List (T × T) :=
  (s.told.filter fun told => told.1 == key).map Prod.snd

def Consistent (initial : T) (key : Int) (s : State ι T) : Prop :=
  Chain initial (received key s) ∧
    ((∀ w, s.pending w = none) → s.var.m_val = latest initial (received key s))

theorem received_told (s : State ι T) (key : Int) (keys : List Int) (old new : T) :
    received key { s with told := s.told ++ keys.map fun other => (other,old,new) } =
      received key s ++ (keys.filter fun other => other == key).map fun _ => (old,new) := by
  simp only [received,List.filter_append,List.map_append,List.filter_map,List.map_map]
  rfl

variable [DecidableEq ι] [BEq T]

def setPending (s : State ι T) (w : ι) (value : Option T) : State ι T :=
  { s with pending := Function.update s.pending w value }

def step (s : State ι T) : Action ι T → Option (State ι T)
  | .announce w value =>
    if (s.pending w).isSome then none
    else
      match s.var.announce s.told.length value with
      | none => some s
      | some (keys,thrown) =>
        let s := { s with told := s.told ++ keys.map fun key => (key,s.var.m_val,value) }
        match thrown with
        | none => some (setPending s w (some value))
        | some _ => some s
  | .store w => (s.pending w).map fun value => setPending { s with var := s.var.store value } w none

/-- A call announces a change only when no other call is between its sections. -/
def Exclusive (s : State ι T) : Action ι T → Prop
  | .announce _ value => (value == s.var.m_val) = true ∨ ∀ w, s.pending w = none
  | .store _ => True

instance [Fintype ι] (s : State ι T) (action : Action ι T) : Decidable (Exclusive s action) :=
  match action with
  | .announce _ value => inferInstanceAs (Decidable ((value == s.var.m_val) = true ∨ ∀ w, s.pending w = none))
  | .store _ => inferInstanceAs (Decidable True)

/-- The listeners of a variable: `key` is one of them, and all return. -/
structure Listening (key : Int) (var : ConfigVar T) : Prop where
  registered : key ∈ var.m_callbacks.map Prod.fst
  returning : ∀ entry ∈ var.m_callbacks, ∀ moment old new, entry.2 moment old new = none

theorem keys_filter (listening : Listening key var) :
    (var.m_callbacks.map Prod.fst).filter (fun other => other == key) = [key] := by
  have distinct : (var.m_callbacks.map Prod.fst).Nodup :=
    List.pairwise_map.mpr (var.ordered.imp fun less => Int.ne_of_lt less)
  rw [List.filter_beq,List.count_eq_one_of_mem distinct listening.registered]
  rfl

theorem step_cases {s t : State ι T} (listening : Listening key s.var) (taken : step s action = some t) :
    (∃ w value, action = .announce w value ∧ (value == s.var.m_val) = true ∧ t = s) ∨
    (∃ w value, action = .announce w value ∧ (value == s.var.m_val) = false ∧ s.pending w = none ∧
      t.var = s.var ∧ t.pending = Function.update s.pending w (some value) ∧
      received key t = received key s ++ [(s.var.m_val,value)]) ∨
    ∃ w value, action = .store w ∧ s.pending w = some value ∧ t.var = s.var.store value ∧
      t.pending = Function.update s.pending w none ∧ received key t = received key s := by
  cases action with
  | announce w value =>
    by_cases busy : (s.pending w).isSome = true
    · simp [step,busy] at taken
    · cases same : value == s.var.m_val with
      | true =>
        simp [step,busy,ConfigVar.announce,same] at taken
        exact .inl ⟨w,value,rfl,same,taken.symm⟩
      | false =>
        simp only [step,busy,ConfigVar.announce,same,↓reduceIte,Bool.false_eq_true,
          ConfigVar.notify_returning listening.returning,Option.some.injEq] at taken
        subst taken
        refine .inr (.inl ⟨w,value,rfl,same,by simpa using busy,rfl,rfl,?_⟩)
        have more := received_told s key (s.var.m_callbacks.map Prod.fst) s.var.m_val value
        rw [keys_filter listening] at more
        exact more
  | store w =>
    obtain ⟨value,pending,rfl⟩ := Option.map_eq_some_iff.mp taken
    exact .inr (.inr ⟨w,value,rfl,pending,rfl,rfl,rfl⟩)

/-- A call of `setValue` has told its change and not stored it, or there is none. -/
structure Coherent (initial : T) (key : Int) (s : State ι T) : Prop where
  listening : Listening key s.var
  chain : Chain initial (received key s)
  value : ((∀ w, s.pending w = none) ∧ s.var.m_val = latest initial (received key s)) ∨
    ∃ w value, s.pending = Function.update (fun _ => none) w (some value) ∧
      value = latest initial (received key s) ∧ (value == s.var.m_val) = false

theorem Coherent.consistent {s : State ι T} (coherent : Coherent initial key s) :
    Consistent initial key s := by
  refine ⟨coherent.chain,fun quiet => ?_⟩
  rcases coherent.value with ⟨_,value⟩ | ⟨w,value,pending,_⟩
  · exact value
  · have none := quiet w
    rw [pending] at none
    simp at none

theorem coherent_step {s t : State ι T} (coherent : Coherent initial key s)
    (exclusive : Exclusive s action) (taken : step s action = some t) : Coherent initial key t := by
  rcases step_cases coherent.listening taken with
    ⟨w,_,_,_,rfl⟩ | ⟨w,value,rfl,changes,_,var,pending,told⟩ | ⟨w,value,rfl,mine,var,pending,told⟩
  · exact coherent
  · have quiet := exclusive.resolve_left (Bool.eq_false_iff.mp changes)
    have current : s.var.m_val = latest initial (received key s) := by
      rcases coherent.value with ⟨_,current⟩ | ⟨v,other,busy,_⟩
      · exact current
      · have none := quiet v
        rw [busy] at none
        simp at none
    have clear : s.pending = fun _ => none := funext quiet
    exact ⟨var ▸ coherent.listening,by rw [told,chain_concat]; exact ⟨coherent.chain,current⟩,
      .inr ⟨w,value,by rw [pending,clear],by rw [told,latest_concat],by rwa [var]⟩⟩
  · rcases coherent.value with ⟨quiet,_⟩ | ⟨v,other,busy,last,_⟩
    · rw [quiet w] at mine
      cases mine
    · have same : v = w := by
        by_contra different
        rw [busy,Function.update_of_ne (Ne.symm different)] at mine
        cases mine
      subst same
      have stored : other = value := by simpa [busy] using mine
      subst stored
      refine ⟨?_,by rw [told]; exact coherent.chain,.inl ⟨fun u => by rw [pending,busy]; simp,?_⟩⟩
      · rw [var]
        exact ⟨coherent.listening.registered,coherent.listening.returning⟩
      · rw [var,told]
        exact last

/-- A change announced while another call is between its sections breaks the chain, where
`operator==` takes no value for another one than itself. -/
theorem overlap_breaks {s t : State ι T} (refl : ∀ value : T, (value == value) = true) (coherent : Coherent initial key s)
    (overlap : ¬ Exclusive s action) (taken : step s action = some t) : ¬ Consistent initial key t := by
  rcases step_cases coherent.listening taken with
    ⟨w,value,rfl,same,_⟩ | ⟨w,value,rfl,changes,_,_,_,told⟩ | ⟨w,value,rfl,_⟩
  · exact absurd (.inl same) overlap
  · rintro ⟨chain,_⟩
    rw [told,chain_concat] at chain
    rcases coherent.value with ⟨quiet,_⟩ | ⟨v,other,_,last,differs⟩
    · exact overlap (.inr quiet)
    · have known : other = s.var.m_val := last.trans chain.2.symm
      rw [known,refl] at differs
      cases differs
  · exact absurd trivial overlap

def ConsistentAlong (initial : T) (key : Int) (s : State ι T) (actions : List (Action ι T)) : Prop :=
  ∀ front t, front <+: actions → Transition.run step s front = some t → Consistent initial key t

theorem along_consistent {s : State ι T} (coherent : Coherent initial key s)
    (along : Transition.Along step Exclusive s actions) : ConsistentAlong initial key s actions := by
  rintro front t ⟨rest,rfl⟩ ran
  refine Coherent.consistent (Transition.along_invariant step Exclusive (Coherent initial key) ?_ coherent
    (Transition.along_append step Exclusive along) ran)
  exact fun s a t coherent exclusive taken => coherent_step coherent exclusive taken

theorem consistent_along {s : State ι T} (refl : ∀ value : T, (value == value) = true)
    (coherent : Coherent initial key s) (ran : Transition.run step s actions = some last)
    (always : ConsistentAlong initial key s actions) : Transition.Along step Exclusive s actions := by
  induction actions generalizing s with
  | nil => trivial
  | cons action actions ih =>
    obtain ⟨t,taken,rest⟩ := (Transition.run_cons_some step).mp ran
    have exclusive : Exclusive s action := by
      by_contra overlap
      refine overlap_breaks refl coherent overlap taken (always [action] t ?_ ?_)
      · exact List.cons_prefix_cons.mpr ⟨rfl,List.nil_prefix⟩
      · exact (Transition.run_cons_some step).mpr ⟨t,taken,rfl⟩
    refine ⟨exclusive,fun u begun => ?_⟩
    cases taken.symm.trans begun
    refine ih (coherent_step coherent exclusive taken) rest fun front v part ended => ?_
    exact always (action :: front) v (List.cons_prefix_cons.mpr ⟨rfl,part⟩)
      ((Transition.run_cons_some step).mpr ⟨t,taken,ended⟩)

/-- The pairs a listener receives form a chain that ends in the value, in all states of a
run, if no call announces a change between the two sections of another; and only then, unless
a value is none of its own equals. -/
theorem history_iff (var : ConfigVar T) (listening : Listening key var)
    (ran : Transition.run step (start var) actions = some last) :
    (Transition.Along step Exclusive (start var) actions →
      ConsistentAlong (ι := ι) var.m_val key (start var) actions) ∧
    ((∀ value : T, (value == value) = true) → ConsistentAlong (ι := ι) var.m_val key (start var) actions →
      Transition.Along step Exclusive (start var) actions) := by
  have coherent : Coherent (ι := ι) var.m_val key (start var) := ⟨listening,trivial,.inl ⟨fun _ => rfl,rfl⟩⟩
  exact ⟨along_consistent coherent,fun refl => consistent_along refl coherent ran⟩

def watched : ConfigVar Nat := ⟨0,[(1,fun _ _ _ => none)],by simp⟩

theorem watched_listening : Listening 1 watched := ⟨by decide,by simp [watched]⟩

theorem history_sequential :
    ConsistentAlong 0 1 (start (ι := Fin 2) watched) [.announce 0 1,.store 0,.announce 1 2,.store 1] :=
  (history_iff watched watched_listening rfl).1 (by decide)

/-- The second call announces before the first one stores: the listener is told of a
change from 0 twice, and the first call may store last. -/
theorem history_overlapping : ∃ s t : State (Fin 2) Nat,
    Transition.run step (start watched) [.announce 0 1,.announce 1 2] = some s ∧
    received 1 s = [(0,1),(0,2)] ∧ ¬ Chain 0 (received 1 s) ∧
    Transition.run step s [.store 1,.store 0] = some t ∧ (∀ w, t.pending w = none) ∧
    t.var.m_val = 1 ∧ latest 0 (received 1 t) = 2 := by
  refine ⟨_,_,rfl,rfl,?_,rfl,by decide,rfl,rfl⟩
  rintro ⟨_,wrong,_⟩
  cases wrong

end Myriel.ConfigHistory

import Myriel.ConfigVar
import Myriel.SortedMap
import Mathlib.Data.List.Induction
import Mathlib.Logic.Function.Basic

/-! The listeners of several variables of one type. They share one counter of ids, and each
variable keeps its listeners in a map in the order of the ids as signed numbers. -/
namespace Myriel.ConfigListeners

variable {ι T L : Type}

/-- A variable with what its listeners are known by. -/
structure Var (T L : Type) where
  m_val : T
  m_callbacks : SortedMap Int L

structure Call (T L : Type) where
  key : Int
  listener : L
  old : T
  new : T

namespace Var

def announce [BEq T] (var : Var T L) (value : T) : List (Call T L) :=
  if value == var.m_val then []
  else var.m_callbacks.entries.map fun i => ⟨i.1,i.2,var.m_val,value⟩

/-- What `setValue` leaves where the listeners return. -/
def setValue [BEq T] (var : Var T L) (value : T) : Var T L :=
  if value == var.m_val then var else { var with m_val := value }

@[simp] theorem setValue_m_val [BEq T] (var : Var T L) (value : T) :
    (var.setValue value).m_val = if value == var.m_val then var.m_val else value := by
  cases same : value == var.m_val <;> simp [setValue,same]

@[simp] theorem setValue_m_callbacks [BEq T] (var : Var T L) (value : T) :
    (var.setValue value).m_callbacks = var.m_callbacks := by
  cases same : value == var.m_val <;> simp [setValue,same]

def toConfigVar (behave : L → Callback T) (var : Var T L) : ConfigVar T where
  m_val := var.m_val
  m_callbacks := (var.m_callbacks.mapValues behave).entries
  ordered := (var.m_callbacks.mapValues behave).sorted

/-- On listeners that return, `setValue` is that of `ConfigVar`. -/
theorem setValue_toConfigVar [BEq T] {behave : L → Callback T}
    (returning : ∀ listener moment old new, behave listener moment old new = none) (var : Var T L)
    (moment : Nat) (value : T) : ConfigVar.setValue (var.toConfigVar behave) moment value =
      ⟨(var.setValue value).toConfigVar behave,(var.announce value).map Call.key,none⟩ := by
  cases same : value == var.m_val with
  | true => simp [ConfigVar.setValue,ConfigVar.announce,toConfigVar,announce,setValue,same]
  | false =>
    have all : ∀ entry ∈ (var.toConfigVar behave).m_callbacks, ∀ moment old new,
        entry.2 moment old new = none := by
      intro entry member
      obtain ⟨i,_,rfl⟩ := List.mem_map.mp member
      exact returning i.2
    have different : (value == (var.toConfigVar behave).m_val) = false := same
    simp only [ConfigVar.setValue,ConfigVar.announce,different,Bool.false_eq_true,if_false,
      ConfigVar.notify_returning all]
    simp [ConfigVar.store,toConfigVar,announce,setValue,same,SortedMap.mapValues]

end Var

inductive Operation (ι T L : Type) where
  | addListener (x : ι) (cb : L)
  /-- with the bits of the `int64_t` -/
  | delListener (x : ι) (key : BitVec 64)
  | clearListener (x : ι)
  | setValue (x : ι) (value : T)

structure State (ι T L : Type) where
  s_fun_id : BitVec 64
  vars : ι → Var T L

def start (values : ι → T) : State ι T L := ⟨0,fun x => ⟨values x,.empty⟩⟩

/-! ### What is expected -/

/-- The registrations are numbered from 1 on. -/
structure Registration (L : Type) where
  number : Nat
  listener : L

namespace Registration

def id (r : Registration L) : BitVec 64 := BitVec.ofNat 64 r.number

/-- The entry of the map. -/
def entry (r : Registration L) : Int × L := (r.id.toInt,r.listener)

end Registration

/-- What the operations mean: the number of registrations so far, and for each variable its
value and the listeners that are live, in the order of their registration. -/
structure Ledger (ι T L : Type) where
  adds : Nat
  value : ι → T
  live : ι → List (Registration L)

def Ledger.start (values : ι → T) : Ledger ι T L := ⟨0,values,fun _ => []⟩

/-- The ids of some of the listeners are negative as keys and those of others are not. -/
def Straddles (live : List (Registration L)) : Prop :=
  ∃ r ∈ live, ∃ r' ∈ live, r.number < 2 ^ 63 ∧ 2 ^ 63 ≤ r'.number

/-! ### Ids as keys -/

theorem key_low (low : n < 2 ^ 63) : (BitVec.ofNat 64 n).toInt = n := by
  rw [BitVec.toInt_eq_toNat_bmod,BitVec.toNat_ofNat,Int.bmod_def]
  split <;> omega

theorem key_high (high : 2 ^ 63 ≤ n) (bound : n ≤ 2 ^ 64) : (BitVec.ofNat 64 n).toInt = n - 2 ^ 64 := by
  rw [BitVec.toInt_eq_toNat_bmod,BitVec.toNat_ofNat,Int.bmod_def]
  split <;> omega

theorem id_injective {m n : Nat} (same : BitVec.ofNat 64 m = BitVec.ofNat 64 n) (first : 0 < m)
    (second : 0 < n) (bound : m ≤ 2 ^ 64) (limit : n ≤ 2 ^ 64) : m = n := by
  have numbers := congrArg BitVec.toNat same
  simp only [BitVec.toNat_ofNat] at numbers
  omega

/-- The keys are in the order of the registrations unless these stand on both sides of 2^63. -/
theorem key_lt_iff {m n : Nat} (less : m < n) (first : 0 < m) (bound : n ≤ 2 ^ 64) :
    (BitVec.ofNat 64 m).toInt < (BitVec.ofNat 64 n).toInt ↔ ¬ (m < 2 ^ 63 ∧ 2 ^ 63 ≤ n) := by
  by_cases low : n < 2 ^ 63
  · rw [key_low low,key_low (less.trans low)]
    omega
  · rw [key_high (Nat.le_of_not_lt low) bound]
    by_cases small : m < 2 ^ 63
    · rw [key_low small]
      omega
    · rw [key_high (Nat.le_of_not_lt small) (by omega)]
      omega

/-! ### The invariant -/

/-- The state holds what the ledger says, as long as no id has come twice. -/
structure Tracks (s : State ι T L) (a : Ledger ι T L) : Prop where
  counter : s.s_fun_id = BitVec.ofNat 64 a.adds
  values : ∀ x, (s.vars x).m_val = a.value x
  increasing : ∀ x, (a.live x).Pairwise fun r r' => r.number < r'.number
  numbers : ∀ x, ∀ r ∈ a.live x, 0 < r.number ∧ r.number ≤ a.adds
  entries : a.adds ≤ 2 ^ 64 → ∀ x,
    (s.vars x).m_callbacks.entries.Perm ((a.live x).map Registration.entry)

theorem start_tracks (values : ι → T) : Tracks (start (L := L) values) (.start values) where
  counter := rfl
  values _ := rfl
  increasing _ := .nil
  numbers x r member := by cases member
  entries _ _ := .nil

theorem Tracks.fresh {s : State ι T L} {a : Ledger ι T L} (tracks : Tracks s a) (small : a.adds < 2 ^ 64)
    (x : ι) : ∀ entry ∈ (s.vars x).m_callbacks.entries, entry.1 ≠ (BitVec.ofNat 64 (a.adds + 1)).toInt := by
  intro entry member same
  obtain ⟨r,live,rfl⟩ := List.mem_map.mp ((tracks.entries small.le x).mem_iff.mp member)
  obtain ⟨positive,bound⟩ := tracks.numbers x r live
  have number := id_injective (BitVec.toInt_inj.mp same) positive (by omega) (by omega) small
  omega

theorem Tracks.erased {s : State ι T L} {a : Ledger ι T L} (tracks : Tracks s a) (small : a.adds ≤ 2 ^ 64)
    (x : ι) (key : BitVec 64) : ((s.vars x).m_callbacks.erase key.toInt).entries.Perm
      (((a.live x).filter fun r => r.id ≠ key).map Registration.entry) := by
  have filtered := (tracks.entries small x).filter fun entry => entry.1 ≠ key.toInt
  rw [List.filter_map] at filtered
  have same : ∀ r : Registration L, decide (r.entry.1 ≠ key.toInt) = decide (r.id ≠ key) := fun r =>
    decide_eq_decide.mpr (not_congr BitVec.toInt_inj)
  simp only [Function.comp_def,same] at filtered
  exact filtered

theorem Tracks.removes {s : State ι T L} {a : Ledger ι T L} (tracks : Tracks s a) (small : a.adds ≤ 2 ^ 64)
    {x : ι} {key : BitVec 64} (member : entry ∈ (s.vars x).m_callbacks.entries)
    (gone : entry ∉ ((s.vars x).m_callbacks.erase key.toInt).entries) :
    ∃ r ∈ a.live x, r.id = key ∧ entry = r.entry := by
  obtain ⟨r,live,rfl⟩ := List.mem_map.mp ((tracks.entries small x).mem_iff.mp member)
  have named : r.entry.1 = key.toInt := by
    by_contra other
    exact gone (List.mem_filter.mpr ⟨member,by simpa using other⟩)
  exact ⟨r,live,BitVec.toInt_inj.mp named,rfl⟩

theorem Tracks.sorted_iff {s : State ι T L} {a : Ledger ι T L} (tracks : Tracks s a)
    (small : a.adds ≤ 2 ^ 64) (x : ι) :
    ((a.live x).map Registration.entry).Pairwise (fun first second => first.1 < second.1) ↔
      ¬ Straddles (a.live x) := by
  rw [List.pairwise_map]
  have numbers := tracks.numbers x
  constructor
  · rintro sorted ⟨r,member,r',member',low,high⟩
    have both := (tracks.increasing x).and sorted
    obtain ⟨i,inside,rfl⟩ := List.mem_iff_getElem.mp member
    obtain ⟨j,inside',rfl⟩ := List.mem_iff_getElem.mp member'
    rw [List.pairwise_iff_getElem] at both
    rcases Nat.lt_trichotomy i j with before | rfl | behind
    · obtain ⟨less,keys⟩ := both i j inside inside' before
      have limit := (numbers _ member').2.trans small
      exact (key_lt_iff less (numbers _ member).1 limit).mp keys ⟨low,high⟩
    · omega
    · have less := (both j i inside' inside behind).1
      omega
  · intro together
    refine (tracks.increasing x).imp_of_mem fun {r r'} member member' less => ?_
    refine (key_lt_iff less (numbers r member).1 ((numbers r' member').2.trans small)).mpr ?_
    rintro ⟨low,high⟩
    exact together ⟨r,member,r',member',low,high⟩

/-! ### The operations -/

variable [DecidableEq ι] [BEq T]

def setCallbacks (s : State ι T L) (x : ι) (callbacks : SortedMap Int L) : State ι T L :=
  { s with vars := Function.update s.vars x { s.vars x with m_callbacks := callbacks } }

/-- An operation. The id, a `uint64_t`, becomes an `int64_t` as a key. -/
def next (s : State ι T L) : Operation ι T L → State ι T L
  | .addListener x cb =>
    let s := { s with s_fun_id := s.s_fun_id + 1 }
    setCallbacks s x ((s.vars x).m_callbacks.assign s.s_fun_id.toInt cb)
  | .delListener x key => setCallbacks s x ((s.vars x).m_callbacks.erase key.toInt)
  | .clearListener x => setCallbacks s x .empty
  | .setValue x value => { s with vars := Function.update s.vars x ((s.vars x).setValue value) }

def answer (s : State ι T L) : Operation ι T L → List (BitVec 64)
  | .addListener _ _ => [s.s_fun_id + 1]
  | .delListener _ _ | .clearListener _ | .setValue _ _ => []

def calls (s : State ι T L) : Operation ι T L → List (Call T L)
  | .setValue x value => (s.vars x).announce value
  | .addListener _ _ | .delListener _ _ | .clearListener _ => []

def run (s : State ι T L) (history : List (Operation ι T L)) : State ι T L := history.foldl next s

theorem run_concat (s : State ι T L) (history : List (Operation ι T L)) (op : Operation ι T L) :
    run s (history ++ [op]) = next (run s history) op := List.foldl_concat _ _ _ _

def returned (s : State ι T L) : List (Operation ι T L) → List (BitVec 64)
  | [] => []
  | op :: history => answer s op ++ returned (next s op) history

namespace Ledger

def setLive (a : Ledger ι T L) (x : ι) (live : List (Registration L)) : Ledger ι T L :=
  { a with live := Function.update a.live x live }

def next (a : Ledger ι T L) : Operation ι T L → Ledger ι T L
  | .addListener x cb =>
    setLive { a with adds := a.adds + 1 } x (a.live x ++ [⟨a.adds + 1,cb⟩])
  | .delListener x key => setLive a x ((a.live x).filter fun r => r.id ≠ key)
  | .clearListener x => setLive a x []
  | .setValue x value => if value == a.value x then a else { a with value := Function.update a.value x value }

/-- The calls that are due in an operation. -/
def due (a : Ledger ι T L) : Operation ι T L → List (Call T L)
  | .setValue x value =>
    if value == a.value x then []
    else (a.live x).map fun r => ⟨r.id.toInt,r.listener,a.value x,value⟩
  | .addListener _ _ | .delListener _ _ | .clearListener _ => []

@[simp] theorem next_setValue_adds (a : Ledger ι T L) (x : ι) (value : T) :
    (a.next (.setValue x value)).adds = a.adds := by
  cases same : value == a.value x <;> simp [next,same]

def run (a : Ledger ι T L) (history : List (Operation ι T L)) : Ledger ι T L := history.foldl next a

theorem run_concat (a : Ledger ι T L) (history : List (Operation ι T L)) (op : Operation ι T L) :
    a.run (history ++ [op]) = (a.run history).next op := List.foldl_concat _ _ _ _

end Ledger

/-- Along the whole history the calls are those that are due, and no id comes twice. -/
structure Exactly (values : ι → T) (history : List (Operation ι T L)) : Prop where
  ids : (returned (start values) history).Nodup
  told : ∀ front op, front ++ [op] <+: history →
    calls (run (start values) front) op = (Ledger.run (.start values) front).due op
  stored : ∀ front, front <+: history → ∀ x,
    ((run (start values) front).vars x).m_val = (Ledger.run (.start values) front).value x
  removed : ∀ front x key, front ++ [.delListener x key] <+: history →
    (∀ y ≠ x, (next (run (start values) front) (.delListener x key)).vars y =
      (run (start values) front).vars y) ∧
    ∀ entry ∈ ((run (start values) front).vars x).m_callbacks.entries,
      entry ∉ ((next (run (start values) front) (.delListener x key)).vars x).m_callbacks.entries →
        ∃ r ∈ (Ledger.run (.start values) front).live x, r.id = key ∧ entry = r.entry
  unchanged : ∀ front x value, front ++ [.setValue x value] <+: history →
    (value == ((run (start values) front).vars x).m_val) = true →
      next (run (start values) front) (.setValue x value) = run (start values) front

omit [BEq T] in
theorem Tracks.setLive {s : State ι T L} {a : Ledger ι T L} (tracks : Tracks s a) (x : ι)
    {callbacks : SortedMap Int L} {live : List (Registration L)}
    (increasing : live.Pairwise fun r r' => r.number < r'.number)
    (numbers : ∀ r ∈ live, 0 < r.number ∧ r.number ≤ a.adds)
    (entries : a.adds ≤ 2 ^ 64 → callbacks.entries.Perm (live.map Registration.entry)) :
    Tracks (setCallbacks s x callbacks) (a.setLive x live) where
  counter := tracks.counter
  values y := by
    by_cases same : y = x
    · subst y; simpa [setCallbacks,Ledger.setLive] using tracks.values x
    · simpa [setCallbacks,Ledger.setLive,same] using tracks.values y
  increasing y := by
    by_cases same : y = x
    · subst y; simpa [Ledger.setLive] using increasing
    · simpa [Ledger.setLive,same] using tracks.increasing y
  numbers y := by
    by_cases same : y = x
    · subst y; simpa [Ledger.setLive] using numbers
    · simpa [Ledger.setLive,same] using tracks.numbers y
  entries small y := by
    by_cases same : y = x
    · subst y; simpa [setCallbacks,Ledger.setLive] using entries small
    · simpa [setCallbacks,Ledger.setLive,same] using tracks.entries small y

omit [DecidableEq ι] [BEq T] in
theorem Tracks.counted {s : State ι T L} {a : Ledger ι T L} (tracks : Tracks s a) :
    Tracks { s with s_fun_id := s.s_fun_id + 1 } { a with adds := a.adds + 1 } where
  counter := by rw [tracks.counter,BitVec.ofNat_add]; rfl
  values := tracks.values
  increasing := tracks.increasing
  numbers y r member :=
    have ⟨positive,bound⟩ := tracks.numbers y r member
    ⟨positive,Nat.le_succ_of_le bound⟩
  entries small := tracks.entries (Nat.le_of_succ_le small)

theorem Tracks.addListener {s : State ι T L} {a : Ledger ι T L} (tracks : Tracks s a) (x : ι) (cb : L) :
    Tracks (next s (.addListener x cb)) (a.next (.addListener x cb)) := by
  refine tracks.counted.setLive x ?_ ?_ fun small => ?_
  · refine List.pairwise_append.mpr ⟨tracks.increasing x,List.pairwise_singleton _ _,?_⟩
    intro r member r' last
    obtain rfl := List.mem_singleton.mp last
    exact Nat.lt_succ_of_le (tracks.numbers x r member).2
  · intro r member
    rcases List.mem_append.mp member with old | last
    · exact tracks.counted.numbers x r old
    · obtain rfl := List.mem_singleton.mp last
      exact ⟨Nat.succ_pos _,le_refl _⟩
  · have id : s.s_fun_id + 1 = BitVec.ofNat 64 (a.adds + 1) := tracks.counted.counter
    have added := (s.vars x).m_callbacks.assign_perm (BitVec.ofNat 64 (a.adds + 1)).toInt cb
    -- The id is fresh, so nothing is erased before the entry is put in.
    rw [SortedMap.erase_fresh _ (tracks.fresh small x)] at added
    rw [List.map_append]
    simp only [id]
    exact (added.trans ((tracks.entries (Nat.le_of_succ_le small) x).cons _)).trans
      (List.perm_append_singleton _ _).symm

theorem Tracks.setValue {s : State ι T L} {a : Ledger ι T L} (tracks : Tracks s a) (x : ι) (value : T) :
    Tracks (next s (.setValue x value)) (a.next (.setValue x value)) := by
  cases same : value == a.value x with
  | true =>
    have kept : next s (.setValue x value) = s := by
      simp [next,Var.setValue,tracks.values x,same]
    rw [kept,Ledger.next,if_pos same]
    exact tracks
  | false =>
    rw [Ledger.next,if_neg (by simp [same])]
    exact {
      counter := tracks.counter
      values := fun y => by
        by_cases here : y = x
        · subst y; simp [next,tracks.values,same]
        · simpa [next,here] using tracks.values y
      increasing := tracks.increasing
      numbers := tracks.numbers
      entries := fun small y => by
        by_cases here : y = x
        · subst y; simpa [next] using tracks.entries small x
        · simpa [next,here] using tracks.entries small y }

theorem tracks_next {s : State ι T L} {a : Ledger ι T L} (tracks : Tracks s a) (op : Operation ι T L) :
    Tracks (next s op) (a.next op) := by
  cases op with
  | addListener x cb => exact tracks.addListener x cb
  | delListener x key =>
    exact tracks.setLive x ((tracks.increasing x).filter _)
      (fun r member => tracks.numbers x r (List.mem_filter.mp member).1)
      (fun small => tracks.erased small x key)
  | clearListener x => exact tracks.setLive x .nil (fun r member => by cases member) fun _ => .nil
  | setValue x value => exact tracks.setValue x value

theorem run_tracks (values : ι → T) (history : List (Operation ι T L)) :
    Tracks (run (start values) history) (Ledger.run (.start values) history) := by
  induction history using List.reverseRecOn with
  | nil => exact start_tracks values
  | append_singleton history op ih =>
    rw [run_concat,Ledger.run_concat]
    exact tracks_next ih op

/-! ### Histories -/

theorem returned_concat (s : State ι T L) (history : List (Operation ι T L)) (op : Operation ι T L) :
    returned s (history ++ [op]) = returned s history ++ answer (run s history) op := by
  induction history generalizing s with
  | nil => simp [returned,run]
  | cons first history ih => simp [returned,run,ih]

/-- The n-th registration returns n, as far as 64 bits show it. -/
theorem returned_ids (values : ι → T) (history : List (Operation ι T L)) :
    returned (start values) history =
      (List.range (Ledger.run (.start values) history).adds).map fun i => BitVec.ofNat 64 (i + 1) := by
  induction history using List.reverseRecOn with
  | nil => rfl
  | append_singleton history op ih =>
    have counter := (run_tracks values history).counter
    rw [returned_concat,ih,Ledger.run_concat]
    cases op with
    | addListener x cb => simp [answer,counter,Ledger.next,Ledger.setLive,List.range_succ,BitVec.ofNat_add]
    | setValue x value => simp [answer]
    | delListener | clearListener => simp [answer,Ledger.next,Ledger.setLive]

theorem ids_nodup_iff (n : Nat) :
    ((List.range n).map fun i => BitVec.ofNat 64 (i + 1)).Nodup ↔ n ≤ 2 ^ 64 := by
  rw [List.nodup_map_iff_inj_on List.nodup_range]
  constructor
  · intro distinct
    by_contra more
    have first : 0 ∈ List.range n := List.mem_range.mpr (by omega)
    have again : 2 ^ 64 ∈ List.range n := List.mem_range.mpr (by omega)
    exact absurd (distinct 0 first (2 ^ 64) again (by decide)) (by decide)
  · intro small i first j second same
    rw [List.mem_range] at first second
    have := id_injective same (by omega) (by omega) (by omega) (by omega)
    omega

omit [DecidableEq ι] in
/-- The calls are those that are due exactly when the live listeners do not straddle. -/
theorem Tracks.announce_iff {s : State ι T L} {a : Ledger ι T L} (tracks : Tracks s a)
    (small : a.adds ≤ 2 ^ 64) (x : ι) (value : T) :
    calls s (.setValue x value) = a.due (.setValue x value) ↔
      ((value == a.value x) = false → ¬ Straddles (a.live x)) := by
  rw [← tracks.sorted_iff small x]
  simp only [calls,Var.announce,Ledger.due,tracks.values x]
  cases same : value == a.value x with
  | true => simp
  | false =>
    simp only [Bool.false_eq_true,if_false,forall_const]
    constructor
    · intro told
      have keys := congrArg (List.map Call.key) told
      simp only [List.map_map] at keys
      have sorted := List.pairwise_map.mpr (s.vars x).m_callbacks.sorted
      have listed : ((a.live x).map Registration.entry).map Prod.fst =
          (s.vars x).m_callbacks.entries.map Prod.fst := by
        rw [List.map_map]
        exact keys.symm
      rw [← listed] at sorted
      exact List.pairwise_map.mp sorted
    · intro sorted
      have entries : (s.vars x).m_callbacks.entries = (a.live x).map Registration.entry := by
        refine (tracks.entries small x).eq_of_pairwise ?_ (s.vars x).m_callbacks.sorted sorted
        intro first second _ _ less more
        exact absurd less (lt_asymm more)
      rw [entries,List.map_map]
      rfl

theorem adds_le (a : Ledger ι T L) {front history : List (Operation ι T L)} (part : front <+: history) :
    (a.run front).adds ≤ (a.run history).adds := by
  obtain ⟨rest,rfl⟩ := part
  induction rest using List.reverseRecOn with
  | nil => simp
  | append_singleton rest op ih =>
    rw [← List.append_assoc,Ledger.run_concat]
    refine ih.trans ?_
    cases op with
    | setValue x value => rw [Ledger.next_setValue_adds]
    | addListener | delListener | clearListener => simp [Ledger.next,Ledger.setLive]

/-- Exactly the live listeners are called, and no id comes twice, exactly where there are at most
2^64 registrations and no variable is changed whose live listeners stand on both sides of the
2^63rd. -/
theorem exactly_iff (values : ι → T) (history : List (Operation ι T L)) : Exactly values history ↔
    (Ledger.run (.start values) history).adds ≤ 2 ^ 64 ∧
      ∀ front x value, front ++ [.setValue x value] <+: history →
        (value == (Ledger.run (.start values) front).value x) = false →
          ¬ Straddles ((Ledger.run (.start values) front).live x) := by
  have ids : (returned (start values) history).Nodup ↔ (Ledger.run (.start values) history).adds ≤ 2 ^ 64 := by
    rw [returned_ids,ids_nodup_iff]
  have fits (small : (Ledger.run (.start values) history).adds ≤ 2 ^ 64) {front : List (Operation ι T L)}
      (part : front <+: history) : (Ledger.run (.start values) front).adds ≤ 2 ^ 64 :=
    (adds_le _ part).trans small
  constructor
  · intro exact
    have small := ids.mp exact.ids
    refine ⟨small,fun front x value part => ?_⟩
    have before := fits small ((List.prefix_append front _).trans part)
    exact ((run_tracks values front).announce_iff before x value).mp (exact.told front _ part)
  · rintro ⟨small,together⟩
    refine ⟨ids.mpr small,fun front op part => ?_,fun front _ => (run_tracks values front).values,
      fun front x key part => ⟨fun y other => ?_,fun entry member gone => ?_⟩,fun front x value _ same => ?_⟩
    · have before := fits small ((List.prefix_append front _).trans part)
      cases op with
      | setValue x value => exact ((run_tracks values front).announce_iff before x value).mpr (together front x value part)
      | addListener | delListener | clearListener => rfl
    · simp [next,setCallbacks,other]
    · have before := fits small ((List.prefix_append front _).trans part)
      simp only [next,setCallbacks,Function.update_self] at gone
      exact (run_tracks values front).removes before member gone
    · simp [next,Var.setValue,same]

/-! ### Past the greatest signed id -/

/-- The variable `false` keeps a listener, and the variable `true` gets one and loses it again. -/
def rounds : Nat → List (Operation Bool Nat Nat)
  | 0 => [.addListener false 1]
  | n + 1 => rounds n ++ [.addListener true 2] ++ [.clearListener true]

def crossing (n : Nat) : List (Operation Bool Nat Nat) := rounds n ++ [.addListener false 3]

theorem rounds_ledger (n : Nat) : Ledger.run (.start fun _ => 0) (rounds n) =
    ⟨n + 1,fun _ => 0,fun x => if x then [] else [⟨1,1⟩]⟩ := by
  induction n with
  | zero =>
    simp only [rounds,Ledger.run,List.foldl_cons,List.foldl_nil,Ledger.next,Ledger.setLive,Ledger.start]
    congr 1
    funext x
    cases x <;> rfl
  | succ n ih =>
    rw [rounds,Ledger.run_concat,Ledger.run_concat,ih]
    simp only [Ledger.next,Ledger.setLive]
    congr 1
    funext x
    cases x <;> rfl

theorem crossing_ledger (n : Nat) : Ledger.run (.start fun _ => 0) (crossing n) =
    ⟨n + 2,fun _ => 0,fun x => if x then [] else [⟨1,1⟩,⟨n + 2,3⟩]⟩ := by
  rw [crossing,Ledger.run_concat,rounds_ledger]
  simp only [Ledger.next,Ledger.setLive]
  congr 1
  funext x
  cases x <;> rfl

theorem rounds_live (n : Nat) {front : List (Operation Bool Nat Nat)} (part : front <+: rounds n) :
    ((Ledger.run (.start fun _ => 0) front).live false).length ≤ 1 ∧
      ((Ledger.run (.start fun _ => 0) front).live true).length ≤ 1 := by
  induction n with
  | zero =>
    have part : front <+: [] ++ [.addListener false 1] := part
    rcases List.prefix_concat_iff.mp part with whole | short
    · rw [whole]
      exact ⟨le_refl _,Nat.zero_le _⟩
    · rw [List.prefix_nil.mp short]
      exact ⟨Nat.zero_le _,Nat.zero_le _⟩
  | succ n ih =>
    rcases List.prefix_concat_iff.mp part with whole | part
    · rw [whole,← rounds,rounds_ledger]
      simp
    rcases List.prefix_concat_iff.mp part with whole | part
    · rw [whole,Ledger.run_concat,rounds_ledger]
      simp [Ledger.next,Ledger.setLive]
    · exact ih part

theorem crossing_live (n : Nat) {front : List (Operation Bool Nat Nat)} (part : front <+: crossing n) :
    ((Ledger.run (.start fun _ => 0) front).live false).length ≤ 2 ∧
      ((Ledger.run (.start fun _ => 0) front).live true).length ≤ 1 := by
  rcases List.prefix_concat_iff.mp part with whole | part
  · rw [whole,← crossing,crossing_ledger]
    simp
  · obtain ⟨first,others⟩ := rounds_live n part
    exact ⟨first.trans (Nat.le_succ 1),others⟩

/-- The listener with the id 2^63 is called before the one with the id 1. -/
theorem crossing_calls (n : Nat) (count : n + 2 = 2 ^ 63) :
    calls (run (start fun _ => 0) (crossing n)) (.setValue false 1) = [⟨-2 ^ 63,3,0,1⟩,⟨1,1,0,1⟩] := by
  have tracks := run_tracks (fun _ => 0) (crossing n)
  rw [crossing_ledger] at tracks
  have listed := tracks.entries (by simp only; omega) false
  have high : (BitVec.ofNat 64 (n + 2)).toInt = -2 ^ 63 := by
    rw [key_high (by omega) (by omega),count]
    rfl
  have swapped : ((run (start fun _ => 0) (crossing n)).vars false).m_callbacks.entries.Perm
      [(-2 ^ 63,3),(1,1)] := by
    refine listed.trans ?_
    simp only [Bool.false_eq_true,if_false,List.map_cons,List.map_nil,Registration.entry,Registration.id,high]
    exact .swap _ _ _
  have entries := swapped.eq_of_pairwise
    (fun first second _ _ less more => absurd less (lt_asymm more))
    ((run (start fun _ => 0) (crossing n)).vars false).m_callbacks.sorted (by simp)
  simp [calls,Var.announce,tracks.values false,entries]

/-- With 2^63 registrations, of which three are live at most, the order of the calls is not that of
the registrations. -/
theorem last_listener_first :
    (∀ front, front <+: crossing (2 ^ 63 - 2) →
      ((Ledger.run (.start fun _ => 0) front).live false).length ≤ 2 ∧
        ((Ledger.run (.start fun _ => 0) front).live true).length ≤ 1) ∧
    calls (run (start fun _ => 0) (crossing (2 ^ 63 - 2))) (.setValue false 1) =
      [⟨-2 ^ 63,3,0,1⟩,⟨1,1,0,1⟩] ∧
    ¬ Exactly (fun _ => 0) (crossing (2 ^ 63 - 2) ++ [.setValue false 1]) := by
  have told := crossing_calls (2 ^ 63 - 2) rfl
  refine ⟨fun front => crossing_live _,told,fun exact => ?_⟩
  have due := told.symm.trans (exact.told _ _ (List.prefix_refl _))
  rw [crossing_ledger] at due
  exact absurd (congrArg Call.key (List.cons.inj due).1) (by decide)

end Myriel.ConfigListeners

import Myriel.AsyncLogPool
import Mathlib.Data.List.Chain

/-! How long messages take to the file, and how much of the waiting buffers they fill. -/
namespace Myriel.AsyncLog

theorem file_block (blocks : Blocks keep s) : ∃ k, file s = block keep (s.appended.take k) ∧
    ((unwritten s ++ shared s).map held).flatten = block keep (s.appended.drop k) := by
  obtain ⟨cuts,messages,buffers⟩ := blocks
  obtain ⟨written,rest,rfl,file,later⟩ := List.map_eq_append_iff.mp buffers.symm
  have flat (cuts : List (List Text)) : (cuts.map (block keep)).flatten = block keep cuts.flatten := by
    induction cuts with
    | nil => rfl
    | cons cut cuts ih => simpa [block] using ih
  refine ⟨written.flatten.length,?_,?_⟩
  · rw [← messages,List.flatten_append,List.take_left,← flat,file]
    rfl
  · rw [← messages,List.flatten_append,List.drop_left,← flat,later]

theorem step_appended (pool : Pool s) (other : ∀ message, a ≠ .append message) (ran : step s a = some t) :
    t.appended = s.appended := by
  cases a with
  | append message => exact absurd rfl (other message)
  | backend =>
    rcases backend_cases pool ran with ⟨_,rfl⟩ | ⟨_,_,rfl⟩ | ⟨_,rfl⟩ | ⟨_,_,_,_,rfl⟩ |
      ⟨_,_,_,_,_,_,_,rfl⟩ <;> rfl
  | stop =>
    simp only [step,Option.ite_none_right_eq_some,Option.some.injEq] at ran
    obtain ⟨_,rfl⟩ := ran
    rfl

theorem appendLog_appended (ran : step s (.append message) = some t) : t.appended = s.appended ++ [message] := by
  obtain ⟨middle,appended,rfl⟩ := Option.map_eq_some_iff.mp ran
  obtain ⟨_,_,⟨_,rfl⟩ | ⟨_,_,rfl⟩⟩ := append_cases appended <;> rfl

theorem block_short (short : ∀ message ∈ messages, message.length < LargeBuffer) :
    block stored messages = messages.flatten := by
  have whole : ∀ message ∈ messages, stored message = id message := fun message member =>
    stored_short message (short message member)
  rw [block,List.map_congr_left whole,List.map_id]

/-! ### The delay -/

/-- What is stored of the messages is in the file. -/
def InFile (messages : List Text) (s : State) : Prop := block stored messages <+: file s

/-- The steps of the worker up to its next swap, if it does not end. -/
def toSwap (s : State) : Nat :=
  match s.pc with
  | .head => 3
  | .lock => 2
  | .wait => 1
  | .write i => s.bufferToWrite.length - i + 4
  | .finished => 0

/-- The messages are in the file after a number of steps of the worker. -/
inductive Within (messages : List Text) (n : Nat) (s : State) : Prop where
  | written (inside : InFile messages s)
  | carried (carried : block stored messages <+: swapped s) (count : (unwritten s).length ≤ n)
  | shared (history : messages <+: s.appended) (count : toSwap s + s.m_buffers.length + 1 ≤ n)

theorem swapped_file (nothing : unwritten s = []) : swapped s = file s := by
  simp [swapped,nothing,file]

theorem swap_carries (reach : Reachable s) (idle : ∀ i, s.pc ≠ .write i) (next : Reachable (swap s))
    (history : messages <+: s.appended) : block stored messages <+: swapped (swap s) := by
  obtain ⟨empty,spare1,_⟩ := worker_idle (reachable_pool reach) idle
  have nothing : pending (swap s) = [] := by simp [pending,shared,swap,empty,spare_held spare1]
  have whole := (swapped_pending (swap s)).trans (blocks_bytes (reachable_blocks next))
  rw [nothing,List.append_nil] at whole
  obtain ⟨later,split⟩ := history
  exact ⟨block stored later,by rw [whole,swap,← split]; simp [block]⟩

theorem append_within (pool : Pool s) (within : Within messages n s) (ran : step s (.append message) = some t) :
    Within messages (n + 1) t := by
  obtain ⟨cur,_,⟨_,rfl⟩ | ⟨next,_,rfl⟩⟩ := appendLog_cases pool ran
  all_goals
    cases within with
    | written inside => exact .written inside
    | carried carried count => exact .carried carried (Nat.le_succ_of_le count)
    | shared history count =>
      refine .shared (history.trans (List.prefix_append _ _)) ?_
      simp only [toSwap,List.length_append,List.length_singleton] at count ⊢
      omega

theorem step_file (pool : Pool s) (ran : step s a = some t) : file s <+: file t := by
  cases a with
  | append message =>
    obtain ⟨_,_,⟨_,rfl⟩ | ⟨_,_,rfl⟩⟩ := appendLog_cases pool ran <;> exact List.prefix_refl _
  | backend =>
    rcases backend_cases pool ran with ⟨_,rfl⟩ | ⟨_,_,rfl⟩ | ⟨_,rfl⟩ | ⟨i,b,_,_,rfl⟩ | ⟨_,_,_,_,_,_,_,rfl⟩
    case inr.inr.inr.inl => exact ⟨b.contents,by simp [file]⟩
    all_goals exact List.prefix_refl _
  | stop =>
    simp only [step,Option.ite_none_right_eq_some,Option.some.injEq] at ran
    obtain ⟨_,rfl⟩ := ran
    exact List.prefix_refl _

theorem run_file (reach : Reachable s) (ran : Transition.run step s actions = some t) : file s <+: file t := by
  refine (Transition.run_invariant step (fun r => Reachable r ∧ file s <+: file r) ?_
    ⟨reach,List.prefix_refl _⟩ ran).2
  intro r a u ⟨reach,grown⟩ taken
  exact ⟨reach.next step taken,grown.trans (step_file (reachable_pool reach) taken)⟩

theorem unwritten_idle (idle : ∀ i, s.pc ≠ .write i) : unwritten s = [] := by
  unfold unwritten
  split
  next i writing => exact absurd writing (idle i)
  next => rfl

/-- What has been swapped and not written yet gets shorter with each step. -/
theorem backend_carried (pool : Pool s) (carried : block stored messages <+: swapped s)
    (count : (unwritten s).length ≤ n + 1) (ran : step s .backend = some t) : Within messages n t := by
  by_cases nothing : unwritten s = []
  · rw [swapped_file nothing] at carried
    exact .written (carried.trans (step_file pool ran))
  rcases backend_cases pool ran with ⟨pc,_⟩ | ⟨pc,_⟩ | ⟨pc,_⟩ | ⟨i,b,pc,item,rfl⟩ | ⟨i,_,_,pc,item,_⟩
  · exact absurd (unwritten_idle (by simp [pc])) nothing
  · exact absurd (unwritten_idle (by simp [pc])) nothing
  · exact absurd (unwritten_idle (by rcases pc with ⟨pc,_⟩ | pc <;> simp [pc])) nothing
  · obtain ⟨bound,get⟩ := List.getElem?_eq_some_iff.mp item
    refine .carried ?_ ?_
    · simpa [swapped,unwritten,pc,List.drop_eq_getElem_cons bound,get,held] using carried
    · simp only [unwritten,pc,List.length_drop] at count ⊢
      omega
  · refine absurd ?_ nothing
    simpa [unwritten,pc] using List.getElem?_eq_none_iff.mp item

theorem backend_shared (reach : Reachable s) (running : s.m_run = true) (history : messages <+: s.appended)
    (count : toSwap s + s.m_buffers.length + 1 ≤ n + 1) (ran : step s .backend = some t) : Within messages n t := by
  have next := reach.next step ran
  rcases backend_cases (reachable_pool reach) ran with ⟨pc,rfl⟩ | ⟨pc,_,rfl⟩ | ⟨pc,rfl⟩ | ⟨i,b,pc,item,rfl⟩ |
    ⟨i,b₁,b₂,pc,item,_,_,rfl⟩
  · refine .shared history ?_
    simp only [toSwap,pc,running,if_true] at count ⊢
    omega
  · refine .shared history ?_
    simp only [toSwap,pc] at count ⊢
    omega
  · have idle : ∀ i, s.pc ≠ .write i := by rcases pc with ⟨pc,_⟩ | pc <;> simp [pc]
    refine .carried (swap_carries reach idle next history) ?_
    have steps : 1 ≤ toSwap s := by rcases pc with ⟨pc,_⟩ | pc <;> simp [toSwap,pc]
    simp only [unwritten,swap,List.drop_zero,List.length_append,List.length_singleton]
    omega
  · refine .shared history ?_
    have bound := (List.getElem?_eq_some_iff.mp item).1
    simp only [toSwap,pc] at count ⊢
    omega
  · refine .shared history ?_
    simp only [toSwap,pc] at count ⊢
    omega

theorem backend_within (reach : Reachable s) (running : s.m_run = true) (within : Within messages (n + 1) s)
    (ran : step s .backend = some t) : Within messages n t := by
  have pool := reachable_pool reach
  cases within with
  | written inside => exact .written (inside.trans (step_file pool ran))
  | carried carried count => exact backend_carried pool carried count ran
  | shared history count => exact backend_shared reach running history count ran

theorem within_zero (within : Within messages 0 s) : InFile messages s := by
  cases within with
  | written inside => exact inside
  | carried carried count =>
    rwa [swapped_file (List.length_eq_zero_iff.mp (Nat.le_zero.mp count))] at carried
  | shared => omega

theorem step_running (pool : Pool s) (running : s.m_run = true) (other : a ≠ .stop) (ran : step s a = some t) :
    t.m_run = true := by
  cases a with
  | append message =>
    obtain ⟨_,_,⟨_,rfl⟩ | ⟨_,_,rfl⟩⟩ := appendLog_cases pool ran <;> exact running
  | backend =>
    rcases backend_cases pool ran with ⟨_,rfl⟩ | ⟨_,_,rfl⟩ | ⟨_,rfl⟩ | ⟨_,_,_,_,rfl⟩ |
      ⟨_,_,_,_,_,_,_,rfl⟩ <;> exact running
  | stop => exact absurd rfl other

def Action.isAppend : Action → Bool
  | .append _ => true
  | _ => false

def Action.isBackend : Action → Bool
  | .backend => true
  | _ => false

/-- The worker takes as many steps as are left, and one more for each message that others append
in the meantime. -/
theorem within_run (reach : Reachable s) (running : s.m_run = true) (within : Within messages n s)
    (unstopped : .stop ∉ actions) (ran : Transition.run step s actions = some t)
    (enough : n + actions.countP Action.isAppend ≤ actions.countP Action.isBackend) : InFile messages t := by
  induction actions generalizing s n with
  | nil =>
    cases ran
    obtain rfl : n = 0 := by simpa using enough
    exact within_zero within
  | cons a actions ih =>
    obtain ⟨middle,first,rest⟩ := (Transition.run_cons_some step).mp ran
    obtain ⟨other,later⟩ := not_or.mp (List.mem_cons.not.mp unstopped)
    have pool := reachable_pool reach
    have still := step_running pool running (Ne.symm other) first
    have onward {k : Nat} := @ih middle k (reach.next step first) still
    cases a with
    | append message =>
      refine onward (append_within pool within first) later rest ?_
      simpa [Action.isAppend,Action.isBackend,List.countP_cons,Nat.add_right_comm,Nat.add_assoc] using enough
    | backend =>
      cases n with
      | zero => exact (within_zero within).trans (run_file reach ran)
      | succ n =>
        refine onward (backend_within reach running within first) later rest ?_
        simp [Action.isAppend,Action.isBackend,List.countP_cons] at enough
        omega
    | stop => exact absurd rfl other

theorem running_live (reach : Reachable s) (running : s.m_run = true) : s.pc ≠ .finished := by
  refine (reach.invariant step (fun s => Pool s ∧ (s.pc = .finished → s.m_run = false)) ?_
    ⟨start_pool,nofun⟩).2.mt (by simp [running])
  intro s a t ⟨pool,ends⟩ ran
  refine ⟨step_pool pool ran,fun finished => ?_⟩
  cases a with
  | append message =>
    obtain ⟨_,_,⟨_,rfl⟩ | ⟨_,_,rfl⟩⟩ := appendLog_cases pool ran <;> exact ends finished
  | backend =>
    rcases backend_cases pool ran with ⟨_,rfl⟩ | ⟨_,_,rfl⟩ | ⟨_,rfl⟩ | ⟨_,_,_,_,rfl⟩ | ⟨_,_,_,_,_,_,_,rfl⟩
    · cases stopped : s.m_run
      · rfl
      · simp [stopped] at finished
    all_goals cases finished
  | stop =>
    simp only [step,Option.ite_none_right_eq_some,Option.some.injEq] at ran
    obtain ⟨_,rfl⟩ := ran
    rfl

theorem backend_runs (reach : Reachable s) (running : s.m_run = true) (n : Nat) :
    ∃ t, Transition.run step s (List.replicate n .backend) = some t := by
  induction n generalizing s with
  | zero => exact ⟨s,rfl⟩
  | succ n ih =>
    obtain ⟨middle,first⟩ := backend_enabled reach (running_live reach running)
    have other : Action.backend ≠ .stop := by simp
    obtain ⟨t,rest⟩ := ih (reach.next step first) (step_running (reachable_pool reach) running other first)
    exact ⟨t,by rw [List.replicate_succ,Transition.run_cons,first]; exact rest⟩

/-- Until `stop` is called, all that has been appended has been given to `ofs.write` when the worker
has come to its next swap and has written as many buffers as are waiting now, and one more for each
message appended in the meantime; and nothing keeps the worker from these steps. -/
theorem written_within (reach : Reachable s) (running : s.m_run = true)
    (short : ∀ message ∈ s.appended, message.length < LargeBuffer) :
    (∀ n, ∃ t, Transition.run step s (List.replicate n .backend) = some t) ∧
    ∀ actions t, .stop ∉ actions → Transition.run step s actions = some t →
      toSwap s + s.m_buffers.length + 1 + actions.countP Action.isAppend ≤ actions.countP Action.isBackend →
      s.appended.flatten <+: file t := by
  refine ⟨backend_runs reach running,fun actions t unstopped ran enough => ?_⟩
  rw [← block_short short]
  exact within_run reach running (.shared (List.prefix_refl _) (Nat.le_refl _)) unstopped ran enough

theorem written_within_two : ∃ s t, Transition.run step start [.append ['a']] = some s ∧
    Transition.run step s
      [.backend,.append ['b'],.backend,.backend,.backend,.backend] = some t ∧ ['a'] <+: file t := by
  refine ⟨_,_,rfl,rfl,(written_within ⟨[.append ['a']],rfl⟩ rfl ?_).2
    [.backend,.append ['b'],.backend,.backend,.backend,.backend] _ (by simp) rfl (Nat.le_refl 5)⟩
  change ∀ message ∈ [['a']], message.length < LargeBuffer
  simp [LargeBuffer]

/-! ### One line -/

/-- The bytes of the file; where the path cannot be opened there are none. -/
def onDisk (opens : Text → Bool) (path : Text) (s : State) : Text := if opens path then file s else []

/-- The appender takes the line, and whatever else it is given in the meantime, the line is in the
file behind all earlier ones when the worker has taken enough steps; nothing keeps the worker from
these. -/
structure Arrives (opens : Text → Bool) (path line : Text) (s t : State) : Prop where
  taken : step s (.append line) = some t
  runs : ∀ n, ∃ u, Transition.run step t (List.replicate n .backend) = some u
  written : ∃ n, ∀ actions u, .stop ∉ actions → Transition.run step t actions = some u →
    n + actions.countP Action.isAppend ≤ actions.countP Action.isBackend →
      block stored s.appended ++ line <+: onDisk opens path u

/-- This is so in every state of an appender that has not been stopped. -/
def Reaches (opens : Text → Bool) (path line : Text) : Prop :=
  ∀ s, Reachable s → s.m_run = true → ∃ t, Arrives opens path line s t

theorem reaches_of_short (opened : opens path = true) (short : line.length < LargeBuffer) :
    Reaches opens path line := by
  intro s reach running
  obtain ⟨t,taken⟩ := append_enabled reach line
  have next := reach.next step taken
  have still := step_running (reachable_pool reach) running (by simp) taken
  refine ⟨t,taken,backend_runs next still,toSwap t + t.m_buffers.length + 1,
    fun actions u unstopped ran enough => ?_⟩
  have inside := within_run next still (.shared (List.prefix_refl _) (Nat.le_refl _)) unstopped ran enough
  rw [InFile,appendLog_appended taken] at inside
  simpa [onDisk,opened,block,stored_short line short] using inside

theorem replicate_file (reach : Reachable s)
    (ran : Transition.run step s (List.replicate n .backend) = some t) : file t <+: block stored s.appended := by
  induction n generalizing s with
  | zero =>
    cases ran
    obtain ⟨k,front,_⟩ := file_block (reachable_blocks reach)
    refine ⟨block stored (t.appended.drop k),?_⟩
    rw [front,block,block,block,← List.flatten_append,← List.map_append,List.take_append_drop]
  | succ n ih =>
    obtain ⟨middle,first,rest⟩ := (Transition.run_cons_some step).mp ran
    have same := step_appended (reachable_pool reach) (by simp) first
    exact same ▸ ih (reach.next step first) rest

/-- A line comes to the file exactly if the file is opened and a buffer can hold the line. -/
theorem reaches_iff (opens : Text → Bool) (path line : Text) :
    Reaches opens path line ↔ opens path = true ∧ line.length < LargeBuffer := by
  refine ⟨fun reaches => ?_,fun ⟨opened,short⟩ => reaches_of_short opened short⟩
  -- an appender that has taken one message before
  obtain ⟨s,ran⟩ := append_enabled (.start step start) ['x']
  have history : s.appended = [['x']] := appendLog_appended ran
  have reach := (Transition.Reachable.start step start).next step ran
  obtain ⟨t,taken,runs,n,written⟩ := reaches s reach (step_running start_pool rfl (by simp) ran)
  obtain ⟨u,alone⟩ := runs n
  have inside := written (List.replicate n .backend) u (by simp [List.mem_replicate]) alone
    (by simp [List.countP_replicate,Action.isAppend,Action.isBackend])
  have whole := replicate_file (reach.next step taken) alone
  have one : stored ['x'] = ['x'] := (stored_iff _).mpr (by decide)
  rw [appendLog_appended taken,history] at whole
  cases opened : opens path with
  | false =>
    rw [onDisk,opened,history] at inside
    have none := List.prefix_nil.mp inside
    simp [block,one] at none
  | true =>
    rw [onDisk,opened,if_pos rfl,history] at inside
    have shorter := (inside.trans whole).length_le
    simp only [block,List.map_append,List.map_cons,List.map_nil,List.flatten_append,List.flatten_cons,
      List.flatten_nil,List.append_nil,List.length_append,stored_length line] at shorter
    refine ⟨rfl,?_⟩
    have positive : 0 < LargeBuffer := by decide
    split at shorter <;> omega

/-! ### The waiting buffers -/

/-- Two buffers that wait one behind the other would not go into one. -/
def Packed (s : State) : Prop :=
  (shared s).IsChain fun p q => LargeBuffer ≤ (held p).length + (held q).length

theorem packed_grow {front : List BufferPtr} {cur more : BufferPtr} (longer : (held cur).length ≤ (held more).length)
    (packed : (front ++ [cur]).IsChain fun p q => LargeBuffer ≤ (held p).length + (held q).length) :
    (front ++ [more]).IsChain fun p q => LargeBuffer ≤ (held p).length + (held q).length := by
  obtain ⟨first,_,last⟩ := List.isChain_append.mp packed
  refine List.isChain_append.mpr ⟨first,.singleton _,fun p member q here => ?_⟩
  have before := last p member cur rfl
  cases Option.some.inj here
  omega

theorem step_packed (pool : Pool s) (packed : Packed s) (short : ∀ message ∈ t.appended, message.length < LargeBuffer)
    (ran : step s a = some t) : Packed t := by
  cases a with
  | append message =>
    obtain ⟨cur,current,cases⟩ := appendLog_cases pool ran
    have size : message.length < LargeBuffer := by
      apply short
      rcases cases with ⟨_,rfl⟩ | ⟨_,_,rfl⟩ <;> simp
    have whole := stored_short message size
    unfold Packed shared at packed ⊢
    rw [current] at packed
    rcases cases with ⟨room,rfl⟩ | ⟨next,empty,rfl⟩
    · have grown := append_stored cur message (.inl room)
      refine packed_grow ?_ packed
      simp [held,grown]
    · have grown := append_stored next message (.inr empty)
      rw [next.contents_empty empty,List.nil_append,whole] at grown
      have full := append_full ran current (by simp)
      have taken : (held (some cur)).length = cur.m_cur := held_length cur
      have avail : cur.avail = LargeBuffer - cur.m_cur := rfl
      have bound := cur.cur_le
      rw [toInt_small _ (by unfold LargeBuffer at size; omega)] at full
      rw [List.isChain_append]
      refine ⟨packed,.singleton _,fun p last q here => ?_⟩
      obtain rfl : p = some cur := by simpa [eq_comm] using last
      cases Option.some.inj here
      simp only [held,grown] at taken ⊢
      omega
  | backend =>
    rcases backend_cases pool ran with ⟨_,rfl⟩ | ⟨_,_,rfl⟩ | ⟨pc,rfl⟩ | ⟨_,_,_,_,rfl⟩ | ⟨_,_,_,_,_,_,_,rfl⟩
    case inr.inr.inl =>
      have idle : ∀ i, s.pc ≠ .write i := by rcases pc with ⟨pc,_⟩ | pc <;> simp [pc]
      simp [Packed,shared,swap,(worker_idle pool idle).1]
    all_goals exact packed
  | stop =>
    simp only [step,Option.ite_none_right_eq_some,Option.some.injEq] at ran
    obtain ⟨_,rfl⟩ := ran
    exact packed

/-- Where any two neighbours reach a bound, half of the bound is reached on average. -/
theorem chain_bound (size : α → Nat) (bound : Nat) (first : α) (rest : List α)
    (chain : (first :: rest).IsChain fun p q => bound ≤ size p + size q) :
    rest.length * bound + size first ≤ 2 * ((first :: rest).map size).sum := by
  induction rest generalizing first with
  | nil => simp; omega
  | cons next rest ih =>
    obtain ⟨pair,later⟩ := List.isChain_cons_cons.mp chain
    have below := ih next later
    simp only [List.length_cons,List.map_cons,List.sum_cons,Nat.succ_mul] at below ⊢
    omega

/-- At least half of the memory of the buffers that wait for the worker is in use, if all
messages are shorter than a buffer. -/
theorem buffers_bounded (reach : Reachable s) (short : ∀ message ∈ s.appended, message.length < LargeBuffer) :
    s.m_buffers.length * LargeBuffer ≤ 2 * (pending s).length := by
  have packed : Packed s := by
    refine (reach.invariant step
      (fun s => Reachable s ∧ ((∀ message ∈ s.appended, message.length < LargeBuffer) → Packed s)) ?_
      ⟨.start step start,fun _ => .singleton _⟩).2 short
    intro s a t ⟨reach,packed⟩ ran
    refine ⟨reach.next step ran,fun short => ?_⟩
    apply step_packed (reachable_pool reach) (packed ?_) short ran
    exact fun message member => short message ((step_history reach ran).subset member)
  have sizes : (pending s).length = ((shared s).map fun p => (held p).length).sum := by
    simp [pending,List.length_flatten,List.map_map,Function.comp_def]
  have length : (shared s).length = s.m_buffers.length + 1 := by simp [shared]
  rw [sizes]
  unfold Packed at packed
  cases waiting : shared s with
  | nil => simp [waiting] at length
  | cons first rest =>
    rw [waiting] at packed length
    have bound := chain_bound (fun p => (held p).length) LargeBuffer first rest packed
    rw [Nat.succ.inj length] at bound
    exact (Nat.le_add_right _ _).trans bound

theorem buffers_bounded_one : ∃ s : State, Reachable s ∧ s.m_buffers.length = 1 ∧
    s.m_buffers.length * LargeBuffer ≤ 2 * (pending s).length := by
  obtain ⟨message,size⟩ := exists_filling
  obtain ⟨s,ran,history,waiting,_⟩ := overflow_runs size
  refine ⟨s,⟨_,ran⟩,waiting,buffers_bounded ⟨_,ran⟩ ?_⟩
  rw [history]
  intro other member
  rcases List.mem_pair.mp member with rfl | rfl
  · omega
  · decide

end Myriel.AsyncLog

import Myriel.FixBuffer
import Myriel.Transition

/-! `AsycLogAppender`: the critical section of `append`, the worker's loop in
`backendThread` and `stop`, as atomic steps of one state. A step that would go
through a null buffer pointer is disabled; `append_enabled` and `backend_enabled`
show that no reachable state disables one for that reason. -/
namespace Myriel.AsyncLog

abbrev Buffer := FixBuffer LargeBuffer

/-- A `std::unique_ptr` to a buffer, `none` after a move. -/
abbrev BufferPtr := Option Buffer

/-- Where the worker stands in `backendThread`. -/
inductive Pc where
  /-- before the test of `m_run` in the loop head -/
  | head
  /-- the test has succeeded, `m_mutex` is not taken yet -/
  | lock
  /-- inside `wait_for`, which has released `m_mutex` -/
  | wait
  /-- the next buffer of `BufferToWrite` to be written; at its end comes the recycling -/
  | write (next : Nat)
  /-- the thread function has returned -/
  | finished
  deriving DecidableEq

/-- `writes` are the `ofs.write` calls on the opened file; `appended` is history:
the messages in the order their `append` took the lock. -/
structure State where
  m_run : Bool
  m_curBuffer : BufferPtr
  m_nextBuffer : BufferPtr
  m_buffers : List BufferPtr
  pc : Pc
  replaceBuffer1 : BufferPtr
  replaceBuffer2 : BufferPtr
  bufferToWrite : List BufferPtr
  writes : List Text
  appended : List Text

/-- The constructor, with the worker's local buffers. -/
def start : State where
  m_run := true
  m_curBuffer := some (FixBuffer.new LargeBuffer)
  m_nextBuffer := some (FixBuffer.new LargeBuffer)
  m_buffers := []
  pc := .head
  replaceBuffer1 := some (FixBuffer.new LargeBuffer)
  replaceBuffer2 := some (FixBuffer.new LargeBuffer)
  bufferToWrite := []
  writes := []
  appended := []

def append (s : State) (log : Text) (len : Int) : Option State :=
  match s.m_curBuffer with
  | none => none
  | some cur =>
    if (cur.avail : Int) > len then
      some { s with m_curBuffer := some (cur.append log (toSizeT len)) }
    else
      let next := match s.m_nextBuffer with
        | some next => next
        | none => FixBuffer.new LargeBuffer
      some { s with
        m_buffers := s.m_buffers ++ [some cur]
        m_nextBuffer := none
        m_curBuffer := some (next.append log (toSizeT len)) }

/-- The call made by `log`, whose `size_t` length meets an `int` parameter. -/
def appendLog (s : State) (message : Text) : Option State :=
  (append s message (toInt message.length)).map fun t =>
    { t with appended := t.appended ++ [message] }

/-- The rest of the worker's critical section, after the possible wait. -/
def swap (s : State) : State :=
  { s with
    m_buffers := s.bufferToWrite
    bufferToWrite := s.m_buffers ++ [s.m_curBuffer]
    m_curBuffer := s.replaceBuffer1
    replaceBuffer1 := none
    m_nextBuffer := if s.m_nextBuffer.isNone then s.replaceBuffer2 else s.m_nextBuffer
    replaceBuffer2 := if s.m_nextBuffer.isNone then none else s.replaceBuffer2
    pc := .write 0 }

/-- `if(!replaceBuffer)` with its `back`, `pop_back` and `reset`. -/
def refill (spare : BufferPtr) (queue : List BufferPtr) : Option (BufferPtr × List BufferPtr) :=
  match spare with
  | some b => some (some b, queue)
  | none =>
    match queue.getLast? with
    | some (some b) => some (some b.reset, queue.dropLast)
    | _ => none

def recycle (s : State) : Option State :=
  let kept := if s.bufferToWrite.length > 2 then s.bufferToWrite.take 2 else s.bufferToWrite
  (refill s.replaceBuffer1 kept).bind fun first =>
    (refill s.replaceBuffer2 first.2).map fun second =>
      { s with
        replaceBuffer1 := first.1
        replaceBuffer2 := second.1
        bufferToWrite := []
        pc := .head }

/-- One step of the worker. A wait may end at any time, by notification or not. -/
def backend (s : State) : Option State :=
  match s.pc with
  | .head => some { s with pc := if s.m_run then .lock else .finished }
  | .lock => if s.m_buffers.isEmpty then some { s with pc := .wait } else some (swap s)
  | .wait => some (swap s)
  | .write i =>
    match s.bufferToWrite[i]? with
    | some (some b) => some { s with writes := s.writes ++ [b.contents], pc := .write (i + 1) }
    | some none => none
    | none => recycle s
  | .finished => none

inductive Action where
  | append (message : Text)
  | backend
  /-- `m_run = false` and the notification; `stop` returns once the worker has finished -/
  | stop

/-- A second `stop` would join a thread that is no longer joinable. -/
def step (s : State) : Action → Option State
  | .append message => appendLog s message
  | .backend => backend s
  | .stop => if s.m_run then some { s with m_run := false } else none

abbrev Reachable : State → Prop := Transition.Reachable step start

def held : BufferPtr → Text
  | some b => b.contents
  | none => []

def unwritten (s : State) : List BufferPtr :=
  match s.pc with
  | .write i => s.bufferToWrite.drop i
  | _ => []

def file (s : State) : Text := s.writes.flatten

def shared (s : State) : List BufferPtr := s.m_buffers ++ [s.m_curBuffer]

/-- Everything on its way to the file, one entry for each buffer. -/
def pipeline (s : State) : List Text := s.writes ++ (unwritten s ++ shared s).map held

/-- A buffer that is there and holds no message. -/
def Spare (p : BufferPtr) : Prop := ∃ b, p = some b ∧ b.m_cur = 0

/-- While the worker writes, one spare buffer is in use as `m_curBuffer`, and the
second one only if a message overflow had taken `m_nextBuffer` before. -/
def WorkerOwns (s : State) : Prop :=
  match s.pc with
  | .write i => i ≤ s.bufferToWrite.length ∧ s.bufferToWrite ≠ [] ∧
      (∀ p ∈ s.bufferToWrite, p.isSome) ∧ s.replaceBuffer1 = none ∧
      (Spare s.replaceBuffer2 ∨ s.replaceBuffer2 = none ∧ 2 ≤ s.bufferToWrite.length)
  | _ => s.bufferToWrite = [] ∧ Spare s.replaceBuffer1 ∧ Spare s.replaceBuffer2

/-- The relation between the six places a buffer can be in. -/
structure Pool (s : State) : Prop where
  current : s.m_curBuffer.isSome
  next : Spare s.m_nextBuffer ∨ s.m_nextBuffer = none ∧ s.m_buffers ≠ []
  buffers : ∀ p ∈ s.m_buffers, p.isSome
  worker : WorkerOwns s

theorem spare_new : Spare (some (FixBuffer.new LargeBuffer)) := ⟨_,rfl,rfl⟩

theorem spare_held (h : Spare p) : held p = [] := by
  obtain ⟨b,rfl,empty⟩ := h
  exact b.contents_empty empty

theorem spare_isSome (h : Spare p) : p.isSome := by
  obtain ⟨b,rfl,_⟩ := h; rfl

theorem spare_ne_none (h : Spare p) : p ≠ none := by
  obtain ⟨b,rfl,_⟩ := h; simp

theorem start_pool : Pool start where
  current := rfl
  next := .inl spare_new
  buffers := by simp [start]
  worker := ⟨rfl,spare_new,spare_new⟩

theorem append_cases (ran : append s log len = some t) :
    ∃ cur, s.m_curBuffer = some cur ∧
      ((cur.avail : Int) > len ∧
          t = { s with m_curBuffer := some (cur.append log (toSizeT len)) } ∨
        ∃ next, (s.m_nextBuffer = some next ∨ next = FixBuffer.new LargeBuffer) ∧
          t = { s with
            m_buffers := s.m_buffers ++ [some cur]
            m_nextBuffer := none
            m_curBuffer := some (next.append log (toSizeT len)) }) := by
  cases current : s.m_curBuffer with
  | none => simp [append,current] at ran
  | some cur =>
    refine ⟨cur,rfl,?_⟩
    by_cases room : (cur.avail : Int) > len
    · simp only [append,current,room,↓reduceIte,Option.some.injEq] at ran
      exact .inl ⟨room,ran.symm⟩
    · simp only [append,current,room,↓reduceIte,Option.some.injEq] at ran
      cases next : s.m_nextBuffer with
      | none => exact .inr ⟨_,.inr rfl,by simpa [next] using ran.symm⟩
      | some b => exact .inr ⟨b,.inl rfl,by simpa [next] using ran.symm⟩

/-- In a pool the buffer taken on overflow is empty, whether it is spare or new. -/
theorem appendLog_cases (pool : Pool s) (ran : appendLog s message = some t) :
    ∃ cur, s.m_curBuffer = some cur ∧
      ((cur.avail : Int) > toInt message.length ∧
          t = { s with
            m_curBuffer := some (cur.append message (toSizeT (toInt message.length)))
            appended := s.appended ++ [message] } ∨
        ∃ next : Buffer, next.m_cur = 0 ∧
          t = { s with
            m_buffers := s.m_buffers ++ [some cur]
            m_nextBuffer := none
            m_curBuffer := some (next.append message (toSizeT (toInt message.length)))
            appended := s.appended ++ [message] }) := by
  obtain ⟨middle,appended,rfl⟩ := Option.map_eq_some_iff.mp ran
  obtain ⟨cur,current,cases⟩ := append_cases appended
  refine ⟨cur,current,?_⟩
  rcases cases with ⟨room,rfl⟩ | ⟨next,origin,rfl⟩
  · exact .inl ⟨room,rfl⟩
  · refine .inr ⟨next,?_,rfl⟩
    rcases origin with present | rfl
    · rcases pool.next with ⟨b,same,empty⟩ | ⟨absent,_⟩
      · cases present.symm.trans same; exact empty
      · rw [absent] at present; contradiction
    · rfl

theorem appendLog_pool (pool : Pool s) (ran : appendLog s message = some t) : Pool t := by
  obtain ⟨cur,_,⟨_,rfl⟩ | ⟨next,_,rfl⟩⟩ := appendLog_cases pool ran
  · exact ⟨rfl,pool.next,pool.buffers,pool.worker⟩
  · refine ⟨rfl,.inr ⟨rfl,by simp⟩,?_,pool.worker⟩
    intro p member
    rcases List.mem_append.mp member with old | new
    · exact pool.buffers p old
    · rw [List.mem_singleton.mp new]; rfl

theorem worker_idle (pool : Pool s) (idle : ∀ i, s.pc ≠ .write i) :
    s.bufferToWrite = [] ∧ Spare s.replaceBuffer1 ∧ Spare s.replaceBuffer2 := by
  have owns := pool.worker
  unfold WorkerOwns at owns
  split at owns
  next i writing => exact absurd writing (idle i)
  next => exact owns

theorem swap_pool (pool : Pool s) (idle : ∀ i, s.pc ≠ .write i) : Pool (swap s) := by
  obtain ⟨empty,spare1,spare2⟩ := worker_idle pool idle
  have filled : ∀ p ∈ s.m_buffers ++ [s.m_curBuffer], p.isSome := by
    intro p member
    rcases List.mem_append.mp member with old | new
    · exact pool.buffers p old
    · rw [List.mem_singleton.mp new]; exact pool.current
  refine ⟨spare_isSome spare1,?_,by simp [swap,empty],?_⟩
  · rcases pool.next with spare | ⟨absent,_⟩
    · exact .inl (by simpa [swap,spare_ne_none spare] using spare)
    · exact .inl (by simpa [swap,absent] using spare2)
  · refine ⟨Nat.zero_le _,by simp [swap],filled,rfl,?_⟩
    rcases pool.next with spare | ⟨absent,queued⟩
    · exact .inl (by simpa [swap,spare_ne_none spare] using spare2)
    · refine .inr ⟨by simp [swap,absent],?_⟩
      have := List.length_pos_iff.mpr queued
      simp only [swap,List.length_append,List.length_singleton]
      omega

/-- A non-empty queue of buffers always refills an empty spare slot. -/
theorem refill_total (spare : BufferPtr) (queue : List BufferPtr) (filled : ∀ p ∈ queue, p.isSome)
    (available : Spare spare ∨ spare = none ∧ queue ≠ []) :
    ∃ b rest, refill spare queue = some (b,rest) ∧ Spare b ∧
      (rest = queue ∨ rest = queue.dropLast) := by
  rcases available with ⟨b,rfl,empty⟩ | ⟨rfl,nonempty⟩
  · exact ⟨_,_,rfl,⟨b,rfl,empty⟩,.inl rfl⟩
  · obtain ⟨b,last⟩ := Option.isSome_iff_exists.mp (filled _ (List.getLast_mem nonempty))
    refine ⟨some b.reset,queue.dropLast,?_,⟨_,rfl,rfl⟩,.inr rfl⟩
    simp [refill,List.getLast?_eq_some_getLast nonempty,last]

theorem refill_length (taken : refill spare queue = some (b,rest)) :
    queue.length - 1 ≤ rest.length := by
  cases spare with
  | some held =>
    simp only [refill,Option.some.injEq,Prod.mk.injEq] at taken
    rw [taken.2]; omega
  | none =>
    simp only [refill] at taken
    split at taken
    · simp only [Option.some.injEq,Prod.mk.injEq] at taken
      simp [← taken.2]
    · contradiction

def resized (queue : List BufferPtr) : List BufferPtr :=
  if queue.length > 2 then queue.take 2 else queue

theorem resized_eq (queue : List BufferPtr) : resized queue = queue.take 2 := by
  unfold resized
  split
  · rfl
  · exact (List.take_of_length_le (by omega)).symm

theorem recycle_eq (s : State) : recycle s =
    (refill s.replaceBuffer1 (resized s.bufferToWrite)).bind fun first =>
      (refill s.replaceBuffer2 first.2).map fun second =>
        { s with
          replaceBuffer1 := first.1
          replaceBuffer2 := second.1
          bufferToWrite := []
          pc := .head } := rfl

/-- The recycling steps find the buffers they take: one always, a second one
whenever `m_nextBuffer` had been used up before the swap. -/
theorem recycle_total (pool : Pool s) (writing : s.pc = .write i) :
    ∃ b₁ b₂, Spare b₁ ∧ Spare b₂ ∧ recycle s = some { s with
      replaceBuffer1 := b₁
      replaceBuffer2 := b₂
      bufferToWrite := []
      pc := .head } := by
  have owns := pool.worker
  simp only [WorkerOwns,writing] at owns
  obtain ⟨_,nonempty,filled,moved,second⟩ := owns
  have keptFilled : ∀ p ∈ resized s.bufferToWrite, p.isSome := by
    rw [resized_eq]
    exact fun p member => filled p (List.mem_of_mem_take member)
  have keptLength : (resized s.bufferToWrite).length = min 2 s.bufferToWrite.length := by
    rw [resized_eq,List.length_take]
  have positive := List.length_pos_iff.mpr nonempty
  obtain ⟨b₁,rest,first,spare1,restOf⟩ := refill_total s.replaceBuffer1 (resized s.bufferToWrite) keptFilled
    (.inr ⟨moved,by apply List.ne_nil_of_length_pos; omega⟩)
  have restFilled : ∀ p ∈ rest, p.isSome := by
    rcases restOf with rfl | rfl
    · exact keptFilled
    · exact fun p member => keptFilled p (List.dropLast_subset _ member)
  have restLength := refill_length first
  obtain ⟨b₂,last,secondRefill,spare2,_⟩ := refill_total s.replaceBuffer2 rest restFilled
    (second.imp_right fun h => ⟨h.1,by apply List.ne_nil_of_length_pos; omega⟩)
  refine ⟨b₁,b₂,spare1,spare2,?_⟩
  simp [recycle_eq,first,secondRefill]

/-- What one worker step does in a pool. -/
theorem backend_cases (pool : Pool s) (ran : backend s = some t) :
    (s.pc = .head ∧ t = { s with pc := if s.m_run then .lock else .finished }) ∨
    (s.pc = .lock ∧ s.m_buffers = [] ∧ t = { s with pc := .wait }) ∨
    ((s.pc = .lock ∧ s.m_buffers ≠ [] ∨ s.pc = .wait) ∧ t = swap s) ∨
    (∃ i b, s.pc = .write i ∧ s.bufferToWrite[i]? = some (some b) ∧
      t = { s with writes := s.writes ++ [b.contents], pc := .write (i + 1) }) ∨
    (∃ i b₁ b₂, s.pc = .write i ∧ s.bufferToWrite[i]? = none ∧ Spare b₁ ∧ Spare b₂ ∧
      t = { s with
        replaceBuffer1 := b₁
        replaceBuffer2 := b₂
        bufferToWrite := []
        pc := .head }) := by
  cases pc : s.pc with
  | head => simp only [backend,pc,Option.some.injEq] at ran; exact .inl ⟨rfl,ran.symm⟩
  | lock =>
    by_cases empty : s.m_buffers = []
    · simp only [backend,pc,empty,List.isEmpty_nil,↓reduceIte,Option.some.injEq] at ran
      exact .inr (.inl ⟨rfl,empty,by simp [← ran,empty]⟩)
    · simp only [backend,pc,List.isEmpty_iff,empty,↓reduceIte,Option.some.injEq] at ran
      exact .inr (.inr (.inl ⟨.inl ⟨rfl,empty⟩,ran.symm⟩))
  | wait =>
    simp only [backend,pc,Option.some.injEq] at ran
    exact .inr (.inr (.inl ⟨.inr rfl,ran.symm⟩))
  | write i =>
    rcases item : s.bufferToWrite[i]? with _ | _ | b
    · obtain ⟨b₁,b₂,spare1,spare2,total⟩ := recycle_total pool pc
      simp only [backend,pc,item,total,Option.some.injEq] at ran
      exact .inr (.inr (.inr (.inr ⟨i,b₁,b₂,rfl,item,spare1,spare2,ran.symm⟩)))
    · simp [backend,pc,item] at ran
    · simp only [backend,pc,item,Option.some.injEq] at ran
      exact .inr (.inr (.inr (.inl ⟨i,b,rfl,item,ran.symm⟩)))
  | finished => simp [backend,pc] at ran

theorem backend_pool (pool : Pool s) (ran : backend s = some t) : Pool t := by
  rcases backend_cases pool ran with ⟨pc,rfl⟩ | ⟨pc,_,rfl⟩ | ⟨pc,rfl⟩ | ⟨i,b,pc,item,rfl⟩ |
    ⟨i,b₁,b₂,pc,_,spare1,spare2,rfl⟩
  · have idle := worker_idle pool (by simp [pc])
    refine ⟨pool.current,pool.next,pool.buffers,?_⟩
    cases running : s.m_run <;> simpa [WorkerOwns,running] using idle
  · have idle := worker_idle pool (by simp [pc])
    exact ⟨pool.current,pool.next,pool.buffers,idle⟩
  · exact swap_pool pool (by rcases pc with ⟨pc,_⟩ | pc <;> simp [pc])
  · have owns := pool.worker
    simp only [WorkerOwns,pc] at owns
    have bound := (List.getElem?_eq_some_iff.mp item).choose
    exact ⟨pool.current,pool.next,pool.buffers,bound,owns.2⟩
  · exact ⟨pool.current,pool.next,pool.buffers,rfl,spare1,spare2⟩

theorem step_pool (pool : Pool s) (ran : step s a = some t) : Pool t := by
  cases a with
  | append message => exact appendLog_pool pool ran
  | backend => exact backend_pool pool ran
  | stop =>
    simp only [step,Option.ite_none_right_eq_some,Option.some.injEq] at ran
    obtain ⟨_,rfl⟩ := ran
    exact ⟨pool.current,pool.next,pool.buffers,pool.worker⟩

theorem reachable_pool (reach : Reachable s) : Pool s :=
  reach.invariant step Pool (fun _ _ _ pool ran => step_pool pool ran) start_pool

/-- No `append` section dereferences a null buffer. -/
theorem append_enabled (reach : Reachable s) (message : Text) :
    ∃ t, step s (.append message) = some t := by
  obtain ⟨cur,current⟩ := Option.isSome_iff_exists.mp (reachable_pool reach).current
  simp only [step,appendLog,append,current]
  split <;> exact ⟨_,rfl⟩

theorem backend_enabled (reach : Reachable s) (live : s.pc ≠ .finished) :
    ∃ t, step s .backend = some t := by
  have pool := reachable_pool reach
  cases pc : s.pc with
  | head => exact ⟨_,by simp [step,backend,pc]; rfl⟩
  | lock => simp only [step,backend,pc]; split <;> exact ⟨_,rfl⟩
  | wait => exact ⟨_,by simp [step,backend,pc]; rfl⟩
  | write i =>
    have owns := pool.worker
    simp only [WorkerOwns,pc] at owns
    rcases item : s.bufferToWrite[i]? with _ | _ | b
    · obtain ⟨_,_,_,_,total⟩ := recycle_total pool pc
      exact ⟨_,by simp [step,backend,pc,item,total]; rfl⟩
    · exact absurd (owns.2.2.1 _ (List.mem_of_getElem? item)) (by simp)
    · exact ⟨_,by simp [step,backend,pc,item]; rfl⟩
  | finished => exact absurd pc live

end Myriel.AsyncLog

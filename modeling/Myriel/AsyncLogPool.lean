import Myriel.AsyncLogStop

/-! What `append` and the worker rely on without testing it: the pool of four buffers
never runs dry, and the buffer a message meets has room for it unless none could. -/
namespace Myriel.AsyncLog

/-- Everything the code takes for granted between two critical sections. -/
structure NeverDry (s : State) : Prop where
  current : s.m_curBuffer ≠ none
  queued : none ∉ s.m_buffers
  writing : none ∉ s.bufferToWrite
  next : s.m_nextBuffer = none ∨ Spare s.m_nextBuffer
  /-- each iteration starts, and swaps, with both spare buffers empty and at hand -/
  spares : (∀ i, s.pc ≠ .write i) → Spare s.replaceBuffer1 ∧ Spare s.replaceBuffer2
  /-- a used up `m_nextBuffer` is found by a swap of two buffers or more -/
  swapped : Committed s → s.m_nextBuffer = none → 2 ≤ (swap s).bufferToWrite.length
  /-- `back` and `pop_back` for the first spare buffer -/
  recycled1 : s.pc = .write i → s.replaceBuffer1 = none → resized s.bufferToWrite ≠ []
  /-- and for the second one, after the first -/
  recycled2 : s.pc = .write i → refill s.replaceBuffer1 (resized s.bufferToWrite) = some (b,rest) →
    s.replaceBuffer2 = none → rest ≠ []

/-- Which buffers a step can make `m_curBuffer` or `m_nextBuffer`: `m_curBuffer` stays and
may take a message, or an empty buffer takes its place, before the message if there is one. -/
structure Handover (s : State) (a : Action) (t : State) : Prop where
  current : t.m_curBuffer = s.m_curBuffer ∨ Spare t.m_curBuffer ∨
    ∃ message b, a = .append message ∧ (s.m_curBuffer = some b ∨ b.m_cur = 0) ∧
      t.m_curBuffer = some (b.append message (toSizeT (toInt message.length)))
  next : t.m_nextBuffer = s.m_nextBuffer ∨ t.m_nextBuffer = none ∨ Spare t.m_nextBuffer

theorem filled_iff (queue : List BufferPtr) : (∀ p ∈ queue, p.isSome) ↔ none ∉ queue := by
  constructor
  · intro filled absent
    exact absurd (filled none absent) (by simp)
  · intro filled p member
    cases p with
    | none => exact absurd member filled
    | some b => rfl

theorem pool_dry (pool : Pool s) : NeverDry s := by
  constructor
  · exact Option.isSome_iff_ne_none.mp pool.current
  · exact (filled_iff _).mp pool.buffers
  · have owns := pool.worker
    unfold WorkerOwns at owns
    split at owns
    · exact (filled_iff _).mp owns.2.2.1
    · simp [owns.1]
  · exact pool.next.symm.imp_left And.left
  · exact fun idle => (worker_idle pool idle).2
  · intro committed used
    rcases pool.next with spare | ⟨_,queued⟩
    · exact absurd used (spare_ne_none spare)
    · have := List.length_pos_iff.mpr queued
      simp only [swap,List.length_append,List.length_singleton]
      omega
  · intro i writing _
    have owns := pool.worker
    simp only [WorkerOwns,writing] at owns
    have positive := List.length_pos_iff.mpr owns.2.1
    apply List.ne_nil_of_length_pos
    simp only [resized_eq,List.length_take]
    omega
  · intro i b rest writing taken used
    have owns := pool.worker
    simp only [WorkerOwns,writing] at owns
    rcases owns.2.2.2.2 with spare | ⟨_,two⟩
    · exact absurd used (spare_ne_none spare)
    · have left := refill_length taken
      simp only [resized_eq,List.length_take] at left
      apply List.ne_nil_of_length_pos
      omega

theorem step_handover (pool : Pool s) (ran : step s a = some t) : Handover s a t := by
  cases a with
  | append message =>
    obtain ⟨cur,current,⟨_,rfl⟩ | ⟨next,empty,rfl⟩⟩ := appendLog_cases pool ran
    · exact ⟨.inr (.inr ⟨message,cur,rfl,.inl current,rfl⟩),.inl rfl⟩
    · exact ⟨.inr (.inr ⟨message,next,rfl,.inr empty,rfl⟩),.inr (.inl rfl)⟩
  | backend =>
    rcases backend_cases pool ran with ⟨_,rfl⟩ | ⟨_,_,rfl⟩ | ⟨pc,rfl⟩ | ⟨_,_,_,_,rfl⟩ |
      ⟨_,_,_,_,_,_,_,rfl⟩
    · exact ⟨.inl rfl,.inl rfl⟩
    · exact ⟨.inl rfl,.inl rfl⟩
    · have idle : ∀ i, s.pc ≠ .write i := by rcases pc with ⟨pc,_⟩ | pc <;> simp [pc]
      obtain ⟨_,spare1,spare2⟩ := worker_idle pool idle
      refine ⟨.inr (.inl spare1),?_⟩
      cases next : s.m_nextBuffer with
      | none => exact .inr (.inr (by simpa [swap,next] using spare2))
      | some b => exact .inl (by simp [swap,next])
    · exact ⟨.inl rfl,.inl rfl⟩
    · exact ⟨.inl rfl,.inl rfl⟩
  | stop =>
    simp only [step,Option.ite_none_right_eq_some,Option.some.injEq] at ran
    obtain ⟨_,rfl⟩ := ran
    exact ⟨.inl rfl,.inl rfl⟩

/-- In every reachable state the pool has a buffer for whoever needs one next, and
each step out of it hands over empty buffers only. -/
theorem pool_never_dry (reach : Reachable s) :
    NeverDry s ∧ ∀ a t, step s a = some t → Handover s a t := by
  have pool := reachable_pool reach
  exact ⟨pool_dry pool,fun _ _ ran => step_handover pool ran⟩

theorem held_length (b : Buffer) : (held (some b)).length = b.m_cur := by
  have := b.size_data
  have := b.cur_le
  simp only [held,FixBuffer.contents,FixBuffer.length,List.length_take]
  omega

theorem append_full {cur : Buffer} (ran : appendLog s message = some t) (current : s.m_curBuffer = some cur)
    (closed : t.m_buffers ≠ s.m_buffers) : (cur.avail : Int) ≤ toInt message.length := by
  obtain ⟨middle,appended,rfl⟩ := Option.map_eq_some_iff.mp ran
  by_contra room
  refine closed ?_
  have fits : (cur.avail : Int) > toInt message.length := by omega
  simp only [append,current,fits,if_true,Option.some.injEq] at appended
  subst middle
  rfl

/-- A message that leaves one byte of a buffer free, and one of a byte: the second one finds the buffer
full and takes `m_nextBuffer`. -/
theorem overflow_runs (size : message.length + 1 = LargeBuffer) : ∃ s,
    Transition.run step start [.append message,.append ['a']] = some s ∧ s.appended = [message,['a']] ∧
    s.m_buffers.length = 1 ∧ s.m_nextBuffer = none ∧ s.m_run = true ∧ s.pc = .head := by
  have len : toInt message.length = message.length := toInt_small _ (by unfold LargeBuffer at size; omega)
  obtain ⟨s,first⟩ := append_enabled (.start step start) message
  have reach : Reachable s := (Transition.Reachable.start step start).next step first
  obtain ⟨t,second⟩ := append_enabled reach ['a']
  refine ⟨t,by simp [Transition.run,first,second],?_⟩
  obtain ⟨new,current,⟨room,rfl⟩ | ⟨next,_,rfl⟩⟩ := appendLog_cases start_pool first
  · have grown := append_stored new message (.inl room)
    cases current
    rw [FixBuffer.new_contents,List.nil_append,stored_short message (by omega)] at grown
    have used := held_length ((FixBuffer.new LargeBuffer).append message (toSizeT (toInt message.length)))
    rw [held,grown] at used
    obtain ⟨cur,current,⟨room,rfl⟩ | ⟨next,_,rfl⟩⟩ := appendLog_cases (reachable_pool reach) second
    · obtain rfl := Option.some.inj current
      have one : toInt ['a'].length = 1 := by decide
      rw [one,FixBuffer.avail,← used] at room
      omega
    · exact ⟨rfl,rfl,rfl,rfl,rfl⟩
  · cases current
    have full := append_full first rfl (by simp)
    rw [len] at full
    simp only [FixBuffer.avail,FixBuffer.new] at full
    omega

theorem exists_filling : ∃ message : Text, message.length + 1 = LargeBuffer :=
  ⟨List.replicate (LargeBuffer - 1) 'x',by rw [List.length_replicate]; rfl⟩

/-- The worker has just swapped two buffers, and `m_nextBuffer` had been used up before. -/
theorem pool_never_dry_swapped : ∃ s, Reachable s ∧ s.pc = .write 0 ∧ s.bufferToWrite.length = 2 ∧
    s.replaceBuffer2 = none ∧ NeverDry s ∧ ∀ a t, step s a = some t → Handover s a t := by
  obtain ⟨message,size⟩ := exists_filling
  obtain ⟨s,ran,_,waiting,used,running,head⟩ := overflow_runs size
  have taken : step s .backend = some { s with pc := .lock } := by simp [step,backend,head,running]
  have queued : s.m_buffers.isEmpty = false := by
    rw [List.isEmpty_eq_false_iff]
    exact List.ne_nil_of_length_pos (by omega)
  have swapped : step { s with pc := .lock } .backend = some (swap { s with pc := .lock }) := by
    simp [step,backend,queued]
  have reach := ((show Reachable s from ⟨_,ran⟩).next step taken).next step swapped
  exact ⟨_,reach,rfl,by simp [swap,waiting],by simp [swap,used],pool_never_dry reach⟩

theorem stored_iff (message : Text) : stored message = message ↔ message.length < LargeBuffer := by
  constructor
  · intro whole
    have size := stored_length message
    rw [whole] at size
    split at size
    · omega
    · have positive : 0 < LargeBuffer := by decide
      omega
  · exact stored_short message

theorem append_pending (pool : Pool s) (ran : appendLog s message = some t) :
    pending t = pending s ++ stored message := by
  obtain ⟨cur,current,⟨room,rfl⟩ | ⟨next,empty,rfl⟩⟩ := appendLog_cases pool ran
  · have grown := append_stored cur message (.inl room)
    simp [pending,shared,current,held,grown]
  · have grown := append_stored next message (.inr empty)
    rw [next.contents_empty empty,List.nil_append] at grown
    simp [pending,shared,current,held,grown]

/-- In every reachable state `log` adds the whole message exactly when it is shorter
than a buffer; any longer one is not stored whole, and nothing reports it. -/
theorem append_accepts_iff (reach : Reachable s) (message : Text) :
    (∃ t, step s (.append message) = some t ∧ pending t = pending s ++ message) ↔
      message.length < LargeBuffer := by
  obtain ⟨t,ran⟩ := append_enabled reach message
  have added := append_pending (reachable_pool reach) ran
  rw [← stored_iff]
  constructor
  · rintro ⟨other,same,whole⟩
    cases ran.symm.trans same
    exact List.append_cancel_left (added.symm.trans whole)
  · intro whole
    exact ⟨t,ran,by rw [added,whole]⟩

theorem append_accepts_short :
    ∃ t, step start (.append ['a']) = some t ∧ pending t = pending start ++ ['a'] :=
  (append_accepts_iff (Transition.Reachable.start step start) ['a']).mpr (by decide)

theorem append_full_message : ∃ message : Text, message.length = LargeBuffer ∧ ∃ t,
    step start (.append message) = some t ∧ pending t ≠ pending start ++ message := by
  have size : (List.replicate LargeBuffer 'x').length = LargeBuffer := List.length_replicate
  generalize List.replicate LargeBuffer 'x' = message at size
  obtain ⟨t,ran⟩ := append_enabled (Transition.Reachable.start step start) message
  refine ⟨message,size,t,ran,fun whole => ?_⟩
  have added := append_pending start_pool ran
  have same := (stored_iff message).mp (List.append_cancel_left (added.symm.trans whole))
  omega

end Myriel.AsyncLog

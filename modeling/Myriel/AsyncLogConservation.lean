import Myriel.AsyncLog

/-! Conservation of the logged bytes. Every buffer on its way to the file holds a
block of consecutive messages; what a message contributes is decided by its length
after the conversion to `int`, which the two length checks then agree on. -/
namespace Myriel.AsyncLog

/-- What `append` keeps of a message. -/
def stored (message : Text) : Text :=
  let len := toInt message.length
  if 0 ≤ len ∧ len < LargeBuffer then message.take len.toNat else []

theorem stored_short (message : Text) (short : message.length < LargeBuffer) :
    stored message = message := by
  have same := toInt_small message.length (by unfold LargeBuffer at short; omega)
  have bounds : (0 : Int) ≤ message.length ∧ (message.length : Int) < LargeBuffer := by omega
  simp [stored,same,bounds]

/-- A message too long for any buffer whose length, cut to an `int`, would fit one. -/
def Truncated (message : Text) : Prop :=
  LargeBuffer ≤ message.length ∧ 0 < toInt message.length ∧ toInt message.length < LargeBuffer

theorem stored_length (message : Text) :
    (stored message).length =
      if 0 ≤ toInt message.length ∧ toInt message.length < LargeBuffer
      then (toInt message.length).toNat else 0 := by
  have := toInt_le message.length
  simp only [stored]
  split
  · simp only [List.length_take]; omega
  · rfl

/-- The message as the appender promises to keep it: whole, or not at all. -/
def kept (message : Text) : Text := if message.length < LargeBuffer then message else []

theorem stored_eq_kept_iff (message : Text) : stored message = kept message ↔ ¬ Truncated message := by
  by_cases short : message.length < LargeBuffer
  · simp only [kept,short,↓reduceIte,stored_short message short,Truncated,true_iff]
    omega
  · simp only [kept,short,↓reduceIte,← List.length_eq_zero_iff,stored_length,Truncated]
    split <;> omega

theorem kept_le_stored (message : Text) : (kept message).length ≤ (stored message).length := by
  by_cases short : message.length < LargeBuffer
  · simp [kept,short,stored_short message short]
  · simp [kept,short]

theorem append_stored (cur : Buffer) (message : Text)
    (placed : (cur.avail : Int) > toInt message.length ∨ cur.m_cur = 0) :
    (cur.append message (toSizeT (toInt message.length))).contents = cur.contents ++ stored message := by
  have upper := toInt_upper message.length
  have within := toInt_le message.length
  have avail : cur.avail = LargeBuffer - cur.m_cur := rfl
  have large : LargeBuffer < 2 ^ 31 := by decide
  by_cases negative : toInt message.length < 0
  · have beyond := toSizeT_negative _ negative (toInt_lower _)
    have unfit : ¬ (0 ≤ toInt message.length ∧ toInt message.length < LargeBuffer) := by omega
    rw [FixBuffer.append_full _ _ _ (by omega)]
    simp [stored,unfit]
  · have size := toSizeT_nonneg _ (by omega) upper
    by_cases fits : toInt message.length < cur.avail
    · rw [FixBuffer.append_contents _ _ _ (by omega) (by omega)]
      have bounds : 0 ≤ toInt message.length ∧ toInt message.length < LargeBuffer := by omega
      have same : toSizeT (toInt message.length) = (toInt message.length).toNat := by omega
      simp [stored,bounds,same]
    · rw [FixBuffer.append_full _ _ _ (by omega)]
      have unfit : ¬ (0 ≤ toInt message.length ∧ toInt message.length < LargeBuffer) := by omega
      simp [stored,unfit]

theorem step_pipeline (pool : Pool s) (ran : step s a = some t) :
    (t.appended = s.appended ∧ (pipeline t = pipeline s ∨ pipeline t = pipeline s ++ [[]])) ∨
    ∃ message, t.appended = s.appended ++ [message] ∧
      ((∃ front last, pipeline s = front ++ [last] ∧
          pipeline t = front ++ [last ++ stored message]) ∨
        pipeline t = pipeline s ++ [stored message]) := by
  cases a with
  | append message =>
    obtain ⟨cur,current,⟨room,rfl⟩ | ⟨next,empty,rfl⟩⟩ := appendLog_cases pool ran
    · have grown := append_stored cur message (.inl room)
      refine .inr ⟨message,rfl,.inl ⟨s.writes ++ (unwritten s ++ s.m_buffers).map held,cur.contents,?_,?_⟩⟩
      · simp [pipeline,shared,current,held]
      · simp [pipeline,shared,held,unwritten,grown]
    · have grown := append_stored next message (.inr empty)
      rw [next.contents_empty empty,List.nil_append] at grown
      refine .inr ⟨message,rfl,.inr ?_⟩
      simp [pipeline,shared,current,held,unwritten,grown]
  | backend =>
    left
    rcases backend_cases pool ran with ⟨pc,rfl⟩ | ⟨pc,_,rfl⟩ | ⟨pc,rfl⟩ | ⟨i,b,pc,item,rfl⟩ |
      ⟨i,b₁,b₂,pc,item,_,_,rfl⟩
    · refine ⟨rfl,.inl ?_⟩
      cases s.m_run <;> simp [pipeline,shared,unwritten,pc]
    · exact ⟨rfl,.inl (by simp [pipeline,shared,unwritten,pc])⟩
    · have idle : ∀ i, s.pc ≠ .write i := by rcases pc with ⟨pc,_⟩ | pc <;> simp [pc]
      obtain ⟨empty,spare1,_⟩ := worker_idle pool idle
      have outside : unwritten s = [] := by rcases pc with ⟨pc,_⟩ | pc <;> simp [unwritten,pc]
      refine ⟨rfl,.inr ?_⟩
      rw [pipeline,pipeline,outside]
      simp [shared,swap,unwritten,empty,spare_held spare1]
    · refine ⟨rfl,.inl ?_⟩
      obtain ⟨bound,get⟩ := List.getElem?_eq_some_iff.mp item
      simp [pipeline,shared,unwritten,pc,List.drop_eq_getElem_cons bound,get,held]
    · refine ⟨rfl,.inl ?_⟩
      have done : s.bufferToWrite.drop i = [] :=
        List.drop_eq_nil_of_le (List.getElem?_eq_none_iff.mp item)
      simp [pipeline,shared,unwritten,pc,done]
  | stop =>
    simp only [step,Option.ite_none_right_eq_some,Option.some.injEq] at ran
    obtain ⟨_,rfl⟩ := ran
    exact .inl ⟨rfl,.inl rfl⟩

/-- The bytes a list of messages leaves in a buffer. -/
def block (keep : Text → Text) (messages : List Text) : Text := (messages.map keep).flatten

/-- The appended messages, cut into consecutive blocks, are what the buffers hold. -/
def Blocks (keep : Text → Text) (s : State) : Prop :=
  ∃ blocks : List (List Text), blocks.flatten = s.appended ∧
    pipeline s = blocks.map (block keep)

theorem step_blocks (pool : Pool s) (blocks : Blocks stored s) (ran : step s a = some t) :
    Blocks stored t := by
  obtain ⟨cuts,messages,buffers⟩ := blocks
  rcases step_pipeline pool ran with ⟨same,grown⟩ | ⟨message,longer,grown⟩
  · rcases grown with grown | grown
    · exact ⟨cuts,by rw [messages,same],by rw [grown,buffers]⟩
    · exact ⟨cuts ++ [[]],by simp [messages,same],by simp [grown,buffers,block]⟩
  · rcases grown with ⟨front,last,before,after⟩ | after
    · -- the last block takes the message
      have split := buffers.symm.trans before
      obtain ⟨left,right,rfl,leftMap,rightMap⟩ := List.map_eq_append_iff.mp split
      obtain ⟨final,rfl,finalBlock⟩ := List.map_eq_singleton_iff.mp rightMap
      refine ⟨left ++ [final ++ [message]],?_,?_⟩
      · simp [longer,← messages]
      · simp [after,leftMap,← finalBlock,block]
    · exact ⟨cuts ++ [[message]],by simp [messages,longer],by simp [after,buffers,block]⟩

theorem start_blocks : Blocks stored start :=
  ⟨[[]],rfl,by simp [pipeline,shared,unwritten,start,held,block]⟩

/-- In every reachable state the buffers hold what was stored, in lock order. -/
theorem reachable_blocks (reach : Reachable s) : Blocks stored s :=
  (reach.invariant step (fun s => Pool s ∧ Blocks stored s)
    (fun _ _ _ both ran => ⟨step_pool both.1 ran,step_blocks both.1 both.2 ran⟩)
    ⟨start_pool,start_blocks⟩).2

/-- Nothing is lost, duplicated, split, reordered or mixed with stale bytes. -/
structure Conserved (s : State) : Prop where
  /-- file, unwritten part of `BufferToWrite`, `m_buffers` and `m_curBuffer` together -/
  bytes : file s ++ ((unwritten s).map held).flatten ++ (s.m_buffers.map held).flatten ++
    held s.m_curBuffer = (s.appended.filter (·.length < LargeBuffer)).flatten
  /-- the cuts between buffers lie between messages, and the file ends at one of them -/
  boundaries : Blocks kept s

theorem pipeline_bytes (s : State) : (pipeline s).flatten =
    file s ++ ((unwritten s).map held).flatten ++ (s.m_buffers.map held).flatten ++
      held s.m_curBuffer := by
  simp [pipeline,shared,file]

theorem blocks_bytes (blocks : Blocks keep s) : (pipeline s).flatten = block keep s.appended := by
  obtain ⟨cuts,messages,buffers⟩ := blocks
  rw [buffers,← messages]
  clear buffers messages
  induction cuts with
  | nil => rfl
  | cons cut cuts ih => simpa [block] using ih

theorem kept_filter (messages : List Text) :
    block kept messages = (messages.filter (·.length < LargeBuffer)).flatten := by
  induction messages with
  | nil => rfl
  | cons message messages ih =>
    simp only [block] at ih
    by_cases short : message.length < LargeBuffer <;> simp [block,kept,short,ih]

theorem stored_kept_length (messages : List Text) :
    (block kept messages).length ≤ (block stored messages).length ∧
    ((block kept messages).length = (block stored messages).length →
      ∀ message ∈ messages, ¬ Truncated message) := by
  induction messages with
  | nil => simp [block]
  | cons message messages ih =>
    have here := kept_le_stored message
    simp only [block,List.map_cons,List.flatten_cons,List.length_append] at ih ⊢
    refine ⟨by omega,fun equal => ?_⟩
    have short := List.forall_mem_cons (p := fun message => ¬ Truncated message) (a := message) (l := messages)
    refine short.mpr ⟨?_,ih.2 (by omega)⟩
    rw [← stored_eq_kept_iff]
    by_cases small : message.length < LargeBuffer
    · simp [kept,small,stored_short message small]
    · simp only [kept,small,↓reduceIte] at equal here ⊢
      exact List.length_eq_zero_iff.mp (by simp only [List.length_nil] at equal; omega)

theorem blocks_kept (whole : ∀ message ∈ s.appended, ¬ Truncated message)
    (blocks : Blocks stored s) : Blocks kept s := by
  obtain ⟨cuts,messages,buffers⟩ := blocks
  refine ⟨cuts,messages,buffers.trans ?_⟩
  refine List.map_congr_left fun cut member => ?_
  refine congrArg List.flatten (List.map_congr_left fun message inside => ?_)
  refine (stored_eq_kept_iff message).mpr (whole message ?_)
  rw [← messages]
  exact List.mem_flatten.mpr ⟨cut,member,inside⟩

/-- In each state of each run: the file, the buffers and the pending bytes are the
messages shorter than a buffer, whole and in lock order, exactly as long as no
longer message was cut to a length that fits. -/
theorem conserved_iff (actions : List Action) (ran : Transition.run step start actions = some s) :
    Conserved s ↔ ∀ message ∈ s.appended, ¬ Truncated message := by
  have blocks := reachable_blocks ⟨actions,ran⟩
  constructor
  · intro conserved
    have promised := blocks_bytes conserved.boundaries
    have actual := blocks_bytes blocks
    exact (stored_kept_length s.appended).2 (by rw [← promised,← actual])
  · intro whole
    have boundaries := blocks_kept whole blocks
    refine ⟨?_,boundaries⟩
    rw [← pipeline_bytes,blocks_bytes boundaries,kept_filter]

theorem conserved_two_messages : ∃ s,
    Transition.run step start [.append ['a'],.backend,.backend,.backend,.append ['b']] = some s ∧
    s.appended = [['a'],['b']] ∧ Conserved s := by
  refine ⟨_,rfl,rfl,(conserved_iff [.append ['a'],.backend,.backend,.backend,.append ['b']] rfl).mpr ?_⟩
  change ∀ message ∈ [['a'],['b']], ¬ Truncated message
  simp [Truncated,LargeBuffer]

theorem oversized_stored (message : Text) (size : message.length = 2 ^ 32 + 1) :
    stored message = message.take 1 := by
  have len : toInt message.length = 1 := by rw [size]; decide
  have fits : (1 : Int) < LargeBuffer := by decide
  simp [stored,len,fits]

/-- A message of 2^32 + 1 bytes reaches `append` with length 1: its first byte is
kept although no buffer can hold the message. -/
theorem truncated_message_stored : ∃ s,
    Transition.run step start [.append (List.replicate (2 ^ 32 + 1) 'x')] = some s ∧
    (pipeline s).flatten = ['x'] ∧ ¬ Conserved s := by
  have size : (List.replicate (2 ^ 32 + 1) 'x').length = 2 ^ 32 + 1 := List.length_replicate
  have first : (List.replicate (2 ^ 32 + 1) 'x').take 1 = ['x'] := by rw [List.take_replicate]; rfl
  generalize List.replicate (2 ^ 32 + 1) 'x' = message at size first ⊢
  obtain ⟨s,ran⟩ := append_enabled (Transition.Reachable.start step start) message
  have path : Transition.run step start [.append message] = some s := by
    simp [Transition.run_cons,ran]
  have history : s.appended = [message] := by
    obtain ⟨_,_,⟨_,rfl⟩ | ⟨_,_,rfl⟩⟩ := appendLog_cases start_pool ran <;> rfl
  have bytes : (pipeline s).flatten = ['x'] := by
    rw [blocks_bytes (reachable_blocks ⟨_,path⟩),history]
    simp [block,oversized_stored message size,first]
  refine ⟨s,path,bytes,fun conserved => ?_⟩
  have promised := conserved.bytes
  rw [← pipeline_bytes,bytes,history] at promised
  have long : ¬ message.length < LargeBuffer := by rw [size]; decide
  simp [long] at promised

end Myriel.AsyncLog

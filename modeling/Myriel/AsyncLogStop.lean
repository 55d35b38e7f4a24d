import Myriel.AsyncLogConservation

/-! Stopping the appender. The worker tests `m_run` in the loop head only, so what
is appended after its last swap stays in the shared buffers. -/
namespace Myriel.AsyncLog

/-- Bytes that have left the shared buffers. -/
def swapped (s : State) : Text := (s.writes ++ (unwritten s).map held).flatten

/-- Bytes that only a further swap can bring to the file. -/
def pending (s : State) : Text := ((shared s).map held).flatten

theorem swapped_pending (s : State) : swapped s ++ pending s = (pipeline s).flatten := by
  simp [swapped,pending,pipeline]

/-- The worker has passed the test of `m_run` and not yet swapped. -/
def Committed (s : State) : Prop := s.pc = .lock ∨ s.pc = .wait

instance (s : State) : Decidable (Committed s) := inferInstanceAs (Decidable (_ ∨ _))

/-- The messages appended so far are in the file, whole and in order. -/
def Contains (file : Text) (messages : List Text) : Prop := messages.flatten <+: file

theorem block_stored (messages : List Text) (short : ∀ message ∈ messages, message.length < LargeBuffer) :
    block stored messages = messages.flatten := by
  refine congrArg List.flatten ((List.map_congr_left fun message member => ?_).trans (List.map_id _))
  exact stored_short message (short message member)

theorem step_history (reach : Reachable s) (ran : step s a = some t) : s.appended <+: t.appended := by
  rcases step_pipeline (reachable_pool reach) ran with ⟨same,_⟩ | ⟨message,longer,_⟩
  · exact same ▸ List.prefix_refl _
  · rw [longer]; exact List.prefix_append _ _

theorem step_stopped (pool : Pool s) (stopped : s.m_run = false) (ran : step s a = some t) :
    t.m_run = false := by
  cases a with
  | append message =>
    obtain ⟨_,_,⟨_,rfl⟩ | ⟨_,_,rfl⟩⟩ := appendLog_cases pool ran <;> exact stopped
  | backend =>
    rcases backend_cases pool ran with ⟨_,rfl⟩ | ⟨_,_,rfl⟩ | ⟨_,rfl⟩ | ⟨_,_,_,_,rfl⟩ |
      ⟨_,_,_,_,_,_,_,rfl⟩ <;> exact stopped
  | stop => simp [step,stopped] at ran

/-- A cleared `m_run` lets the worker finish its round but not begin another:
either it is still before the swap, or the swapped bytes no longer change. -/
theorem step_after_stop (pool : Pool s) (stopped : s.m_run = false) (ran : step s a = some t) :
    (Committed s ∧ Committed t) ∨
    (Committed s ∧ ¬ Committed t ∧ t.appended = s.appended ∧ pending t = []) ∨
    (¬ Committed s ∧ ¬ Committed t ∧ swapped t = swapped s) := by
  cases a with
  | append message =>
    obtain ⟨_,_,⟨_,rfl⟩ | ⟨_,_,rfl⟩⟩ := appendLog_cases pool ran
    all_goals
      by_cases committed : Committed s
      · exact .inl ⟨committed,committed⟩
      · exact .inr (.inr ⟨committed,committed,rfl⟩)
  | backend =>
    rcases backend_cases pool ran with ⟨pc,rfl⟩ | ⟨pc,_,rfl⟩ | ⟨pc,rfl⟩ | ⟨i,b,pc,item,rfl⟩ |
      ⟨i,b₁,b₂,pc,item,_,_,rfl⟩
    · refine .inr (.inr ⟨by simp [Committed,pc],by simp [Committed,stopped],?_⟩)
      simp [swapped,unwritten,pc,stopped]
    · exact .inl ⟨.inl pc,.inr rfl⟩
    · have idle : ∀ i, s.pc ≠ .write i := by rcases pc with ⟨pc,_⟩ | pc <;> simp [pc]
      obtain ⟨empty,spare1,_⟩ := worker_idle pool idle
      refine .inr (.inl ⟨pc.imp_left And.left,by simp [Committed,swap],rfl,?_⟩)
      simp [pending,shared,swap,empty,spare_held spare1]
    · refine .inr (.inr ⟨by simp [Committed,pc],by simp [Committed],?_⟩)
      obtain ⟨bound,get⟩ := List.getElem?_eq_some_iff.mp item
      simp [swapped,unwritten,pc,List.drop_eq_getElem_cons bound,get,held]
    · refine .inr (.inr ⟨by simp [Committed,pc],by simp [Committed],?_⟩)
      have done : s.bufferToWrite.drop i = [] :=
        List.drop_eq_nil_of_le (List.getElem?_eq_none_iff.mp item)
      simp [swapped,unwritten,pc,done]
  | stop => simp [step,stopped] at ran

theorem committed_after_stop (messages : List Text) (reach : Reachable s) (stopped : s.m_run = false)
    (history : messages <+: s.appended)
    (carried : Committed s ∨ block stored messages <+: swapped s)
    (ran : Transition.run step s actions = some t) :
    Committed t ∨ block stored messages <+: swapped t := by
  refine (Transition.run_invariant step
    (fun s => Reachable s ∧ s.m_run = false ∧ messages <+: s.appended ∧
      (Committed s ∨ block stored messages <+: swapped s))
    ?_ ⟨reach,stopped,history,carried⟩ ran).2.2.2
  intro s a t ⟨reach,stopped,history,carried⟩ taken
  have pool := reachable_pool reach
  have next := reach.next step taken
  have longer := history.trans (step_history reach taken)
  refine ⟨next,step_stopped pool stopped taken,longer,?_⟩
  rcases step_after_stop pool stopped taken with ⟨_,committed⟩ | ⟨_,_,_,nothing⟩ | ⟨left,_,same⟩
  · exact .inl committed
  · -- the swap leaves nothing pending, so everything stored has left the shared buffers
    refine .inr ?_
    have whole := (swapped_pending t).trans (blocks_bytes (reachable_blocks next))
    rw [nothing,List.append_nil] at whole
    obtain ⟨later,split⟩ := longer
    exact ⟨block stored later,by rw [whole,← split]; simp [block]⟩
  · exact .inr (same ▸ carried.resolve_left left)

theorem uncommitted_after_stop (reach : Reachable s) (stopped : s.m_run = false)
    (left : ¬ Committed s) (ran : Transition.run step s actions = some t) :
    swapped t = swapped s := by
  refine (Transition.run_invariant step
    (fun r => Reachable r ∧ r.m_run = false ∧ ¬ Committed r ∧ swapped r = swapped s)
    ?_ ⟨reach,stopped,left,rfl⟩ ran).2.2.2
  intro r a t ⟨reach,stopped,left,same⟩ taken
  have pool := reachable_pool reach
  refine ⟨reach.next step taken,step_stopped pool stopped taken,?_⟩
  rcases step_after_stop pool stopped taken with ⟨committed,_⟩ | ⟨committed,_⟩ | ⟨_,still,kept⟩
  · exact absurd committed left
  · exact absurd committed left
  · exact ⟨still,kept.trans same⟩

/-- Whether `stop` comes at a moment from which nothing can be lost. -/
def Drains (s : State) : Prop := Committed s ∨ pending s = []

/-- `before` leads to the call of `stop`, `after` to its return, with appends of
other threads still possible in between. -/
theorem stop_contains_iff (before after : List Action)
    (ran : Transition.run step start before = some called)
    (rest : Transition.run step called (.stop :: after) = some returned)
    (short : ∀ message ∈ called.appended, message.length < LargeBuffer)
    (joined : returned.pc = .finished) :
    Contains (file returned) called.appended ↔ Drains called := by
  have reach : Reachable called := ⟨before,ran⟩
  obtain ⟨stopping,taken,later⟩ := (Transition.run_cons_some step).mp rest
  have reachStopping := reach.next step taken
  simp only [step,Option.ite_none_right_eq_some,Option.some.injEq] at taken
  obtain ⟨_,rfl⟩ := taken
  have messages := block_stored called.appended short
  have whole := (swapped_pending called).trans (blocks_bytes (reachable_blocks reach))
  rw [messages] at whole
  have complete : swapped returned = file returned := by simp [swapped,unwritten,joined,file]
  have gone : ¬ Committed returned := by simp [Committed,joined]
  by_cases committed : Committed called
  · have carried := committed_after_stop called.appended reachStopping rfl (List.prefix_refl _)
      (.inl committed) later
    have contained := carried.resolve_left gone
    rw [messages,complete] at contained
    exact iff_of_true contained (.inl committed)
  · have same := uncommitted_after_stop reachStopping rfl committed later
    have written : file returned = swapped called := complete.symm.trans same
    constructor
    · intro contained
      refine .inr (List.length_eq_zero_iff.mp ?_)
      have bound := contained.length_le
      have total := congrArg List.length whole
      rw [written] at bound
      rw [List.length_append] at total
      omega
    · intro drains
      have nothing := drains.resolve_left committed
      rw [nothing,List.append_nil] at whole
      exact ⟨[],by rw [List.append_nil,written,whole]⟩

/-- A worker that has tested `m_run` before the call still writes the message. -/
theorem stop_contains_committed : ∃ called returned,
    Transition.run step start [.append ['a'],.backend] = some called ∧
    Transition.run step called
      (.stop :: [.backend,.backend,.backend,.backend,.backend]) = some returned ∧
    Contains (file returned) called.appended :=
  ⟨_,_,rfl,rfl,(stop_contains_iff [.append ['a'],.backend]
    [.backend,.backend,.backend,.backend,.backend] rfl rfl
    (by change ∀ message ∈ [['a']], message.length < LargeBuffer; simp [LargeBuffer]) rfl).mpr
    (.inl (.inl rfl))⟩

/-- The worker has not reached the loop when `m_run` is cleared: `stop` returns and
the file is empty. -/
theorem stop_before_loop_loses : ∃ called returned,
    Transition.run step start [.append ['a']] = some called ∧
    Transition.run step called [.stop,.backend] = some returned ∧
    returned.pc = .finished ∧ ['a'] ∈ called.appended ∧ ¬ ['a'] <:+: file returned :=
  ⟨_,_,rfl,rfl,rfl,by change ['a'] ∈ [['a']]; simp,by change ¬ ['a'] <:+: []; simp⟩

end Myriel.AsyncLog

import Myriel.RunLoopDrain

/-! Tasks that end with an exception. The handlers of `MainFunc` leave the state `EXEC`,
and the `yield` behind them turns it into `READY`. -/
namespace Myriel.RunLoop

/-- Fibers that have ended are in state `TERM`, no assertion fails, and all is executed. -/
structure Survives (id : ThreadId) (bodies : List Script) (works : List (Work Script × Option ThreadId)) (s : State) :
    Prop where
  terminated : ∀ passes f, ((loop id passes s).fibers f).m_ctx = .ended →
    ((loop id passes s).fibers f).m_state = .TERM
  unfailed : ∀ passes a, (loop id passes s).status ≠ .failed a
  executed : ∃ passes, Executed bodies works (loop id passes s)

theorem Sound.survives (sound : Sound self s) (live : s.status = .running) (progress : Progress bodies works s) :
    Survives self bodies works s where
  terminated := by
    intro passes f ctx
    rw [(sound.always live passes).1.states f,if_pos (by simp [ended,ctx,Context.script])]
  unfailed := fun passes => (sound.always live passes).2
  executed := by
    obtain ⟨passes,drained,_,_,empty⟩ := sound.drains live
    exact ⟨passes,drained.executed (sound.loop_progress progress passes) empty⟩

/-! ### What cannot be survived -/

theorem loop_passes (property : State → Prop)
    (same : ∀ s t, t.queue = s.queue → t.fibers = s.fibers → t.created = s.created →
      property s → property t)
    (preserved : ∀ s t work f script, Orderly self s → property s → Pass s t work f script → property t)
    (orderly : Orderly self s) (initial : property s)
    (unfailed : ∀ a, (loop self passes s).status ≠ .failed a) : property (loop self passes s) := by
  have always : (∃ a, (loop self passes s).status = .failed a) ∨
      Orderly self (loop self passes s) ∧ property (loop self passes s) := by
    apply loop_invariant fun s => (∃ a, s.status = .failed a) ∨ Orderly self s ∧ property s
    · rintro s live (⟨a,failed⟩ | ⟨orderly,holds⟩)
      · rw [live] at failed; cases failed
      · cases first : entries s.queue with
        | nil =>
          refine .inr ⟨orderly_idle orderly first,same s _ ?_ ?_ ?_ holds⟩ <;>
            (rw [iterate_idle first]; split <;> [rfl; (split <;> rfl)])
        | cons entry rest =>
          rcases iterate_task orderly first with failed | ⟨f,script,pass⟩
          · exact .inl failed
          · exact .inr ⟨pass.orderly orderly,preserved s _ _ f script orderly holds pass⟩
    · exact .inr ⟨orderly,initial⟩
  rcases always with ⟨a,failed⟩ | ⟨_,holds⟩
  · exact absurd failed (unfailed a)
  · exact holds

/-- An exception is to come, or has left its fiber outside of `TERM`. -/
def Doomed (s : State) : Prop :=
  (∃ work thread script, (work,thread) ∈ entries s.queue ∧ pending s work = some script ∧
    throwing script = true) ∨
  ∃ f < s.created, (s.fibers f).m_ctx = .ended ∧ (s.fibers f).m_state ≠ .TERM

theorem throwing_segment (task : Rescheduling self script) (throws : throwing script = true)
    (exec : fiber.m_state = .EXEC) :
    (∃ cb thread, (.cb cb,thread) ∈ spawned f script ∧ throwing cb = true) ∨
    (leave script fiber).m_ctx = .ended ∧ (leave script fiber).m_state ≠ .TERM ∨
    ∃ rest thread, (leave script fiber).m_ctx.script = some rest ∧ throwing rest = true ∧
      (.fiber f,thread) ∈ spawned f script := by
  induction task with
  | returns => simp [throwing] at throws
  | throws => exact .inr (.inl (by simp [leave,Fiber.yield,Fiber.setReady_exec,exec]))
  | @schedule thread cb rest _ _ _ _ ih =>
    rw [throwing,Bool.or_eq_true] at throws
    rcases throws with now | later
    · exact .inl ⟨cb,thread,by simp [spawned],now⟩
    · rcases ih later with ⟨other,pin,member,throws⟩ | left | ⟨rest,pin,left,throws,member⟩
      · exact .inl ⟨other,pin,by simp [spawned,member],throws⟩
      · exact .inr (.inl left)
      · exact .inr (.inr ⟨rest,pin,left,throws,by simp [spawned,member]⟩)
  | @again thread rest =>
    exact .inr (.inr ⟨rest,thread,by simp [leave,Fiber.yield,Context.script],
      by simpa [throwing] using throws,by simp [spawned]⟩)

theorem Pass.doomed (pass : Pass s t work f script) (orderly : Orderly self s) (doomed : Doomed s) :
    Doomed t := by
  obtain ⟨thread,rest,first,after⟩ := pass.tasks
  obtain ⟨fiber,exec,fibers⟩ := pass.fibers
  have task := orderly.tasks work thread script (by simp [first]) pass.segment
  have self_left : t.fibers f = leave script fiber := by simp [fibers]
  obtain ⟨fresh,more⟩ := pass.created orderly
  have running (throws : throwing script = true) : Doomed t := by
    rcases throwing_segment (f := f) task throws exec with
      ⟨cb,pin,member,throws⟩ | left | ⟨left,pin,segment,throws,member⟩
    · exact .inl ⟨.cb cb,pin,cb,by simp [after,member],rfl,throws⟩
    · exact .inr ⟨f,fresh,by rwa [self_left]⟩
    · exact .inl ⟨.fiber f,pin,left,by simp [after,member],by rw [pending,self_left,segment],throws⟩
  rcases doomed with ⟨other,pin,left,member,segment,throws⟩ | ⟨g,known,ctx,state⟩
  · by_cases head : other = work
    · subst head
      cases pass.segment.symm.trans segment
      exact running throws
    · have different : other ≠ .fiber f := by
        rintro rfl
        rcases pass.target with ⟨rfl,_⟩ | ⟨_,rfl,_⟩
        · exact head rfl
        · exact absurd (orderly.known _ pin member) (Nat.lt_irrefl _)
      have queued : (other,pin) ∈ rest := by simpa [first,head] using member
      exact .inl ⟨other,pin,left,by simp [after,queued],pass.pending_other different ▸ segment,throws⟩
  · have different : g ≠ f := by
      rintro rfl
      rcases pass.target with ⟨rfl,_⟩ | ⟨_,rfl,_⟩
      · have segment := pass.segment
        simp [pending,ctx,Context.script] at segment
      · exact Nat.lt_irrefl _ known
    exact .inr ⟨g,known.trans_le more,by rw [pass.other different]; exact ⟨ctx,state⟩⟩

theorem Survives.quiet (survives : Survives self bodies tasks (start bodies tasks held m_stopping))
    (submitted : Submitted self bodies tasks) (member : (work,thread) ∈ tasks) :
    throwing (body bodies work) = false := by
  apply Bool.eq_false_iff.mpr
  intro throws
  obtain ⟨passes,executed⟩ := survives.executed
  have doomed : Doomed (loop self passes (start bodies tasks held m_stopping)) := by
    apply loop_passes Doomed
    · intro s t queue fibers created doomed
      unfold Doomed entries pending at doomed ⊢
      rwa [queue,fibers,created]
    · exact fun s t work f script orderly doomed pass => pass.doomed orderly doomed
    · exact start_orderly submitted
    · exact .inl ⟨work,thread,body bodies work,by rwa [entries_start],pending_start work,throws⟩
    · exact survives.unfailed passes
  rcases doomed with ⟨other,pin,script,queued,_⟩ | ⟨f,_,ctx,state⟩
  · simp [entries,executed.empty] at queued
  · exact state (survives.terminated passes f ctx)

theorem Survives.single (survives : Survives self bodies tasks (start bodies tasks held m_stopping))
    (submitted : Submitted self bodies tasks) (f : FiberId) : tickets f tasks ≤ 1 := by
  by_cases known : f < bodies.length
  · obtain ⟨passes,executed⟩ := survives.executed
    have same : bodies.length ≤ (loop self passes (start bodies tasks held m_stopping)).created ∧
        census (loop self passes (start bodies tasks held m_stopping)) f = tickets f tasks := by
      apply loop_passes fun s => bodies.length ≤ s.created ∧ census s f = tickets f tasks
      · intro s t queue fibers created holds
        unfold census ended at holds ⊢
        rwa [queue,fibers,created]
      · intro s t work g script orderly ⟨created,kept⟩ pass
        refine ⟨created.trans (pass.created orderly).2,?_⟩
        rw [pass.census_eq orderly,if_neg,kept]
        rintro ⟨rfl,fresh⟩
        obtain ⟨_,rfl,_⟩ := pass.target.resolve_left fun old => fresh old.1
        exact absurd (known.trans_le created) (Nat.lt_irrefl _)
      · exact start_orderly submitted
      · exact ⟨le_refl _,census_start f⟩
      · exact survives.unfailed passes
    rw [← same.2,census,entries,executed.empty]
    cases ended (loop self passes (start bodies tasks held m_stopping)) f <;> simp [tickets]
  · rw [tickets_zero fun thread member => known (submitted.known f thread member)]
    exact Nat.zero_le 1

/-- One loop survives its tasks exactly when none of them throws and none of their fibers
is queued twice. -/
theorem survives_iff (submitted : Submitted self bodies tasks) (held : FiberId → Bool)
    (m_stopping : Bool) :
    Survives self bodies tasks (start bodies tasks held m_stopping) ↔
      (∀ work thread, (work,thread) ∈ tasks → throwing (body bodies work) = false) ∧
        ∀ f, tickets f tasks ≤ 1 := by
  constructor
  · intro survives
    exact ⟨fun work thread member => survives.quiet submitted member,survives.single submitted⟩
  · rintro ⟨quiet,single⟩
    exact (start_sound submitted quiet single).survives rfl (start_progress submitted single)

theorem survives_yielding :
    Survives 0 [.scheduleThis none (.yield .returns)] [(.fiber 0,none),(.cb .returns,some 0)]
      (start [.scheduleThis none (.yield .returns)] [(.fiber 0,none),(.cb .returns,some 0)]
        (fun _ => false) true) := by
  have submitted : Submitted 0 [.scheduleThis none (.yield .returns)]
      [(.fiber 0,none),(.cb .returns,some 0)] := {
    pinned := by
      intro work thread member
      rcases List.mem_cons.mp member with first | second
      · cases first; exact .inl rfl
      · cases List.mem_singleton.mp second; exact .inr rfl
    known := by simp
    rescheduling := by
      intro work thread member
      rcases List.mem_cons.mp member with first | second
      · cases first; exact .again (.inl rfl) .returns
      · cases List.mem_singleton.mp second; exact .returns }
  refine (survives_iff submitted _ _).mpr ⟨?_,?_⟩
  · intro work thread member
    rcases List.mem_cons.mp member with first | second
    · cases first; rfl
    · cases List.mem_singleton.mp second; rfl
  · intro f
    by_cases same : 0 = f <;> simp [tickets,same]

/-- One function that throws: when `run` drops its fiber, the assertion of `~Fiber` fails. -/
theorem throwing_function_fails :
    Submitted 0 [] [(.cb .throws,none)] ∧
    (loop 0 1 (start [] [(.cb .throws,none)] (fun _ => false) true)).status = .failed .destructor ∧
    ¬ Survives 0 [] [(.cb .throws,none)] (start [] [(.cb .throws,none)] (fun _ => false) true) := by
  have failed : (loop 0 1 (start [] [(.cb .throws,none)] (fun _ => false) true)).status =
      .failed .destructor := by rfl
  refine ⟨⟨by simp [Here],by simp,?_⟩,failed,fun survives => survives.unfailed 1 _ failed⟩
  intro work thread member
  cases List.mem_singleton.mp member
  exact .throws

end Myriel.RunLoop

/-! `Fiber`: the state changes of `resume`, `yield`, `reset` and `MainFunc`, with
the assertions in front of them. Saved contexts are positions in the callback. -/
namespace Myriel

inductive FiberState where
  | READY
  | EXEC
  | TERM
  deriving DecidableEq

/-- Where `m_ctx` continues: at the entry of `MainFunc`, behind a `yield` of the
callback, or behind the last `yield` of `MainFunc`, which asserts false. -/
inductive Context (κ : Type) where
  | entry (cb : κ)
  | suspended (rest : κ)
  | ended
  deriving DecidableEq

/-- What the fiber does when it is resumed. -/
def Context.script : Context κ → Option κ
  | .entry cb => some cb
  | .suspended rest => some rest
  | .ended => none

structure Fiber (κ : Type) where
  m_state : FiberState
  m_ctx : Context κ
  m_cb : Option κ

namespace Fiber

def create (cb : κ) : Fiber κ := ⟨.READY,.entry cb,some cb⟩

/-- The assertion of `resume`. -/
def resumable (f : Fiber κ) : Bool := f.m_state != .TERM && f.m_state != .EXEC

def setExec (f : Fiber κ) : Fiber κ := { f with m_state := .EXEC }

/-- The assertion of `yield`. -/
def yieldable (f : Fiber κ) : Bool := f.m_state == .EXEC || f.m_state == .TERM

/-- What `yield` does to the state, before its `swapcontext`. -/
def setReady (f : Fiber κ) : Fiber κ :=
  { f with m_state := if f.m_state = .TERM then .TERM else .READY }

/-- `swapcontext` away from the fiber. -/
def save (f : Fiber κ) (position : Context κ) : Fiber κ := { f with m_ctx := position }

def yield (f : Fiber κ) (position : Context κ) : Fiber κ := f.setReady.save position

/-- `MainFunc` after its callback has returned; both handlers of an exception only
write a log line and leave the fiber as it is. -/
def finish (f : Fiber κ) : Fiber κ := { f with m_cb := none, m_state := .TERM }

def reset (f : Fiber κ) (cb : κ) : Option (Fiber κ) :=
  if f.m_state = .TERM then some { m_state := .READY, m_ctx := .entry cb, m_cb := some cb } else none

/-- The assertion of `~Fiber` for a fiber with a stack. -/
def destroyable (f : Fiber κ) : Bool := f.m_state == .TERM

@[simp] theorem setExec_state (f : Fiber κ) : f.setExec.m_state = .EXEC := rfl
@[simp] theorem save_state (f : Fiber κ) (position : Context κ) :
    (f.save position).m_state = f.m_state := rfl
@[simp] theorem save_ctx (f : Fiber κ) (position : Context κ) :
    (f.save position).m_ctx = position := rfl
@[simp] theorem finish_state (f : Fiber κ) : f.finish.m_state = .TERM := rfl

theorem resumable_iff (f : Fiber κ) : f.resumable = true ↔ f.m_state = .READY := by
  cases state : f.m_state <;> simp [resumable,state]

theorem setReady_exec (f : Fiber κ) (exec : f.m_state = .EXEC) : f.setReady.m_state = .READY := by
  simp [setReady,exec]

@[simp] theorem setReady_finish (f : Fiber κ) : f.finish.setReady.m_state = .TERM := rfl

end Fiber

end Myriel

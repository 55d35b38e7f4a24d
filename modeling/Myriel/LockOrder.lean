import Mathlib.Data.Finset.Option
import Mathlib.Data.Set.Finite.Basic
import Mathlib.Logic.Relation
import Mathlib.Order.WellFounded

/-! Threads that wait for mutexes, and an order in which the mutexes are taken. -/
namespace LockOrder

variable {ι : Type u} {μ : Type v}

/-- Every thread of the set waits for a mutex that a thread of the set holds. -/
def Deadlock (waits : ι → Option μ) (owner : μ → Option ι) (threads : Finset ι) : Prop :=
  threads.Nonempty ∧ ∀ t ∈ threads, ∃ m u, waits t = some m ∧ owner m = some u ∧ u ∈ threads

/-- Each thread waits for a mutex behind all those that it holds: there is no deadlock. -/
theorem not_deadlock {waits : ι → Option μ} {owner : μ → Option ι} (before : μ → μ → Prop)
    (acyclic : ∀ m, ¬ Relation.TransGen before m m)
    (ordered : ∀ t m held, waits t = some m → owner held = some t → Relation.TransGen before held m)
    (threads : Finset ι) : ¬ Deadlock waits owner threads := by
  rintro ⟨⟨first,member⟩,waiting⟩
  let behind : threads → threads → Prop := fun u t =>
    ∃ m later, waits t.val = some m ∧ waits u.val = some later ∧ Relation.TransGen before m later
  have transitive : IsTrans threads behind := by
    constructor
    rintro a b c ⟨m,later,waitsB,waitsA,less⟩ ⟨m',later',waitsC,waitsB',less'⟩
    cases waitsB'.symm.trans waitsB
    exact ⟨m',later,waitsC,waitsA,less'.trans less⟩
  have irreflexive : Std.Irrefl behind := by
    constructor
    rintro a ⟨m,later,waits,again,less⟩
    cases waits.symm.trans again
    exact acyclic m less
  have founded : WellFounded behind := Finite.wellFounded_of_trans_of_irrefl behind
  obtain ⟨last,_,minimal⟩ := founded.has_min Set.univ ⟨⟨first,member⟩,trivial⟩
  -- The owner of what the last thread waits for waits for something further behind.
  obtain ⟨m,u,waits,owned,inside⟩ := waiting last.val last.property
  obtain ⟨later,_,again,_⟩ := waiting u inside
  exact minimal ⟨u,inside⟩ trivial ⟨m,later,waits,again,ordered u later m again owned⟩

def Path (r : μ → μ → Prop) (n : Nat) (path : Nat → μ) : Prop := ∀ i, i < n → r (path i) (path (i + 1))

theorem exists_path {r : μ → μ → Prop} {a b : μ} (steps : Relation.TransGen r a b) :
    ∃ n path, 0 < n ∧ Path r n path ∧ path 0 = a ∧ path n = b := by
  induction steps with
  | @single b first =>
    refine ⟨1,fun i => if i = 0 then a else b,Nat.one_pos,?_,rfl,rfl⟩
    intro i bound
    have zero : i = 0 := by omega
    simpa [zero] using first
  | @tail b c _ last ih =>
    obtain ⟨n,path,positive,along,begins,ends⟩ := ih
    refine ⟨n + 1,fun i => if i ≤ n then path i else c,Nat.succ_pos n,?_,by simp [begins],by simp⟩
    intro i bound
    by_cases inner : i < n
    · have next : i + 1 ≤ n := inner
      simpa [Nat.le_of_lt inner,next] using along i inner
    · have equal : i = n := by omega
      have beyond : ¬ n + 1 ≤ n := by omega
      simpa [equal,ends,beyond] using last

theorem exists_simple_cycle {r : μ → μ → Prop} {a : μ} (cycle : Relation.TransGen r a a) :
    ∃ n path, 0 < n ∧ Path r n path ∧ path n = path 0 ∧
      ∀ i j, i < n → j < n → path i = path j → i = j := by
  have some_cycle : ∃ n, 0 < n ∧ ∃ path, Path r n path ∧ path n = path 0 := by
    obtain ⟨n,path,positive,along,begins,ends⟩ := exists_path cycle
    exact ⟨n,positive,path,along,ends.trans begins.symm⟩
  classical
  obtain ⟨positive,path,along,closed⟩ := Nat.find_spec some_cycle
  have shortest : ∀ i j, i < j → j < Nat.find some_cycle → path i ≠ path j := by
    intro i j less bound same
    have shorter : 0 < j - i ∧ ∃ path, Path r (j - i) path ∧ path (j - i) = path 0 := by
      refine ⟨by omega,fun k => path (i + k),?_,?_⟩
      · intro k inside
        exact along (i + k) (by omega)
      · have last : i + (j - i) = j := by omega
        simp [last,same]
    exact Nat.find_min some_cycle (show j - i < Nat.find some_cycle by omega) shorter
  refine ⟨_,path,positive,along,closed,?_⟩
  intro i j first second same
  rcases Nat.lt_trichotomy i j with less | equal | greater
  · exact absurd same (shortest i j less second)
  · exact equal
  · exact absurd same.symm (shortest j i greater first)

/-! ### Two layers -/

section Layers
variable {κ : Type w} {ν : Type x} (upper : ι → Option κ) (idle : ι → Bool) (waits : κ → Option μ)
  (below : ι → Option ν)

/-- What a thread waits for that works below, and has something to do above where it is idle there. -/
def layered (t : ι) : Option (μ ⊕ ν) :=
  match below t with
  | some n => some (.inr n)
  | none => if idle t then ((upper t).bind waits).map .inl else none

variable {upper idle waits below}

/-- Who holds a mutex of the lower layer waits below only. Where the lower layer has no deadlock
of its own, one of both layers is one of the upper layer alone. -/
theorem deadlock_layered {owner : μ → Option κ} {lower : ν → Option ι} (thread : κ → ι)
    (inverse : ∀ u, upper (thread u) = some u) (busy : ∀ n t, lower n = some t → idle t = false)
    (sound : ∀ threads, ¬ Deadlock below lower threads) {threads : Finset ι}
    (deadlock : Deadlock (layered upper idle waits below) (Sum.elim (fun m => (owner m).map thread) lower) threads) :
    ∃ threads, Deadlock waits owner threads := by
  classical
  obtain ⟨⟨t₀,member⟩,waiting⟩ := deadlock
  by_cases deep : ∃ t ∈ threads, (below t).isSome = true
  · obtain ⟨t,inside,works⟩ := deep
    refine (sound (threads.filter fun t => (below t).isSome = true)
      ⟨⟨t,Finset.mem_filter.mpr ⟨inside,works⟩⟩,fun t selected => ?_⟩).elim
    obtain ⟨inside,works⟩ := Finset.mem_filter.mp selected
    obtain ⟨n,wait⟩ := Option.isSome_iff_exists.mp works
    obtain ⟨m,u,waits,owned,other⟩ := waiting t inside
    simp only [layered,wait] at waits
    cases waits
    -- the owner is not idle below, so that is where it waits
    obtain ⟨later,_,again,_⟩ := waiting u other
    have there : (below u).isSome = true := by
      simp only [layered,busy n u owned,Bool.false_eq_true,if_false] at again
      cases down : below u with
      | some => rfl
      | none => simp [down] at again
    exact ⟨n,u,wait,owned,Finset.mem_filter.mpr ⟨other,there⟩⟩
  · have above {t : ι} (inside : t ∈ threads) : ∃ u m v, upper t = some u ∧ waits u = some m ∧ owner m = some v ∧
        thread v ∈ threads := by
      obtain ⟨m,u,wait,owned,other⟩ := waiting t inside
      have nothing : below t = none := by
        cases down : below t with
        | none => rfl
        | some => exact absurd ⟨t,inside,by simp [down]⟩ deep
      simp only [layered,nothing,Option.ite_none_right_eq_some,Option.map_eq_some_iff,Option.bind_eq_some_iff] at wait
      obtain ⟨_,n,⟨v,up,wait⟩,rfl⟩ := wait
      obtain ⟨x,holds,rfl⟩ := Option.map_eq_some_iff.mp owned
      exact ⟨v,n,x,up,wait,holds,other⟩
    refine ⟨Finset.eraseNone (threads.image upper),?_,fun u selected => ?_⟩
    · obtain ⟨u,_,_,up,_⟩ := above member
      exact ⟨u,Finset.mem_eraseNone.mpr (Finset.mem_image.mpr ⟨t₀,member,up⟩)⟩
    · obtain ⟨t,inside,up⟩ := Finset.mem_image.mp (Finset.mem_eraseNone.mp selected)
      obtain ⟨w,m,v,up',wait,owned,other⟩ := above inside
      cases up.symm.trans up'
      exact ⟨m,v,wait,owned,Finset.mem_eraseNone.mpr (Finset.mem_image.mpr ⟨_,other,inverse v⟩)⟩

end Layers

end LockOrder

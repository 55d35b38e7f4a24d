import Myriel.ConfigBools

/-! The texts of booleans. The string is handed on as a pointer: what is compared ends at its
first NUL, and the length of that is kept in an `unsigned int`. -/
namespace Myriel.detail

/-- The loop of `checkbool` over some indices, `none` where it reads behind the end of either
string. -/
def checkedbool (source s : Text) : List Nat → Option Bool
  | [] => some true
  | i :: rest =>
    match source[i]?,s[i]? with
    | some c,some d => if c = d then checkedbool source s rest else some false
    | _,_ => none

def compared (source : Text) : Option (Nat × Text) :=
  let len := strlen source % 2 ^ 32
  if len = 4 then some (len,strue) else if len = 5 then some (len,sfalse) else none

def word (b : Bool) : Text := if b then strue else sfalse

/-- Each word is recognised and nothing else is, without a read behind the end of a string. -/
structure Exact (s : Text) : Prop where
  recognised : ∀ b, convert s = .ok b ↔ s = word b
  thrown : (∀ b, s ≠ word b) → convert s = .error .invalid_argument
  inside : ∀ len w, compared s = some (len,w) →
    ∃ same, checkedbool s w (List.range len) = some same

/-- A longer string that begins with the word, with the length of the word up to the first NUL
as far as 32 bits show it. -/
def Disguised (s w : Text) : Prop := w <+: s ∧ s ≠ w ∧ strlen s % 2 ^ 32 = w.length

theorem strlen_le (s : Text) : strlen s ≤ s.length := (List.takeWhile_sublist _).length_le

theorem checkedbool_inside {source s : Text} (indices : List Nat)
    (inside : ∀ i ∈ indices, i < source.length ∧ i < s.length) :
    checkedbool source s indices = some (indices.all fun i => charAt source i == charAt s i) := by
  induction indices with
  | nil => rfl
  | cons i indices ih =>
    obtain ⟨⟨first,second⟩,rest⟩ := List.forall_mem_cons.mp inside
    by_cases same : source[i] = s[i]
    · simp [checkedbool,charAt,first,second,same,ih rest]
    · simp [checkedbool,charAt,first,second,same]

theorem compared_inside (known : compared s = some (len,w)) : len ≤ s.length ∧ len = w.length := by
  have bound : strlen s % 2 ^ 32 ≤ s.length := (Nat.mod_le _ _).trans (strlen_le s)
  simp only [compared] at known
  split at known
  case isTrue four =>
    cases known
    exact ⟨bound,four⟩
  case isFalse =>
    split at known
    case isTrue five =>
      cases known
      exact ⟨bound,five⟩
    case isFalse => cases known

/-- A word has no NUL, so the comparison with it tells whether the string begins with it. -/
theorem checkbool_begins {w : Text} (printable : '\x00' ∉ w) (s : Text) :
    checkbool s w.length w = true ↔ w <+: s := by
  rw [List.prefix_iff_getElem?,checkbool,List.all_eq_true]
  refine ⟨fun same i inside => ?_,fun same i inside => ?_⟩
  · have here := same i (List.mem_range.mpr inside)
    have other : w[i] ≠ '\x00' := fun nul => printable (nul ▸ List.getElem_mem inside)
    cases found : s[i]? with
    | none => simp [charAt,found,inside,Ne.symm other] at here
    | some c => simpa [charAt,found,inside] using here
  · have inside := List.mem_range.mp inside
    simp [charAt,inside,same i inside]

theorem convert_ok_iff (s : Text) (b : Bool) :
    convert s = .ok b ↔ strlen s % 2 ^ 32 = (word b).length ∧ word b <+: s := by
  have first := checkbool_begins (w := strue) (by decide) s
  have second := checkbool_begins (w := sfalse) (by decide) s
  have four : strue.length = 4 := rfl
  have five : sfalse.length = 5 := rfl
  rw [four] at first
  rw [five] at second
  unfold convert
  generalize strlen s % 2 ^ 32 = len
  by_cases true_length : len = 4
  · subst len
    cases b <;> by_cases begins : strue <+: s <;> simp [word,four,five,first,begins]
  · by_cases false_length : len = 5
    · subst len
      cases b <;> by_cases begins : sfalse <+: s <;> simp [word,four,five,second,begins]
    · cases b <;> simp [word,four,five,true_length,false_length]

theorem convert_error (failed : convert s = .error e) : e = .invalid_argument := by
  simp only [convert] at failed
  split at failed
  · cases failed
    rfl
  · split at failed <;> split at failed <;> cases failed <;> rfl

/-- For every string: its boolean is recognised exactly unless it is a word in disguise. -/
theorem boolean_text_iff (s : Text) : Exact s ↔ ∀ b, ¬ Disguised s (word b) := by
  constructor
  · rintro exact b ⟨begins,other,length⟩
    exact other ((exact.recognised b).mp ((convert_ok_iff s b).mpr ⟨length,begins⟩))
  · intro plain
    have recognised (b : Bool) : convert s = .ok b ↔ s = word b := by
      rw [convert_ok_iff]
      constructor
      · rintro ⟨length,begins⟩
        by_contra other
        exact plain b ⟨begins,other,length⟩
      · rintro rfl
        exact ⟨by cases b <;> rfl,List.prefix_refl _⟩
    refine ⟨recognised,fun other => ?_,fun len w known => ?_⟩
    · cases result : convert s with
      | error e => rw [convert_error result]
      | ok b => exact absurd ((recognised b).mp result) (other b)
    · obtain ⟨first,rfl⟩ := compared_inside known
      refine ⟨_,checkedbool_inside _ fun i member => ?_⟩
      have inside := List.mem_range.mp member
      exact ⟨inside.trans_le first,inside⟩

theorem nul_text_accepted : convert ['t','r','u','e','\x00','!'] = .ok true ∧
    ¬ Exact ['t','r','u','e','\x00','!'] := by
  have accepted : convert ['t','r','u','e','\x00','!'] = .ok true := rfl
  refine ⟨accepted,fun exact => ?_⟩
  exact absurd ((exact.recognised true).mp accepted) (by decide)

end Myriel.detail

import Myriel.LexicalCast

/-! `lexical_cast` from the numeral of any integer. The unsigned conversions accept
whatever fits into 64 bits without its sign. -/
namespace Myriel
open IntType

def Representable (t : IntType) (n : Int) : Prop := t.lower ≤ n ∧ n ≤ t.upper

instance (t : IntType) (n : Int) : Decidable (Representable t n) := by
  unfold Representable
  infer_instance

/-- The number comes back, or the conversion throws where the type does not have it. -/
def Faithful (t : IntType) (n : Int) : Prop :=
  (∀ inside : Representable t n, convert t (to_string n) = .ok ⟨n,inside.1,inside.2⟩) ∧
    (¬ Representable t n → ∃ e, convert t (to_string n) = .error e)

theorem stoSigned_numeral (t : IntType) (n : Int) : stoSigned t (to_string n) =
    if inside : Representable t n then .ok ⟨n,inside.1,inside.2⟩ else .error .out_of_range := by
  simp only [stoSigned,subject_to_string,signed_natAbs]
  rfl

theorem stoSigned_faithful (t : IntType) (n : Int) :
    (∀ inside : Representable t n, stoSigned t (to_string n) = .ok ⟨n,inside.1,inside.2⟩) ∧
      (¬ Representable t n → ∃ e, stoSigned t (to_string n) = .error e) := by
  rw [stoSigned_numeral]
  constructor
  · intro inside
    exact dif_pos inside
  · intro outside
    exact ⟨_,dif_neg outside⟩

theorem unsigned_throws_iff (plain : t.signed = false) (read : subject s = some (negative,magnitude)) :
    (∃ e, convert t s = .error e) ↔ unsignedLong.upper < magnitude := by
  have same : unsignedLongLong.upper = unsignedLong.upper := rfl
  cases t with
  | int | long | longLong => cases plain
  | unsignedInt | unsignedLong | unsignedLongLong =>
    simp only [convert,stoul,stoull,stoUnsigned,read,same]
    split
    case isTrue fits => simpa [Except.map] using fits
    case isFalse large => simpa [Except.map] using large

/-- For every integer and type: the conversion is faithful to a signed type, and to an
unsigned one if it has the number or the number has more than 64 bits. -/
theorem lexical_cast_faithful_iff (t : IntType) (n : Int) :
    Faithful t n ↔ t.signed = true ∨ Representable t n ∨ unsignedLong.upper < n.natAbs := by
  have known (inside : Representable t n) : convert t (to_string n) = .ok ⟨n,inside.1,inside.2⟩ :=
    convert_to_string t ⟨n,inside.1,inside.2⟩
  cases signed : t.signed with
  | true =>
    simp only [true_or,iff_true]
    cases t with
    | int | long | longLong => exact stoSigned_faithful _ n
    | unsignedInt | unsignedLong | unsignedLongLong => cases signed
  | false =>
    have throws := unsigned_throws_iff signed (subject_to_string n)
    by_cases inside : Representable t n
    · simpa [Faithful,inside] using known inside
    · simpa [Faithful,inside] using throws

/-- `lexical_cast<unsigned int>("-1")` is the greatest `unsigned int`. -/
theorem negative_numeral_accepted : ¬ Representable unsignedInt (-1) ∧
    convert unsignedInt (to_string (-1)) = .ok ⟨4294967295,by decide,by decide⟩ :=
  ⟨by decide,by decide⟩

end Myriel

import Myriel.Platform
import Mathlib.Data.List.TakeWhile

/-! `lexical_cast` between strings and the six integer types, on an LP64 platform, with
`std::to_string` and the `std::sto*` functions as the standard has them. -/
namespace Myriel

/-- The `std::exception`s that a conversion throws. -/
inductive Exception where
  | invalid_argument
  | out_of_range
  | yaml
  deriving DecidableEq

inductive IntType where
  | int
  | unsignedInt
  | long
  | unsignedLong
  | longLong
  | unsignedLongLong
  deriving DecidableEq

namespace IntType

def bits : IntType → Nat
  | int | unsignedInt => 32
  | long | unsignedLong | longLong | unsignedLongLong => 64

def signed : IntType → Bool
  | int | long | longLong => true
  | unsignedInt | unsignedLong | unsignedLongLong => false

def lower (t : IntType) : Int := if t.signed then -2 ^ (t.bits - 1) else 0
def upper (t : IntType) : Int := if t.signed then 2 ^ (t.bits - 1) - 1 else 2 ^ t.bits - 1

/-- A value of the type. -/
@[ext] structure Val (t : IntType) where
  value : Int
  lower : t.lower ≤ value
  upper : value ≤ t.upper
  deriving DecidableEq

/-- The integral conversion to the type. -/
def wrap (t : IntType) (i : Int) : t.Val where
  value := if t.signed then i.bmod (2 ^ t.bits) else i % 2 ^ t.bits
  lower := by
    cases t <;> simp only [lower,signed,bits,Bool.false_eq_true,↓reduceIte,Int.bmod_def] <;> omega
  upper := by
    cases t <;> simp only [upper,signed,bits,Bool.false_eq_true,↓reduceIte,Int.bmod_def] <;> omega

end IntType

open IntType

def to_string (i : Int) : Text :=
  if i < 0 then '-' :: Nat.toDigits 10 i.natAbs else Nat.toDigits 10 i.natAbs

/-- `std::isspace` in the C locale. -/
def isspace (c : Char) : Bool := [' ','\t','\n','\x0b','\x0c','\r'].contains c

/-- The sign that `strtol` reads, and what is behind it. -/
def sign : Text → Bool × Text
  | '-' :: rest => (true,rest)
  | '+' :: rest => (false,rest)
  | s => (false,s)

/-- What `strtol` and its relatives read: the sign and the digits behind it, after white
space and up to the first character that is no digit. -/
def subject (s : Text) : Option (Bool × Nat) :=
  let signed := sign (s.dropWhile isspace)
  let digits := signed.2.takeWhile Char.isDigit
  if digits.isEmpty then none else some (signed.1,Nat.ofDigitChars 10 digits 0)

/-- `stoi`, `stol` and `stoll` -/
def stoSigned (t : IntType) (s : Text) : Except Exception t.Val :=
  match subject s with
  | none => .error .invalid_argument
  | some (negative,magnitude) =>
    let i : Int := if negative then -magnitude else magnitude
    if h : t.lower ≤ i ∧ i ≤ t.upper then .ok ⟨i,h.1,h.2⟩ else .error .out_of_range

/-- `stoul` and `stoull`: a minus negates in the unsigned type. -/
def stoUnsigned (t : IntType) (s : Text) : Except Exception t.Val :=
  match subject s with
  | none => .error .invalid_argument
  | some (negative,magnitude) =>
    if (magnitude : Int) ≤ t.upper then .ok (t.wrap (if negative then -magnitude else magnitude))
    else .error .out_of_range

def stoi (s : Text) : Except Exception (Val int) := stoSigned int s
def stol (s : Text) : Except Exception (Val long) := stoSigned long s
def stoll (s : Text) : Except Exception (Val longLong) := stoSigned longLong s
def stoul (s : Text) : Except Exception (Val unsignedLong) := stoUnsigned unsignedLong s
def stoull (s : Text) : Except Exception (Val unsignedLongLong) := stoUnsigned unsignedLongLong s

/-- `Converter<To, From>::convert`. Its result type is `int`, `long` and `long long` for
the unsigned types, and `lexical_cast` converts the result to `To`. -/
def convert : (t : IntType) → Text → Except Exception t.Val
  | int,s => stoi s
  | unsignedInt,s => (stoul s).map fun v => wrap unsignedInt (wrap int v.value).value
  | long,s => stol s
  | unsignedLong,s => (stoul s).map fun v => wrap unsignedLong (wrap long v.value).value
  | longLong,s => stoll s
  | unsignedLongLong,s => (stoull s).map fun v => wrap unsignedLongLong (wrap longLong v.value).value

/-! ### Numerals -/

theorem digit_cases (n : Nat) : ∃ c rest, Nat.toDigits 10 n = c :: rest ∧ c.isDigit = true := by
  cases digits : Nat.toDigits 10 n with
  | nil => exact absurd digits Nat.toDigits_ne_nil
  | cons c rest =>
    have member : c ∈ Nat.toDigits 10 n := by simp [digits]
    exact ⟨c,rest,rfl,Nat.isDigit_of_mem_toDigits (by decide) (by decide) member⟩

theorem takeWhile_digits (n : Nat) : (Nat.toDigits 10 n).takeWhile Char.isDigit = Nat.toDigits 10 n :=
  List.takeWhile_eq_self_iff.mpr fun _ member =>
    Nat.isDigit_of_mem_toDigits (by decide) (by decide) member

theorem isspace_digit (digit : c.isDigit = true) : isspace c = false := by
  apply Bool.eq_false_iff.mpr
  intro space
  simp only [isspace,List.contains_cons,List.contains_nil,Bool.or_false,Bool.or_eq_true,beq_iff_eq] at space
  rcases space with rfl | rfl | rfl | rfl | rfl | rfl <;> exact absurd digit (by decide)

theorem sign_digit (digit : c.isDigit = true) (rest : Text) : sign (c :: rest) = (false,c :: rest) := by
  unfold sign
  split
  · cases ‹_ :: _ = _›; exact absurd digit (by decide)
  · cases ‹_ :: _ = _›; exact absurd digit (by decide)
  · rfl

theorem subject_to_string (i : Int) : subject (to_string i) = some (decide (i < 0),i.natAbs) := by
  obtain ⟨c,rest,digits,digit⟩ := digit_cases i.natAbs
  have value : Nat.ofDigitChars 10 (Nat.toDigits 10 i.natAbs) 0 = i.natAbs :=
    Nat.ofDigitChars_toDigits (by decide) (by decide)
  by_cases negative : i < 0
  · have dropped : ('-' :: Nat.toDigits 10 i.natAbs).dropWhile isspace = '-' :: Nat.toDigits 10 i.natAbs := rfl
    simp only [subject,to_string,negative,↓reduceIte,dropped,sign,takeWhile_digits,value,decide_true]
    simp [digits]
  · have dropped : (Nat.toDigits 10 i.natAbs).dropWhile isspace = Nat.toDigits 10 i.natAbs := by
      rw [digits,List.dropWhile_cons_of_neg (by simp [isspace_digit digit])]
    have signed : sign (Nat.toDigits 10 i.natAbs) = (false,Nat.toDigits 10 i.natAbs) := by
      rw [digits]; exact sign_digit digit rest
    simp only [subject,to_string,negative,↓reduceIte,dropped,signed,takeWhile_digits,value,decide_false]
    simp [digits]

theorem signed_natAbs (n : Int) :
    (if decide (n < 0) = true then -(n.natAbs : Int) else n.natAbs) = n := by
  by_cases negative : n < 0
  · rw [if_pos (decide_eq_true negative)]; omega
  · rw [if_neg (by simp [negative])]; omega

theorem stoSigned_to_string (v : Val t) : stoSigned t (to_string v.value) = .ok v := by
  simp only [stoSigned,subject_to_string,signed_natAbs]
  exact dif_pos ⟨v.lower,v.upper⟩

theorem wrap_value (i : Int) (lower : t.lower ≤ i) (upper : i ≤ t.upper) : (wrap t i).value = i := by
  cases t <;>
    simp only [IntType.lower,IntType.upper,signed,bits,Bool.false_eq_true,↓reduceIte] at lower upper <;>
    simp only [wrap,signed,bits,Bool.false_eq_true,↓reduceIte,Int.bmod_def] <;> omega

theorem wrap_self (v : Val t) : wrap t v.value = v := Val.ext (wrap_value v.value v.lower v.upper)

theorem wrap_signed (v : Val t) (plain : t.signed = false) (narrow : u.signed = true)
    (same : u.bits = t.bits) : wrap t (wrap u v.value).value = v := by
  refine Eq.trans ?_ (wrap_self v)
  apply Val.ext
  simp only [wrap,plain,narrow,same,Bool.false_eq_true,↓reduceIte]
  exact Int.bmod_emod

/-- The unsigned functions read a number that is not negative as it is. -/
theorem stoUnsigned_to_string (i : Int) (natural : 0 ≤ i) (lower : t.lower ≤ i) (upper : i ≤ t.upper) :
    stoUnsigned t (to_string i) = .ok ⟨i,lower,upper⟩ := by
  have magnitude : (i.natAbs : Int) = i := Int.natAbs_of_nonneg natural
  have positive : ¬ i < 0 := Int.not_lt.mpr natural
  simp only [stoUnsigned,subject_to_string,positive,decide_false,Bool.false_eq_true,↓reduceIte,magnitude,
    upper]
  exact congrArg Except.ok (wrap_self ⟨i,lower,upper⟩)

theorem natural_of_unsigned (v : Val t) (plain : t.signed = false) : 0 ≤ v.value := by
  have lower := v.lower
  rwa [IntType.lower,plain,if_neg Bool.false_ne_true] at lower

/-- `lexical_cast` reads back what `std::to_string` writes, for every value of the type. -/
theorem convert_to_string (t : IntType) (v : Val t) : convert t (to_string v.value) = .ok v := by
  cases t with
  | int | long | longLong => exact stoSigned_to_string v
  | unsignedInt =>
    have natural := natural_of_unsigned v rfl
    have narrower : unsignedInt.upper ≤ unsignedLong.upper := by decide
    have read := stoUnsigned_to_string (t := unsignedLong) v.value natural natural (Int.le_trans v.upper narrower)
    rw [convert,stoul,read,Except.map,wrap_signed (u := int) v rfl rfl rfl]
  | unsignedLong =>
    have read := stoUnsigned_to_string v.value (natural_of_unsigned v rfl) v.lower v.upper
    rw [convert,stoul,read,Except.map,wrap_signed (u := long) v rfl rfl rfl]
  | unsignedLongLong =>
    have read := stoUnsigned_to_string v.value (natural_of_unsigned v rfl) v.lower v.upper
    rw [convert,stoull,read,Except.map,wrap_signed (u := longLong) v rfl rfl rfl]

end Myriel

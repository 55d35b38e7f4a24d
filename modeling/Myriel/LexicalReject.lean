import Myriel.ConfigStrings
import Myriel.ConfigVar
import Myriel.LexicalRange

/-! Texts that are no numbers. The conversions read the number a text begins with and do
not look at what is behind it. -/
namespace Myriel
open IntType YAML

structure NumberText (s : Text) (negative : Bool) (digits : Text) : Prop where
  shape : ∃ blank signText, s = blank ++ signText ++ digits ∧ (∀ c ∈ blank, isspace c = true) ∧
    (if negative then signText = ['-'] else signText = [] ∨ signText = ['+'])
  nonempty : digits ≠ []
  decimal : ∀ c ∈ digits, c.isDigit = true

def Numeral (s : Text) : Prop := ∃ negative digits, NumberText s negative digits

/-- The text begins with a number, which ends where its digits do. -/
def Begins (s : Text) (negative : Bool) (magnitude : Nat) : Prop :=
  ∃ number digits rest, s = number ++ rest ∧ NumberText number negative digits ∧
    (∀ c, rest.head? = some c → c.isDigit = false) ∧ Nat.ofDigitChars 10 digits 0 = magnitude

/-- The number is outside the type of the library function that reads it. -/
def OutOfRange (t : IntType) (negative : Bool) (magnitude : Nat) : Prop :=
  if t.signed then ¬ Representable t (if negative then -magnitude else magnitude)
  else unsignedLong.upper < magnitude

/-- A scalar is written as its own text or, where that is no plain scalar, in quotes. -/
def YamlCpp.WritesScalars (yaml : YamlCpp) : Prop :=
  ∀ s, yaml.emit (.scalar s) = s ∨ ∃ quoted, yaml.emit (.scalar s) = '"' :: quoted

/-- `FromStr` as `fromString` meets it: all its exceptions are `std::exception`s. -/
def LaxicalCast.parse (conversion : LaxicalCast T) (str : Text) : Except Thrown T :=
  (conversion.fromStr str).mapError fun _ => .exception

/-- The text is refused by the conversion, by a variable and as an item of a sequence. -/
structure Refused (yaml : YamlCpp) (t : IntType) (s : Text) : Prop where
  conversion : ∃ e, convert t s = .error e
  variable_kept : ∀ (var : ConfigVar t.Val) moment,
    var.fromString (intCast t).parse moment s = (⟨var,[],none⟩,false)
  vector : ∀ str items, yaml.load str = .ok (.sequence items) → .scalar s ∈ items →
    ∃ e, (vectorCast yaml (intCast t)).fromStr str = .error e
  list : ∀ str items, yaml.load str = .ok (.sequence items) → .scalar s ∈ items →
    ∃ e, (listCast yaml (intCast t)).fromStr str = .error e

/-! ### What `strtol` reads -/

theorem sign_cases (s : Text) : ∃ signText, s = signText ++ (sign s).2 ∧
    (if (sign s).1 then signText = ['-'] else signText = [] ∨ signText = ['+']) := by
  unfold sign
  split
  · exact ⟨['-'],rfl,rfl⟩
  · exact ⟨['+'],rfl,.inr rfl⟩
  · exact ⟨[],rfl,.inl rfl⟩

theorem sign_append (digit : c.isDigit = true) (rest : Text) (negative : Bool)
    (signText : Text) (written : if negative then signText = ['-'] else signText = [] ∨ signText = ['+']) :
    sign (signText ++ c :: rest) = (negative,c :: rest) := by
  cases negative with
  | true => subst written; rfl
  | false =>
    rcases written with rfl | rfl
    · exact sign_digit digit rest
    · rfl

theorem dropWhile_blank {blank : Text} (space : ∀ c ∈ blank, isspace c = true)
    (stop : ∀ c, rest.head? = some c → isspace c = false) : (blank ++ rest).dropWhile isspace = rest := by
  have skipped : (blank ++ rest).dropWhile isspace = rest.dropWhile isspace :=
    List.dropWhile_append_of_pos space
  cases rest with
  | nil => simpa using skipped
  | cons c rest => simpa [stop c rfl] using skipped

theorem takeWhile_decimal {digits : Text} (decimal : ∀ c ∈ digits, c.isDigit = true)
    (stop : ∀ c, rest.head? = some c → c.isDigit = false) :
    (digits ++ rest).takeWhile Char.isDigit = digits := by
  have taken : (digits ++ rest).takeWhile Char.isDigit = digits ++ rest.takeWhile Char.isDigit :=
    List.takeWhile_append_of_pos decimal
  cases rest with
  | nil => simpa using taken
  | cons c rest => simpa [stop c rfl] using taken

theorem isspace_sign (negative : Bool) (digit : c.isDigit = true) (rest signText : Text)
    (written : if negative then signText = ['-'] else signText = [] ∨ signText = ['+']) :
    ∀ d, (signText ++ c :: rest).head? = some d → isspace d = false := by
  cases negative with
  | true => subst written; rintro d ⟨⟩; rfl
  | false =>
    rcases written with rfl | rfl
    · rintro d ⟨⟩; exact isspace_digit digit
    · rintro d ⟨⟩; rfl

theorem begins_of_subject (read : subject s = some (negative,magnitude)) : Begins s negative magnitude := by
  obtain ⟨signText,split,written⟩ := sign_cases (s.dropWhile isspace)
  simp only [subject] at read
  generalize signed : sign (s.dropWhile isspace) = both at read split written
  split at read
  · cases read
  · rename_i nonempty
    simp only [Option.some.injEq,Prod.mk.injEq] at read
    obtain ⟨rfl,value⟩ := read
    have whole : s = s.takeWhile isspace ++ signText ++ both.2.takeWhile Char.isDigit ++
        both.2.dropWhile Char.isDigit := by
      rw [List.append_assoc,List.takeWhile_append_dropWhile,List.append_assoc,← split,
        List.takeWhile_append_dropWhile]
    have number : NumberText (s.takeWhile isspace ++ signText ++ both.2.takeWhile Char.isDigit) both.1
        (both.2.takeWhile Char.isDigit) :=
      ⟨⟨_,_,rfl,fun _ => List.mem_takeWhile_imp,written⟩,by simpa using nonempty,
        fun _ => List.mem_takeWhile_imp⟩
    refine ⟨_,_,_,whole,number,?_,value⟩
    intro c first
    have ends := List.head?_dropWhile_not Char.isDigit both.2
    simpa [first] using ends

theorem subject_of_begins (begins : Begins s negative magnitude) : subject s = some (negative,magnitude) := by
  obtain ⟨number,digits,rest,rfl,⟨⟨blank,signText,rfl,space,written⟩,nonempty,decimal⟩,stop,rfl⟩ := begins
  obtain ⟨c,more,rfl⟩ := List.exists_cons_of_ne_nil nonempty
  have digit := decimal c (by simp)
  have dropped : (blank ++ signText ++ c :: more ++ rest).dropWhile isspace =
      signText ++ c :: (more ++ rest) := by
    have ends := isspace_sign negative digit (more ++ rest) signText written
    simpa using dropWhile_blank space ends
  have taken : (c :: (more ++ rest)).takeWhile Char.isDigit = c :: more := takeWhile_decimal decimal stop
  simp only [subject,dropped,sign_append digit (more ++ rest) negative signText written,taken]
  rfl

theorem subject_begins : subject s = some (negative,magnitude) ↔ Begins s negative magnitude :=
  ⟨begins_of_subject,subject_of_begins⟩

/-! ### Refusals -/

theorem convert_unread (t : IntType) (unread : subject s = none) : convert t s = .error .invalid_argument := by
  cases t <;>
    simp [convert,stoi,stol,stoll,stoul,stoull,stoSigned,stoUnsigned,unread,Except.map]

theorem checked_throws {p : Prop} [Decidable p] {value : p → α} {e : ε} :
    (∃ e', (if inside : p then Except.ok (value inside) else .error e) = .error e') ↔ ¬ p := by
  by_cases inside : p <;> simp [inside]

theorem convert_read_iff (t : IntType) (read : subject s = some (negative,magnitude)) :
    (∃ e, convert t s = .error e) ↔ OutOfRange t negative magnitude := by
  cases t with
  | int | long | longLong =>
    simp only [convert,stoi,stol,stoll,stoSigned,read,OutOfRange,signed,if_true,Representable]
    exact checked_throws
  | unsignedInt | unsignedLong | unsignedLongLong => exact unsigned_throws_iff rfl read

theorem convert_throws_iff (t : IntType) (s : Text) : (∃ e, convert t s = .error e) ↔
    ∀ negative magnitude, Begins s negative magnitude → OutOfRange t negative magnitude := by
  cases read : subject s with
  | none => simp [← subject_begins,read,convert_unread t read]
  | some number =>
    obtain ⟨negative,magnitude⟩ := number
    simp only [← subject_begins,convert_read_iff t read,read,Option.some.injEq,Prod.mk.injEq]
    constructor
    · rintro out _ _ ⟨rfl,rfl⟩
      exact out
    · intro out
      exact out _ _ ⟨rfl,rfl⟩

/-- A quotation mark is no part of a number. -/
theorem quoted_unread (rest : Text) : subject ('"' :: rest) = none := rfl

theorem sequence_refuses {yaml : YamlCpp} {element : LaxicalCast T} {add : C → T → C}
    (member : item ∈ items) (refused : ∃ e, element.fromStr (yaml.emit item) = .error e)
    (loaded : yaml.load str = .ok (.sequence items)) (res : C) :
    ∃ e, sequenceFromStr yaml add res element str = .error e := by
  obtain ⟨e,failed⟩ := refused
  have fails (res : C) : ∃ e, readItem add element res (yaml.emit item) = .error e :=
    ⟨e,by rw [readItem,failed]; rfl⟩
  obtain ⟨e,stopped⟩ := foldlM_error (List.mem_map_of_mem member) fails res
  exact ⟨e,by rw [sequenceFromStr,loaded]; exact stopped⟩

theorem fromString_refuses [BEq T] {conversion : LaxicalCast T}
    (failed : conversion.fromStr s = .error e) (var : ConfigVar T) (moment : Nat) :
    var.fromString conversion.parse moment s = (⟨var,[],none⟩,false) := by
  simp [ConfigVar.fromString,LaxicalCast.parse,failed,Except.mapError]

/-- As an item of a sequence the text is itself, or stands in quotes. -/
theorem refused_of_throws (writes : yaml.WritesScalars) (throws : ∃ e, convert t s = .error e) :
    Refused yaml t s := by
  have item : ∃ e, (intCast t).fromStr (yaml.emit (.scalar s)) = .error e := by
    rcases writes s with plain | ⟨quoted,written⟩
    · rw [plain]; exact throws
    · rw [written]; exact ⟨_,convert_unread t (quoted_unread quoted)⟩
  obtain ⟨e,failed⟩ := throws
  exact {
    conversion := ⟨e,failed⟩
    variable_kept := fun var moment => fromString_refuses failed var moment
    vector := fun _ _ loaded member => sequence_refuses member item loaded _
    list := fun _ _ loaded member => sequence_refuses member item loaded _ }

/-- A text that is no number as a whole is refused exactly when it does not begin with
one, or with one that is too large for the function that reads it. -/
theorem non_numbers_refused_iff (writes : yaml.WritesScalars) (t : IntType) (s : Text) :
    (¬ Numeral s → Refused yaml t s) ↔ Numeral s ∨
      ∀ negative magnitude, Begins s negative magnitude → OutOfRange t negative magnitude := by
  rw [← convert_throws_iff]
  constructor
  · intro refused
    by_cases numeral : Numeral s
    · exact .inl numeral
    · exact .inr (refused numeral).conversion
  · rintro (numeral | throws) other
    · exact absurd numeral other
    · exact refused_of_throws writes throws

def letterYaml : YamlCpp where
  load text :=
    if text = "- abc".toList then .ok (.sequence [.scalar "abc".toList]) else .error .yaml
  emit
    | .scalar text => if text ≠ [] ∧ text.all Char.isAlpha then text else '"' :: text ++ ['"']
    | _ => []

theorem letterYaml_writes : letterYaml.WritesScalars := by
  intro s
  simp only [letterYaml]
  split
  · exact .inl rfl
  · exact .inr ⟨_,rfl⟩

theorem non_numbers_refused_letters : (¬ Numeral "abc".toList → Refused letterYaml int "abc".toList) ↔
    Numeral "abc".toList ∨ ∀ negative magnitude, Begins "abc".toList negative magnitude →
      OutOfRange int negative magnitude :=
  non_numbers_refused_iff letterYaml_writes int "abc".toList

theorem not_numeral_of_end {s : Text} (last : s.getLast? = some c) (letter : c.isDigit = false) : ¬ Numeral s := by
  rintro ⟨negative,digits,⟨blank,signText,rfl,_,_⟩,nonempty,decimal⟩
  rw [List.getLast?_append_of_ne_nil _ nonempty] at last
  have digit := decimal c (List.mem_of_getLast? last)
  exact Bool.false_ne_true (letter.symm.trans digit)

/-- `"12abc"` is no number and is converted to 12. -/
theorem trailing_letters_accepted : ¬ Numeral "12abc".toList ∧
    convert int "12abc".toList = .ok ⟨12,by decide,by decide⟩ :=
  ⟨not_numeral_of_end rfl rfl,by decide⟩

end Myriel

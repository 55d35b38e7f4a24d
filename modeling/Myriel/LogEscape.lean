import Myriel.LogSegments

/-! Two percent signs in a pattern. The first one becomes literal text and the second one
is read again, as the beginning of what stands behind it. -/
namespace Myriel

/-- An item as the characters that it prints of itself, or as a whole. -/
def FormatItem.atoms : FormatItem → List (Char ⊕ FormatItem)
  | StringFormatItem text => text.map .inl
  | item => [.inr item]

/-- The same items but for the borders between adjacent literals. -/
def Merged (items others : List FormatItem) : Prop :=
  items.flatMap FormatItem.atoms = others.flatMap FormatItem.atoms

def Clean (m_pattern : Text) (m_error : Bool) : Prop :=
  ∀ piece ∈ (Scan.run m_pattern m_error).vec, piece.failed = false

instance (m_pattern : Text) (m_error : Bool) : Decidable (Clean m_pattern m_error) := by
  unfold Clean
  infer_instance

structure Escapes (p q : Text) (m_error : Bool) : Prop where
  items : Merged (LogFormatter.new (p ++ ['%','%'] ++ q) m_error).m_items
    ((LogFormatter.new p m_error).m_items ++ [.StringFormatItem ['%']] ++ (LogFormatter.new q m_error).m_items)
  clean : Clean (p ++ ['%','%'] ++ q) m_error

namespace Segment

def failed : Segment → Bool
  | char _ | escape => false
  | closed name _ => (s_format_items.lookup name).isNone
  | unclosed => true

def atoms : Segment → List (Char ⊕ FormatItem)
  | char c => [.inl c]
  | escape => [.inl '%']
  | closed name fmt => (Piece.directive 0 name (fmt.getD [])).item.atoms
  | unclosed => []

end Segment

theorem clean_cons {segment : Segment} (clean : (segment :: segments).any Segment.failed = false) :
    segment.failed = false ∧ segments.any Segment.failed = false := by
  simpa only [List.any_cons,Bool.or_eq_false_iff] using clean

theorem pieces_failed (k : Nat) (pending : Pending) (segments : List Segment) :
    (pieces k pending segments).any Piece.failed = segments.any Segment.failed := by
  have flushed (pending : Pending) : pending.flush.any Piece.failed = false := by
    by_cases fresh : pending.nstr = [] <;>
      simp [Pending.flush,fresh,Piece.failed,Piece.broken,Piece.unknown]
  induction segments generalizing k pending with
  | nil => exact flushed pending
  | cons segment segments ih =>
    cases segment with
    | char | escape => simp [pieces,ih,Segment.failed]
    | closed => simp [pieces,ih,flushed,Segment.failed,Piece.failed,Piece.broken,Piece.unknown]
    | unclosed => simp [pieces,Segment.failed,Piece.failed,Piece.broken]

theorem pieces_atoms (k : Nat) (pending : Pending) {segments : List Segment}
    (clean : segments.any Segment.failed = false) :
    ((pieces k pending segments).map Piece.item).flatMap FormatItem.atoms =
      pending.nstr.map .inl ++ segments.flatMap Segment.atoms := by
  have flushed (pending : Pending) : (pending.flush.map Piece.item).flatMap FormatItem.atoms =
      pending.nstr.map .inl := by
    by_cases fresh : pending.nstr = [] <;> simp [Pending.flush,fresh,Piece.item,FormatItem.atoms]
  induction segments generalizing k pending with
  | nil => simp [pieces,flushed]
  | cons segment segments ih =>
    obtain ⟨here,rest⟩ := clean_cons clean
    cases segment with
    | char | escape => simp [pieces,ih _ _ rest,Pending.append,Segment.atoms]
    | closed name fmt =>
      simp only [pieces,List.map_append,List.map_cons,List.flatMap_append,List.flatMap_cons,flushed,
        ih _ _ rest]
      rfl
    | unclosed => cases here

theorem clean_iff (cuts : Cuts segments m_pattern) (m_error : Bool) :
    Clean m_pattern m_error ↔ segments.any Segment.failed = false := by
  rw [← pieces_failed 0 .empty,← Scan.run_pieces cuts m_error]
  simp [Clean]

theorem items_atoms (cuts : Cuts segments m_pattern) (m_error : Bool)
    (clean : segments.any Segment.failed = false) :
    (LogFormatter.new m_pattern m_error).m_items.flatMap FormatItem.atoms = segments.flatMap Segment.atoms := by
  rw [new_eq,Scan.run_pieces cuts m_error]
  exact pieces_atoms 0 .empty clean

theorem closed_atoms (registered : (Segment.closed name fmt).failed = false) : ∃ letter : Letter,
    name = [letter.char] ∧ ∃ item, (Segment.closed name fmt).atoms = [.inr item] := by
  have found : (s_format_items.lookup name).isSome = true := by
    rw [← Option.not_isNone]
    exact congrArg Bool.not registered
  obtain ⟨make,found⟩ := Option.isSome_iff_exists.mp found
  obtain ⟨letter,rfl⟩ := Letter.lookup_some found
  refine ⟨letter,rfl,letter.item (fmt.getD []),?_⟩
  simp only [Segment.atoms,Piece.item,letter.lookup_char]
  cases letter <;> rfl

/-- A percent sign ends a pattern without an error, so what is behind it changes nothing. -/
theorem cuts_append (cuts : Cuts segments p) (clean : segments.any Segment.failed = false)
    (behind : Cuts others ('%' :: q)) : Cuts (segments ++ others) (p ++ '%' :: q) := by
  induction cuts with
  | nil => exact behind
  | char plain _ ih => exact .char plain (ih (clean_cons clean).2)
  | escape _ ih => exact .escape (ih (clean_cons clean).2)
  | @name name after segments letters stops single _ ih =>
    obtain ⟨registered,rest⟩ := clean_cons clean
    obtain ⟨letter,rfl,_⟩ := closed_atoms registered
    refine .name letters ?_ single (ih rest)
    cases after with
    | nil => rintro c ⟨⟩; decide
    | cons c after => exact stops
  | format letters inside _ ih => simpa using Cuts.format letters inside (ih (clean_cons clean).2)
  | unclosed => cases clean

theorem letter_atoms {letter : Letter} (cuts : Cuts segments (letter.char :: rest)) :
    ∃ atoms, segments.flatMap Segment.atoms = .inl letter.char :: atoms := by
  generalize whole : letter.char :: rest = text at cuts
  cases cuts with
  | nil => cases whole
  | char plain rest =>
    obtain ⟨rfl,rfl⟩ := List.cons.inj whole
    exact ⟨_,rfl⟩
  | escape | name | format | unclosed => exact absurd (List.cons.inj whole).1 letter.char_ne_percent

/-- What the second percent sign makes of the pattern behind it is never what that pattern
is on its own: there is one percent sign more, or a directive in the place of its letter. -/
theorem second_percent (cuts : Cuts segments ('%' :: q)) (clean : segments.any Segment.failed = false)
    (own : Cuts others q) (ownClean : others.any Segment.failed = false) :
    segments.flatMap Segment.atoms ≠ others.flatMap Segment.atoms := by
  generalize whole : '%' :: q = text at cuts
  cases cuts with
  | nil => cases whole
  | char plain => exact absurd (List.cons.inj whole).1 (Ne.symm plain)
  | @escape segments text again =>
    obtain ⟨_,rfl⟩ := List.cons.inj whole
    have same : segments.flatMap Segment.atoms = others.flatMap Segment.atoms :=
      (items_atoms again false (clean_cons clean).2).symm.trans (items_atoms own false ownClean)
    intro wrong
    have lengths := congrArg List.length (wrong.trans same.symm)
    simp [Segment.atoms] at lengths
  | name | format =>
    obtain ⟨letter,rfl,item,whole_item⟩ := closed_atoms (clean_cons clean).1
    obtain ⟨_,rfl⟩ := List.cons.inj whole
    obtain ⟨atoms,literal⟩ := letter_atoms own
    rw [literal,List.flatMap_cons,whole_item]
    simp
  | unclosed => cases clean

/-- For no two patterns without an error is the escape between them a literal percent sign. -/
theorem escape_never (p q : Text) (m_error : Bool) (first : Clean p m_error) (second : Clean q m_error) :
    ¬ Escapes p q m_error := by
  intro escapes
  obtain ⟨before,cutsBefore⟩ := cuts_total p
  obtain ⟨own,cutsOwn⟩ := cuts_total q
  obtain ⟨behind,cutsBehind⟩ := cuts_total ('%' :: q)
  have cleanBefore := (clean_iff cutsBefore m_error).mp first
  have cleanOwn := (clean_iff cutsOwn m_error).mp second
  have whole : Cuts (before ++ .escape :: behind) (p ++ ['%','%'] ++ q) := by
    simpa using cuts_append cutsBefore cleanBefore (.escape cutsBehind)
  have clean := (clean_iff whole m_error).mp escapes.clean
  have cleanBehind : behind.any Segment.failed = false := by
    rw [List.any_append,Bool.or_eq_false_iff] at clean
    exact (clean_cons clean.2).2
  refine second_percent cutsBehind cleanBehind cutsOwn cleanOwn ?_
  have items := escapes.items
  rw [Merged,List.flatMap_append,List.flatMap_append,items_atoms whole m_error clean,
    items_atoms cutsBefore m_error cleanBefore,items_atoms cutsOwn m_error cleanOwn] at items
  simpa [FormatItem.atoms,Segment.atoms] using items

theorem escape_never_message : Clean ['%','m'] false ∧ Clean ['d'] false ∧ ¬ Escapes ['%','m'] ['d'] false := by
  have first : Clean ['%','m'] false := by decide
  have second : Clean ['d'] false := by decide
  exact ⟨first,second,escape_never _ _ false first second⟩

/-- `%m%%d` ends in a date where `d` alone is a letter. -/
theorem escape_starts_directive : Clean ['%','m'] false ∧ Clean ['d'] false ∧
    (LogFormatter.new ['%','m','%','%','d'] false).m_items =
      [.MessageFormatItem,.StringFormatItem ['%'],.date []] ∧ ¬ Escapes ['%','m'] ['d'] false := by
  refine ⟨by decide,by decide,rfl,fun escapes => ?_⟩
  have different : ([.inr .MessageFormatItem,.inl '%',.inr (.date [])] : List (Char ⊕ FormatItem)) ≠
    [.inr .MessageFormatItem,.inl '%',.inl 'd'] := by simp
  exact different escapes.items

end Myriel

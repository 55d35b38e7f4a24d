import Myriel.LogEscape
import Myriel.LogFormat

/-! What a formatter may write, and that patterns compose: where the second one does not go on
with a directive of the first, their concatenation writes what the first one writes and then
what the second one writes. -/
namespace Myriel

section Writes
variable {Tm : Type} (library : TimeLibrary Tm) (event : LogEvent)

/-- The texts that the formatter may write for the event; nobody knows what the memory holds. -/
def LogFormatter.Writes (f : LogFormatter) (text : Text) : Prop := ∃ memory, f.format library memory event = text

/-- The same for items, one by one. -/
inductive ItemsWrite : List FormatItem → Text → Prop where
  | nil : ItemsWrite [] []
  | item (memory : Uninitialised Tm) (rest : ItemsWrite items text) :
      ItemsWrite (item :: items) (item.format library memory event ++ text)

/-- The same for atoms: a character of a literal writes itself. -/
inductive AtomsWrite : List (Char ⊕ FormatItem) → Text → Prop where
  | nil : AtomsWrite [] []
  | char (c : Char) (rest : AtomsWrite atoms text) : AtomsWrite (.inl c :: atoms) (c :: text)
  | item (memory : Uninitialised Tm) (rest : AtomsWrite atoms text) :
      AtomsWrite (.inr item :: atoms) (item.format library memory event ++ text)

end Writes

/-- The directive at the end of the pattern is not gone on with: neither its name nor, where it
has none, a second percent sign follows. -/
def Border (p q : Text) : Prop :=
  ∀ segments name, Cuts segments p → segments.getLast? = some (.closed name none) →
    Directive.Stops q ∧ (name = [] → q.head? ≠ some '%')

/-- The constructor sets `m_error`, whatever the memory was. -/
def LogFormatter.Notes (pattern : Text) : Prop := ∀ m_error, (LogFormatter.new pattern m_error).m_error = true

/-- No brace is left open. -/
def Unbroken (m_pattern : Text) (m_error : Bool) : Prop :=
  ∀ piece ∈ (Scan.run m_pattern m_error).vec, piece.broken = false

instance (m_pattern : Text) (m_error : Bool) : Decidable (Unbroken m_pattern m_error) := by
  unfold Unbroken
  infer_instance

/-! ### Items and atoms -/

section Atoms
variable {Tm : Type} {library : TimeLibrary Tm} {event : LogEvent}

theorem itemsWrite_iff (items : List FormatItem) (text : Text) (some : Nonempty (Uninitialised Tm)) :
    ItemsWrite library event items text ↔
      ∃ memory : Nat → Uninitialised Tm,
        (items.mapIdx fun i item => item.format library (memory i) event).flatten = text := by
  constructor
  · intro writes
    induction writes with
    | nil => exact ⟨fun _ => some.some,rfl⟩
    | item memory _ ih =>
      obtain ⟨others,rfl⟩ := ih
      exact ⟨fun i => i.casesOn memory others,by simp [List.mapIdx_cons]⟩
  · rintro ⟨memory,rfl⟩
    induction items generalizing memory with
    | nil => exact .nil
    | cons item items ih =>
      rw [List.mapIdx_cons,List.flatten_cons]
      exact .item (memory 0) (ih fun i => memory (i + 1))

theorem atomsWrite_literal (literal : Text) (rest : AtomsWrite library event atoms text) :
    AtomsWrite library event (literal.map .inl ++ atoms) (literal ++ text) := by
  induction literal with
  | nil => exact rest
  | cons c literal ih => exact .char c ih

theorem literal_atomsWrite (literal : Text) (writes : AtomsWrite library event (literal.map .inl ++ atoms) text) :
    ∃ rest, text = literal ++ rest ∧ AtomsWrite library event atoms rest := by
  induction literal generalizing text with
  | nil => exact ⟨text,rfl,writes⟩
  | cons c literal ih =>
    cases writes with
    | char _ rest =>
      obtain ⟨tail,rfl,behind⟩ := ih rest
      exact ⟨tail,rfl,behind⟩

theorem itemsWrite_atoms (items : List FormatItem) (text : Text) (some : Nonempty (Uninitialised Tm)) :
    ItemsWrite library event items text ↔ AtomsWrite library event (items.flatMap FormatItem.atoms) text := by
  constructor
  · intro writes
    induction writes with
    | nil => exact .nil
    | @item items text item memory _ ih =>
      rw [List.flatMap_cons]
      cases item with
      | StringFormatItem literal => exact atomsWrite_literal literal ih
      | _ => exact .item memory ih
  · intro writes
    induction items generalizing text with
    | nil => cases writes; exact .nil
    | cons item items ih =>
      rw [List.flatMap_cons] at writes
      cases item with
      | StringFormatItem literal =>
        obtain ⟨rest,rfl,behind⟩ := literal_atomsWrite literal writes
        exact .item some.some (ih _ behind)
      | _ =>
        cases writes with
        | item memory behind => exact .item memory (ih _ behind)

theorem atomsWrite_append (first second : List (Char ⊕ FormatItem)) (text : Text) :
    AtomsWrite library event (first ++ second) text ↔
      ∃ a b, text = a ++ b ∧ AtomsWrite library event first a ∧ AtomsWrite library event second b := by
  constructor
  · intro writes
    induction first generalizing text with
    | nil => exact ⟨[],text,rfl,.nil,writes⟩
    | cons atom first ih =>
      cases writes with
      | char c rest =>
        obtain ⟨a,b,rfl,front,back⟩ := ih _ rest
        exact ⟨c :: a,b,rfl,.char c front,back⟩
      | @item _ tail item memory rest =>
        obtain ⟨a,b,rfl,front,back⟩ := ih _ rest
        exact ⟨_,b,(List.append_assoc ..).symm,.item memory front,back⟩
  · rintro ⟨a,b,rfl,front,back⟩
    induction front with
    | nil => exact back
    | char c _ ih => exact .char c ih
    | item memory _ ih =>
      rw [List.append_assoc]
      exact .item memory ih

theorem writes_iff (f : LogFormatter) (text : Text) (some : Nonempty (Uninitialised Tm)) :
    f.Writes library event text ↔ AtomsWrite library event (f.m_items.flatMap FormatItem.atoms) text :=
  (itemsWrite_iff f.m_items text some).symm.trans (itemsWrite_atoms f.m_items text some)

end Atoms

/-! ### The segments of two patterns -/

def Closed (segments : List Segment) : Prop := .unclosed ∉ segments

theorem pieces_broken (k : Nat) (pending : Pending) (segments : List Segment) :
    (∀ piece ∈ pieces k pending segments, piece.broken = false) ↔ Closed segments := by
  have flushed (pending : Pending) : ∀ piece ∈ pending.flush, piece.broken = false := by
    by_cases fresh : pending.nstr = [] <;> simp [Pending.flush,fresh,Piece.broken]
  induction segments generalizing k pending with
  | nil => simpa [pieces,Closed] using flushed pending
  | cons segment segments ih =>
    cases segment with
    | char | escape => simpa [pieces,Closed] using ih _ _
    | closed name fmt =>
      simp only [pieces,List.forall_mem_append,List.forall_mem_cons,ih]
      simpa [Closed,Piece.broken] using fun _ => flushed pending
    | unclosed => simp [pieces,Closed,Piece.broken]

theorem unbroken_iff (cuts : Cuts segments m_pattern) (m_error : Bool) :
    Unbroken m_pattern m_error ↔ Closed segments := by
  rw [Unbroken,Scan.run_pieces cuts m_error]
  exact pieces_broken 0 .empty segments

theorem closed_pieces_atoms (k : Nat) (pending : Pending) (closed : Closed segments) :
    ((pieces k pending segments).map Piece.item).flatMap FormatItem.atoms =
      pending.nstr.map .inl ++ segments.flatMap Segment.atoms := by
  have flushed (pending : Pending) : (pending.flush.map Piece.item).flatMap FormatItem.atoms =
      pending.nstr.map .inl := by
    by_cases fresh : pending.nstr = [] <;> simp [Pending.flush,fresh,Piece.item,FormatItem.atoms]
  induction segments generalizing k pending with
  | nil => simp [pieces,flushed]
  | cons segment segments ih =>
    have rest : Closed segments := fun member => closed (List.mem_cons_of_mem _ member)
    cases segment with
    | char | escape => simp [pieces,ih _ _ rest,Pending.append,Segment.atoms]
    | closed name fmt =>
      simp only [pieces,List.map_append,List.map_cons,List.flatMap_append,List.flatMap_cons,flushed,ih _ _ rest]
      rfl
    | unclosed => exact absurd List.mem_cons_self closed

/-- What the first segments need of the text behind them. -/
def Fits (segments : List Segment) (q : Text) : Prop :=
  ∀ name, segments.getLast? = some (.closed name none) → Directive.Stops q ∧ (name = [] → q.head? ≠ some '%')

theorem Fits.tail {segment : Segment} {segments : List Segment} (fits : Fits (segment :: segments) q) : Fits segments q := by
  intro name last
  apply fits name
  rw [List.getLast?_cons,last]
  rfl

theorem cuts_both (first : Cuts segments p) (closed : Closed segments) (fits : Fits segments q)
    (second : Cuts others q) : Cuts (segments ++ others) (p ++ q) := by
  induction first with
  | nil => exact second
  | char plain _ ih => exact .char plain (ih (List.not_mem_of_not_mem_cons closed) fits.tail)
  | escape _ ih => exact .escape (ih (List.not_mem_of_not_mem_cons closed) fits.tail)
  | @name name after segments letters stops single rest ih =>
    have behind := ih (List.not_mem_of_not_mem_cons closed) fits.tail
    rw [List.cons_append,List.cons_append,List.append_assoc]
    cases after with
    | nil =>
      cases rest
      obtain ⟨stops,apart⟩ := fits name rfl
      refine .name letters stops ?_ behind
      cases name with
      | nil => exact apart rfl
      | cons c name => exact single
    | cons c after =>
      refine .name letters stops ?_ behind
      cases name with
      | nil => exact single
      | cons d name => exact single
  | @format name fmt after segments letters inside _ ih =>
    have behind := ih (List.not_mem_of_not_mem_cons closed) fits.tail
    simpa using Cuts.format letters inside behind
  | unclosed => exact absurd List.mem_cons_self closed

theorem new_atoms {text : Text} {parts : List Segment} (cuts : Cuts parts text) (closed : Closed parts)
    (m_error : Bool) :
    (LogFormatter.new text m_error).m_items.flatMap FormatItem.atoms = parts.flatMap Segment.atoms := by
  rw [new_eq,Scan.run_pieces cuts m_error]
  exact closed_pieces_atoms 0 .empty closed

theorem new_error {text : Text} {parts : List Segment} (cuts : Cuts parts text) (m_error : Bool) :
    (LogFormatter.new text m_error).m_error = (m_error || parts.any Segment.failed) := by
  rw [new_eq,Scan.run_pieces cuts m_error,pieces_failed]

theorem notes_iff {text : Text} {parts : List Segment} (cuts : Cuts parts text) :
    LogFormatter.Notes text ↔ parts.any Segment.failed = true := by
  simp only [LogFormatter.Notes,new_error cuts]
  exact ⟨fun noted => noted false,fun failed m_error => by rw [failed,Bool.or_true]⟩

theorem writes_append {p q : Text} {segments others : List Segment} (front : Cuts segments p) (back : Cuts others q)
    (both : Cuts (segments ++ others) (p ++ q)) (closed : Closed segments) (closed' : Closed others)
    (m_error first second : Bool) {Tm : Type} (library : TimeLibrary Tm) (event : LogEvent) (text : Text) :
    (LogFormatter.new (p ++ q) m_error).Writes library event text ↔
      ∃ a b, text = a ++ b ∧ (LogFormatter.new p first).Writes library event a ∧
        (LogFormatter.new q second).Writes library event b := by
  have all : Closed (segments ++ others) := fun member => (List.mem_append.mp member).elim closed closed'
  have filled : ∀ {f : LogFormatter} {text : Text}, f.Writes library event text → Nonempty (Uninitialised Tm) := by
    rintro f text ⟨memory,_⟩
    exact ⟨memory 0⟩
  constructor
  · intro writes
    have memory := filled writes
    rw [writes_iff _ _ memory,new_atoms both all,List.flatMap_append,atomsWrite_append] at writes
    obtain ⟨a,b,rfl,left,right⟩ := writes
    refine ⟨a,b,rfl,?_,?_⟩
    · rw [writes_iff _ _ memory,new_atoms front closed]
      exact left
    · rw [writes_iff _ _ memory,new_atoms back closed']
      exact right
  · rintro ⟨a,b,rfl,left,right⟩
    have memory := filled left
    rw [writes_iff _ _ memory,new_atoms front closed] at left
    rw [writes_iff _ _ memory,new_atoms back closed'] at right
    rw [writes_iff _ _ memory,new_atoms both all,List.flatMap_append,atomsWrite_append]
    exact ⟨a,b,rfl,left,right⟩

/-- What two patterns write together is composed of what they write one by one, whether or not their
directives are known and whatever the memory of the three formatters was; an error is noted
where one of the two patterns has one. -/
theorem format_append (p q : Text) (m_error first second : Bool) (unbroken : Unbroken p first)
    (unbroken' : Unbroken q second) (border : Border p q) :
    (∀ {Tm : Type} (library : TimeLibrary Tm) (event : LogEvent) (text : Text),
      (LogFormatter.new (p ++ q) m_error).Writes library event text ↔
        ∃ a b, text = a ++ b ∧ (LogFormatter.new p first).Writes library event a ∧
          (LogFormatter.new q second).Writes library event b) ∧
    (LogFormatter.Notes (p ++ q) ↔ LogFormatter.Notes p ∨ LogFormatter.Notes q) ∧
    ∀ m_error, (LogFormatter.new (p ++ q) m_error).m_error =
      ((LogFormatter.new p m_error).m_error || (LogFormatter.new q m_error).m_error) := by
  obtain ⟨segments,front⟩ := cuts_total p
  obtain ⟨others,back⟩ := cuts_total q
  have closed := (unbroken_iff front first).mp unbroken
  have closed' := (unbroken_iff back second).mp unbroken'
  have both := cuts_both front closed (fun name last => border segments name front last) back
  refine ⟨fun library event text => writes_append front back both closed closed' m_error first second library event text,
    ?_,fun m_error => ?_⟩
  · rw [notes_iff both,notes_iff front,notes_iff back,List.any_append,Bool.or_eq_true]
  · rw [new_error both,new_error front,new_error back,List.any_append]
    cases m_error <;> simp

/-- A level, and an empty message behind a blank. -/
theorem format_append_message :
    (LogFormatter.new ['%','p',' ','%','m'] true).Writes plainLibrary startUp "INFO ".toList ∧
    (LogFormatter.Notes ['%','p',' ','%','m'] ↔ LogFormatter.Notes ['%','p'] ∨ LogFormatter.Notes [' ','%','m']) := by
  have border : Border ['%','p'] [' ','%','m'] := by
    intro _ _ _ _
    exact ⟨by simp [Directive.Stops,Directive.nameChar],fun _ => by simp⟩
  obtain ⟨texts,errors,_⟩ :=
    format_append ['%','p'] [' ','%','m'] true false true (by decide) (by decide) border
  refine ⟨(texts plainLibrary startUp "INFO ".toList).mpr ?_,errors⟩
  exact ⟨"INFO".toList,[' '],rfl,⟨fun _ => ⟨(),[],[]⟩,rfl⟩,⟨fun _ => ⟨(),[],[]⟩,rfl⟩⟩

end Myriel

import Myriel.LogScanner
import Mathlib.Data.List.Chain
import Mathlib.Data.List.TakeWhile

/-! The grammar of the patterns, and that the scanner reads exactly its patterns without an
error. -/
namespace Myriel

/-- The registered letters. -/
inductive Letter where
  | d
  | t
  | N
  | f
  | l
  | T
  | n
  | p
  | c
  | m
  | F

namespace Letter

def char : Letter → Char
  | d => 'd'
  | t => 't'
  | N => 'N'
  | f => 'f'
  | l => 'l'
  | T => 'T'
  | n => 'n'
  | p => 'p'
  | c => 'c'
  | m => 'm'
  | F => 'F'

def item : Letter → Text → FormatItem
  | d,fmt => .date fmt
  | t,_ => .ThreadIdFormatItem
  | N,_ => .ThreadNameFormatItem
  | f,_ => .FileNameFormatItem
  | l,_ => .FileLineFormatItem
  | T,_ => .TabFormatItem
  | n,_ => .NewLineFormatItem
  | p,_ => .LevelFormatItem
  | c,_ => .NameFormatItem
  | m,_ => .MessageFormatItem
  | F,_ => .FiberIdFormatItem

theorem lookup_char (letter : Letter) : s_format_items.lookup [letter.char] = some letter.item := by
  cases letter <;> rfl

theorem char_name (letter : Letter) : Directive.nameChar letter.char = true := by
  cases letter <;> rfl

theorem char_ne_percent (letter : Letter) : letter.char ≠ '%' := by
  cases letter <;> decide

theorem registered : s_format_items =
    [d,t,N,f,l,T,n,p,c,m,F].map fun letter => ([letter.char],letter.item) := rfl

theorem lookup_some (found : s_format_items.lookup str = some make) : ∃ letter : Letter, str = [letter.char] := by
  obtain ⟨before,after,split,_⟩ := List.lookup_eq_some_iff.mp found
  have member : (str,make) ∈ s_format_items := split ▸ by simp
  rw [registered] at member
  obtain ⟨letter,_,same⟩ := List.mem_map.mp member
  exact ⟨letter,(congrArg Prod.fst same).symm⟩

end Letter

/-- A run of literal text, or a directive with what stands between its braces. -/
inductive Token where
  | literal (text : Text) (nonempty : text ≠ []) (plain : '%' ∉ text)
  | directive (letter : Letter) (fmt : Option {fmt : Text // '}' ∉ fmt})

namespace Token

def spell : Token → Text
  | literal text _ _ => text
  | directive letter none => ['%',letter.char]
  | directive letter (some fmt) => '%' :: letter.char :: '{' :: (fmt.val ++ ['}'])

@[simp] theorem spell_literal : (literal text nonempty plain).spell = text := rfl

theorem spell_directive (letter : Letter) (fmt : Option {fmt : Text // '}' ∉ fmt}) :
    (directive letter fmt).spell = '%' :: letter.char :: (directive letter fmt).spell.drop 2 := by
  cases fmt <;> rfl

def item : Token → FormatItem
  | literal text _ _ => .StringFormatItem text
  | directive letter fmt => letter.item (fmt.elim [] Subtype.val)

def isLiteral : Token → Bool
  | literal _ _ _ => true
  | directive _ _ => false

/-- What may stand behind a token. -/
def Follows : Token → Token → Prop
  | literal _ _ _,literal _ _ _ => False
  | directive _ none,literal text _ _ => ∀ c ∈ text.head?, c.isAlpha = false ∧ c ≠ '{' ∧ c ≠ '}'
  | _,_ => True

theorem follows_stops {next : Token} (follows : Follows (.directive letter none) next) (rest : Text) :
    Directive.Stops (next.spell ++ rest) := by
  intro c first
  cases next with
  | literal text nonempty =>
    rw [spell_literal,List.head?_append_of_ne_nil _ nonempty] at first
    obtain ⟨other,opened,closed⟩ := follows c first
    exact ⟨by simp [Directive.nameChar,other,closed],opened⟩
  | directive letter fmt =>
    cases fmt <;> cases first <;> decide

theorem stops_follows {next : Token} (stops : Directive.Stops (next.spell ++ rest)) :
    Follows (.directive letter none) next := by
  cases next with
  | literal text nonempty =>
    intro c first
    rw [Directive.Stops,spell_literal,List.head?_append_of_ne_nil _ nonempty] at stops
    obtain ⟨other,opened⟩ := stops c first
    simp [Directive.nameChar] at other
    exact ⟨other.1,opened,other.2⟩
  | directive => trivial

end Token

/-- The pattern is the text of the tokens. -/
def Spells (tokens : List Token) (m_pattern : Text) : Prop :=
  tokens.IsChain Token.Follows ∧ tokens.flatMap Token.spell = m_pattern

namespace Directive
variable {m_pattern after : Text} {i : Nat}

theorem scan_token {fmt : Option {fmt : Text // '}' ∉ fmt}}
    (here : m_pattern.drop i = (Token.directive letter fmt).spell ++ after)
    (stops : fmt = none → Stops after) :
    (scan m_pattern i).fmt_status = 0 ∧ (scan m_pattern i).str = [letter.char] ∧
      (scan m_pattern i).fmt = fmt.elim [] Subtype.val ∧ m_pattern.drop (scan m_pattern i).n = after := by
  have name : ∀ c ∈ [letter.char], nameChar c = true := by simp [letter.char_name]
  rw [Token.spell_directive] at here
  have behind := (drop_eq_cons here).2.1
  cases fmt with
  | none =>
    have split : m_pattern.drop (i + 1) = [letter.char] ++ after := behind
    exact scan_name split name (stops rfl)
  | some fmt =>
    have split : m_pattern.drop (i + 1) = [letter.char] ++ '{' :: (fmt.val ++ '}' :: after) := by
      rw [behind]; simp [Token.spell]
    exact scan_format split name fmt.property

end Directive

namespace Scan
variable {m_pattern after rest : Text} {tokens : List Token} {letter : Letter}

/-- A directive of the grammar is pushed behind the literal text before it. -/
theorem pass_token {s : Scan} {fmt : Option {fmt : Text // '}' ∉ fmt}}
    (here : m_pattern.drop s.i = (Token.directive letter fmt).spell ++ after)
    (stops : fmt = none → Directive.Stops after) :
    ∃ n, m_pattern.drop n = after ∧ pass m_pattern s =
      { s.flush with vec := s.flush.vec ++ [.directive s.i [letter.char] (fmt.elim [] Subtype.val)], i := n } := by
  obtain ⟨closed,str,format,behind⟩ := Directive.scan_token here stops
  rw [Token.spell_directive] at here
  have single : (letter.char :: (Token.directive letter fmt).spell.drop 2 ++ after).head? ≠ some '%' := by
    simpa using letter.char_ne_percent
  exact ⟨_,behind,by rw [pass_directive here single closed,str,format]⟩

/-- By induction on the tokens that are still to be read; literal text that is pending is
complete. -/
theorem reads_tokens {s : Scan} (chain : tokens.IsChain Token.Follows)
    (here : m_pattern.drop s.i = tokens.flatMap Token.spell)
    (complete : s.nstr = [] ∨ ∀ first ∈ tokens.head?, first.isLiteral = false) :
    ∃ t, Loop.Ends (guard m_pattern) (pass m_pattern) s t ∧
      t.flush.vec.map Piece.item = s.flush.vec.map Piece.item ++ tokens.map Token.item ∧
      t.flush.vec.any Piece.failed = s.vec.any Piece.failed := by
  induction tokens generalizing s with
  | nil => exact ⟨s,.stopped (guard_done here),by simp,flush_any s _ fun _ _ => rfl⟩
  | cons token tokens ih =>
    obtain ⟨follows,later⟩ := List.isChain_cons.mp chain
    rw [List.flatMap_cons] at here
    cases token with
    | literal text nonempty plain =>
      have fresh : s.nstr = [] := complete.resolve_right fun none => by simp [Token.isLiteral] at none
      obtain ⟨begin,reads⟩ := reads_text here plain
      have next : ∀ first ∈ tokens.head?, first.isLiteral = false := fun first member => by
        cases first with
        | literal => exact (follows _ member).elim
        | directive => rfl
      obtain ⟨t,ends,items,errors⟩ := ih (s := { s with
        i := s.i + text.length, nstr := s.nstr ++ text, begin := begin }) later (drop_append here) (.inr next)
      refine ⟨t,reads t ends,?_,errors⟩
      rw [items,flush_fresh fresh]
      simp [flush,fresh,nonempty,Piece.item,Token.item]
    | directive letter fmt =>
      have stops : fmt = none → Directive.Stops (tokens.flatMap Token.spell) := by
        rintro rfl
        cases tokens with
        | nil => exact fun c first => by cases first
        | cons next tokens => exact Token.follows_stops (follows next rfl) _
      obtain ⟨n,behind,passed⟩ := pass_token here stops
      have fresh : s.flush.nstr = [] := flush_nstr s
      obtain ⟨t,ends,items,errors⟩ := ih (s := { s.flush with
        vec := s.flush.vec ++ [.directive s.i [letter.char] (fmt.elim [] Subtype.val)], i := n })
        later behind (.inl fresh)
      rw [Token.spell_directive] at here
      refine ⟨t,.pass (guard_live here) passed ends,?_,?_⟩
      · rw [items,flush_fresh (by exact fresh)]
        simp [Piece.item,letter.lookup_char,Token.item]
      · rw [errors,List.any_append,flush_any s _ fun _ _ => rfl]
        simp [Piece.failed,Piece.broken,Piece.unknown,letter.lookup_char]

end Scan

/-- The three ways in which the text behind a percent sign goes on. -/
theorem behind_cases (text : Text) : ∃ name after, text = name ++ after ∧
    (∀ c ∈ name, Directive.nameChar c = true) ∧
    (Directive.Stops after ∨
      (∃ fmt rest, after = '{' :: (fmt ++ '}' :: rest) ∧ '}' ∉ fmt) ∨
      ∃ rest, after = '{' :: rest ∧ '}' ∉ rest) := by
  refine ⟨_,_,(List.takeWhile_append_dropWhile (p := Directive.nameChar)).symm,
    fun c member => List.mem_takeWhile_imp member,?_⟩
  have stops := List.head?_dropWhile_not Directive.nameChar text
  cases after : text.dropWhile Directive.nameChar with
  | nil => exact .inl fun c first => by cases first
  | cons c rest =>
    by_cases opened : c = '{'
    · subst opened
      by_cases closed : '}' ∈ rest
      · obtain ⟨fmt,behind,split,inside⟩ := List.eq_append_cons_of_mem closed
        exact .inr (.inl ⟨fmt,behind,by rw [split],inside⟩)
      · exact .inr (.inr ⟨rest,rfl,closed⟩)
    · refine .inl fun d first => ?_
      cases first
      rw [after] at stops
      exact ⟨stops,opened⟩

theorem spells_char (plain : c ≠ '%') (spelled : Spells tokens text) : ∃ others, Spells others (c :: text) := by
  obtain ⟨chain,rfl⟩ := spelled
  cases tokens with
  | nil => exact ⟨[.literal [c] (by simp) (by simpa using plain.symm)],by simp [Spells,Token.spell]⟩
  | cons first tokens =>
    cases first with
    | literal text nonempty clean =>
      refine ⟨.literal (c :: text) (by simp) (by simp [plain.symm,clean]) :: tokens,?_,rfl⟩
      rw [List.isChain_cons] at chain ⊢
      refine ⟨fun next member => ?_,chain.2⟩
      have follows := chain.1 next member
      cases next
      · exact follows
      · trivial
    | directive letter fmt =>
      exact ⟨.literal [c] (by simp) (by simpa using plain.symm) :: .directive letter fmt :: tokens,
        List.isChain_cons_cons.mpr ⟨trivial,chain⟩,rfl⟩

theorem spells_directive (letter : Letter) (fmt : Option {fmt : Text // '}' ∉ fmt}) (spelled : Spells tokens text)
    (stops : fmt = none → Directive.Stops text) :
    Spells (.directive letter fmt :: tokens) ((Token.directive letter fmt).spell ++ text) := by
  obtain ⟨chain,rfl⟩ := spelled
  refine ⟨List.isChain_cons.mpr ⟨fun next member => ?_,chain⟩,rfl⟩
  cases fmt with
  | none =>
    obtain ⟨more,rfl⟩ := List.head?_eq_some_iff.mp member
    exact Token.stops_follows (stops rfl)
  | some => cases next <;> trivial

namespace Scan
variable {m_pattern : Text}

theorem pass_named {s : Scan} (here : m_pattern.drop s.i = '%' :: rest) (single : rest.head? ≠ some '%')
    (closed : (Directive.scan m_pattern s.i).fmt_status = 0) :
    (∃ piece ∈ (pass m_pattern s).vec, piece.failed = true) ∨
      (∃ letter : Letter, (Directive.scan m_pattern s.i).str = [letter.char]) ∧
        (pass m_pattern s).i = (Directive.scan m_pattern s.i).n := by
  rw [pass_directive here single closed]
  cases found : s_format_items.lookup (Directive.scan m_pattern s.i).str with
  | none =>
    refine .inl ⟨_,List.mem_append_right _ (List.mem_singleton_self _),?_⟩
    simp [Piece.failed,Piece.unknown,found]
  | some => exact .inr ⟨Letter.lookup_some found,rfl⟩

/-- What a pass does at a percent sign: it pushes an error or reads a directive of the
grammar. -/
theorem pass_percent {s : Scan} (here : m_pattern.drop s.i = '%' :: rest) (single : rest.head? ≠ some '%') :
    (∃ piece ∈ (pass m_pattern s).vec, piece.failed = true) ∨
      ∃ letter fmt after, '%' :: rest = (Token.directive letter fmt).spell ++ after ∧
        (fmt = none → Directive.Stops after) ∧ m_pattern.drop (pass m_pattern s).i = after := by
  obtain ⟨name,after,split,letters,shape⟩ := behind_cases rest
  have behind := (drop_eq_cons here).2.1
  rw [split] at behind
  obtain stops | ⟨fmt,after,rfl,inside⟩ | ⟨after,rfl,unclosed⟩ := shape
  · obtain ⟨closed,str,_,next⟩ := Directive.scan_name behind letters stops
    refine (pass_named here single closed).imp_right ?_
    rintro ⟨⟨letter,registered⟩,position⟩
    rw [str] at registered
    exact ⟨letter,none,after,by rw [split,registered]; rfl,fun _ => stops,by rw [position,next]⟩
  · obtain ⟨closed,str,_,next⟩ := Directive.scan_format behind letters inside
    refine (pass_named here single closed).imp_right ?_
    rintro ⟨⟨letter,registered⟩,position⟩
    rw [str] at registered
    refine ⟨letter,some ⟨fmt,inside⟩,after,?_,nofun,by rw [position,next]⟩
    rw [split,registered]
    simp [Token.spell]
  · have open_ := (Directive.scan_unclosed behind letters unclosed).1
    rw [pass_unterminated here single open_]
    exact .inl ⟨_,List.mem_append_right _ (List.mem_singleton_self _),rfl⟩

/-- By induction on the length of the text that is still to be read. -/
theorem reads_pattern {s : Scan} (here : m_pattern.drop s.i = rest) (single : ¬ ['%','%'] <:+: rest) :
    ∃ t, Loop.Ends (guard m_pattern) (pass m_pattern) s t ∧ s.vec <+: t.vec ∧
      ((∀ piece ∈ t.vec, piece.failed = false) → ∃ tokens, Spells tokens rest) := by
  induction size : rest.length using Nat.strong_induction_on generalizing s rest with
  | _ bound ih =>
    cases rest with
    | nil => exact ⟨s,.stopped (guard_done here),List.prefix_refl _,fun _ => ⟨[],.nil,rfl⟩⟩
    | cons c rest =>
      have live := guard_live here
      have forward := pass_forward m_pattern s live
      have suffix : m_pattern.drop (pass m_pattern s).i <:+ c :: rest :=
        here ▸ List.drop_suffix_drop_left m_pattern forward.le
      have shorter : (m_pattern.drop (pass m_pattern s).i).length < bound := by
        rw [← size,← here,List.length_drop,List.length_drop]
        exact Nat.sub_lt_sub_left (drop_eq_cons here).2.2 forward
      obtain ⟨t,ends,kept,spelled⟩ := ih _ shorter (s := pass m_pattern s) rfl
        (fun inside => single (inside.trans suffix.isInfix)) rfl
      refine ⟨t,.pass live rfl ends,(pass_grows m_pattern s).trans kept,fun clean => ?_⟩
      obtain ⟨tokens,spells⟩ := spelled clean
      by_cases percent : c = '%'
      · subst percent
        have alone : rest.head? ≠ some '%' := fun first => by
          obtain ⟨more,rfl⟩ := List.head?_eq_some_iff.mp first
          exact single ⟨[],more,rfl⟩
        obtain ⟨piece,pushed,failed⟩ | ⟨letter,fmt,after,split,stops,behind⟩ := pass_percent here alone
        · exact absurd failed (by simp [clean piece (kept.subset pushed)])
        · rw [behind] at spells
          exact ⟨_,split ▸ spells_directive letter fmt spells stops⟩
      · rw [pass_char here percent,(drop_eq_cons here).2.1] at spells
        exact spells_char percent spells

end Scan

/-- An item reports an error exactly for the patterns that no tokens spell; of all others
the items are those of the tokens. -/
theorem init_parses (m_pattern : Text) (m_error : Bool) (single : ¬ ['%','%'] <:+: m_pattern) :
    (LogFormatter.new m_pattern m_error).m_items = (Scan.run m_pattern m_error).vec.map Piece.item ∧
      ((∀ piece ∈ (Scan.run m_pattern m_error).vec, piece.failed = false) ↔
        ∃ tokens, Spells tokens m_pattern) ∧
      ∀ tokens, Spells tokens m_pattern →
        (LogFormatter.new m_pattern m_error).m_items = tokens.map Token.item := by
  have complete (tokens : List Token) (spells : Spells tokens m_pattern) :
      (Scan.run m_pattern m_error).vec.map Piece.item = tokens.map Token.item ∧
        (Scan.run m_pattern m_error).vec.any Piece.failed = false := by
    obtain ⟨t,ends,items,errors⟩ := Scan.reads_tokens (s := Scan.start m_error) spells.1 spells.2.symm (.inl rfl)
    rw [Scan.run_ends ends]
    exact ⟨items,errors⟩
  rw [new_eq]
  refine ⟨rfl,⟨fun clean => ?_,fun spelled piece member => ?_⟩,fun tokens spells => (complete tokens spells).1⟩
  · obtain ⟨t,ends,_,spelled⟩ := Scan.reads_pattern (s := Scan.start m_error) rfl single
    rw [Scan.run_ends ends] at clean
    exact spelled fun piece member => clean piece ((Scan.flush_grows t).subset member)
  · obtain ⟨tokens,spells⟩ := spelled
    simpa using List.any_eq_false.mp (complete tokens spells).2 piece member

theorem init_parses_date :
    (LogFormatter.new ['%','d','{','%','Y','}',' ','%','m'] false).m_items =
        (Scan.run ['%','d','{','%','Y','}',' ','%','m'] false).vec.map Piece.item ∧
      ((∀ piece ∈ (Scan.run ['%','d','{','%','Y','}',' ','%','m'] false).vec, piece.failed = false) ↔
        ∃ tokens, Spells tokens ['%','d','{','%','Y','}',' ','%','m']) ∧
      ∀ tokens, Spells tokens ['%','d','{','%','Y','}',' ','%','m'] →
        (LogFormatter.new ['%','d','{','%','Y','}',' ','%','m'] false).m_items = tokens.map Token.item :=
  init_parses _ false (by decide)

end Myriel

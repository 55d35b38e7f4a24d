import Myriel.Loop
import Myriel.Platform

/-! `LogFormatter::init`: the scanner that cuts a pattern into tuples, and the items built
from these. `isalpha` is that of the C locale. -/
namespace Myriel

/-- The subclasses of `LogFormatter::FormatItem`. Only two of them keep what their
constructor is given. -/
inductive FormatItem where
  | MessageFormatItem
  | DateFormatItem (m_format : Text)
  | ThreadIdFormatItem
  | FiberIdFormatItem
  | ThreadNameFormatItem
  | FileNameFormatItem
  | FileLineFormatItem
  | LevelFormatItem
  | NewLineFormatItem
  | TabFormatItem
  | NameFormatItem
  | StringFormatItem (m_string : Text)
  deriving DecidableEq

namespace FormatItem

/-- The constructor of `DateFormatItem`. -/
def date (format : Text) : FormatItem :=
  .DateFormatItem (if format.isEmpty then "%Y-%m-%d %H:%M:%S".toList else format)

end FormatItem

def s_format_items : List (Text × (Text → FormatItem)) := [
  (['d'],FormatItem.date),
  (['t'],fun _ => .ThreadIdFormatItem),
  (['N'],fun _ => .ThreadNameFormatItem),
  (['f'],fun _ => .FileNameFormatItem),
  (['l'],fun _ => .FileLineFormatItem),
  (['T'],fun _ => .TabFormatItem),
  (['n'],fun _ => .NewLineFormatItem),
  (['p'],fun _ => .LevelFormatItem),
  (['c'],fun _ => .NameFormatItem),
  (['m'],fun _ => .MessageFormatItem),
  (['F'],fun _ => .FiberIdFormatItem)]

def pattern_error : Text := "<<pattern_error>>".toList
def error_format (str : Text) : Text := "<<error_format %".toList ++ str ++ ">>".toList

/-- `vec` holds one of these for each `push_back`, with the index in the pattern where its
text begins, which the source does not keep. -/
inductive Piece where
  | literal (start : Nat) (nstr : Text)
  | directive (start : Nat) (str fmt : Text)
  | unterminated (start : Nat) (fmt : Text)

namespace Piece

/-- The tuple that is pushed. -/
def tuple : Piece → Text × Text × Nat
  | literal _ nstr => (nstr,[],0)
  | directive _ str fmt => (str,fmt,1)
  | unterminated _ fmt => (pattern_error,fmt,0)

end Piece

def substr (m_pattern : Text) (pos count : Nat) : Text := (m_pattern.drop pos).take count

/-- The locals of the inner loop, and whether a `break` has left it. -/
structure Directive where
  n : Nat
  fmt_status : Nat
  fmt_begin : Nat
  str : Text
  fmt : Text
  left : Bool

namespace Directive

def start (i : Nat) : Directive := ⟨i + 1,0,0,[],[],false⟩

def guard (m_pattern : Text) (s : Directive) : Bool := !s.left && decide (s.n < m_pattern.length)

/-- One pass of the inner loop, with the `%` at index `i`. -/
def pass (m_pattern : Text) (i : Nat) (s : Directive) : Directive :=
  match m_pattern[s.n]? with
  | none => s
  | some c =>
    if s.fmt_status = 0 ∧ c.isAlpha = false ∧ c ≠ '{' ∧ c ≠ '}' then
      { s with str := substr m_pattern (i + 1) (s.n - i - 1), left := true }
    else if s.fmt_status = 0 ∧ c = '{' then
      { s with str := substr m_pattern (i + 1) (s.n - i - 1), fmt_status := 1, fmt_begin := s.n, n := s.n + 1 }
    else if s.fmt_status = 1 ∧ c = '}' then
      { s with
        fmt := substr m_pattern (s.fmt_begin + 1) (s.n - s.fmt_begin - 1)
        fmt_status := 0, n := s.n + 1, left := true }
    else if s.n + 1 = m_pattern.length ∧ s.str = [] then
      { s with n := s.n + 1, str := m_pattern.drop (i + 1) }
    else { s with n := s.n + 1 }

/-- The inner loop, which makes at most one pass for each character. -/
def scan (m_pattern : Text) (i : Nat) : Directive :=
  Loop.run (guard m_pattern) (pass m_pattern i) m_pattern.length (start i)

end Directive

/-- The locals of the outer loop. `begin` is the index of the first character of `nstr`,
which the source does not keep. -/
structure Scan where
  i : Nat
  nstr : Text
  begin : Nat
  vec : List Piece
  m_error : Bool

namespace Scan

def start (m_error : Bool) : Scan := ⟨0,[],0,[],m_error⟩

def append (s : Scan) (c : Char) : Scan :=
  { s with nstr := s.nstr ++ [c], begin := if s.nstr = [] then s.i else s.begin }

/-- What becomes of the literal text before a directive, and at the end. -/
def flush (s : Scan) : Scan :=
  if s.nstr = [] then s else { s with vec := s.vec ++ [.literal s.begin s.nstr], nstr := [] }

def guard (m_pattern : Text) (s : Scan) : Bool := decide (s.i < m_pattern.length)

/-- One pass of the outer loop, with the `++i` at its end. -/
def pass (m_pattern : Text) (s : Scan) : Scan :=
  match m_pattern[s.i]? with
  | none => s
  | some c =>
    if c ≠ '%' then { s.append c with i := s.i + 1 }
    else if m_pattern[s.i + 1]? = some '%' then { s.append '%' with i := s.i + 1 }
    else
      let d := Directive.scan m_pattern s.i
      if d.fmt_status = 0 then
        { s.flush with vec := s.flush.vec ++ [.directive s.i d.str d.fmt], i := d.n }
      else if d.fmt_status = 1 then
        { s with m_error := true, vec := s.vec ++ [.unterminated s.i d.fmt], i := s.i + 1 }
      else { s with i := s.i + 1 }

/-- The outer loop, which makes at most one pass for each character, and the text behind the
last directive. -/
def run (m_pattern : Text) (m_error : Bool) : Scan :=
  (Loop.run (guard m_pattern) (pass m_pattern) m_pattern.length (start m_error)).flush

end Scan

structure LogFormatter where
  m_pattern : Text
  m_items : List FormatItem
  m_error : Bool

namespace LogFormatter

/-- One pass of the loop over `vec`. -/
def build (f : LogFormatter) (entry : Text × Text × Nat) : LogFormatter :=
  let (str,fmt,type) := entry
  if type = 0 then { f with m_items := f.m_items ++ [.StringFormatItem str] }
  else
    match s_format_items.lookup str with
    | none =>
      { f with
        m_items := f.m_items ++ [.StringFormatItem (error_format str)]
        m_error := true }
    | some it => { f with m_items := f.m_items ++ [it fmt] }

def init (f : LogFormatter) : LogFormatter :=
  let s := Scan.run f.m_pattern f.m_error
  (s.vec.map Piece.tuple).foldl build { f with m_error := s.m_error }

/-- The constructor leaves `m_error` as the memory was. -/
def new (pattern : Text) (m_error : Bool) : LogFormatter := init ⟨pattern,[],m_error⟩

end LogFormatter

end Myriel

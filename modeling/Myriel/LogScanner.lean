import Myriel.LogFormatter

/-! What the two loops of the scanner make of the text behind a position. -/
namespace Myriel

theorem drop_eq_cons {text rest : Text} (here : text.drop k = c :: rest) :
    text[k]? = some c ∧ text.drop (k + 1) = rest ∧ k < text.length := by
  refine ⟨?_,?_,?_⟩
  · rw [← List.head?_drop,here]; rfl
  · rw [← List.tail_drop,here]; rfl
  · by_contra short
    rw [List.drop_eq_nil_of_le (by omega)] at here
    cases here

theorem drop_append {text before after : Text} (split : text.drop k = before ++ after) :
    text.drop (k + before.length) = after := by
  rw [← List.drop_drop,split,List.drop_left]

/-- The count as the source writes it. -/
theorem substr_append {text before after : Text} (split : text.drop (k + 1) = before ++ after) :
    substr text (k + 1) (k + 1 + before.length - k - 1) = before := by
  have count : k + 1 + before.length - k - 1 = before.length := by omega
  rw [count,substr,split,List.take_left]

namespace Directive

/-- What the inner loop takes for the name of a directive. -/
def nameChar (c : Char) : Bool := c.isAlpha || c == '}'

/-- It stops in front of the text. -/
def Stops (text : Text) : Prop := ∀ c ∈ text.head?, nameChar c = false ∧ c ≠ '{'

section Loop
variable {m_pattern before name fmt after rest str : Text} {i k status opened : Nat} {c : Char}

theorem guard_live (here : m_pattern.drop k = c :: rest) :
    guard m_pattern ⟨k,status,opened,str,fmt,false⟩ = true := by
  simp [guard,(drop_eq_cons here).2.2]

theorem guard_done {s : Directive} (done : m_pattern.drop s.n = []) : guard m_pattern s = false := by
  simp [guard,List.drop_eq_nil_iff.mp done]

theorem guard_left {s : Directive} (left : s.left = true) : guard m_pattern s = false := by
  simp [guard,left]

theorem last_iff (here : m_pattern.drop k = c :: rest) : k + 1 = m_pattern.length ↔ rest = [] := by
  obtain ⟨_,behind,inside⟩ := drop_eq_cons here
  rw [← behind,List.drop_eq_nil_iff]
  omega

theorem pass_name (here : m_pattern.drop k = c :: rest) (letter : nameChar c = true) :
    pass m_pattern i ⟨k,0,0,[],[],false⟩ =
      ⟨k + 1,0,0,if rest = [] then m_pattern.drop (i + 1) else [],[],false⟩ := by
  have closed : c ≠ '{' := by rintro rfl; exact absurd letter (by decide)
  have inside : c.isAlpha = false → c = '}' := fun other => by simpa [nameChar,other] using letter
  by_cases last : rest = []
  · simp [pass,(drop_eq_cons here).1,closed,last_iff here,last]
    exact inside
  · simp [pass,(drop_eq_cons here).1,closed,last_iff here,last]
    exact inside

theorem pass_stop (here : m_pattern.drop k = c :: rest) (other : nameChar c = false) (closed : c ≠ '{') :
    pass m_pattern i ⟨k,0,0,[],[],false⟩ = ⟨k,0,0,substr m_pattern (i + 1) (k - i - 1),[],true⟩ := by
  have stop : c.isAlpha = false ∧ c ≠ '{' ∧ c ≠ '}' := by
    simp [nameChar] at other
    exact ⟨other.1,closed,other.2⟩
  simp [pass,(drop_eq_cons here).1,stop]

theorem pass_open (here : m_pattern.drop k = '{' :: rest) :
    pass m_pattern i ⟨k,0,0,[],[],false⟩ = ⟨k + 1,1,k,substr m_pattern (i + 1) (k - i - 1),[],false⟩ := by
  simp [pass,(drop_eq_cons here).1]

theorem pass_format (here : m_pattern.drop k = c :: rest) (inside : c ≠ '}') :
    pass m_pattern i ⟨k,1,opened,str,[],false⟩ =
      ⟨k + 1,1,opened,if rest = [] ∧ str = [] then m_pattern.drop (i + 1) else str,[],false⟩ := by
  by_cases last : rest = [] ∧ str = [] <;>
    simp [pass,(drop_eq_cons here).1,inside,last_iff here,last]

theorem pass_close (here : m_pattern.drop k = '}' :: rest) :
    pass m_pattern i ⟨k,1,opened,str,[],false⟩ =
      ⟨k + 1,0,opened,str,substr m_pattern (opened + 1) (k - opened - 1),true⟩ := by
  simp [pass,(drop_eq_cons here).1]

/-- Along a name the loop only counts. -/
theorem reads_name (here : m_pattern.drop k = name ++ after) (letters : ∀ c ∈ name, nameChar c = true)
    (more : after ≠ [])
    (next : Loop.Ends (guard m_pattern) (pass m_pattern i) ⟨k + name.length,0,0,[],[],false⟩ t) :
    Loop.Ends (guard m_pattern) (pass m_pattern i) ⟨k,0,0,[],[],false⟩ t := by
  induction name generalizing k with
  | nil => exact next
  | cons c name ih =>
    apply Loop.Ends.pass (guard_live here) (pass_name here (letters c (by simp)))
    rw [if_neg (by simp [more])]
    apply ih (drop_eq_cons here).2.1 fun other member => letters other (by simp [member])
    rwa [List.length_cons,Nat.add_comm name.length,← Nat.add_assoc] at next

/-- At the end of the pattern the name is what is behind the `%`. -/
theorem reads_last_name (here : m_pattern.drop k = c :: name)
    (letters : ∀ other ∈ c :: name, nameChar other = true) :
    Loop.Ends (guard m_pattern) (pass m_pattern i) ⟨k,0,0,[],[],false⟩
      ⟨k + name.length + 1,0,0,m_pattern.drop (i + 1),[],false⟩ := by
  induction name generalizing k c with
  | nil =>
    apply Loop.Ends.pass (guard_live here) (pass_name here (letters c (by simp)))
    rw [if_pos rfl]
    exact Loop.Ends.stopped (guard_done (drop_eq_cons here).2.1)
  | cons d name ih =>
    apply Loop.Ends.pass (guard_live here) (pass_name here (letters c (by simp)))
    rw [if_neg (by simp)]
    have rest := ih (drop_eq_cons here).2.1 fun other member => letters other (List.mem_cons_of_mem c member)
    rwa [Nat.add_right_comm k 1] at rest

theorem reads_format (here : m_pattern.drop k = fmt ++ after) (inside : '}' ∉ fmt) (more : after ≠ [])
    (next : Loop.Ends (guard m_pattern) (pass m_pattern i) ⟨k + fmt.length,1,opened,str,[],false⟩ t) :
    Loop.Ends (guard m_pattern) (pass m_pattern i) ⟨k,1,opened,str,[],false⟩ t := by
  induction fmt generalizing k with
  | nil => exact next
  | cons c fmt ih =>
    rw [List.mem_cons,not_or] at inside
    apply Loop.Ends.pass (guard_live here) (pass_format here (Ne.symm inside.1))
    rw [if_neg (by simp [more])]
    apply ih (drop_eq_cons here).2.1 inside.2
    rwa [List.length_cons,Nat.add_comm fmt.length,← Nat.add_assoc] at next

/-- A format that is not closed leaves the status at 1. -/
theorem reads_unclosed (here : m_pattern.drop k = rest) (inside : '}' ∉ rest) :
    ∃ t, Loop.Ends (guard m_pattern) (pass m_pattern i) ⟨k,1,opened,str,[],false⟩ t ∧ t.fmt_status = 1 ∧
      t.fmt = [] := by
  induction rest generalizing k str with
  | nil => exact ⟨_,Loop.Ends.stopped (guard_done here),rfl,rfl⟩
  | cons c rest ih =>
    rw [List.mem_cons,not_or] at inside
    obtain ⟨t,ends,open_⟩ := ih (drop_eq_cons here).2.1 inside.2
    exact ⟨t,Loop.Ends.pass (guard_live here) (pass_format here (Ne.symm inside.1)) ends,open_⟩

end Loop

theorem guard_inside (live : guard m_pattern s = true) : s.left = false ∧ s.n < m_pattern.length := by
  simpa [guard] using live

theorem pass_cases (m_pattern : Text) (i : Nat) (s : Directive) (live : guard m_pattern s = true) :
    (pass m_pattern i s).n = s.n ∧ (pass m_pattern i s).left = true ∨ (pass m_pattern i s).n = s.n + 1 := by
  have found := List.getElem?_eq_getElem (guard_inside live).2
  simp only [pass,found]
  split_ifs <;> simp

theorem scan_ends (ends : Loop.Ends (guard m_pattern) (pass m_pattern i) (start i) t) :
    scan m_pattern i = t := by
  apply ends.run_eq fun s => if s.left then 0 else m_pattern.length - s.n
  · intro s live
    obtain ⟨inside,less⟩ := guard_inside live
    obtain ⟨same,left⟩ | next := pass_cases m_pattern i s live
    · rw [if_pos left,if_neg (Bool.eq_false_iff.mp inside)]; omega
    · rw [next,if_neg (Bool.eq_false_iff.mp inside)]
      have fewer := Nat.sub_lt_sub_left less (Nat.lt_succ_self s.n)
      split
      · exact Nat.zero_lt_of_lt fewer
      · exact fewer
  · rw [if_neg (by simp [start])]; omega

theorem scan_forward (m_pattern : Text) (i : Nat) : i < (scan m_pattern i).n := by
  apply Loop.run_invariant (guard m_pattern) (pass m_pattern i) fun s => i < s.n
  · intro s behind live
    obtain ⟨same,_⟩ | next := pass_cases m_pattern i s live <;> omega
  · exact Nat.lt_succ_self i

section Scan
variable {m_pattern name fmt after rest : Text} {i : Nat}

theorem scan_name (behind : m_pattern.drop (i + 1) = name ++ after)
    (letters : ∀ c ∈ name, nameChar c = true)
    (stops : Stops after) :
    (scan m_pattern i).fmt_status = 0 ∧ (scan m_pattern i).str = name ∧ (scan m_pattern i).fmt = [] ∧
      m_pattern.drop (scan m_pattern i).n = after := by
  cases after with
  | nil =>
    rw [List.append_nil] at behind
    cases name with
    | nil =>
      rw [scan_ends (.stopped (guard_done behind))]
      exact ⟨rfl,rfl,rfl,behind⟩
    | cons c name =>
      rw [scan_ends (reads_last_name behind letters)]
      refine ⟨rfl,behind,rfl,?_⟩
      rw [← List.append_nil (c :: name)] at behind
      exact drop_append behind
  | cons c after =>
    obtain ⟨other,closed⟩ := stops c rfl
    have here := drop_append behind
    rw [scan_ends (reads_name behind letters (by simp) (.pass (guard_live here)
      (pass_stop here other closed) (.stopped (guard_left rfl))))]
    exact ⟨rfl,substr_append behind,rfl,here⟩

theorem scan_format (behind : m_pattern.drop (i + 1) = name ++ '{' :: (fmt ++ '}' :: after))
    (letters : ∀ c ∈ name, nameChar c = true) (inside : '}' ∉ fmt) :
    (scan m_pattern i).fmt_status = 0 ∧ (scan m_pattern i).str = name ∧ (scan m_pattern i).fmt = fmt ∧
      m_pattern.drop (scan m_pattern i).n = after := by
  have opened := drop_append behind
  have format := (drop_eq_cons opened).2.1
  have closed := drop_append format
  rw [scan_ends (reads_name behind letters (by simp) (.pass (guard_live opened) (pass_open opened)
    (reads_format format inside (by simp) (.pass (guard_live closed) (pass_close closed)
      (.stopped (guard_left rfl))))))]
  exact ⟨rfl,substr_append behind,substr_append format,(drop_eq_cons closed).2.1⟩

theorem scan_unclosed (behind : m_pattern.drop (i + 1) = name ++ '{' :: rest)
    (letters : ∀ c ∈ name, nameChar c = true) (inside : '}' ∉ rest) :
    (scan m_pattern i).fmt_status = 1 ∧ (scan m_pattern i).fmt = [] := by
  have opened := drop_append behind
  obtain ⟨t,ends,open_⟩ := reads_unclosed (i := i) (drop_eq_cons opened).2.1 inside
  rw [scan_ends (reads_name behind letters (by simp) (.pass (guard_live opened) (pass_open opened) ends))]
  exact open_

end Scan

end Directive

namespace Scan
variable {m_pattern rest text after : Text} {s t : Scan} {m_error : Bool}

theorem guard_live (here : m_pattern.drop s.i = c :: rest) : guard m_pattern s = true := by
  simp [guard,(drop_eq_cons here).2.2]

theorem guard_done (done : m_pattern.drop s.i = []) : guard m_pattern s = false := by
  simp [guard,List.drop_eq_nil_iff.mp done]

theorem pass_forward (m_pattern : Text) (s : Scan) (live : guard m_pattern s = true) :
    s.i < (pass m_pattern s).i := by
  have found : m_pattern[s.i]? = some _ := List.getElem?_eq_getElem (by simpa [guard] using live)
  have behind := Directive.scan_forward m_pattern s.i
  simp only [pass,found]
  split_ifs <;> simp [behind]

theorem run_ends (ends : Loop.Ends (guard m_pattern) (pass m_pattern) (start m_error) t) :
    run m_pattern m_error = t.flush := by
  rw [run,ends.run_eq fun s => m_pattern.length - s.i]
  · intro s live
    exact Nat.sub_lt_sub_left (by simpa [guard] using live) (pass_forward m_pattern s live)
  · exact Nat.sub_le _ _

theorem pass_char (here : m_pattern.drop s.i = c :: rest) (plain : c ≠ '%') :
    pass m_pattern s = { s.append c with i := s.i + 1 } := by
  simp [pass,(drop_eq_cons here).1,plain]

theorem pass_escape (here : m_pattern.drop s.i = '%' :: '%' :: rest) :
    pass m_pattern s = { s.append '%' with i := s.i + 1 } := by
  have next : m_pattern[s.i + 1]? = some '%' := (drop_eq_cons (drop_eq_cons here).2.1).1
  simp [pass,(drop_eq_cons here).1,next]

theorem next_single (here : m_pattern.drop s.i = '%' :: rest) (single : rest.head? ≠ some '%') :
    m_pattern[s.i + 1]? ≠ some '%' := by
  rwa [← List.head?_drop,(drop_eq_cons here).2.1]

theorem pass_directive (here : m_pattern.drop s.i = '%' :: rest) (single : rest.head? ≠ some '%')
    (closed : (Directive.scan m_pattern s.i).fmt_status = 0) :
    pass m_pattern s = { s.flush with
      vec := s.flush.vec ++
        [.directive s.i (Directive.scan m_pattern s.i).str (Directive.scan m_pattern s.i).fmt]
      i := (Directive.scan m_pattern s.i).n } := by
  simp [pass,(drop_eq_cons here).1,next_single here single,closed]

theorem pass_unterminated (here : m_pattern.drop s.i = '%' :: rest) (single : rest.head? ≠ some '%')
    (unclosed : (Directive.scan m_pattern s.i).fmt_status = 1) :
    pass m_pattern s =
      { s with
        m_error := true, i := s.i + 1
        vec := s.vec ++ [.unterminated s.i (Directive.scan m_pattern s.i).fmt] } := by
  simp [pass,(drop_eq_cons here).1,next_single here single,unclosed]

theorem flush_fresh (fresh : s.nstr = []) : s.flush = s := by
  rw [flush,if_pos fresh]

theorem flush_nstr (s : Scan) : s.flush.nstr = [] := by
  unfold flush
  split
  · assumption
  · rfl

theorem flush_grows (s : Scan) : s.vec <+: s.flush.vec := by
  unfold flush
  split
  · exact List.prefix_refl _
  · exact List.prefix_append _ _

theorem pass_grows (m_pattern : Text) (s : Scan) : s.vec <+: (pass m_pattern s).vec := by
  unfold pass
  split
  · exact List.prefix_refl _
  · dsimp only
    split_ifs
    · exact List.prefix_refl _
    · exact List.prefix_refl _
    · exact (flush_grows s).trans (List.prefix_append _ _)
    · exact List.prefix_append _ _
    · exact List.prefix_refl _

theorem reads_text (here : m_pattern.drop s.i = text ++ after) (plain : '%' ∉ text) :
    ∃ begin, ∀ t, Loop.Ends (guard m_pattern) (pass m_pattern)
      { s with i := s.i + text.length, nstr := s.nstr ++ text, begin := begin } t →
        Loop.Ends (guard m_pattern) (pass m_pattern) s t := by
  induction text generalizing s with
  | nil => exact ⟨s.begin,fun t ends => by simpa using ends⟩
  | cons c text ih =>
    rw [List.mem_cons,not_or] at plain
    have passed := pass_char here (Ne.symm plain.1)
    obtain ⟨begin,later⟩ := ih (s := { s.append c with i := s.i + 1 }) (drop_eq_cons here).2.1 plain.2
    refine ⟨begin,fun t ends => .pass (guard_live here) passed (later t ?_)⟩
    simpa [append,Nat.add_assoc,Nat.add_comm 1] using ends

end Scan

namespace Piece

/-- The two kinds of tuples whose items report an error. -/
def broken : Piece → Bool
  | unterminated _ _ => true
  | _ => false

def unknown : Piece → Bool
  | directive _ str _ => (s_format_items.lookup str).isNone
  | _ => false

def failed (piece : Piece) : Bool := piece.broken || piece.unknown

/-- The item that is built for the tuple. -/
def item : Piece → FormatItem
  | literal _ nstr => .StringFormatItem nstr
  | directive _ str fmt =>
    match s_format_items.lookup str with
    | none => .StringFormatItem (error_format str)
    | some it => it fmt
  | unterminated _ _ => .StringFormatItem pattern_error

theorem any_failed (vec : List Piece) : (vec.any broken || vec.any unknown) = vec.any failed := by
  induction vec with
  | nil => rfl
  | cons piece vec ih =>
    simp only [List.any_cons,← ih,failed]
    ac_rfl

end Piece

namespace LogFormatter

theorem build_tuple (f : LogFormatter) (piece : Piece) :
    build f piece.tuple =
      { f with m_items := f.m_items ++ [piece.item], m_error := f.m_error || piece.unknown } := by
  cases piece with
  | literal | unterminated => simp [build,Piece.tuple,Piece.item,Piece.unknown]
  | directive start str fmt =>
    cases found : s_format_items.lookup str <;>
      simp [build,Piece.tuple,Piece.item,Piece.unknown,found]

theorem build_all (f : LogFormatter) (vec : List Piece) :
    (vec.map Piece.tuple).foldl build f =
      { f with m_items := f.m_items ++ vec.map Piece.item, m_error := f.m_error || vec.any Piece.unknown } := by
  induction vec generalizing f with
  | nil => simp
  | cons piece vec ih =>
    rw [List.map_cons,List.foldl_cons,ih,build_tuple]
    simp [Bool.or_assoc]

end LogFormatter

namespace Scan
variable {m_pattern : Text} {s : Scan} {m_error : Bool}

theorem flush_any (s : Scan) (kind : Piece → Bool) (literal : ∀ start nstr, kind (.literal start nstr) = false) :
    s.flush.vec.any kind = s.vec.any kind := by
  unfold flush
  split <;> simp [literal]

theorem flush_error (s : Scan) : s.flush.m_error = s.m_error := by
  unfold flush
  split <;> rfl

/-- The scanner raises `m_error` with the tuples for braces that nothing closes. -/
theorem pass_error (m_pattern : Text) (flagged : s.m_error = (m_error || s.vec.any Piece.broken)) :
    (pass m_pattern s).m_error = (m_error || (pass m_pattern s).vec.any Piece.broken) := by
  have kept := flush_any s Piece.broken fun _ _ => rfl
  unfold pass
  split
  · exact flagged
  · dsimp only
    split_ifs <;> simp [append,Piece.broken,kept,flush_error,flagged]

theorem run_error (m_pattern : Text) (m_error : Bool) :
    (run m_pattern m_error).m_error = (m_error || (run m_pattern m_error).vec.any Piece.broken) := by
  have flagged := Loop.run_invariant (guard m_pattern) (pass m_pattern)
    (fun s => s.m_error = (m_error || s.vec.any Piece.broken)) (fun _ flagged _ => pass_error m_pattern flagged)
    (show (start m_error).m_error = _ by simp [start]) m_pattern.length
  rw [run,flush_any _ Piece.broken fun _ _ => rfl,← flagged,flush_error]

end Scan

/-- The items are those of the tuples, in their order, and `m_error` is raised with the
first one that reports an error. -/
theorem new_eq (m_pattern : Text) (m_error : Bool) :
    LogFormatter.new m_pattern m_error =
      ⟨m_pattern,(Scan.run m_pattern m_error).vec.map Piece.item,
        m_error || (Scan.run m_pattern m_error).vec.any Piece.failed⟩ := by
  rw [LogFormatter.new,LogFormatter.init,LogFormatter.build_all]
  rw [Scan.run_error,List.nil_append,Bool.or_assoc,Piece.any_failed]

end Myriel

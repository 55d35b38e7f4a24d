import Myriel.LogPattern

/-! Every pattern, well-formed or not, cut into the segments that the scanner sees, and the
tuples it makes of them. -/
namespace Myriel

inductive Segment where
  /-- a character of literal text -/
  | char (c : Char)
  /-- the first of two percent signs; the second one is looked at again -/
  | escape
  /-- a directive, with what stands between its braces -/
  | closed (name : Text) (fmt : Option Text)
  /-- a percent sign with a brace that nothing closes; what is behind it is looked at again -/
  | unclosed
  deriving DecidableEq

namespace Segment

def length : Segment → Nat
  | char _ | escape | unclosed => 1
  | closed name none => 1 + name.length
  | closed name (some fmt) => name.length + fmt.length + 3

def isText : Segment → Bool
  | char _ | escape => true
  | closed _ _ | unclosed => false

end Segment

/-- The segments of a text. -/
inductive Cuts : List Segment → Text → Prop where
  | nil : Cuts [] []
  | char (plain : c ≠ '%') (rest : Cuts segments text) : Cuts (.char c :: segments) (c :: text)
  | escape (rest : Cuts segments ('%' :: text)) : Cuts (.escape :: segments) ('%' :: '%' :: text)
  | name (letters : ∀ c ∈ name, Directive.nameChar c = true) (stops : Directive.Stops after)
      (single : (name ++ after).head? ≠ some '%') (rest : Cuts segments after) :
      Cuts (.closed name none :: segments) ('%' :: (name ++ after))
  | format (letters : ∀ c ∈ name, Directive.nameChar c = true) (inside : '}' ∉ fmt)
      (rest : Cuts segments after) :
      Cuts (.closed name (some fmt) :: segments) ('%' :: (name ++ '{' :: (fmt ++ '}' :: after)))
  | unclosed (letters : ∀ c ∈ name, Directive.nameChar c = true) (inside : '}' ∉ after)
      (rest : Cuts segments (name ++ '{' :: after)) :
      Cuts (.unclosed :: segments) ('%' :: (name ++ '{' :: after))

/-- Literal text that is pending, with the index where it begins. -/
structure Pending where
  begin : Nat
  nstr : Text

namespace Pending

def empty : Pending := ⟨0,[]⟩

def append (pending : Pending) (k : Nat) (c : Char) : Pending :=
  ⟨if pending.nstr = [] then k else pending.begin,pending.nstr ++ [c]⟩

def flush (pending : Pending) : List Piece :=
  if pending.nstr = [] then [] else [.literal pending.begin pending.nstr]

end Pending

/-- The tuples for some segments, the first of which begins at index `k`. -/
def pieces (k : Nat) (pending : Pending) : List Segment → List Piece
  | [] => pending.flush
  | .char c :: segments => pieces (k + 1) (pending.append k c) segments
  | .escape :: segments => pieces (k + 1) (pending.append k '%') segments
  | .closed name fmt :: segments =>
    pending.flush ++ .directive k name (fmt.getD []) ::
      pieces (k + (Segment.closed name fmt).length) .empty segments
  | .unclosed :: segments => .unterminated k [] :: pieces (k + 1) pending segments

theorem cuts_total (text : Text) : ∃ segments, Cuts segments text := by
  induction size : text.length using Nat.strong_induction_on generalizing text with
  | _ bound ih =>
    subst size
    cases text with
    | nil => exact ⟨[],.nil⟩
    | cons c rest =>
      have shorter (after : Text) (split : after.length ≤ rest.length) : ∃ segments, Cuts segments after :=
        ih after.length (by simp; omega) after rfl
      by_cases percent : c = '%'
      · subst percent
        by_cases double : rest.head? = some '%'
        · obtain ⟨more,rfl⟩ := List.head?_eq_some_iff.mp double
          obtain ⟨segments,cuts⟩ := shorter ('%' :: more) (le_refl _)
          exact ⟨_,.escape cuts⟩
        · obtain ⟨name,after,rfl,letters,shape⟩ := behind_cases rest
          obtain stops | ⟨fmt,after,rfl,inside⟩ | ⟨after,rfl,unclosed⟩ := shape
          · obtain ⟨segments,cuts⟩ := shorter after (by simp)
            exact ⟨_,.name letters stops double cuts⟩
          · obtain ⟨segments,cuts⟩ := shorter after (by simp; omega)
            exact ⟨_,.format letters inside cuts⟩
          · obtain ⟨segments,cuts⟩ := shorter (name ++ '{' :: after) (le_refl _)
            exact ⟨_,.unclosed letters unclosed cuts⟩
      · obtain ⟨segments,cuts⟩ := shorter rest (le_refl _)
        exact ⟨_,.char percent cuts⟩

theorem pieces_fresh {pending : Pending} (fresh : pending.nstr = []) (k : Nat) (segments : List Segment) :
    pieces k pending segments = pieces k .empty segments := by
  induction segments generalizing k with
  | nil => simp [pieces,Pending.flush,Pending.empty,fresh]
  | cons segment segments ih =>
    cases segment with
    | char | escape => simp [pieces,Pending.append,Pending.empty,fresh]
    | closed => simp [pieces,Pending.flush,Pending.empty,fresh]
    | unclosed => simp [pieces,ih]

/-- In front of text, the rest of the pattern tells the index. -/
theorem pieces_index {m_pattern text : Text} (cuts : Cuts segments text) (first : m_pattern.drop n = text)
    (second : m_pattern.drop k = text) (pending : Pending) :
    pieces n pending segments = pieces k pending segments := by
  by_cases more : text = []
  · subst more
    cases cuts
    rfl
  · have lengths := congrArg List.length (first.trans second.symm)
    have inside : text.length ≠ 0 := by simpa using more
    rw [← first] at inside
    simp only [List.length_drop] at lengths inside
    have same : n = k := by omega
    rw [same]

theorem behind_name {m_pattern : Text} (here : m_pattern.drop k = '%' :: (name ++ after)) :
    m_pattern.drop (k + (Segment.closed name none).length) = after := by
  have split : m_pattern.drop k = ('%' :: name) ++ after := here
  simpa [Segment.length,Nat.add_comm 1] using drop_append split

theorem behind_format {m_pattern : Text}
    (here : m_pattern.drop k = '%' :: (name ++ '{' :: (fmt ++ '}' :: after))) :
    m_pattern.drop (k + (Segment.closed name (some fmt)).length) = after := by
  have split : m_pattern.drop k = ('%' :: (name ++ '{' :: (fmt ++ ['}']))) ++ after := by simpa using here
  have count : ('%' :: (name ++ '{' :: (fmt ++ ['}']))).length = (Segment.closed name (some fmt)).length := by
    simp [Segment.length]
    omega
  exact count ▸ drop_append split

namespace Scan
variable {m_pattern : Text} {s : Scan}

def pending (s : Scan) : Pending := ⟨s.begin,s.nstr⟩

theorem flush_vec (s : Scan) : s.flush.vec = s.vec ++ s.pending.flush := by
  by_cases fresh : s.nstr = [] <;> simp [flush,Pending.flush,pending,fresh]

theorem reads_closed {fmt : Option Text} (cuts : Cuts segments after)
    (here : m_pattern.drop s.i = '%' :: rest) (single : rest.head? ≠ some '%')
    (closed : (Directive.scan m_pattern s.i).fmt_status = 0)
    (str : (Directive.scan m_pattern s.i).str = name)
    (format : (Directive.scan m_pattern s.i).fmt = fmt.getD [])
    (next : m_pattern.drop (Directive.scan m_pattern s.i).n = after)
    (behind : m_pattern.drop (s.i + (Segment.closed name fmt).length) = after)
    (later : ∀ s : Scan, m_pattern.drop s.i = after → ∃ t, Loop.Ends (guard m_pattern) (pass m_pattern) s t ∧
      t.flush.vec = s.vec ++ pieces s.i s.pending segments) :
    ∃ t, Loop.Ends (guard m_pattern) (pass m_pattern) s t ∧
      t.flush.vec = s.vec ++ pieces s.i s.pending (.closed name fmt :: segments) := by
  obtain ⟨t,ends,vec⟩ := later (pass m_pattern s) (by rw [pass_directive here single closed]; exact next)
  refine ⟨t,.pass (guard_live here) rfl ends,?_⟩
  rw [vec,pass_directive here single closed,str,format,pieces_fresh (flush_nstr s),
    pieces_index cuts next behind,flush_vec]
  simp [pieces]

theorem brace_single (letters : ∀ c ∈ name, Directive.nameChar c = true) (rest : Text) :
    (name ++ '{' :: rest).head? ≠ some '%' := by
  cases name with
  | nil => simp
  | cons c name =>
    rintro ⟨⟩
    exact absurd (letters '%' (by simp)) (by decide)

/-- The scanner pushes the tuples of the segments, by induction on these. -/
theorem reads_segments (cuts : Cuts segments text) (here : m_pattern.drop s.i = text) :
    ∃ t, Loop.Ends (guard m_pattern) (pass m_pattern) s t ∧
      t.flush.vec = s.vec ++ pieces s.i s.pending segments := by
  induction cuts generalizing s with
  | nil => exact ⟨s,.stopped (guard_done here),flush_vec s⟩
  | char plain _ ih =>
    obtain ⟨t,ends,vec⟩ := ih (s := { s.append _ with i := s.i + 1 }) (drop_eq_cons here).2.1
    exact ⟨t,.pass (guard_live here) (pass_char here plain) ends,vec⟩
  | escape _ ih =>
    obtain ⟨t,ends,vec⟩ := ih (s := { s.append _ with i := s.i + 1 }) (drop_eq_cons here).2.1
    exact ⟨t,.pass (guard_live here) (pass_escape here) ends,vec⟩
  | @name name after segments letters stops single rest ih =>
    obtain ⟨closed,str,format,next⟩ := Directive.scan_name (drop_eq_cons here).2.1 letters stops
    exact reads_closed rest here single closed str format next (behind_name here) fun s => ih
  | @format name fmt segments after letters inside rest ih =>
    obtain ⟨closed,str,format,next⟩ := Directive.scan_format (drop_eq_cons here).2.1 letters inside
    exact reads_closed rest here (brace_single letters _) closed str format next (behind_format here) fun s => ih
  | @unclosed name after segments letters inside rest ih =>
    obtain ⟨open_,format⟩ := Directive.scan_unclosed (drop_eq_cons here).2.1 letters inside
    have single := brace_single letters after
    obtain ⟨t,ends,vec⟩ := ih (s := pass m_pattern s) (by
      rw [pass_unterminated here single open_]
      exact (drop_eq_cons here).2.1)
    refine ⟨t,.pass (guard_live here) rfl ends,?_⟩
    rw [vec,pass_unterminated here single open_,format]
    simp [pieces,pending]

theorem run_pieces (cuts : Cuts segments m_pattern) (m_error : Bool) :
    (run m_pattern m_error).vec = pieces 0 .empty segments := by
  obtain ⟨t,ends,vec⟩ := reads_segments (s := start m_error) cuts rfl
  rw [run_ends ends,vec]
  rfl

end Scan

/-! ### The order of the items -/

namespace Piece

def start : Piece → Nat
  | literal start _ | directive start _ _ | unterminated start _ => start

/-- What the item takes of the pattern at least: a literal its text, the others their `%`. -/
def stop : Piece → Nat
  | literal start nstr => start + nstr.length
  | directive start _ _ | unterminated start _ => start + 1

end Piece

/-- The items stand in the order of the pattern, and each literal is one stretch of it that
no other item begins in. -/
structure InOrder (m_pattern : Text) (vec : List Piece) : Prop where
  increasing : vec.Pairwise fun first second => first.start < second.start
  stretch : ∀ start nstr, .literal start nstr ∈ vec → substr m_pattern start nstr.length = nstr ∧
    ∀ piece ∈ vec, start < piece.start → start + nstr.length ≤ piece.start

/-- No literal text stands directly before a brace that nothing closes. -/
def Settled (segments : List Segment) : Prop :=
  segments.IsChain fun first second => ¬ (first.isText = true ∧ second = .unclosed)

/-- Pending text is pushed sooner or later. -/
theorem pending_pushed {pending : Pending} (some : pending.nstr ≠ []) (k : Nat) (segments : List Segment) :
    ∃ nstr, .literal pending.begin nstr ∈ pieces k pending segments := by
  induction segments generalizing k pending with
  | nil => exact ⟨pending.nstr,by simp [pieces,Pending.flush,some]⟩
  | cons segment segments ih =>
    have longer (c : Char) : ∃ nstr, .literal pending.begin nstr ∈
        pieces (k + 1) (pending.append k c) segments := by
      have longer : (pending.append k c).nstr ≠ [] := by simp [Pending.append]
      simpa [Pending.append,some] using ih longer (k + 1)
    cases segment with
    | char c => exact longer c
    | escape => exact longer '%'
    | closed => exact ⟨pending.nstr,by simp [pieces,Pending.flush,some]⟩
    | unclosed =>
      obtain ⟨nstr,member⟩ := ih some (k + 1)
      exact ⟨nstr,by simp [pieces,member]⟩

theorem append_begin {pending : Pending} (before : pending.nstr ≠ [] → pending.begin < k) (c : Char) :
    (pending.append k c).begin < k + 1 := by
  by_cases fresh : pending.nstr = []
  · simp [Pending.append,fresh]
  · have := before fresh
    simp only [Pending.append,fresh,if_false]
    omega

/-- Text that is pending at a brace that nothing closes is pushed behind the error. -/
theorem settled_of_increasing {pending : Pending} (before : pending.nstr ≠ [] → pending.begin < k)
    (increasing : (pieces k pending segments).Pairwise fun first second => first.start < second.start) :
    Settled segments ∧ (pending.nstr ≠ [] → segments.head? ≠ some .unclosed) := by
  induction segments generalizing k pending with
  | nil => exact ⟨.nil,by simp⟩
  | cons segment segments ih =>
    have text (c : Char) (increasing : (pieces (k + 1) (pending.append k c) segments).Pairwise
        fun first second => first.start < second.start) : Settled (segment :: segments) := by
      obtain ⟨settled,next⟩ := ih (fun _ => append_begin before c) increasing
      refine List.isChain_cons.mpr ⟨fun second member both => ?_,settled⟩
      exact next (by simp [Pending.append]) (both.2 ▸ member)
    cases segment with
    | char c => exact ⟨text c increasing,by simp⟩
    | escape => exact ⟨text '%' increasing,by simp⟩
    | closed name fmt =>
      have later := (List.pairwise_cons.mp (List.pairwise_append.mp increasing).2.1).2
      have settled := (ih (fun wrong => absurd rfl wrong) later).1
      exact ⟨List.isChain_cons.mpr ⟨by simp [Segment.isText],settled⟩,by simp⟩
    | unclosed =>
      obtain ⟨first,later⟩ := List.pairwise_cons.mp increasing
      have settled := (ih (fun some => Nat.lt_succ_of_lt (before some)) later).1
      refine ⟨List.isChain_cons.mpr ⟨by simp [Segment.isText],settled⟩,fun some _ => ?_⟩
      obtain ⟨nstr,member⟩ := pending_pushed some (k + 1) segments
      have behind : k < pending.begin := first _ member
      have := before some
      omega

def Pending.Stretch (pending : Pending) (m_pattern : Text) (k : Nat) : Prop :=
  pending.nstr ≠ [] → pending.begin + pending.nstr.length = k ∧
    substr m_pattern pending.begin pending.nstr.length = pending.nstr

def Pending.first (pending : Pending) (k : Nat) : Nat := if pending.nstr = [] then k else pending.begin

theorem Pending.Stretch.append {pending : Pending} (stretch : pending.Stretch m_pattern k)
    (here : m_pattern.drop k = c :: rest) : (pending.append k c).Stretch m_pattern (k + 1) := by
  intro _
  by_cases fresh : pending.nstr = []
  · simp [Pending.append,fresh,substr,here]
  · obtain ⟨count,text⟩ := stretch fresh
    have found : (m_pattern.drop pending.begin)[pending.nstr.length]? = some c := by
      rw [List.getElem?_drop,count]
      exact (drop_eq_cons here).1
    simp only [Pending.append,fresh,if_false,List.length_append,List.length_singleton]
    refine ⟨by omega,?_⟩
    rw [substr] at text ⊢
    rw [List.take_add_one,found,text]
    rfl

theorem append_first (pending : Pending) (k : Nat) (c : Char) :
    (pending.append k c).first (k + 1) = pending.first k := by
  simp [Pending.first,Pending.append]

/-- The items begin at the index or behind it, each one where the one before has ended, and
the literals are stretches of the pattern. -/
structure Laid (m_pattern : Text) (first : Nat) (vec : List Piece) : Prop where
  behind : ∀ piece ∈ vec, first ≤ piece.start
  apart : vec.Pairwise fun before after => before.stop ≤ after.start
  stretch : ∀ start nstr, .literal start nstr ∈ vec → nstr ≠ [] ∧ substr m_pattern start nstr.length = nstr

theorem Laid.earlier {earlier : Nat} (laid : Laid m_pattern first vec) (less : earlier ≤ first) :
    Laid m_pattern earlier vec :=
  ⟨fun piece member => le_trans less (laid.behind piece member),laid.apart,laid.stretch⟩

theorem Laid.cons (laid : Laid m_pattern (k + 1) vec) (start : piece.start = k) (stop : piece.stop = k + 1)
    (other : ∀ start nstr, piece ≠ .literal start nstr) : Laid m_pattern k (piece :: vec) where
  behind := by
    intro later member
    rcases List.mem_cons.mp member with rfl | member
    · omega
    · have := laid.behind later member
      omega
  apart := List.pairwise_cons.mpr ⟨fun later member => stop ▸ laid.behind later member,laid.apart⟩
  stretch := by
    intro start nstr member
    rcases List.mem_cons.mp member with rfl | member
    · exact absurd rfl (other _ _)
    · exact laid.stretch start nstr member

theorem Laid.flush {pending : Pending} (laid : Laid m_pattern k vec) (stretch : pending.Stretch m_pattern k) :
    Laid m_pattern (pending.first k) (pending.flush ++ vec) := by
  by_cases fresh : pending.nstr = []
  · simpa [Pending.flush,Pending.first,fresh] using laid
  · obtain ⟨count,text⟩ := stretch fresh
    simp only [Pending.flush,Pending.first,fresh,if_false,List.singleton_append]
    constructor
    · intro piece member
      rcases List.mem_cons.mp member with rfl | member
      · exact le_refl _
      · have := laid.behind piece member
        omega
    · refine List.pairwise_cons.mpr ⟨fun piece member => ?_,laid.apart⟩
      simpa [Piece.stop,count] using laid.behind piece member
    · intro start nstr member
      rcases List.mem_cons.mp member with same | member
      · cases same
        exact ⟨fresh,text⟩
      · exact laid.stretch start nstr member

theorem empty_stretch (m_pattern : Text) (k : Nat) : Pending.empty.Stretch m_pattern k :=
  fun wrong => absurd rfl wrong

theorem segment_ends (segment : Segment) (k : Nat) : k + 1 ≤ k + segment.length := by
  unfold Segment.length
  split <;> omega

theorem laid_closed {pending : Pending} (stretch : pending.Stretch m_pattern k)
    (later : Laid m_pattern (Pending.empty.first (k + (Segment.closed name fmt).length))
      (pieces (k + (Segment.closed name fmt).length) .empty segments)) :
    Laid m_pattern (pending.first k) (pieces k pending (.closed name fmt :: segments)) := by
  have directive : Laid m_pattern k (.directive k name (fmt.getD []) ::
      pieces (k + (Segment.closed name fmt).length) .empty segments) :=
    (later.earlier (segment_ends (.closed name fmt) k)).cons rfl rfl (by simp)
  exact directive.flush stretch

theorem laid_text {pending : Pending} {segment : Segment} (text : segment.isText = true)
    (here : m_pattern.drop k = c :: rest) (stretch : pending.Stretch m_pattern k)
    (settled : Settled (segment :: segments))
    (later : (pending.append k c).Stretch m_pattern (k + 1) → Settled segments →
      ((pending.append k c).nstr ≠ [] → segments.head? ≠ some .unclosed) →
      Laid m_pattern ((pending.append k c).first (k + 1)) (pieces (k + 1) (pending.append k c) segments)) :
    Laid m_pattern (pending.first k) (pieces (k + 1) (pending.append k c) segments) := by
  obtain ⟨follows,settled⟩ := List.isChain_cons.mp settled
  have laid := later (stretch.append here) settled fun _ first => follows _ first ⟨text,rfl⟩
  rwa [append_first] at laid

theorem pieces_laid {m_pattern : Text} {pending : Pending} (cuts : Cuts segments text)
    (here : m_pattern.drop k = text) (stretch : pending.Stretch m_pattern k) (settled : Settled segments)
    (next : pending.nstr ≠ [] → segments.head? ≠ some .unclosed) :
    Laid m_pattern (pending.first k) (pieces k pending segments) := by
  induction cuts generalizing k pending with
  | nil =>
    have nothing : Laid m_pattern k [] := ⟨by simp,.nil,by simp⟩
    simpa [pieces] using nothing.flush stretch
  | char plain _ ih => exact laid_text rfl here stretch settled (ih (drop_eq_cons here).2.1)
  | escape _ ih => exact laid_text rfl here stretch settled (ih (drop_eq_cons here).2.1)
  | name letters stops single rest ih =>
    exact laid_closed stretch (ih (behind_name here) (empty_stretch _ _) (List.isChain_cons.mp settled).2
      fun wrong => absurd rfl wrong)
  | format letters inside rest ih =>
    exact laid_closed stretch (ih (behind_format here) (empty_stretch _ _) (List.isChain_cons.mp settled).2
      fun wrong => absurd rfl wrong)
  | unclosed letters inside rest ih =>
    have fresh : pending.nstr = [] := by
      by_contra some
      exact next some rfl
    have later : Laid m_pattern (k + 1) (pieces (k + 1) .empty _) :=
      ih (drop_eq_cons here).2.1 (empty_stretch _ _) (List.isChain_cons.mp settled).2
        fun wrong => absurd rfl wrong
    have error : Laid m_pattern k (.unterminated k [] :: pieces (k + 1) .empty _) :=
      later.cons rfl rfl (by simp)
    simpa [pieces,Pending.first,fresh,pieces_fresh fresh] using error

theorem Piece.start_lt_stop {piece : Piece} (some : ∀ start nstr, piece = .literal start nstr → nstr ≠ []) :
    piece.start < piece.stop := by
  cases piece with
  | literal start nstr =>
    have := List.length_pos_of_ne_nil (some start nstr rfl)
    simp only [Piece.start,Piece.stop]
    omega
  | directive | unterminated => exact Nat.lt_succ_self _

theorem Laid.inOrder (laid : Laid m_pattern first vec) : InOrder m_pattern vec where
  increasing := by
    refine laid.apart.imp_of_mem fun before _ apart => ?_
    have ends := Piece.start_lt_stop fun start nstr same => (laid.stretch start nstr (same ▸ before)).1
    omega
  stretch := by
    intro start nstr member
    refine ⟨(laid.stretch start nstr member).2,fun piece other later => ?_⟩
    obtain ⟨front,back,rfl⟩ := List.append_of_mem member
    obtain ⟨_,behind,before⟩ := List.pairwise_append.mp laid.apart
    rcases List.mem_append.mp other with earlier | other
    · have ends : piece.start < piece.stop := Piece.start_lt_stop fun start nstr same =>
        (laid.stretch start nstr (same ▸ List.mem_append_left _ earlier)).1
      have apart : piece.stop ≤ start := before piece earlier (.literal start nstr) List.mem_cons_self
      omega
    · rcases List.mem_cons.mp other with rfl | other
      · exact absurd later (Nat.lt_irrefl _)
      · exact (List.pairwise_cons.mp behind).1 piece other

/-- For every pattern: the items stand in its order, each literal being one stretch of it,
exactly when no literal text stands directly before a brace that nothing closes. -/
theorem items_in_order_iff (m_pattern : Text) (m_error : Bool) :
    (LogFormatter.new m_pattern m_error).m_items = (Scan.run m_pattern m_error).vec.map Piece.item ∧
      (InOrder m_pattern (Scan.run m_pattern m_error).vec ↔
        ∃ segments, Cuts segments m_pattern ∧ Settled segments) := by
  refine ⟨by rw [new_eq],fun ordered => ?_,?_⟩
  · obtain ⟨segments,cuts⟩ := cuts_total m_pattern
    rw [Scan.run_pieces cuts] at ordered
    exact ⟨segments,cuts,(settled_of_increasing (fun wrong => absurd rfl wrong) ordered.increasing).1⟩
  · rintro ⟨segments,cuts,settled⟩
    rw [Scan.run_pieces cuts]
    exact (pieces_laid cuts rfl (empty_stretch _ _) settled fun wrong => absurd rfl wrong).inOrder

/-- The literal before the open brace comes behind the error, and goes on behind it. -/
theorem unclosed_out_of_order :
    (LogFormatter.new "abc%d\x7b".toList false).m_items =
      [.StringFormatItem pattern_error,.StringFormatItem "abcd\x7b".toList] ∧
    (Scan.run "abc%d\x7b".toList false).vec.map Piece.start = [3,0] ∧
    ¬ InOrder "abc%d\x7b".toList (Scan.run "abc%d\x7b".toList false).vec := by
  have starts : (Scan.run "abc%d\x7b".toList false).vec.map Piece.start = [3,0] := rfl
  refine ⟨rfl,starts,fun ordered => ?_⟩
  have increasing := List.pairwise_map.mpr ordered.increasing
  rw [starts] at increasing
  exact absurd increasing (by decide)

end Myriel

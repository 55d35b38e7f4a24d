import Myriel.LexicalCast
import Myriel.LogSegments
import Myriel.Logger

/-! `LogFormatter::format`: what the items write for an event. A date is expanded into a buffer
of fixed size, and whether it has fitted is not looked at. -/
namespace Myriel

def Logging.LogLevel.ToString : Logging.LogLevel → Text
  | TRACE => "TARCE".toList
  | DEBUG => "DEBUG".toList
  | INFO => "INFO".toList
  | WRAN => "WARN".toList
  | ERROR => "ERROR".toList
  | FATAL => "FATAL".toList
  | UNKNOW => "UNKNOW".toList

def Logging.LogLevel.FromString (str : Text) : Logging.LogLevel :=
  if str = "TRACE".toList ∨ str = "trace".toList then .TRACE
  else if str = "DEBUG".toList ∨ str = "debug".toList then .DEBUG
  else if str = "INFO".toList ∨ str = "info".toList then .INFO
  else if str = "WARN".toList ∨ str = "warn".toList then .WRAN
  else if str = "ERROR".toList ∨ str = "error".toList then .ERROR
  else if str = "FATAL".toList ∨ str = "fatal".toList then .FATAL
  else .UNKNOW

/-- The text of a level is read as that level again, but for the text of `TRACE`. -/
theorem Logging.LogLevel.fromString_toString (level : Logging.LogLevel) :
    FromString level.ToString = if level = .TRACE then .UNKNOW else level := by
  cases level <;> decide

structure LogEvent where
  m_threadId : Int
  m_fiberId : Nat
  m_fileLine : Nat
  m_time : BitVec 64
  m_ss : Text
  m_fileName : Text
  m_threadName : Text
  m_logger : Logging.Logger
  m_level : Logging.LogLevel

/-- The `uint64_t` becomes a `time_t`. -/
def LogEvent.getTime (event : LogEvent) : Int := event.m_time.toInt

/-- What a pointer to a string shows of it. -/
def c_str (s : Text) : Text := s.takeWhile (· ≠ '\x00')

/-- `localtime_r`, `none` where it fails, and what `strftime` makes of a format, which has no NUL
in it. Both know the locale and the time zone. -/
structure TimeLibrary (Tm : Type) where
  localtime : Int → Option Tm
  expand : Text → Tm → Text
  plain : ∀ format tm, '\x00' ∉ expand format tm

/-- The locals of one call that nothing has set: `tm`, and the characters from `buf` on, before
`strftime` and where it leaves them unspecified. -/
structure Uninitialised (Tm : Type) where
  tm : Tm
  buf : Text
  unspecified : Text

namespace TimeLibrary
variable {Tm : Type} (library : TimeLibrary Tm)

/-- `strftime`, with the characters from `buf` on. -/
def strftime (memory : Uninitialised Tm) (max : Nat) (format : Text) (tm : Tm) : Nat × Text :=
  let text := library.expand (c_str format) tm
  if text.length + 1 ≤ max then (text.length,text ++ '\x00' :: memory.buf.drop (text.length + 1))
  else (0,memory.unspecified)

/-- The text of a format at a time, if that can be broken down. -/
def Expands (format : Text) (time : Int) (text : Text) : Prop :=
  ∃ tm, library.localtime time = some tm ∧ text = library.expand (c_str format) tm

end TimeLibrary

section Format
variable {Tm : Type} (library : TimeLibrary Tm) (memory : Uninitialised Tm) (event : LogEvent)

/-- The `format` of `DateFormatItem`. -/
def dateText (m_format : Text) : Text :=
  let tm := (library.localtime event.getTime).getD memory.tm
  c_str (library.strftime memory 64 m_format tm).2

def FormatItem.format : FormatItem → Text
  | .MessageFormatItem => event.m_ss
  | .DateFormatItem m_format => dateText library memory event m_format
  | .ThreadIdFormatItem => to_string event.m_threadId
  | .FiberIdFormatItem => to_string event.m_fiberId
  | .ThreadNameFormatItem => event.m_threadName
  | .FileNameFormatItem => event.m_fileName
  | .FileLineFormatItem => to_string event.m_fileLine
  | .LevelFormatItem => event.m_level.ToString
  | .NewLineFormatItem => ['\n']
  | .TabFormatItem => ['\t']
  | .NameFormatItem => event.m_logger.m_name
  | .StringFormatItem m_string => m_string

end Format

namespace LogFormatter
variable {Tm : Type} (library : TimeLibrary Tm) (memory : Nat → Uninitialised Tm) (event : LogEvent)

def texts (f : LogFormatter) : List Text := f.m_items.mapIdx fun i item => item.format library (memory i) event

def format (f : LogFormatter) : Text := (f.texts library memory event).flatten

end LogFormatter

def dateFormat (fmt : Text) : Text := if fmt.isEmpty then "%Y-%m-%d %H:%M:%S".toList else fmt

/-- Whatever the memory was, the item at the index writes the expansion of the format. -/
def PrintedInFull (library : TimeLibrary Tm) (f : LogFormatter) (i : Nat) (fmt : Text) (event : LogEvent) : Prop :=
  ∃ text, library.Expands (dateFormat fmt) event.getTime text ∧
    ∀ memory, (f.texts library memory event)[i]? = some text

/-! ### One date -/

theorem c_str_plain {text : Text} (plain : '\x00' ∉ text) (rest : Text) : c_str (text ++ '\x00' :: rest) = text := by
  have each : ∀ c ∈ text, decide (c ≠ '\x00') = true := fun c member =>
    decide_eq_true fun nul => plain (nul ▸ member)
  rw [c_str,List.takeWhile_append_of_pos each]
  simp

theorem c_str_self {text : Text} (plain : '\x00' ∉ text) : c_str text = text :=
  List.takeWhile_eq_self_iff.mpr fun _ member => decide_eq_true fun nul => plain (nul ▸ member)

theorem dateText_fits {library : TimeLibrary Tm} {event : LogEvent} (known : library.localtime event.getTime = some tm)
    (fits : (library.expand (c_str m_format) tm).length < 64) (memory : Uninitialised Tm) :
    dateText library memory event m_format = library.expand (c_str m_format) tm := by
  have room : (library.expand (c_str m_format) tm).length + 1 ≤ 64 := fits
  simp only [dateText,known,Option.getD_some,TimeLibrary.strftime,room,if_true]
  exact c_str_plain (library.plain _ _) _

theorem dateText_long {library : TimeLibrary Tm} {event : LogEvent} (known : library.localtime event.getTime = some tm)
    (long : ¬ (library.expand (c_str m_format) tm).length < 64) (memory : Uninitialised Tm) :
    dateText library memory event m_format = c_str memory.unspecified := by
  have room : ¬ (library.expand (c_str m_format) tm).length + 1 ≤ 64 := long
  simp only [dateText,known,Option.getD_some,TimeLibrary.strftime,room,if_false]

/-! ### The item of a directive -/

theorem pieces_closed (k : Nat) (pending : Pending) (front back : List Segment) (name : Text) (fmt : Option Text) :
    ∃ start behind, pieces k pending (front ++ .closed name fmt :: back) =
      pieces k pending front ++ .directive start name (fmt.getD []) :: behind := by
  induction front generalizing k pending with
  | nil => exact ⟨k,_,rfl⟩
  | cons segment front ih =>
    cases segment with
    | char c => exact ih (k + 1) (pending.append k c)
    | escape => exact ih (k + 1) (pending.append k '%')
    | closed other format =>
      obtain ⟨start,behind,split⟩ := ih (k + (Segment.closed other format).length) .empty
      exact ⟨start,behind,by simp [pieces,split]⟩
    | unclosed =>
      obtain ⟨start,behind,split⟩ := ih (k + 1) pending
      exact ⟨start,behind,by simp [pieces,split]⟩

def itemCount (front : List Segment) : Nat := (pieces 0 .empty front).length

theorem directive_item (cuts : Cuts (front ++ .closed ['d'] fmt :: back) m_pattern) (m_error : Bool) :
    (LogFormatter.new m_pattern m_error).m_items[itemCount front]? = some (.DateFormatItem (dateFormat (fmt.getD []))) := by
  obtain ⟨start,behind,split⟩ := pieces_closed 0 .empty front back ['d'] fmt
  have item : (Piece.directive start ['d'] (fmt.getD [])).item = .DateFormatItem (dateFormat (fmt.getD [])) := rfl
  rw [new_eq,Scan.run_pieces cuts,split]
  simp [itemCount,item]

/-! ### Dates in full -/

/-- A date is printed in full exactly when the time can be broken down and the expansion fits. -/
theorem printed_iff (library : TimeLibrary Tm) {f : LogFormatter} {fmt : Text}
    (item : f.m_items[i]? = some (.DateFormatItem (dateFormat fmt))) (event : LogEvent) :
    PrintedInFull library f i fmt event ↔ ∃ tm, library.localtime event.getTime = some tm ∧
      (library.expand (c_str (dateFormat fmt)) tm).length < 64 := by
  have written (memory : Nat → Uninitialised Tm) :
      (f.texts library memory event)[i]? = some (dateText library (memory i) event (dateFormat fmt)) := by
    simp [LogFormatter.texts,item,FormatItem.format]
  constructor
  · rintro ⟨text,⟨tm,known,rfl⟩,always⟩
    refine ⟨tm,known,?_⟩
    by_contra long
    -- the memory begins with a NUL, and nothing is printed
    have printed := (written fun _ => ⟨tm,[],[]⟩).symm.trans (always _)
    rw [dateText_long known long,Option.some.injEq] at printed
    rw [← printed] at long
    exact long (Nat.zero_lt_succ 63)
  · rintro ⟨tm,known,fits⟩
    refine ⟨_,⟨tm,known,rfl⟩,fun memory => ?_⟩
    rw [written,dateText_fits known fits]

/-- For every pattern with a directive for the date, every event and every C library. -/
theorem dates_in_full_iff (library : TimeLibrary Tm) (cuts : Cuts (front ++ .closed ['d'] fmt :: back) m_pattern)
    (m_error : Bool) (event : LogEvent) :
    PrintedInFull library (LogFormatter.new m_pattern m_error) (itemCount front) (fmt.getD []) event ↔
      ∃ tm, library.localtime event.getTime = some tm ∧
        (library.expand (c_str (dateFormat (fmt.getD []))) tm).length < 64 :=
  printed_iff library (directive_item cuts m_error) event

def plainLibrary : TimeLibrary Unit where
  localtime _ := some ()
  expand format _ := c_str format
  plain format _ member := by simpa using List.mem_takeWhile_imp member

def startUp : LogEvent := ⟨1,0,1,0,[],"main.cpp".toList,"main".toList,Logging.Logger.new "root".toList,.INFO⟩

def datePattern (fmt : Text) : Text := '%' :: 'd' :: '{' :: (fmt ++ ['}'])

theorem datePattern_cuts (inside : '}' ∉ fmt) : Cuts [.closed ['d'] (some fmt)] (datePattern fmt) := by
  have letters : ∀ c ∈ ['d'], Directive.nameChar c = true := fun c member => List.mem_singleton.mp member ▸ Letter.d.char_name
  exact .format letters inside .nil

theorem dates_in_full_short :
    PrintedInFull plainLibrary (LogFormatter.new (datePattern "at".toList) false) 0 "at".toList startUp := by
  have cuts : Cuts ([] ++ .closed ['d'] (some "at".toList) :: []) (datePattern "at".toList) :=
    datePattern_cuts (by decide)
  exact (dates_in_full_iff plainLibrary cuts false startUp).mpr ⟨(),rfl,by decide⟩

/-- 64 characters, which leave no room for the NUL. -/
def longFormat : Text := List.replicate 64 'x'

theorem longFormat_plain (other : c ≠ 'x') : c ∉ longFormat := fun member => other (List.eq_of_mem_replicate member)

theorem longFormat_expands (tm : Unit) : plainLibrary.expand (c_str longFormat) tm = longFormat := by
  have shown : c_str longFormat = longFormat := c_str_self (longFormat_plain (by decide))
  exact (congrArg c_str shown).trans shown

/-- What is printed is what the memory holds. -/
theorem long_date_lost :
    (LogFormatter.new (datePattern longFormat) false).m_items = [.DateFormatItem longFormat] ∧
    plainLibrary.Expands longFormat startUp.getTime longFormat ∧
    (LogFormatter.new (datePattern longFormat) false).format plainLibrary
      (fun _ => ⟨(),[],"stack".toList⟩) startUp = "stack".toList ∧
    ¬ PrintedInFull plainLibrary (LogFormatter.new (datePattern longFormat) false) 0 longFormat startUp := by
  have format : dateFormat longFormat = longFormat := rfl
  have items : (LogFormatter.new (datePattern longFormat) false).m_items = [.DateFormatItem longFormat] := by
    rw [new_eq,Scan.run_pieces (datePattern_cuts (longFormat_plain (by decide)))]
    rfl
  have long : ¬ (plainLibrary.expand (c_str longFormat) ()).length < 64 := by
    rw [longFormat_expands,longFormat,List.length_replicate]
    omega
  refine ⟨items,⟨(),rfl,(longFormat_expands ()).symm⟩,?_,fun printed => ?_⟩
  · rw [LogFormatter.format,LogFormatter.texts,items]
    exact congrArg (fun text => [text].flatten) (dateText_long rfl long _)
  · have item : (LogFormatter.new (datePattern longFormat) false).m_items[0]? =
        some (.DateFormatItem (dateFormat longFormat)) := by
      rw [items]
      rfl
    obtain ⟨⟨⟩,_,fits⟩ := (printed_iff plainLibrary item startUp).mp printed
    exact long fits

end Myriel

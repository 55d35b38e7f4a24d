import Myriel.ConfigStrings

/-! Containers of booleans. `std::to_string` writes a `bool` as a number, and the
conversion from a string knows it by the words `true` and `false` only. -/
namespace Myriel
open YAML

namespace detail

def strue : Text := "true".toList
def sfalse : Text := "false".toList

def strlen (s : Text) : Nat := (s.takeWhile (· ≠ '\x00')).length

/-- The character at an index, or the one that ends the string. -/
def charAt (s : Text) (i : Nat) : Char := s.getD i '\x00'

def checkbool (source : Text) (len : Nat) (s : Text) : Bool :=
  (List.range len).all fun i => charAt source i == charAt s i

/-- The length is kept in an `unsigned int`. -/
def convert (source : Text) : Except Exception Bool :=
  let len := strlen source % 2 ^ 32
  if len ≠ 4 ∧ len ≠ 5 then .error .invalid_argument
  else if len = 4 then
    if checkbool source len strue then .ok true else .error .invalid_argument
  else if checkbool source len sfalse then .ok false
  else .error .invalid_argument

/-- `std::to_string` of a `bool`, which is promoted to `int`. -/
def boolToString (b : Bool) : Text := to_string (if b then 1 else 0)

end detail

def boolCast : LaxicalCast Bool where
  toStr b := .ok (detail.boolToString b)
  fromStr := detail.convert

section Types
variable (yaml : YamlCpp)

/-- What is assumed of yaml-cpp. -/
structure YamlCpp.KeepsDigits : Prop where
  load_emit : ∀ node, yaml.load (yaml.emit node) = .ok node
  emit_digits : ∀ s, s ≠ [] → (∀ c ∈ s, c.isDigit = true) → yaml.emit (.scalar s) = s

/-- One container around elements, with the booleans in a value of either type. -/
inductive BoolWraps (element : LaxicalCast T) (leaves : T → List Bool) :
    (C : Type) → LaxicalCast C → (C → List Bool) → Prop where
  | list : BoolWraps element leaves (List T) (listCast yaml element) fun v => v.flatMap leaves
  | set [LinearOrder T] : BoolWraps element leaves (Finset T) (setCast yaml element)
      fun v => (v.sort (· ≤ ·)).flatMap leaves
  | map : BoolWraps element leaves (StdMap T) (mapCast yaml element)
      fun v => v.entries.flatMap fun entry => leaves entry.2

/-- The types that `bool` generates, with their conversions and booleans. -/
inductive BoolGenerated : (T : Type) → LaxicalCast T → (T → List Bool) → Prop where
  | bool : BoolGenerated Bool boolCast fun b => [b]
  | container (item : BoolGenerated T element leaves)
      (wraps : BoolWraps yaml element leaves C conversion booleans) : BoolGenerated C conversion booleans

end Types

/-- What a conversion makes of a value: the value if there are no booleans in it, and an
exception otherwise. -/
def Outcome (leaves : List Bool) (v : T) (read : Except Exception T) : Prop :=
  (leaves = [] → read = .ok v) ∧ (leaves ≠ [] → ∃ e, read = .error e)

def WritesOutcome (yaml : YamlCpp) (conversion : LaxicalCast C) (booleans : C → List Bool) : Prop :=
  ∀ v, ∃ node, conversion.toStr v = .ok (yaml.emit node) ∧
    Outcome (booleans v) v (conversion.fromStr (yaml.emit node))

def RereadsOutcome (yaml : YamlCpp) (element : LaxicalCast T) (leaves : T → List Bool) : Prop :=
  ∀ v, ∃ read, Rereads yaml element v read ∧ Outcome (leaves v) v read

theorem WritesOutcome.rereads (load_emit : ∀ node, yaml.load (yaml.emit node) = .ok node)
    (writes : WritesOutcome yaml conversion booleans) : RereadsOutcome yaml conversion booleans := by
  intro v
  obtain ⟨node,written,outcome⟩ := writes v
  exact ⟨_,⟨_,node,written,load_emit node,rfl⟩,outcome⟩

theorem boolToString_cases (b : Bool) : detail.boolToString b = ['0'] ∨ detail.boolToString b = ['1'] := by
  cases b
  · exact .inl rfl
  · exact .inr rfl

/-- The word is one character long, so neither `true` nor `false`. -/
theorem bool_rereads (keeps : yaml.KeepsDigits) : RereadsOutcome yaml boolCast fun b => [b] := by
  have reread (b : Bool) (c : Char) (digit : c.isDigit = true) (text : detail.boolToString b = [c])
      (refused : detail.convert [c] = .error .invalid_argument) :
      Rereads yaml boolCast b (.error .invalid_argument) := by
    have emitted : yaml.emit (.scalar [c]) = [c] := keeps.emit_digits [c] (by simp) (by simpa using digit)
    have loaded := keeps.load_emit (.scalar [c])
    rw [emitted] at loaded
    refine ⟨[c],.scalar [c],congrArg _ text,loaded,?_⟩
    rw [emitted]
    exact refused
  intro b
  refine ⟨.error .invalid_argument,?_,by simp [Outcome]⟩
  rcases boolToString_cases b with text | text
  · exact reread b '0' rfl text rfl
  · exact reread b '1' rfl text rfl

theorem foldlM_outcome {leaves : α → List Bool} {value : α → T} {read : α → Except Exception T}
    (outcome : ∀ item, Outcome (leaves item) (value item) (read item)) (add : C → α → T → C)
    (items : List α) (res : C) :
    Outcome (items.flatMap leaves) (items.foldl (fun res item => add res item (value item)) res)
      (items.foldlM (fun res item => do let w ← read item; pure (add res item w)) res) := by
  constructor
  · intro empty
    induction items generalizing res with
    | nil => rfl
    | cons item items ih =>
      obtain ⟨here,rest⟩ := List.append_eq_nil_iff.mp (List.flatMap_cons ▸ empty)
      have first : (do let w ← read item; pure (add res item w)) = Except.ok (add res item (value item)) := by
        rw [(outcome item).1 here]; rfl
      rw [List.foldlM_cons,first]
      exact ih _ rest
  · intro some
    obtain ⟨item,member,inside⟩ : ∃ item ∈ items, leaves item ≠ [] := by simpa using some
    refine foldlM_error member (fun res => ?_) res
    obtain ⟨e,failed⟩ := (outcome item).2 inside
    exact ⟨e,by rw [failed]; rfl⟩

theorem wraps_writes {T C : Type} {element : LaxicalCast T} {leaves : T → List Bool}
    {conversion : LaxicalCast C} {booleans : C → List Bool} (load_emit : ∀ node, yaml.load (yaml.emit node) = .ok node)
    (rereads : RereadsOutcome yaml element leaves) (wraps : BoolWraps yaml element leaves C conversion booleans) :
    WritesOutcome yaml conversion booleans := by
  choose read reread outcome using rereads
  cases wraps with
  | list =>
    intro v
    obtain ⟨node,written,parsed⟩ := sequence_rereads load_emit v (fun item _ => reread item)
      (fun res item => res ++ [item]) []
    have folded := foldlM_outcome outcome (fun res _ w => res ++ [w]) v []
    rw [push_all,← parsed] at folded
    exact ⟨node,written,folded⟩
  | set =>
    intro v
    obtain ⟨node,written,parsed⟩ := sequence_rereads load_emit (v.sort (· ≤ ·)) (fun item _ => reread item)
      (fun (res : Finset T) item => insert item res) ∅
    have folded := foldlM_outcome outcome (fun res _ w => insert w res) (v.sort (· ≤ ·)) (∅ : Finset T)
    rw [insert_all,Finset.sort_toFinset,Finset.empty_union,← parsed] at folded
    exact ⟨node,written,folded⟩
  | map =>
    intro v
    obtain ⟨node,written,parsed⟩ := map_rereads load_emit v.entries v.distinct (fun entry _ => reread entry.2)
      SortedMap.emplace .empty
    have folded := foldlM_outcome (fun entry : Text × _ => outcome entry.2)
      (fun res entry w => SortedMap.emplace res entry.1 w) v.entries SortedMap.empty
    rw [v.emplaceAll (List.Perm.refl _),← parsed] at folded
    exact ⟨node,written,folded⟩

theorem bool_generated_rereads (keeps : yaml.KeepsDigits) (generated : BoolGenerated yaml T element leaves) :
    RereadsOutcome yaml element leaves := by
  induction generated with
  | bool => exact bool_rereads keeps
  | container _ wraps ih => exact (wraps_writes keeps.load_emit ih wraps).rereads keeps.load_emit

/-- A value with at least one container survives `toString` and `fromString` exactly when
there is no boolean in it. -/
theorem booleans_round_trip_iff (keeps : yaml.KeepsDigits) (item : BoolGenerated yaml T element leaves)
    (wraps : BoolWraps yaml element leaves C conversion booleans) (v : C) :
    (conversion.toStr v >>= conversion.fromStr) = .ok v ↔ booleans v = [] := by
  obtain ⟨node,written,kept,fails⟩ :=
    wraps_writes keeps.load_emit (bool_generated_rereads keeps item) wraps v
  rw [written]
  constructor
  · intro same
    by_contra inside
    obtain ⟨e,failed⟩ := fails inside
    exact nomatch failed.symm.trans same
  · exact kept

/-! ### Lists of booleans -/

def flags : Node := .sequence [.scalar ['1']]

def flagsText : Text := "- 1".toList

theorem sampleYaml_keeps : sampleYaml.KeepsDigits where
  load_emit := sampleYaml_load_emit
  emit_digits _ nonempty digits := sampleEmit_plain (plain_digits nonempty digits)

theorem booleans_round_trip_empty :
    ((listCast sampleYaml boolCast).toStr [] >>= (listCast sampleYaml boolCast).fromStr) = .ok [] :=
  (booleans_round_trip_iff sampleYaml_keeps .bool .list []).mpr rfl

/-- The list of `true` alone is written as the sequence of the scalar `1`, and that text
does not come back. -/
theorem boolean_list_refused : sampleYaml.KeepsDigits ∧
    (∀ s, plain s = true → sampleYaml.emit (.scalar s) = s) ∧ sampleYaml.load flagsText = .ok flags ∧
    (listCast sampleYaml boolCast).toStr [true] = .ok flagsText ∧
    (listCast sampleYaml boolCast).fromStr flagsText = .error .invalid_argument := by
  have emitted : sampleEmit flags = flagsText := by decide
  have loaded : sampleYaml.load flagsText = .ok flags := emitted ▸ sampleYaml_keeps.load_emit flags
  have word : plain ['1'] = true := by decide
  have one : sampleYaml.emit (.scalar ['1']) = ['1'] := sampleEmit_plain word
  have item := sampleYaml_keeps.load_emit (.scalar ['1'])
  rw [one] at item
  have number : detail.boolToString true = ['1'] := rfl
  have refused : detail.convert ['1'] = .error .invalid_argument := rfl
  refine ⟨sampleYaml_keeps,fun s => sampleEmit_plain,loaded,?_,?_⟩
  · simp only [listCast,sequenceToStr,List.foldlM_cons,List.foldlM_nil,pushItem,boolCast,number,bind,
      Except.bind,item,pushBack,pure,Except.pure]
    exact congrArg _ emitted
  · simp only [listCast,sequenceFromStr,loaded,bind,Except.bind,flags,itemTexts,List.map_cons,List.map_nil,
      one,List.foldlM_cons,readItem,boolCast,refused]

end Myriel

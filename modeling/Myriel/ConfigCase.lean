import Myriel.ConfigLoad
import Myriel.ConfigText

/-! The letter case of the keys. `ListAllMenbers` drops what is below a key with a capital
before `LoadFromYaml` lowers the names. -/
namespace Myriel
open YAML

namespace Config

/-! ### Documents that differ in the case of letters -/

/-- The same document but for the case of ASCII letters in the keys of its maps. -/
inductive CaseEq : Node → Node → Prop where
  | null : CaseEq .null .null
  | scalar (text : Text) : CaseEq (.scalar text) (.scalar text)
  | sequence_nil : CaseEq (.sequence []) (.sequence [])
  | sequence_cons (item : CaseEq first second) (rest : CaseEq (.sequence items) (.sequence others)) :
      CaseEq (.sequence (first :: items)) (.sequence (second :: others))
  | map_nil : CaseEq (.map []) (.map [])
  | map_scalar (key : a.map Char.toLower = b.map Char.toLower) (value : CaseEq first second)
      (rest : CaseEq (.map items) (.map others)) :
      CaseEq (.map ((.scalar a,first) :: items)) (.map ((.scalar b,second) :: others))
  | map_node (key : CaseEq k l) (value : CaseEq first second) (rest : CaseEq (.map items) (.map others)) :
      CaseEq (.map ((k,first) :: items)) (.map ((l,second) :: others))

def SameKey (k l : Node) : Prop := CaseEq (.map [(k,.null)]) (.map [(l,.null)])

/-- No map has two keys that are one up to the case of letters. -/
inductive DistinctKeys : Node → Prop where
  | null : DistinctKeys .null
  | scalar (text : Text) : DistinctKeys (.scalar text)
  | sequence (items : List Node) (each : ∀ item ∈ items, DistinctKeys item) : DistinctKeys (.sequence items)
  | map (items : List (Node × Node)) (distinct : items.Pairwise fun first second => ¬ SameKey first.1 second.1)
      (keys : ∀ item ∈ items, DistinctKeys item.1) (values : ∀ item ∈ items, DistinctKeys item.2) :
      DistinctKeys (.map items)

/-! ### What a document does to a registry -/

structure Notice where
  key : Text
  listener : Int
  T : Type
  old : T
  new : T

def updateNotices (key : Text) (v : Variable) (moment : Nat) (str : Text) : List Notice :=
  match v.fromStr str with
  | .ok value =>
    (ConfigVar.fromString v.fromStr v.var moment str).1.told.map fun listener =>
      ⟨key,listener,v.T,v.var.m_val,value⟩
  | .error _ => []

def notices (emit : Node → Text) : List (Text × Node) → Config → List Notice
  | [],_ => []
  | item :: items,c =>
    if item.1.isEmpty then notices emit items c
    else
      let key := item.1.map Char.toLower
      match lookupBase c key with
      | none => notices emit items c
      | some var =>
        updateNotices key var c.told.length (nodeText emit item.2) ++
          match callFromString c key var (nodeText emit item.2) with
          | (_,some _) => []
          | (next,none) => notices emit items next

/-- Two documents leave the same values and call the same listeners with the same
arguments. -/
structure SameOutcome (emit : Node → Text) (c : Config) (root other : Node) : Prop where
  datas : (loadFromYaml emit root c).1.datas = (loadFromYaml emit other c).1.datas
  told : notices emit (listAllMenbers [] root) c = notices emit (listAllMenbers [] other) c

/-- The names and the texts of the nodes whose names are written in lower case all the way,
in the order of the document. -/
def visible (emit : Node → Text) (root : Node) : List (Text × Text) :=
  ((reached root).filter fun found => listed found.1 && !(pathName found.1).isEmpty).map fun found =>
    (pathName found.1,nodeText emit found.2)

/-! ### The loop on the visible names -/

def entries (emit : Node → Text) (nodes : List (Text × Node)) : List (Text × Text) :=
  (nodes.filter fun item => !item.1.isEmpty).map fun item => (item.1,nodeText emit item.2)

theorem entries_listAllMenbers (emit : Node → Text) (root : Node) :
    entries emit (listAllMenbers [] root) = visible emit root := by
  rw [listAllMenbers_root,entries,visible,List.filter_map,List.filter_filter,List.map_map]
  congr 2
  funext found
  exact Bool.and_comm _ _

def scalars (items : List (Text × Text)) : List (Text × Node) := items.map fun item => (item.1,.scalar item.2)

theorem scalars_cons (item : Text × Text) (items : List (Text × Text)) :
    scalars (item :: items) = (item.1,.scalar item.2) :: scalars items := rfl

theorem loadNodes_entries (emit : Node → Text) (nodes : List (Text × Node)) (c : Config) :
    loadNodes emit nodes c = loadNodes emit (scalars (entries emit nodes)) c ∧
      notices emit nodes c = notices emit (scalars (entries emit nodes)) c := by
  induction nodes generalizing c with
  | nil => exact ⟨rfl,rfl⟩
  | cons item nodes ih =>
    by_cases empty : item.1.isEmpty = true
    · simp only [loadNodes,notices,empty,if_true]
      simpa [entries,empty] using ih c
    · have shown : entries emit (item :: nodes) = (item.1,nodeText emit item.2) :: entries emit nodes := by
        simp [entries,empty]
      have text : nodeText emit (.scalar (nodeText emit item.2)) = nodeText emit item.2 := rfl
      simp only [shown,scalars_cons,loadNodes,notices,empty,text,Bool.false_eq_true,if_false]
      cases lookupBase c (item.1.map Char.toLower) with
      | none => exact ih c
      | some var =>
        rcases result : callFromString c (item.1.map Char.toLower) var (nodeText emit item.2) with ⟨next,_ | thrown⟩ <;>
          simp only [result]
        · obtain ⟨states,notes⟩ := ih next
          exact ⟨states,congrArg _ notes⟩
        · simp

/-! ### A registry that shows everything -/

/-- A variable whose listener hears of every text and refuses it. -/
def recorder : Variable where
  T := Option Text
  equal := inferInstance
  fromStr := fun text => .ok (some text)
  var := ⟨none,[(1,fun _ _ _ => some .exception)],by simp⟩

def recording (keys : List Text) (calls : List FromStringCall) (told : List (Text × Int)) : Config where
  datas := fun key => if keys.contains key then some recorder else none
  calls := calls
  told := told

def heard (item : Text × Text) : Notice := ⟨item.1,1,Option Text,none,some item.2⟩

theorem heard_injective : Function.Injective heard := by
  rintro ⟨key,text⟩ ⟨key',text'⟩ same
  simp only [heard,Notice.mk.injEq,heq_eq_eq,Option.some.injEq,true_and] at same
  obtain ⟨rfl,rfl⟩ := same
  rfl

theorem recorder_update (moment : Nat) (text : Text) :
    ConfigVar.fromString recorder.fromStr recorder.var moment text = (⟨recorder.var,[1],none⟩,false) := rfl

theorem recording_notices (emit : Node → Text) (keys : List Text) (items : List (Text × Text))
    (valid : ∀ item ∈ items, validName item.1 = true ∧ item.1 ≠ [] ∧ item.1 ∈ keys)
    (calls : List FromStringCall) (told : List (Text × Int)) :
    notices emit (scalars items) (recording keys calls told) = items.map heard := by
  induction items generalizing calls told with
  | nil => rfl
  | cons item items ih =>
    obtain ⟨⟨lower,nonempty,member⟩,rest⟩ := List.forall_mem_cons.mp valid
    have shown : item.1.isEmpty = false := by simpa using nonempty
    have found : lookupBase (recording keys calls told) item.1 = some recorder := by
      simp [lookupBase,recording,member]
    have called : callFromString (recording keys calls told) item.1 recorder item.2 =
        (recording keys (calls ++ [⟨item.1,item.2,some false⟩]) (told ++ [(item.1,1)]),none) := by
      have kept : Function.update (recording keys calls told).datas item.1 (some recorder) =
          (recording keys calls told).datas := Function.update_eq_self_iff.mpr found.symm
      simp only [callFromString,recorder_update]
      exact Prod.ext (by simpa [recording] using kept) rfl
    have text : nodeText emit (.scalar item.2) = item.2 := rfl
    have update : updateNotices item.1 recorder told.length item.2 = [heard item] := rfl
    simp only [scalars_cons,notices,shown,toLower_valid lower,found,text,called,Bool.false_eq_true,if_false]
    exact congrArg₂ _ update (ih rest _ _)

theorem visible_valid (member : item ∈ visible emit root) : validName item.1 = true ∧ item.1 ≠ [] := by
  rw [← entries_listAllMenbers] at member
  obtain ⟨found,kept,rfl⟩ := List.mem_map.mp member
  obtain ⟨inList,shown⟩ := List.mem_filter.mp kept
  exact ⟨listAllMenbers_valid inList,by simpa using shown⟩

theorem recording_visible (emit : Node → Text) (root : Node) (keys : List Text)
    (covered : ∀ item ∈ visible emit root, item.1 ∈ keys) :
    notices emit (listAllMenbers [] root) (recording keys [] []) = (visible emit root).map heard := by
  rw [(loadNodes_entries emit _ _).2,entries_listAllMenbers]
  refine recording_notices emit keys _ (fun item member => ?_) [] []
  obtain ⟨lower,nonempty⟩ := visible_valid member
  exact ⟨lower,nonempty,covered item member⟩

/-! ### Two documents -/

theorem same_outcome_iff (emit : Node → Text) (root other : Node) :
    (∀ c : Config, SameOutcome emit c root other) ↔ visible emit root = visible emit other := by
  constructor
  · intro same
    let keys := (visible emit root ++ visible emit other).map Prod.fst
    have first := recording_visible emit root keys fun item member =>
      List.mem_map_of_mem (List.mem_append_left _ member)
    have second := recording_visible emit other keys fun item member =>
      List.mem_map_of_mem (List.mem_append_right _ member)
    have heards : (visible emit root).map heard = (visible emit other).map heard := by
      rw [← first,← second]
      exact (same (recording keys [] [])).told
    exact heard_injective.list_map heards
  · intro shown c
    have entered : entries emit (listAllMenbers [] root) = entries emit (listAllMenbers [] other) := by
      rw [entries_listAllMenbers,entries_listAllMenbers,shown]
    constructor
    · simp only [loadFromYaml,(loadNodes_entries emit (listAllMenbers [] root) c).1,
        (loadNodes_entries emit (listAllMenbers [] other) c).1,entered]
    · rw [(loadNodes_entries emit (listAllMenbers [] root) c).2,
        (loadNodes_entries emit (listAllMenbers [] other) c).2,entered]

/-! ### The entries at the top -/

mutual
/-- The entries whose keys begin a name: those of the root, and what is below empty keys. -/
def tops : Node → List (Text × Node)
  | .map items => topsItems items
  | _ => []
termination_by structural node => node
def topsItems : List (Node × Node) → List (Text × Node)
  | [] => []
  | item :: items => topsItem item ++ topsItems items
termination_by structural items => items
def topsItem : Node × Node → List (Text × Node)
  | (key,value) => if key.scalarText.isEmpty then tops value else [(key.scalarText,value)]
termination_by structural item => item
end

structure EntryEq (first second : Text × Node) : Prop where
  named : first.1 ≠ []
  key : first.1.map Char.toLower = second.1.map Char.toLower
  value : CaseEq first.2 second.2

/-- An entry at the top that is written in lower case in one of the documents is the same in both. -/
def Untouched (root other : Node) : Prop :=
  List.Forall₂ (fun first second => validName first.1 = true ∨ validName second.1 = true → first = second)
    (tops root) (tops other)

/-- Two entries at the top have one key up to the case of letters. -/
def Repeated (root : Node) : Prop :=
  ¬ (tops root).Pairwise fun first second => first.1.map Char.toLower ≠ second.1.map Char.toLower

theorem CaseEq.scalarText (same : CaseEq k l) : k.scalarText = l.scalarText := by
  cases same <;> rfl

theorem CaseEq.topsItem (key : a.map Char.toLower = b.map Char.toLower) (value : CaseEq first second)
    (below : List.Forall₂ EntryEq (tops first) (tops second)) :
    List.Forall₂ EntryEq (if a.isEmpty then tops first else [(a,first)])
      (if b.isEmpty then tops second else [(b,second)]) := by
  have lengths : a.length = b.length := by simpa using congrArg List.length key
  cases a with
  | nil =>
    obtain rfl := List.length_eq_zero_iff.mp lengths.symm
    exact below
  | cons c a =>
    cases b with
    | nil => cases lengths
    | cons d b => exact .cons ⟨List.cons_ne_nil _ _,key,value⟩ .nil

theorem CaseEq.tops (same : CaseEq root other) : List.Forall₂ EntryEq (tops root) (tops other) := by
  induction same with
  | null | scalar | sequence_nil | sequence_cons | map_nil => exact .nil
  | map_scalar key value _ below rest => exact List.rel_append (value.topsItem key below) rest
  | map_node key value _ _ below rest =>
    have text := congrArg (List.map Char.toLower) key.scalarText
    exact List.rel_append (value.topsItem text below) rest

/-! ### What each of them shows -/

/-- What the loop sees of an entry at the top and of what is below it. -/
def shown (emit : Node → Text) (entry : Text × Node) : List (Text × Text) :=
  entries emit (listAllMenbers entry.1 entry.2)

theorem shown_invalid (emit : Node → Text) (invalid : validName entry.1 = false) : shown emit entry = [] := by
  obtain ⟨key,value⟩ := entry
  cases value <;> simp_all [shown,listAllMenbers,entries]

theorem shown_valid (emit : Node → Text) (nonempty : entry.1 ≠ []) (valid : validName entry.1 = true) :
    ∃ rest, shown emit entry = (entry.1,nodeText emit entry.2) :: rest := by
  obtain ⟨key,value⟩ := entry
  cases value <;> simp_all [shown,listAllMenbers,entries]

theorem entries_append (emit : Node → Text) (first second : List (Text × Node)) :
    entries emit (first ++ second) = entries emit first ++ entries emit second := by
  simp [entries]

mutual
theorem entries_tops (emit : Node → Text) : (node : Node) →
    entries emit (listAllMenbers [] node) = (tops node).flatMap (shown emit)
  | .null | .scalar _ | .sequence _ => rfl
  | .map items => entries_topsItems emit items
theorem entries_topsItems (emit : Node → Text) : (items : List (Node × Node)) →
    entries emit (listItems [] items) = (topsItems items).flatMap (shown emit)
  | [] => rfl
  | item :: items => by
    rw [listItems,topsItems,entries_append,List.flatMap_append,entries_topsItem emit item,
      entries_topsItems emit items]
theorem entries_topsItem (emit : Node → Text) : (item : Node × Node) →
    entries emit (listItem [] item) = (topsItem item).flatMap (shown emit)
  | (key,value) => by
    have name : join [] key.scalarText = key.scalarText := rfl
    rw [listItem,name,topsItem]
    cases text : key.scalarText with
    | nil => exact entries_tops emit value
    | cons c rest => simp [shown]
end

theorem visible_tops (emit : Node → Text) (root : Node) : visible emit root = (tops root).flatMap (shown emit) := by
  rw [← entries_listAllMenbers,entries_tops]

theorem CaseEq.eq_of_text (same : CaseEq first second) (injective : Function.Injective emit)
    (text : nodeText emit first = nodeText emit second) : first = second := by
  cases same with
  | null | scalar => rfl
  | sequence_nil | sequence_cons | map_nil | map_scalar | map_node => exact injective text

theorem shown_head {items : List (Text × Node)} (named : ∀ entry ∈ items, entry.1 ≠ [])
    (head : items.flatMap (shown emit) = (key,text) :: rest) : ∃ entry ∈ items, entry.1 = key := by
  induction items with
  | nil => cases head
  | cons entry items ih =>
    obtain ⟨nonempty,others⟩ := List.forall_mem_cons.mp named
    rw [List.flatMap_cons] at head
    by_cases valid : validName entry.1 = true
    · obtain ⟨below,own⟩ := shown_valid emit nonempty valid
      rw [own] at head
      exact ⟨entry,List.mem_cons_self,congrArg Prod.fst (List.cons.inj head).1⟩
    · rw [shown_invalid emit (Bool.eq_false_iff.mpr valid)] at head
      obtain ⟨other,member,same⟩ := ih others head
      exact ⟨other,List.mem_cons_of_mem _ member,same⟩

theorem untouched_shown {first second : List (Text × Node)}
    (untouched : List.Forall₂ (fun e f => validName e.1 = true ∨ validName f.1 = true → e = f) first second) :
    first.flatMap (shown emit) = second.flatMap (shown emit) := by
  induction untouched with
  | nil => rfl
  | @cons e f first second same _ ih =>
    rw [List.flatMap_cons,List.flatMap_cons,ih]
    by_cases lower : validName e.1 = true ∨ validName f.1 = true
    · rw [same lower]
    · obtain ⟨here,there⟩ := not_or.mp lower
      rw [shown_invalid emit (Bool.eq_false_iff.mpr here),shown_invalid emit (Bool.eq_false_iff.mpr there)]

theorem EntryEq.named_second (same : EntryEq first second) : second.1 ≠ [] := by
  intro empty
  have lower := same.key
  rw [empty] at lower
  exact same.named (List.map_eq_nil_iff.mp lower)

theorem EntryEq.key_eq (same : EntryEq first second) (here : validName first.1 = true)
    (there : validName second.1 = true) : first.1 = second.1 := by
  rw [← toLower_valid here,← toLower_valid there]
  exact same.key

/-- An entry with a key that no other entry of its document has is shown against its own counterpart
only. -/
theorem shown_untouched (injective : Function.Injective emit) {first second : List (Text × Node)}
    (pairs : List.Forall₂ EntryEq first second)
    (distinct : first.Pairwise fun e e' => e.1.map Char.toLower ≠ e'.1.map Char.toLower)
    (same : first.flatMap (shown emit) = second.flatMap (shown emit)) :
    List.Forall₂ (fun e f => validName e.1 = true ∨ validName f.1 = true → e = f) first second := by
  induction pairs with
  | nil => exact .nil
  | @cons e f first second pair pairs ih =>
    obtain ⟨alone,distinct⟩ := List.pairwise_cons.mp distinct
    have named : ∀ entry ∈ first, entry.1 ≠ [] := fun entry member =>
      have ⟨_,_,pair⟩ := forall₂_mem pairs.flip member
      pair.named
    have named' : ∀ entry ∈ second, entry.1 ≠ [] := fun entry member =>
      have ⟨_,_,pair⟩ := forall₂_mem pairs member
      pair.named_second
    rw [List.flatMap_cons,List.flatMap_cons] at same
    by_cases here : validName e.1 = true <;> by_cases there : validName f.1 = true
    · obtain ⟨rest,shownE⟩ := shown_valid emit pair.named here
      obtain ⟨rest',shownF⟩ := shown_valid emit pair.named_second there
      have head := same
      rw [shownE,shownF] at head
      have text := congrArg Prod.snd (List.cons.inj head).1
      obtain rfl : e = f := Prod.ext (pair.key_eq here there) (pair.value.eq_of_text injective text)
      exact .cons (fun _ => rfl) (ih distinct (List.append_cancel_left same))
    · obtain ⟨rest,shownE⟩ := shown_valid emit pair.named here
      rw [shownE,shown_invalid emit (Bool.eq_false_iff.mpr there)] at same
      obtain ⟨f',member,key⟩ := shown_head named' same.symm
      obtain ⟨e',inside,pair'⟩ := forall₂_mem pairs member
      refine absurd ?_ (alone e' inside)
      rw [pair'.key,key]
    · obtain ⟨rest,shownF⟩ := shown_valid emit pair.named_second there
      rw [shownF,shown_invalid emit (Bool.eq_false_iff.mpr here)] at same
      obtain ⟨e',member,key⟩ := shown_head named same
      refine absurd ?_ (alone e' member)
      rw [key,pair.key]
    · rw [shown_invalid emit (Bool.eq_false_iff.mpr here),shown_invalid emit (Bool.eq_false_iff.mpr there)] at same
      refine .cons (fun lower => ?_) (ih distinct same)
      exact (lower.elim here there).elim

theorem not_repeated (distinct : DistinctKeys root)
    (nonempty : ∀ items, root = .map items → ∀ item ∈ items, item.1.scalarText ≠ []) : ¬ Repeated root := by
  have own (items : List (Node × Node)) (nonempty : ∀ item ∈ items, item.1.scalarText ≠ []) :
      topsItems items = items.map fun item => (item.1.scalarText,item.2) := by
    induction items with
    | nil => rfl
    | cons item items ih =>
      obtain ⟨here,rest⟩ := List.forall_mem_cons.mp nonempty
      rw [topsItems,ih rest,topsItem,if_neg (by simpa using here)]
      rfl
  refine not_not.mpr ?_
  cases distinct with
  | null | scalar | sequence => exact .nil
  | map items different keys values =>
    have named := nonempty items rfl
    rw [show tops (.map items) = topsItems items from rfl,own items named,List.pairwise_map]
    refine different.imp_of_mem fun {first second} member member' apart lower => apart ?_
    obtain ⟨a,key⟩ := Node.scalar_of_text (named first member)
    obtain ⟨b,key'⟩ := Node.scalar_of_text (named second member')
    rw [key,key'] at lower ⊢
    exact .map_scalar lower .null .map_nil

/-- Documents that differ in the case of letters do the same to every registry where no entry at the
top that is in lower case in one of them differs in the other, and, unless two entries at the top share
a key, only there, as different nodes have different texts. -/
theorem case_ignored_iff (yaml : YamlCpp) (same : CaseEq root other) (distinct : DistinctKeys root) :
    (Untouched root other → ∀ c : Config, SameOutcome yaml.emit c root other) ∧
    ((∀ node, yaml.load (yaml.emit node) = .ok node) → ¬ Repeated root →
      (∀ c : Config, SameOutcome yaml.emit c root other) → Untouched root other) ∧
    ((∀ items, root = .map items → ∀ item ∈ items, item.1.scalarText ≠ []) → ¬ Repeated root) := by
  refine ⟨fun untouched => (same_outcome_iff _ _ _).mpr ?_,fun load_emit alone outcome => ?_,not_repeated distinct⟩
  · rw [visible_tops,visible_tops]
    exact untouched_shown untouched
  · have injective : Function.Injective yaml.emit := fun first second text =>
      Except.ok.inj ((load_emit first).symm.trans (text ▸ load_emit second))
    have visible := (same_outcome_iff _ _ _).mp outcome
    rw [visible_tops,visible_tops] at visible
    exact shown_untouched injective same.tops (not_not.mp alone) visible

/-! ### Two entries -/

def withEntry (k : Text) : Node := .map [(.scalar ['a'],.scalar ['1']),(.scalar k,.scalar ['2'])]

theorem withEntry_distinct (different : k.map Char.toLower ≠ ['a']) : DistinctKeys (withEntry k) := by
  refine .map _ (List.pairwise_pair.mpr fun same => ?_) ?_ ?_
  · cases same with
    | map_scalar key => exact different key.symm
    | map_node key =>
      cases key
      exact different (by decide)
  all_goals
    intro item member
    rcases List.mem_cons.mp member with rfl | member
    · exact .scalar _
    · cases List.mem_singleton.mp member
      exact .scalar _

theorem withEntry_named (nonempty : k ≠ []) :
    ∀ items, withEntry k = .map items → ∀ item ∈ items, item.1.scalarText ≠ [] := by
  rintro items ⟨⟩ item member
  rcases List.mem_cons.mp member with rfl | member
  · exact List.cons_ne_nil _ _
  · cases List.mem_singleton.mp member
    exact nonempty

theorem withEntry_case (key : k.map Char.toLower = l.map Char.toLower) : CaseEq (withEntry k) (withEntry l) :=
  .map_node (.scalar _) (.scalar _) (.map_scalar key (.scalar _) .map_nil)

/-- A key with a blank is in no case the name of a variable; a letter alone is, in lower case. -/
theorem case_ignored_blank :
    (∀ c, SameOutcome sampleYaml.emit c (withEntry ['B',' ','C']) (withEntry ['b',' ','c'])) ∧
      ¬ ∀ c, SameOutcome sampleYaml.emit c (withEntry ['B']) (withEntry ['b']) := by
  constructor
  · refine (case_ignored_iff sampleYaml (withEntry_case (by decide)) (withEntry_distinct (by decide))).1 ?_
    refine .cons (fun _ => rfl) (.cons (fun lower => ?_) .nil)
    exact absurd lower (by decide)
  · intro outcome
    obtain ⟨_,only,alone⟩ :=
      case_ignored_iff sampleYaml (withEntry_case (k := ['B']) (l := ['b']) (by decide)) (withEntry_distinct (by decide))
    have untouched := only sampleYaml_load_emit (alone (withEntry_named (by simp))) outcome
    cases untouched with
    | cons _ rest =>
      cases rest with
      | cons touched => exact absurd (touched (.inr (by decide))) (by simp [Node.scalarText])

def capital : Node := .map [(.scalar ['A'],.scalar ['1'])]

def small : Node := .map [(.scalar ['a'],.scalar ['1'])]

/-- The keys `A` and `a` differ in case only, and `a` is told of the text under `a` alone. -/
theorem capital_key_dropped :
    CaseEq capital small ∧ DistinctKeys capital ∧ DistinctKeys small ∧
      ¬ SameOutcome sampleYaml.emit (recording [['a']] [] []) capital small := by
  have distinct : ∀ key : Char, DistinctKeys (.map [(.scalar [key],.scalar ['1'])]) := by
    intro key
    refine .map _ (List.pairwise_singleton _ _) (fun item member => ?_) (fun item member => ?_) <;>
      obtain rfl := List.mem_singleton.mp member <;> exact .scalar _
  refine ⟨.map_scalar (by decide) (.scalar _) .map_nil,distinct 'A',distinct 'a',fun same => ?_⟩
  have lengths := congrArg List.length same.told
  exact absurd lengths (by decide)

/-- An entry below an empty key that takes the part of the one at the top: each document drops one of
the two, and both say the same. -/
example : ∀ c : Config, SameOutcome sampleYaml.emit c
    (.map [(.scalar [],capital),(.scalar ['a'],.scalar ['1'])])
    (.map [(.scalar [],small),(.scalar ['A'],.scalar ['1'])]) :=
  (same_outcome_iff _ _ _).mpr (by decide)

end Config

end Myriel

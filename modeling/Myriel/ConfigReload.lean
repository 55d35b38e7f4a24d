import Myriel.ConfigLoad

/-! What documents leave in the variables where no exception passes `fromString`: the last value
that could be read, as far as `operator==` tells. -/
namespace Myriel

namespace ConfigVar

@[simp] theorem store_m_val (var : ConfigVar T) (value : T) : (var.store value).m_val = value := rfl

@[simp] theorem store_same (var : ConfigVar T) : var.store var.m_val = var := rfl

@[simp] theorem store_store (var : ConfigVar T) (first second : T) :
    (var.store first).store second = var.store second := rfl

/-! ### Values that are set one after another -/

variable [BEq T]

def settleAll (current : T) (values : List T) : T := values.foldl settle current

theorem settleAll_concat (current : T) (values : List T) (value : T) :
    settleAll current (values ++ [value]) = settle (settleAll current values) value :=
  List.foldl_concat _ _ _ _

theorem settleAll_append (current : T) (first second : List T) :
    settleAll current (first ++ second) = settleAll (settleAll current first) second :=
  List.foldl_append

theorem settleAll_kept {current : T} {values : List T} (same : ∀ value ∈ values, (value == current) = true) :
    settleAll current values = current := by
  induction values with
  | nil => rfl
  | cons value values ih =>
    obtain ⟨here,rest⟩ := List.forall_mem_cons.mp same
    rw [settleAll,List.foldl_cons,settle,if_pos here]
    exact ih rest

/-- The last value stands, unless it equals the one that does. -/
theorem settleAll_last (current : T) {values : List T} (last : values.getLast? = some value) :
    settleAll current values = value ∨ (value == settleAll current values) = true := by
  obtain ⟨front,rfl⟩ := List.getLast?_eq_some_iff.mp last
  rw [settleAll_concat]
  exact settle_same _ _

/-- The same values from another start: the start, or what equals the first result. -/
theorem settleAll_from (transitive : ∀ x y z : T, x == y → y == z → x == z) (current other : T)
    (values : List T) : settleAll other values = other ∨ settleAll other values = settleAll current values ∨
      (settleAll other values == settleAll current values) = true := by
  induction values using List.reverseRecOn with
  | nil => exact .inl rfl
  | append_singleton values value ih =>
    rw [settleAll_concat,settleAll_concat]
    generalize settleAll other values = d at ih ⊢
    generalize settleAll current values = c at ih ⊢
    by_cases same : (value == d) = true
    · rw [show settle d value = d from if_pos same]
      rcases ih with start | rfl | equal
      · exact .inl start
      · exact .inr (.inl (if_pos same).symm)
      · -- What equals `d` equals `c`, which therefore stays.
        rw [show settle c value = c from if_pos (transitive _ _ _ same equal)]
        exact .inr (.inr equal)
    · rw [show settle d value = value from if_neg same]
      rcases settle_cases c value with new | ⟨equal,kept⟩
      · exact .inr (.inl new.symm)
      · exact .inr (.inr (by rw [kept,equal]))

theorem settleAll_again (transitive : ∀ x y z : T, x == y → y == z → x == z) (current : T) (values : List T) :
    settleAll (settleAll current values) values = settleAll current values := by
  induction values using List.reverseRecOn with
  | nil => rfl
  | append_singleton values value ih =>
    rw [settleAll_concat,settleAll_concat]
    by_cases same : (value == settleAll current values) = true
    · have kept : settle (settleAll current values) value = settleAll current values := if_pos same
      rw [kept,ih,kept]
    · have new : settle (settleAll current values) value = value := if_neg same
      rw [new]
      rcases settleAll_from transitive current value values with start | first | equal
      · rw [start,settle,ite_self]
      · rw [first,new]
      · refine if_neg fun again => same ?_
        exact transitive _ _ _ again equal

end ConfigVar

namespace Config
open YAML

structure Tame (v : Variable) : Prop where
  conversion : ∀ str, v.fromStr str ≠ .error .other
  listeners : ∀ entry ∈ v.var.m_callbacks, ∀ moment old new, entry.2 moment old new = none

def readable (fromStr : Text → Except Thrown T) (texts : List Text) : List T :=
  texts.filterMap fun str => (fromStr str).toOption

/-- The variable after some texts. -/
def reading (v : Variable) (texts : List Text) : Variable :=
  { v with var := v.var.store (ConfigVar.settleAll v.var.m_val (readable v.fromStr texts)) }

def textsOf (emit : Node → Text) (root : Node) (key : Text) : List Text :=
  if key.isEmpty then [] else (named key root).map (nodeText emit)

theorem readable_append (fromStr : Text → Except Thrown T) (first second : List Text) :
    readable fromStr (first ++ second) = readable fromStr first ++ readable fromStr second :=
  List.filterMap_append ..

theorem reading_append (v : Variable) (first second : List Text) :
    reading (reading v first) second = reading v (first ++ second) := by
  simp only [reading,readable_append,ConfigVar.settleAll_append]
  rfl

theorem Tame.reading (tame : Tame v) (texts : List Text) : Tame (reading v texts) := ⟨tame.conversion,tame.listeners⟩

/-! ### One call -/

/-- A call stores what it reads, and tells nobody if that is the value already. -/
theorem callFromString_tame (c : Config) (key : Text) (tame : Tame v) (str : Text) :
    (callFromString c key v str).2 = none ∧
      (callFromString c key v str).1.datas = Function.update c.datas key (some (reading v [str])) ∧
      ((∀ value ∈ readable v.fromStr [str], (value == v.var.m_val) = true) →
        (callFromString c key v str).1.told = c.told) := by
  cases parsed : v.fromStr str with
  | error thrown =>
    cases thrown with
    | other => exact absurd parsed (tame.conversion str)
    | exception =>
      simp [callFromString,ConfigVar.fromString,reading,readable,parsed,Except.toOption,ConfigVar.settleAll]
  | ok value =>
    have read : readable v.fromStr [str] = [value] := by simp [readable,parsed,Except.toOption]
    rw [reading,read]
    cases same : value == v.var.m_val with
    | true =>
      simp [callFromString,ConfigVar.fromString,ConfigVar.setValue,ConfigVar.announce,ConfigVar.settleAll,
        ConfigVar.settle,parsed,same]
    | false =>
      have told := ConfigVar.notify_returning tame.listeners c.told.length v.var.m_val value
      simp [callFromString,ConfigVar.fromString,ConfigVar.setValue,ConfigVar.announce,ConfigVar.settleAll,
        ConfigVar.settle,parsed,same,told]

/-! ### A list of nodes -/

def nodeTexts (emit : Node → Text) (nodes : List (Text × Node)) (key : Text) : List Text :=
  if key.isEmpty then [] else (nodes.filter fun item => item.1 == key).map fun item => nodeText emit item.2

theorem nodeTexts_cons (emit : Node → Text) (item : Text × Node) (nodes : List (Text × Node)) (key : Text) :
    nodeTexts emit (item :: nodes) key =
      if key.isEmpty = false ∧ item.1 = key then nodeText emit item.2 :: nodeTexts emit nodes key
      else nodeTexts emit nodes key := by
  cases empty : key.isEmpty
  · by_cases same : item.1 = key <;> simp [nodeTexts,empty,same]
  · simp [nodeTexts,empty]

/-- Every value that is read equals the one that its variable has. -/
def Quiet (c : Config) (texts : Text → List Text) : Prop :=
  ∀ key v, c.datas key = some v → ∀ value ∈ readable v.fromStr (texts key), (value == v.var.m_val) = true

structure Reads (texts : Text → List Text) (c : Config) (result : Config × Option Thrown) : Prop where
  ends : result.2 = none
  datas : result.1.datas = fun key => (c.datas key).map fun v => reading v (texts key)
  told : Quiet c texts → result.1.told = c.told

theorem Reads.congr {texts other : Text → List Text} (reads : Reads texts c result)
    (same : ∀ key v, c.datas key = some v → other key = texts key) : Reads other c result where
  ends := reads.ends
  datas := by
    rw [reads.datas]
    funext key
    cases found : c.datas key with
    | none => rfl
    | some v => rw [same key v found]
  told quiet := reads.told fun key v found => same key v found ▸ quiet key v found

theorem reads_nil (c : Config) : Reads (fun _ => []) c (c,none) where
  ends := rfl
  datas := by
    funext key
    cases found : c.datas key <;> simp [reading,readable,ConfigVar.settleAll]
  told _ := rfl

theorem Reads.cons {texts : Text → List Text} {next : Config} {key str : Text} (found : c.datas key = some v)
    (datas : next.datas = Function.update c.datas key (some (reading v [str])))
    (told : (∀ value ∈ readable v.fromStr [str], (value == v.var.m_val) = true) → next.told = c.told)
    (reads : Reads texts next result) :
    Reads (Function.update texts key (str :: texts key)) c result where
  ends := reads.ends
  datas := by
    rw [reads.datas,datas]
    funext other
    by_cases same : other = key
    · subst other
      simp [found,reading_append]
    · simp [same]
  told quiet := by
    have all := quiet key v found
    rw [Function.update_self,show str :: texts key = [str] ++ texts key from rfl,readable_append] at all
    have first : ∀ value ∈ readable v.fromStr [str], (value == v.var.m_val) = true :=
      fun value member => all value (List.mem_append_left _ member)
    have kept : reading v [str] = v := by rw [reading,ConfigVar.settleAll_kept first]; rfl
    have unchanged : next.datas = c.datas := by rw [datas,kept,← found,Function.update_eq_self]
    rw [reads.told,told first]
    intro other w member value inside
    rw [unchanged] at member
    by_cases same : other = key
    · subst other
      cases found.symm.trans member
      exact all value (List.mem_append_right _ inside)
    · exact quiet other w member value (by rwa [Function.update_of_ne same])

theorem tame_update {c next : Config} {name str : Text} (tame : ∀ key v, c.datas key = some v → Tame v)
    (registered : c.datas name = some v) (datas : next.datas = Function.update c.datas name (some (reading v [str]))) :
    ∀ key w, next.datas key = some w → Tame w := by
  intro key w found
  rw [datas] at found
  by_cases same : key = name
  · subst key
    rw [Function.update_self] at found
    cases found
    exact (tame _ v registered).reading _
  · rw [Function.update_of_ne same] at found
    exact tame key w found

theorem loadNodes_reads (emit : Node → Text) (nodes : List (Text × Node)) (c : Config)
    (valid : ∀ item ∈ nodes, validName item.1 = true) (tame : ∀ key v, c.datas key = some v → Tame v) :
    Reads (nodeTexts emit nodes) c (loadNodes emit nodes c) := by
  induction nodes generalizing c with
  | nil =>
    refine (reads_nil c).congr fun key _ _ => ?_
    simp [nodeTexts]
  | cons item items ih =>
    obtain ⟨here,others⟩ := List.forall_mem_cons.mp valid
    by_cases empty : item.1.isEmpty = true
    · simp only [loadNodes,empty,↓reduceIte]
      refine (ih c others tame).congr fun key _ _ => ?_
      rw [nodeTexts_cons,if_neg]
      rintro ⟨nonempty,rfl⟩
      rw [empty] at nonempty
      cases nonempty
    · have nonempty : item.1.isEmpty = false := Bool.eq_false_iff.mpr empty
      simp only [loadNodes,empty,↓reduceIte,toLower_valid here,lookupBase,Bool.false_eq_true]
      cases registered : c.datas item.1 with
      | none =>
        refine (ih c others tame).congr fun key v found => ?_
        rw [nodeTexts_cons,if_neg]
        rintro ⟨_,rfl⟩
        rw [registered] at found
        cases found
      | some v =>
        obtain ⟨ended,datas,told⟩ := callFromString_tame c item.1 (tame _ v registered) (nodeText emit item.2)
        rcases result : callFromString c item.1 v (nodeText emit item.2) with ⟨next,thrown⟩
        rw [result] at ended datas told
        obtain rfl : thrown = none := ended
        simp only [result]
        have later := ih next others (tame_update tame registered datas)
        refine (Reads.cons registered datas told later).congr fun key _ _ => ?_
        rw [nodeTexts_cons]
        by_cases same : key = item.1
        · subst key
          simp [nonempty]
        · simp [same,Ne.symm same]

/-! ### Documents -/

theorem nodeTexts_named (emit : Node → Text) (root : Node) :
    nodeTexts emit (listAllMenbers [] root) = textsOf emit root := by
  funext key
  unfold nodeTexts textsOf named
  rw [listAllMenbers_root,List.filter_map,List.filter_filter]
  simp only [List.map_map,Function.comp_def,Bool.and_comm]

theorem loadFromYaml_reads (emit : Node → Text) (root : Node) (c : Config)
    (tame : ∀ key v, c.datas key = some v → Tame v) :
    Reads (textsOf emit root) c (loadFromYaml emit root c) := by
  rw [← nodeTexts_named]
  exact loadNodes_reads emit _ c (fun _ member => listAllMenbers_valid member) tame

theorem loadFromYaml_tame (emit : Node → Text) (root : Node) (c : Config)
    (tame : ∀ key v, c.datas key = some v → Tame v) :
    ∀ key v, (loadFromYaml emit root c).1.datas key = some v → Tame v := by
  intro key v found
  rw [(loadFromYaml_reads emit root c tame).datas] at found
  obtain ⟨w,registered,rfl⟩ := Option.map_eq_some_iff.mp found
  exact (tame key w registered).reading _

/-- A variable has the last value that could be read, as far as `operator==` tells, or is as it was;
nothing else of it has changed. -/
structure LastRead (v : Variable) (texts : List Text) (w : Variable) : Prop where
  same : ∃ value, w = { v with var := v.var.store value } ∧
    ∀ last, (readable v.fromStr texts).getLast? = some last → value = last ∨ (last == value) = true
  kept : readable v.fromStr texts = [] → w = v

theorem reading_last (v : Variable) (texts : List Text) : LastRead v texts (reading v texts) where
  same := ⟨_,rfl,fun _ last => ConfigVar.settleAll_last _ last⟩
  kept none := by rw [reading,none]; rfl

/-- `LoadFromYaml` returns, each variable has the value of the last of its nodes that can be read,
and listeners are told only of variables that read another value than they have. -/
theorem load_last_wins (emit : Node → Text) (root : Node) (c : Config)
    (tame : ∀ key v, c.datas key = some v → Tame v) :
    (loadFromYaml emit root c).2 = none ∧
      (∀ key v, c.datas key = some v → ∃ w, (loadFromYaml emit root c).1.datas key = some w ∧
        LastRead v (textsOf emit root key) w) ∧
      (∀ key, c.datas key = none → (loadFromYaml emit root c).1.datas key = none) ∧
      (Quiet c (textsOf emit root) → (loadFromYaml emit root c).1.told = c.told) := by
  have reads := loadFromYaml_reads emit root c tame
  refine ⟨reads.ends,fun key v found => ⟨_,?_,reading_last v _⟩,fun key absent => ?_,reads.told⟩
  · simp [reads.datas,found]
  · simp [reads.datas,absent]

def oneString : Config :=
  ⟨fun key => if key = ['a'] then some ⟨Text,inferInstance,.ok,⟨[],[],.nil⟩⟩ else none,[],[]⟩

theorem oneString_tame (key : Text) (v : Variable) (found : oneString.datas key = some v) : Tame v := by
  obtain ⟨_,same⟩ := Option.ite_none_right_eq_some.mp found
  cases same
  exact ⟨nofun,nofun⟩

theorem load_last_wins_second :
    let root : Node := .map [(.scalar ['a'],.scalar ['1']),(.scalar ['a'],.scalar ['2'])]
    ∃ w, (loadFromYaml (fun _ => []) root oneString).1.datas ['a'] = some w ∧
      LastRead ⟨Text,inferInstance,.ok,⟨[],[],.nil⟩⟩ [['1'],['2']] w :=
  (load_last_wins (fun _ => []) (.map [(.scalar ['a'],.scalar ['1']),(.scalar ['a'],.scalar ['2'])]) oneString
    oneString_tame).2.1 ['a'] _ rfl

theorem load_both (emit : Node → Text) (first second : Node) (c : Config)
    (tame : ∀ key v, c.datas key = some v → Tame v) :
    (loadFromYaml emit second (loadFromYaml emit first c).1).1.datas = fun key =>
      (c.datas key).map fun v => reading v (textsOf emit first key ++ textsOf emit second key) := by
  have once := loadFromYaml_reads emit first c tame
  have twice := loadFromYaml_reads emit second _ (loadFromYaml_tame emit first c tame)
  rw [twice.datas,once.datas]
  funext key
  simp only [Option.map_map,Function.comp_def,reading_append]

def TransitiveEqual (v : Variable) : Prop := ∀ x y z : v.T, x == y → y == z → x == z

theorem reading_twice (transitive : TransitiveEqual v) (texts : List Text) :
    reading v (texts ++ texts) = reading v texts := by
  rw [reading,reading,readable_append,ConfigVar.settleAll_append,ConfigVar.settleAll_again transitive]

theorem reading_agrees (transitive : TransitiveEqual v) {texts : List Text}
    (agree : ∀ x ∈ readable v.fromStr texts, ∀ y ∈ readable v.fromStr texts, (x == y) = true)
    (member : value ∈ readable v.fromStr texts) : (value == (reading v texts).var.m_val) = true := by
  obtain ⟨last,found⟩ := Option.isSome_iff_exists.mp
    (List.getLast?_isSome.mpr (List.ne_nil_of_mem member))
  have equal := agree value member last (List.mem_of_getLast? found)
  rcases ConfigVar.settleAll_last v.var.m_val found with same | same
  · simpa [reading,same] using equal
  · exact transitive _ _ _ equal same

/-- A document that is loaded again changes no variable, and tells no listener if no two of its
nodes disagree about one. Documents that name different variables can be loaded in any order. -/
theorem load_settles (emit : Node → Text) (first second : Node) (c : Config)
    (tame : ∀ key v, c.datas key = some v → Tame v) :
    ((∀ key v, c.datas key = some v → TransitiveEqual v) →
      (loadFromYaml emit first (loadFromYaml emit first c).1).1.datas = (loadFromYaml emit first c).1.datas ∧
      ((∀ key v, c.datas key = some v → ∀ x ∈ readable v.fromStr (textsOf emit first key),
          ∀ y ∈ readable v.fromStr (textsOf emit first key), (x == y) = true) →
        (loadFromYaml emit first (loadFromYaml emit first c).1).1.told = (loadFromYaml emit first c).1.told)) ∧
      ((∀ key, c.datas key ≠ none → textsOf emit first key = [] ∨ textsOf emit second key = []) →
        (loadFromYaml emit second (loadFromYaml emit first c).1).1.datas =
          (loadFromYaml emit first (loadFromYaml emit second c).1).1.datas) := by
  have once := loadFromYaml_reads emit first c tame
  refine ⟨fun transitive => ⟨?_,fun agree => ?_⟩,fun apart => ?_⟩
  · rw [load_both emit first first c tame,once.datas]
    funext key
    cases registered : c.datas key with
    | none => rfl
    | some v => simp [reading_twice (transitive key v registered)]
  · apply (loadFromYaml_reads emit first _ (loadFromYaml_tame emit first c tame)).told
    intro key v found value inside
    rw [once.datas] at found
    obtain ⟨w,registered,rfl⟩ := Option.map_eq_some_iff.mp found
    exact reading_agrees (transitive key w registered) (agree key w registered) inside
  · rw [load_both emit first second c tame,load_both emit second first c tame]
    funext key
    cases registered : c.datas key with
    | none => rfl
    | some v => rcases apart key (by simp [registered]) with none | none <;> simp [none]

theorem oneString_transitive (key : Text) (v : Variable) (found : oneString.datas key = some v) :
    TransitiveEqual v := by
  obtain ⟨_,same⟩ := Option.ite_none_right_eq_some.mp found
  cases same
  intro x y z first second
  rw [eq_of_beq first,eq_of_beq second,beq_self_eq_true]

theorem load_settles_one :
    let root : Node := .map [(.scalar ['a'],.scalar ['1'])]
    let once := (loadFromYaml (fun _ => []) root oneString).1
    once.datas ['a'] = some ⟨Text,inferInstance,.ok,⟨['1'],[],.nil⟩⟩ ∧
      (loadFromYaml (fun _ => []) root once).1.datas = once.datas :=
  ⟨rfl,((load_settles (fun _ => []) (.map [(.scalar ['a'],.scalar ['1'])]) .null oneString oneString_tame).1
    oneString_transitive).1⟩

end Config

end Myriel

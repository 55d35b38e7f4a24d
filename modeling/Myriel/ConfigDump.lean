import Myriel.ConfigLookup
import Myriel.ConfigReload
import Myriel.ConfigText

/-! `Config::Visit`, and the document that a visit of all variables writes: loaded again, it
gives every variable its value back. -/
namespace Myriel.Config
open YAML

/-- `GetDatas()` as a `std::map`. -/
structure Datas extends SortedMap Text Entry where
  valid : ∀ entry ∈ entries, validName entry.1 = true

/-- `ConfigVar::toString`, whose handler is for `std::exception`. -/
def toString (entry : Entry) : Except Thrown Text :=
  match entry.type.toStr entry.var.m_val with
  | .ok text => .ok text
  | .error .exception => .ok []
  | .error .other => .error .other

/-- `Config::Visit`, with a callback that changes a state of its own. -/
def visit (cb : σ → Text → Entry → σ) (m : Datas) (s : σ) : σ :=
  m.entries.foldl (fun s item => cb s item.1 item.2) s

def thrownOf (result : Except Exception T) : Except Thrown T := result.mapError fun _ => .exception

/-- A callback that adds to a document the node of the text of a variable, under its name. -/
def dumpEntry (yaml : YamlCpp) (doc : Except Thrown Node) (name : Text) (entry : Entry) : Except Thrown Node := do
  let doc ← doc
  let text ← toString entry
  let node ← thrownOf (yaml.load text)
  thrownOf (assign doc name node)

def dump (yaml : YamlCpp) (m : Datas) : Except Thrown Node := visit (dumpEntry yaml) m (.ok .null)

/-- The text of the value loads, and what is read of the node is the value. -/
def Restorable (yaml : YamlCpp) (type : ConfigType) (v : type.T) : Prop :=
  ∃ text node, type.toStr v = .ok text ∧ yaml.load text = .ok node ∧
    type.fromStr (nodeText yaml.emit node) = .ok v

/-- A type with the conversions of the library. -/
def castType (id : Nat) {T : Type} (equal : BEq T) (element : LaxicalCast T) : ConfigType where
  id := id
  T := T
  equal := equal
  fromStr str := thrownOf (element.fromStr str)
  toStr v := thrownOf (element.toStr v)

/-- `LoadFromFile`; `loadFile` is `YAML::LoadFile`. -/
def loadFromFile (emit : Node → Text) (loadFile : Text → Except Exception Node) (file : Text) (c : Config) :
    Config × Option Thrown :=
  match loadFile file with
  | .ok root => loadFromYaml emit root c
  | .error _ => (c,some .exception)

/-! ### The registry as a map -/

/-- The registry finds what is in the map. -/
def Holds (r : Registry) (m : Datas) : Prop :=
  ∀ name entry, r.datas name = some entry ↔ (name,entry) ∈ m.entries

theorem lookup_holds {r : Registry} {m : Datas} (holds : Holds r m) (call : LookupCall) :
    ∃ next, Holds (lookup r call.type call.name call.value call.logged).2 next := by
  cases found : r.datas call.name with
  | some entry =>
    refine ⟨m,?_⟩
    simp only [lookup,found]
    split
    · exact holds
    split
    · exact holds
    · split <;> exact holds
  | none =>
    by_cases valid : validName call.name = true
    · have fresh : ∀ entry ∈ m.entries, entry.1 ≠ call.name := by
        rintro ⟨name,entry⟩ member rfl
        have known := (holds _ _).mpr member
        rw [found] at known
        cases known
      have added := SortedMap.insertEntry_perm call.name (⟨call.type,call.value,[],.nil⟩ : Entry) fresh
      refine ⟨⟨m.emplace call.name ⟨call.type,call.value,[],.nil⟩,fun entry member => ?_⟩,fun name entry => ?_⟩
      · rcases List.mem_cons.mp (added.subset member) with rfl | old
        · exact valid
        · exact m.valid entry old
      · rw [show (m.emplace call.name ⟨call.type,call.value,[],.nil⟩).entries = SortedMap.insertEntry _ _ _ from rfl,
          added.mem_iff,List.mem_cons,← holds]
        by_cases same : name = call.name
        · subst name
          simp [lookup,found,valid,Registry.insert,eq_comm]
        · simp [lookup,found,valid,Registry.insert,same]
    · exact ⟨m,by simpa [lookup,found,valid] using holds⟩

theorem registry_holds (calls : List LookupCall) : ∃ m, Holds (registry calls) m := by
  have build (calls : List LookupCall) (r : Registry) (m : Datas) (holds : Holds r m) :
      ∃ next, Holds (calls.foldl (fun r call => (lookup r call.type call.name call.value call.logged).2) r) next := by
    induction calls generalizing r m with
    | nil => exact ⟨m,holds⟩
    | cons call calls ih =>
      obtain ⟨next,after⟩ := lookup_holds holds call
      exact ih _ next after
  exact build calls .empty ⟨.empty,nofun⟩ fun name entry => by simp [Registry.empty,SortedMap.empty]

/-! ### The document -/

theorem dump_mapNode {yaml : YamlCpp} (m : Datas)
    (restorable : ∀ entry ∈ m.entries, Restorable yaml entry.2.type entry.2.var.m_val) :
    ∃ items, dump yaml m = .ok (mapNode items) ∧
      List.Forall₂ (fun entry item => item.1 = entry.1 ∧
        entry.2.type.fromStr (nodeText yaml.emit item.2) = .ok entry.2.var.m_val) m.entries items := by
  have build (entries : List (Text × Entry)) (front : List (Text × Node))
      (distinct : (front.map Prod.fst ++ entries.map Prod.fst).Nodup)
      (restorable : ∀ entry ∈ entries, Restorable yaml entry.2.type entry.2.var.m_val) :
      ∃ items, entries.foldl (fun doc item => dumpEntry yaml doc item.1 item.2) (.ok (mapNode front)) =
          .ok (mapNode (front ++ items)) ∧
        List.Forall₂ (fun entry item => item.1 = entry.1 ∧
          entry.2.type.fromStr (nodeText yaml.emit item.2) = .ok entry.2.var.m_val) entries items := by
    induction entries generalizing front with
    | nil => exact ⟨[],by simp,.nil⟩
    | cons entry entries ih =>
      obtain ⟨⟨text,node,written,loaded,parsed⟩,others⟩ := List.forall_mem_cons.mp restorable
      have fresh : entry.1 ∉ front.map Prod.fst := fun member =>
        List.disjoint_of_nodup_append distinct member (by simp)
      have first : dumpEntry yaml (.ok (mapNode front)) entry.1 entry.2 =
          .ok (mapNode (front ++ [(entry.1,node)])) := by
        have shown : toString entry.2 = .ok text := by simp [toString,written]
        have assigned := assign_mapNode front entry.1 node fresh
        simp [dumpEntry,shown,loaded,assigned,thrownOf,Except.mapError,bind,Except.bind]
      obtain ⟨items,later,matched⟩ := ih (front ++ [(entry.1,node)]) (by simpa using distinct) others
      refine ⟨(entry.1,node) :: items,?_,.cons ⟨rfl,parsed⟩ matched⟩
      rw [List.foldl_cons,first,later,List.append_assoc]
      rfl
  exact build m.entries [] (by simpa using m.distinct) restorable

/-! ### The last node under a name -/

theorem pathName_single (name : Text) : pathName [name] = name := by
  cases name <;> simp [pathName]

theorem pathName_below {name : Text} (nonempty : name ≠ []) {rest : List Text} (more : rest ≠ []) :
    pathName (name :: rest) = name ++ '.' :: ['.'].intercalate rest := by
  obtain ⟨c,text,rfl⟩ := List.exists_cons_of_ne_nil nonempty
  obtain ⟨next,front,rfl⟩ := List.exists_cons_of_ne_nil more
  simp [pathName,List.intercalate_cons_cons]

theorem reachedItems_scalars (items : List (Text × Node)) :
    reachedItems (items.map fun item => (.scalar item.1,item.2)) =
      items.flatMap fun item => (reached item.2).map fun found => (item.1 :: found.1,found.2) := by
  induction items with
  | nil => rfl
  | cons item items ih =>
    rw [List.map_cons,reachedItems,ih]
    rfl

theorem reachedItems_below (items : List (Node × Node)) : ∀ found ∈ reachedItems items, found.1 ≠ [] := by
  induction items with
  | nil => exact fun _ member => by cases member
  | cons item items ih =>
    obtain ⟨key,value⟩ := item
    intro found member
    rcases List.mem_append.mp member with first | later
    · obtain ⟨inner,_,rfl⟩ := List.mem_map.mp first
      exact List.cons_ne_nil _ _
    · exact ih found later

theorem reached_first (node : Node) :
    ∃ rest, reached node = ([],node) :: rest ∧ ∀ found ∈ rest, found.1 ≠ [] := by
  cases node with
  | map items => exact ⟨reachedItems items,rfl,reachedItems_below items⟩
  | _ => exact ⟨[],rfl,fun _ member => by cases member⟩

theorem not_append_lt (name rest : Text) : ¬ name ++ rest < name := by
  induction name with
  | nil => exact List.not_lt_nil _
  | cons c name ih =>
    rw [List.cons_append,List.cons_lt_cons_iff]
    rintro (less | ⟨_,less⟩)
    · exact lt_irrefl c less
    · exact ih less

theorem later_entry {name other : Text} (later : name < other) (path : List Text) : pathName (other :: path) ≠ name := by
  have nonempty : other ≠ [] := by
    rintro rfl
    exact List.not_lt_nil _ later
  intro same
  by_cases more : path = []
  · subst path
    rw [pathName_single] at same
    exact lt_irrefl _ (same ▸ later)
  · rw [pathName_below nonempty more] at same
    exact not_append_lt other _ (same ▸ later)

/-- In a document with its names in order, the last node under a name is that of its own entry:
what shares the name below another entry comes before it. -/
theorem named_own {name : Text} (valid : validName name = true) (nonempty : name ≠ []) (node : Node)
    (front back : List (Text × Node)) (later : ∀ item ∈ back, name < item.1) :
    ∃ before, named name (mapNode (front ++ (name,node) :: back)) = before ++ [node] := by
  obtain ⟨rest,split,deeper⟩ := reached_first node
  have doc : mapNode (front ++ (name,node) :: back) =
      .map ((front ++ (name,node) :: back).map fun item => (.scalar item.1,item.2)) := by
    cases front <;> rfl
  have shown : listed [name] = true := by
    have root : validName (pathName []) = true := rfl
    simp [listed,root,pathName_single,valid]
  have behind : (back.flatMap fun item => (reached item.2).map fun found => (item.1 :: found.1,found.2)).filter
      (fun found => listed found.1 && pathName found.1 == name) = [] := by
    refine List.filter_eq_nil_iff.mpr fun found member => ?_
    obtain ⟨item,inside,inner⟩ := List.mem_flatMap.mp member
    obtain ⟨f,_,rfl⟩ := List.mem_map.mp inner
    simp [later_entry (later item inside) f.1]
  have under : (rest.map fun found => (name :: found.1,found.2)).filter
      (fun found => listed found.1 && pathName found.1 == name) = [] := by
    refine List.filter_eq_nil_iff.mpr fun found member => ?_
    obtain ⟨f,inside,rfl⟩ := List.mem_map.mp member
    simp [pathName_below nonempty (deeper f inside)]
  have own (tail : List (List Text × Node)) :
      (([name],node) :: tail).filter (fun found => listed found.1 && pathName found.1 == name) =
        ([name],node) :: tail.filter fun found => listed found.1 && pathName found.1 == name :=
    List.filter_cons_of_pos (by simp [shown,pathName_single])
  rw [named,doc,reached,reachedItems_scalars,List.flatMap_append,List.flatMap_cons,split,List.map_cons,
    List.cons_append,← List.cons_append,List.filter_append,own,List.filter_append,under,behind,List.append_nil,
    List.map_append]
  exact ⟨_,rfl⟩

theorem forall₂_split {R : α → β → Prop} (front : List α) {a : α} {back : List α} {items : List β}
    (matched : List.Forall₂ R (front ++ a :: back) items) :
    ∃ before b after, items = before ++ b :: after ∧ R a b ∧ List.Forall₂ R back after := by
  induction front generalizing items with
  | nil =>
    obtain ⟨b,after,first,rest,rfl⟩ := List.forall₂_cons_left_iff.mp matched
    exact ⟨[],b,after,rfl,first,rest⟩
  | cons other front ih =>
    obtain ⟨item,_,_,rest,rfl⟩ := List.forall₂_cons_left_iff.mp matched
    obtain ⟨before,b,after,rfl,same,later⟩ := ih rest
    exact ⟨item :: before,b,after,rfl,same,later⟩

/-- A document written by a visit of all variables gives them their values back, whatever has
become of them since then, unless they have one that equals it: where the document has a variable
also below another one, its own entry is the later one. -/
theorem dump_restores (yaml : YamlCpp) (m : Datas)
    (restorable : ∀ entry ∈ m.entries, Restorable yaml entry.2.type entry.2.var.m_val) (c : Config)
    (tame : ∀ key v, c.datas key = some v → Tame v) :
    ∃ doc, dump yaml m = .ok doc ∧ (loadFromYaml yaml.emit doc c).2 = none ∧
      ∀ entry ∈ m.entries, entry.1 ≠ [] → ∀ var,
        c.datas entry.1 = some ⟨entry.2.type.T,entry.2.type.equal,entry.2.type.fromStr,var⟩ →
        ∃ value, (loadFromYaml yaml.emit doc c).1.datas entry.1 =
            some ⟨entry.2.type.T,entry.2.type.equal,entry.2.type.fromStr,{ var with m_val := value }⟩ ∧
          (value = entry.2.var.m_val ∨ entry.2.type.equal.beq entry.2.var.m_val value = true) := by
  obtain ⟨items,written,matched⟩ := dump_mapNode m restorable
  have reads := loadFromYaml_reads yaml.emit (mapNode items) c tame
  refine ⟨_,written,reads.ends,fun entry member nonempty var found => ?_⟩
  obtain ⟨front,back,split⟩ := List.append_of_mem member
  have sorted := m.sorted
  rw [split] at matched sorted
  obtain ⟨before,item,after,rfl,⟨name,parsed⟩,behind⟩ := forall₂_split front matched
  have later : ∀ other ∈ after, entry.1 < other.1 := by
    intro other inside
    obtain ⟨e,after,same,_⟩ := forall₂_mem behind inside
    rw [same]
    exact (List.pairwise_cons.mp (List.pairwise_append.mp sorted).2.1).1 e after
  obtain ⟨earlier,named⟩ := named_own (m.valid entry member) nonempty item.2 before after later
  have own : item = (entry.1,item.2) := Prod.ext name rfl
  rw [← own] at named
  have texts : textsOf yaml.emit (mapNode (before ++ item :: after)) entry.1 =
      earlier.map (nodeText yaml.emit) ++ [nodeText yaml.emit item.2] := by
    have shown : entry.1.isEmpty = false := by simpa using nonempty
    rw [textsOf,shown,named,List.map_append]
    rfl
  have last : (readable entry.2.type.fromStr (textsOf yaml.emit (mapNode (before ++ item :: after)) entry.1)).getLast? =
      some entry.2.var.m_val := by
    rw [texts,readable_append]
    simp [readable,parsed,Except.toOption]
  obtain ⟨⟨value,same,equal⟩,_⟩ := reading_last
    ⟨entry.2.type.T,entry.2.type.equal,entry.2.type.fromStr,var⟩
    (textsOf yaml.emit (mapNode (before ++ item :: after)) entry.1)
  refine ⟨value,?_,equal _ last⟩
  simp only [reads.datas,found,Option.map_some,same]
  rfl

/-! ### The types of the library -/

theorem bind_ok {x : Except ε α} {f : α → Except ε β} {b : β} (bound : x >>= f = .ok b) :
    ∃ a, x = .ok a ∧ f a = .ok b := by
  cases x with
  | error e => cases bound
  | ok a => exact ⟨a,rfl,bound⟩

theorem foldlM_container {α : Type} {f : Node → α → Except Exception Node} {items : List α}
    (makes : ∀ node item next, f node item = .ok next → next.isScalar = false) {node result : Node}
    (initial : node.isScalar = false) (folded : items.foldlM f node = .ok result) : result.isScalar = false := by
  induction items generalizing node with
  | nil =>
    cases folded
    exact initial
  | cons item items ih =>
    obtain ⟨next,first,rest⟩ := bind_ok (List.foldlM_cons (m := Except Exception) ▸ folded)
    exact ih (makes node item next first) rest

theorem pushBack_container (made : pushBack node item = .ok next) : next.isScalar = false := by
  cases node <;> cases made <;> rfl

theorem assign_container (made : assign node key value = .ok next) : next.isScalar = false := by
  cases node with
  | map items =>
    simp only [assign] at made
    split at made <;> cases made <;> rfl
  | null => cases made; rfl
  | scalar | sequence => cases made

/-- The text of a container is that of a node that is no scalar. -/
theorem sequenceToStr_container {yaml : YamlCpp} {element : LaxicalCast T} {v : List T} {text : Text}
    (written : sequenceToStr yaml element v = .ok text) : ∃ node, node.isScalar = false ∧ text = yaml.emit node := by
  obtain ⟨node,folded,emitted⟩ := bind_ok written
  refine ⟨node,foldlM_container (fun node item next pushed => ?_) rfl folded,(Except.ok.inj emitted).symm⟩
  obtain ⟨_,_,loaded⟩ := bind_ok pushed
  obtain ⟨_,_,pushed⟩ := bind_ok loaded
  exact pushBack_container pushed

theorem mapToStr_container {yaml : YamlCpp} {element : LaxicalCast T} {v : List (Text × T)} {text : Text}
    (written : mapToStr yaml element v = .ok text) : ∃ node, node.isScalar = false ∧ text = yaml.emit node := by
  obtain ⟨node,folded,emitted⟩ := bind_ok written
  refine ⟨node,foldlM_container (fun node entry next assigned => ?_) rfl folded,(Except.ok.inj emitted).symm⟩
  obtain ⟨_,_,loaded⟩ := bind_ok assigned
  obtain ⟨_,_,assigned⟩ := bind_ok loaded
  exact assign_container assigned

theorem generated_restorable {yaml : YamlCpp} (documented : yaml.Documented) {element : LaxicalCast T}
    (generated : Generated yaml T element) (id : Nat) (equal : BEq T) (v : T) :
    Restorable yaml (castType id equal element) v := by
  obtain ⟨text,node,written,loaded,emitted,parsed⟩ := generated_readable documented generated v
  have read : nodeText yaml.emit node = text := by
    have container : (∃ n : Node, n.isScalar = false ∧ text = yaml.emit n) → nodeText yaml.emit node = text := by
      rintro ⟨n,shape,rfl⟩
      obtain rfl : n = node := Except.ok.inj ((documented.load_emit n).symm.trans loaded)
      simp [nodeText,shape]
    cases generated with
    | int t =>
      cases written
      cases (documented.load_numeral v.value).symm.trans loaded
      rfl
    | vector | list | set => exact container (sequenceToStr_container written)
    | map | unorderedMap => exact container (mapToStr_container written)
  refine ⟨text,node,by simp [castType,written,thrownOf,Except.mapError],loaded,?_⟩
  simp [castType,read,parsed,thrownOf,Except.mapError]

noncomputable def vectorType : ConfigType :=
  castType 0 ⟨fun a b : List (IntType.Val .unsignedInt) => decide (a = b)⟩
    (vectorCast sampleYaml (intCast .unsignedInt))

theorem vectorType_equal {a b : List (IntType.Val .unsignedInt)} (same : vectorType.equal.beq a b = true) : a = b :=
  of_decide_eq_true same

noncomputable def vectorVariable (value : vectorType.T) : Variable :=
  ⟨vectorType.T,vectorType.equal,vectorType.fromStr,⟨value,[],.nil⟩⟩

noncomputable def vectorDatas (value : vectorType.T) : Datas where
  entries := [(['a'],⟨vectorType,⟨value,[],.nil⟩⟩)]
  sorted := List.pairwise_singleton _ _
  valid entry member := by
    cases List.mem_singleton.mp member
    exact (by decide : validName ['a'] = true)

noncomputable def vectorConfig (value : vectorType.T) : Config :=
  ⟨fun key => if key = ['a'] then some (vectorVariable value) else none,[],[]⟩

theorem vectorConfig_tame (value : vectorType.T) (key : Text) (v : Variable)
    (found : (vectorConfig value).datas key = some v) : Tame v := by
  obtain ⟨_,same⟩ := Option.ite_none_right_eq_some.mp found
  cases same
  refine ⟨fun str foreign => ?_,nofun⟩
  change thrownOf _ = _ at foreign
  cases read : (vectorCast sampleYaml (intCast .unsignedInt)).fromStr str <;> rw [read] at foreign <;> cases foreign

theorem dump_restores_vector :
    let value : vectorType.T := ([⟨8,by decide,by decide⟩] : List (IntType.Val .unsignedInt))
    let other : vectorType.T := ([] : List (IntType.Val .unsignedInt))
    ∃ doc, dump sampleYaml (vectorDatas value) = .ok doc ∧
      (loadFromYaml sampleYaml.emit doc (vectorConfig other)).1.datas ['a'] = some (vectorVariable value) := by
  intro value other
  have restorable : ∀ entry ∈ (vectorDatas value).entries, Restorable sampleYaml entry.2.type entry.2.var.m_val := by
    intro entry member
    cases List.mem_singleton.mp member
    exact generated_restorable sampleYaml_documented (.vector (.int .unsignedInt)) 0 _ value
  obtain ⟨doc,written,_,restored⟩ := dump_restores sampleYaml (vectorDatas value) restorable (vectorConfig other)
    (vectorConfig_tame other)
  have known : (vectorConfig other).datas ['a'] = some (vectorVariable other) := by
    simp [vectorConfig]
  obtain ⟨back,found,equal⟩ := restored _ (List.mem_singleton_self _) (by simp) _ known
  obtain rfl : back = value := equal.elim id fun same => (vectorType_equal same).symm
  exact ⟨doc,written,found⟩

end Myriel.Config

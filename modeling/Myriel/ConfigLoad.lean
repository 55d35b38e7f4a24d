import Myriel.ConfigVar
import Myriel.Yaml
import Mathlib.Logic.Function.Basic
import Mathlib.Data.List.Infix
import Mathlib.Data.List.Forall2

/-! `Config::LoadFromYaml`: the list of the named nodes, and its replay on the registry.
How yaml-cpp writes a node that is no scalar is a parameter. -/
namespace Myriel
open YAML

/-- A registered variable, whatever its type and its conversion are; `equal` is the `operator==`. -/
structure Variable where
  T : Type
  equal : BEq T
  fromStr : Text → Except Thrown T
  var : ConfigVar T

instance (v : Variable) : BEq v.T := v.equal

/-- A call of `fromString`; `returned` is `none` if an exception left it. -/
structure FromStringCall where
  key : Text
  str : Text
  returned : Option Bool

/-- `GetDatas()`, with the calls of `fromString` and of listeners so far. -/
structure Config where
  datas : Text → Option Variable
  calls : List FromStringCall
  told : List (Text × Int)

namespace Config

def nameChars : List Char := "abcdefghijklmnopqrstuvwxyz0123456789._".toList

/-- `find_first_not_of` finds nothing. -/
def validName (name : Text) : Bool := name.all fun c => nameChars.contains c

def join (perfix key : Text) : Text := if perfix.isEmpty then key else perfix ++ '.' :: key

mutual
/-- `ListAllMenbers`, with what it appends to `output`. -/
def listAllMenbers (perfix : Text) : Node → List (Text × Node)
  | .map items => if validName perfix then (perfix,.map items) :: listItems perfix items else []
  | node => if validName perfix then [(perfix,node)] else []
termination_by structural node => node
def listItems (perfix : Text) : List (Node × Node) → List (Text × Node)
  | [] => []
  | item :: items => listItem perfix item ++ listItems perfix items
termination_by structural items => items
def listItem (perfix : Text) : Node × Node → List (Text × Node)
  | (key,value) => listAllMenbers (join perfix key.scalarText) value
termination_by structural item => item
end

def lookupBase (c : Config) (name : Text) : Option Variable := c.datas name

/-- `fromString` on the variable registered under `key`. -/
def callFromString (c : Config) (key : Text) (v : Variable) (str : Text) : Config × Option Thrown :=
  let result := ConfigVar.fromString v.fromStr v.var c.told.length str
  let update := result.1
  ({ datas := Function.update c.datas key (some { v with var := update.var })
     calls := c.calls ++ [⟨key,str,if update.thrown = none then some result.2 else none⟩]
     told := c.told ++ update.told.map fun listener => (key,listener) },update.thrown)

/-- The text given to `fromString`. -/
def nodeText (emit : Node → Text) (node : Node) : Text :=
  if node.isScalar then node.scalarText else emit node

/-- The loop over `allNodes`, left early if an exception leaves `fromString`. -/
def loadNodes (emit : Node → Text) : List (Text × Node) → Config → Config × Option Thrown
  | [],c => (c,none)
  | item :: items,c =>
    let key := item.1
    if key.isEmpty then loadNodes emit items c
    else
      let key := key.map Char.toLower
      match lookupBase c key with
      | none => loadNodes emit items c
      | some var =>
        match callFromString c key var (nodeText emit item.2) with
        | (next,some thrown) => (next,some thrown)
        | (next,none) => loadNodes emit items next

def loadFromYaml (emit : Node → Text) (root : Node) (c : Config) : Config × Option Thrown :=
  loadNodes emit (listAllMenbers [] root) c

/-! ### The named nodes of a document -/

mutual
/-- The nodes reached through maps only, in the order of the document, each with the
keys on the way to it. -/
def reached : Node → List (List Text × Node)
  | .map items => ([],.map items) :: reachedItems items
  | node => [([],node)]
termination_by structural node => node
def reachedItems : List (Node × Node) → List (List Text × Node)
  | [] => []
  | item :: items => reachedItem item ++ reachedItems items
termination_by structural items => items
def reachedItem : Node × Node → List (List Text × Node)
  | (key,value) => (reached value).map fun found => (key.scalarText :: found.1,found.2)
termination_by structural item => item
end

/-- The keys joined with '.', leading empty ones dropped. -/
def pathName (path : List Text) : Text := ['.'].intercalate (path.dropWhile List.isEmpty)

def listed (path : List Text) : Bool := path.inits.all fun front => validName (pathName front)

def named (key : Text) (root : Node) : List Node :=
  ((reached root).filter fun found => listed found.1 && pathName found.1 == key).map Prod.snd

theorem forall₂_mem {R : α → β → Prop} {first : List α} {second : List β} (matched : List.Forall₂ R first second)
    {b : β} (member : b ∈ second) : ∃ a ∈ first, R a b := by
  obtain ⟨i,bound,rfl⟩ := List.mem_iff_getElem.mp member
  have lengths := matched.length_eq
  exact ⟨first[i],List.getElem_mem _,matched.get (by omega) bound⟩

/-! ### The list that the recursion builds -/

def below (path rest : List Text) : Bool := rest.inits.all fun front => validName (pathName (path ++ front))

/-- The valid ones of the nodes found under a path, with their full names. -/
def under (path : List Text) (found : List (List Text × Node)) : List (Text × Node) :=
  (found.filter fun f => below path f.1).map fun f => (pathName (path ++ f.1),f.2)

theorem intercalate_concat (first key : Text) (front : List Text) :
    ['.'].intercalate (first :: front ++ [key]) = ['.'].intercalate (first :: front) ++ '.' :: key := by
  induction front generalizing first with
  | nil => simp
  | cons next front ih =>
    have later := ih next
    simp only [List.cons_append] at later
    simp [List.intercalate_cons_cons,later]

theorem intercalate_nonempty (first : Text) (front : List Text) (nonempty : first.isEmpty = false) :
    (['.'].intercalate (first :: front)).isEmpty = false := by
  cases front <;> simp_all [List.intercalate_cons_cons]

theorem join_pathName (path : List Text) (key : Text) :
    join (pathName path) key = pathName (path ++ [key]) := by
  have head := List.head?_dropWhile_not List.isEmpty path
  cases kept : path.dropWhile List.isEmpty with
  | nil => cases key <;> simp [join,pathName,List.dropWhile_append,kept]
  | cons first front =>
    rw [kept] at head
    rw [pathName,pathName,List.dropWhile_append,kept,join,intercalate_nonempty first front head]
    simpa using (intercalate_concat first key front).symm

theorem below_cons (path rest : List Text) (key : Text) :
    below path (key :: rest) = (validName (pathName path) && below (path ++ [key]) rest) := by
  simp [below,List.all_map,Function.comp_def]

theorem under_append (path : List Text) (first second) :
    under path (first ++ second) = under path first ++ under path second := by
  simp [under]

theorem under_invalid (path : List Text) (found) (invalid : validName (pathName path) = false) :
    under path found = [] := by
  have none (f : List Text × Node) : below path f.1 = false := by
    cases keys : f.1 <;> simp [below,invalid]
  simp [under,none]

theorem under_child (path : List Text) (key : Text) (found) (valid : validName (pathName path) = true) :
    under path (found.map fun f => (key :: f.1,f.2)) = under (path ++ [key]) found := by
  simp [under,List.filter_map,Function.comp_def,below_cons,valid]

theorem listAllMenbers_leaf (perfix : Text) (node : Node) (leaf : node.isMap = false) :
    listAllMenbers perfix node = if validName perfix then [(perfix,node)] else [] := by
  cases node <;> first | rfl | simp [Node.isMap] at leaf

theorem reached_leaf (node : Node) (leaf : node.isMap = false) : reached node = [([],node)] := by
  cases node <;> first | rfl | simp [Node.isMap] at leaf

theorem under_leaf (path : List Text) (node : Node) (leaf : node.isMap = false) :
    listAllMenbers (pathName path) node = under path (reached node) := by
  rw [listAllMenbers_leaf _ _ leaf,reached_leaf _ leaf]
  by_cases valid : validName (pathName path) = true <;> simp [under,below,valid]

mutual
theorem listAllMenbers_eq (path : List Text) : (node : Node) →
    listAllMenbers (pathName path) node = under path (reached node)
  | .null | .scalar _ | .sequence _ => under_leaf path _ rfl
  | .map items => by
    by_cases valid : validName (pathName path) = true
    · have later := listItems_eq path valid items
      rw [listAllMenbers,if_pos valid,later,reached]
      simp [under,below,valid]
    · rw [listAllMenbers,if_neg valid,under_invalid _ _ (Bool.eq_false_iff.mpr valid)]
theorem listItems_eq (path : List Text) (valid : validName (pathName path) = true) :
    (items : List (Node × Node)) → listItems (pathName path) items = under path (reachedItems items)
  | [] => rfl
  | item :: items => by
    rw [listItems,listItem_eq path valid item,listItems_eq path valid items,reachedItems,under_append]
theorem listItem_eq (path : List Text) (valid : validName (pathName path) = true) :
    (item : Node × Node) → listItem (pathName path) item = under path (reachedItem item)
  | (key,value) => by
    rw [listItem,join_pathName,listAllMenbers_eq (path ++ [key.scalarText]) value,reachedItem,
      under_child _ _ _ valid]
end

theorem listAllMenbers_root (root : Node) :
    listAllMenbers [] root =
      ((reached root).filter fun found => listed found.1).map fun found => (pathName found.1,found.2) :=
  listAllMenbers_eq [] root

theorem toLower_valid (valid : validName key = true) : key.map Char.toLower = key := by
  have fixed : (nameChars.all fun c => c.toLower == c) = true := by decide
  have each : ∀ c ∈ key, c.toLower = id c := by
    intro c member
    have allowed : c ∈ nameChars := by simpa using List.all_eq_true.mp valid c member
    exact eq_of_beq (List.all_eq_true.mp fixed c allowed)
  rw [List.map_congr_left each,List.map_id]

theorem listAllMenbers_valid (member : item ∈ listAllMenbers [] root) : validName item.1 = true := by
  rw [listAllMenbers_root] at member
  obtain ⟨found,kept,rfl⟩ := List.mem_map.mp member
  have every := List.all_eq_true.mp (List.mem_filter.mp kept).2
  exact every found.1 (by simp)

/-! ### The replay -/

/-- The calls that a list of nodes asks for. -/
def requests (emit : Node → Text) (c : Config) (nodes : List (Text × Node)) : List (Text × Text) :=
  nodes.filterMap fun item =>
    if item.1.isEmpty || (c.datas item.1).isNone then none else some (item.1,nodeText emit item.2)

/-- A call that returned true has set the value it parsed, unless that equals the old one; no other
changes it. -/
def applied [BEq T] (fromStr : Text → Except Thrown T) (value : T) (call : FromStringCall) : T :=
  match call.returned,fromStr call.str with
  | some true,.ok parsed => ConfigVar.settle value parsed
  | _,_ => value

def after (v : Variable) (calls : List FromStringCall) : Variable :=
  { v with var := { v.var with m_val := calls.foldl (applied v.fromStr) v.var.m_val } }

/-- What `loadNodes` has done, with the calls it has made. -/
structure Replayed (emit : Node → Text) (c : Config) (nodes : List (Text × Node))
    (result : Config × Option Thrown) (made : List FromStringCall) : Prop where
  recorded : result.1.calls = c.calls ++ made
  asked : ∃ later, requests emit c nodes = made.map (fun call => (call.key,call.str)) ++ later ∧
    (result.2 = none → later = [])
  answered : result.2 = none → ∀ call ∈ made, call.returned ≠ none
  left : ∀ thrown, result.2 = some thrown → ∃ front last, made = front ++ [last] ∧
    last.returned = none ∧ ∀ call ∈ front, call.returned ≠ none
  values : ∀ key v, c.datas key = some v →
    result.1.datas key = some (after v (made.filter fun call => call.key == key))
  absent : ∀ key, c.datas key = none → result.1.datas key = none
  silent : ∀ key, made.filter (fun call => call.key == key) = [] →
    result.1.told.filter (fun told => told.1 == key) = c.told.filter fun told => told.1 == key

theorem after_cons (v : Variable) (call : FromStringCall) (calls : List FromStringCall) :
    after (after v [call]) calls = after v (call :: calls) := rfl

theorem callFromString_spec (c : Config) (key : Text) (v : Variable) (str : Text) :
    ∃ call, call.key = key ∧ call.str = str ∧
      (callFromString c key v str).1.calls = c.calls ++ [call] ∧
      (call.returned = none ↔ (callFromString c key v str).2 ≠ none) ∧
      (callFromString c key v str).1.datas = Function.update c.datas key (some (after v [call])) ∧
      ∀ other ≠ key, (callFromString c key v str).1.told.filter (fun told => told.1 == other) =
        c.told.filter fun told => told.1 == other := by
  refine ⟨⟨key,str,_⟩,rfl,rfl,rfl,?_,?_,?_⟩
  · simp [callFromString]
  · rcases ConfigVar.fromString_cases v.fromStr v.var c.told.length str with
      ⟨value,parsed,returned,quiet,stored⟩ | ⟨refused,kept,_⟩
    · simp [callFromString,after,applied,parsed,returned,quiet,stored,ConfigVar.store]
    · by_cases quiet : (ConfigVar.fromString v.fromStr v.var c.told.length str).1.thrown = none <;>
        simp [callFromString,after,applied,refused,kept,quiet]
  · intro other different
    simp [callFromString,different.symm]

theorem requests_skip (skipped : item.1.isEmpty = true ∨ c.datas item.1 = none) :
    requests emit c (item :: items) = requests emit c items := by
  rcases skipped with empty | absent <;> simp_all [requests]

theorem requests_cons (nonempty : item.1.isEmpty = false) (registered : c.datas item.1 = some v) :
    requests emit c (item :: items) = (item.1,nodeText emit item.2) :: requests emit c items :=
  List.filterMap_cons_some (by rw [nonempty,registered]; rfl)

theorem requests_congr (same : ∀ key, d.datas key = none ↔ c.datas key = none) :
    requests emit d items = requests emit c items := by
  have each (key : Text) : (d.datas key).isNone = (c.datas key).isNone := by
    rw [Bool.eq_iff_iff,Option.isNone_iff_eq_none,Option.isNone_iff_eq_none]
    exact same key
  simp only [requests,each]

theorem Replayed.skip (replayed : Replayed emit c items result made)
    (skipped : item.1.isEmpty = true ∨ c.datas item.1 = none) :
    Replayed emit c (item :: items) result made :=
  { replayed with asked := by rw [requests_skip skipped]; exact replayed.asked }

/-- What some calls have done to the variables and their listeners. -/
structure Applied (c d : Config) (made : List FromStringCall) : Prop where
  values : ∀ key v, c.datas key = some v →
    d.datas key = some (after v (made.filter fun call => call.key == key))
  absent : ∀ key, c.datas key = none → d.datas key = none
  silent : ∀ key, made.filter (fun call => call.key == key) = [] →
    d.told.filter (fun told => told.1 == key) = c.told.filter fun told => told.1 == key

theorem Applied.refl (c : Config) : Applied c c [] :=
  ⟨fun _ _ found => found,fun _ none => none,fun _ _ => rfl⟩

theorem Applied.cons {c d next : Config} (registered : c.datas key = some v) (named : call.key = key)
    (datas : next.datas = Function.update c.datas key (some (after v [call])))
    (told : ∀ other ≠ key, next.told.filter (fun told => told.1 == other) =
      c.told.filter fun told => told.1 == other)
    (rest : Applied next d made) : Applied c d (call :: made) := by
  subst named
  refine ⟨fun other w found => ?_,fun other none => ?_,fun other quiet => ?_⟩
  · by_cases eq : other = call.key
    · subst eq
      cases registered.symm.trans found
      rw [rest.values call.key (after v [call]) (by simp [datas]),List.filter_cons,beq_self_eq_true,
        if_pos rfl,after_cons]
    · rw [rest.values other w (by simp [datas,eq,found]),List.filter_cons,if_neg (by simpa using Ne.symm eq)]
  · have different : other ≠ call.key := by rintro rfl; rw [registered] at none; cases none
    exact rest.absent other (by simp [datas,different,none])
  · by_cases eq : other = call.key
    · simp [eq] at quiet
    · rw [List.filter_cons,if_neg (by simpa using Ne.symm eq)] at quiet
      rw [rest.silent other quiet,told other eq]

theorem Replayed.call (nonempty : item.1.isEmpty = false) (registered : c.datas item.1 = some v)
    (returned : (callFromString c item.1 v (nodeText emit item.2)).2 = none)
    (rest : Replayed emit (callFromString c item.1 v (nodeText emit item.2)).1 items result made) :
    ∃ made, Replayed emit c (item :: items) result made := by
  obtain ⟨call,key,str,calls,ended,datas,told⟩ :=
    callFromString_spec c item.1 v (nodeText emit item.2)
  have answer : call.returned ≠ none := fun none => ended.mp none returned
  have same : requests emit (callFromString c item.1 v (nodeText emit item.2)).1 items =
      requests emit c items := by
    apply requests_congr
    intro other
    by_cases eq : other = item.1 <;> simp [datas,eq,registered]
  have later := Applied.cons registered key datas told ⟨rest.values,rest.absent,rest.silent⟩
  refine ⟨call :: made,?_⟩
  exact {
    recorded := by rw [rest.recorded,calls,List.append_assoc]; rfl
    asked := by
      obtain ⟨later,order,last⟩ := rest.asked
      refine ⟨later,?_,last⟩
      rw [requests_cons nonempty registered,← same,order,List.map_cons,key,str]
      rfl
    answered := fun quiet => List.forall_mem_cons.mpr ⟨answer,rest.answered quiet⟩
    left := by
      intro thrown escaped
      obtain ⟨front,last,rfl,none,others⟩ := rest.left thrown escaped
      exact ⟨call :: front,last,rfl,none,List.forall_mem_cons.mpr ⟨answer,others⟩⟩
    values := later.values
    absent := later.absent
    silent := later.silent }

theorem Replayed.stopped (nonempty : item.1.isEmpty = false) (registered : c.datas item.1 = some v)
    (thrown : Thrown) (escaped : (callFromString c item.1 v (nodeText emit item.2)).2 = some thrown) :
    ∃ made, Replayed emit c (item :: items) (callFromString c item.1 v (nodeText emit item.2)) made := by
  obtain ⟨call,key,str,calls,ended,datas,told⟩ :=
    callFromString_spec c item.1 v (nodeText emit item.2)
  have none : call.returned = none := ended.mpr (by simp [escaped])
  have alone := Applied.cons registered key datas told (Applied.refl _)
  refine ⟨[call],?_⟩
  exact {
    recorded := calls
    asked := ⟨requests emit c items,by rw [requests_cons nonempty registered,← key,← str]; rfl,
      fun quiet => by rw [escaped] at quiet; cases quiet⟩
    answered := fun quiet => by rw [escaped] at quiet; cases quiet
    left := fun _ _ => ⟨[],call,rfl,none,by simp⟩
    values := alone.values
    absent := alone.absent
    silent := alone.silent }

theorem loadNodes_replayed (emit : Node → Text) (nodes : List (Text × Node)) (c : Config)
    (valid : ∀ item ∈ nodes, validName item.1 = true) :
    ∃ made, Replayed emit c nodes (loadNodes emit nodes c) made := by
  induction nodes generalizing c with
  | nil =>
    exact ⟨[],⟨by simp [loadNodes],⟨[],rfl,fun _ => rfl⟩,by simp,by simp [loadNodes],fun key v found => found,
      fun key none => none,fun key _ => rfl⟩⟩
  | cons item items ih =>
    obtain ⟨here,others⟩ := List.forall_mem_cons.mp valid
    by_cases empty : item.1.isEmpty = true
    · obtain ⟨made,replayed⟩ := ih c others
      refine ⟨made,?_⟩
      simp only [loadNodes,empty,↓reduceIte]
      exact replayed.skip (.inl empty)
    · have nonempty : item.1.isEmpty = false := Bool.eq_false_iff.mpr empty
      simp only [loadNodes,empty,↓reduceIte,toLower_valid here,lookupBase,Bool.false_eq_true]
      cases registered : c.datas item.1 with
      | none =>
        obtain ⟨made,replayed⟩ := ih c others
        exact ⟨made,replayed.skip (.inr registered)⟩
      | some v =>
        rcases result : callFromString c item.1 v (nodeText emit item.2) with ⟨next,_ | thrown⟩ <;>
          simp only [result]
        · obtain ⟨made,replayed⟩ := ih next others
          exact Replayed.call nonempty registered (by rw [result]) (by rw [result]; exact replayed)
        · rw [← result]
          exact Replayed.stopped nonempty registered thrown (by rw [result])

/-! ### A whole document -/

/-- The calls that a document asks for, in its order. -/
def asks (emit : Node → Text) (c : Config) (root : Node) : List (Text × Text) :=
  requests emit c
    (((reached root).filter fun found => listed found.1).map fun found => (pathName found.1,found.2))

theorem requests_key (nonempty : key ≠ []) (registered : c.datas key = some v)
    (nodes : List (Text × Node)) :
    ((requests emit c nodes).filter fun request => request.1 == key).map Prod.snd =
      (nodes.filter fun item => item.1 == key).map fun item => nodeText emit item.2 := by
  induction nodes with
  | nil => rfl
  | cons item items ih =>
    by_cases same : item.1 = key
    · subst same
      rw [requests_cons (by simpa using nonempty) registered]
      simp [ih]
    · by_cases skipped : item.1.isEmpty = true ∨ c.datas item.1 = none
      · rw [requests_skip skipped,ih]
        simp [same]
      · obtain ⟨named,found⟩ := not_or.mp skipped
        obtain ⟨w,found⟩ := Option.ne_none_iff_exists'.mp found
        rw [requests_cons (Bool.eq_false_iff.mpr named) found]
        simp [same,ih]

theorem requests_nonempty (member : request ∈ requests emit c nodes) : request.1 ≠ [] := by
  obtain ⟨item,_,asked⟩ := List.mem_filterMap.mp member
  split at asked
  · cases asked
  · rename_i called
    cases asked
    rintro empty
    exact called (by rw [show item.1 = [] from empty]; rfl)

theorem asks_named (nonempty : key ≠ []) (registered : c.datas key = some v) :
    ((asks emit c root).filter fun request => request.1 == key).map Prod.snd =
      (named key root).map (nodeText emit) := by
  rw [asks,requests_key nonempty registered,named,List.filter_map,List.filter_filter]
  simp only [List.map_map,Function.comp_def]
  congr 2
  funext found
  exact Bool.and_comm _ _

/-- What loading a document has done, with the calls of `fromString` it has made: those
asked for, or, if an exception leaves one of them, those up to this one. -/
structure Loaded (emit : Node → Text) (root : Node) (c : Config) (result : Config × Option Thrown)
    (made : List FromStringCall) : Prop where
  recorded : result.1.calls = c.calls ++ made
  order : ∃ later, asks emit c root = made.map (fun call => (call.key,call.str)) ++ later ∧
    (result.2 = none → later = [])
  each : result.2 = none → ∀ key v, key ≠ [] → c.datas key = some v →
    (made.filter fun call => call.key == key).map FromStringCall.str =
      (named key root).map (nodeText emit)
  answered : result.2 = none → ∀ call ∈ made, call.returned ≠ none
  left : ∀ thrown, result.2 = some thrown → ∃ front last, made = front ++ [last] ∧
    last.returned = none ∧ ∀ call ∈ front, call.returned ≠ none
  values : ∀ key v, c.datas key = some v →
    result.1.datas key = some (after v (made.filter fun call => call.key == key))
  absent : ∀ key, c.datas key = none → result.1.datas key = none
  unlisted : ∀ key v, c.datas key = some v → key = [] ∨ named key root = [] →
    result.1.datas key = some v ∧
    result.1.told.filter (fun told => told.1 == key) = c.told.filter fun told => told.1 == key

theorem made_key (made : List FromStringCall) (key : Text) :
    (made.filter fun call => call.key == key).map FromStringCall.str =
      ((made.map fun call => (call.key,call.str)).filter fun request => request.1 == key).map Prod.snd := by
  rw [List.filter_map,List.map_map]
  rfl

/-- `LoadFromYaml` updates the variables that the document names and no others. -/
theorem load_from_yaml (emit : Node → Text) (root : Node) (c : Config) :
    ∃ made, Loaded emit root c (loadFromYaml emit root c) made := by
  obtain ⟨made,replayed⟩ := loadNodes_replayed emit (listAllMenbers [] root) c
    fun item member => listAllMenbers_valid member
  have order : ∃ later, asks emit c root = made.map (fun call => (call.key,call.str)) ++ later ∧
      ((loadFromYaml emit root c).2 = none → later = []) := by
    rw [asks,← listAllMenbers_root]; exact replayed.asked
  refine ⟨made,?_⟩
  exact {
    recorded := replayed.recorded
    order := order
    each := by
      intro quiet key v nonempty registered
      obtain ⟨later,asked,last⟩ := order
      rw [last quiet,List.append_nil] at asked
      rw [made_key,← asked]
      exact asks_named nonempty registered
    answered := replayed.answered
    left := replayed.left
    values := replayed.values
    absent := replayed.absent
    unlisted := by
      intro key v registered nowhere
      have quiet : made.filter (fun call => call.key == key) = [] := by
        obtain ⟨later,asked,_⟩ := order
        by_cases nonempty : key = []
        · refine List.filter_eq_nil_iff.mpr fun call member same => ?_
          have request : (call.key,call.str) ∈ asks emit c root := by
            rw [asked]
            exact List.mem_append_left _ (List.mem_map_of_mem member)
          exact requests_nonempty request (by simpa [nonempty] using same)
        · have none : _ = (named key root).map (nodeText emit) := asks_named nonempty registered
          rw [asked,nowhere.resolve_left nonempty,List.filter_append,List.map_append,← made_key] at none
          exact List.map_eq_nil_iff.mp (List.append_eq_nil_iff.mp none).1
      have value := replayed.values key v registered
      rw [quiet] at value
      exact ⟨value,replayed.silent key quiet⟩ }

/-- Two variables of strings; a listener of the first throws something that is no
`std::exception`, and the call for the second is never made. -/
theorem foreign_exception_cuts :
    let v : Variable := ⟨Text,inferInstance,.ok,⟨[],[],.nil⟩⟩
    let throwing : Variable := ⟨Text,inferInstance,.ok,⟨[],[(1,fun _ _ _ => some .other)],by simp⟩⟩
    let c : Config := ⟨fun key => if key = ['a'] then some throwing else if key = ['b'] then some v else none,
      [],[]⟩
    let root : Node := .map [(.scalar ['a'],.scalar ['1']),(.scalar ['b'],.scalar ['2'])]
    let result := loadFromYaml (fun _ => []) root c
    result.2 = some .other ∧ (named ['b'] root).map (nodeText fun _ => []) = [['2']] ∧
      (result.1.calls.filter fun call => call.key == ['b']).map FromStringCall.str = [] :=
  ⟨rfl,by decide,by decide⟩

end Config

end Myriel

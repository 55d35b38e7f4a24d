import Myriel.ConfigLoad

/-! `Config::Lookup` with a value, which registers variables, and whether the documents reach
what it has registered. -/
namespace Myriel.Config
open YAML

/-- A type of variables with its conversions; `id` is its `typeid`. -/
structure ConfigType where
  id : Nat
  T : Type
  equal : BEq T
  fromStr : Text → Except Thrown T
  toStr : T → Except Thrown Text

structure Entry where
  type : ConfigType
  var : ConfigVar type.T

def Entry.variable (entry : Entry) : Variable := ⟨entry.type.T,entry.type.equal,entry.type.fromStr,entry.var⟩

/-- `GetDatas()`. Only valid names are ever registered. -/
structure Registry where
  datas : Text → Option Entry
  valid : ∀ name entry, datas name = some entry → validName name = true

namespace Registry

def empty : Registry := ⟨fun _ => none,nofun⟩

def insert (r : Registry) (name : Text) (valid : validName name = true) (v : Entry) : Registry where
  datas := Function.update r.datas name (some v)
  valid := by
    intro other entry found
    by_cases same : other = name
    · exact same ▸ valid
    · exact r.valid other entry (by simpa [same] using found)

def config (r : Registry) : Config := ⟨fun name => (r.datas name).map Entry.variable,[],[]⟩

end Registry

/-- The pointer that is returned, or the exception. A name that is known with another type is
logged with `toString()`, which handles `std::exception` only; `logged` tells whether the logger
`system` takes an `ERROR` then, without which the message is not composed. -/
def lookup (r : Registry) (type : ConfigType) (name : Text) (value : type.T) (logged : Bool) :
    Except Thrown (Option Entry) × Registry :=
  match r.datas name with
  | some entry =>
    if entry.type.id = type.id then (.ok (some entry),r)
    else if logged = false then (.ok none,r)
    else
      match entry.type.toStr entry.var.m_val with
      | .error .other => (.error .other,r)
      | .ok _ | .error .exception => (.ok none,r)
  | none =>
    if valid : validName name = true then
      let v : Entry := ⟨type,value,[],.nil⟩
      (.ok (some v),r.insert name valid v)
    else (.error .exception,r)

structure LookupCall where
  type : ConfigType
  name : Text
  value : type.T
  logged : Bool

def registry (calls : List LookupCall) : Registry :=
  calls.foldl (fun r call => (lookup r call.type call.name call.value call.logged).2) .empty

def entryNode (k s : Text) : Node := .map [(.scalar k,.scalar s)]

/-- Loading `{k: s}` is one call of `fromString` with the text, on the variable `v` under that
name. -/
structure Configured (emit : Node → Text) (c : Config) (k s : Text) (v : Variable) : Prop where
  called : ∃ returned, (loadFromYaml emit (entryNode k s) c).1.calls = c.calls ++ [⟨k,s,returned⟩]
  alone : loadFromYaml emit (entryNode k s) c = callFromString c k v s

theorem listAllMenbers_entry (valid : validName k = true) (s : Text) :
    listAllMenbers [] (entryNode k s) = [([],entryNode k s),(k,.scalar s)] := by
  have root : validName [] = true := rfl
  have name : join [] (Node.scalar k).scalarText = k := rfl
  simp [entryNode,listAllMenbers,listItems,listItem,root,name,valid]

theorem load_empty (emit : Node → Text) (s : Text) (c : Config) :
    loadFromYaml emit (entryNode [] s) c = (c,none) := by
  rw [loadFromYaml,listAllMenbers_entry rfl]
  rfl

theorem load_entry (emit : Node → Text) (s : Text) {c : Config} (valid : validName k = true)
    (nonempty : k ≠ []) (found : c.datas k = some v) :
    loadFromYaml emit (entryNode k s) c = callFromString c k v s := by
  have shown : k.isEmpty = false := by simpa using nonempty
  have base : lookupBase c k = some v := found
  have text : nodeText emit (.scalar s) = s := rfl
  rw [loadFromYaml,listAllMenbers_entry valid]
  simp only [loadNodes,List.isEmpty_nil,if_true,shown,Bool.false_eq_true,if_false,toLower_valid valid,base,text]
  rcases callFromString c k v s with ⟨next,_ | thrown⟩ <;> rfl

/-- Whatever has been registered can be configured, but for the variable with the empty name. -/
theorem lookup_configurable_iff (emit : Node → Text) (calls : List LookupCall) (s : Text)
    (registered : (registry calls).datas k = some entry) :
    Configured emit (registry calls).config k s entry.variable ↔ k ≠ [] := by
  constructor
  · rintro configured rfl
    obtain ⟨returned,recorded⟩ := configured.called
    rw [load_empty] at recorded
    simp at recorded
  · intro nonempty
    have found : (registry calls).config.datas k = some entry.variable := by
      simp [Registry.config,registered]
    have loaded := load_entry emit s ((registry calls).valid k entry registered) nonempty found
    obtain ⟨⟨_,_,returned⟩,rfl,rfl,recorded,_⟩ := callFromString_spec (registry calls).config k entry.variable s
    exact ⟨⟨returned,loaded ▸ recorded⟩,loaded⟩

def textType : ConfigType := ⟨0,Text,inferInstance,.ok,.ok⟩

theorem lookup_configurable_port :
    Configured (fun _ => []) (registry [⟨textType,"tcp.port".toList,[],true⟩]).config "tcp.port".toList ['1']
      (Entry.variable ⟨textType,[],[],.nil⟩) :=
  (lookup_configurable_iff (fun _ => []) [⟨textType,"tcp.port".toList,[],true⟩] ['1'] rfl).mpr (by decide)

/-- `Lookup` accepts the empty name, which `LoadFromYaml` passes over. -/
theorem empty_name_unreachable :
    (registry [⟨textType,[],[],true⟩]).datas [] = some ⟨textType,[],[],.nil⟩ ∧
      (loadFromYaml (fun _ => []) (entryNode [] ['1']) (registry [⟨textType,[],[],true⟩]).config).1.calls = [] ∧
      ¬ Configured (fun _ => []) (registry [⟨textType,[],[],true⟩]).config [] ['1']
        (Entry.variable ⟨textType,[],[],.nil⟩) := by
  refine ⟨rfl,rfl,fun configured => ?_⟩
  obtain ⟨returned,recorded⟩ := configured.called
  cases recorded

end Myriel.Config

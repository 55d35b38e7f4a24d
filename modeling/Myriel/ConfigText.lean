import Myriel.LexicalCast
import Myriel.SortedMap
import Myriel.Yaml
import Mathlib.Data.Char
import Mathlib.Data.Finset.Sort
import Mathlib.Data.List.Lex
import Mathlib.Data.Nat.Pairing

/-! `LaxicalCast` between strings and containers: each element goes through a YAML text of
its own. `YAML::Load` and the emission of a node are parameters. -/
namespace Myriel
open YAML

structure YamlCpp where
  load : Text → Except Exception Node
  emit : Node → Text

/-- What is documented of yaml-cpp. -/
structure YamlCpp.Documented (yaml : YamlCpp) : Prop where
  load_emit : ∀ node, yaml.load (yaml.emit node) = .ok node
  load_numeral : ∀ i, yaml.load (to_string i) = .ok (.scalar (to_string i))
  emit_numeral : ∀ i, yaml.emit (.scalar (to_string i)) = to_string i

/-- `LaxicalCast<T, std::string>` and `LaxicalCast<std::string, T>` -/
structure LaxicalCast (T : Type) where
  toStr : T → Except Exception Text
  fromStr : Text → Except Exception T

/-- `push_back`; a null node becomes a sequence. -/
def pushBack : Node → Node → Except Exception Node
  | .null,item => .ok (.sequence [item])
  | .sequence items,item => .ok (.sequence (items ++ [item]))
  | _,_ => .error .yaml

/-- `node[key] = value`; a null node becomes a map. -/
def assign : Node → Text → Node → Except Exception Node
  | .null,key,value => .ok (.map [(.scalar key,value)])
  | .map items,key,value =>
    if items.any fun item => item.1.scalarText == key then
      .ok (.map (items.map fun item => if item.1.scalarText == key then (item.1,value) else item))
    else .ok (.map (items ++ [(.scalar key,value)]))
  | _,_,_ => .error .yaml

/-- `std::map<std::string, T>`, and the contents of an unordered one. -/
abbrev StdMap (T : Type) := SortedMap Text T

section Casts
variable (yaml : YamlCpp)

/-- The texts of the items that a loop over the node visits; an item of a map is no valid
node, and nothing is written for it. -/
def itemTexts : Node → List Text
  | .sequence items => items.map yaml.emit
  | .map items => items.map fun _ => []
  | _ => []

def entryTexts : Node → Except Exception (List (Text × Text))
  | .map items => .ok (items.map fun item => (item.1.scalarText,yaml.emit item.2))
  | .sequence (_ :: _) => .error .yaml
  | _ => .ok []

/-- One pass of the loop in the conversions to sequence containers. -/
def readItem (add : C → T → C) (element : LaxicalCast T) (res : C) (text : Text) : Except Exception C := do
  let item ← element.fromStr text
  pure (add res item)

def sequenceFromStr (add : C → T → C) (res : C) (element : LaxicalCast T) (str : Text) :
    Except Exception C := do
  let node ← yaml.load str
  (itemTexts yaml node).foldlM (readItem add element) res

def pushItem (element : LaxicalCast T) (node : Node) (item : T) : Except Exception Node := do
  let text ← element.toStr item
  let child ← yaml.load text
  pushBack node child

def sequenceToStr (element : LaxicalCast T) (v : List T) : Except Exception Text := do
  let node ← v.foldlM (pushItem yaml element) .null
  pure (yaml.emit node)

def readEntry (emplace : C → Text → T → C) (element : LaxicalCast T) (res : C) (entry : Text × Text) :
    Except Exception C := do
  let value ← element.fromStr entry.2
  pure (emplace res entry.1 value)

def mapFromStr (emplace : C → Text → T → C) (res : C) (element : LaxicalCast T) (str : Text) :
    Except Exception C := do
  let node ← yaml.load str
  let entries ← entryTexts yaml node
  entries.foldlM (readEntry emplace element) res

def assignEntry (element : LaxicalCast T) (node : Node) (entry : Text × T) : Except Exception Node := do
  let text ← element.toStr entry.2
  let value ← yaml.load text
  assign node entry.1 value

def mapToStr (element : LaxicalCast T) (v : List (Text × T)) : Except Exception Text := do
  let node ← v.foldlM (assignEntry yaml element) .null
  pure (yaml.emit node)

def intCast (t : IntType) : LaxicalCast t.Val where
  toStr v := .ok (to_string v.value)
  fromStr := convert t

def vectorCast (element : LaxicalCast T) : LaxicalCast (List T) where
  toStr := sequenceToStr yaml element
  fromStr := sequenceFromStr yaml (fun res item => res ++ [item]) [] element

def listCast (element : LaxicalCast T) : LaxicalCast (List T) where
  toStr := sequenceToStr yaml element
  fromStr := sequenceFromStr yaml (fun res item => res ++ [item]) [] element

def setCast [LinearOrder T] (element : LaxicalCast T) : LaxicalCast (Finset T) where
  toStr v := sequenceToStr yaml element (v.sort (· ≤ ·))
  fromStr := sequenceFromStr yaml (fun res item => insert item res) ∅ element

def mapCast (element : LaxicalCast T) : LaxicalCast (StdMap T) where
  toStr v := mapToStr yaml element v.entries
  fromStr := mapFromStr yaml SortedMap.emplace .empty element

/-- `traverse` is the order in which the loop over the `std::unordered_map` meets its
entries, which the standard leaves open. -/
def unorderedMapCast (traverse : StdMap T → List (Text × T)) (element : LaxicalCast T) :
    LaxicalCast (StdMap T) where
  toStr v := mapToStr yaml element (traverse v)
  fromStr := mapFromStr yaml SortedMap.emplace .empty element

/-- The types that the integer types generate, with their conversions. -/
inductive Generated : (T : Type) → LaxicalCast T → Prop where
  | int (t : IntType) : Generated t.Val (intCast t)
  | vector (item : Generated T element) : Generated (List T) (vectorCast yaml element)
  | list (item : Generated T element) : Generated (List T) (listCast yaml element)
  | set [LinearOrder T] (item : Generated T element) : Generated (Finset T) (setCast yaml element)
  | map (item : Generated T element) : Generated (StdMap T) (mapCast yaml element)
  | unorderedMap (traverse : StdMap T → List (Text × T))
      (complete : ∀ m, (traverse m).Perm m.entries) (item : Generated T element) :
      Generated (StdMap T) (unorderedMapCast yaml traverse element)

end Casts

/-! ### Round trips -/

def Readable (yaml : YamlCpp) (element : LaxicalCast T) (v : T) : Prop :=
  ∃ text node, element.toStr v = .ok text ∧ yaml.load text = .ok node ∧ yaml.emit node = text ∧
    element.fromStr text = .ok v

theorem int_readable (documented : yaml.Documented) (v : IntType.Val t) : Readable yaml (intCast t) v :=
  ⟨to_string v.value,.scalar (to_string v.value),rfl,documented.load_numeral _,documented.emit_numeral _,
    convert_to_string t v⟩

def sequenceNode : List Node → Node
  | [] => .null
  | items => .sequence items

theorem pushBack_sequenceNode (items : List Node) (item : Node) :
    pushBack (sequenceNode items) item = .ok (sequenceNode (items ++ [item])) := by
  cases items <;> rfl

theorem itemTexts_sequenceNode (yaml : YamlCpp) (items : List Node) :
    itemTexts yaml (sequenceNode items) = items.map yaml.emit := by
  cases items <;> rfl

/-- The text of the value loads, and the node that comes of it is read back as `w`. -/
def Decodes (yaml : YamlCpp) (element : LaxicalCast T) (v w : T) : Prop :=
  ∃ text node, element.toStr v = .ok text ∧ yaml.load text = .ok node ∧
    element.fromStr (yaml.emit node) = .ok w

theorem Readable.decodes (readable : Readable yaml element v) : Decodes yaml element v (id v) := by
  obtain ⟨text,node,written,loaded,emitted,parsed⟩ := readable
  exact ⟨text,node,written,loaded,emitted ▸ parsed⟩

/-- The text of the value loads, and reading back the node that comes of it gives `read`. -/
def Rereads (yaml : YamlCpp) (element : LaxicalCast T) (v : T) (read : Except Exception T) : Prop :=
  ∃ text node, element.toStr v = .ok text ∧ yaml.load text = .ok node ∧
    element.fromStr (yaml.emit node) = read

theorem foldlM_ok (f : C → α → C) (items : List α) (res : C) :
    (items.foldlM (fun res item => Except.ok (ε := Exception) (f res item)) res) = .ok (items.foldl f res) := by
  induction items generalizing res with
  | nil => rfl
  | cons item items ih => exact ih (f res item)

/-- A sequence is written as one node, whose items are read back one by one. -/
theorem sequence_rereads {element : LaxicalCast T} {r : T → Except Exception T}
    (load_emit : ∀ node, yaml.load (yaml.emit node) = .ok node) (v : List T)
    (rereads : ∀ item ∈ v, Rereads yaml element item (r item)) (add : C → T → C) (res : C) :
    ∃ node, sequenceToStr yaml element v = .ok (yaml.emit node) ∧
      sequenceFromStr yaml add res element (yaml.emit node) =
        v.foldlM (fun res item => do let w ← r item; pure (add res w)) res := by
  have build (v : List T) (front : List Node) (rereads : ∀ item ∈ v, Rereads yaml element item (r item)) :
      ∃ nodes, v.foldlM (pushItem yaml element) (sequenceNode front) = .ok (sequenceNode (front ++ nodes)) ∧
        ∀ res, (nodes.map yaml.emit).foldlM (readItem add element) res =
          v.foldlM (fun res item => do let w ← r item; pure (add res w)) res := by
    induction v generalizing front with
    | nil => exact ⟨[],by rw [List.append_nil]; rfl,fun _ => rfl⟩
    | cons item v ih =>
      obtain ⟨text,node,written,loaded,parsed⟩ := rereads item (by simp)
      have pushed : pushItem yaml element (sequenceNode front) item = .ok (sequenceNode (front ++ [node])) := by
        rw [pushItem,written,← pushBack_sequenceNode]
        exact congrArg (· >>= pushBack (sequenceNode front)) loaded
      obtain ⟨nodes,later,collected⟩ := ih (front ++ [node]) fun item member => rereads item (by simp [member])
      refine ⟨node :: nodes,?_,fun res => ?_⟩
      · rw [List.foldlM_cons,pushed]
        rw [List.append_assoc] at later
        exact later
      · have first : readItem add element res (yaml.emit node) =
            (do let w ← r item; pure (add res w)) := by rw [readItem,parsed]
        rw [List.map_cons,List.foldlM_cons,List.foldlM_cons,first]
        exact congrArg _ (funext collected)
  obtain ⟨nodes,built,collected⟩ := build v [] rereads
  refine ⟨sequenceNode nodes,?_,?_⟩
  · rw [sequenceToStr,show Node.null = sequenceNode [] from rfl,built]; rfl
  · rw [sequenceFromStr,load_emit]
    simp only [bind,Except.bind,itemTexts_sequenceNode]
    exact collected res

theorem sequence_decodes {element : LaxicalCast T} {add : C → T → C} {g : T → T}
    (load_emit : ∀ node, yaml.load (yaml.emit node) = .ok node) (v : List T)
    (decodes : ∀ item ∈ v, Decodes yaml element item (g item)) (read : (v.map g).foldl add res = w) :
    ∃ node, sequenceToStr yaml element v = .ok (yaml.emit node) ∧
      sequenceFromStr yaml add res element (yaml.emit node) = .ok w := by
  obtain ⟨node,written,parsed⟩ := sequence_rereads load_emit v decodes add res
  refine ⟨node,written,parsed.trans ?_⟩
  rw [← read,List.foldl_map]
  exact foldlM_ok (fun res item => add res (g item)) v res

def mapNode : List (Text × Node) → Node
  | [] => .null
  | entries => .map (entries.map fun entry => (.scalar entry.1,entry.2))

theorem assign_mapNode (entries : List (Text × Node)) (key : Text) (value : Node)
    (fresh : key ∉ entries.map Prod.fst) :
    assign (mapNode entries) key value = .ok (mapNode (entries ++ [(key,value)])) := by
  cases entries with
  | nil => rfl
  | cons entry entries =>
    have absent : (((entry :: entries).map fun entry => (Node.scalar entry.1,entry.2)).any
        fun item => item.1.scalarText == key) = false := by
      rw [List.any_map,List.any_eq_false]
      intro other member same
      exact fresh (List.mem_map.mpr ⟨other,member,eq_of_beq same⟩)
    rw [mapNode,assign,absent,if_neg Bool.false_ne_true]
    · simp [mapNode]
    · simp

theorem entryTexts_mapNode (yaml : YamlCpp) (entries : List (Text × Node)) :
    entryTexts yaml (mapNode entries) = .ok (entries.map fun entry => (entry.1,yaml.emit entry.2)) := by
  cases entries with
  | nil => rfl
  | cons => simp [mapNode,entryTexts,Node.scalarText]

/-- A map is written as one node, whose values are read back one by one. -/
theorem map_rereads {element : LaxicalCast T} {r : T → Except Exception T}
    (load_emit : ∀ node, yaml.load (yaml.emit node) = .ok node) (v : List (Text × T))
    (distinct : (v.map Prod.fst).Nodup) (rereads : ∀ entry ∈ v, Rereads yaml element entry.2 (r entry.2))
    (emplace : C → Text → T → C) (res : C) :
    ∃ node, mapToStr yaml element v = .ok (yaml.emit node) ∧
      mapFromStr yaml emplace res element (yaml.emit node) =
        v.foldlM (fun res entry => do let w ← r entry.2; pure (emplace res entry.1 w)) res := by
  have build (v : List (Text × T)) (front : List (Text × Node))
      (distinct : (front.map Prod.fst ++ v.map Prod.fst).Nodup)
      (rereads : ∀ entry ∈ v, Rereads yaml element entry.2 (r entry.2)) :
      ∃ nodes, v.foldlM (assignEntry yaml element) (mapNode front) = .ok (mapNode (front ++ nodes)) ∧
        ∀ res, (nodes.map fun entry => (entry.1,yaml.emit entry.2)).foldlM (readEntry emplace element) res =
          v.foldlM (fun res entry => do let w ← r entry.2; pure (emplace res entry.1 w)) res := by
    induction v generalizing front with
    | nil => exact ⟨[],by rw [List.append_nil]; rfl,fun _ => rfl⟩
    | cons entry v ih =>
      obtain ⟨text,node,written,loaded,parsed⟩ := rereads entry (by simp)
      have fresh : entry.1 ∉ front.map Prod.fst := fun member =>
        List.disjoint_of_nodup_append distinct member (by simp)
      have assigned : assignEntry yaml element (mapNode front) entry =
          .ok (mapNode (front ++ [(entry.1,node)])) := by
        rw [assignEntry,written,← assign_mapNode front _ _ fresh]
        exact congrArg (· >>= assign (mapNode front) entry.1) loaded
      obtain ⟨nodes,later,collected⟩ := ih (front ++ [(entry.1,node)]) (by simpa using distinct)
        fun entry member => rereads entry (by simp [member])
      refine ⟨(entry.1,node) :: nodes,?_,fun res => ?_⟩
      · rw [List.foldlM_cons,assigned]
        rw [List.append_assoc] at later
        exact later
      · have first : readEntry emplace element res (entry.1,yaml.emit node) =
            (do let w ← r entry.2; pure (emplace res entry.1 w)) := by rw [readEntry,parsed]
        rw [List.map_cons,List.foldlM_cons,List.foldlM_cons,first]
        exact congrArg _ (funext collected)
  obtain ⟨nodes,built,collected⟩ := build v [] distinct rereads
  refine ⟨mapNode nodes,?_,?_⟩
  · rw [mapToStr,show Node.null = mapNode [] from rfl,built]; rfl
  · rw [mapFromStr,load_emit]
    simp only [bind,Except.bind,entryTexts_mapNode]
    exact collected res

theorem map_decodes {element : LaxicalCast T} {emplace : C → Text → T → C} {g : T → T}
    (load_emit : ∀ node, yaml.load (yaml.emit node) = .ok node) (v : List (Text × T))
    (distinct : (v.map Prod.fst).Nodup) (decodes : ∀ entry ∈ v, Decodes yaml element entry.2 (g entry.2))
    (read : v.foldl (fun res entry => emplace res entry.1 (g entry.2)) res = w) :
    ∃ node, mapToStr yaml element v = .ok (yaml.emit node) ∧
      mapFromStr yaml emplace res element (yaml.emit node) = .ok w := by
  obtain ⟨node,written,parsed⟩ := map_rereads (r := fun item => .ok (g item)) load_emit v distinct decodes
    emplace res
  refine ⟨node,written,parsed.trans ?_⟩
  rw [← read]
  exact foldlM_ok (fun res entry => emplace res entry.1 (g entry.2)) v res

theorem push_all (front v : List T) : v.foldl (fun res item => res ++ [item]) front = front ++ v := by
  induction v generalizing front with
  | nil => simp
  | cons item v ih => rw [List.foldl_cons,ih,List.append_assoc]; rfl

theorem insert_all [DecidableEq T] (s : Finset T) (v : List T) :
    v.foldl (fun res item => insert item res) s = s ∪ v.toFinset := by
  induction v generalizing s with
  | nil => simp
  | cons item v ih => rw [List.foldl_cons,ih,List.toFinset_cons,Finset.insert_union,Finset.union_insert]

theorem generated_readable (documented : yaml.Documented) (generated : Generated yaml T element) :
    ∀ v, Readable yaml element v := by
  have load_emit := documented.load_emit
  induction generated with
  | int t => exact fun v => int_readable documented v
  | vector _ ih | list _ ih =>
    intro v
    obtain ⟨node,written,parsed⟩ := sequence_decodes (w := v) load_emit v (fun item _ => (ih item).decodes)
      (by rw [List.map_id]; exact push_all [] v)
    exact ⟨_,node,written,load_emit node,rfl,parsed⟩
  | set _ ih =>
    intro v
    obtain ⟨node,written,parsed⟩ := sequence_decodes (w := v) load_emit (v.sort (· ≤ ·)) (fun item _ => (ih item).decodes)
      (by rw [List.map_id,insert_all,Finset.sort_toFinset,Finset.empty_union])
    exact ⟨_,node,written,load_emit node,rfl,parsed⟩
  | map _ ih =>
    intro v
    obtain ⟨node,written,parsed⟩ := map_decodes load_emit v.entries v.distinct
      (fun entry _ => (ih entry.2).decodes) (v.emplaceAll (List.Perm.refl _))
    exact ⟨_,node,written,load_emit node,rfl,parsed⟩
  | unorderedMap traverse complete _ ih =>
    intro v
    obtain ⟨node,written,parsed⟩ := map_decodes load_emit (traverse v)
      (((complete v).map Prod.fst).nodup_iff.mpr v.distinct) (fun entry _ => (ih entry.2).decodes)
      (v.emplaceAll (complete v))
    exact ⟨_,node,written,load_emit node,rfl,parsed⟩

/-- Every value of a generated type is what `fromString` makes of its `toString`. -/
theorem generated_round_trip (documented : yaml.Documented) (generated : Generated yaml T element) (v : T) :
    (element.toStr v >>= element.fromStr) = .ok v := by
  obtain ⟨text,node,written,_,_,parsed⟩ := generated_readable documented generated v
  rw [written]
  exact parsed

/-! ### A yaml-cpp for simple values

It writes null nodes, plain scalars and sequences of them as the real one does, and every other node
as a number of its own. -/

def textCode : Text → Nat
  | [] => 0
  | c :: text => Nat.pair c.toNat (textCode text) + 1

mutual
def nodeCode : Node → Nat
  | .null => 0
  | .scalar text => 3 * textCode text + 1
  | .sequence items => 3 * itemsCode items + 2
  | .map items => 3 * entriesCode items + 3
termination_by structural node => node
def itemsCode : List Node → Nat
  | [] => 0
  | item :: items => Nat.pair (nodeCode item) (itemsCode items) + 1
termination_by structural items => items
def entriesCode : List (Node × Node) → Nat
  | [] => 0
  | item :: items => Nat.pair (entryCode item) (entriesCode items) + 1
termination_by structural items => items
def entryCode : Node × Node → Nat
  | (key,value) => Nat.pair (nodeCode key) (nodeCode value)
termination_by structural item => item
end

theorem textCode_injective : ∀ first second, textCode first = textCode second → first = second
  | [],[],_ => rfl
  | [],_ :: _,same | _ :: _,[],same => by simp [textCode] at same
  | c :: first,d :: second,same => by
    obtain ⟨head,tail⟩ := Nat.pair_eq_pair.mp (Nat.succ.inj same)
    rw [Char.toNat_inj.mp head,textCode_injective first second tail]

mutual
theorem nodeCode_injective : ∀ first second, nodeCode first = nodeCode second → first = second
  | .null,.null,_ => rfl
  | .scalar a,.scalar b,same => by
    rw [textCode_injective a b (by simp only [nodeCode] at same; omega)]
  | .sequence a,.sequence b,same => by
    rw [itemsCode_injective a b (by simp only [nodeCode] at same; omega)]
  | .map a,.map b,same => by
    rw [entriesCode_injective a b (by simp only [nodeCode] at same; omega)]
  | .null,.scalar _,same | .null,.sequence _,same | .null,.map _,same
  | .scalar _,.null,same | .scalar _,.sequence _,same | .scalar _,.map _,same
  | .sequence _,.null,same | .sequence _,.scalar _,same | .sequence _,.map _,same
  | .map _,.null,same | .map _,.scalar _,same | .map _,.sequence _,same => by
    simp only [nodeCode] at same; omega
theorem itemsCode_injective : ∀ first second, itemsCode first = itemsCode second → first = second
  | [],[],_ => rfl
  | [],_ :: _,same | _ :: _,[],same => by simp [itemsCode] at same
  | a :: first,b :: second,same => by
    obtain ⟨head,tail⟩ := Nat.pair_eq_pair.mp (Nat.succ.inj same)
    rw [nodeCode_injective a b head,itemsCode_injective first second tail]
theorem entriesCode_injective : ∀ first second, entriesCode first = entriesCode second → first = second
  | [],[],_ => rfl
  | [],_ :: _,same | _ :: _,[],same => by simp [entriesCode] at same
  | a :: first,b :: second,same => by
    obtain ⟨head,tail⟩ := Nat.pair_eq_pair.mp (Nat.succ.inj same)
    rw [entryCode_injective a b head,entriesCode_injective first second tail]
theorem entryCode_injective : ∀ first second, entryCode first = entryCode second → first = second
  | (_,_),(_,_),same => by
    obtain ⟨key,value⟩ := Nat.pair_eq_pair.mp same
    rw [nodeCode_injective _ _ key,nodeCode_injective _ _ value]
end

def plain : Text → Bool
  | [] => false
  | '-' :: digits => !digits.isEmpty && digits.all Char.isDigit
  | text => text.all fun c => c.isDigit || c.isLower

def plainText : Node → Option Text
  | .null => some ['~']
  | .scalar [] => some ['"','"']
  | .scalar text => if plain text then some text else none
  | .sequence _ | .map _ => none

def blockText (texts : List Text) : Text := ['\n'].intercalate (texts.map fun text => '-' :: ' ' :: text)

def knownText : Node → Option Text
  | .sequence [] => some ['[',']']
  | .sequence items => (items.mapM plainText).map blockText
  | node => plainText node

def wordChar (c : Char) : Bool := c.isDigit || c.isLower || c == '-' || c == '~' || c == '"'

theorem plain_word (isPlain : plain text = true) : text.all wordChar = true := by
  refine List.all_eq_true.mpr fun c member => ?_
  unfold plain at isPlain
  split at isPlain
  · cases isPlain
  · rcases List.mem_cons.mp member with rfl | digit
    · rfl
    · simp [wordChar,List.all_eq_true.mp (Bool.and_eq_true_iff.mp isPlain).2 c digit]
  · rcases Bool.or_eq_true_iff.mp (List.all_eq_true.mp isPlain c member) with digit | lower
    · simp [wordChar,digit]
    · simp [wordChar,lower]

theorem plainText_word (known : plainText node = some text) : text ≠ [] ∧ text.all wordChar = true := by
  unfold plainText at known
  split at known
  · cases known; exact ⟨by decide,by decide⟩
  · cases known; exact ⟨by decide,by decide⟩
  next nonempty =>
    split at known
    next isPlain =>
      cases known
      exact ⟨nonempty,plain_word isPlain⟩
    next => cases known
  · cases known
  · cases known

theorem plainText_injective (first : plainText a = some text) (second : plainText b = some text) : a = b := by
  unfold plainText at first second
  split at first <;> split at second <;> simp_all <;> grind [plain]

theorem plainTexts_cons (known : (item :: items).mapM plainText = some texts) :
    ∃ text rest, plainText item = some text ∧ items.mapM plainText = some rest ∧ texts = text :: rest := by
  rw [List.mapM_cons] at known
  obtain ⟨text,first,known⟩ := Option.bind_eq_some_iff.mp known
  obtain ⟨rest,later,same⟩ := Option.bind_eq_some_iff.mp known
  exact ⟨text,rest,first,later,(Option.some.inj same).symm⟩

theorem plainTexts_nil (known : items.mapM plainText = some []) : items = [] := by
  cases items with
  | nil => rfl
  | cons item items =>
    obtain ⟨_,_,_,_,wrong⟩ := plainTexts_cons known
    cases wrong

theorem plainTexts_word {items : List Node} (known : items.mapM plainText = some texts) :
    ∀ text ∈ texts, text ≠ [] ∧ text.all wordChar = true := by
  induction items generalizing texts with
  | nil => cases known; exact fun _ member => by cases member
  | cons item items ih =>
    obtain ⟨text,rest,first,later,rfl⟩ := plainTexts_cons known
    exact List.forall_mem_cons.mpr ⟨plainText_word first,ih later⟩

theorem plainTexts_injective {items others : List Node} (first : items.mapM plainText = some texts)
    (second : others.mapM plainText = some texts) : items = others := by
  induction items generalizing others texts with
  | nil =>
    cases first
    exact (plainTexts_nil second).symm
  | cons item items ih =>
    obtain ⟨text,rest,here,later,rfl⟩ := plainTexts_cons first
    cases others with
    | nil => cases second
    | cons other others =>
      obtain ⟨_,_,here',later',same⟩ := plainTexts_cons second
      obtain ⟨rfl,rfl⟩ := List.cons.inj same
      rw [plainText_injective here here',ih later later']

/-- A block has a line for each of its texts. -/
theorem blockText_splitOn {texts : List Text} (nonempty : texts ≠ [])
    (words : ∀ text ∈ texts, text.all wordChar = true) :
    (blockText texts).splitOn '\n' = texts.map fun text => '-' :: ' ' :: text := by
  refine List.splitOn_intercalate _ (fun line member broken => ?_) (by simpa using nonempty)
  obtain ⟨text,inside,rfl⟩ := List.mem_map.mp member
  have word := List.all_eq_true.mp (words text inside) '\n' (by simpa using broken)
  exact absurd word (by decide)

theorem blockText_injective {first second : List Text} (nonempty : first ≠ []) (nonempty' : second ≠ [])
    (words : ∀ text ∈ first, text.all wordChar = true) (words' : ∀ text ∈ second, text.all wordChar = true)
    (same : blockText first = blockText second) : first = second := by
  have lines := (blockText_splitOn nonempty words).symm.trans (same ▸ blockText_splitOn nonempty' words')
  have cut : Function.Injective fun text : Text => '-' :: ' ' :: text := fun _ _ same =>
    (List.cons.inj (List.cons.inj same).2).2
  exact cut.list_map lines

theorem blockText_head {texts : List Text} (nonempty : texts ≠ []) : ∃ rest, blockText texts = '-' :: ' ' :: rest := by
  obtain ⟨text,texts,rfl⟩ := List.exists_cons_of_ne_nil nonempty
  cases texts with
  | nil => exact ⟨text,by simp [blockText]⟩
  | cons next texts => exact ⟨_,by simp [blockText,List.intercalate_cons_cons]; rfl⟩

theorem knownText_cases (known : knownText node = some text) :
    (plainText node = some text ∧ text ≠ [] ∧ text.all wordChar = true) ∨
      (∃ items texts, node = .sequence items ∧ items.mapM plainText = some texts ∧ texts ≠ [] ∧
        (∀ text ∈ texts, text.all wordChar = true) ∧ text = blockText texts) ∨
      (node = .sequence [] ∧ text = ['[',']']) := by
  unfold knownText at known
  split at known
  · exact .inr (.inr ⟨rfl,(Option.some.inj known).symm⟩)
  next items nonempty =>
    obtain ⟨texts,each,rfl⟩ := Option.map_eq_some_iff.mp known
    refine .inr (.inl ⟨items,texts,rfl,each,?_,fun text member => (plainTexts_word each text member).2,rfl⟩)
    rintro rfl
    exact nonempty (plainTexts_nil each)
  · exact .inl ⟨known,plainText_word known⟩

theorem knownText_injective (first : knownText a = some text) (second : knownText b = some text) : a = b := by
  have noWord {rest : Text} (word : text.all wordChar = true) (c : Char) (outside : wordChar c = false)
      (member : c ∈ text) : False := by
    rw [List.all_eq_true.mp word c member] at outside
    cases outside
  obtain ⟨plain,_,word⟩ | ⟨items,texts,rfl,each,nonempty,words,written⟩ | ⟨rfl,written⟩ := knownText_cases first <;>
    obtain ⟨plain',_,word'⟩ | ⟨items',texts',rfl,each',nonempty',words',written'⟩ | ⟨rfl,written'⟩ :=
      knownText_cases second
  · exact plainText_injective plain plain'
  · obtain ⟨rest,block⟩ := blockText_head nonempty'
    rw [written',block] at word
    cases word
  · rw [written'] at word
    cases word
  · obtain ⟨rest,block⟩ := blockText_head nonempty
    rw [written,block] at word'
    cases word'
  · obtain rfl := blockText_injective nonempty nonempty' words words' (written.symm.trans written')
    rw [plainTexts_injective each each']
  · obtain ⟨rest,block⟩ := blockText_head nonempty
    rw [written',block] at written
    cases written
  · rw [written] at word'
    cases word'
  · obtain ⟨rest,block⟩ := blockText_head nonempty'
    rw [written,block] at written'
    cases written'
  · rfl

theorem knownText_head (known : knownText node = some text) : text.head? ≠ some '!' ∧ text ≠ [] := by
  obtain ⟨_,nonempty,word⟩ | ⟨_,_,_,_,nonempty,_,rfl⟩ | ⟨_,rfl⟩ := knownText_cases known
  · refine ⟨fun head => ?_,nonempty⟩
    exact absurd (List.all_eq_true.mp word '!' (List.mem_of_mem_head? head)) (by decide)
  · obtain ⟨rest,block⟩ := blockText_head nonempty
    rw [block]
    exact ⟨by simp,List.cons_ne_nil _ _⟩
  · exact ⟨by decide,by decide⟩

def sampleEmit (node : Node) : Text := (knownText node).getD ('!' :: Nat.toDigits 10 (nodeCode node))

theorem sampleEmit_injective (same : sampleEmit a = sampleEmit b) : a = b := by
  unfold sampleEmit at same
  cases first : knownText a <;> cases second : knownText b <;>
    rw [first,second] at same <;> simp only [Option.getD_none,Option.getD_some] at same
  · have decoded := congrArg (fun digits => Nat.ofDigitChars 10 digits 0) (List.cons.inj same).2
    simp only [Nat.ofDigitChars_toDigits (show 1 < 10 by decide) (Nat.le_refl 10)] at decoded
    exact nodeCode_injective a b decoded
  · exact absurd rfl (same ▸ (knownText_head second).1)
  · exact absurd rfl (same ▸ (knownText_head first).1)
  · exact knownText_injective (same ▸ first) second

theorem sampleEmit_nonempty (node : Node) : sampleEmit node ≠ [] := by
  unfold sampleEmit
  cases known : knownText node with
  | none => exact List.cons_ne_nil _ _
  | some text => exact (knownText_head known).2

theorem sampleEmit_plain (isPlain : plain text = true) : sampleEmit (.scalar text) = text := by
  cases text with
  | nil => cases isPlain
  | cons c text => simp [sampleEmit,knownText,plainText,isPlain]

theorem plain_digits (nonempty : text ≠ []) (digits : ∀ c ∈ text, c.isDigit = true) : plain text = true := by
  unfold plain
  split
  · exact absurd rfl nonempty
  · exact absurd (digits '-' List.mem_cons_self) (by decide)
  · exact List.all_eq_true.mpr fun c member => by simp [digits c member]

theorem plain_to_string (i : Int) : plain (to_string i) = true := by
  have digits (n : Nat) : ∀ c ∈ Nat.toDigits 10 n, c.isDigit = true := fun c member =>
    Nat.isDigit_of_mem_toDigits (by decide) (by decide) member
  have nonempty (n : Nat) : Nat.toDigits 10 n ≠ [] := List.ne_nil_of_length_pos Nat.length_toDigits_pos
  unfold to_string
  split
  · simpa [plain,nonempty] using digits _
  · exact plain_digits (nonempty _) (digits _)

open scoped Classical in
/-- The empty document is a null node, and any other is the one with that text. -/
noncomputable def sampleYaml : YamlCpp where
  emit := sampleEmit
  load text :=
    if text = [] then .ok .null
    else if found : ∃ node, sampleEmit node = text then .ok found.choose else .error .yaml

theorem sampleYaml_load_emit (node : Node) : sampleYaml.load (sampleYaml.emit node) = .ok node := by
  have found : ∃ other, sampleEmit other = sampleYaml.emit node := ⟨node,rfl⟩
  refine (if_neg (sampleEmit_nonempty node)).trans ?_
  rw [dif_pos found,sampleEmit_injective found.choose_spec]

theorem sampleYaml_load_empty : sampleYaml.load [] = .ok .null := by
  simp [sampleYaml]

theorem sampleYaml_documented : sampleYaml.Documented := by
  have emit_numeral (i : Int) : sampleEmit (.scalar (to_string i)) = to_string i :=
    sampleEmit_plain (plain_to_string i)
  refine ⟨sampleYaml_load_emit,fun i => ?_,emit_numeral⟩
  have loaded := sampleYaml_load_emit (.scalar (to_string i))
  rwa [show sampleYaml.emit (.scalar (to_string i)) = to_string i from emit_numeral i] at loaded

/-- The least and the greatest `unsigned int`, as they are written. -/
example : sampleEmit (.sequence [.scalar (to_string 0),.scalar (to_string 4294967295)]) =
    "- 0\n- 4294967295".toList := by decide

theorem generated_round_trip_unsigned :
    ((vectorCast sampleYaml (intCast .unsignedInt)).toStr [⟨0,by decide,by decide⟩,⟨4294967295,by decide,by decide⟩] >>=
      (vectorCast sampleYaml (intCast .unsignedInt)).fromStr) =
      .ok [⟨0,by decide,by decide⟩,⟨4294967295,by decide,by decide⟩] :=
  generated_round_trip sampleYaml_documented (.vector (.int .unsignedInt)) _

end Myriel

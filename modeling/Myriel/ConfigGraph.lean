import Myriel.ConfigLoad
import Myriel.GraphWalk

/-! Documents as graphs of nodes. An alias is the anchored node itself, so a map may be
found again below itself, and `ListAllMenbers` has no record of where it has been. -/
namespace Myriel
open YAML

/-- What a node holds, with other nodes by their numbers. -/
inductive Cell (V : Type) where
  | null
  | scalar (text : Text)
  | sequence (items : List V)
  | map (items : List (V × V))

structure Graph where
  size : Nat
  cell : Fin size → Cell (Fin size)
  root : Fin size

namespace Graph

def scalarText (g : Graph) (v : Fin g.size) : Text :=
  match g.cell v with
  | .scalar text => text
  | _ => []

/-- The recursion of `ListAllMenbers`, `none` where it goes deeper than the depth. -/
def listAllMenbers (g : Graph) : Nat → Text → Fin g.size → Option (List (Text × Fin g.size))
  | 0,_,_ => none
  | depth + 1,perfix,node =>
    if Config.validName perfix then
      match g.cell node with
      | .map items => do
        let lists ← items.mapM fun item =>
          listAllMenbers g depth (Config.join perfix (g.scalarText item.1)) item.2
        pure ((perfix,node) :: lists.flatten)
      | _ => some [(perfix,node)]
    else some []

/-- The text given to `fromString`, where `emit` is what yaml-cpp writes for a node. -/
def nodeText (g : Graph) (emit : Fin g.size → Text) (v : Fin g.size) : Text :=
  match g.cell v with
  | .scalar text => text
  | _ => emit v

/-- `LoadFromYaml` with a bound on the depth of the recursion. -/
def loadFromYaml (g : Graph) (emit : Fin g.size → Text) (depth : Nat) (c : Config) :
    Option (Config × Option Thrown) :=
  (g.listAllMenbers depth [] g.root).map fun allNodes =>
    Config.loadNodes (fun _ => []) (allNodes.map fun item => (item.1,.scalar (g.nodeText emit item.2))) c

/-- The values of a map under keys that the test of the names lets through. -/
def children (g : Graph) (v : Fin g.size) : List (Fin g.size) :=
  match g.cell v with
  | .map items => (items.filter fun item => Config.validName (g.scalarText item.1)).map Prod.snd
  | _ => []

/-- A way along such keys from the root leads into a cycle of such keys. -/
def Cyclic (g : Graph) : Prop := GraphWalk.ReachesCycle g.children g.root

/-! ### The recursion -/

theorem validName_join (perfix key : Text) (valid : Config.validName perfix = true) :
    Config.validName (Config.join perfix key) = Config.validName key := by
  have dot : Config.nameChars.contains '.' = true := by decide
  cases perfix with
  | nil => rfl
  | cons c perfix =>
    simp only [Config.join,List.isEmpty_cons,Bool.false_eq_true,if_false,Config.validName,List.all_append,
      List.all_cons,dot,Bool.true_and] at valid ⊢
    rw [valid,Bool.true_and]

theorem mapM_isSome {f : α → Option β} (items : List α) :
    (items.mapM f).isSome = items.all fun item => (f item).isSome := by
  induction items with
  | nil => rfl
  | cons item items ih =>
    cases first : f item <;> cases later : items.mapM f <;> simp_all [List.mapM_cons]

theorem listAllMenbers_map {g : Graph} {v : Fin g.size} {items : List (Fin g.size × Fin g.size)}
    (found : g.cell v = .map items) (valid : Config.validName perfix = true) (depth : Nat) :
    (g.listAllMenbers (depth + 1) perfix v).isSome = items.all fun item =>
      (g.listAllMenbers depth (Config.join perfix (g.scalarText item.1)) item.2).isSome := by
  rw [← mapM_isSome]
  simp only [listAllMenbers,valid,found,if_true]
  cases items.mapM fun item => g.listAllMenbers depth (Config.join perfix (g.scalarText item.1)) item.2 <;> rfl

theorem mem_children {g : Graph} {v w : Fin g.size} {items : List (Fin g.size × Fin g.size)}
    (found : g.cell v = .map items) : w ∈ g.children v ↔
      ∃ item ∈ items, Config.validName (g.scalarText item.1) = true ∧ item.2 = w := by
  simp [children,found,and_assoc]

theorem ends_of_listed {g : Graph} {v : Fin g.size} (valid : Config.validName perfix = true)
    (listed : (g.listAllMenbers depth perfix v).isSome = true) :
    GraphWalk.endsWithin g.children depth v = true := by
  induction depth generalizing v perfix with
  | zero => cases listed
  | succ depth ih =>
    rw [GraphWalk.endsWithin,List.all_eq_true]
    intro w member
    cases found : g.cell v with
    | map items =>
      obtain ⟨item,inside,key,rfl⟩ := (mem_children found).mp member
      rw [listAllMenbers_map found valid,List.all_eq_true] at listed
      exact ih (by rw [validName_join _ _ valid]; exact key) (listed item inside)
    | null | scalar | sequence => simp [children,found] at member

theorem listed_of_ends {g : Graph} {v : Fin g.size} (perfix : Text)
    (ends : GraphWalk.endsWithin g.children depth v = true) :
    (g.listAllMenbers (depth + 1) perfix v).isSome = true := by
  induction depth generalizing v perfix with
  | zero => cases ends
  | succ depth ih =>
    by_cases valid : Config.validName perfix = true
    · cases found : g.cell v with
      | map items =>
        rw [listAllMenbers_map found valid,List.all_eq_true]
        intro item inside
        by_cases key : Config.validName (g.scalarText item.1) = true
        · rw [GraphWalk.endsWithin,List.all_eq_true] at ends
          exact ih _ (ends item.2 ((mem_children found).mpr ⟨item,inside,key,rfl⟩))
        · have invalid := (validName_join _ (g.scalarText item.1) valid).trans (Bool.eq_false_iff.mpr key)
          simp [listAllMenbers,invalid]
      | null | scalar | sequence => simp [listAllMenbers,valid,found]
    · simp [listAllMenbers,valid]

/-! ### Graphs that are trees -/

/-- The tree that a node is, `none` where it is deeper than the depth. -/
def unfold (g : Graph) : Nat → Fin g.size → Option Node
  | 0,_ => none
  | depth + 1,v =>
    match g.cell v with
    | .null => some .null
    | .scalar text => some (.scalar text)
    | .sequence items => (items.mapM (unfold g depth)).map .sequence
    | .map items => (items.mapM fun (item : Fin g.size × Fin g.size) => do
        let key ← unfold g depth item.1
        let value ← unfold g depth item.2
        pure (key,value)).map .map

theorem unfold_scalarText {g : Graph} {v : Fin g.size} (unfolded : g.unfold depth v = some node) :
    node.scalarText = g.scalarText v := by
  cases depth with
  | zero => cases unfolded
  | succ depth =>
    unfold Graph.unfold at unfolded
    unfold Graph.scalarText
    cases found : g.cell v with
    | null | scalar =>
      rw [found] at unfolded
      cases unfolded
      rfl
    | sequence | map =>
      rw [found] at unfolded
      obtain ⟨items,_,rfl⟩ := Option.map_eq_some_iff.mp unfolded
      rfl

/-- A listed node of the graph is one of the tree, under the same name. -/
def Matches (g : Graph) (item : Text × Fin g.size) (other : Text × Node) : Prop :=
  item.1 = other.1 ∧ ∃ depth, g.unfold depth item.2 = some other.2

theorem listItems_matches {g : Graph} {items : List (Fin g.size × Fin g.size)} {pairs : List (Node × Node)}
    (perfix : Text)
    (each : ∀ v perfix node, g.unfold depth v = some node → ∃ listed,
      g.listAllMenbers depth perfix v = some listed ∧
        List.Forall₂ g.Matches listed (Config.listAllMenbers perfix node))
    (unfolded : (items.mapM fun item => do
      let key ← g.unfold depth item.1
      let value ← g.unfold depth item.2
      pure (key,value)) = some pairs) : ∃ lists,
        (items.mapM fun item => g.listAllMenbers depth (Config.join perfix (g.scalarText item.1)) item.2) =
          some lists ∧ List.Forall₂ g.Matches lists.flatten (Config.listItems perfix pairs) := by
  induction items generalizing pairs with
  | nil =>
    cases unfolded
    exact ⟨[],rfl,.nil⟩
  | cons item items ih =>
    simp only [List.mapM_cons,Option.bind_eq_bind,Option.bind_eq_some_iff,Option.pure_def,
      Option.some.injEq] at unfolded
    obtain ⟨_,⟨key,keyed,value,valued,rfl⟩,rest,later,rfl⟩ := unfolded
    obtain ⟨listed,here,same⟩ := each item.2 (Config.join perfix (g.scalarText item.1)) value valued
    obtain ⟨lists,behind,others⟩ := ih later
    refine ⟨listed :: lists,by simp [List.mapM_cons,here,behind],?_⟩
    rw [List.flatten_cons,Config.listItems,Config.listItem,unfold_scalarText keyed]
    exact List.rel_append same others

/-- Where the graph is a tree, the recursion lists what it lists of the tree. -/
theorem listAllMenbers_unfold {g : Graph} (depth : Nat) (v : Fin g.size) (perfix : Text) (node : Node)
    (unfolded : g.unfold depth v = some node) : ∃ listed,
      g.listAllMenbers depth perfix v = some listed ∧
        List.Forall₂ g.Matches listed (Config.listAllMenbers perfix node) := by
  induction depth generalizing v perfix node with
  | zero => cases unfolded
  | succ depth ih =>
    have this : Matches g (perfix,v) (perfix,node) := ⟨rfl,depth + 1,unfolded⟩
    by_cases valid : Config.validName perfix = true
    · rw [Graph.unfold] at unfolded
      have single (leaf : node.isMap = false) :
          List.Forall₂ g.Matches [(perfix,v)] (Config.listAllMenbers perfix node) := by
        rw [Config.listAllMenbers_leaf _ _ leaf,if_pos valid]
        exact .cons this .nil
      cases found : g.cell v with
      | null | scalar text =>
        rw [found] at unfolded
        cases unfolded
        exact ⟨[(perfix,v)],by simp [listAllMenbers,valid,found],single rfl⟩
      | sequence items =>
        rw [found] at unfolded
        obtain ⟨nodes,_,rfl⟩ := Option.map_eq_some_iff.mp unfolded
        exact ⟨[(perfix,v)],by simp [listAllMenbers,valid,found],single rfl⟩
      | map items =>
        rw [found] at unfolded
        obtain ⟨pairs,paired,rfl⟩ := Option.map_eq_some_iff.mp unfolded
        obtain ⟨lists,listed,same⟩ := listItems_matches perfix ih paired
        refine ⟨(perfix,v) :: lists.flatten,by simp [listAllMenbers,valid,found,listed],?_⟩
        rw [Config.listAllMenbers,if_pos valid]
        exact .cons this same
    · refine ⟨[],by simp [listAllMenbers,valid],?_⟩
      cases node <;> simp [Config.listAllMenbers,valid]

/-- The recursion from the root ends, and with it `LoadFromYaml`, exactly when no cycle
can be reached along keys that pass the test of the names. -/
theorem load_terminates_iff (g : Graph) (emit : Fin g.size → Text) (c : Config) :
    ((∃ depth, (g.listAllMenbers depth [] g.root).isSome = true) ↔ ¬ g.Cyclic) ∧
      ((∃ depth, (g.loadFromYaml emit depth c).isSome = true) ↔ ¬ g.Cyclic) := by
  have listing : (∃ depth, (g.listAllMenbers depth [] g.root).isSome = true) ↔ ¬ g.Cyclic := by
    rw [Cyclic,← GraphWalk.ends_iff]
    exact ⟨fun ⟨depth,listed⟩ => ⟨depth,ends_of_listed rfl listed⟩,
      fun ⟨depth,ends⟩ => ⟨depth + 1,listed_of_ends [] ends⟩⟩
  refine ⟨listing,?_⟩
  simpa only [loadFromYaml,Option.isSome_map] using listing

/-- `&x {a: *x}` -/
def selfReferring : Graph where
  size := 2
  cell
    | ⟨0,_⟩ => .map [(⟨1,by decide⟩,⟨0,by decide⟩)]
    | _ => .scalar ['a']
  root := ⟨0,by decide⟩

/-- No depth is enough for a map that contains itself. -/
theorem self_referring_recurses :
    ¬ ∃ depth, (selfReferring.listAllMenbers depth [] selfReferring.root).isSome = true := by
  rintro ⟨depth,listed⟩
  have edge : GraphWalk.Edge selfReferring.children selfReferring.root selfReferring.root :=
    (mem_children (g := selfReferring) rfl).mpr ⟨_,List.mem_singleton.mpr rfl,rfl,rfl⟩
  have ends := ends_of_listed rfl listed
  exact absurd ⟨selfReferring.root,.refl,.single edge⟩ ((GraphWalk.ends_iff _ _).mp ⟨depth,ends⟩)

end Graph

end Myriel

import Myriel.ConfigText

/-! Containers of strings. A string goes into a container as the YAML document that it is,
and comes out as the text that yaml-cpp emits for the node it loads. -/
namespace Myriel
open YAML

def stringCast : LaxicalCast Text where
  toStr := .ok
  fromStr := .ok

section Types
variable (yaml : YamlCpp)

/-- One container around elements, with the strings in a value of either type. -/
inductive Wraps (element : LaxicalCast T) (leaves : T → List Text) :
    (C : Type) → LaxicalCast C → (C → List Text) → Prop where
  | vector : Wraps element leaves (List T) (vectorCast yaml element) fun v => v.flatMap leaves
  | list : Wraps element leaves (List T) (listCast yaml element) fun v => v.flatMap leaves
  | set [LinearOrder T] : Wraps element leaves (Finset T) (setCast yaml element)
      fun v => (v.sort (· ≤ ·)).flatMap leaves
  | map : Wraps element leaves (StdMap T) (mapCast yaml element)
      fun v => v.entries.flatMap fun entry => leaves entry.2

/-- The types that `std::string` generates, with their conversions and strings. -/
inductive StringGenerated : (T : Type) → LaxicalCast T → (T → List Text) → Prop where
  | string : StringGenerated Text stringCast fun s => [s]
  | container (item : StringGenerated T element leaves) (wraps : Wraps yaml element leaves C conversion strings) :
      StringGenerated C conversion strings

def Loads (s : Text) : Prop := ∃ node, yaml.load s = .ok node

/-- The string is a YAML document as yaml-cpp itself would write it. -/
def Kept (s : Text) : Prop := ∃ node, yaml.load s = .ok node ∧ yaml.emit node = s

end Types

theorem Kept.loads (kept : Kept yaml s) : Loads yaml s := kept.imp fun _ both => both.1

/-- What becomes of values whose strings load: `g` gives the value that is read back. -/
structure Normalises (yaml : YamlCpp) (leaves : T → List Text) (g : T → T) : Prop where
  fixed : ∀ v, (∀ s ∈ leaves v, Loads yaml s) → (g v = v ↔ ∀ s ∈ leaves v, Kept yaml s)
  kept : ∀ v, (∀ s ∈ leaves v, Loads yaml s) → ∀ s ∈ leaves (g v), Kept yaml s

/-- The conversions of elements, as a container uses them. -/
structure Tracked (yaml : YamlCpp) (element : LaxicalCast T) (leaves : T → List Text) (g : T → T) : Prop where
  normalises : Normalises yaml leaves g
  decodes : ∀ v, (∀ s ∈ leaves v, Loads yaml s) → Decodes yaml element v (g v)
  rejects : ∀ v, ¬ (∀ s ∈ leaves v, Loads yaml s) → ∃ e, (element.toStr v >>= yaml.load) = .error e

structure Wrapped (yaml : YamlCpp) (conversion : LaxicalCast C) (strings : C → List Text) (g : C → C) : Prop where
  normalises : Normalises yaml strings g
  decodes : ∀ v, (∀ s ∈ strings v, Loads yaml s) → ∃ node, conversion.toStr v = .ok (yaml.emit node) ∧
    conversion.fromStr (yaml.emit node) = .ok (g v)
  rejects : ∀ v, ¬ (∀ s ∈ strings v, Loads yaml s) → ∃ e, conversion.toStr v = .error e

theorem Wrapped.tracked (load_emit : ∀ node, yaml.load (yaml.emit node) = .ok node)
    (wrapped : Wrapped yaml conversion strings g) : Tracked yaml conversion strings g where
  normalises := wrapped.normalises
  decodes := by
    intro v loads
    obtain ⟨node,written,parsed⟩ := wrapped.decodes v loads
    exact ⟨_,node,written,load_emit node,parsed⟩
  rejects := by
    intro v stuck
    obtain ⟨e,failed⟩ := wrapped.rejects v stuck
    exact ⟨e,by rw [failed]; rfl⟩

theorem string_tracked (load_emit : ∀ node, yaml.load (yaml.emit node) = .ok node) :
    ∃ g, Tracked yaml stringCast (fun s => [s]) g := by
  have choice (s : Text) : ∃ w, ∀ node, yaml.load s = .ok node → yaml.emit node = w := by
    cases loaded : yaml.load s with
    | error e => exact ⟨s,fun node wrong => nomatch wrong⟩
    | ok node => exact ⟨yaml.emit node,by rintro _ ⟨⟩; rfl⟩
  choose g emitted using choice
  refine ⟨g,⟨?_,?_⟩,?_,?_⟩
  · intro s loads
    obtain ⟨node,loaded⟩ := loads s (by simp)
    have same := emitted s node loaded
    constructor
    · intro fixed s' member
      cases List.mem_singleton.mp member
      exact ⟨node,loaded,same.trans fixed⟩
    · intro kept
      obtain ⟨other,again,written⟩ := kept s (by simp)
      exact (emitted s other again).symm.trans written
  · intro s loads s' member
    obtain ⟨node,loaded⟩ := loads s (by simp)
    cases List.mem_singleton.mp member
    rw [← emitted s node loaded]
    exact ⟨node,load_emit node,rfl⟩
  · intro s loads
    obtain ⟨node,loaded⟩ := loads s (by simp)
    exact ⟨s,node,rfl,loaded,congrArg Except.ok (emitted s node loaded)⟩
  · intro s stuck
    cases loaded : yaml.load s with
    | error e => exact ⟨e,loaded⟩
    | ok node => exact absurd (fun s' member => by cases List.mem_singleton.mp member; exact ⟨node,loaded⟩) stuck

theorem foldlM_error {f : C → α → Except ε C} {items : List α} (member : bad ∈ items)
    (fails : ∀ c, ∃ e, f c bad = .error e) (c : C) : ∃ e, items.foldlM f c = .error e := by
  induction items generalizing c with
  | nil => cases member
  | cons item items ih =>
    rw [List.foldlM_cons]
    cases first : f c item with
    | error e => exact ⟨e,rfl⟩
    | ok next =>
      rcases List.mem_cons.mp member with rfl | later
      · obtain ⟨e,failed⟩ := fails c
        rw [first] at failed
        cases failed
      · exact ih later next

theorem stuck_item {property : Text → Prop} {strings : α → List Text} {items : List α}
    (stuck : ¬ ∀ s ∈ items.flatMap strings, property s) : ∃ item ∈ items, ¬ ∀ s ∈ strings item, property s := by
  by_contra good
  refine stuck fun s member => ?_
  obtain ⟨item,inside,leaf⟩ := List.mem_flatMap.mp member
  exact not_not.mp (fun wrong => good ⟨item,inside,wrong⟩) s leaf

theorem sequence_rejects {element : LaxicalCast T} (tracked : Tracked yaml element leaves g)
    (v : List T) (stuck : ¬ ∀ s ∈ v.flatMap leaves, Loads yaml s) :
    ∃ e, sequenceToStr yaml element v = .error e := by
  obtain ⟨item,inside,wrong⟩ := stuck_item stuck
  obtain ⟨e,failed⟩ := tracked.rejects item wrong
  have fails (node : Node) : ∃ e, pushItem yaml element node item = .error e := by
    refine ⟨e,?_⟩
    have bound := congrArg (· >>= pushBack node) failed
    rwa [bind_assoc] at bound
  obtain ⟨e,stopped⟩ := foldlM_error inside fails .null
  exact ⟨e,by rw [sequenceToStr,stopped]; rfl⟩

theorem map_rejects {element : LaxicalCast T} (tracked : Tracked yaml element leaves g)
    (v : List (Text × T)) (stuck : ¬ ∀ s ∈ v.flatMap (fun entry => leaves entry.2), Loads yaml s) :
    ∃ e, mapToStr yaml element v = .error e := by
  obtain ⟨entry,inside,wrong⟩ := stuck_item stuck
  obtain ⟨e,failed⟩ := tracked.rejects entry.2 wrong
  have fails (node : Node) : ∃ e, assignEntry yaml element node entry = .error e := by
    refine ⟨e,?_⟩
    have bound := congrArg (· >>= assign node entry.1) failed
    rwa [bind_assoc] at bound
  obtain ⟨e,stopped⟩ := foldlM_error inside fails .null
  exact ⟨e,by rw [mapToStr,stopped]; rfl⟩

theorem loads_item {items : List α} (strings : α → List Text)
    (loads : ∀ s ∈ items.flatMap strings, Loads yaml s) (inside : item ∈ items) :
    ∀ s ∈ strings item, Loads yaml s :=
  fun s leaf => loads s (List.mem_flatMap.mpr ⟨item,inside,leaf⟩)

variable {T : Type} {leaves : T → List Text} {g : T → T}

theorem fixed_items {f : α → T} {items : List α}
    (normalises : Normalises yaml leaves g)
    (loads : ∀ s ∈ items.flatMap (fun item => leaves (f item)), Loads yaml s) :
    (∀ item ∈ items, g (f item) = f item) ↔
      ∀ s ∈ items.flatMap (fun item => leaves (f item)), Kept yaml s := by
  simp only [List.mem_flatMap]
  constructor
  · rintro fixed s ⟨item,inside,leaf⟩
    exact (normalises.fixed _ (loads_item (fun item => leaves (f item)) loads inside)).mp (fixed item inside) s leaf
  · intro kept item inside
    exact (normalises.fixed _ (loads_item (fun item => leaves (f item)) loads inside)).mpr fun s leaf => kept s ⟨item,inside,leaf⟩

theorem sequence_normalises (normalises : Normalises yaml leaves g) :
    Normalises yaml (fun v : List T => v.flatMap leaves) (List.map g) where
  fixed := by
    intro v loads
    have pointwise := List.map_eq_map_iff (l := v) (f := g) (g := id)
    rw [List.map_id] at pointwise
    exact pointwise.trans (fixed_items (f := id) normalises loads)
  kept := by
    intro v loads s member
    obtain ⟨other,inside,leaf⟩ := List.mem_flatMap.mp member
    obtain ⟨item,origin,rfl⟩ := List.mem_map.mp inside
    exact normalises.kept item (loads_item leaves loads origin) s leaf

/-- Two elements of a set may become one, but not when the set stays the same. -/
theorem set_normalises [LinearOrder T] (normalises : Normalises yaml leaves g) :
    Normalises yaml (fun v : Finset T => (v.sort (· ≤ ·)).flatMap leaves)
      fun v => ((v.sort (· ≤ ·)).map g).toFinset where
  fixed := by
    intro v loads
    constructor
    · intro fixed s member
      obtain ⟨item,inside,leaf⟩ := List.mem_flatMap.mp member
      rw [Finset.mem_sort,← fixed,List.mem_toFinset] at inside
      obtain ⟨origin,before,rfl⟩ := List.mem_map.mp inside
      exact normalises.kept origin (loads_item leaves loads before) s leaf
    · intro kept
      have fixed : ∀ item ∈ v.sort (· ≤ ·), g item = id item :=
        (fixed_items (f := id) normalises loads).mpr kept
      rw [List.map_congr_left fixed,List.map_id,Finset.sort_toFinset]
  kept := by
    intro v loads s member
    obtain ⟨other,inside,leaf⟩ := List.mem_flatMap.mp member
    rw [Finset.mem_sort,List.mem_toFinset] at inside
    obtain ⟨item,origin,rfl⟩ := List.mem_map.mp inside
    exact normalises.kept item (loads_item leaves loads origin) s leaf

theorem map_normalises (normalises : Normalises yaml leaves g) :
    Normalises yaml (fun v : StdMap T => v.entries.flatMap fun entry => leaves entry.2)
      (SortedMap.mapValues g) where
  fixed := by
    intro v loads
    rw [← fixed_items (f := Prod.snd) normalises loads]
    exact v.mapValues_eq_self g
  kept := by
    intro v loads s member
    obtain ⟨other,inside,leaf⟩ := List.mem_flatMap.mp member
    obtain ⟨entry,origin,rfl⟩ := List.mem_map.mp inside
    exact normalises.kept entry.2 (loads_item (fun entry => leaves entry.2) loads origin) s leaf

theorem wraps_wrapped (load_emit : ∀ node, yaml.load (yaml.emit node) = .ok node)
    (tracked : Tracked yaml element leaves g) (wraps : Wraps yaml element leaves C conversion strings) :
    ∃ G, Wrapped yaml conversion strings G := by
  cases wraps with
  | vector | list =>
    refine ⟨_,sequence_normalises tracked.normalises,fun v loads => ?_,sequence_rejects tracked⟩
    exact sequence_decodes load_emit v (fun item inside => tracked.decodes item (loads_item leaves loads inside))
      (push_all [] _)
  | set =>
    refine ⟨_,set_normalises tracked.normalises,fun v loads => ?_,fun v => sequence_rejects tracked _⟩
    apply sequence_decodes load_emit _ fun item inside => tracked.decodes item (loads_item leaves loads inside)
    rw [insert_all,Finset.empty_union]
  | map =>
    refine ⟨_,map_normalises tracked.normalises,fun v loads => ?_,fun v => map_rejects tracked _⟩
    exact map_decodes load_emit v.entries v.distinct
      (fun entry inside => tracked.decodes entry.2 (loads_item (fun entry => leaves entry.2) loads inside)) (v.emplaceAll_mapValues g)

theorem generated_tracked (load_emit : ∀ node, yaml.load (yaml.emit node) = .ok node)
    (generated : StringGenerated yaml T element leaves) : ∃ g, Tracked yaml element leaves g := by
  induction generated with
  | string => exact string_tracked load_emit
  | container _ wraps ih =>
    obtain ⟨g,tracked⟩ := ih
    obtain ⟨G,wrapped⟩ := wraps_wrapped load_emit tracked wraps
    exact ⟨G,wrapped.tracked load_emit⟩

/-- A value with at least one container around its strings survives `toString` and
`fromString` exactly when each of the strings is the text that yaml-cpp emits for the
document it is. -/
theorem strings_round_trip_iff (load_emit : ∀ node, yaml.load (yaml.emit node) = .ok node)
    (item : StringGenerated yaml T element leaves) (wraps : Wraps yaml element leaves C conversion strings)
    (v : C) : (conversion.toStr v >>= conversion.fromStr) = .ok v ↔ ∀ s ∈ strings v, Kept yaml s := by
  obtain ⟨g,tracked⟩ := generated_tracked load_emit item
  obtain ⟨G,wrapped⟩ := wraps_wrapped load_emit tracked wraps
  by_cases loads : ∀ s ∈ strings v, Loads yaml s
  · obtain ⟨node,written,parsed⟩ := wrapped.decodes v loads
    rw [← wrapped.normalises.fixed v loads,written]
    exact ⟨fun same => Except.ok.inj (parsed.symm.trans same),fun same => parsed.trans (congrArg _ same)⟩
  · obtain ⟨e,failed⟩ := wrapped.rejects v loads
    rw [failed]
    constructor
    · intro wrong
      contradiction
    · intro kept
      exact absurd (fun s member => (kept s member).loads) loads

/-! ### Vectors of strings -/

/-- A numeral is a document that yaml-cpp writes itself. -/
theorem strings_round_trip_numeral :
    ((vectorCast sampleYaml stringCast).toStr [['1']] >>= (vectorCast sampleYaml stringCast).fromStr) =
      .ok [['1']] := by
  refine (strings_round_trip_iff sampleYaml_load_emit .string .vector [['1']]).mpr ?_
  intro s member
  have one : s = ['1'] := by simpa using member
  have written : sampleYaml.emit (.scalar ['1']) = ['1'] := rfl
  refine ⟨.scalar ['1'],?_,one ▸ written⟩
  rw [one]
  exact sampleYaml_load_emit (.scalar ['1'])

/-- An empty string goes in as a null node and comes out as its text. -/
theorem empty_string_decodes : sampleYaml.load [] = .ok .null ∧
    (∀ node, sampleYaml.load (sampleYaml.emit node) = .ok node) ∧
    (vectorCast sampleYaml stringCast).toStr [[]] = .ok "- ~".toList ∧
    ((vectorCast sampleYaml stringCast).toStr [[]] >>= (vectorCast sampleYaml stringCast).fromStr) =
      .ok [['~']] := by
  have element : ∀ item ∈ [[]], Decodes sampleYaml stringCast item ((fun _ => ['~']) item) := by
    intro item member
    rw [List.mem_singleton.mp member]
    exact ⟨[],.null,rfl,sampleYaml_load_empty,rfl⟩
  have both : ∃ node, sequenceToStr sampleYaml stringCast [[]] = .ok (sampleYaml.emit node) ∧
      sequenceFromStr sampleYaml (fun res item => res ++ [item]) [] stringCast (sampleYaml.emit node) =
        .ok [['~']] := sequence_decodes sampleYaml_load_emit [[]] element rfl
  have text : sampleEmit (.sequence [.null]) = "- ~".toList := by decide
  have pushed : sequenceToStr sampleYaml stringCast [[]] = .ok "- ~".toList := by
    simp only [sequenceToStr,List.foldlM_cons,List.foldlM_nil,pushItem,stringCast,sampleYaml_load_empty,bind,
      Except.bind,pushBack,pure,Except.pure]
    exact congrArg Except.ok text
  refine ⟨sampleYaml_load_empty,sampleYaml_load_emit,pushed,?_⟩
  obtain ⟨node,written,parsed⟩ := both
  change (sequenceToStr sampleYaml stringCast [[]] >>= _) = _
  rw [written]
  exact parsed

end Myriel

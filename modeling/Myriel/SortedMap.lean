import Mathlib.Data.List.Sort
import Mathlib.Tactic.Common

/-! Finite maps as lists of entries in strictly increasing order of their keys, so that
equal maps are equal lists, and insertion that keeps the value of a known key. -/

/-- A map with its entries in the order of the keys. -/
@[ext] structure SortedMap (K : Type u) (T : Type v) [LinearOrder K] where
  entries : List (K × T)
  sorted : entries.Pairwise fun first second => first.1 < second.1

namespace SortedMap

variable {K : Type u} {T : Type v} [LinearOrder K]

def insertEntry (key : K) (value : T) : List (K × T) → List (K × T)
  | [] => [(key,value)]
  | entry :: entries =>
    if key < entry.1 then (key,value) :: entry :: entries
    else if entry.1 < key then entry :: insertEntry key value entries
    else entry :: entries

theorem mem_insertEntry {key : K} {value : T} {entries : List (K × T)}
    (member : other ∈ insertEntry key value entries) : other = (key,value) ∨ other ∈ entries := by
  induction entries with
  | nil => exact .inl (List.mem_singleton.mp member)
  | cons entry entries ih =>
    rw [insertEntry] at member
    split at member
    · exact List.mem_cons.mp member
    · split at member
      · rcases List.mem_cons.mp member with rfl | later
        · exact .inr (by simp)
        · exact (ih later).imp id (List.mem_cons_of_mem _)
      · exact .inr member

theorem insertEntry_sorted (key : K) (value : T) {entries : List (K × T)}
    (sorted : entries.Pairwise fun first second => first.1 < second.1) :
    (insertEntry key value entries).Pairwise fun first second => first.1 < second.1 := by
  induction entries with
  | nil => simp [insertEntry]
  | cons entry entries ih =>
    obtain ⟨least,rest⟩ := List.pairwise_cons.mp sorted
    rw [insertEntry]
    split
    · rename_i first
      refine List.pairwise_cons.mpr ⟨fun other member => ?_,sorted⟩
      rcases List.mem_cons.mp member with rfl | later
      · exact first
      · exact first.trans (least other later)
    · split
      · rename_i later
        refine List.pairwise_cons.mpr ⟨fun other member => ?_,ih rest⟩
        rcases mem_insertEntry member with rfl | old
        · exact later
        · exact least other old
      · exact sorted

/-- A new key adds one entry. -/
theorem insertEntry_perm (key : K) (value : T) {entries : List (K × T)}
    (fresh : ∀ entry ∈ entries, entry.1 ≠ key) :
    (insertEntry key value entries).Perm ((key,value) :: entries) := by
  induction entries with
  | nil => exact List.Perm.refl _
  | cons entry entries ih =>
    obtain ⟨different,rest⟩ := List.forall_mem_cons.mp fresh
    rw [insertEntry]
    split
    · exact List.Perm.refl _
    · split
      · exact ((ih rest).cons entry).trans (List.Perm.swap _ _ _)
      · rename_i lower upper
        exact absurd (le_antisymm (not_lt.mp lower) (not_lt.mp upper)) different

def empty : SortedMap K T := ⟨[],.nil⟩

def emplace (m : SortedMap K T) (key : K) (value : T) : SortedMap K T :=
  ⟨insertEntry key value m.entries,insertEntry_sorted key value m.sorted⟩

def erase (m : SortedMap K T) (key : K) : SortedMap K T :=
  ⟨m.entries.filter fun entry => entry.1 ≠ key,m.sorted.filter _⟩

/-- Insertion that replaces the value of a known key. -/
def assign (m : SortedMap K T) (key : K) (value : T) : SortedMap K T := (m.erase key).emplace key value

theorem assign_perm (m : SortedMap K T) (key : K) (value : T) :
    (m.assign key value).entries.Perm ((key,value) :: (m.erase key).entries) := by
  apply insertEntry_perm
  intro entry member
  simpa using (List.mem_filter.mp member).2

theorem erase_fresh (m : SortedMap K T) (fresh : ∀ entry ∈ m.entries, entry.1 ≠ key) : m.erase key = m := by
  apply SortedMap.ext
  exact List.filter_eq_self.mpr fun entry member => by simpa using fresh entry member

theorem distinct (m : SortedMap K T) : (m.entries.map Prod.fst).Nodup :=
  List.pairwise_map.mpr (m.sorted.imp fun less => ne_of_lt less)

/-- Two maps with the same entries in any order are equal. -/
theorem ext_perm {m n : SortedMap K T} (same : m.entries.Perm n.entries) : m = n := by
  apply SortedMap.ext
  refine same.eq_of_pairwise ?_ m.sorted n.sorted
  intro first second _ _ less more
  exact absurd less (lt_asymm more)

theorem emplaceAll_perm (m : SortedMap K T) (entries : List (K × T))
    (distinct : (m.entries.map Prod.fst ++ entries.map Prod.fst).Nodup) :
    (entries.foldl (fun m entry => m.emplace entry.1 entry.2) m).entries.Perm (m.entries ++ entries) := by
  induction entries generalizing m with
  | nil => simp
  | cons entry entries ih =>
    have fresh : ∀ other ∈ m.entries, other.1 ≠ entry.1 := by
      intro other member same
      have twice := List.disjoint_of_nodup_append distinct
        (List.mem_map_of_mem (f := Prod.fst) member)
      exact twice (by simp [same])
    have added := insertEntry_perm entry.1 entry.2 fresh
    have keys : ((m.emplace entry.1 entry.2).entries.map Prod.fst ++ entries.map Prod.fst).Perm
        (m.entries.map Prod.fst ++ (entry :: entries).map Prod.fst) :=
      ((added.map Prod.fst).append_right _).trans List.perm_middle.symm
    exact (ih _ (keys.nodup_iff.mpr distinct)).trans
      ((added.append_right entries).trans List.perm_middle.symm)

/-- Inserting the entries of a map, in any order, gives the map. -/
theorem emplaceAll (m : SortedMap K T) {entries : List (K × T)} (same : entries.Perm m.entries) :
    entries.foldl (fun m entry => m.emplace entry.1 entry.2) empty = m := by
  have distinct : ((empty : SortedMap K T).entries.map Prod.fst ++ entries.map Prod.fst).Nodup :=
    (same.map Prod.fst).nodup_iff.mpr m.distinct
  exact ext_perm ((emplaceAll_perm empty entries distinct).trans same)

def mapValues (g : T → U) (m : SortedMap K T) : SortedMap K U :=
  ⟨m.entries.map fun entry => (entry.1,g entry.2),List.pairwise_map.mpr m.sorted⟩

theorem mapValues_eq_self (g : T → T) (m : SortedMap K T) :
    m.mapValues g = m ↔ ∀ entry ∈ m.entries, g entry.2 = entry.2 := by
  have pointwise := List.map_eq_map_iff (l := m.entries)
    (f := fun entry => (entry.1,g entry.2)) (g := id)
  rw [List.map_id] at pointwise
  rw [SortedMap.ext_iff]
  refine pointwise.trans (forall₂_congr fun entry _ => ?_)
  exact ⟨fun same => congrArg Prod.snd same,fun same => Prod.ext rfl same⟩

theorem emplaceAll_mapValues (g : T → U) (m : SortedMap K T) :
    m.entries.foldl (fun res entry => res.emplace entry.1 (g entry.2)) empty = m.mapValues g := by
  have all := (m.mapValues g).emplaceAll (List.Perm.refl _)
  rwa [mapValues,List.foldl_map] at all

end SortedMap

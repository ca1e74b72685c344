import Mathlib.Data.List.Nodup

namespace Mrsh.Data

/-! # Chained hash tables

A table is an array of chains. Every key is in the chain that its hash selects
and at most once, which is part of the type: a table that breaks this cannot be
built. The functions behave as those of a finite map.
-/

variable {κ α : Type} [DecidableEq κ]

/-! ## Chains -/

def chainGet (key : κ) : List (κ × α) → Option α
  | [] => none
  | (other, value) :: rest => if other = key then some value else chainGet key rest

/-- Replaces the value of the key, or appends an entry. -/
def chainSet (key : κ) (value : α) : List (κ × α) → List (κ × α)
  | [] => [(key, value)]
  | (other, old) :: rest =>
      if other = key then (other, value) :: rest else (other, old) :: chainSet key value rest

def chainDel (key : κ) : List (κ × α) → List (κ × α)
  | [] => []
  | (other, old) :: rest => if other = key then rest else (other, old) :: chainDel key rest

theorem chainGet_set (key probe : κ) (value : α) (chain : List (κ × α)) :
    chainGet probe (chainSet key value chain) =
      if probe = key then some value else chainGet probe chain := by
  induction chain with
  | nil => simp [chainSet, chainGet, eq_comm]
  | cons entry rest ih =>
      obtain ⟨other, old⟩ := entry
      by_cases same : other = key
      · subst other
        by_cases probed : probe = key
        · simp [chainSet, chainGet, probed]
        · simp [chainSet, chainGet, probed, Ne.symm probed]
      · by_cases probed : other = probe
        · subst other
          simp [chainSet, chainGet, same]
        · simp [chainSet, chainGet, same, probed, ih]

theorem keys_chainSet (key : κ) (value : α) (chain : List (κ × α)) :
    (chainSet key value chain).map Prod.fst =
      if key ∈ chain.map Prod.fst then chain.map Prod.fst else chain.map Prod.fst ++ [key] := by
  induction chain with
  | nil => simp [chainSet]
  | cons entry rest ih =>
      obtain ⟨other, old⟩ := entry
      by_cases same : other = key
      · simp [chainSet, same]
      · by_cases found : key ∈ rest.map Prod.fst
        · rw [if_pos found] at ih
          simp [chainSet, same, ih, found, Ne.symm same]
        · rw [if_neg found] at ih
          simp [chainSet, same, ih, found, Ne.symm same]

theorem keys_chainDel (key : κ) (chain : List (κ × α)) :
    (chainDel key chain).map Prod.fst = (chain.map Prod.fst).erase key := by
  induction chain with
  | nil => rfl
  | cons entry rest ih =>
      obtain ⟨other, old⟩ := entry
      by_cases same : other = key
      · simp [chainDel, same]
      · simp [chainDel, same, ih]

theorem chainGet_isSome (key : κ) (chain : List (κ × α)) :
    (chainGet key chain).isSome ↔ key ∈ chain.map Prod.fst := by
  induction chain with
  | nil => simp [chainGet]
  | cons entry rest ih =>
      obtain ⟨other, old⟩ := entry
      by_cases same : other = key
      · simp [chainGet, same]
      · simp only [chainGet, if_neg same, ih, List.map_cons, List.mem_cons, Ne.symm same, false_or]

theorem chainGet_del {key : κ} {chain : List (κ × α)} (distinct : (chain.map Prod.fst).Nodup)
    (probe : κ) : chainGet probe (chainDel key chain) =
      if probe = key then none else chainGet probe chain := by
  induction chain with
  | nil => simp [chainDel, chainGet]
  | cons entry rest ih =>
      obtain ⟨other, old⟩ := entry
      simp only [List.map_cons, List.nodup_cons] at distinct
      by_cases same : other = key
      · subst other
        by_cases probed : probe = key
        · subst probe
          have absent : ¬ (chainGet key rest).isSome := fun found =>
            distinct.1 ((chainGet_isSome key rest).mp found)
          simpa [chainDel] using absent
        · simp [chainDel, chainGet, probed, Ne.symm probed]
      · by_cases probed : other = probe
        · subst other
          simp [chainDel, chainGet, same]
        · simp [chainDel, chainGet, same, probed, ih distinct.2]

theorem mem_chain_iff {chain : List (κ × α)} (distinct : (chain.map Prod.fst).Nodup)
    (key : κ) (value : α) : (key, value) ∈ chain ↔ chainGet key chain = some value := by
  induction chain with
  | nil => simp [chainGet]
  | cons entry rest ih =>
      obtain ⟨other, old⟩ := entry
      simp only [List.map_cons, List.nodup_cons] at distinct
      by_cases same : other = key
      · subst other
        have absent : (key, value) ∉ rest := fun found =>
          distinct.1 (List.mem_map_of_mem found)
        simp [chainGet, absent, eq_comm]
      · simp [chainGet, same, Ne.symm same, ih distinct.2]

/-! ### The place of a key -/

section

variable {key : κ} {before after chain : List (κ × α)}

theorem chainGet_place (absent : key ∉ before.map Prod.fst) (value : α) :
    chainGet key (before ++ (key, value) :: after) = some value := by
  induction before with
  | nil => simp [chainGet]
  | cons entry before ih =>
      simp only [List.map_cons, List.mem_cons, not_or] at absent
      simp [chainGet, Ne.symm absent.1, ih absent.2]

theorem chainSet_place (absent : key ∉ before.map Prod.fst) (old value : α) :
    chainSet key value (before ++ (key, old) :: after) = before ++ (key, value) :: after := by
  induction before with
  | nil => simp [chainSet]
  | cons entry before ih =>
      simp only [List.map_cons, List.mem_cons, not_or] at absent
      simp [chainSet, Ne.symm absent.1, ih absent.2]

theorem chainSet_absent (absent : key ∉ chain.map Prod.fst) (value : α) :
    chainSet key value chain = chain ++ [(key, value)] := by
  induction chain with
  | nil => rfl
  | cons entry chain ih =>
      simp only [List.map_cons, List.mem_cons, not_or] at absent
      simp [chainSet, Ne.symm absent.1, ih absent.2]

theorem chainDel_place (absent : key ∉ before.map Prod.fst) (value : α) :
    chainDel key (before ++ (key, value) :: after) = before ++ after := by
  induction before with
  | nil => simp [chainDel]
  | cons entry before ih =>
      simp only [List.map_cons, List.mem_cons, not_or] at absent
      simp [chainDel, Ne.symm absent.1, ih absent.2]

theorem chainDel_absent (absent : key ∉ chain.map Prod.fst) : chainDel key chain = chain := by
  induction chain with
  | nil => rfl
  | cons entry chain ih =>
      simp only [List.map_cons, List.mem_cons, not_or] at absent
      simp [chainDel, Ne.symm absent.1, ih absent.2]

theorem chain_place (found : key ∈ chain.map Prod.fst) :
    ∃ before value after, chain = before ++ (key, value) :: after ∧ key ∉ before.map Prod.fst := by
  induction chain with
  | nil => cases found
  | cons entry chain ih =>
      obtain ⟨other, value⟩ := entry
      by_cases same : other = key
      · subst same
        exact ⟨[], value, chain, rfl, by simp⟩
      · simp only [List.map_cons, List.mem_cons, Ne.symm same, false_or] at found
        obtain ⟨before, keyValue, after, rfl, absent⟩ := ih found
        refine ⟨(other, value) :: before, keyValue, after, rfl, ?_⟩
        simp [absent, Ne.symm same]

end

/-! ## Tables -/

structure Hashtable (hash : κ → Nat) (size : Nat) (α : Type) where
  buckets : Nat → List (κ × α)
  placed : ∀ i, ∀ key ∈ (buckets i).map Prod.fst, hash key % size = i
  distinct : ∀ i, ((buckets i).map Prod.fst).Nodup

namespace Hashtable

variable {hash : κ → Nat} {size : Nat}

def empty : Hashtable hash size α where
  buckets _ := []
  placed := by simp
  distinct := by simp

def get (table : Hashtable hash size α) (key : κ) : Option α :=
  chainGet key (table.buckets (hash key % size))

def set (table : Hashtable hash size α) (key : κ) (value : α) : Hashtable hash size α where
  buckets i :=
    if i = hash key % size then chainSet key value (table.buckets i) else table.buckets i
  placed i other found := by
    by_cases bucket : i = hash key % size
    · rw [if_pos bucket, keys_chainSet] at found
      split at found
      · exact table.placed i other found
      · rcases List.mem_append.mp found with found | found
        · exact table.placed i other found
        · rw [List.mem_singleton.mp found]
          exact bucket.symm
    · rw [if_neg bucket] at found
      exact table.placed i other found
  distinct i := by
    by_cases bucket : i = hash key % size
    · rw [if_pos bucket, keys_chainSet]
      split
      · exact table.distinct i
      · rename_i fresh
        refine List.nodup_append.mpr ⟨table.distinct i, List.nodup_singleton key, ?_⟩
        rintro other found last isKey rfl
        rw [List.mem_singleton.mp isKey] at found
        exact fresh found
    · rw [if_neg bucket]
      exact table.distinct i

def del (table : Hashtable hash size α) (key : κ) : Hashtable hash size α where
  buckets i := if i = hash key % size then chainDel key (table.buckets i) else table.buckets i
  placed i other found := by
    split at found
    · rw [keys_chainDel] at found
      exact table.placed i other (List.mem_of_mem_erase found)
    · exact table.placed i other found
  distinct i := by
    split
    · rw [keys_chainDel]
      exact (table.distinct i).erase key
    · exact table.distinct i

/-- The entries in the order of a walk over the buckets. -/
def entries (table : Hashtable hash size α) : List (κ × α) :=
  (List.range size).flatMap table.buckets

@[simp] theorem get_empty (key : κ) : (empty : Hashtable hash size α).get key = none := rfl

theorem get_set (table : Hashtable hash size α) (key probe : κ) (value : α) :
    (table.set key value).get probe = if probe = key then some value else table.get probe := by
  by_cases bucket : hash probe % size = hash key % size
  · simp only [get, set, if_pos bucket, chainGet_set]
  · have other : probe ≠ key := fun same => bucket (by rw [same])
    simp only [get, set, if_neg bucket, if_neg other]

theorem get_del (table : Hashtable hash size α) (key probe : κ) :
    (table.del key).get probe = if probe = key then none else table.get probe := by
  by_cases bucket : hash probe % size = hash key % size
  · simp only [get, del, if_pos bucket, chainGet_del (table.distinct _)]
  · have other : probe ≠ key := fun same => bucket (by rw [same])
    simp only [get, del, if_neg bucket, if_neg other]

theorem mem_entries_iff (table : Hashtable hash size α) (positive : 0 < size) (key : κ) (value : α) :
    (key, value) ∈ table.entries ↔ table.get key = some value := by
  simp only [entries, List.mem_flatMap, List.mem_range, get]
  constructor
  · rintro ⟨i, -, found⟩
    have bucket : hash key % size = i := table.placed i key (List.mem_map_of_mem found)
    rw [bucket]
    exact (mem_chain_iff (table.distinct i) key value).mp found
  · intro found
    exact ⟨_, Nat.mod_lt _ positive, (mem_chain_iff (table.distinct _) key value).mpr found⟩

omit [DecidableEq κ] in
theorem entries_distinct (table : Hashtable hash size α) : (table.entries.map Prod.fst).Nodup := by
  rw [entries, List.map_flatMap, List.nodup_flatMap]
  refine ⟨fun i _ => table.distinct i, ?_⟩
  refine List.Pairwise.imp_of_mem ?_ (List.nodup_range)
  rintro i j - - different key inFirst inSecond
  exact different ((table.placed i key inFirst).symm.trans (table.placed j key inSecond))

end Hashtable

end Mrsh.Data

import Mrsh.Shell.State

namespace Mrsh

open Mrsh.Data

/-! # Hash tables in memory

The functions of `hashtable.c`, whose entries are linked by pointers. A table in
memory represents one of chains, and the chains are those of a finite map.
-/

/-- Values are pointers, which may be NULL. -/
structure HashtableEntry (α : Type) where
  hash : Nat
  key : Str
  value : Option α
  next : Option Nat
deriving DecidableEq

structure HashtableMemory (α : Type) where
  heap : Nat → Option (HashtableEntry α)
  nextAddress : Nat
  buckets : Nat → Option Nat

inductive HashtableFault where
  | outOfFuel
  | badAddress
deriving Repr, DecidableEq

abbrev InMemory (α β : Type) := Run HashtableFault (HashtableMemory α) β

/-- The number of buckets. -/
def mrshHashtableBuckets : Nat := 256

section

variable {α : Type}

namespace HashtableMemory

def empty : HashtableMemory α := ⟨fun _ => none, 0, fun _ => none⟩

def load (address : Nat) : InMemory α (HashtableEntry α) := do
  match ← Run.gets (·.heap address) with
  | some entry => pure entry
  | none => Run.stop .badAddress

def write (memory : HashtableMemory α) (address : Nat) (entry : Option (HashtableEntry α)) :
    HashtableMemory α :=
  { memory with heap := fun other => if other = address then entry else memory.heap other }

def store (address : Nat) (entry : HashtableEntry α) : InMemory α Unit := do
  let _ ← load address
  Run.modify (·.write address (some entry))

/-- `calloc`. An address is never used again. -/
def allocate (entry : HashtableEntry α) : InMemory α Nat := do
  let address ← Run.gets (·.nextAddress)
  Run.modify fun memory => { memory.write address (some entry) with nextAddress := address + 1 }
  pure address

def free (address : Nat) : InMemory α Unit := do
  let _ ← load address
  Run.modify (·.write address none)

def setBucket (bucket : Nat) (pointer : Option Nat) : InMemory α Unit :=
  Run.modify fun memory =>
    { memory with buckets := fun other => if other = bucket then pointer else memory.buckets other }

end HashtableMemory

open HashtableMemory

/-- The loop that looks for a key. The result is the entry before the one that
it stops at, and that entry, if there is one. -/
def findEntry (hash : Nat) (key : Str) : Nat → Option Nat → Option Nat → InMemory α (Option Nat × Option Nat)
  | 0, _, _ => Run.stop .outOfFuel
  | _ + 1, previous, none => pure (previous, none)
  | fuel + 1, previous, some address => do
      let entry ← load address
      if entry.hash == hash && entry.key == key then pure (previous, some address)
      else findEntry hash key fuel (some address) entry.next

/-- Looks for a key in its bucket, where no chain is longer than the number of entries
that were ever allocated. -/
def findKey (key : Str) : InMemory α (Option Nat × Option Nat) := do
  let fuel ← Run.gets (·.nextAddress + 1)
  let first ← Run.gets (·.buckets (djb2 key % mrshHashtableBuckets))
  findEntry (djb2 key) key fuel none first

/-- Makes the entry before point to another one, or the bucket if there is no entry before. -/
def linkAfter (previous : Option Nat) (bucket : Nat) (pointer : Option Nat) : InMemory α Unit :=
  match previous with
  | some address => do
      let entry ← load address
      store address { entry with next := pointer }
  | none => setBucket bucket pointer

def mrshHashtableGet (key : Str) : InMemory α (Option α) := do
  match ← findKey key with
  | (_, some address) => do
      let entry ← load address
      pure entry.value
  | (_, none) => pure none

def mrshHashtableSet (key : Str) (value : Option α) : InMemory α (Option α) := do
  let (previous, found) ← findKey key
  let address ← match found with
    | some address => pure address
    | none => do
        let address ← allocate { hash := djb2 key, key, value := none, next := none }
        linkAfter previous (djb2 key % mrshHashtableBuckets) (some address)
        pure address
  let entry ← load address
  store address { entry with value }
  pure entry.value

def mrshHashtableDel (key : Str) : InMemory α (Option α) := do
  match ← findKey key with
  | (_, none) => pure none
  | (previous, some address) => do
      let entry ← load address
      linkAfter previous (djb2 key % mrshHashtableBuckets) entry.next
      free address
      pure entry.value

section

variable {υ : Type} (iterator : Str → Option α → υ → Bool × υ)

/-- The walk over a bucket. The iterator says whether it deletes the key that it is called with. -/
def forEachEntry : Nat → Option Nat → υ → InMemory α υ
  | 0, _, _ => Run.stop .outOfFuel
  | _ + 1, none, userData => pure userData
  | fuel + 1, some address, userData => do
      let entry ← load address
      let (deletes, userData) := iterator entry.key entry.value userData
      if deletes then
        let _ ← mrshHashtableDel entry.key
      forEachEntry fuel entry.next userData

def forEachBucket : List Nat → υ → InMemory α υ
  | [], userData => pure userData
  | bucket :: buckets, userData => do
      let fuel ← Run.gets (·.nextAddress + 1)
      let first ← Run.gets (·.buckets bucket)
      let userData ← forEachEntry iterator fuel first userData
      forEachBucket buckets userData

def mrshHashtableForEach (userData : υ) : InMemory α υ :=
  forEachBucket iterator (List.range mrshHashtableBuckets) userData

end

/-! ## Chains in memory -/

/-- The entries from one pointer up to another. -/
def LinkedTo (heap : Nat → Option (HashtableEntry α)) : Option Nat → List (Str × Option α) → Option Nat → Prop
  | start, [], stop => start = stop
  | start, (key, value) :: chain, stop =>
      ∃ address next, start = some address ∧ heap address = some ⟨djb2 key, key, value, next⟩ ∧
        LinkedTo heap next chain stop

variable {heap heap' : Nat → Option (HashtableEntry α)} {start middle stop : Option Nat}
  {chain before after : List (Str × Option α)}

theorem linkedTo_append : LinkedTo heap start (before ++ after) stop ↔
    ∃ middle, LinkedTo heap start before middle ∧ LinkedTo heap middle after stop := by
  induction before generalizing start with
  | nil => simp [LinkedTo]
  | cons entry before ih =>
      obtain ⟨key, value⟩ := entry
      simp only [List.cons_append, LinkedTo, ih]
      constructor
      · rintro ⟨address, next, here, found, middle, first, second⟩
        exact ⟨middle, ⟨address, next, here, found, first⟩, second⟩
      · rintro ⟨middle, ⟨address, next, here, found, first⟩, second⟩
        exact ⟨address, next, here, found, middle, first, second⟩

theorem LinkedTo.frame (linked : LinkedTo heap start chain stop)
    (same : ∀ address entry, heap address = some entry → entry.key ∈ chain.map Prod.fst →
      heap' address = some entry) : LinkedTo heap' start chain stop := by
  induction chain generalizing start with
  | nil => exact linked
  | cons entry chain ih =>
      obtain ⟨key, value⟩ := entry
      obtain ⟨address, next, here, found, rest⟩ := linked
      refine ⟨address, next, here, same _ _ found List.mem_cons_self, ih rest ?_⟩
      intro other entry foundEntry member
      exact same other entry foundEntry (List.mem_cons_of_mem _ member)

/-- The pointer to the end of a segment is that of its last entry, or its start if it is empty. -/
def LastLink (heap : Nat → Option (HashtableEntry α)) (start previous stop last : Option Nat)
    (chain : List (Str × Option α)) : Prop :=
  (chain = [] ∧ last = previous) ∨
    ∃ init key value address, chain = init ++ [(key, value)] ∧ last = some address ∧
      LinkedTo heap start init (some address) ∧ heap address = some ⟨djb2 key, key, value, stop⟩

theorem findEntry_skips {memory : HashtableMemory α} (key : Str) (before : List (Str × Option α)) (fuel : Nat)
    (previous : Option Nat) (linked : LinkedTo memory.heap start before middle)
    (absent : key ∉ before.map Prod.fst) :
    ∃ last, findEntry (djb2 key) key (fuel + before.length) previous start memory =
        findEntry (djb2 key) key fuel last middle memory ∧
      LastLink memory.heap start previous middle last before := by
  induction before generalizing start previous with
  | nil =>
      obtain rfl : start = middle := linked
      exact ⟨previous, rfl, .inl ⟨rfl, rfl⟩⟩
  | cons entry before ih =>
      obtain ⟨other, value⟩ := entry
      obtain ⟨address, next, rfl, found, rest⟩ := linked
      simp only [List.map_cons, List.mem_cons, not_or] at absent
      obtain ⟨last, reached, lastLink⟩ := ih (some address) rest absent.2
      have loaded : load address memory = .done ⟨djb2 other, other, value, next⟩ memory := by
        simp [load, found]
      have different : ¬ (djb2 other == djb2 key && other == key) = true := by
        simp [Ne.symm absent.1]
      refine ⟨last, ?_, ?_⟩
      · rw [List.length_cons, ← Nat.add_assoc, findEntry, Run.bind_of_done loaded, if_neg different]
        exact reached
      · rcases lastLink with ⟨rfl, rfl⟩ | ⟨init, lastKey, lastValue, lastAddress, rfl, rfl, linked, lastFound⟩
        · obtain rfl : next = middle := rest
          exact .inr ⟨[], other, value, address, rfl, rfl, rfl, found⟩
        · exact .inr ⟨(other, value) :: init, lastKey, lastValue, lastAddress, rfl, rfl,
            ⟨address, next, rfl, found, linked⟩, lastFound⟩

/-! ## Tables in memory -/

/-- The chains of the table are in memory, and no chain is too long for the loops. -/
structure Represents (memory : HashtableMemory α) (table : Table (Option α)) : Prop where
  linked : ∀ bucket, LinkedTo memory.heap (memory.buckets bucket) (table.buckets bucket) none
  fresh : ∀ address, memory.nextAddress ≤ address → memory.heap address = none
  short : ∀ bucket, (table.buckets bucket).length ≤ memory.nextAddress

theorem represents_empty : Represents (HashtableMemory.empty : HashtableMemory α) Hashtable.empty where
  linked _ := rfl
  fresh _ _ := rfl
  short _ := Nat.le_refl 0

theorem load_done {memory : HashtableMemory α} {address : Nat} {entry : HashtableEntry α}
    (found : memory.heap address = some entry) : load address memory = .done entry memory := by
  simp [load, found]

theorem store_done {memory : HashtableMemory α} {address : Nat} {old : HashtableEntry α}
    (found : memory.heap address = some old) (entry : HashtableEntry α) :
    store address entry memory = .done () (memory.write address (some entry)) := by
  rw [store, Run.bind_of_done (load_done found), Run.modify_apply]

theorem free_done {memory : HashtableMemory α} {address : Nat} {old : HashtableEntry α}
    (found : memory.heap address = some old) :
    free address memory = .done () (memory.write address none) := by
  rw [free, Run.bind_of_done (load_done found), Run.modify_apply]

theorem findKey_absent {memory : HashtableMemory α} {table : Table (Option α)} (represents : Represents memory table)
    {key : Str} (absent : key ∉ (table.buckets (djb2 key % 256)).map Prod.fst) :
    ∃ last, findKey key memory = .done (last, none) memory ∧
      LastLink memory.heap (memory.buckets (djb2 key % 256)) none none last (table.buckets (djb2 key % 256)) := by
  have enough := represents.short (djb2 key % 256)
  obtain ⟨fuel, fuelEq⟩ : ∃ fuel, memory.nextAddress + 1 = fuel + 1 + (table.buckets (djb2 key % 256)).length :=
    ⟨memory.nextAddress - (table.buckets (djb2 key % 256)).length, by omega⟩
  obtain ⟨last, reached, lastLink⟩ := findEntry_skips key _ (fuel + 1) none (represents.linked (djb2 key % 256)) absent
  refine ⟨last, ?_, lastLink⟩
  simp only [findKey, Run.bind_apply, Run.gets_apply, Outcome.andThen_done, fuelEq]
  exact reached

theorem findKey_present {memory : HashtableMemory α} {table : Table (Option α)} (represents : Represents memory table)
    {key : Str} {value : Option α} (chain : table.buckets (djb2 key % 256) = before ++ (key, value) :: after)
    (absent : key ∉ before.map Prod.fst) :
    ∃ last address next, findKey key memory = .done (last, some address) memory ∧
      memory.heap address = some ⟨djb2 key, key, value, next⟩ ∧
      LinkedTo memory.heap (memory.buckets (djb2 key % 256)) before (some address) ∧
      LinkedTo memory.heap next after none ∧
      LastLink memory.heap (memory.buckets (djb2 key % 256)) none (some address) last before := by
  have linked := represents.linked (djb2 key % 256)
  have enough := represents.short (djb2 key % 256)
  rw [chain] at linked enough
  rw [List.length_append, List.length_cons] at enough
  obtain ⟨middle, first, address, next, rfl, found, rest⟩ := linkedTo_append.mp linked
  obtain ⟨fuel, fuelEq⟩ : ∃ fuel, memory.nextAddress + 1 = fuel + 1 + before.length :=
    ⟨memory.nextAddress - before.length, by omega⟩
  obtain ⟨last, reached, lastLink⟩ := findEntry_skips key before (fuel + 1) none first absent
  refine ⟨last, address, next, ?_, found, first, rest, lastLink⟩
  simp only [findKey, Run.bind_apply, Run.gets_apply, Outcome.andThen_done, fuelEq]
  apply reached.trans
  rw [findEntry, Run.bind_of_done (load_done found), if_pos (by simp)]
  rfl

/-- Only the chain of one bucket was written to. -/
structure Touches (bucket : Nat) (memory memory' : HashtableMemory α) : Prop where
  heap : ∀ address entry, memory.heap address = some entry → djb2 entry.key % 256 ≠ bucket →
    memory'.heap address = some entry
  buckets : ∀ other, other ≠ bucket → memory'.buckets other = memory.buckets other

theorem Touches.trans {bucket : Nat} {first second third : HashtableMemory α} (one : Touches bucket first second)
    (two : Touches bucket second third) : Touches bucket first third where
  heap address entry found elsewhere := two.heap address entry (one.heap address entry found elsewhere) elsewhere
  buckets other different := (two.buckets other different).trans (one.buckets other different)

theorem Represents.touch {memory memory' : HashtableMemory α} {table table' : Table (Option α)} {bucket : Nat}
    (represents : Represents memory table) (touches : Touches bucket memory memory')
    (linked : LinkedTo memory'.heap (memory'.buckets bucket) (table'.buckets bucket) none)
    (others : ∀ other, other ≠ bucket → table'.buckets other = table.buckets other)
    (fresh : ∀ address, memory'.nextAddress ≤ address → memory'.heap address = none)
    (older : memory.nextAddress ≤ memory'.nextAddress)
    (short : (table'.buckets bucket).length ≤ memory'.nextAddress) : Represents memory' table' where
  linked other := by
    by_cases here : other = bucket
    · subst here
      exact linked
    · rw [others other here, touches.buckets other here]
      apply (represents.linked other).frame
      intro address entry found member
      have placed := table.placed other entry.key member
      exact touches.heap address entry found (by rw [placed]; exact here)
  fresh := fresh
  short other := by
    by_cases here : other = bucket
    · subst here
      exact short
    · rw [others other here]
      exact Nat.le_trans (represents.short other) older

theorem touches_write {memory : HashtableMemory α} {address : Nat} {bucket : Nat}
    (here : ∀ entry, memory.heap address = some entry → djb2 entry.key % 256 = bucket)
    (entry : Option (HashtableEntry α)) : Touches bucket memory (memory.write address entry) where
  heap other old found elsewhere := by
    have different : other ≠ address := by
      rintro rfl
      exact elsewhere (here old found)
    simp [HashtableMemory.write, different, found]
  buckets _ _ := rfl

theorem write_other {memory : HashtableMemory α} {address other : Nat} {here old : HashtableEntry α}
    (found : memory.heap address = some here) (foundOther : memory.heap other = some old)
    (different : old.key ≠ here.key)
    (entry : Option (HashtableEntry α)) : (memory.write address entry).heap other = some old := by
  have elsewhere : other ≠ address := by
    rintro rfl
    rw [found] at foundOther
    cases foundOther
    exact different rfl
  simp [HashtableMemory.write, elsewhere, foundOther]

theorem write_none {memory : HashtableMemory α} {address other : Nat} {here : HashtableEntry α}
    (found : memory.heap address = some here) (absent : memory.heap other = none)
    (entry : Option (HashtableEntry α)) : (memory.write address entry).heap other = none := by
  have elsewhere : other ≠ address := by
    rintro rfl
    rw [found] at absent
    cases absent
  simp [HashtableMemory.write, elsewhere, absent]

theorem linkAfter_done {memory : HashtableMemory α} {bucket : Nat} {last pointer : Option Nat}
    (linked : LinkedTo memory.heap (memory.buckets bucket) before stop)
    (lastLink : LastLink memory.heap (memory.buckets bucket) none stop last before)
    (distinct : (before.map Prod.fst).Nodup) (placed : ∀ key ∈ before.map Prod.fst, djb2 key % 256 = bucket) :
    ∃ memory', linkAfter last bucket pointer memory = .done () memory' ∧
      LinkedTo memory'.heap (memory'.buckets bucket) before pointer ∧ Touches bucket memory memory' ∧
      memory'.nextAddress = memory.nextAddress ∧
      (∀ address entry, memory.heap address = some entry → entry.key ∉ before.map Prod.fst →
        memory'.heap address = some entry) ∧
      ∀ address, memory.heap address = none → memory'.heap address = none := by
  rcases lastLink with ⟨rfl, rfl⟩ | ⟨init, key, value, address, rfl, rfl, initLinked, found⟩
  · refine ⟨_, rfl, ?_, ⟨fun _ _ found _ => found, fun other different => ?_⟩, rfl, fun _ _ found _ => found,
      fun _ absent => absent⟩
    · exact if_pos rfl
    · exact if_neg different
  · have keyHere : djb2 key % 256 = bucket := placed key (by simp)
    rw [List.map_append, List.nodup_append] at distinct
    obtain ⟨_, _, apart⟩ := distinct
    have keyAbsent : key ∉ init.map Prod.fst := fun member => apart key member key (by simp) rfl
    let entry : HashtableEntry α := ⟨djb2 key, key, value, pointer⟩
    refine ⟨memory.write address (some entry), ?_, ?_, ?_, rfl, ?_, ?_⟩
    · rw [linkAfter, Run.bind_of_done (load_done found), store_done found]
    · refine linkedTo_append.mpr ⟨some address, ?_, address, pointer, rfl, if_pos rfl, rfl⟩
      refine initLinked.frame fun other old foundOther member => write_other found foundOther ?_ _
      rintro rfl
      exact keyAbsent member
    · refine touches_write (fun old foundOld => ?_) _
      rw [found] at foundOld
      cases foundOld
      exact keyHere
    · intro other old foundOther notMember
      refine write_other found foundOther ?_ _
      rintro rfl
      simp at notMember
    · exact fun other absent => write_none found absent _

theorem LastLink.frame {last previous : Option Nat} (lastLink : LastLink heap start previous stop last chain)
    (same : ∀ address entry, heap address = some entry → heap' address = some entry) :
    LastLink heap' start previous stop last chain := by
  rcases lastLink with atStart | ⟨init, key, value, address, split, here, linked, found⟩
  · exact .inl atStart
  · exact .inr ⟨init, key, value, address, split, here, linked.frame fun other entry found _ => same other entry found,
      same _ _ found⟩

section

variable {memory : HashtableMemory α} {table : Table (Option α)} (represents : Represents memory table)
include represents

omit represents in
theorem get_eq_some {key : Str} {value : Option α} {before after : List (Str × Option α)}
    (chain : table.buckets (djb2 key % 256) = before ++ (key, value) :: after) (absent : key ∉ before.map Prod.fst) :
    table.get key = some value := by
  rw [Hashtable.get, chain, chainGet_place absent]

omit represents in
theorem get_eq_none {key : Str} (absent : key ∉ (table.buckets (djb2 key % 256)).map Prod.fst) :
    table.get key = none := by
  rw [← Option.not_isSome_iff_eq_none, Hashtable.get, chainGet_isSome]
  exact absent

theorem Represents.get (key : Str) :
    mrshHashtableGet key memory = .done (table.get key).join memory := by
  by_cases member : key ∈ (table.buckets (djb2 key % 256)).map Prod.fst
  · obtain ⟨before, value, after, chain, absent⟩ := chain_place member
    obtain ⟨last, address, next, found, entry, _⟩ := findKey_present represents chain absent
    rw [mrshHashtableGet, Run.bind_of_done found, get_eq_some chain absent]
    exact Run.bind_of_done (load_done entry)
  · obtain ⟨last, found, _⟩ := findKey_absent represents member
    rw [mrshHashtableGet, Run.bind_of_done found, get_eq_none member]
    rfl

omit represents in
theorem set_other (key : Str) (value : Option α) :
    ∀ other, other ≠ djb2 key % 256 → (table.set key value).buckets other = table.buckets other :=
  fun _ different => if_neg different

omit represents in
theorem set_bucket (key : Str) (value : Option α) :
    (table.set key value).buckets (djb2 key % 256) = chainSet key value (table.buckets (djb2 key % 256)) := if_pos rfl

theorem Represents.set_present {key : Str} (value : Option α)
    (member : key ∈ (table.buckets (djb2 key % 256)).map Prod.fst) :
    ∃ memory', mrshHashtableSet key value memory = .done (table.get key).join memory' ∧
      Represents memory' (table.set key value) := by
  obtain ⟨before, old, after, chain, absent⟩ := chain_place member
  obtain ⟨last, address, next, found, entry, first, rest, _⟩ := findKey_present represents chain absent
  have distinct := table.distinct (djb2 key % 256)
  have short := represents.short (djb2 key % 256)
  rw [chain] at distinct short
  have afterAbsent : key ∉ after.map Prod.fst := by
    rw [List.map_append, List.map_cons, List.nodup_append, List.nodup_cons] at distinct
    exact distinct.2.1.1
  refine ⟨memory.write address (some ⟨djb2 key, key, value, next⟩), ?_, ?_⟩
  · have stored := store_done entry ⟨djb2 key, key, value, next⟩
    rw [mrshHashtableSet, Run.bind_of_done found, get_eq_some chain absent]
    simp only [Run.bind_apply, Run.pure_apply, Outcome.andThen_done, load_done entry, stored]
    rfl
  · refine represents.touch (touches_write (fun old foundOld => ?_) _) ?_ (set_other key value) ?_ (Nat.le_refl _) ?_
    · rw [entry] at foundOld
      cases foundOld
      rfl
    · rw [set_bucket, chain, chainSet_place absent]
      refine linkedTo_append.mpr ⟨some address, ?_, address, next, rfl, if_pos rfl, ?_⟩
      · refine first.frame fun other old foundOther inBefore => write_other entry foundOther ?_ _
        rintro rfl
        exact absent inBefore
      · refine rest.frame fun other old foundOther inAfter => write_other entry foundOther ?_ _
        rintro rfl
        exact afterAbsent inAfter
    · exact fun other high => write_none entry (represents.fresh other high) _
    · rw [set_bucket, chain, chainSet_place absent]
      change (before ++ (key, value) :: after).length ≤ memory.nextAddress
      simpa using short

theorem Represents.set_absent {key : Str} (value : Option α)
    (member : key ∉ (table.buckets (djb2 key % 256)).map Prod.fst) :
    ∃ memory', mrshHashtableSet key value memory = .done (table.get key).join memory' ∧
      Represents memory' (table.set key value) := by
  obtain ⟨last, found, lastLink⟩ := findKey_absent represents member
  let address := memory.nextAddress
  let allocated : HashtableMemory α :=
    { memory.write address (some ⟨djb2 key, key, none, none⟩) with nextAddress := address + 1 }
  have kept : ∀ other entry, memory.heap other = some entry → allocated.heap other = some entry := by
    intro other entry foundOther
    have elsewhere : other ≠ address := by
      rintro rfl
      rw [represents.fresh address (Nat.le_refl _)] at foundOther
      cases foundOther
    simp [allocated, HashtableMemory.write, elsewhere, foundOther]
  have here : allocated.heap address = some ⟨djb2 key, key, none, none⟩ := if_pos rfl
  have linked : LinkedTo allocated.heap (allocated.buckets (djb2 key % 256))
      (table.buckets (djb2 key % 256)) none :=
    (represents.linked _).frame fun other entry foundOther _ => kept other entry foundOther
  obtain ⟨between, linkedRun, linkedBefore, touches, next, keptBetween, absentBetween⟩ :=
    @linkAfter_done α none _ allocated (djb2 key % 256) last (some address) linked (lastLink.frame kept)
      (table.distinct _) (table.placed _)
  have hereBetween := keptBetween address _ here member
  have stored := store_done hereBetween ⟨djb2 key, key, value, none⟩
  refine ⟨between.write address (some ⟨djb2 key, key, value, none⟩), ?_, ?_⟩
  · have added : allocate ⟨djb2 key, key, none, none⟩ memory = .done address allocated := rfl
    have stored_ : (do
        let entry ← load address
        store address { entry with value }
        pure entry.value : InMemory α (Option α)) between =
        .done none (between.write address (some ⟨djb2 key, key, value, none⟩)) :=
      (Run.bind_of_done (load_done hereBetween)).trans (Run.bind_of_done stored)
    rw [mrshHashtableSet, Run.bind_of_done found, get_eq_none member]
    change (allocate _ >>= _) memory = _
    rw [Run.bind_of_done added]
    change (linkAfter last (djb2 key % 256) (some address) >>= _) allocated = _
    rw [Run.bind_of_done linkedRun]
    exact stored_
  · have touched : Touches (djb2 key % 256) memory (between.write address (some ⟨djb2 key, key, value, none⟩)) := by
      refine Touches.trans ⟨fun other entry foundOther _ => kept other entry foundOther, fun _ _ => rfl⟩
        (touches.trans (touches_write (fun old foundOld => ?_) _))
      rw [hereBetween] at foundOld
      cases foundOld
      rfl
    have longer : between.nextAddress = memory.nextAddress + 1 := next
    have short := represents.short (djb2 key % 256)
    refine represents.touch touched ?_ (set_other key value) ?_ ?_ ?_
    · rw [set_bucket, chainSet_absent member]
      refine linkedTo_append.mpr ⟨some address, ?_, address, none, rfl, if_pos rfl, rfl⟩
      refine linkedBefore.frame fun other old foundOther inChain => write_other hereBetween foundOther ?_ _
      rintro rfl
      exact member inChain
    · intro other high
      refine write_none hereBetween (absentBetween other ?_) _
      have above : memory.nextAddress + 1 ≤ other := longer ▸ high
      have elsewhere : other ≠ address := by omega
      simpa [allocated, HashtableMemory.write, elsewhere] using represents.fresh other (by omega)
    · exact longer ▸ Nat.le_succ _
    · rw [set_bucket, chainSet_absent member, List.length_append, List.length_singleton]
      exact longer ▸ Nat.succ_le_succ short

theorem Represents.set (key : Str) (value : Option α) :
    ∃ memory', mrshHashtableSet key value memory = .done (table.get key).join memory' ∧
      Represents memory' (table.set key value) := by
  by_cases member : key ∈ (table.buckets (djb2 key % 256)).map Prod.fst
  · exact represents.set_present value member
  · exact represents.set_absent value member

theorem Represents.del_entry {key : Str} {value : Option α}
    (chain : table.buckets (djb2 key % 256) = before ++ (key, value) :: after) :
    ∃ memory', mrshHashtableDel key memory = .done value memory' ∧ Represents memory' (table.del key) ∧
      ∀ address entry, memory.heap address = some entry → entry.key ∈ after.map Prod.fst →
        memory'.heap address = some entry := by
  have delBucket : (table.del key).buckets (djb2 key % 256) = chainDel key (table.buckets (djb2 key % 256)) :=
    if_pos rfl
  have distinct := table.distinct (djb2 key % 256)
  have placed := table.placed (djb2 key % 256)
  have short := represents.short (djb2 key % 256)
  rw [chain, List.map_append, List.map_cons] at distinct placed
  rw [chain, List.length_append, List.length_cons] at short
  rw [List.nodup_append, List.nodup_cons] at distinct
  obtain ⟨beforeDistinct, ⟨afterAbsent, _⟩, apart⟩ := distinct
  have absent : key ∉ before.map Prod.fst := fun inBefore => apart key inBefore key List.mem_cons_self rfl
  obtain ⟨last, address, next, found, entry, first, rest, lastLink⟩ := findKey_present represents chain absent
  obtain ⟨between, linkedRun, linkedBefore, touches, sameNext, kept, absentBetween⟩ :=
    @linkAfter_done α (some address) before memory (djb2 key % 256) last next first lastLink beforeDistinct
      fun other inBefore => placed other (List.mem_append_left _ inBefore)
  have hereBetween := kept address _ entry absent
  have keptAfter : ∀ other old, memory.heap other = some old → old.key ∈ after.map Prod.fst →
      between.heap other = some old := by
    refine fun other old foundOther inAfter => kept other old foundOther fun inBefore => ?_
    exact apart old.key inBefore old.key (List.mem_cons_of_mem _ inAfter) rfl
  have freed : ∀ other old, between.heap other = some old → old.key ∈ after.map Prod.fst →
      (between.write address none).heap other = some old := by
    refine fun other old foundOther inAfter => write_other hereBetween foundOther ?_ _
    rintro rfl
    exact afterAbsent inAfter
  refine ⟨between.write address none, ?_, ?_, ?_⟩
  · rw [mrshHashtableDel, Run.bind_of_done found]
    change (load address >>= _) memory = _
    rw [Run.bind_of_done (load_done entry)]
    change (linkAfter last (djb2 key % 256) next >>= _) memory = _
    rw [Run.bind_of_done linkedRun]
    exact Run.bind_of_done (free_done hereBetween)
  · refine represents.touch (touches.trans (touches_write (fun old foundOld => ?_) _)) ?_
      (fun other different => if_neg different) ?_ (Nat.le_of_eq sameNext.symm) ?_
    · rw [hereBetween] at foundOld
      cases foundOld
      rfl
    · rw [delBucket, chain, chainDel_place absent]
      refine linkedTo_append.mpr ⟨next, ?_, (rest.frame keptAfter).frame freed⟩
      refine linkedBefore.frame fun other old foundOther inBefore => write_other hereBetween foundOther ?_ _
      rintro rfl
      exact absent inBefore
    · intro other high
      refine write_none hereBetween (absentBetween other (represents.fresh other ?_)) _
      exact sameNext ▸ high
    · rw [delBucket, chain, chainDel_place absent, List.length_append]
      change before.length + after.length ≤ between.nextAddress
      omega
  · exact fun other old foundOther inAfter => freed other old (keptAfter other old foundOther inAfter) inAfter

theorem Represents.del (key : Str) :
    ∃ memory', mrshHashtableDel key memory = .done (table.get key).join memory' ∧
      Represents memory' (table.del key) := by
  by_cases member : key ∈ (table.buckets (djb2 key % 256)).map Prod.fst
  · obtain ⟨before, value, after, chain, absent⟩ := chain_place member
    obtain ⟨memory', deleted, represents', _⟩ := represents.del_entry chain
    rw [get_eq_some chain absent]
    exact ⟨memory', deleted, represents'⟩
  · obtain ⟨last, found, _⟩ := findKey_absent represents member
    have got : table.get key = none := get_eq_none member
    have delBucket : (table.del key).buckets (djb2 key % 256) = table.buckets (djb2 key % 256) :=
      (if_pos rfl).trans (chainDel_absent member)
    refine ⟨memory, ?_, ?_⟩
    · rw [mrshHashtableDel, Run.bind_of_done found, got]
      rfl
    · refine represents.touch ⟨fun _ _ found _ => found, fun _ _ => rfl⟩ ?_ (fun other different => if_neg different)
        represents.fresh (Nat.le_refl _) ?_
      · rw [delBucket]
        exact represents.linked _
      · rw [delBucket]
        exact represents.short _

end

/-! ## The walk over a table -/

section

variable {υ : Type} (iterator : Str → Option α → υ → Bool × υ)

/-- Calls the iterator with the entries and deletes the keys that it says. -/
def walk : List (Str × Option α) → Table (Option α) → υ → Table (Option α) × υ
  | [], table, userData => (table, userData)
  | (key, value) :: entries, table, userData =>
      let (deletes, userData) := iterator key value userData
      walk entries (if deletes then table.del key else table) userData

theorem walk_append (first second : List (Str × Option α)) (table : Table (Option α)) (userData : υ) :
    walk iterator (first ++ second) table userData =
      walk iterator second (walk iterator first table userData).1 (walk iterator first table userData).2 := by
  induction first generalizing table userData with
  | nil => rfl
  | cons entry first ih => exact ih _ _

theorem walk_other {bucket other : Nat} (entries : List (Str × Option α)) (table : Table (Option α)) (userData : υ)
    (placed : ∀ key ∈ entries.map Prod.fst, djb2 key % 256 = bucket) (different : other ≠ bucket) :
    (walk iterator entries table userData).1.buckets other = table.buckets other := by
  induction entries generalizing table userData with
  | nil => rfl
  | cons entry entries ih =>
      rw [List.map_cons, List.forall_mem_cons] at placed
      rw [walk, ih _ _ placed.2]
      split
      · exact if_neg (placed.1 ▸ different)
      · rfl

theorem forEachEntry_walks {memory : HashtableMemory α} {table : Table (Option α)} {bucket : Nat}
    (represents : Represents memory table) (rest : List (Str × Option α))
    (chain : table.buckets bucket = before ++ rest) (linked : LinkedTo memory.heap start rest none) (fuel : Nat)
    (enough : rest.length < fuel) (userData : υ) :
    ∃ memory', forEachEntry iterator fuel start userData memory =
        .done (walk iterator rest table userData).2 memory' ∧
      Represents memory' (walk iterator rest table userData).1 := by
  induction rest generalizing memory table before start fuel userData with
  | nil =>
      obtain ⟨fuel, rfl⟩ : ∃ more, fuel = more + 1 := ⟨fuel - 1, by simp at enough; omega⟩
      obtain rfl : start = none := linked
      exact ⟨memory, rfl, represents⟩
  | cons entry rest ih =>
      obtain ⟨key, value⟩ := entry
      obtain ⟨fuel, rfl⟩ : ∃ more, fuel = more + 1 := ⟨fuel - 1, by simp at enough; omega⟩
      obtain ⟨address, next, rfl, found, linkedRest⟩ := linked
      have enoughRest : rest.length < fuel := by simpa using enough
      have here : djb2 key % 256 = bucket := table.placed bucket key (by rw [chain]; simp)
      subst here
      rw [forEachEntry, Run.bind_of_done (load_done found), walk]
      cases deletes : (iterator key value userData).1 with
      | false =>
          have chainRest : table.buckets (djb2 key % 256) = (before ++ [(key, value)]) ++ rest := by simp [chain]
          simpa [deletes] using ih represents chainRest linkedRest fuel enoughRest (iterator key value userData).2
      | true =>
          obtain ⟨between, deleted, representsRest, kept⟩ := represents.del_entry chain
          have distinct := table.distinct (djb2 key % 256)
          rw [chain, List.map_append, List.map_cons, List.nodup_append] at distinct
          have absent : key ∉ before.map Prod.fst := fun inBefore =>
            distinct.2.2 key inBefore key List.mem_cons_self rfl
          have chainRest : (table.del key).buckets (djb2 key % 256) = before ++ rest := by
            apply (if_pos rfl).trans
            rw [chain, chainDel_place absent]
          obtain ⟨memory', walked, representsEnd⟩ := ih representsRest chainRest (linkedRest.frame kept) fuel enoughRest
            (iterator key value userData).2
          refine ⟨memory', ?_, by simpa [deletes] using representsEnd⟩
          simp only [deletes, if_true]
          exact (Run.bind_of_done deleted).trans walked

theorem forEachBucket_walks {memory : HashtableMemory α} {table : Table (Option α)}
    (represents : Represents memory table) (buckets : List Nat) (distinct : buckets.Nodup) (userData : υ) :
    ∃ memory', forEachBucket iterator buckets userData memory =
        .done (walk iterator (buckets.flatMap table.buckets) table userData).2 memory' ∧
      Represents memory' (walk iterator (buckets.flatMap table.buckets) table userData).1 := by
  induction buckets generalizing memory table userData with
  | nil => exact ⟨memory, rfl, represents⟩
  | cons bucket buckets ih =>
      rw [List.nodup_cons] at distinct
      have enough := represents.short bucket
      obtain ⟨between, walked, representsBetween⟩ := forEachEntry_walks iterator represents (table.buckets bucket)
        (List.nil_append _).symm (represents.linked bucket) (memory.nextAddress + 1) (by omega) userData
      have others : buckets.flatMap (walk iterator (table.buckets bucket) table userData).1.buckets =
          buckets.flatMap table.buckets := by
        apply List.flatMap_congr
        intro other member
        apply walk_other iterator _ table userData (table.placed bucket)
        rintro rfl
        exact distinct.1 member
      obtain ⟨memory', walkedRest, representsEnd⟩ := ih representsBetween distinct.2
        (walk iterator (table.buckets bucket) table userData).2
      rw [others] at walkedRest representsEnd
      rw [List.flatMap_cons, walk_append]
      refine ⟨memory', ?_, representsEnd⟩
      rw [forEachBucket, Run.gets_bind, Run.gets_bind, Run.bind_of_done walked]
      exact walkedRest

end

/-! ## Runs -/

/-- A call of one of the functions that look for a key. -/
inductive HashtableCall (α : Type) where
  | get (key : Str)
  | set (key : Str) (value : Option α)
  | del (key : Str)

/-- Finite maps from strings to values, which may be NULL. -/
abbrev FiniteMap (α : Type) := Str → Option (Option α)

namespace HashtableCall

def run : HashtableCall α → InMemory α (Option α)
  | .get key => mrshHashtableGet key
  | .set key value => mrshHashtableSet key value
  | .del key => mrshHashtableDel key

def runAll : List (HashtableCall α) → InMemory α (List (Option α))
  | [] => pure []
  | call :: calls => do
      let reply ← call.run
      let replies ← runAll calls
      pure (reply :: replies)

def key : HashtableCall α → Str
  | .get key => key
  | .set key _ => key
  | .del key => key

/-- What the call does to a finite map. It returns the value of the key before, NULL if there is none. -/
def onMap (call : HashtableCall α) (map : FiniteMap α) : FiniteMap α :=
  match call with
  | .get _ => map
  | .set key value => Function.update map key (some value)
  | .del key => Function.update map key none

def repliesOnMap : List (HashtableCall α) → FiniteMap α → List (Option α)
  | [], _ => []
  | call :: calls, map => (map call.key).join :: repliesOnMap calls (call.onMap map)

def allOnMap (calls : List (HashtableCall α)) (map : FiniteMap α) : FiniteMap α :=
  calls.foldl (fun map call => call.onMap map) map

theorem run_represents {memory : HashtableMemory α} {table : Table (Option α)} (represents : Represents memory table)
    (call : HashtableCall α) :
    ∃ memory' table', call.run memory = .done (table.get call.key).join memory' ∧ Represents memory' table' ∧
      table'.get = call.onMap table.get := by
  cases call with
  | get key => exact ⟨memory, table, represents.get key, represents, rfl⟩
  | set key value =>
      obtain ⟨memory', done, represents'⟩ := represents.set key value
      refine ⟨memory', table.set key value, done, represents', funext fun other => ?_⟩
      rw [Hashtable.get_set, onMap, Function.update_apply]
  | del key =>
      obtain ⟨memory', done, represents'⟩ := represents.del key
      refine ⟨memory', table.del key, done, represents', funext fun other => ?_⟩
      rw [Hashtable.get_del, onMap, Function.update_apply]

theorem runAll_represents {memory : HashtableMemory α} {table : Table (Option α)} (represents : Represents memory table)
    (calls : List (HashtableCall α)) :
    ∃ memory' table', runAll calls memory = .done (repliesOnMap calls table.get) memory' ∧
      Represents memory' table' ∧ table'.get = allOnMap calls table.get := by
  induction calls generalizing memory table with
  | nil => exact ⟨memory, table, rfl, represents, rfl⟩
  | cons call calls ih =>
      obtain ⟨between, tableBetween, done, representsBetween, map⟩ := run_represents represents call
      obtain ⟨memory', table', doneRest, represents', mapRest⟩ := ih representsBetween
      rw [map] at doneRest mapRest
      refine ⟨memory', table', ?_, represents', mapRest⟩
      rw [runAll, Run.bind_of_done done, Run.bind_of_done doneRest]
      rfl

end HashtableCall

/-- The entries that can be reached from a pointer. -/
inductive EntryReached (heap : Nat → Option (HashtableEntry α)) : Option Nat → Nat → Prop where
  | here (address : Nat) : EntryReached heap (some address) address
  | next {address other : Nat} {entry : HashtableEntry α} (found : heap address = some entry)
      (rest : EntryReached heap entry.next other) : EntryReached heap (some address) other

theorem LinkedTo.entry_of_reaches (linked : LinkedTo heap start chain none) {address : Nat}
    (reaches : EntryReached heap start address) :
    ∃ key value next, heap address = some ⟨djb2 key, key, value, next⟩ ∧ (key, value) ∈ chain := by
  induction chain generalizing start with
  | nil =>
      obtain rfl : start = none := linked
      cases reaches
  | cons entry chain ih =>
      obtain ⟨key, value⟩ := entry
      obtain ⟨first, next, rfl, found, rest⟩ := linked
      cases reaches with
      | here => exact ⟨key, value, next, found, List.mem_cons_self⟩
      | next foundFirst reachesRest =>
          rw [found] at foundFirst
          cases foundFirst
          obtain ⟨otherKey, otherValue, otherNext, foundOther, member⟩ := ih rest reachesRest
          exact ⟨otherKey, otherValue, otherNext, foundOther, List.mem_cons_of_mem _ member⟩

theorem LinkedTo.reaches_of_mem (linked : LinkedTo heap start chain none) {key : Str} {value : Option α}
    (member : (key, value) ∈ chain) :
    ∃ address next, EntryReached heap start address ∧ heap address = some ⟨djb2 key, key, value, next⟩ := by
  induction chain generalizing start with
  | nil => cases member
  | cons entry chain ih =>
      obtain ⟨first, next, rfl, found, rest⟩ := linked
      rcases List.mem_cons.mp member with rfl | inRest
      · exact ⟨first, next, .here first, found⟩
      · obtain ⟨address, addressNext, reaches, foundAddress⟩ := ih rest inRest
        exact ⟨address, addressNext, .next found reaches, foundAddress⟩

theorem LinkedTo.unique (linked : LinkedTo heap start chain none) (distinct : (chain.map Prod.fst).Nodup)
    {first second : Nat} {one two : HashtableEntry α} (reachesFirst : EntryReached heap start first)
    (reachesSecond : EntryReached heap start second) (foundFirst : heap first = some one)
    (foundSecond : heap second = some two) (same : one.key = two.key) : first = second := by
  induction chain generalizing start with
  | nil =>
      obtain rfl : start = none := linked
      cases reachesFirst
  | cons entry chain ih =>
      obtain ⟨key, value⟩ := entry
      obtain ⟨address, next, rfl, found, rest⟩ := linked
      rw [List.map_cons, List.nodup_cons] at distinct
      have behind : ∀ other old, EntryReached heap next other → heap other = some old → old.key ≠ key := by
        rintro other old reaches foundOther rfl
        obtain ⟨otherKey, _, _, foundAgain, member⟩ := rest.entry_of_reaches reaches
        rw [foundOther] at foundAgain
        cases foundAgain
        have inChain : otherKey ∈ chain.map Prod.fst := List.mem_map_of_mem member
        exact distinct.1 inChain
      cases reachesFirst with
      | here =>
          rw [found] at foundFirst
          cases foundFirst
          cases reachesSecond with
          | here => rfl
          | next foundHere reachesRest =>
              rw [found] at foundHere
              cases foundHere
              exact absurd same.symm (behind second two reachesRest foundSecond)
      | next foundHere reachesRest =>
          rw [found] at foundHere
          cases foundHere
          cases reachesSecond with
          | here =>
              rw [found] at foundSecond
              cases foundSecond
              exact absurd same (behind first one reachesRest foundFirst)
          | next foundAgain reachesSecondRest =>
              rw [found] at foundAgain
              cases foundAgain
              exact ih rest distinct.2 reachesRest reachesSecondRest

/-- Each key of the map is in exactly one entry, which is in the bucket of its hash, and no other
key has an entry. -/
structure EntriesOf (memory : HashtableMemory α) (map : FiniteMap α) : Prop where
  present : ∀ key value, map key = some value → ∃ address next,
    EntryReached memory.heap (memory.buckets (djb2 key % 256)) address ∧
      memory.heap address = some ⟨djb2 key, key, value, next⟩
  placed : ∀ bucket address, EntryReached memory.heap (memory.buckets bucket) address → ∃ entry,
    memory.heap address = some entry ∧ entry.hash = djb2 entry.key ∧ djb2 entry.key % 256 = bucket ∧
      map entry.key = some entry.value
  unique : ∀ bucket bucket' address address' entry entry',
    EntryReached memory.heap (memory.buckets bucket) address →
      EntryReached memory.heap (memory.buckets bucket') address' →
      memory.heap address = some entry → memory.heap address' = some entry' → entry.key = entry'.key →
      address = address'

theorem Represents.entriesOf {memory : HashtableMemory α} {table : Table (Option α)}
    (represents : Represents memory table) : EntriesOf memory table.get where
  present key value got := by
    have member := (mem_chain_iff (table.distinct (djb2 key % 256)) key value).mpr got
    obtain ⟨address, next, reaches, found⟩ := (represents.linked (djb2 key % 256)).reaches_of_mem member
    exact ⟨address, next, reaches, found⟩
  placed bucket address reaches := by
    obtain ⟨key, value, next, found, member⟩ := (represents.linked bucket).entry_of_reaches reaches
    have here : djb2 key % 256 = bucket := table.placed bucket key (List.mem_map_of_mem member)
    refine ⟨⟨djb2 key, key, value, next⟩, found, rfl, here, ?_⟩
    subst here
    exact (mem_chain_iff (table.distinct _) key value).mp member
  unique bucket bucket' address address' entry entry' reaches reaches' found found' same := by
    have bucketOf : ∀ other location old, EntryReached memory.heap (memory.buckets other) location →
        memory.heap location = some old → djb2 old.key % 256 = other := by
      intro other location old reachesOther foundOther
      obtain ⟨key, value, next, foundAgain, member⟩ := (represents.linked other).entry_of_reaches reachesOther
      rw [foundOther] at foundAgain
      cases foundAgain
      exact table.placed other key (List.mem_map_of_mem member)
    have sameBucket : bucket = bucket' := by
      rw [← bucketOf bucket address entry reaches found, ← bucketOf bucket' address' entry' reaches' found', same]
    subst sameBucket
    exact (represents.linked bucket).unique (table.distinct bucket) reaches reaches' found found' same

/-- The keys that the iterator deletes while it is called with the entries. -/
def deletedKeys {υ : Type} (iterator : Str → Option α → υ → Bool × υ) : List (Str × Option α) → υ → List Str
  | [], _ => []
  | (key, value) :: entries, userData =>
      let (deletes, userData) := iterator key value userData
      if deletes then key :: deletedKeys iterator entries userData else deletedKeys iterator entries userData

theorem walk_get {υ : Type} (iterator : Str → Option α → υ → Bool × υ) (entries : List (Str × Option α))
    (table : Table (Option α)) (userData : υ) (key : Str) :
    (walk iterator entries table userData).1.get key =
      if key ∈ deletedKeys iterator entries userData then none else table.get key := by
  induction entries generalizing table userData with
  | nil => simp [walk, deletedKeys]
  | cons entry entries ih =>
      rw [walk, deletedKeys, ih]
      cases deletes : (iterator entry.1 entry.2 userData).1 with
      | false => simp [deletes]
      | true =>
          simp only [deletes, if_true, Hashtable.get_del, List.mem_cons]
          by_cases here : key = entry.1 <;> simp [here]

theorem walk_userData {υ : Type} (iterator : Str → Option α → υ → Bool × υ) (entries : List (Str × Option α))
    (table : Table (Option α)) (userData : υ) :
    (walk iterator entries table userData).2 =
      entries.foldl (fun userData entry => (iterator entry.1 entry.2 userData).2) userData := by
  induction entries generalizing table userData with
  | nil => rfl
  | cons entry entries ih => exact ih _ _

/-- A table that starts empty behaves as a finite map in every run, and a walk over it calls the
iterator once for each key, even if it deletes the key. -/
theorem hashtable_finiteMap (calls : List (HashtableCall α)) :
    ∃ memory, HashtableCall.runAll calls HashtableMemory.empty =
        .done (HashtableCall.repliesOnMap calls fun _ => none) memory ∧
      EntriesOf memory (HashtableCall.allOnMap calls fun _ => none) ∧
      ∀ {υ : Type} (iterator : Str → Option α → υ → Bool × υ) (userData : υ), ∃ entries memory',
        (entries.map Prod.fst).Nodup ∧
        (∀ key value, (key, value) ∈ entries ↔
          HashtableCall.allOnMap calls (fun _ => none) key = some value) ∧
        mrshHashtableForEach iterator userData memory =
          .done (entries.foldl (fun userData entry => (iterator entry.1 entry.2 userData).2) userData) memory' ∧
        EntriesOf memory' fun key => if key ∈ deletedKeys iterator entries userData then none
          else HashtableCall.allOnMap calls (fun _ => none) key := by
  obtain ⟨memory, table, replies, represents, map⟩ :=
    HashtableCall.runAll_represents (represents_empty : Represents (HashtableMemory.empty : HashtableMemory α) _) calls
  have emptyMap : (Hashtable.empty : Table (Option α)).get = fun _ => none := funext Hashtable.get_empty
  rw [emptyMap] at replies map
  rw [← map]
  refine ⟨memory, replies, represents.entriesOf, fun iterator userData => ?_⟩
  obtain ⟨memory', walked, represents'⟩ := forEachBucket_walks iterator represents (List.range 256)
    List.nodup_range userData
  refine ⟨table.entries, memory', table.entries_distinct, fun key value => table.mem_entries_iff (by decide) key value,
    ?_, ?_⟩
  · rw [← walk_userData iterator table.entries table userData]
    exact walked
  · have after := represents'.entriesOf
    have get : (walk iterator table.entries table userData).1.get = fun key =>
        if key ∈ deletedKeys iterator table.entries userData then none else table.get key :=
      funext fun key => walk_get iterator table.entries table userData key
    rw [← get]
    exact after

end

end Mrsh

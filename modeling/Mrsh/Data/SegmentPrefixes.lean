import Mathlib.Data.List.Basic

namespace Mrsh.Data

/-! # Replacing the prefixes of segments

A list is cut into segments by items that open one. A segment that begins with a mark may begin with
a prefix, which is replaced by one item. How far a prefix reaches is up to a reader, and a reader that
also looks at items that do not show in the list may miss some of the prefixes.
-/

variable {α : Type}

section

variable (opens marks : α → Bool) (read : List α → Option (α × Nat))

/-- The reader gives the item that replaces a mark, with as many items behind it as the number says. -/
def replacePrefixes (first : Bool) : Nat → List α → List α
  | _, [] => []
  | skip + 1, _ :: items => replacePrefixes false skip items
  | 0, item :: items =>
      match if first && marks item then read items else none with
      | some (replacement, taken) => replacement :: replacePrefixes false taken items
      | none => item :: replacePrefixes (opens item) 0 items

variable {opens marks read}

theorem replacePrefixes_skip (taken : Nat) (items : List α) :
    replacePrefixes opens marks read false taken items = replacePrefixes opens marks read false 0 (items.drop taken)
      := by
  induction items generalizing taken with
  | nil => cases taken <;> rfl
  | cons item items ih =>
      cases taken with
      | zero => rfl
      | succ taken => exact ih taken

theorem replacePrefixes_marked {first : Bool} {item replacement : α} {items : List α} {taken : Nat}
    (start : first = true) (marked : marks item = true) (found : read items = some (replacement, taken)) :
    replacePrefixes opens marks read first 0 (item :: items) =
      replacement :: replacePrefixes opens marks read false 0 (items.drop taken) := by
  rw [replacePrefixes, start, marked, Bool.true_and, if_pos rfl, found, ← replacePrefixes_skip]

theorem replacePrefixes_plain {first : Bool} {item : α} {items : List α}
    (plain : first = true → marks item = true → read items = none) :
    replacePrefixes opens marks read first 0 (item :: items) =
      item :: replacePrefixes opens marks read (opens item) 0 items := by
  have none : (if first && marks item then read items else none) = none := by
    split
    · rename_i both
      rw [Bool.and_eq_true] at both
      exact plain both.1 both.2
    · rfl
  rw [replacePrefixes, none]

theorem replacePrefixes_append {items rest : List α} (quiet : ∀ item ∈ items, opens item = false) :
    replacePrefixes opens marks read false 0 (items ++ rest)
      = items ++ replacePrefixes opens marks read false 0 rest := by
  induction items with
  | nil => rfl
  | cons item items ih =>
      have stays := @replacePrefixes_plain _ opens marks read false item (items ++ rest) nofun
      rw [List.cons_append, stays, quiet item List.mem_cons_self,
        ih fun other member => quiet other (List.mem_cons_of_mem item member), List.cons_append]

end

section

variable (opens marks shown : α → Bool) (read readShown : List α → Option (α × Nat))

/-- The reader finds each prefix that is in the list of the items that show. A segment may have been opened
there, and it may be at its start here. -/
def FindsPrefixes : Bool → Bool → List α → Prop
  | _, _, [] => True
  | opened, first, item :: items =>
      if shown item then
        (opened = true → marks item = true → (readShown (items.filter shown)).isSome = true →
          first = true ∧ (read items).isSome = true) ∧
        FindsPrefixes (opens item) (opens item) items
      else FindsPrefixes opened false items

/-- What makes two readers comparable: a prefix that is found in the list is one of the list that shows. -/
structure ReadsShown : Prop where
  agrees : ∀ {items replacement taken}, read items = some (replacement, taken) →
    readShown (items.filter shown) = some (replacement, taken)
  quiet : ∀ {items replacement taken}, read items = some (replacement, taken) →
    ∀ item ∈ items.take taken, shown item = true ∧ opens item = false
  replaces : ∀ {items replacement taken}, readShown items = some (replacement, taken) →
    shown replacement = true ∧ marks replacement = false
  hidden : ∀ item, shown item = false → opens item = false ∧ marks item = false
  closed : ∀ item, marks item = true → opens item = false

variable {opens marks shown read readShown}

theorem findsPrefixes_append {items rest : List α} (quiet : ∀ item ∈ items, shown item = true ∧ opens item = false) :
    FindsPrefixes opens marks shown read readShown false false (items ++ rest) ↔
      FindsPrefixes opens marks shown read readShown false false rest := by
  induction items with
  | nil => rfl
  | cons item items ih =>
      obtain ⟨isShown, closed⟩ := quiet item List.mem_cons_self
      rw [List.cons_append, FindsPrefixes, if_pos isShown, closed,
        ih fun other member => quiet other (List.mem_cons_of_mem item member)]
      simp

theorem filter_drop_of_shown {items : List α} {taken : Nat} (allShown : ∀ item ∈ items.take taken, shown item = true) :
    (items.filter shown).drop taken = (items.drop taken).filter shown := by
  induction items generalizing taken with
  | nil => simp
  | cons item items ih =>
      cases taken with
      | zero => rfl
      | succ taken =>
          rw [List.filter_cons_of_pos (allShown item List.mem_cons_self), List.drop_succ_cons, List.drop_succ_cons]
          exact ih fun other member => allShown other (List.mem_cons_of_mem item member)

/-- The replacement agrees with that in the list that shows exactly if no prefix is missed. -/
theorem replacePrefixes_filter_iff (reads : ReadsShown opens marks shown read readShown) (items : List α)
    {opened first : Bool} (start : first = true → opened = true) :
    (replacePrefixes opens marks read first 0 items).filter shown =
        replacePrefixes opens marks readShown opened 0 (items.filter shown) ↔
      FindsPrefixes opens marks shown read readShown opened first items := by
  induction length : items.length using Nat.strongRecOn generalizing items opened first with
  | ind size ih =>
  cases items with
  | nil => exact iff_of_true rfl trivial
  | cons item items =>
      have shorter : items.length < size := by
        rw [← length]
        exact Nat.lt_succ_self _
      cases isShown : shown item with
      | false =>
          obtain ⟨closed, unmarked⟩ := reads.hidden item isShown
          have stays := @replacePrefixes_plain _ opens marks read first item items
            fun _ marked => absurd (marked.symm.trans unmarked) nofun
          rw [stays, List.filter_cons, List.filter_cons, isShown, FindsPrefixes, isShown, closed]
          exact ih _ shorter items nofun rfl
      | true =>
          rw [FindsPrefixes, if_pos isShown, List.filter_cons_of_pos isShown]
          have goesOn : (replacePrefixes opens marks read (opens item) 0 items).filter shown =
              replacePrefixes opens marks readShown (opens item) 0 (items.filter shown) ↔
                FindsPrefixes opens marks shown read readShown (opens item) (opens item) items :=
            ih _ shorter items id rfl
          by_cases marked : opened = true ∧ marks item = true
          · cases there : readShown (items.filter shown) with
            | none =>
                have missing : read items = none := by
                  cases found : read items with
                  | none => rfl
                  | some prefix_ => exact absurd (there.symm.trans (reads.agrees found)) nofun
                rw [replacePrefixes_plain fun _ _ => missing, replacePrefixes_plain fun _ _ => there,
                  List.filter_cons_of_pos isShown, List.cons.injEq, goesOn]
                simp
            | some prefix_ =>
                obtain ⟨replacement, taken⟩ := prefix_
                obtain ⟨shownReplacement, unmarked⟩ := reads.replaces there
                rw [replacePrefixes_marked marked.1 marked.2 there]
                by_cases seen : first = true ∧ (read items).isSome = true
                · obtain ⟨found, foundHere⟩ := Option.isSome_iff_exists.mp seen.2
                  obtain rfl : found = (replacement, taken) :=
                    Option.some.inj ((reads.agrees foundHere).symm.trans there)
                  have behind : (items.drop taken).length < size :=
                    Nat.lt_of_le_of_lt (List.drop_sublist taken items).length_le shorter
                  have rest := ih _ behind (items.drop taken) (@id (false = true)) rfl
                  have taking := @findsPrefixes_append _ opens marks shown read readShown (items.take taken)
                    (items.drop taken) (reads.quiet foundHere)
                  rw [List.take_append_drop] at taking
                  rw [replacePrefixes_marked seen.1 marked.2 foundHere, List.filter_cons_of_pos shownReplacement,
                    List.cons.injEq, filter_drop_of_shown fun other member => (reads.quiet foundHere other member).1,
                    rest, reads.closed item marked.2, taking]
                  simp [seen]
                · have stays : replacePrefixes opens marks read first 0 (item :: items) =
                      item :: replacePrefixes opens marks read (opens item) 0 items := by
                    refine replacePrefixes_plain fun isFirst _ => ?_
                    simpa [isFirst] using seen
                  have differs : ¬ (item :: (replacePrefixes opens marks read (opens item) 0 items).filter shown =
                      replacement :: replacePrefixes opens marks readShown false 0 ((items.filter shown).drop taken))
                        := by
                    intro same
                    rw [(List.cons.inj same).1, unmarked] at marked
                    exact nomatch marked.2
                  rw [stays, List.filter_cons_of_pos isShown]
                  exact iff_of_false differs fun finds => seen (finds.1 marked.1 marked.2 rfl)
          · have passes : ∀ {first : Bool} {reader : List α → Option (α × Nat)} {items : List α}, (first = true →
              opened = true) →
                first = true → marks item = true → reader items = none :=
              fun implied isFirst isMark => absurd ⟨implied isFirst, isMark⟩ marked
            rw [replacePrefixes_plain (passes start), replacePrefixes_plain (passes id),
              List.filter_cons_of_pos isShown, List.cons.injEq, goesOn]
            simp only [true_and]
            exact ⟨fun rest => ⟨fun isOpen isMark => absurd ⟨isOpen, isMark⟩ marked, rest⟩, And.right⟩

end

end Mrsh.Data

import Mrsh.Data.ArraySearch
import Mrsh.Builtin.Getopt
import Mrsh.Shell.Word

namespace Mrsh

open Mrsh.Data

/-! # The array of delimiters

`split_fields` allocates one character for each of `IFS` and fills in those that
are no white space. When none of them is, the array holds no NUL, and a search
ends in it only because the character has been found in `IFS` before.
-/

/-- `ifs_non_space` as it is allocated and filled. -/
def ifsNonSpaceCells (ifs : Str) : List Char :=
  fillCells (!isSpace ·) (List.replicate ifs.length nul) 0 ifs

theorem ifsNonSpaceCells_eq (ifs : Str) :
    ifsNonSpaceCells ifs = ifs.filter (!isSpace ·) ++ List.replicate (ifs.countP isSpace) nul := by
  have filled := fillCells_replicate (!isSpace ·) nul ifs [] 0
  simpa [ifsNonSpaceCells] using filled

theorem ifsNonSpaceCells_length (ifs : Str) : (ifsNonSpaceCells ifs).length = ifs.length := by
  rw [ifsNonSpaceCells_eq, List.length_append, List.length_replicate, ← List.countP_eq_length_filter]
  have counted := List.length_eq_countP_add_countP isSpace (l := ifs)
  simp only [Bool.not_eq_true, Bool.decide_eq_false] at counted
  omega

/-- `strchr` on the array. -/
def searchNonSpace (ifs : Str) (c : Char) : Option Bool := searchCells nul c (ifsNonSpaceCells ifs)

/-- A character of `IFS` is in the array itself unless it is a space, which
leaves a NUL there. -/
theorem searchNonSpace_isSome {ifs : Str} {c : Char} (delimiter : c ∈ ifs) : (searchNonSpace ifs c).isSome := by
  rw [searchNonSpace, searchCells_isSome, ifsNonSpaceCells_eq, List.mem_append, List.mem_append]
  by_cases space : isSpace c
  · have counted : ifs.countP isSpace ≠ 0 := Nat.pos_iff_ne_zero.mp (List.countP_pos_iff.mpr ⟨c, delimiter, space⟩)
    exact .inr (.inr (List.mem_replicate.mpr ⟨counted, rfl⟩))
  · exact .inl (.inl (List.mem_filter.mpr ⟨delimiter, by simpa using space⟩))

/-- In an `IFS` of a C string, the search finds what the list of delimiters holds. -/
theorem searchNonSpace_eq {ifs : Str} {c : Char} (terminated : nul ∉ ifs) (delimiter : c ∈ ifs) :
    searchNonSpace ifs c = some (decide (c ∈ ifs.filter (!isSpace ·))) := by
  have unmarked : nul ∉ ifs.filter (!isSpace ·) := fun member => terminated (List.mem_filter.mp member).1
  have other : c ≠ nul := fun same => terminated (same ▸ delimiter)
  rw [searchNonSpace, ifsNonSpaceCells_eq]
  by_cases listed : c ∈ ifs.filter (!isSpace ·)
  · rw [searchCells_mem unmarked listed, decide_eq_true listed]
  · have space : isSpace c := by simpa [delimiter] using listed
    obtain ⟨spaces, counted⟩ : ∃ spaces, ifs.countP isSpace = spaces + 1 :=
      Nat.exists_eq_add_one.mpr (List.countP_pos_iff.mpr ⟨c, delimiter, space⟩)
    rw [counted, List.replicate_succ, searchCells_mark listed other, decide_eq_false listed]

/-! ## Splitting with the array -/

inductive SplitStop where
  | aborted
  /-- A search reads behind the end of the array. -/
  | pastEnd
deriving Repr, DecidableEq

/-- The loop over the characters of a string, with each search in the array. -/
def splitFieldsStrCells (data : SplitFieldsData) (buf : Str) : Str → Except SplitStop SplitFieldsData
  | [] => .ok (if data.inIfs then data else addToCurField data (mrshWordStringCreate buf false))
  | c :: str =>
      if c ∉ data.ifs then
        splitFieldsStrCells { data with inIfs := false, inIfsNonSpace := false } (buf ++ [c]) str
      else
        match searchNonSpace data.ifs c with
        | none => .error .pastEnd
        | some isIfsNonSpace =>
            if !data.inIfs || (isIfsNonSpace && data.inIfsNonSpace) then
              let data := endCurField (addToCurField data (mrshWordStringCreate buf false))
              splitFieldsStrCells { data with inIfs := true } [] str
            else if isIfsNonSpace then splitFieldsStrCells { data with inIfsNonSpace := true } buf str
            else splitFieldsStrCells data buf str

def orAborted {α : Type} : Option α → Except SplitStop α
  | none => .error .aborted
  | some value => .ok value

mutual

/-- `_split_fields` with the array. -/
def splitFieldsInCells (data : SplitFieldsData) : Word → Except SplitStop SplitFieldsData
  | .string str singleQuoted splitFields range =>
      if singleQuoted || !splitFields then do
        let word ← orAborted (mrshWordCopy 0 (.string str singleQuoted splitFields range))
        .ok { addToCurField data word with inIfs := false, inIfsNonSpace := false }
      else splitFieldsStrCells data [] str
  | .list children true lquotePos rquotePos => do
      let word ← orAborted (mrshWordCopy 0 (.list children true lquotePos rquotePos))
      .ok (addToCurField data word)
  | .list children false _ _ => splitFieldsChildrenCells data children
  | _ => .error .aborted

def splitFieldsChildrenCells (data : SplitFieldsData) : List Word → Except SplitStop SplitFieldsData
  | [] => .ok data
  | child :: children => do
      let data ← splitFieldsInCells data child
      splitFieldsChildrenCells data children

end

/-- `split_fields` with the array. -/
def splitFieldsCells (word : Word) (ifs : Option Str) : Except SplitStop (List Word) :=
  let ifs := ifs.getD defaultIfs
  if ifs.isEmpty then do
    let word ← orAborted (mrshWordCopy 0 word)
    .ok [word]
  else do
    let data ← splitFieldsInCells
      { fields := [], curField := none, ifs, ifsNonSpace := ifs.filter (!isSpace ·),
        inIfs := true, inIfsNonSpace := false } word
    .ok (endCurField data).fields

/-! ## No search reads past the end -/

section

variable {α β : Type}

theorem orAborted_within (value : Option α) : orAborted value ≠ .error .pastEnd := by
  cases value <;> simp [orAborted]

theorem orAborted_map (value : Option α) (change : α → β) :
    (orAborted value >>= fun value => .ok (change value)) =
      orAborted (value >>= fun value => some (change value)) := by
  cases value <;> rfl

theorem bind_within {first : Except SplitStop α} {next : α → Except SplitStop β}
    (firstWithin : first ≠ .error .pastEnd) (nextWithin : ∀ value, next value ≠ .error .pastEnd) :
    (first >>= next) ≠ .error .pastEnd := by
  cases first with
  | ok value => exact nextWithin value
  | error stop =>
      intro stopped
      have same : stop = .pastEnd := by simpa [bind, Except.bind] using stopped
      exact firstWithin (same ▸ rfl)

end

theorem splitFieldsStrCells_within (str : Str) (data : SplitFieldsData) (buf : Str) :
    splitFieldsStrCells data buf str ≠ .error .pastEnd := by
  induction str generalizing data buf with
  | nil => simp [splitFieldsStrCells]
  | cons c str ih =>
      rw [splitFieldsStrCells]
      by_cases delimiter : c ∈ data.ifs
      · obtain ⟨isIfsNonSpace, found⟩ := Option.isSome_iff_exists.mp (searchNonSpace_isSome delimiter)
        rw [if_neg (not_not_intro delimiter), found]
        dsimp only
        split
        · exact ih _ _
        · split
          · exact ih _ _
          · exact ih _ _
      · rw [if_pos delimiter]
        exact ih _ _

mutual

theorem splitFieldsInCells_within : (word : Word) → (data : SplitFieldsData) →
    splitFieldsInCells data word ≠ .error .pastEnd
  | .string str singleQuoted splitFields range, data => by
      rw [splitFieldsInCells]
      split
      · exact bind_within (orAborted_within _) (by simp)
      · exact splitFieldsStrCells_within str data []
  | .list children true lquotePos rquotePos, data => by
      rw [splitFieldsInCells]
      exact bind_within (orAborted_within _) (by simp)
  | .list children false _ _, data => by
      rw [splitFieldsInCells]
      exact splitFieldsChildrenCells_within children data
  | .parameter _, _ | .command _ _ _, _ | .arithmetic _, _ | .null, _ => by simp [splitFieldsInCells]

theorem splitFieldsChildrenCells_within : (children : List Word) → (data : SplitFieldsData) →
    splitFieldsChildrenCells data children ≠ .error .pastEnd
  | [], _ => by simp [splitFieldsChildrenCells]
  | child :: children, data => by
      rw [splitFieldsChildrenCells]
      exact bind_within (splitFieldsInCells_within child data) (splitFieldsChildrenCells_within children)

end

/-- However the word looks, no search leaves the array, which has one character
for each of `IFS`. Where none of these is a space, nothing but the character
itself ends a search. -/
theorem splitFieldsCells_within (word : Word) (ifs : Option Str) :
    (ifsNonSpaceCells (ifs.getD defaultIfs)).length = (ifs.getD defaultIfs).length ∧
      splitFieldsCells word ifs ≠ .error .pastEnd ∧
      ((∀ c ∈ ifs.getD defaultIfs, isSpace c = false) →
        ifsNonSpaceCells (ifs.getD defaultIfs) = ifs.getD defaultIfs ∧
        (nul ∉ ifs.getD defaultIfs → ∀ c ∈ ifs.getD defaultIfs,
          searchNonSpace (ifs.getD defaultIfs) c = some true)) := by
  refine ⟨ifsNonSpaceCells_length _, ?_, fun noSpace => ?_⟩
  · rw [splitFieldsCells]
    split
    · exact bind_within (orAborted_within _) (by simp)
    · exact bind_within (splitFieldsInCells_within word _) (by simp)
  · have noneCounted : (ifs.getD defaultIfs).countP isSpace = 0 :=
      List.countP_eq_zero.mpr fun c member => by simp [noSpace c member]
    have allKept : (ifs.getD defaultIfs).filter (!isSpace ·) = ifs.getD defaultIfs :=
      List.filter_eq_self.mpr fun c member => by simp [noSpace c member]
    refine ⟨by rw [ifsNonSpaceCells_eq, noneCounted, allKept, List.replicate_zero, List.append_nil], ?_⟩
    intro terminated c delimiter
    rw [searchNonSpace_eq terminated delimiter, allKept, decide_eq_true delimiter]

/-! ## The array holds what the list of delimiters holds -/

/-- What `split_fields` sets up for an `IFS` that is a C string. -/
structure SplitFieldsData.Stored (data : SplitFieldsData) : Prop where
  nonSpace_eq : data.ifsNonSpace = data.ifs.filter (!isSpace ·)
  terminated : nul ∉ data.ifs

theorem splitFieldsStrCells_eq (str : Str) (data : SplitFieldsData) (buf : Str) (stored : data.Stored) :
    splitFieldsStrCells data buf str = .ok (splitFieldsStr data buf str) ∧
      (splitFieldsStr data buf str).Stored := by
  induction str generalizing data buf with
  | nil =>
      refine ⟨rfl, ?_⟩
      rw [splitFieldsStr]
      split
      · exact stored
      · exact ⟨stored.nonSpace_eq, stored.terminated⟩
  | cons c str ih =>
      rw [splitFieldsStrCells, splitFieldsStr]
      by_cases delimiter : c ∈ data.ifs
      · rw [if_neg (not_not_intro delimiter), if_neg (not_not_intro delimiter),
          searchNonSpace_eq stored.terminated delimiter, ← stored.nonSpace_eq]
        dsimp only
        by_cases ends : (!data.inIfs || (decide (c ∈ data.ifsNonSpace) && data.inIfsNonSpace)) = true
        · rw [if_pos ends, if_pos ends]
          exact ih _ _ ⟨stored.nonSpace_eq, stored.terminated⟩
        · rw [if_neg ends, if_neg ends]
          by_cases listed : c ∈ data.ifsNonSpace
          · rw [if_pos (decide_eq_true listed), if_pos listed]
            exact ih _ _ ⟨stored.nonSpace_eq, stored.terminated⟩
          · rw [if_neg (by simp [listed]), if_neg listed]
            exact ih _ _ stored
      · rw [if_pos delimiter, if_pos delimiter]
        exact ih _ _ ⟨stored.nonSpace_eq, stored.terminated⟩

mutual

theorem splitFieldsInCells_eq : (word : Word) → (data : SplitFieldsData) → data.Stored →
    splitFieldsInCells data word = orAborted (splitFieldsIn data word) ∧
      ∀ after ∈ splitFieldsIn data word, after.Stored
  | .string str singleQuoted splitFields range, data, stored => by
      rw [splitFieldsInCells, splitFieldsIn]
      split
      · refine ⟨orAborted_map _ _, fun after found => ?_⟩
        obtain ⟨word, -, added⟩ := Option.bind_eq_some_iff.mp found
        obtain rfl := Option.some.inj added
        exact ⟨stored.nonSpace_eq, stored.terminated⟩
      · obtain ⟨same, kept⟩ := splitFieldsStrCells_eq str data [] stored
        exact ⟨same, fun after found => Option.some.inj found ▸ kept⟩
  | .list children true lquotePos rquotePos, data, stored => by
      rw [splitFieldsInCells, splitFieldsIn]
      refine ⟨orAborted_map _ _, fun after found => ?_⟩
      obtain ⟨word, -, added⟩ := Option.bind_eq_some_iff.mp found
      obtain rfl := Option.some.inj added
      exact ⟨stored.nonSpace_eq, stored.terminated⟩
  | .list children false _ _, data, stored => by
      rw [splitFieldsInCells, splitFieldsIn]
      exact splitFieldsChildrenCells_eq children data stored
  | .parameter _, _, _ | .command _ _ _, _, _ | .arithmetic _, _, _ | .null, _, _ => by
      simp [splitFieldsInCells, splitFieldsIn, orAborted]

theorem splitFieldsChildrenCells_eq : (children : List Word) → (data : SplitFieldsData) → data.Stored →
    splitFieldsChildrenCells data children = orAborted (splitFieldsChildren data children) ∧
      ∀ after ∈ splitFieldsChildren data children, after.Stored
  | [], data, stored => ⟨rfl, fun after found => Option.some.inj found ▸ stored⟩
  | child :: children, data, stored => by
      obtain ⟨firstSame, firstStored⟩ := splitFieldsInCells_eq child data stored
      rw [splitFieldsChildrenCells, splitFieldsChildren, firstSame]
      cases first : splitFieldsIn data child with
      | none => simp [orAborted, bind, Except.bind]
      | some between => exact splitFieldsChildrenCells_eq children between (firstStored between first)

end

theorem splitFieldsCells_eq (word : Word) (ifs : Option Str) (terminated : nul ∉ ifs.getD defaultIfs) :
    splitFieldsCells word ifs = orAborted (splitFields word ifs) := by
  rw [splitFieldsCells, splitFields]
  split
  · exact orAborted_map _ _
  · obtain ⟨same, -⟩ := splitFieldsInCells_eq word
      { fields := [], curField := none, ifs := ifs.getD defaultIfs,
        ifsNonSpace := (ifs.getD defaultIfs).filter (!isSpace ·), inIfs := true, inIfsNonSpace := false }
      ⟨rfl, terminated⟩
    rw [same]
    exact orAborted_map _ _

theorem splitFieldsCells_eq_colon : splitFieldsCells (.string "a:b".toList false true .invalid) (some [':']) =
    orAborted (splitFields (.string "a:b".toList false true .invalid) (some [':'])) :=
  splitFieldsCells_eq _ _ (by decide)

end Mrsh

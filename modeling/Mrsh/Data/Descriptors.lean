import Mathlib.Logic.Function.Basic

namespace Mrsh.Data

/-! # Saving and restoring descriptors

A table of descriptors says what each number refers to, if it is open. A
redirection opens a source, saves a copy of its target in a free number and lets
the target refer to what the source refers to. Afterwards the copies are put
back one after another, from the first one on. The targets refer to what they
did before exactly if no redirection found its target changed by another one.
-/

abbrev Descriptors (δ : Type) := Int → Option δ

/-- A redirection, and the table before and after its source was opened. -/
structure Redirection (δ : Type) where
  before : Descriptors δ
  opened : Descriptors δ
  source : Int
  target : Int
  copy : Int

variable {δ : Type}

namespace Redirection

/-- A redirection of a number to itself changes nothing more, and has no copy. -/
def Moves (step : Redirection δ) : Prop := step.source ≠ step.target

instance (step : Redirection δ) : Decidable step.Moves := inferInstanceAs (Decidable (step.source ≠ step.target))

def saved (step : Redirection δ) : Descriptors δ := Function.update step.opened step.copy (step.opened step.target)

def after (step : Redirection δ) : Descriptors δ :=
  if step.Moves then Function.update step.saved step.target (step.saved step.source) else step.opened

structure Valid (step : Redirection δ) : Prop where
  opens : ∀ n, step.opened n ≠ step.before n → step.before n = none ∧ n = step.source
  free : step.Moves → step.opened step.copy = none
  target : step.Moves → step.opened step.target ≠ none
  source : step.Moves → step.saved step.source ≠ none

variable {step : Redirection δ} {n : Int}

theorem Valid.opened_stays (valid : step.Valid) (isOpen : step.before n ≠ none) :
    step.opened n = step.before n := by
  by_contra changed
  exact isOpen (valid.opens n changed).1

theorem Valid.copy_ne_target (valid : step.Valid) (moves : step.Moves) : step.copy ≠ step.target := by
  intro same
  have free := valid.free moves
  rw [same] at free
  exact valid.target moves free

theorem after_target (moves : step.Moves) : step.after step.target = step.saved step.source := by
  rw [after, if_pos moves, Function.update_self]

theorem Valid.after_copy (valid : step.Valid) (moves : step.Moves) :
    step.after step.copy = step.opened step.target := by
  rw [after, if_pos moves, Function.update_of_ne (valid.copy_ne_target moves), saved, Function.update_self]

theorem after_other (notTarget : step.Moves → n ≠ step.target) (notCopy : step.Moves → n ≠ step.copy) :
    step.after n = step.opened n := by
  unfold after saved
  split
  · rename_i moves
    rw [Function.update_of_ne (notTarget moves), Function.update_of_ne (notCopy moves)]
  · rfl

theorem Valid.before_target (valid : step.Valid) (moves : step.Moves) :
    step.before step.target = step.opened step.target := by
  by_contra changed
  exact moves (valid.opens step.target (Ne.symm changed)).2.symm

theorem Valid.stays_open (valid : step.Valid) (isOpen : step.before n ≠ none) : step.after n ≠ none := by
  by_cases moves : step.Moves
  · by_cases isTarget : n = step.target
    · rw [isTarget, after_target moves]
      exact valid.source moves
    · by_cases isCopy : n = step.copy
      · rw [isCopy, valid.after_copy moves]
        exact valid.target moves
      · rw [after_other (fun _ => isTarget) (fun _ => isCopy), valid.opened_stays isOpen]
        exact isOpen
  · rw [after_other (fun moved => absurd moved moves) (fun moved => absurd moved moves), valid.opened_stays isOpen]
    exact isOpen

theorem Valid.ne_copy (valid : step.Valid) (moves : step.Moves) (isOpen : step.before n ≠ none) : n ≠ step.copy := by
  rintro rfl
  rw [← valid.opened_stays isOpen, valid.free moves] at isOpen
  exact isOpen rfl

end Redirection

/-- The redirections are made one after another. -/
inductive Redirected : Descriptors δ → List (Redirection δ) → Descriptors δ → Prop where
  | nil (table : Descriptors δ) : Redirected table [] table
  | cons {step : Redirection δ} {steps : List (Redirection δ)} {final : Descriptors δ} (valid : step.Valid)
      (rest : Redirected step.after steps final) : Redirected step.before (step :: steps) final

/-- The copies are put back in their order. -/
def restore : List (Redirection δ) → Descriptors δ → Descriptors δ
  | [], table => table
  | step :: steps, table =>
      if step.Moves then
        restore steps (Function.update (Function.update table step.target (table step.copy)) step.copy none)
      else restore steps table

/-- Each copy is open when it is put back. -/
def Restorable : List (Redirection δ) → Descriptors δ → Prop
  | [], _ => True
  | step :: steps, table =>
      if step.Moves then
        table step.copy ≠ none ∧
          Restorable steps (Function.update (Function.update table step.target (table step.copy)) step.copy none)
      else Restorable steps table

/-- The number is not moved by any of the redirections. -/
def Unmoved (n : Int) (steps : List (Redirection δ)) : Prop := ∀ step ∈ steps, step.Moves → step.target ≠ n

/-- The number is no copy of any of the redirections. -/
def NoCopy (n : Int) (steps : List (Redirection δ)) : Prop := ∀ step ∈ steps, step.Moves → step.copy ≠ n

/-- Each number that is moved still refers to what it did at first when it is moved for the last time. A number that
is never moved was open at first, or it is opened by none of the redirections. -/
def KeepsTargets (start : Descriptors δ) (steps : List (Redirection δ)) : Prop :=
  (∀ earlier step later, steps = earlier ++ step :: later → step.Moves → Unmoved step.target later →
    step.before step.target = start step.target) ∧
  ∀ step ∈ steps, Unmoved step.target steps → start step.target = none →
    ∀ other ∈ steps, other.source = step.target → other.opened other.source = other.before other.source

/-! ## Making the redirections -/

variable {start final table : Descriptors δ} {steps earlier later : List (Redirection δ)} {step : Redirection δ}
    {n : Int}

theorem Redirected.stays_open (redirected : Redirected start steps final) (isOpen : start n ≠ none) :
    final n ≠ none := by
  induction redirected with
  | nil => exact isOpen
  | cons valid _ ih => exact ih (valid.stays_open isOpen)

theorem Redirected.split (redirected : Redirected start (earlier ++ step :: later) final) :
    Redirected start earlier step.before ∧ step.Valid ∧ Redirected step.after later final := by
  induction earlier generalizing start with
  | nil =>
      cases redirected with
      | cons valid rest => exact ⟨.nil _, valid, rest⟩
  | cons first earlier ih =>
      cases redirected with
      | cons valid rest =>
          obtain ⟨firstPart, stepValid, lastPart⟩ := ih rest
          exact ⟨.cons valid firstPart, stepValid, lastPart⟩

theorem Redirected.unmoved (redirected : Redirected start steps final) (isOpen : start n ≠ none)
    (unmoved : Unmoved n steps) : final n = start n := by
  induction redirected with
  | nil => rfl
  | @cons step steps final valid rest ih =>
      have same : step.after n = step.before n := by
        rw [Redirection.after_other (fun moves => Ne.symm (unmoved step List.mem_cons_self moves))
          (fun moves => valid.ne_copy moves isOpen), valid.opened_stays isOpen]
      rw [ih (by rw [same]; exact isOpen) (fun other member => unmoved other (List.mem_cons_of_mem step member)), same]

theorem Redirected.noCopy (redirected : Redirected start steps final) (isOpen : start n ≠ none) : NoCopy n steps := by
  induction redirected with
  | nil =>
      intro step member
      cases member
  | @cons step steps final valid rest ih =>
      intro other member moves
      rcases List.mem_cons.mp member with rfl | later
      · exact Ne.symm (valid.ne_copy moves isOpen)
      · exact ih (valid.stays_open isOpen) other later moves

theorem Redirected.copy_fresh (redirected : Redirected start (earlier ++ step :: later) final) (moves : step.Moves) :
    NoCopy step.copy earlier := by
  intro other member otherMoves
  obtain ⟨first, second, rfl⟩ := List.append_of_mem member
  obtain ⟨toStep, stepValid, _⟩ := redirected.split
  obtain ⟨_, otherValid, between⟩ := toStep.split
  have isOpen : other.after other.copy ≠ none := by
    rw [otherValid.after_copy otherMoves]
    exact otherValid.target otherMoves
  exact stepValid.ne_copy moves (between.stays_open isOpen)

theorem Redirected.target_noCopy (redirected : Redirected start (earlier ++ step :: later) final) (moves : step.Moves) :
    NoCopy step.target later := by
  obtain ⟨_, valid, rest⟩ := redirected.split
  apply rest.noCopy
  rw [Redirection.after_target moves]
  exact valid.source moves

/-! ## Putting the copies back -/

theorem restore_other (steps : List (Redirection δ)) (table : Descriptors δ) (unmoved : Unmoved n steps)
    (noCopy : NoCopy n steps) : restore steps table n = table n := by
  induction steps generalizing table with
  | nil => rfl
  | cons step steps ih =>
      have unmovedLater : Unmoved n steps := fun other member => unmoved other (List.mem_cons_of_mem step member)
      have noCopyLater : NoCopy n steps := fun other member => noCopy other (List.mem_cons_of_mem step member)
      rw [restore]
      split
      · rename_i moves
        rw [ih _ unmovedLater noCopyLater,
          Function.update_of_ne (Ne.symm (noCopy step List.mem_cons_self moves)),
          Function.update_of_ne (Ne.symm (unmoved step List.mem_cons_self moves))]
      · exact ih _ unmovedLater noCopyLater

theorem restore_copy (steps : List (Redirection δ)) (table : Descriptors δ) (unmoved : Unmoved n steps)
    (isCopy : ¬ NoCopy n steps) : restore steps table n = none := by
  induction steps generalizing table with
  | nil => exact absurd (fun step member => absurd member List.not_mem_nil) isCopy
  | cons step steps ih =>
      have unmovedLater : Unmoved n steps := fun other member => unmoved other (List.mem_cons_of_mem step member)
      by_cases later : NoCopy n steps
      · have here : step.Moves ∧ step.copy = n := by
          by_contra notHere
          apply isCopy
          intro other member moves
          rcases List.mem_cons.mp member with rfl | member
          · exact fun same => notHere ⟨moves, same⟩
          · exact later other member moves
        rw [restore, if_pos here.1, restore_other _ _ unmovedLater later, ← here.2, Function.update_self]
      · rw [restore]
        split
        · exact ih _ unmovedLater later
        · exact ih _ unmovedLater later

theorem restore_append (earlier later : List (Redirection δ)) (table : Descriptors δ) :
    restore (earlier ++ later) table = restore later (restore earlier table) := by
  induction earlier generalizing table with
  | nil => rfl
  | cons step earlier ih =>
      rw [List.cons_append, restore, restore]
      split
      · exact ih _
      · exact ih _

theorem Restorable.append {earlier later : List (Redirection δ)} {table : Descriptors δ}
    (restorable : Restorable (earlier ++ later) table) : Restorable later (restore earlier table) := by
  induction earlier generalizing table with
  | nil => exact restorable
  | cons step earlier ih =>
      rw [List.cons_append, Restorable] at restorable
      rw [restore]
      split
      · rename_i moves
        rw [if_pos moves] at restorable
        exact ih restorable.2
      · rename_i stays
        rw [if_neg stays] at restorable
        exact ih restorable

theorem restore_target (moves : step.Moves) (different : step.copy ≠ step.target) (unmoved : Unmoved step.target later)
    (noCopy : NoCopy step.target later) :
    restore (earlier ++ step :: later) table step.target = restore earlier table step.copy := by
  rw [restore_append, restore, if_pos moves, restore_other _ _ unmoved noCopy,
    Function.update_of_ne (Ne.symm different), Function.update_self]

/-! ## When the targets are restored -/

theorem exists_last (steps : List (Redirection δ)) (moved : ¬ Unmoved n steps) :
    ∃ earlier step later, steps = earlier ++ step :: later ∧ step.Moves ∧ step.target = n ∧ Unmoved n later := by
  induction steps with
  | nil => exact absurd (fun step member => absurd member List.not_mem_nil) moved
  | cons step steps ih =>
      by_cases later : Unmoved n steps
      · have here : step.Moves ∧ step.target = n := by
          by_contra notHere
          apply moved
          intro other member moves
          rcases List.mem_cons.mp member with rfl | member
          · exact fun same => notHere ⟨moves, same⟩
          · exact later other member moves
        exact ⟨[], step, steps, rfl, here.1, here.2, later⟩
      · obtain ⟨earlier, last, rest, rfl, moves, same, unmoved⟩ := ih later
        exact ⟨step :: earlier, last, rest, rfl, moves, same, unmoved⟩

/-- A number that a redirection opens, and none moves, is no copy and is left open. -/
theorem Redirected.opens (redirected : Redirected start steps final) (unmoved : Unmoved n steps)
    (member : step ∈ steps) (source : step.source = n) (opens : step.opened step.source ≠ step.before step.source) :
    NoCopy n steps ∧ final n ≠ none := by
  obtain ⟨earlier, later, rfl⟩ := List.append_of_mem member
  obtain ⟨toStep, valid, rest⟩ := redirected.split
  rw [source] at opens
  have closed : step.before n = none := (valid.opens n opens).1
  have isOpen : step.opened n ≠ none := by
    rw [closed] at opens
    exact opens
  have noCopyHere : step.Moves → step.copy ≠ n := by
    rintro moves rfl
    exact isOpen (valid.free moves)
  have openAfter : step.after n ≠ none := by
    rw [Redirection.after_other (fun moves => Ne.symm (unmoved step member moves))
      (fun moves => Ne.symm (noCopyHere moves))]
    exact isOpen
  refine ⟨fun other otherMember moves => ?_, rest.stays_open openAfter⟩
  rcases List.mem_append.mp otherMember with before | fromStep
  · obtain ⟨first, second, rfl⟩ := List.append_of_mem before
    obtain ⟨_, otherValid, between⟩ := toStep.split
    rintro rfl
    refine between.stays_open ?_ closed
    rw [otherValid.after_copy moves]
    exact otherValid.target moves
  · rcases List.mem_cons.mp fromStep with rfl | behind
    · exact noCopyHere moves
    · exact rest.noCopy openAfter other behind moves

theorem Redirected.stays_closed (redirected : Redirected start steps final) (closed : start n = none)
    (unmoved : Unmoved n steps) (noCopy : NoCopy n steps)
    (unopened : ∀ step ∈ steps, step.source = n → step.opened step.source = step.before step.source) :
    final n = none := by
  induction redirected with
  | nil => exact closed
  | @cons step steps final valid rest ih =>
      have closedAfter : step.after n = none := by
        rw [Redirection.after_other (fun moves => Ne.symm (unmoved step List.mem_cons_self moves))
          (fun moves => Ne.symm (noCopy step List.mem_cons_self moves))]
        by_contra isOpen
        have opens : step.opened n ≠ step.before n := by
          rw [closed]
          exact isOpen
        have source := (valid.opens n opens).2
        have same := unopened step List.mem_cons_self source.symm
        rw [← source] at same
        exact opens same
      exact ih closedAfter (fun other member => unmoved other (List.mem_cons_of_mem step member))
        (fun other member => noCopy other (List.mem_cons_of_mem step member))
        (fun other member => unopened other (List.mem_cons_of_mem step member))

/-- The table after the redirections were used refers to the same in all numbers that matter. -/
def SameDescriptors (steps : List (Redirection δ)) (final table : Descriptors δ) : Prop :=
  ∀ step ∈ steps, table step.target = final step.target ∧ (step.Moves → table step.copy = final step.copy)

/-- A number that is not moved is restored, unless a redirection opened it itself. -/
theorem restore_unmoved_iff (redirected : Redirected start steps final) (same : SameDescriptors steps final table)
    (member : step ∈ steps) (unmoved : Unmoved step.target steps) :
    restore steps table step.target = start step.target ↔
      (start step.target = none →
        ∀ other ∈ steps, other.source = step.target → other.opened other.source = other.before other.source) := by
  have unused := (same step member).1
  by_cases closed : start step.target = none
  · by_cases noCopy : NoCopy step.target steps
    · rw [restore_other steps table unmoved noCopy, unused, closed]
      constructor
      · intro finalClosed _ other otherMember source
        by_contra opens
        exact (redirected.opens unmoved otherMember source opens).2 finalClosed
      · intro unopened
        exact redirected.stays_closed closed unmoved noCopy (unopened rfl)
    · rw [restore_copy steps table unmoved noCopy, closed]
      refine ⟨fun _ _ other otherMember source => ?_, fun _ => rfl⟩
      by_contra opens
      exact noCopy (redirected.opens unmoved otherMember source opens).1
  · rw [restore_other steps table unmoved (redirected.noCopy closed), unused, redirected.unmoved closed unmoved]
    exact ⟨fun _ nowClosed => absurd nowClosed closed, fun _ => rfl⟩

/-- If no copy is ever a target, the last redirection of a number decides whether it is restored. -/
theorem restore_last (redirected : Redirected start (earlier ++ step :: later) final)
    (same : SameDescriptors (earlier ++ step :: later) final table)
    (clean : ∀ other ∈ earlier ++ step :: later, other.Moves → Unmoved other.copy (earlier ++ step :: later))
    (moves : step.Moves) (unmoved : Unmoved step.target later) :
    restore (earlier ++ step :: later) table step.target = step.before step.target := by
  have member : step ∈ earlier ++ step :: later := by simp
  obtain ⟨_, valid, rest⟩ := redirected.split
  have unmovedCopy := clean step member moves
  have kept : step.after step.copy ≠ none := by
    rw [valid.after_copy moves]
    exact valid.target moves
  rw [restore_target moves (valid.copy_ne_target moves) unmoved (redirected.target_noCopy moves),
    restore_other earlier table (fun other earlierMember => unmovedCopy other (List.mem_append_left _ earlierMember))
      (redirected.copy_fresh moves),
    (same step member).2 moves,
    rest.unmoved kept (fun other laterMember => unmovedCopy other (by simp [laterMember])),
    valid.after_copy moves, valid.before_target moves]

/-- A target that was a copy is left open, although it was closed at first. -/
theorem restore_copied_target (redirected : Redirected start (earlier ++ step :: later) final)
    (restorable : Restorable (earlier ++ step :: later) table) (moves : step.Moves)
    (unmoved : Unmoved step.target later) :
    restore (earlier ++ step :: later) table step.target ≠ none ∧ step.before step.target ≠ none := by
  obtain ⟨_, valid, rest⟩ := redirected.split
  constructor
  · rw [restore_target moves (valid.copy_ne_target moves) unmoved (redirected.target_noCopy moves)]
    have copies := restorable.append
    rw [Restorable, if_pos moves] at copies
    exact copies.1
  · rw [valid.before_target moves]
    exact valid.target moves

theorem restore_targets_iff (redirected : Redirected start steps final) (same : SameDescriptors steps final table)
    (restorable : Restorable steps table) :
    (∀ step ∈ steps, restore steps table step.target = start step.target) ↔ KeepsTargets start steps := by
  by_cases clean : ∀ step ∈ steps, step.Moves → Unmoved step.copy steps
  · constructor
    · intro restored
      refine ⟨?_,
        fun step member unmoved => (restore_unmoved_iff redirected same member unmoved).mp (restored step member)⟩
      rintro earlier step later rfl moves unmoved
      rw [← restore_last redirected same clean moves unmoved]
      exact restored step (by simp)
    · rintro ⟨moved, unmovedKept⟩ step member
      by_cases unmoved : Unmoved step.target steps
      · exact (restore_unmoved_iff redirected same member unmoved).mpr (unmovedKept step member unmoved)
      · obtain ⟨earlier, last, later, rfl, moves, target, unmovedLater⟩ := exists_last steps unmoved
        rw [← target] at unmovedLater ⊢
        rw [restore_last redirected same clean moves unmovedLater]
        exact moved earlier last later rfl moves unmovedLater
  · obtain ⟨copied, unclean⟩ := Classical.not_forall.mp clean
    obtain ⟨copiedMember, unclean⟩ := Classical.not_imp.mp unclean
    obtain ⟨copiedMoves, moved⟩ := Classical.not_imp.mp unclean
    obtain ⟨earlier, last, later, rfl, moves, target, unmovedLater⟩ := exists_last steps moved
    rw [← target] at unmovedLater
    have closed : start last.target = none := by
      by_contra isOpen
      exact redirected.noCopy isOpen copied copiedMember copiedMoves target.symm
    obtain ⟨leftOpen, openBefore⟩ := restore_copied_target redirected restorable moves unmovedLater
    constructor
    · intro restored
      exact absurd ((restored last (by simp)).trans closed) leftOpen
    · intro keeps
      exact absurd ((keeps.1 earlier last later rfl moves unmovedLater).trans closed) openBefore

/-! ## When the copies are not put back -/

/-- The numbers that a redirection opens, for its source or its copy. -/
def Redirection.Takes (step : Redirection δ) (n : Int) : Prop :=
  step.opened n ≠ step.before n ∨ step.Moves ∧ step.copy = n

/-- A closed number that is no target is opened for the source or the copy only. -/
theorem Redirection.Valid.after_closed (valid : step.Valid) (closed : step.before n = none)
    (notTarget : step.Moves → n ≠ step.target) : step.after n = none ↔ ¬ step.Takes n := by
  by_cases copied : step.Moves ∧ step.copy = n
  · obtain ⟨moves, rfl⟩ := copied
    refine iff_of_false ?_ (not_not_intro (.inr ⟨moves, rfl⟩))
    rw [valid.after_copy moves]
    exact valid.target moves
  · rw [Redirection.after_other notTarget fun moves same => copied ⟨moves, same.symm⟩, Redirection.Takes, closed]
    simp [copied]

/-- The last redirection that moves a number gives it what it referred to at first, and a number that none moves was
open or is taken by none. -/
structure KeepsUnrestored (start : Descriptors δ) (steps : List (Redirection δ)) (taken : Int → Prop) : Prop where
  moved : ∀ earlier step later, steps = earlier ++ step :: later → step.Moves → Unmoved step.target later →
    step.saved step.source = start step.target
  unmoved : ∀ step ∈ steps, Unmoved step.target steps → start step.target = none → ¬ taken step.target

theorem Redirected.last_moved (redirected : Redirected start (earlier ++ step :: later) table) (moves : step.Moves)
    (unmoved : Unmoved step.target later) : table step.target = step.saved step.source := by
  obtain ⟨_, valid, rest⟩ := redirected.split
  have isOpen : step.after step.target ≠ none := by
    rw [Redirection.after_target moves]
    exact valid.source moves
  rw [rest.unmoved isOpen unmoved, Redirection.after_target moves]

/-- The targets of redirections that are not undone refer to what they did at first exactly if these redirections
keep them, where nothing else is done to numbers that are open. -/
theorem Redirected.unrestored_iff {taken : Int → Prop} (redirected : Redirected start steps table)
    (stays : ∀ n, table n ≠ none → final n = table n)
    (closed : ∀ n, start n = none → Unmoved n steps → (final n = none ↔ ¬ taken n)) :
    (∀ step ∈ steps, final step.target = start step.target) ↔ KeepsUnrestored start steps taken := by
  constructor
  · intro kept
    refine ⟨fun earlier step later split moves unmoved => ?_, fun step member unmoved isClosed => ?_⟩
    · subst split
      have moved := redirected.last_moved moves unmoved
      have isOpen : table step.target ≠ none := by
        rw [moved]
        exact redirected.split.2.1.source moves
      rw [← moved, ← stays step.target isOpen, kept step (by simp)]
    · rw [← closed step.target isClosed unmoved, kept step member, isClosed]
  · intro keeps step member
    by_cases unmoved : Unmoved step.target steps
    · by_cases isClosed : start step.target = none
      · rw [isClosed, closed step.target isClosed unmoved]
        exact keeps.unmoved step member unmoved isClosed
      · rw [stays step.target (redirected.stays_open isClosed), redirected.unmoved isClosed unmoved]
    · obtain ⟨earlier, last, later, rfl, moves, target, unmovedLater⟩ := exists_last steps unmoved
      rw [← target] at unmovedLater ⊢
      have moved := redirected.last_moved moves unmovedLater
      have isOpen : table last.target ≠ none := by
        rw [moved]
        exact redirected.split.2.1.source moves
      rw [stays last.target isOpen, moved, keeps.moved earlier last later rfl moves unmovedLater]

end Mrsh.Data

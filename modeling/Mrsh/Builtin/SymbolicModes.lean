import Mathlib.Data.Nat.Bitwise
import Mrsh.Builtin.OptionSequence
import Mrsh.Builtin.Utilities
import Mrsh.Shell.SystemPart

namespace Mrsh

open Mrsh.Data

/-! # Symbolic modes

A symbolic mode is a sequence of clauses, and each of them changes a set of
permissions. `umask_mode` reads the clauses character by character and keeps the
set in the nine bits of a mode.
-/

/-! ## Sets of permissions -/

inductive PermClass where
  | user | group | other
deriving Repr, DecidableEq

inductive Permission where
  | read | write | execute
deriving Repr, DecidableEq

/-- A set of permissions. -/
abbrev Permissions := PermClass → Permission → Bool

def Permissions.complement (perms : Permissions) : Permissions := fun cls perm => !perms cls perm

inductive ModeWho where
  | only (cls : PermClass)
  | all
deriving Repr, DecidableEq

def ModeWho.covers : ModeWho → PermClass → Bool
  | .only mentioned, cls => mentioned == cls
  | .all, _ => true

inductive ModeAction where
  | add | remove | assign
deriving Repr, DecidableEq

inductive ModePerms where
  | letters (listed : List Permission)
  | copied (cls : PermClass)
deriving Repr, DecidableEq

/-- The permissions that are named, where a class stands for those that it has. -/
def ModePerms.named : ModePerms → Permissions → Permission → Bool
  | .letters listed, _, perm => listed.contains perm
  | .copied cls, perms, perm => perms cls perm

structure ModeClause where
  who : List ModeWho
  action : ModeAction
  perms : ModePerms
deriving Repr, DecidableEq

namespace ModeClause

def selects (clause : ModeClause) (cls : PermClass) : Bool :=
  clause.who.isEmpty || clause.who.any (·.covers cls)

/-- What `chmod` does for a clause. -/
def apply (perms : Permissions) (clause : ModeClause) : Permissions := fun cls perm =>
  let named := clause.perms.named perms perm
  match clause.action with
  | .add => perms cls perm || (clause.selects cls && named)
  | .remove => perms cls perm && !(clause.selects cls && named)
  | .assign => if clause.selects cls then named else perms cls perm

end ModeClause

/-! ## Their text -/

def PermClass.char : PermClass → Char
  | .user => 'u'
  | .group => 'g'
  | .other => 'o'

def Permission.char : Permission → Char
  | .read => 'r'
  | .write => 'w'
  | .execute => 'x'

def ModeWho.char : ModeWho → Char
  | .only cls => cls.char
  | .all => 'a'

def ModeAction.char : ModeAction → Char
  | .add => '+'
  | .remove => '-'
  | .assign => '='

def ModePerms.text : ModePerms → Str
  | .letters listed => listed.map Permission.char
  | .copied cls => [cls.char]

def ModeClause.text (clause : ModeClause) : Str :=
  clause.who.map ModeWho.char ++ clause.action.char :: clause.perms.text

def symbolicMode (first : ModeClause) (rest : List ModeClause) : Str :=
  first.text ++ rest.flatMap fun clause => ',' :: clause.text

/-! ## Modes -/

def PermClass.shift : PermClass → Nat
  | .user => 6
  | .group => 3
  | .other => 0

def Permission.bit : Permission → Nat
  | .read => 2
  | .write => 1
  | .execute => 0

def permissionsOf (mode : Nat) : Permissions := fun cls perm => mode.testBit (cls.shift + perm.bit)

def classDigit (perms : Permissions) (cls : PermClass) : Nat :=
  4 * (perms cls .read).toNat + 2 * (perms cls .write).toNat + (perms cls .execute).toNat

/-- The mode with these permissions, an octal digit for each class. -/
def modeOf (perms : Permissions) : Nat :=
  64 * classDigit perms .user + 8 * classDigit perms .group + classDigit perms .other

theorem classDigit_permissionsOf (mode : Nat) (cls : PermClass) :
    classDigit (permissionsOf mode) cls = mode / 2 ^ cls.shift % 8 := by
  have digit (perm : Permission) :
      (permissionsOf mode cls perm).toNat = mode / 2 ^ cls.shift / 2 ^ perm.bit % 2 := by
    rw [permissionsOf, Nat.add_comm, ← Nat.testBit_div_two_pow, Nat.toNat_testBit]
  rw [classDigit, digit, digit, digit]
  simp only [Permission.bit]
  omega

theorem modeOf_permissionsOf {mode : Nat} (small : mode < 512) : modeOf (permissionsOf mode) = mode := by
  rw [modeOf, classDigit_permissionsOf, classDigit_permissionsOf, classDigit_permissionsOf]
  simp only [PermClass.shift]
  omega

theorem permissionsOf_or (first second : Nat) (cls : PermClass) (perm : Permission) :
    permissionsOf (first ||| second) cls perm = (permissionsOf first cls perm || permissionsOf second cls perm) :=
  Nat.testBit_or _ _ _

theorem permissionsOf_and (first second : Nat) (cls : PermClass) (perm : Permission) :
    permissionsOf (first &&& second) cls perm = (permissionsOf first cls perm && permissionsOf second cls perm) :=
  Nat.testBit_and _ _ _

theorem permissionsOf_everybody (cls : PermClass) (perm : Permission) : permissionsOf 0o777 cls perm = true := by
  cases cls <;> cases perm <;> decide

theorem permissionsOf_complement777 (mask : Nat) :
    permissionsOf (complement777 mask) = (permissionsOf mask).complement := by
  funext cls perm
  have inside : permissionsOf 0o777 cls perm = true := permissionsOf_everybody cls perm
  rw [permissionsOf] at inside
  rw [permissionsOf, complement777, Nat.testBit_xor, Nat.testBit_and, inside, Bool.and_true, Bool.true_xor]
  rfl

theorem complement777_lt (mask : Nat) : complement777 mask < 512 :=
  Nat.xor_lt_two_pow (n := 9) (by decide) (Nat.lt_of_le_of_lt Nat.and_le_right (by decide))

/-! ## The users of a clause -/

def PermClass.bits (cls : PermClass) : Nat := 7 <<< cls.shift

def ModeWho.bits : ModeWho → Nat
  | .only cls => cls.bits
  | .all => 0o777

theorem permissionsOf_who (who : ModeWho) (cls : PermClass) (perm : Permission) :
    permissionsOf who.bits cls perm = who.covers cls := by
  cases who with
  | all => cases cls <;> cases perm <;> rfl
  | only mentioned => cases mentioned <;> cases cls <;> cases perm <;> rfl

theorem ModeWho.bits_lt (who : ModeWho) : who.bits < 512 := by
  cases who with
  | all => decide
  | only mentioned => cases mentioned <;> decide

theorem umaskChar_who (who : ModeWho) (mode users : Nat) :
    umaskChar ⟨mode, users, 0, none⟩ who.char = .ok ⟨mode, users ||| who.bits, 0, none⟩ := by
  cases who with
  | all => rfl
  | only mentioned => cases mentioned <;> rfl

def whoBits (users : Nat) (who : List ModeWho) : Nat := who.foldl (fun users who => users ||| who.bits) users

theorem foldlM_who (who : List ModeWho) (mode users : Nat) :
    (who.map ModeWho.char).foldlM umaskChar ⟨mode, users, 0, none⟩ = .ok ⟨mode, whoBits users who, 0, none⟩ := by
  induction who generalizing users with
  | nil => rfl
  | cons first who ih =>
      rw [List.map_cons, List.foldlM_cons, umaskChar_who]
      exact ih _

theorem permissionsOf_whoBits (who : List ModeWho) (users : Nat) (cls : PermClass) (perm : Permission) :
    permissionsOf (whoBits users who) cls perm = (permissionsOf users cls perm || who.any (·.covers cls)) := by
  induction who generalizing users with
  | nil => simp [whoBits]
  | cons first who ih =>
      have rest := ih (users ||| first.bits)
      rw [permissionsOf_or, permissionsOf_who, Bool.or_assoc] at rest
      rw [List.any_cons]
      exact rest

theorem whoBits_lt (who : List ModeWho) (users : Nat) (small : users < 512) : whoBits users who < 512 := by
  induction who generalizing users with
  | nil => exact small
  | cons first who ih => exact ih _ (Nat.or_lt_two_pow (n := 9) small first.bits_lt)

/-- The users once the action is read: no letter stands for all of them. -/
def ModeClause.users (clause : ModeClause) : Nat :=
  if whoBits 0 clause.who = 0 then 0o777 else whoBits 0 clause.who

theorem ModeClause.users_lt (clause : ModeClause) : clause.users < 512 := by
  rw [users]
  split
  · decide
  · exact whoBits_lt clause.who 0 (by decide)

theorem permissionsOf_users (clause : ModeClause) (cls : PermClass) (perm : Permission) :
    permissionsOf clause.users cls perm = clause.selects cls := by
  have covered (cls : PermClass) (perm : Permission) :
      permissionsOf (whoBits 0 clause.who) cls perm = clause.who.any (·.covers cls) := by
    have nobody : permissionsOf 0 cls perm = false := Nat.zero_testBit _
    rw [permissionsOf_whoBits, nobody, Bool.false_or]
  rw [ModeClause.users, ModeClause.selects]
  split
  · rename_i nobody
    cases who : clause.who with
    | nil => rw [permissionsOf_everybody, List.isEmpty_nil, Bool.true_or]
    | cons first rest =>
        -- A letter covers a class, so its bits are not all zero.
        obtain ⟨cls, covers⟩ : ∃ cls, first.covers cls = true := by
          cases first with
          | all => exact ⟨.user, rfl⟩
          | only mentioned => exact ⟨mentioned, by simp [ModeWho.covers]⟩
        have set := covered cls .read
        rw [nobody, who, List.any_cons, covers, permissionsOf, Nat.zero_testBit] at set
        cases set
  · rename_i somebody
    have listed : clause.who ≠ [] := fun none => somebody (by rw [none]; rfl)
    rw [covered, List.isEmpty_eq_false_iff.mpr listed, Bool.false_or]

/-! ## The permissions of a clause -/

def Permission.bits (perm : Permission) : Nat := 0o111 <<< perm.bit

def permBits (perms : Nat) (listed : List Permission) : Nat :=
  listed.foldl (fun perms perm => perms ||| perm.bits) perms

theorem permissionsOf_bits (letter : Permission) (cls : PermClass) (perm : Permission) :
    permissionsOf letter.bits cls perm = (perm == letter) := by
  cases letter <;> cases cls <;> cases perm <;> decide

theorem umaskPerm_letter (letter : Permission) (mode users perms : Nat) (action : Char) :
    umaskChar ⟨mode, users, perms, some action⟩ letter.char = .ok ⟨mode, users, perms ||| letter.bits,
      some action⟩ := by
  cases letter <;> rfl

theorem foldlM_letters (listed : List Permission) (mode users perms : Nat) (action : Char) :
    (listed.map Permission.char).foldlM umaskChar ⟨mode, users, perms, some action⟩ =
      .ok ⟨mode, users, permBits perms listed, some action⟩ := by
  induction listed generalizing perms with
  | nil => rfl
  | cons letter listed ih =>
      rw [List.map_cons, List.foldlM_cons, umaskPerm_letter]
      exact ih _

theorem permissionsOf_permBits (listed : List Permission) (perms : Nat) (cls : PermClass) (perm : Permission) :
    permissionsOf (permBits perms listed) cls perm = (permissionsOf perms cls perm || listed.contains perm) := by
  induction listed generalizing perms with
  | nil => simp [permBits]
  | cons letter listed ih =>
      have rest := ih (perms ||| letter.bits)
      rw [permissionsOf_or, permissionsOf_bits, Bool.or_assoc] at rest
      rw [List.contains_cons]
      exact rest

/-- The permissions of a class, for every class. -/
def copiedBits (mode : Nat) (cls : PermClass) : Nat := copyPerms (mode / 2 ^ cls.shift % 8)

theorem umaskPerm_copied (copied : PermClass) (mode users perms : Nat) (action : Char) :
    umaskChar ⟨mode, users, perms, some action⟩ copied.char =
      .ok ⟨mode, users, copiedBits mode copied, some action⟩ := by
  cases copied with
  | user => rfl
  | group => rfl
  | other =>
      have unshifted : mode / 2 ^ PermClass.other.shift = mode := Nat.div_one mode
      rw [copiedBits, unshifted]
      rfl

theorem permissionsOf_copyPerms {digit : Nat} (small : digit < 8) (cls : PermClass) (perm : Permission) :
    permissionsOf (copyPerms digit) cls perm = digit.testBit perm.bit := by
  revert digit
  cases cls <;> cases perm <;> decide

theorem permissionsOf_copiedBits (mode : Nat) (copied cls : PermClass) (perm : Permission) :
    permissionsOf (copiedBits mode copied) cls perm = permissionsOf mode copied perm := by
  have inDigit : perm.bit < 3 := by cases perm <;> decide
  rw [copiedBits, permissionsOf_copyPerms (Nat.mod_lt _ (by decide)), Nat.testBit_mod_two_pow (j := 3),
    decide_eq_true inDigit, Bool.true_and, Nat.testBit_div_two_pow, permissionsOf, Nat.add_comm]

def ModePerms.bits (perms : ModePerms) (mode : Nat) : Nat :=
  match perms with
  | .letters listed => permBits 0 listed
  | .copied cls => copiedBits mode cls

theorem foldlM_perms (perms : ModePerms) (mode users : Nat) (action : Char) :
    perms.text.foldlM umaskChar ⟨mode, users, 0, some action⟩ =
      .ok ⟨mode, users, perms.bits mode, some action⟩ := by
  cases perms with
  | letters listed => exact foldlM_letters listed mode users 0 action
  | copied cls =>
      rw [ModePerms.text, List.foldlM_cons, umaskPerm_copied]
      rfl

theorem permissionsOf_perms (perms : ModePerms) (mode : Nat) (cls : PermClass) (perm : Permission) :
    permissionsOf (perms.bits mode) cls perm = perms.named (permissionsOf mode) perm := by
  cases perms with
  | letters listed =>
      have nothing : permissionsOf 0 cls perm = false := Nat.zero_testBit _
      rw [ModePerms.bits, permissionsOf_permBits, nothing, Bool.false_or]
      rfl
  | copied copied => exact permissionsOf_copiedBits mode copied cls perm

/-! ## Clauses -/

/-- The state of `umask_mode` behind a clause. -/
def ModeClause.pending (mode : Nat) (clause : ModeClause) : UmaskClause :=
  ⟨mode, clause.users, clause.perms.bits mode, some clause.action.char⟩

theorem umaskChar_action (action : ModeAction) (mode users : Nat) :
    umaskChar ⟨mode, users, 0, none⟩ action.char =
      .ok ⟨mode, if users = 0 then 0o777 else users, 0, some action.char⟩ := by
  cases action <;> rfl

theorem foldlM_clause (clause : ModeClause) (mode : Nat) :
    clause.text.foldlM umaskChar ⟨mode, 0, 0, none⟩ = .ok (clause.pending mode) := by
  rw [ModeClause.text, List.foldlM_append, foldlM_who]
  show (clause.action.char :: clause.perms.text).foldlM umaskChar ⟨mode, whoBits 0 clause.who, 0, none⟩ = _
  rw [List.foldlM_cons, umaskChar_action]
  exact foldlM_perms clause.perms mode clause.users clause.action.char

/-- The mode that `umask_update_mode` leaves. -/
def ModeClause.applyMode (mode : Nat) (clause : ModeClause) : Nat :=
  (umaskUpdateMode (clause.pending mode) clause.action.char).mode

theorem permissionsOf_applyMode (clause : ModeClause) (mode : Nat) :
    permissionsOf (clause.applyMode mode) = clause.apply (permissionsOf mode) := by
  funext cls perm
  have selected := permissionsOf_users clause cls perm
  have named := permissionsOf_perms clause.perms mode cls perm
  obtain ⟨who, action, perms⟩ := clause
  cases action with
  | add =>
      have added : ModeClause.applyMode mode ⟨who, .add, perms⟩ =
        mode ||| (ModeClause.users ⟨who, .add, perms⟩ &&& perms.bits mode) := rfl
      rw [added, permissionsOf_or, permissionsOf_and, selected, named]
      rfl
  | remove =>
      have removed : ModeClause.applyMode mode ⟨who, .remove, perms⟩ =
        mode &&& complement777 (ModeClause.users ⟨who, .remove, perms⟩ &&& perms.bits mode) := rfl
      rw [removed, permissionsOf_and, permissionsOf_complement777, Permissions.complement, permissionsOf_and,
        selected, named]
      rfl
  | assign =>
      have assigned : ModeClause.applyMode mode ⟨who, .assign, perms⟩ =
        (mode &&& complement777 (ModeClause.users ⟨who, .assign, perms⟩)) |||
          (perms.bits mode &&& ModeClause.users ⟨who, .assign, perms⟩) := rfl
      rw [assigned, permissionsOf_or, permissionsOf_and, permissionsOf_and, permissionsOf_complement777,
        Permissions.complement, selected, named, ModeClause.apply]
      cases ModeClause.selects ⟨who, .assign, perms⟩ cls <;> simp

theorem ModeClause.applyMode_lt (clause : ModeClause) {mode : Nat} (small : mode < 512) :
    clause.applyMode mode < 512 := by
  have users := clause.users_lt
  obtain ⟨who, action, perms⟩ := clause
  cases action with
  | add => exact Nat.or_lt_two_pow (n := 9) small (Nat.lt_of_le_of_lt Nat.and_le_left users)
  | remove => exact Nat.lt_of_le_of_lt Nat.and_le_left small
  | assign =>
      exact Nat.or_lt_two_pow (n := 9) (Nat.lt_of_le_of_lt Nat.and_le_left small)
        (Nat.lt_of_le_of_lt Nat.and_le_right users)

theorem umaskChar_comma (clause : ModeClause) (mode : Nat) :
    umaskChar (clause.pending mode) ',' = .ok ⟨clause.applyMode mode, 0, 0, none⟩ := rfl

theorem foldlM_clauses (rest : List ModeClause) (first : ModeClause) (mode : Nat) :
    ∃ (last : ModeClause) (before : Nat),
      (symbolicMode first rest).foldlM umaskChar ⟨mode, 0, 0, none⟩ = .ok (last.pending before) ∧
      last.applyMode before = (first :: rest).foldl ModeClause.applyMode mode := by
  induction rest generalizing first mode with
  | nil =>
      refine ⟨first, mode, ?_, rfl⟩
      rw [symbolicMode, List.flatMap_nil, List.append_nil, foldlM_clause]
  | cons second rest ih =>
      obtain ⟨last, before, read, applied⟩ := ih second (first.applyMode mode)
      refine ⟨last, before, ?_, applied⟩
      have split : symbolicMode first (second :: rest) = first.text ++ ',' :: symbolicMode second rest := by
        simp [symbolicMode]
      rw [split, List.foldlM_append, foldlM_clause]
      show (',' :: symbolicMode second rest).foldlM umaskChar (first.pending mode) = _
      rw [List.foldlM_cons, umaskChar_comma]
      exact read

theorem foldl_applyMode (clauses : List ModeClause) {mode : Nat} (small : mode < 512) :
    clauses.foldl ModeClause.applyMode mode < 512 ∧
      permissionsOf (clauses.foldl ModeClause.applyMode mode) = clauses.foldl ModeClause.apply (permissionsOf mode)
        := by
  induction clauses generalizing mode with
  | nil => exact ⟨small, rfl⟩
  | cons clause clauses ih =>
      rw [List.foldl_cons, List.foldl_cons, ← permissionsOf_applyMode]
      exact ih (clause.applyMode_lt small)

/-- The mask that the clauses make of a mask. -/
def chmodMask (mask : Nat) (clauses : List ModeClause) : Nat :=
  modeOf (clauses.foldl ModeClause.apply (permissionsOf mask).complement).complement

theorem umaskMode_clauses (mask : Nat) (first : ModeClause) (rest : List ModeClause) :
    umaskMode mask (symbolicMode first rest) = .ok (chmodMask mask (first :: rest)) := by
  obtain ⟨last, before, read, applied⟩ := foldlM_clauses rest first (complement777 mask)
  obtain ⟨small, permissions⟩ := foldl_applyMode (first :: rest) (complement777_lt mask)
  have updated : umaskMode mask (symbolicMode first rest) = .ok (complement777 (last.applyMode before)) := by
    rw [umaskMode, read]
    rfl
  rw [updated, applied, chmodMask, ← permissionsOf_complement777 mask, ← permissions, ← permissionsOf_complement777,
    modeOf_permissionsOf (complement777_lt _)]

/-! ## Strings that are no symbolic modes -/

/-- Where the first clause has no action. -/
def LacksAction (symbolic : Str) : Prop := ∀ c ∈ symbolic.takeWhile (· ≠ ','), c ∉ "+-=".toList

instance (symbolic : Str) : Decidable (LacksAction symbolic) :=
  inferInstanceAs (Decidable (∀ c ∈ symbolic.takeWhile (· ≠ ','), c ∉ "+-=".toList))

def modeLetters : Str := ['u', 'g', 'o', 'a', '+', '-', '=', 'r', 'w', 'x', ',']

theorem umaskChar_foreign {c : Char} (foreign : c ∉ modeLetters) (clause : UmaskClause) :
    ∃ msg, umaskChar clause c = .error msg := by
  have others : c ≠ 'u' ∧ c ≠ 'g' ∧ c ≠ 'o' ∧ c ≠ 'a' ∧ c ≠ '+' ∧ c ≠ '-' ∧ c ≠ '=' ∧ c ≠ 'r' ∧ c ≠ 'w' ∧
      c ≠ 'x' ∧ c ≠ ',' := by
    simpa only [modeLetters, List.mem_cons, List.not_mem_nil, or_false, not_or] using foreign
  cases action : clause.action with
  | none =>
      exact ⟨"Unknown who -- '".toList ++ [c] ++ "'\n".toList, by simp [umaskChar, action, umaskWho, others]⟩
  | some _ =>
      exact ⟨"Invalid permission -- '".toList ++ [c] ++ "'\n".toList, by simp [umaskChar, action, umaskPerm, others]⟩

theorem foldlM_foreign (symbolic : Str) (foreign : ∃ c ∈ symbolic, c ∉ modeLetters) (clause : UmaskClause) :
    ∃ msg, symbolic.foldlM umaskChar clause = .error msg := by
  induction symbolic generalizing clause with
  | nil => simp at foreign
  | cons c symbolic ih =>
      rw [List.foldlM_cons]
      cases first : umaskChar clause c with
      | error msg => exact ⟨msg, rfl⟩
      | ok next =>
          obtain ⟨other, member, unknown⟩ := foreign
          rcases List.mem_cons.mp member with rfl | later
          · obtain ⟨msg, failed⟩ := umaskChar_foreign unknown clause
            rw [first] at failed
            cases failed
          · exact ih ⟨other, later, unknown⟩ next

theorem umaskWho_action {clause next : UmaskClause} {c : Char} (noAction : c ∉ "+-=".toList)
    (read : umaskWho clause c = .ok next) : next.action = clause.action := by
  have others : ¬ ((c = '+' || c = '-' || c = '=') = true) := by simpa [or_assoc] using noAction
  rw [umaskWho, if_neg others] at read
  split at read
  · cases read; rfl
  · split at read
    · cases read; rfl
    · split at read
      · cases read; rfl
      · split at read
        · cases read; rfl
        · cases read

/-- The users of a clause are read on and on when no action follows. -/
theorem foldlM_lacksAction (symbolic : Str) (lacks : LacksAction symbolic) (clause : UmaskClause)
    (inUsers : clause.action = none) :
    (∃ msg, symbolic.foldlM umaskChar clause = .error msg) ∨
      ∃ after, symbolic.foldlM umaskChar clause = .ok after ∧ after.action = none := by
  induction symbolic generalizing clause with
  | nil => exact .inr ⟨clause, rfl, inUsers⟩
  | cons c symbolic ih =>
      rw [List.foldlM_cons]
      cases first : umaskChar clause c with
      | error msg => exact .inl ⟨msg, rfl⟩
      | ok next =>
          rw [umaskChar, inUsers] at first
          have notComma : c ≠ ',' := by
            rintro rfl
            cases first
          have taken : (c :: symbolic).takeWhile (· ≠ ',') = c :: symbolic.takeWhile (· ≠ ',') := by
            rw [List.takeWhile_cons, if_pos (by simpa using notComma)]
          have noAction : c ∉ "+-=".toList := lacks c (taken ▸ List.mem_cons_self)
          have rest : LacksAction symbolic := fun other member => lacks other (taken ▸ List.mem_cons_of_mem _ member)
          have stays : next.action = none := by rw [umaskWho_action noAction first, inUsers]
          exact ih rest next stays

theorem umaskMode_rejects (mask : Nat) {symbolic : Str}
    (malformed : LacksAction symbolic ∨ ∃ c ∈ symbolic, c ∉ modeLetters) :
    ∃ msg, umaskMode mask symbolic = .error msg := by
  rw [umaskMode]
  rcases malformed with lacks | foreign
  · rcases foldlM_lacksAction symbolic lacks ⟨complement777 mask, 0, 0, none⟩ rfl with ⟨msg, failed⟩ | ⟨after, read,
      inUsers⟩
    · exact ⟨msg, by rw [failed]⟩
    · exact ⟨_, by rw [read]; dsimp only; rw [inUsers]⟩
  · obtain ⟨msg, failed⟩ := foldlM_foreign symbolic foreign ⟨complement777 mask, 0, 0, none⟩
    exact ⟨msg, by rw [failed]⟩

/-! ## The mask of the process -/

/-- A system in which the mask of the process can be seen. `umask` sets it and
returns the one before, and a message leaves it alone. -/
structure ShowsMask (World : Type) [System World] where
  mask : World → Nat
  mask_lt : ∀ world, mask world < 512
  umask_reply : ∀ mode world, (System.umask mode world).1 = mask world
  umask_sets : ∀ mode world, mask (System.umask mode world).2 = mode % 512
  printErr_keeps : ∀ text world, mask (System.printErr text world).2 = mask world

variable {World : Type} [System World]

/-- `umask_mode` with its calls, which sets `*mode` if it returns true. -/
def umaskModeCalls (symbolic : Str) : Leaf World (Option Nat) := do
  let mask ← umaskCurrentMask
  match umaskMode mask symbolic with
  | .error msg => do
      eprintf msg
      pure none
  | .ok mode => pure (some mode)

theorem umaskCurrentMask_run (shows : ShowsMask World) (state : Shell World) :
    ∃ after, Leaf.run umaskCurrentMask state = .done (shows.mask state.world) after ∧
      shows.mask after.world = shows.mask state.world := by
  have asked : Leaf.run umaskCurrentMask state = .done (System.umask 0o022 state.world).1
      { state with
        world := (System.umask (System.umask 0o022 state.world).1 (System.umask 0o022 state.world).2).2 } := rfl
  rw [shows.umask_reply] at asked
  refine ⟨_, asked, ?_⟩
  rw [shows.umask_sets]
  exact Nat.mod_eq_of_lt (shows.mask_lt _)

theorem umaskModeCalls_run (shows : ShowsMask World) (symbolic : Str) (state : Shell World) :
    ∃ after, Leaf.run (umaskModeCalls symbolic) state =
        .done (umaskMode (shows.mask state.world) symbolic).toOption after ∧
      shows.mask after.world = shows.mask state.world := by
  obtain ⟨between, read, kept⟩ := umaskCurrentMask_run shows state
  rw [umaskModeCalls, Leaf.run_bind, read]
  show ∃ after, Leaf.run (match umaskMode (shows.mask state.world) symbolic with
      | .error msg => do
          eprintf msg
          pure none
      | .ok mode => pure (some mode)) between = _ ∧ _
  cases umaskMode (shows.mask state.world) symbolic with
  | ok mode => exact ⟨between, rfl, kept⟩
  | error msg =>
      refine ⟨{ between with world := (System.printErr msg between.world).2 }, rfl, ?_⟩
      rw [← kept]
      exact shows.printErr_keeps msg between.world

/-- `builtin_umask` with an operand that is no octal number. -/
theorem builtinUmask_symbolic (name : Str) (args : List Str) {mode : Str}
    (plain : strChar mode 0 ≠ '-' ∨ strChar mode 1 = nul) (symbolic : (strtol 8 mode).rest.isEmpty = false)
    (state : Shell World) :
    Leaf.run (builtinUmask (name :: mode :: args)) state =
      Leaf.run (do
        match ← umaskModeCalls mode with
        | none => usageError umaskUsage
        | some mask => do
            let _ ← call (System.umask mask)
            pure 0) { state with getopt := state.getopt.plain } := by
  rw [builtinUmask, Leaf.run_bind, forOptions_plain name ":S".toList args false _ plain]
  show Leaf.run (if (strtol 8 mode).rest.isEmpty then _ else _) { state with getopt := state.getopt.plain } = _
  rw [symbolic, if_neg Bool.false_ne_true, umaskModeCalls, bind_assoc]
  congr 2
  funext mask
  cases umaskMode mask mode <;> rfl

/-- A symbolic mode gives the mask that `chmod` would, and a string without an
action in its first clause or with another character gives none. The mask of the
process stays the same, since only the caller sets it. -/
theorem umaskModeCalls_chmod (shows : ShowsMask World) (state : Shell World) :
    (∀ first rest, ∃ after,
      Leaf.run (umaskModeCalls (symbolicMode first rest)) state =
          .done (some (chmodMask (shows.mask state.world) (first :: rest))) after ∧
        shows.mask after.world = shows.mask state.world) ∧
    (∀ symbolic, (LacksAction symbolic ∨ ∃ c ∈ symbolic, c ∉ modeLetters) → ∃ after,
      Leaf.run (umaskModeCalls symbolic) state = .done none after ∧
        shows.mask after.world = shows.mask state.world) := by
  constructor
  · intro first rest
    obtain ⟨after, run, kept⟩ := umaskModeCalls_run shows (symbolicMode first rest) state
    rw [umaskMode_clauses] at run
    exact ⟨after, run, kept⟩
  · intro symbolic malformed
    obtain ⟨after, run, kept⟩ := umaskModeCalls_run shows symbolic state
    obtain ⟨msg, failed⟩ := umaskMode_rejects (shows.mask state.world) malformed
    rw [failed] at run
    exact ⟨after, run, kept⟩

/-! ## A machine with a mask -/

structure MaskedMachine where
  machine : Machine
  mask : Nat
  mask_lt : mask < 512

instance : System MaskedMachine :=
  { (⟨MaskedMachine.machine, fun masked machine => { masked with machine }⟩ :
      SystemPart MaskedMachine Machine).system with
    umask := fun mode masked => (masked.mask, { masked with mask := mode % 512, mask_lt := Nat.mod_lt _ (by decide) }) }

def maskedMachineShows : ShowsMask MaskedMachine where
  mask := MaskedMachine.mask
  mask_lt := MaskedMachine.mask_lt
  umask_reply _ _ := rfl
  umask_sets _ _ := rfl
  printErr_keeps _ _ := rfl

/-- A shell whose files nobody else may write. -/
def maskedShell : Shell MaskedMachine := mrshStateCreate [] ⟨.isolated, 0o022, by decide⟩

/-- With the mask 022, `g+w,o=u` leaves only the mask 000, and `u` is no mode. -/
theorem umaskModeCalls_masked :
    (∃ after, Leaf.run (umaskModeCalls "g+w,o=u".toList) maskedShell = .done (some 0) after ∧
      after.world.mask = 0o022) ∧
    (∃ after, Leaf.run (umaskModeCalls ['u']) maskedShell = .done none after ∧ after.world.mask = 0o022) := by
  obtain ⟨accepts, rejects⟩ := umaskModeCalls_chmod maskedMachineShows maskedShell
  exact ⟨accepts ⟨[.only .group], .add, .letters [.write]⟩ [⟨[.only .other], .assign, .copied .user⟩],
    rejects ['u'] (.inl (by decide))⟩

end Mrsh

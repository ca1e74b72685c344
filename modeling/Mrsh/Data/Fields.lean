import Mathlib.Data.List.Basic

namespace Mrsh.Data

/-! # Field splitting

A text to be split is a sequence of delimiters and of contents. Space at either
end is ignored, a separator together with the space around it ends a field,
and so does any other run of space. Adjacent contents belong to one field,
which exists even when their text is empty.
-/

inductive Item (β : Type) where
  | space
  | separator
  | content (text : List β)

/-- What the items read so far end with: no field since the start or since the
last separator, a field, or a field and space. -/
inductive Scan (β : Type) where
  | delimited
  | field (text : List β)
  | spaced

structure Split (β : Type) where
  fields : List (List β)
  scan : Scan β

variable {β : Type}

namespace Split

def step : Split β → Item β → Split β
  | ⟨fields, .delimited⟩, .space => ⟨fields, .delimited⟩
  | ⟨fields, .delimited⟩, .separator => ⟨fields ++ [[]], .delimited⟩
  | ⟨fields, .delimited⟩, .content text => ⟨fields, .field text⟩
  | ⟨fields, .field field⟩, .space => ⟨fields ++ [field], .spaced⟩
  | ⟨fields, .field field⟩, .separator => ⟨fields ++ [field], .delimited⟩
  | ⟨fields, .field field⟩, .content text => ⟨fields, .field (field ++ text)⟩
  | ⟨fields, .spaced⟩, .space => ⟨fields, .spaced⟩
  | ⟨fields, .spaced⟩, .separator => ⟨fields, .delimited⟩
  | ⟨fields, .spaced⟩, .content text => ⟨fields, .field text⟩

def finish : Split β → List (List β)
  | ⟨fields, .field field⟩ => fields ++ [field]
  | ⟨fields, _⟩ => fields

def init : Split β := ⟨[], .delimited⟩

/-- How many fields there are if the text ends here. -/
def count : Split β → Nat
  | ⟨fields, .field _⟩ => fields.length + 1
  | ⟨fields, _⟩ => fields.length

theorem length_finish (split : Split β) : split.finish.length = split.count := by
  obtain ⟨fields, scan⟩ := split
  cases scan <;> simp [finish, count]

theorem step_forall {P : β → Prop} {split : Split β} {item : Item β}
    (holds : ∀ field ∈ split.finish, ∀ b ∈ field, P b) (contents : ∀ text, item = .content text → ∀ b ∈ text, P b) :
    ∀ field ∈ (split.step item).finish, ∀ b ∈ field, P b := by
  obtain ⟨fields, scan⟩ := split
  cases scan <;> cases item <;> simp_all [step, finish] <;> grind

end Split

def splitItems (items : List (Item β)) : List (List β) :=
  (items.foldl Split.step Split.init).finish

theorem splitItems_forall {P : β → Prop} (items : List (Item β))
    (contents : ∀ text, .content text ∈ items → ∀ b ∈ text, P b) : ∀ field ∈ splitItems items, ∀ b ∈ field, P b := by
  have runs (split : Split β) (holds : ∀ field ∈ split.finish, ∀ b ∈ field, P b) :
      ∀ field ∈ (items.foldl Split.step split).finish, ∀ b ∈ field, P b := by
    induction items generalizing split with
    | nil => exact holds
    | cons item items ih =>
        exact ih (fun text member => contents text (List.mem_cons_of_mem _ member)) _
          (Split.step_forall holds fun text same => contents text (same ▸ List.mem_cons_self))
  exact runs Split.init (by simp [Split.init, Split.finish])

example : splitItems (β := Nat) [.space, .separator, .content [1], .space, .separator,
    .separator, .content [2], .content [], .space, .content []] = [[], [1], [], [2], []] := rfl

end Mrsh.Data

/-!
# Updates and settling

An `Update` is the outcome of an operation that says whether it changed anything. `settle` repeats
such an operation until nothing changes, at most a given number of times:

* `settle_eq_self`: what a step leaves alone is already settled;
* `settle_induction`: a property that a step keeps holds of the settled value.
-/

namespace LRAutomata

/-- A value after an operation, and whether the operation changed it. -/
structure Update (α : Type) where
  value : α
  changed : Bool
deriving DecidableEq

namespace Update

/-- Goes on with the value of `u`, and counts as a change if either step does. -/
def andThen {α : Type} : Update α → (α → Update α) → Update α
  | ⟨a, changed⟩, f => let v := f a; ⟨v.value, changed || v.changed⟩

/-- One pass over a list: an operation for each of its elements in turn. -/
def pass {α β : Type} (f : β → α → Update α) (elements : List β) (a : α) : Update α :=
  elements.foldl (fun u b => u.andThen (f b)) ⟨a, false⟩

@[simp] theorem value_andThen {α : Type} (u : Update α) (f : α → Update α) :
    (u.andThen f).value = (f u.value).value := rfl

@[simp] theorem changed_andThen {α : Type} (u : Update α) (f : α → Update α) :
    (u.andThen f).changed = (u.changed || (f u.value).changed) := rfl

end Update

/-- Repeats `step` until it changes nothing, but at most `bound` times. -/
def settle {α : Type} (step : α → Update α) : (bound : Nat) → α → α
  | 0, a => a
  | bound + 1, a =>
    let u := step a
    if u.changed then settle step bound u.value else u.value

theorem settle_eq_self {α : Type} {step : α → Update α} {a : α} (h : step a = ⟨a, false⟩)
    (bound : Nat) : settle step bound a = a := by
  cases bound <;> simp [settle, h]

theorem settle_induction {α : Type} {step : α → Update α} {P : α → Prop}
    (hs : ∀ a, P a → P (step a).value) (bound : Nat) {a : α} (h : P a) :
    P (settle step bound a) := by
  induction bound generalizing a with
  | zero => exact h
  | succ n ih =>
    simp only [settle]
    split
    · exact ih (hs a h)
    · exact hs a h

end LRAutomata

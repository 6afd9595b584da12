import LRAutomata.Item.Closure

/-!
# States

A `State` has items and transitions. `Transitions` is a finite map from symbols to states in which
an entry, once made, stays:

* `Transitions.insert`: refused if the symbol already leads elsewhere;
* `target?_insert`: what inserting does to the map.
-/

namespace LRAutomata

/-- The edge of a state on one symbol. -/
structure Transition where
  symbol : Symbol
  target : StateId
deriving DecidableEq, Inhabited

namespace Transition

def rank (e : Transition) : Nat := e.symbol.rank

theorem rank_eq_iff {e : Transition} {X : Symbol} : e.rank = X.rank ↔ e.symbol = X :=
  ⟨Symbol.rank_inj, congrArg Symbol.rank⟩

end Transition

/-- The edges of a state, in the order of their symbols. -/
abbrev Transitions := SortedList Transition Transition.rank

namespace Transitions

/-- Where a symbol leads. -/
def target? (t : Transitions) (X : Symbol) : Option StateId :=
  (t.find? X.rank).map Transition.target

def contains (t : Transitions) (X : Symbol) : Bool := (t.target? X).isSome

/-- Makes a symbol lead to a state, unless it already leads to another one. -/
def insert (t : Transitions) (X : Symbol) (target : StateId) :
    Except Fault (Update Transitions) :=
  match t.target? X with
  | none => .ok ⟨t.put ⟨X, target⟩, true⟩
  | some existing =>
    if existing = target then .ok ⟨t, false⟩
    else .error (.conflictingTransition X existing target)

/-- The edges of a list, inserted in turn. -/
def ofList (es : List Transition) : Except Fault Transitions :=
  es.foldlM (fun t e => (t.insert e.symbol e.target).map Update.value) ∅

theorem target?_put (t : Transitions) (e : Transition) (X : Symbol) :
    target? (t.put e) X = if e.symbol = X then some e.target else t.target? X := by
  simp only [target?, SortedList.find?_put, Transition.rank_eq_iff]
  split <;> rfl

theorem target?_insert {t : Transitions} {X : Symbol} {target : StateId}
    {u : Update Transitions} (h : t.insert X target = .ok u) (Y : Symbol) :
    u.value.target? Y = if X = Y then some target else t.target? Y := by
  simp only [insert] at h
  split at h
  · cases h; exact target?_put ..
  next existing he =>
    split at h
    next e =>
      cases h
      by_cases hY : X = Y
      · rw [if_pos hY, ← hY, he, e]
      · rw [if_neg hY]
    · cases h

end Transitions

/-- The items of a state and its transitions. -/
structure State where
  items : Items
  transitions : Transitions
deriving DecidableEq

namespace State

/-- A state that leads nowhere yet. -/
def ofItems (items : Items) : State := ⟨items, ∅⟩

/-- The state with its items closed. -/
def close (g : Grammar) (f : FirstSets) (s : State) : Except Fault State := do
  return { s with items := ← s.items.close g f }

/-- The items under one heading and, if there are any, the transitions under another. -/
def text (g : Grammar) (s : State) : Except Fault String := do
  let items ← s.items.text g
  let edges ← s.transitions.toList.mapM fun e => do
    return "- " ++ (← g.name e.symbol) ++ " => goto(" ++ e.target.text ++ ")\n"
  return "## items\n" ++ items
    ++ (if s.transitions.isEmpty then "" else "## gotos\n" ++ String.join edges)

end State

end LRAutomata

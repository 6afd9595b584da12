import LRAutomata.Symbol

/-!
# Faults

The ways in which an operation on item sets and automata can fail. `Fault.message?` is the text of
a fault that breaks a stated rule of an operation; a failed look-up has none.
-/

namespace LRAutomata

inductive Fault where
  /-- The terminal has a number that no terminal set can hold. -/
  | capacityExceeded (t : Terminal)
  /-- A signature was to be spread over no buckets at all. -/
  | zeroBuckets
  /-- The symbol already leads to another state. -/
  | conflictingTransition (symbol : Symbol) (existing requested : StateId)
  /-- The state asked for is not the next one. -/
  | outOfSequence (state : StateId)
  /-- Another state already has the signature. -/
  | duplicateState (state : StateId)
  /-- A transition leads to a state that does not exist. -/
  | unknownTarget (state : StateId)
  /-- The state does not exist. -/
  | unknownState (state : StateId)
  /-- The grammar has no such production. -/
  | undeclaredProduction (production : ProductionId)
  /-- The grammar has no such symbol. -/
  | undeclaredSymbol (symbol : Symbol)
  /-- The dot of an item lies beyond the end of its production. -/
  | dotBeyondEnd (production : ProductionId) (dot : UInt16)
  /-- The dot cannot move any further. -/
  | dotOverflow (production : ProductionId)
  /-- No item stands at the position. -/
  | noItemAt (position : Nat)
  /-- A state lacks a transition on a symbol that follows a dot. -/
  | missingTransition (state : StateId) (symbol : Symbol)
  /-- The target of a transition lacks an item that the transition carries into it. -/
  | missingKernelItem (state : StateId) (production : ProductionId) (dot : UInt16)
  /-- New lookaheads came with other cores than those of the state. -/
  | coresChanged (state : StateId)
  /-- The automaton needs more states than are allowed. -/
  | tooManyStates
deriving DecidableEq

namespace Fault

/-- What a fault says, if it says anything. -/
def message? : Fault → Option String
  | capacityExceeded t => some ("terminal " ++ t.label ++ " exceeds lookahead capacity")
  | zeroBuckets => some "bucket count must be positive"
  | conflictingTransition X existing requested =>
    some ("conflicting goto targets on " ++ X.label ++ ": " ++ existing.label ++ " and " ++
      requested.label)
  | outOfSequence s => some ("state " ++ s.label ++ " added out of sequence")
  | duplicateState s => some ("state " ++ s.label ++ " is a duplicate")
  | unknownTarget s => some ("goto to unknown state " ++ s.label)
  | _ => none

end Fault

end LRAutomata

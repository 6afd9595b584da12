import LRAutomata.Automaton.Index
import LRAutomata.State

/-!
# Automata

An `Automaton` numbers its states in the order in which they were added and finds them again by
their signatures. Whether the lookaheads count in a signature is decided by the method: with
`canonical` they do, with `lalr` states with the same cores are one.

* `Automaton.add`: adds a state under the next number, unless its signature is taken;
* `Automaton.intern`: finds a state or adds it;
* `Automaton.addTransition`: lets an existing state lead to an existing state.
-/

namespace LRAutomata

/-- How the states of an automaton are told apart. -/
inductive Method where
  | canonical
  | lalr
deriving DecidableEq

namespace Method

instance : Inhabited Method := ⟨lalr⟩

/-- Whether states with the same cores but other lookaheads are different states. -/
def countsLookaheads : Method → Bool
  | canonical => true
  | lalr => false

def label : Method → String
  | canonical => "Canonical"
  | lalr => "LALR"

end Method

/-- A state of an automaton, with what the automaton keeps of it. -/
structure Node extends State where
  /-- The symbols after a dot, each once and in order. -/
  successors : List Symbol
  /-- What the state is found by. -/
  signature : Signature
deriving DecidableEq

/-- States in the order of their numbers, and the index over them. -/
structure Automaton where
  method : Method
  nodes : Array Node
  index : SignatureIndex
deriving DecidableEq

namespace Automaton

/-- An automaton without states. -/
def empty (method : Method) : Automaton := ⟨method, #[], SignatureIndex.empty⟩

def size (a : Automaton) : Nat := a.nodes.size

def isEmpty (a : Automaton) : Bool := a.nodes.isEmpty

/-- The number that the next state gets. -/
def freshId (a : Automaton) : StateId := ⟨a.size⟩

/-- All states, in order. -/
def stateIds (a : Automaton) : List StateId := (List.range a.size).map StateId.mk

def node? (a : Automaton) (s : StateId) : Option Node := a.nodes[s.number]?

/-- The state of that number, which must exist. -/
def node (a : Automaton) (s : StateId) : Except Fault Node :=
  match a.node? s with
  | some n => .ok n
  | none => .error (.unknownState s)

def signature? (a : Automaton) (s : StateId) : Option Signature := (a.node? s).map Node.signature

/-- The signature that a candidate has under the method of the automaton. -/
def signatureFor (a : Automaton) (candidate : State) : Signature :=
  .ofItems a.method.countsLookaheads candidate.items

variable [WordHash]

/-- The state with the signature. -/
def find? (a : Automaton) (k : Signature) : Option StateId := a.index.find? a.signature? k

/-- Adds a state under a number and a signature of its own; the number must be the next one and
no state may have the signature. The index is told of the state when it is among the others. -/
def add (g : Grammar) (a : Automaton) (candidate : State) (k : Signature) (s : StateId) :
    Except Fault Automaton :=
  if s ≠ a.freshId then .error (.outOfSequence s)
  else if (a.find? k).isSome then .error (.duplicateState s)
  else do
    let successors ← candidate.items.successors g
    let n : Node := { candidate with successors := successors, signature := k }
    let b : Automaton := { a with nodes := a.nodes.push n }
    return { b with index := ← b.index.insert b.signature? s }

/-- The state with the items of the candidate, added if it is new; and whether it is. -/
def intern (g : Grammar) (a : Automaton) (candidate : State) :
    Except Fault (StateId × Update Automaton) :=
  let k := a.signatureFor candidate
  match a.find? k with
  | some s => .ok (s, ⟨a, false⟩)
  | none => (a.add g candidate k a.freshId).map fun b => (a.freshId, ⟨b, true⟩)

/-- Where a state, which must exist, leads on `X`. -/
def transition? (a : Automaton) (s : StateId) (X : Symbol) : Except Fault (Option StateId) := do
  return (← a.node s).transitions.target? X

/-- Lets a state lead to another on `X`. -/
def addTransition (a : Automaton) (source : StateId) (X : Symbol) (target : StateId) :
    Except Fault (Update Automaton) :=
  if a.size ≤ target.number then .error (.unknownTarget target)
  else do
    let n ← a.node source
    let u ← n.transitions.insert X target
    return ⟨{ a with
      nodes := a.nodes.setIfInBounds source.number { n with transitions := u.value } }, u.changed⟩

/-- The states along a path from `s`; there is none from the first missing transition on. -/
def follow (a : Automaton) (s : Option StateId) : List Symbol → List (Option StateId)
  | [] => []
  | X :: Xs =>
    let t := s.bind fun s => (a.node? s).bind fun n => n.transitions.target? X
    t :: a.follow t Xs

/-- All states, each under its number, with blank lines between them. -/
def text (g : Grammar) (a : Automaton) : Except Fault String := do
  let parts ← a.nodes.toList.zipIdx.mapM fun (n, i) => do
    return "#### State " ++ paddedDigits 2 i ++ "\n" ++ (← n.toState.text g)
  return String.intercalate "\n" parts

end Automaton

end LRAutomata

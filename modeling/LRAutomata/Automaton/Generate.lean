import LRAutomata.Automaton.Basic
import LRAutomata.Automaton.Propagation
import LRAutomata.IndexedSet

/-!
# Generating the automaton of a grammar

`Automaton.generate` starts from the closed start item and visits the states in the order of their
numbers; a visit follows every symbol after a dot to a state that is found or added. The canonical
method is then done. The LALR method follows symbols without their lookaheads and finds these
afterwards: an item closed with the propagation marker alone shows which lookaheads arise at its
successors and which are inherited.
-/

namespace LRAutomata

/-- How an automaton is generated. -/
structure Options where
  method : Method := .lalr
  /-- How many states an automaton may have. -/
  maxStates : Nat := 4294967296
deriving DecidableEq

/-- The same options with another method. -/
def Options.withMethod (o : Options) (method : Method) : Options := { o with method := method }

/-- A generation under way: the grammar, its First sets and the options. -/
structure Generator where
  grammar : Grammar
  first : FirstSets
  options : Options

variable [WordHash]

namespace Generator

/-- The generator for a grammar. -/
def ofGrammar (g : Grammar) (options : Options) : Generator := ⟨g, g.firstSets, options⟩

/-- The items that the start state is closed from. -/
def startItems : Items :=
  Items.ofList [⟨⟨ProductionId.accept, 0⟩, TerminalSet.single Terminal.endOfInput⟩]

/-- The automaton with its start state only. -/
def start (e : Generator) : Except Fault Automaton := do
  let candidate ← (State.ofItems startItems).close e.grammar e.first
  let a := Automaton.empty e.options.method
  a.add e.grammar candidate (a.signatureFor candidate) StateId.initial

/-- The closed state that `items` lead to on `X`. -/
def successor (e : Generator) (items : Items) (X : Symbol) : Except Fault State := do
  let kernel ← items.shift e.grammar X
  let kernel := if e.options.method.countsLookaheads then kernel else kernel.withoutLookaheads
  (State.ofItems kernel).close e.grammar e.first

/-- Follows one symbol from a state. -/
def step (e : Generator) (source : StateId) (a : Automaton) (X : Symbol) :
    Except Fault Automaton := do
  let candidate ← e.successor (← a.node source).items X
  let (target, u) ← a.intern e.grammar candidate
  return (← u.value.addTransition source X target).value

/-- Follows every symbol after a dot of a state, in order. -/
def visit (e : Generator) (a : Automaton) (source : StateId) : Except Fault Automaton := do
  (← a.node source).successors.foldlM (e.step source) a

/-- Visits the states from number `current` on, `budget` of them at most. A visit may add states;
they are visited in their turn. -/
def explore (e : Generator) : (budget : Nat) → (current : Nat) → Automaton →
    Except Fault Automaton
  | 0, current, a => if current < a.size then .error .tooManyStates else .ok a
  | budget + 1, current, a =>
    if current < a.size then do
      let b ← e.visit a ⟨current⟩
      e.explore budget (current + 1) b
    else .ok a

/-- Lookaheads that an entry brings about at a successor. -/
structure Contribution where
  target : Anchor
  lookaheads : TerminalSet

/-- The kernel items of an automaton without lookaheads, apart from the end of input after the
start symbol. -/
def initialTable (a : Automaton) : LookaheadTable :=
  let bare : LookaheadTable := ⟨a.nodes.map fun n => n.items.kernel.withoutLookaheads⟩
  (bare.merge ⟨StateId.initial, ⟨ProductionId.accept, 0⟩⟩
    (TerminalSet.single Terminal.endOfInput)).value

/-- Where an item of the closure of an entry moves its lookaheads. -/
def contribution (e : Generator) (a : Automaton) (table : LookaheadTable) (source : StateId)
    (i : Item) : Except Fault (Option Contribution) :=
  match e.grammar.next? i.core with
  | none => .ok none
  | some X => do
    let some target ← a.transition? source X | .error (.missingTransition source X)
    let moved ← i.advance
    let anchor : Anchor := ⟨target, moved.core⟩
    if (table.lookaheads? anchor).isSome then .ok (some ⟨anchor, i.lookaheads⟩)
    else .error (.missingKernelItem target moved.core.production moved.core.dot)

/-- What an entry contributes, closed with the propagation marker as its only lookahead. -/
def contributions (e : Generator) (a : Automaton) (table : LookaheadTable) (source : Anchor) :
    Except Fault (List Contribution) := do
  let alone : Items := Items.ofList [⟨source.core, TerminalSet.single Terminal.marker⟩]
  let closed ← alone.close e.grammar e.first
  let found ← closed.toList.mapM (e.contribution a table source.state)
  return found.filterMap id

/-- The table with the lookaheads that arise at once, and the links for the inherited ones, each
link once. -/
def spread (e : Generator) (a : Automaton) (table : LookaheadTable) :
    Except Fault (LookaheadTable × IndexedSet Link) := do
  let found ← table.anchors.mapM fun source => do
    return (source, ← e.contributions a table source)
  let links := IndexedSet.ofList <| found.flatMap fun (source, cs) =>
    (cs.filter fun c => c.lookaheads.contains Terminal.marker).map fun c => ⟨source, c.target⟩
  let arising := found.flatMap Prod.snd
  return (arising.foldl (fun t c => (t.merge c.target c.lookaheads).value) table, links)

/-- A state with new lookaheads for its kernel items; its cores must stay the same. -/
def relabel (e : Generator) (s : StateId) (n : Node) (kernel : Items) : Except Fault Node := do
  let items ← kernel.close e.grammar e.first
  if !n.items.sameCores items then .error (.coresChanged s)
  return { n with items := items, successors := ← items.successors e.grammar }

/-- Gives every state its lookaheads. -/
def assignLookaheads (e : Generator) (a : Automaton) : Except Fault Automaton := do
  let (table, links) ← e.spread a (initialTable a)
  let final := table.propagate links.entries
  let nodes ← a.stateIds.mapM fun s => do e.relabel s (← a.node s) (final.row s)
  return { a with nodes := nodes.toArray }

end Generator

namespace Automaton

/-- The automaton of a grammar. -/
def generate (options : Options) (g : Grammar) : Except Fault Automaton := do
  let e := Generator.ofGrammar g options
  let a ← e.explore options.maxStates 0 (← e.start)
  match options.method with
  | .canonical => return a
  | .lalr => e.assignLookaheads a

end Automaton

end LRAutomata

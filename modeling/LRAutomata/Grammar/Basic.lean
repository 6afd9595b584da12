import LRAutomata.Fault

/-!
# Grammars

A `Grammar` lists its terminals and nonterminals by name and its productions, each at the place
that its number says. The reserved symbols and the augmented start production are among them.
A look-up whose name ends in `?` is optional; `Grammar.name` and `Grammar.production` fail on what
the grammar does not have.
-/

namespace LRAutomata

/-- A production rule. -/
structure Production where
  left : Nonterminal
  right : List Symbol
deriving DecidableEq, Inhabited

/-- An augmented context-free grammar. -/
structure Grammar where
  /-- The names of the terminals, by number. -/
  terminals : Array String
  /-- The names of the nonterminals, by number. -/
  nonterminals : Array String
  /-- The productions, by number. -/
  productions : Array Production
  /-- The start symbol that the user of the grammar sees. -/
  start : Nonterminal
deriving DecidableEq

namespace Grammar

def terminalName? (g : Grammar) (t : Terminal) : Option String := g.terminals[t.id.toNat]?

def nonterminalName? (g : Grammar) (n : Nonterminal) : Option String :=
  g.nonterminals[n.id.toNat]?

def symbolName? (g : Grammar) : Symbol → Option String
  | .terminal t => g.terminalName? t
  | .nonterminal n => g.nonterminalName? n

/-- The first terminal of that name. -/
def terminalNamed? (g : Grammar) (name : String) : Option Terminal :=
  (g.terminals.toList.findIdx? (· == name)).map fun i => ⟨UInt16.ofNat i⟩

/-- The first nonterminal of that name. -/
def nonterminalNamed? (g : Grammar) (name : String) : Option Nonterminal :=
  (g.nonterminals.toList.findIdx? (· == name)).map fun i => ⟨UInt16.ofNat i⟩

/-- All terminals, in ascending order. -/
def terminalIds (g : Grammar) : List Terminal :=
  (List.range g.terminals.size).map fun i => ⟨UInt16.ofNat i⟩

/-- All nonterminals, in ascending order. -/
def nonterminalIds (g : Grammar) : List Nonterminal :=
  (List.range g.nonterminals.size).map fun i => ⟨UInt16.ofNat i⟩

/-- Whether the grammar has the symbol. -/
def declares (g : Grammar) : Symbol → Bool
  | .terminal t => decide (t.id.toNat < g.terminals.size)
  | .nonterminal n => decide (n.id.toNat < g.nonterminals.size)

def production? (g : Grammar) (p : ProductionId) : Option Production := g.productions[p.id.toNat]?

/-- All productions with their numbers, in ascending order. -/
def numberedProductions (g : Grammar) : List (ProductionId × Production) :=
  g.productions.toList.mapIdx fun i rule => (⟨UInt16.ofNat i⟩, rule)

/-- The productions with left side `n`, in ascending order. -/
def alternatives (g : Grammar) (n : Nonterminal) : List ProductionId :=
  (g.numberedProductions.filter fun p => p.2.left = n).map Prod.fst

/-- The name of a symbol, which the grammar must have. -/
def name (g : Grammar) (X : Symbol) : Except Fault String :=
  match g.symbolName? X with
  | some name => .ok name
  | none => .error (.undeclaredSymbol X)

/-- The production of that number, which the grammar must have. -/
def production (g : Grammar) (p : ProductionId) : Except Fault Production :=
  match g.production? p with
  | some rule => .ok rule
  | none => .error (.undeclaredProduction p)

end Grammar

end LRAutomata

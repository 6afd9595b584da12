import LRAutomata.Grammar.Catalog

/-!
# Declaring a grammar

A grammar is declared step by step in a `Draft`, which refuses every step that would break it:
names are declared once, rules use declared symbols only and stay clear of the reserved ones, and
the numbers stay within their bounds. A refused step leaves the draft as it was.

* `Grammar.define`: the grammar of a list of declarations, none of which may be refused;
* `Grammar.defineAccepted`: the grammar of those declarations that are not refused.
-/

namespace LRAutomata

/-- Why a declaration is refused. -/
inductive GrammarError where
  | duplicateTerminal (name : String)
  | duplicateNonterminal (name : String)
  | duplicateRule (left : String)
  | tooManyTerminals
  | tooManyNonterminals
  | tooManyProductions
  | unknownSymbol (symbol : Symbol)
  | noNonterminals
deriving DecidableEq

namespace GrammarError

def message : GrammarError → String
  | duplicateTerminal name => "the terminal `" ++ name ++ "' has already been declared"
  | duplicateNonterminal name => "the nonterminal `" ++ name ++ "' has already been declared"
  | duplicateRule left => "duplicate production rule for `" ++ left ++ "'"
  | tooManyTerminals => "too many terminal symbols (at most 256 including reserved ones)"
  | tooManyNonterminals => "too many nonterminal symbols"
  | tooManyProductions => "too many production rules"
  | unknownSymbol X => "undeclared or reserved symbol " ++ X.label
  | noNonterminals => "empty nonterminal symbols"

end GrammarError

/-- One step of declaring a grammar. -/
inductive Declaration where
  | terminal (name : String)
  | nonterminal (name : String)
  | rule (left : Nonterminal) (right : List Symbol)
  | start (symbol : Nonterminal)
deriving DecidableEq

/-- A grammar in the making: what has been declared, by the numbers given out, and the next number
of each kind. -/
structure Draft where
  terminals : IndexedMap Terminal String
  nonterminals : IndexedMap Nonterminal String
  /-- The rules declared so far; the augmented start production comes in the end. -/
  productions : IndexedMap ProductionId Production
  /-- The start symbol last asked for. -/
  start : Option Nonterminal
  nextTerminal : UInt16
  nextNonterminal : UInt16
  nextProduction : UInt16

namespace Draft

/-- The draft that holds the reserved symbols only. -/
def empty : Draft where
  terminals := (IndexedMap.empty.insert Terminal.endOfInput "$eoi").insert Terminal.marker "#"
  nonterminals := IndexedMap.empty.insert Nonterminal.augmented "$start"
  productions := .empty
  start := none
  nextTerminal := 2
  nextNonterminal := 1
  nextProduction := 1

/-- How many terminals a grammar can have, the reserved ones included. -/
def maxTerminals : Nat := 256

/-- The first number that a nonterminal or a production can no longer have. -/
def numberLimit : Nat := 65535

/-- Whether `n` is declared and is not the reserved nonterminal. -/
def hasNonterminal (d : Draft) (n : Nonterminal) : Bool :=
  n ≠ Nonterminal.augmented && d.nonterminals.contains n

/-- Whether a rule may have the symbol on its right side. -/
def admits (d : Draft) : Symbol → Bool
  | .terminal t => t ≠ Terminal.marker && d.terminals.contains t
  | .nonterminal n => d.hasNonterminal n

def declareTerminal (d : Draft) (name : String) : Except GrammarError (Terminal × Draft) :=
  if d.terminals.values.contains name then .error (.duplicateTerminal name)
  else if maxTerminals ≤ d.nextTerminal.toNat then .error .tooManyTerminals
  else
    let t : Terminal := ⟨d.nextTerminal⟩
    .ok (t, { d with
      nextTerminal := d.nextTerminal + 1
      terminals := d.terminals.insert t name })

def declareNonterminal (d : Draft) (name : String) : Except GrammarError (Nonterminal × Draft) :=
  if d.nonterminals.values.contains name then .error (.duplicateNonterminal name)
  else if numberLimit ≤ d.nextNonterminal.toNat then .error .tooManyNonterminals
  else
    let n : Nonterminal := ⟨d.nextNonterminal⟩
    .ok (n, { d with
      nextNonterminal := d.nextNonterminal + 1
      nonterminals := d.nonterminals.insert n name })

def declareRule (d : Draft) (left : Nonterminal) (right : List Symbol) :
    Except GrammarError (ProductionId × Draft) :=
  if !d.hasNonterminal left then .error (.unknownSymbol (.nonterminal left))
  else
    match right.find? fun X => !d.admits X with
    | some X => .error (.unknownSymbol X)
    | none =>
      if d.productions.values.contains ⟨left, right⟩ then
        .error (.duplicateRule ((d.nonterminals.get? left).getD ""))
      else if numberLimit ≤ d.nextProduction.toNat then .error .tooManyProductions
      else
        let p : ProductionId := ⟨d.nextProduction⟩
        .ok (p, { d with
          nextProduction := d.nextProduction + 1
          productions := d.productions.insert p ⟨left, right⟩ })

def declareStart (d : Draft) (n : Nonterminal) : Except GrammarError Draft :=
  if d.hasNonterminal n then .ok { d with start := some n }
  else .error (.unknownSymbol (.nonterminal n))

/-- One declaration, with the number that it gives out, if any. -/
def declare (d : Draft) : Declaration → Except GrammarError (Option UInt16 × Draft)
  | .terminal name => (d.declareTerminal name).map fun r => (some r.1.id, r.2)
  | .nonterminal name => (d.declareNonterminal name).map fun r => (some r.1.id, r.2)
  | .rule left right => (d.declareRule left right).map fun r => (some r.1.id, r.2)
  | .start n => (d.declareStart n).map fun r => (none, r)

/-- What each declaration came to and the draft after them all; with `strict`, a refused
declaration is the last one. -/
def run (strict : Bool) (d : Draft) :
    List Declaration → List (Except GrammarError (Option UInt16)) × Draft
  | [] => ([], d)
  | step :: steps =>
    match d.declare step with
    | .ok (number, d') =>
      let (outcomes, last) := run strict d' steps
      (.ok number :: outcomes, last)
    | .error e =>
      if strict then ([.error e], d)
      else
        let (outcomes, last) := run strict d steps
        (.error e :: outcomes, last)

/-- The start symbol asked for, or else the first nonterminal declared. -/
def start? (d : Draft) : Option Nonterminal :=
  match d.start with
  | some n => some n
  | none => d.nonterminals.keys.find? fun n => n ≠ Nonterminal.augmented

/-- What the draft declares, with start symbol `n`: the augmented start production comes last and is
sorted to the front. -/
def catalog (d : Draft) (n : Nonterminal) : Catalog :=
  let all := d.productions.insert ProductionId.accept
    ⟨Nonterminal.augmented, [.nonterminal n, .terminal Terminal.endOfInput]⟩
  let productions := all.sortKeys ProductionId.rank
  { terminals := d.terminals
    nonterminals := d.nonterminals
    productions := productions
    start := n
    byLeft := Catalog.groupByLeft productions }

/-- Completes the draft; there must be a start symbol. -/
def finish (d : Draft) : Except GrammarError Catalog :=
  match d.start? with
  | some n => .ok (d.catalog n)
  | none => .error .noNonterminals

end Draft

namespace Grammar

/-- The grammar of a list of declarations; the first one refused decides the error. -/
def define (steps : List Declaration) : Except GrammarError Grammar := do
  let d ← steps.foldlM (fun d step => (d.declare step).map Prod.snd) Draft.empty
  return (← d.finish).grammar

/-- The grammar of those declarations that are not refused. -/
def defineAccepted (steps : List Declaration) : Except GrammarError Grammar := do
  return (← (Draft.empty.run false steps).2.finish).grammar

end Grammar

end LRAutomata

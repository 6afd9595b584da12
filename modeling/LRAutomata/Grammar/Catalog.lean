import LRAutomata.Grammar.Basic
import LRAutomata.IndexedMap

/-!
# Catalogs

A `Catalog` is a grammar as its declaration leaves it: names and productions under the numbers that
were given out for them, and the productions of every left side. `Catalog.grammar` keeps the names
and productions and drops the numbers, which are the places at which they stand.
-/

namespace LRAutomata

/-- The symbols and productions of a grammar, by the numbers given out for them. -/
structure Catalog where
  terminals : IndexedMap Terminal String
  nonterminals : IndexedMap Nonterminal String
  productions : IndexedMap ProductionId Production
  start : Nonterminal
  /-- The numbers of the productions with a left side. -/
  byLeft : IndexedMap Nonterminal (List ProductionId)

namespace Catalog

/-- The numbers of productions, taken together for each left side. -/
def groupByLeft (productions : IndexedMap ProductionId Production) :
    IndexedMap Nonterminal (List ProductionId) :=
  productions.entries.foldl (fun m p => m.update p.2.left [] (· ++ [p.1])) .empty

/-- The productions with left side `n`, none if it is the left side of no production. -/
def productionsOf (c : Catalog) (n : Nonterminal) : List ProductionId := (c.byLeft.get? n).getD []

/-- The first terminal of that name. -/
def terminalNamed? (c : Catalog) (name : String) : Option Terminal :=
  (c.terminals.entries.find? fun e => e.2 = name).map Prod.fst

/-- The first nonterminal of that name. -/
def nonterminalNamed? (c : Catalog) (name : String) : Option Nonterminal :=
  (c.nonterminals.entries.find? fun e => e.2 = name).map Prod.fst

/-- The names and productions in the order in which they stand. -/
def grammar (c : Catalog) : Grammar where
  terminals := c.terminals.values.toArray
  nonterminals := c.nonterminals.values.toArray
  productions := c.productions.values.toArray
  start := c.start

end Catalog

end LRAutomata

import LRAutomata.Fault
import LRAutomata.Grammar.Basic
import LRAutomata.TerminalSet

/-!
# First sets

The nullable nonterminals of a grammar, and for each symbol the terminals with which a string
derived from it can begin. Both are least solutions, reached by passes over the productions until
nothing changes:

* a nonterminal is nullable if all symbols of one of its right sides are;
* the First set of a nonterminal includes those of the symbols that one of its right sides can
  begin with: all symbols up to and including the first one that is not nullable.
-/

namespace LRAutomata

/-- Whether a symbol is a nonterminal of `nullables`. -/
def Symbol.isNullable (nullables : List Nonterminal) : Symbol → Bool
  | .terminal _ => false
  | .nonterminal n => nullables.contains n

/-- The symbols up to and including the first one that is not nullable. -/
def visiblePart (nullables : List Nonterminal) : List Symbol → List Symbol
  | [] => []
  | X :: Xs => X :: if X.isNullable nullables then visiblePart nullables Xs else []

namespace Grammar

/-- Adds the left side of a rule whose right side consists of nullable symbols. -/
def admitNullable (rule : Production) (nullables : List Nonterminal) :
    Update (List Nonterminal) :=
  if nullables.contains rule.left then ⟨nullables, false⟩
  else if rule.right.all (·.isNullable nullables) then ⟨nullables ++ [rule.left], true⟩
  else ⟨nullables, false⟩

/-- The left sides of the empty productions. -/
def plainlyNullable (g : Grammar) : List Nonterminal :=
  ((g.productions.toList.filter (·.right.isEmpty)).map Production.left).eraseDups

/-- The nullable nonterminals, in the order in which passes over the productions find them. A pass
that changes anything finds a new left side, so that there are never more such passes than
productions. -/
def nullables (g : Grammar) : List Nonterminal :=
  settle (Update.pass admitNullable g.productions.toList) g.productions.size g.plainlyNullable

end Grammar

/-- First of `whole` includes First of `part`. -/
structure Inclusion where
  whole : Nonterminal
  part : Symbol
deriving DecidableEq

/-- The inclusions that the right sides demand, in the order of the productions. -/
def Grammar.inclusions (g : Grammar) (nullables : List Nonterminal) : List Inclusion :=
  g.productions.toList.flatMap fun rule =>
    ((visiblePart nullables rule.right).filter (· ≠ .nonterminal rule.left)).map
      fun X => ⟨rule.left, X⟩

/-- The nullable nonterminals and the First sets of the symbols, by number. -/
structure FirstSets where
  nullables : List Nonterminal
  terminals : Array TerminalSet
  nonterminals : Array TerminalSet
deriving DecidableEq

namespace FirstSets

/-- The First set of a symbol, if the symbol is known. -/
def of? (f : FirstSets) : Symbol → Option TerminalSet
  | .terminal t => f.terminals[t.id.toNat]?
  | .nonterminal n => f.nonterminals[n.id.toNat]?

/-- The First set of a symbol, empty for an unknown one. -/
def of (f : FirstSets) (X : Symbol) : TerminalSet := (f.of? X).getD ∅

def isNullable (f : FirstSets) (n : Nonterminal) : Bool := f.nullables.contains n

/-- Whether all symbols of a sequence are nullable. -/
def allNullable (f : FirstSets) (Xs : List Symbol) : Bool := Xs.all (·.isNullable f.nullables)

/-- The First set of a sequence: what its visible part can begin with. -/
def ofSequence (f : FirstSets) (Xs : List Symbol) : TerminalSet :=
  (visiblePart f.nullables Xs).foldl (fun s X => s ∪ f.of X) ∅

/-- The First set of a symbol, which must be known. -/
def lookup (f : FirstSets) (X : Symbol) : Except Fault TerminalSet :=
  match f.of? X with
  | some s => .ok s
  | none => .error (.undeclaredSymbol X)

/-- The First set of a sequence and whether it is nullable; the symbols of its visible part must be
known. -/
def lookupSequence (f : FirstSets) (Xs : List Symbol) : Except Fault (TerminalSet × Bool) :=
  match (visiblePart f.nullables Xs).find? fun X => (f.of? X).isNone with
  | some X => .error (.undeclaredSymbol X)
  | none => .ok (f.ofSequence Xs, f.allNullable Xs)

/-- Enlarges First of the whole by First of the part. -/
def enlarge (i : Inclusion) (f : FirstSets) : Update FirstSets :=
  let u := (f.of (.nonterminal i.whole)).merge (f.of i.part)
  if u.changed then
    ⟨{ f with nonterminals := f.nonterminals.setIfInBounds i.whole.id.toNat u.value }, true⟩
  else ⟨f, false⟩

/-- Every terminal begins with itself; nothing is known of the nonterminals. -/
def initial (g : Grammar) : FirstSets where
  nullables := g.nullables
  terminals := (g.terminalIds.map TerminalSet.single).toArray
  nonterminals := Array.replicate g.nonterminals.size ∅

end FirstSets

/-- The First sets of a grammar. A pass that changes anything adds a terminal to the First set of
a nonterminal, which bounds the number of such passes. -/
def Grammar.firstSets (g : Grammar) : FirstSets :=
  settle (Update.pass FirstSets.enlarge (g.inclusions g.nullables))
    (TerminalSet.capacity * g.nonterminals.size) (FirstSets.initial g)

end LRAutomata

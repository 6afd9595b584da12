import LRAutomata.Grammar.Basic
import LRAutomata.TerminalSet

/-!
# The text of a grammar

Symbols are written by their names, so that every text here fails on a symbol that the grammar
does not have.
-/

namespace LRAutomata

namespace Grammar

/-- Symbols side by side, `a S b`. -/
def sequenceText (g : Grammar) (Xs : List Symbol) : Except Fault String := do
  return String.intercalate " " (← Xs.mapM g.name)

/-- Symbols side by side with a dot before number `dot`, `a . S b`; there is none beyond the
end. -/
def dottedText (g : Grammar) (Xs : List Symbol) (dot : Nat) : Except Fault String := do
  let names ← Xs.mapM g.name
  let marked := if dot ≤ names.length then names.take dot ++ "." :: names.drop dot else names
  return String.intercalate " " marked

/-- A production, `S := a S b`; an empty right side leaves `S :=`. -/
def productionText (g : Grammar) (rule : Production) : Except Fault String := do
  let left ← g.name (.nonterminal rule.left)
  let right ← g.sequenceText rule.right
  return left ++ " :=" ++ (if rule.right.isEmpty then "" else " " ++ right)

/-- A terminal set by names, `[$eoi b]`. -/
def terminalSetText (g : Grammar) (s : TerminalSet) : Except Fault String := do
  let names ← s.toList.mapM fun t => g.name (.terminal t)
  return "[" ++ String.intercalate " " names ++ "]"

/-- The nonterminals, one a line; the start symbol is marked. -/
def nonterminalLine (g : Grammar) (n : Nonterminal) : Except Fault String := do
  let name ← g.name (.nonterminal n)
  return name ++ (if n = g.start then " (start)" else "") ++ "\n"

/-- The whole grammar: terminals, nonterminals and productions, each under a heading. -/
def text (g : Grammar) : Except Fault String := do
  let nonterminals ← g.nonterminalIds.mapM g.nonterminalLine
  let productions ← g.numberedProductions.mapM fun (p, rule) => do
    return p.label ++ ": " ++ (← g.productionText rule) ++ "\n"
  return "## terminals:\n" ++ String.join (g.terminals.toList.map (· ++ "\n"))
    ++ "\n## nonterminals:\n" ++ String.join nonterminals
    ++ "\n## productions:\n" ++ String.join productions

end Grammar

end LRAutomata

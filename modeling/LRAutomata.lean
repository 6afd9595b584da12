import LRAutomata.Symbol
import LRAutomata.Fault
import LRAutomata.Update
import LRAutomata.SortedList
import LRAutomata.Sorting
import LRAutomata.IndexedMap
import LRAutomata.IndexedSet
import LRAutomata.Agenda
import LRAutomata.TerminalSet
import LRAutomata.Grammar.Basic
import LRAutomata.Grammar.Catalog
import LRAutomata.Grammar.Declaration
import LRAutomata.Grammar.Text
import LRAutomata.Grammar.First
import LRAutomata.Item.Basic
import LRAutomata.Item.Items
import LRAutomata.Item.Closure
import LRAutomata.State
import LRAutomata.WordHash
import LRAutomata.Signature
import LRAutomata.Automaton.Index
import LRAutomata.Automaton.Basic
import LRAutomata.Automaton.Conflict
import LRAutomata.Automaton.Propagation
import LRAutomata.Automaton.Generate
import LRAutomata.Proofs.Fault
import LRAutomata.Proofs.TerminalSet.Members
import LRAutomata.Proofs.TerminalSet.History
import LRAutomata.Proofs.Settling
import LRAutomata.Proofs.Repetition
import LRAutomata.Proofs.IndexedMap
import LRAutomata.Proofs.Agenda
import LRAutomata.Proofs.Grammar.Draft
import LRAutomata.Proofs.Grammar.WellFormed
import LRAutomata.Proofs.Grammar.Catalog
import LRAutomata.Proofs.Grammar.Declaration
import LRAutomata.Proofs.Grammar.Orderly
import LRAutomata.Proofs.Grammar.Derivation
import LRAutomata.Proofs.Grammar.First
import LRAutomata.Proofs.Item.Items
import LRAutomata.Proofs.Item.History
import LRAutomata.Proofs.Item.Closure
import LRAutomata.Proofs.Signature
import LRAutomata.Proofs.Grammar.Lookups
import LRAutomata.Proofs.Grammar.Exactness
import LRAutomata.Proofs.Item.Least
import LRAutomata.Proofs.Item.Kernel
import LRAutomata.Proofs.Transitions
import LRAutomata.Proofs.Automaton.Index
import LRAutomata.Proofs.Automaton.Basic
import LRAutomata.Proofs.Automaton.History
import LRAutomata.Proofs.Automaton.Explore
import LRAutomata.Proofs.Automaton.Tracks
import LRAutomata.Proofs.Automaton.Propagation
import LRAutomata.Proofs.Automaton.Lookaheads
import LRAutomata.Proofs.Automaton.Superposition
import LRAutomata.Proofs.Automaton.Generate
import LRAutomata.Proofs.Automaton.Merge
import LRAutomata.Proofs.Automaton.Conflict
import LRAutomata.Proofs.Automaton.Handle
import LRAutomata.Proofs.Automaton.Unambiguous
import LRAutomata.Proofs.Automaton.Canonical
import LRAutomata.Proofs.Grammar.Productive
import LRAutomata.Proofs.Automaton.Viable
import LRAutomata.Proofs.Automaton.EmptyLookaheads
import LRAutomata.Proofs.Automaton.Reports
import LRAutomata.Proofs.Automaton.MergedConflicts
import LRAutomata.Proofs.Automaton.Consistent
import LRAutomata.Proofs.Automaton.Unfailing
import LRAutomata.Proofs.Automaton.Budget
import LRAutomata.Proofs.Automaton.Filling
import LRAutomata.Proofs.Automaton.Outcome
import LRAutomata.Proofs.Automaton.Discovery
import LRAutomata.Proofs.Automaton.Numbering
import LRAutomata.Proofs.Grammar.Agreement
import LRAutomata.Proofs.Automaton.Agreement

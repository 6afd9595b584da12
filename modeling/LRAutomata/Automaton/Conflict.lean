import LRAutomata.IndexedMap
import LRAutomata.State

/-!
# Reductions and conflicts

A state reduces by a production on a terminal if it has the complete item of that production with
that lookahead. It has a conflict on a terminal if it reduces by two productions, or reduces and
also has a transition on it.
-/

namespace LRAutomata

namespace Items

/-- The complete items, in order. -/
def complete (g : Grammar) (s : Items) : List Item := s.toList.filter fun i => g.isComplete i.core

end Items

namespace State

/-- Takes a production in unless it is there already. -/
def takeIn (p : ProductionId) (ps : List ProductionId) : List ProductionId :=
  if ps.contains p then ps else ps ++ [p]

/-- Files the production of a complete item under each of its lookaheads. -/
def fileReduction (m : IndexedMap Terminal (List ProductionId)) (i : Item) :
    IndexedMap Terminal (List ProductionId) :=
  i.lookaheads.toList.foldl (fun m t => m.update t [] (takeIn i.core.production)) m

/-- The productions to reduce by, grouped by terminal; every production must exist. -/
def reductions (g : Grammar) (s : State) :
    Except Fault (List (Terminal × List ProductionId)) := do
  s.items.requireDeclared g
  return ((s.items.complete g).foldl fileReduction .empty).entries

/-- The terminals on which there is more than one thing to do, in ascending order; every production
must exist. -/
def conflicts (g : Grammar) (s : State) : Except Fault (List Terminal) := do
  let met := (← s.reductions g).filter fun (t, ps) =>
    1 < ps.length || s.transitions.contains (.terminal t)
  return sortByRank Terminal.rank (met.map Prod.fst)

end State

end LRAutomata

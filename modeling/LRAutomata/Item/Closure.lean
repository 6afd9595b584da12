import LRAutomata.Agenda
import LRAutomata.Grammar.First
import LRAutomata.Item.Items

/-!
# Closing items

An item with its dot before a nonterminal demands an item for every production of that
nonterminal: its dot is at the start, and its lookaheads are what can follow the nonterminal
there. `Items.close` adds what is demanded until nothing is missing. An agenda holds the cores
whose demands have to be met, again after their lookaheads have grown.
-/

namespace LRAutomata

/-- The items that an item demands. -/
def Grammar.demands (g : Grammar) (f : FirstSets) (i : Item) : List Item :=
  match g.next? i.core with
  | some (.nonterminal n) =>
    let rest := g.rest i.core
    let first := f.ofSequence rest
    let lookaheads := if f.allNullable rest then first ∪ i.lookaheads else first
    (g.alternatives n).map fun p => ⟨⟨p, 0⟩, lookaheads⟩
  | _ => []

/-- Items, and the cores among them whose demands have to be met. -/
structure Saturation where
  items : Items
  agenda : Agenda Core

namespace Saturation

/-- Adds an item; if that changes anything, the demands of its core have to be met. -/
def receive (s : Saturation) (i : Item) : Saturation :=
  let u := s.items.insert i
  ⟨u.value, if u.changed then (s.agenda.push i.core).value else s.agenda⟩

/-- Meets the demands on the agenda, for at most `bound` cores. -/
def run (g : Grammar) (f : FirstSets) : (bound : Nat) → Saturation → Items
  | 0, s => s.items
  | bound + 1, s =>
    match s.agenda.pop? with
    | none => s.items
    | some (c, agenda) =>
      let demanded := match s.items.item? c with
        | some i => g.demands f i
        | none => []
      run g f bound (demanded.foldl receive ⟨s.items, agenda⟩)

end Saturation

namespace Items

/-- How many cores the closure of `s` can take from its agenda: each item once, and an item at
the start of a production again whenever it appears or gains a terminal. -/
def closureBound (g : Grammar) (s : Items) : Nat :=
  s.size + (TerminalSet.capacity + 1) * g.productions.size

/-- The items together with all that they demand. -/
def closed (g : Grammar) (f : FirstSets) (s : Items) : Items :=
  Saturation.run g f (s.closureBound g) ⟨s, Agenda.ofList s.cores⟩

/-- The items together with all that they demand; every item must be valid. -/
def close (g : Grammar) (f : FirstSets) (s : Items) : Except Fault Items := do
  s.requireValid g
  return s.closed g f

end Items

end LRAutomata

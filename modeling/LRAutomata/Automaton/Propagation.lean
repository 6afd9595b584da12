import LRAutomata.Item.Items

/-!
# Propagating lookaheads

A `LookaheadTable` holds the kernel items of every state with the lookaheads found for them. A
`Link` says that all lookaheads of one entry are lookaheads of another; `propagate` passes
lookaheads on along links until nothing changes.
-/

namespace LRAutomata

/-- An entry of a lookahead table: a kernel item of a state. -/
structure Anchor where
  state : StateId
  core : Core
deriving DecidableEq

/-- The lookaheads of `source` are lookaheads of `target`. -/
structure Link where
  source : Anchor
  target : Anchor
deriving DecidableEq

/-- The kernel items of the states, by state number. -/
structure LookaheadTable where
  rows : Array Items
deriving DecidableEq

namespace LookaheadTable

def row (t : LookaheadTable) (s : StateId) : Items := t.rows[s.number]?.getD ∅

/-- The lookaheads of an entry, if there is that entry. -/
def lookaheads? (t : LookaheadTable) (a : Anchor) : Option TerminalSet :=
  (t.row a.state).lookaheads? a.core

/-- All entries, state by state. -/
def anchors (t : LookaheadTable) : List Anchor :=
  t.rows.toList.zipIdx.flatMap fun (items, i) => items.cores.map fun c => ⟨⟨i⟩, c⟩

/-- Adds lookaheads, other than the propagation marker, to an entry; without the entry nothing
happens. -/
def merge (a : Anchor) (lookaheads : TerminalSet) (t : LookaheadTable) : Update LookaheadTable :=
  match (t.row a.state).item? a.core with
  | none => ⟨t, false⟩
  | some i =>
    let u := i.mergeUnmarked lookaheads
    if u.changed then
      ⟨⟨t.rows.setIfInBounds a.state.number ((t.row a.state).put u.value)⟩, true⟩
    else ⟨t, false⟩

/-- Passes lookaheads on along one link, unless it leads from an entry to itself. -/
def passOn (l : Link) (t : LookaheadTable) : Update LookaheadTable :=
  if l.source = l.target then ⟨t, false⟩
  else t.merge l.target ((t.lookaheads? l.source).getD ∅)

/-- How many passes can change a table: each adds a terminal to an entry. -/
def passBound (t : LookaheadTable) : Nat := TerminalSet.capacity * t.anchors.length

/-- Passes lookaheads on along the links, as long as anything changes. -/
def propagate (links : List Link) (t : LookaheadTable) : LookaheadTable :=
  settle (Update.pass passOn links) t.passBound t

end LookaheadTable

end LRAutomata

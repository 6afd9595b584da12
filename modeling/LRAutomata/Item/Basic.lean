import LRAutomata.Grammar.Text

/-!
# Items

A `Core` is a production with a dot in its right side, an `Item` a core with lookaheads. Cores are
ordered by production, then by dot.

* `Core.rank_inj`: the rank determines the core;
* `Grammar.next?`, `Grammar.rest`: the symbol after the dot, and what follows that symbol.
-/

namespace LRAutomata

/-- A production with a dot. -/
structure Core where
  production : ProductionId
  dot : UInt16
deriving DecidableEq, Inhabited

namespace Core

def rank (c : Core) : Nat := c.production.rank * 65536 + c.dot.toNat

theorem rank_inj {c d : Core} (h : c.rank = d.rank) : c = d := by
  have hc := c.dot.toNat_lt
  have hd := d.dot.toNat_lt
  obtain ⟨p, i⟩ := c
  obtain ⟨q, j⟩ := d
  simp only [rank] at h hc hd
  have hp : p = q := ProductionId.rank_inj (by omega)
  have hi : i = j := UInt16.toNat_inj.mp (by rw [hp] at h; omega)
  rw [hp, hi]

/-- A core that a state is made from: the dot has moved, or the production is the augmented
start production. -/
def isKernel (c : Core) : Bool := 0 < c.dot || c.production = ProductionId.accept

/-- The last place that a dot can have. -/
def lastDot : UInt16 := 65535

/-- The core with its dot one symbol further. -/
def advanced (c : Core) : Core := { c with dot := c.dot + 1 }

end Core

namespace Grammar

/-- The symbol after the dot. -/
def next? (g : Grammar) (c : Core) : Option Symbol :=
  (g.production? c.production).bind fun rule => rule.right[c.dot.toNat]?

/-- What follows the symbol after the dot. -/
def rest (g : Grammar) (c : Core) : List Symbol :=
  match g.production? c.production with
  | some rule => rule.right.drop (c.dot.toNat + 1)
  | none => []

/-- Whether the dot stands exactly at the end of the production. -/
def isComplete (g : Grammar) (c : Core) : Bool :=
  (g.production? c.production).any fun rule => rule.right.length = c.dot.toNat

/-- Whether the production exists and the dot does not lie beyond its end. -/
def isValid (g : Grammar) (c : Core) : Bool :=
  (g.production? c.production).any fun rule => c.dot.toNat ≤ rule.right.length

end Grammar

/-- A core with the terminals that may follow the whole production. -/
structure Item where
  core : Core
  lookaheads : TerminalSet
deriving DecidableEq, Inhabited

namespace Item

def rank (i : Item) : Nat := i.core.rank

theorem rank_eq_iff {i : Item} {c : Core} : i.rank = c.rank ↔ i.core = c :=
  ⟨Core.rank_inj, congrArg Core.rank⟩

/-- The item with its dot one symbol further. -/
def advanced (i : Item) : Item := { i with core := i.core.advanced }

/-- The item with its dot one symbol further, if the dot can move. -/
def advance (i : Item) : Except Fault Item :=
  if i.core.dot = Core.lastDot then .error (.dotOverflow i.core.production) else .ok i.advanced

/-- Adds lookaheads as they are. -/
def merge (i : Item) (lookaheads : TerminalSet) : Update Item :=
  let u := i.lookaheads.merge lookaheads
  ⟨{ i with lookaheads := u.value }, u.changed⟩

/-- Adds lookaheads other than the propagation marker. -/
def mergeUnmarked (i : Item) (lookaheads : TerminalSet) : Update Item :=
  let u := i.lookaheads.mergeUnmarked lookaheads
  ⟨{ i with lookaheads := u.value }, u.changed⟩

/-- The item without the propagation marker. -/
def withoutMarker (i : Item) : Item := { i with lookaheads := i.lookaheads.withoutMarker }

/-- The item with no lookaheads at all. -/
def withoutLookaheads (i : Item) : Item := { i with lookaheads := ∅ }

end Item

namespace Grammar

/-- The symbol after the dot of an item, whose production must exist. -/
def nextOf (g : Grammar) (i : Item) : Except Fault (Option Symbol) := do
  let _ ← g.production i.core.production
  return g.next? i.core

/-- Whether an item is complete; its production must exist. -/
def completes (g : Grammar) (i : Item) : Except Fault Bool := do
  let _ ← g.production i.core.production
  return g.isComplete i.core

/-- An item, `(S := a . S b)  [$eoi b]`. -/
def itemText (g : Grammar) (i : Item) : Except Fault String := do
  let rule ← g.production i.core.production
  let left ← g.name (.nonterminal rule.left)
  let right ← g.dottedText rule.right i.core.dot.toNat
  return "(" ++ left ++ " := " ++ right ++ ")  " ++ (← g.terminalSetText i.lookaheads)

end Grammar

end LRAutomata

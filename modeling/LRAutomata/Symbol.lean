/-!
# Symbols and identifiers

Terminals, nonterminals and productions are numbered with 16 bits, each kind on its own.
Terminal 0 is the end of input, terminal 1 the propagation marker, nonterminal 0 the left side of
the augmented start production, and production 0 that production itself.

Every kind has a `rank`, a number that puts its values in order, and a `label`, its short name in
messages:

* `Terminal.rank_inj`, `Symbol.rank_inj`, `ProductionId.rank_inj`: a rank determines its value;
* `Symbol.rank`: all terminals come before all nonterminals.
-/

namespace LRAutomata

/-- The digits of `n`, with zeros in front up to `width` of them. -/
def paddedDigits (width n : Nat) : String :=
  let digits := toString n
  String.ofList (List.replicate (width - digits.length) '0') ++ digits

/-- A terminal, by its number. -/
structure Terminal where
  id : UInt16
deriving DecidableEq, Inhabited

namespace Terminal

/-- The end of input. -/
def endOfInput : Terminal := ⟨0⟩

/-- The propagation marker: it stands for the lookaheads that an item inherits. -/
def marker : Terminal := ⟨1⟩

def rank (t : Terminal) : Nat := t.id.toNat

def label (t : Terminal) : String :=
  if t = endOfInput then "T#End"
  else if t = marker then "T#Prop"
  else "T#" ++ paddedDigits 3 t.id.toNat

theorem rank_lt (t : Terminal) : t.rank < 65536 := t.id.toNat_lt

theorem rank_inj {s t : Terminal} (h : s.rank = t.rank) : s = t := by
  cases s; cases t; simp only [rank] at h; congr 1; exact UInt16.toNat_inj.mp h

end Terminal

/-- A nonterminal, by its number. -/
structure Nonterminal where
  id : UInt16
deriving DecidableEq, Inhabited

namespace Nonterminal

/-- The left side of the augmented start production. -/
def augmented : Nonterminal := ⟨0⟩

def rank (n : Nonterminal) : Nat := n.id.toNat

def label (n : Nonterminal) : String :=
  if n = augmented then "N#Start" else "N#" ++ paddedDigits 3 n.id.toNat

theorem rank_inj {m n : Nonterminal} (h : m.rank = n.rank) : m = n := by
  cases m; cases n; simp only [rank] at h; congr 1; exact UInt16.toNat_inj.mp h

end Nonterminal

/-- A grammar symbol. -/
inductive Symbol where
  | terminal (t : Terminal)
  | nonterminal (n : Nonterminal)
deriving DecidableEq, Inhabited

namespace Symbol

/-- Terminals by number, then nonterminals by number. -/
def rank : Symbol → Nat
  | terminal t => t.rank
  | nonterminal n => 65536 + n.rank

def label : Symbol → String
  | terminal t => t.label
  | nonterminal n => n.label

theorem rank_inj {X Y : Symbol} (h : X.rank = Y.rank) : X = Y := by
  cases X with
  | terminal s =>
    cases Y with
    | terminal t => exact congrArg _ (Terminal.rank_inj h)
    | nonterminal n => have := s.rank_lt; simp only [rank] at h; omega
  | nonterminal m =>
    cases Y with
    | terminal t => have := t.rank_lt; simp only [rank] at h; omega
    | nonterminal n =>
      exact congrArg _ (Nonterminal.rank_inj (by simp only [rank] at h; omega))

end Symbol

/-- A production, by its number. -/
structure ProductionId where
  id : UInt16
deriving DecidableEq, Inhabited

namespace ProductionId

/-- The augmented start production. -/
def accept : ProductionId := ⟨0⟩

def rank (p : ProductionId) : Nat := p.id.toNat

def label (p : ProductionId) : String :=
  if p = accept then "P#Accept" else "P#" ++ paddedDigits 3 p.id.toNat

theorem rank_inj {p q : ProductionId} (h : p.rank = q.rank) : p = q := by
  cases p; cases q; simp only [rank] at h; congr 1; exact UInt16.toNat_inj.mp h

end ProductionId

/-- A state of an automaton, by its number. -/
structure StateId where
  number : Nat
deriving DecidableEq, Inhabited

namespace StateId

/-- The state in which every run begins. -/
def initial : StateId := ⟨0⟩

def rank (s : StateId) : Nat := s.number

def label (s : StateId) : String := "S#" ++ paddedDigits 3 s.number

/-- The plain number, as it stands in listings. -/
def text (s : StateId) : String := toString s.number

end StateId

end LRAutomata

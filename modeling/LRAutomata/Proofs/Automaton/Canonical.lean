import LRAutomata.Proofs.Automaton.Generate

/-!
# The canonical automaton and valid items

* `exists_node?_iff_valid`: the state at the end of a path of the canonical automaton has exactly
  the items that are valid for the path;
* `Grammar.StrictlyValid`: a narrower notion, in which lookaheads arise only at items that have
  lookaheads themselves; the automaton has more items than that.
-/

namespace LRAutomata

namespace Automaton

variable {g : Grammar} {a : Automaton}

/-- A path leads somewhere just if some shape is valid for it, and then to a state that has exactly
the shapes and the items that are valid for it. -/
theorem exists_node?_iff_valid [WordHash] {maxStates : Nat} (hg : g.Defined)
    (h : generate ⟨.canonical, maxStates⟩ g = .ok a) (path : List Symbol) :
    ((a.walk? path).isSome ↔ ∃ p d, g.ValidShape path p d) ∧
    ∀ s, a.walk? path = some s → ∃ n, a.node? s = some n ∧ ∀ p d,
      (n.items.HasShape p d ↔ g.ValidShape path p d) ∧
      ∀ t, n.items.HasAt p d t ↔ g.Valid path p d t := by
  have hg := hg.wellFormed
  have ha := canonical_of_generate hg rfl h
  refine ⟨ha.tracks.walk?_isSome_iff hg, fun s hs => ?_⟩
  obtain ⟨n, hn⟩ := ha.tracks.exists_node? hs
  exact ⟨n, hn, fun p d => ⟨ha.tracks.hasShape_iff hg hs hn, fun t => ha.hasAt_iff hg hs hn⟩⟩

theorem exists_node?_iff_valid_twoWords : ∃ a, generate ⟨.canonical, 64⟩ .twoWords = .ok a ∧
    ((a.walk? [.terminal ⟨2⟩]).isSome ↔
      ∃ p d, Grammar.twoWords.ValidShape [.terminal ⟨2⟩] p d) ∧
    ∀ s, a.walk? [.terminal ⟨2⟩] = some s → ∃ n, a.node? s = some n ∧ ∀ p d,
      (n.items.HasShape p d ↔ Grammar.twoWords.ValidShape [.terminal ⟨2⟩] p d) ∧
      ∀ t, n.items.HasAt p d t ↔ Grammar.twoWords.Valid [.terminal ⟨2⟩] p d t := by
  obtain ⟨a, ha, -⟩ := exists_ok_of_any (e := generate ⟨.canonical, 64⟩ .twoWords)
    (P := fun _ => true) (by decide +kernel)
  exact ⟨a, ha, exists_node?_iff_valid Grammar.defined_twoWords ha _⟩

end Automaton

namespace Grammar

/-- Like `Valid`, but lookaheads arise only at items that have a lookahead. -/
inductive StrictlyValid (g : Grammar) : List Symbol → ProductionId → Nat → Terminal → Prop where
  | start : StrictlyValid g [] ProductionId.accept 0 Terminal.endOfInput
  | shift {path : List Symbol} {p : ProductionId} {d : Nat} {t : Terminal} {X : Symbol} :
    StrictlyValid g path p d t → g.symbolAt? p d = some X →
    StrictlyValid g (path ++ [X]) p (d + 1) t
  | arise {path : List Symbol} {p q : ProductionId} {d : Nat} {t u : Terminal}
    {rule : Production} :
    StrictlyValid g path p d t → g.production? q = some rule →
    g.symbolAt? p d = some (.nonterminal rule.left) → g.CanBegin (g.after p d) u →
    StrictlyValid g path q 0 u
  | inherit {path : List Symbol} {p q : ProductionId} {d : Nat} {t : Terminal}
    {rule : Production} :
    StrictlyValid g path p d t → g.production? q = some rule →
    g.symbolAt? p d = some (.nonterminal rule.left) → g.Vanishes (g.after p d) →
    StrictlyValid g path q 0 t

/-- In this grammar nothing can be derived from `B`, and so nothing can follow `A` where it stands
before `B`. -/
def barren : Grammar where
  terminals := #["$eoi", "#", "b"]
  nonterminals := #["$start", "S", "A", "B"]
  productions := #[
    ⟨⟨0⟩, [.nonterminal ⟨1⟩, .terminal ⟨0⟩]⟩,
    ⟨⟨1⟩, [.nonterminal ⟨2⟩, .nonterminal ⟨3⟩]⟩,
    ⟨⟨2⟩, [.nonterminal ⟨2⟩, .terminal ⟨2⟩]⟩]
  start := ⟨1⟩

theorem defined_barren : barren.Defined := by
  refine ⟨[.terminal "b", .nonterminal "S", .nonterminal "A", .nonterminal "B",
    .rule ⟨1⟩ [.nonterminal ⟨2⟩, .nonterminal ⟨3⟩],
    .rule ⟨2⟩ [.nonterminal ⟨2⟩, .terminal ⟨2⟩]], ?_⟩
  decide +kernel

theorem not_vanishes_barren : ¬ barren.Vanishes [.nonterminal ⟨3⟩] := by
  rw [← defined_barren.wellFormed.allNullable_iff]
  decide +kernel

theorem not_canBegin_barren (u : Terminal) : ¬ barren.CanBegin [.nonterminal ⟨3⟩] u := by
  have declared : ∀ X ∈ [Symbol.nonterminal ⟨3⟩], barren.declares X = true := by
    decide +kernel
  have empty : barren.firstSets.ofSequence [.nonterminal ⟨3⟩] = ∅ := by decide +kernel
  rw [← defined_barren.wellFormed.mem_ofSequence_iff declared, empty]
  exact TerminalSet.not_mem_empty u

/-- Before `B`, and so before any terminal, the production of `A` is valid with `b` to follow. -/
theorem valid_barren : barren.Valid [] ⟨2⟩ 0 ⟨2⟩ := by
  have shape : barren.ValidShape [] ⟨1⟩ 0 := .expand .start rfl rfl
  have shape' : barren.ValidShape [] ⟨2⟩ 0 := .expand shape rfl rfl
  exact .arise shape' rfl rfl (canBegin_terminal_iff.mpr rfl)

/-- `A` stands first in two right sides and nowhere else. -/
theorem eq_of_symbolAt?_barren {p : ProductionId} {d : Nat}
    (h : barren.symbolAt? p d = some (.nonterminal ⟨2⟩)) : p = ⟨1⟩ ∧ d = 0 ∨ p = ⟨2⟩ := by
  obtain ⟨rule, hp, hd⟩ := Option.bind_eq_some_iff.mp h
  have hi : p.id.toNat < 3 := WellFormed.lt_of_production? hp
  have lengths : ∀ rule ∈ barren.productions.toList, rule.right.length = 2 := by decide +kernel
  have hlt : d < 2 := by
    rw [← lengths rule (Array.mem_toList_iff.mpr (Array.mem_of_getElem? hp))]
    exact (List.getElem?_eq_some_iff.mp hd).1
  have places : ∀ i < 3, ∀ d < 2,
      barren.symbolAt? ⟨UInt16.ofNat i⟩ d = some (.nonterminal ⟨2⟩) → i = 1 ∧ d = 0 ∨ i = 2 := by
    decide +kernel
  have hp : p = ⟨UInt16.ofNat p.id.toNat⟩ := by rw [UInt16.ofNat_toNat]
  rcases places _ hi d hlt (hp ▸ h) with ⟨h1, hd⟩ | h2
  · exact .inl ⟨by rw [hp, h1]; rfl, hd⟩
  · exact .inr (by rw [hp, h2]; rfl)

/-- The production of `A` gets no lookahead from before `B`, and then none from itself. -/
theorem not_strictlyValid_barren {path : List Symbol} {p : ProductionId} {d : Nat} {t : Terminal}
    (h : barren.StrictlyValid path p d t) (hpath : path = []) : p ≠ ⟨2⟩ := by
  have left {q : ProductionId} {rule : Production} (hq : barren.production? q = some rule)
      (h2 : q = ⟨2⟩) : rule.left = ⟨2⟩ := by
    subst h2
    exact congrArg Production.left (Option.some.inj hq).symm
  induction h with
  | start => decide
  | shift => exact absurd hpath (List.append_ne_nil_of_right_ne_nil _ (List.cons_ne_nil _ _))
  | arise _ hq hX hb ih =>
    intro h2
    rw [left hq h2] at hX
    rcases eq_of_symbolAt?_barren hX with ⟨rfl, rfl⟩ | hp
    · exact not_canBegin_barren _ hb
    · exact ih hpath hp
  | inherit _ hq hX hv ih =>
    intro h2
    rw [left hq h2] at hX
    rcases eq_of_symbolAt?_barren hX with ⟨rfl, rfl⟩ | hp
    · exact not_vanishes_barren hv
    · exact ih hpath hp

end Grammar

namespace Automaton

/-- The canonical automaton of the grammar has an item in its first state that is not strictly
valid for the empty path. -/
theorem not_forall_iff_strictlyValid : ¬ ∀ (g : Grammar) (maxStates : Nat) (a : Automaton),
    g.Defined → generate ⟨.canonical, maxStates⟩ g = .ok a → ∀ path : List Symbol,
      ((a.walk? path).isSome ↔ ∃ p d, g.ValidShape path p d) ∧
      ∀ s, a.walk? path = some s → ∃ n, a.node? s = some n ∧ ∀ p d,
        (n.items.HasShape p d ↔ g.ValidShape path p d) ∧
        ∀ t, n.items.HasAt p d t ↔ g.StrictlyValid path p d t := by
  intro h
  obtain ⟨a, ha, -⟩ := exists_ok_of_any (e := generate ⟨.canonical, 64⟩ .barren)
    (P := fun _ => true) (by decide +kernel)
  obtain ⟨-, hs⟩ := h .barren 64 a Grammar.defined_barren ha []
  obtain ⟨n, hn, hiff⟩ := hs StateId.initial rfl
  have hg := Grammar.defined_barren.wellFormed
  have hwalk : a.walk? [] = some StateId.initial := rfl
  have has : n.items.HasAt ⟨2⟩ 0 ⟨2⟩ :=
    ((canonical_of_generate hg rfl ha).hasAt_iff hg hwalk hn).mpr Grammar.valid_barren
  exact Grammar.not_strictlyValid_barren (((hiff ⟨2⟩ 0).2 ⟨2⟩).mp has) rfl rfl

end Automaton

end LRAutomata

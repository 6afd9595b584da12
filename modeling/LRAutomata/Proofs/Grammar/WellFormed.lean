import LRAutomata.Proofs.Fault
import LRAutomata.Proofs.Grammar.Draft
import LRAutomata.TerminalSet

/-!
# What every declared grammar satisfies

A `Grammar.Defined` grammar comes out of some list of declarations, those that were refused passed
over. `Grammar.WellFormed` is what the declarations leave behind: the augmented start production
comes first and is the only one with the reserved left side, right sides hold declared symbols
only, neither the propagation marker nor the reserved nonterminal among them, and the numbers of
symbols and productions stay within their bounds.

* `Draft.Sound.wellFormed_completed`: a sound draft makes a well-formed grammar;
* `Grammar.Defined.wellFormed`: it follows for every grammar that is declared;
* `mem_productions_iff`, `mem_alternatives_iff`: the productions by their numbers.
-/

namespace LRAutomata

namespace Grammar

/-- Whether a grammar comes out of some declarations. -/
def Defined (g : Grammar) : Prop := ∃ steps, defineAccepted steps = .ok g

/-- What the declarations guarantee of a grammar. -/
structure WellFormed (g : Grammar) : Prop where
  productions_le : g.productions.size ≤ Draft.numberLimit
  terminals_le : g.terminals.size ≤ Draft.maxTerminals
  nonterminals_le : g.nonterminals.size ≤ Draft.numberLimit
  accept : g.production? ProductionId.accept =
    some ⟨Nonterminal.augmented, [.nonterminal g.start, .terminal Terminal.endOfInput]⟩
  left_ne {p : ProductionId} {rule : Production} : g.production? p = some rule →
    p ≠ ProductionId.accept → rule.left ≠ Nonterminal.augmented
  left_declared {p : ProductionId} {rule : Production} : g.production? p = some rule →
    g.declares (.nonterminal rule.left) = true
  declared {p : ProductionId} {rule : Production} : g.production? p = some rule →
    ∀ X ∈ rule.right, g.declares X = true
  unmarked {p : ProductionId} {rule : Production} : g.production? p = some rule →
    .terminal Terminal.marker ∉ rule.right
  unaugmented {p : ProductionId} {rule : Production} : g.production? p = some rule →
    .nonterminal Nonterminal.augmented ∉ rule.right

section

variable {g : Grammar}

/-- The productions by their numbers. -/
theorem WellFormed.mem_productions_iff (hg : g.WellFormed) {rule : Production} :
    rule ∈ g.productions.toList ↔ ∃ p, g.production? p = some rule := by
  have hle := hg.productions_le
  unfold Draft.numberLimit at hle
  refine ⟨fun h => ?_, fun h => ?_⟩
  · obtain ⟨i, hi, rfl⟩ := Array.mem_iff_getElem.mp (Array.mem_toList_iff.mp h)
    refine ⟨⟨UInt16.ofNat i⟩, ?_⟩
    rw [production?, UInt16.toNat_ofNat', Nat.mod_eq_of_lt (by omega)]
    exact Array.getElem?_eq_getElem hi
  · obtain ⟨p, hp⟩ := h
    exact Array.mem_toList_iff.mpr (Array.mem_of_getElem? hp)

theorem WellFormed.mem_numberedProductions_iff (hg : g.WellFormed) {p : ProductionId}
    {rule : Production} : (p, rule) ∈ g.numberedProductions ↔ g.production? p = some rule := by
  have hle := hg.productions_le
  unfold Draft.numberLimit at hle
  simp only [numberedProductions, List.mem_mapIdx, Array.length_toList, Prod.mk.injEq,
    Array.getElem_toList]
  refine ⟨fun h => ?_, fun h => ?_⟩
  · obtain ⟨i, hi, rfl, rfl⟩ := h
    rw [production?, UInt16.toNat_ofNat', Nat.mod_eq_of_lt (by omega)]
    exact Array.getElem?_eq_getElem hi
  · obtain ⟨hi, rfl⟩ := Array.getElem?_eq_some_iff.mp h
    exact ⟨p.id.toNat, hi, by rw [UInt16.ofNat_toNat], rfl⟩

/-- The alternatives of a nonterminal are the productions with it as left side. -/
theorem WellFormed.mem_alternatives_iff (hg : g.WellFormed) {n : Nonterminal} {p : ProductionId} :
    p ∈ g.alternatives n ↔ ∃ rule, g.production? p = some rule ∧ rule.left = n := by
  simp only [alternatives, List.mem_map, List.mem_filter, decide_eq_true_eq]
  refine ⟨fun h => ?_, fun h => ?_⟩
  · obtain ⟨⟨q, rule⟩, ⟨hm, hl⟩, rfl⟩ := h
    exact ⟨rule, hg.mem_numberedProductions_iff.mp hm, hl⟩
  · obtain ⟨rule, hp, hl⟩ := h
    exact ⟨(p, rule), ⟨hg.mem_numberedProductions_iff.mpr hp, hl⟩, rfl⟩

theorem WellFormed.lt_of_production? {p : ProductionId} {rule : Production}
    (h : g.production? p = some rule) : p.id.toNat < g.productions.size :=
  (Array.getElem?_eq_some_iff.mp h).1

theorem WellFormed.eq_accept_of_left (hg : g.WellFormed) {p : ProductionId} {rule : Production}
    (h : g.production? p = some rule) (hl : rule.left = Nonterminal.augmented) :
    p = ProductionId.accept := by
  by_contra hne
  exact hg.left_ne h hne hl

end

end Grammar

namespace Draft

variable {d : Draft} {n : Nonterminal}

/-- A production of the completed grammar is the augmented start production or a declared rule. -/
theorem production?_completed {p : ProductionId} {rule : Production}
    (hp : (d.completed n).production? p = some rule) :
    (p = ProductionId.accept ∧ rule =
      ⟨Nonterminal.augmented, [.nonterminal n, .terminal Terminal.endOfInput]⟩) ∨
    (p ≠ ProductionId.accept ∧ rule ∈ d.productions.values) := by
  simp only [Grammar.production?, completed, List.getElem?_toArray] at hp
  by_cases hz : p.id.toNat = 0
  · rw [hz] at hp
    exact .inl ⟨ProductionId.rank_inj hz, (Option.some.inj hp).symm⟩
  · rw [List.getElem?_cons, if_neg hz] at hp
    refine .inr ⟨?_, List.mem_of_getElem? hp⟩
    rintro rfl
    exact hz rfl

/-- What a rule may have on its right side. -/
theorem Counted.admits_cases (h : d.Counted) {X : Symbol} (hX : d.admits X = true) :
    X ≠ .terminal Terminal.marker ∧ X ≠ .nonterminal Nonterminal.augmented ∧
      (d.completed n).declares X = true := by
  cases X with
  | terminal t =>
    have hX := h.admits_terminal_iff.mp hX
    refine ⟨fun e => hX.1 (Symbol.terminal.inj e), Symbol.noConfusion, decide_eq_true ?_⟩
    rw [completed, List.size_toArray, IndexedMap.length_values]
    exact hX.2
  | nonterminal m =>
    have hX := h.hasNonterminal_iff.mp (show d.hasNonterminal m = true from hX)
    refine ⟨Symbol.noConfusion, fun e => hX.1 (Symbol.nonterminal.inj e), decide_eq_true ?_⟩
    rw [completed, List.size_toArray, IndexedMap.length_values]
    exact hX.2

theorem Sound.admits_right (hd : d.Sound) (hn : d.hasNonterminal n = true) {p : ProductionId}
    {rule : Production} (hp : (d.completed n).production? p = some rule) :
    ∀ X ∈ rule.right, d.admits X = true := by
  rcases production?_completed hp with ⟨-, rfl⟩ | ⟨-, hm⟩
  · intro X hX
    simp only [List.mem_cons, List.not_mem_nil, or_false] at hX
    rcases hX with rfl | rfl
    · exact hn
    · exact hd.admits_terminal_iff.mpr ⟨by decide, hd.endOfInput_lt⟩
  · exact hd.right hm

theorem Sound.wellFormed_completed (hd : d.Sound) (hn : d.hasNonterminal n = true) :
    (d.completed n).WellFormed where
  productions_le := by
    rw [completed, List.size_toArray, List.length_cons, IndexedMap.length_values]
    exact hd.productions_lt
  terminals_le := by
    rw [completed, List.size_toArray, IndexedMap.length_values]
    exact hd.terminals_le
  nonterminals_le := by
    rw [completed, List.size_toArray, IndexedMap.length_values]
    exact hd.nonterminals_le
  accept := rfl
  left_ne hp hne := by
    rcases production?_completed hp with ⟨rfl, -⟩ | ⟨-, hm⟩
    · exact absurd rfl hne
    · exact (hd.hasNonterminal_iff.mp (hd.left hm)).1
  left_declared {p rule} hp := by
    refine decide_eq_true ?_
    rw [completed, List.size_toArray, IndexedMap.length_values]
    rcases production?_completed hp with ⟨-, rfl⟩ | ⟨-, hm⟩
    · exact hd.nonterminals_pos
    · exact (hd.hasNonterminal_iff.mp (hd.left hm)).2
  declared hp X hX := (hd.admits_cases (hd.admits_right hn hp X hX)).2.2
  unmarked hp hm := (hd.admits_cases (n := n) (hd.admits_right hn hp _ hm)).1 rfl
  unaugmented hp hm := (hd.admits_cases (n := n) (hd.admits_right hn hp _ hm)).2.1 rfl

end Draft

namespace Grammar

/-- A grammar is what the draft makes that its declarations lead to. -/
theorem eq_completed_of_defineAccepted {steps : List Declaration} {g : Grammar}
    (h : defineAccepted steps = .ok g) : ∃ n, (Draft.empty.run false steps).2.start? = some n ∧
      g = (Draft.empty.run false steps).2.completed n := by
  obtain ⟨c, hc, hg⟩ := bind_eq_ok.mp h
  obtain ⟨n, hn, rfl⟩ := Draft.finish_eq_ok hc
  have hd := Draft.sound_run Draft.sound_empty steps
  exact ⟨n, hn, (Except.ok.inj hg).symm.trans (hd.grammar_catalog n)⟩

theorem Defined.wellFormed {g : Grammar} (h : g.Defined) : g.WellFormed := by
  obtain ⟨steps, h⟩ := h
  have hd := Draft.sound_run Draft.sound_empty steps
  obtain ⟨n, hn, rfl⟩ := eq_completed_of_defineAccepted h
  exact hd.wellFormed_completed (hd.hasNonterminal_start? hn)

/-- The grammar of two words of the form `c … c d`: some states of its canonical automaton have the
same cores, and neither of its automata has a conflict. -/
def twoWords : Grammar where
  terminals := #["$eoi", "#", "c", "d"]
  nonterminals := #["$start", "S", "W"]
  productions := #[
    ⟨⟨0⟩, [.nonterminal ⟨1⟩, .terminal ⟨0⟩]⟩,
    ⟨⟨1⟩, [.nonterminal ⟨2⟩, .nonterminal ⟨2⟩]⟩,
    ⟨⟨2⟩, [.terminal ⟨2⟩, .nonterminal ⟨2⟩]⟩,
    ⟨⟨2⟩, [.terminal ⟨3⟩]⟩]
  start := ⟨1⟩

theorem defined_twoWords : twoWords.Defined := by
  refine ⟨[.terminal "c", .terminal "d", .nonterminal "S", .nonterminal "W",
    .rule ⟨1⟩ [.nonterminal ⟨2⟩, .nonterminal ⟨2⟩], .rule ⟨2⟩ [.terminal ⟨2⟩, .nonterminal ⟨2⟩],
    .rule ⟨2⟩ [.terminal ⟨3⟩]], ?_⟩
  decide +kernel

/-- A grammar all of whose nonterminals can vanish, so that its left recursion is partly hidden:
`S` begins with `A`, which begins with itself or vanishes, and then with `B`, which begins with
`S`. -/
def hollow : Grammar where
  terminals := #["$eoi", "#", "a", "b"]
  nonterminals := #["$start", "S", "A", "B"]
  productions := #[
    ⟨⟨0⟩, [.nonterminal ⟨1⟩, .terminal ⟨0⟩]⟩,
    ⟨⟨1⟩, [.nonterminal ⟨2⟩, .nonterminal ⟨3⟩]⟩,
    ⟨⟨2⟩, [.nonterminal ⟨2⟩, .terminal ⟨2⟩]⟩,
    ⟨⟨2⟩, []⟩,
    ⟨⟨3⟩, [.nonterminal ⟨1⟩, .terminal ⟨3⟩]⟩,
    ⟨⟨3⟩, []⟩]
  start := ⟨1⟩

theorem defined_hollow : hollow.Defined := by
  refine ⟨[.terminal "a", .terminal "b", .nonterminal "S", .nonterminal "A", .nonterminal "B",
    .rule ⟨1⟩ [.nonterminal ⟨2⟩, .nonterminal ⟨3⟩], .rule ⟨2⟩ [.nonterminal ⟨2⟩, .terminal ⟨2⟩],
    .rule ⟨2⟩ [], .rule ⟨3⟩ [.nonterminal ⟨1⟩, .terminal ⟨3⟩], .rule ⟨3⟩ []], ?_⟩
  decide +kernel

end Grammar

end LRAutomata

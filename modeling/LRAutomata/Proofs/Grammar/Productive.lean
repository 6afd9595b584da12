import LRAutomata.Proofs.Grammar.Forest
import LRAutomata.Proofs.Grammar.WellFormed

/-!
# Reachable and productive nonterminals

* `Grammar.Reachable`: a nonterminal occurs in a string that the start symbol derives;
* `Grammar.InUse`: the same for derivations from the augmented start symbol, which is in use itself;
* `Grammar.Productive`: a nonterminal derives a string of terminals;
* `exists_terminals_of_usesOnly`, `CanBegin.exists_terminals`: where all reachable nonterminals are
  productive, what a string derives can be driven on to terminals.
-/

namespace LRAutomata

namespace Grammar

variable {g : Grammar} {Xs Ys : List Symbol} {n : Nonterminal} {p : ProductionId}
  {rule : Production} {t : Terminal}

/-- The nonterminal occurs in a string that the start symbol derives. -/
def Reachable (g : Grammar) (n : Nonterminal) : Prop :=
  ∃ Xs, g.Derives [.nonterminal g.start] Xs ∧ .nonterminal n ∈ Xs

/-- The nonterminal is the augmented start symbol or reachable from the start symbol. -/
def InUse (g : Grammar) (n : Nonterminal) : Prop := n = Nonterminal.augmented ∨ g.Reachable n

/-- The nonterminal derives a string of terminals. -/
def Productive (g : Grammar) (n : Nonterminal) : Prop :=
  ∃ w : List Terminal, g.Derives [.nonterminal n] (w.map .terminal)

/-- All nonterminals of the string are in use. -/
def UsesOnly (g : Grammar) (Xs : List Symbol) : Prop := ∀ n, .nonterminal n ∈ Xs → g.InUse n

theorem reachable_start (g : Grammar) : g.Reachable g.start :=
  ⟨_, .refl _, List.mem_singleton_self _⟩

/-- What a reachable nonterminal can be replaced by is reachable. -/
theorem Reachable.right (h : g.Reachable rule.left) (hp : g.production? p = some rule)
    (hn : .nonterminal n ∈ rule.right) : g.Reachable n := by
  obtain ⟨Xs, hd, hm⟩ := h
  obtain ⟨before, after, rfl⟩ := List.append_of_mem hm
  have step := Step.mk hp before after
  refine ⟨_, hd.trans (Relation.ReflTransGen.single step), ?_⟩
  exact List.mem_append_left _ (List.mem_append_right _ hn)

/-- A reachable nonterminal occurs on a right side, the start symbol on that of the augmented start
production. -/
theorem WellFormed.exists_right_of_reachable (hg : g.WellFormed) (h : g.Reachable n) :
    ∃ rule ∈ g.productions.toList, .nonterminal n ∈ rule.right := by
  obtain ⟨Xs, hd, hm⟩ := h
  induction hd generalizing n with
  | refl =>
    obtain rfl : n = g.start := by simpa using hm
    exact ⟨_, hg.mem_productions_iff.mpr ⟨_, hg.accept⟩, List.mem_cons_self⟩
  | tail _ hs ih =>
    obtain ⟨hp, before, after⟩ := hs
    simp only [List.mem_append] at hm
    rcases hm with (hm | hm) | hm
    · exact ih (by simp [hm])
    · exact ⟨_, hg.mem_productions_iff.mpr ⟨_, hp⟩, hm⟩
    · exact ih (by simp [hm])

/-- The right side of a production in use has only nonterminals in use. -/
theorem WellFormed.usesOnly_right (hg : g.WellFormed) (h : g.InUse rule.left)
    (hp : g.production? p = some rule) : g.UsesOnly rule.right := by
  intro n hn
  rcases h with h | h
  · obtain rfl := hg.eq_accept_of_left hp h
    rw [hg.accept] at hp
    cases hp
    have hn : n = g.start := by simpa using hn
    exact .inr (hn ▸ reachable_start g)
  · exact .inr (h.right hp hn)

theorem UsesOnly.step (hg : g.WellFormed) (h : g.UsesOnly Xs) (hs : g.Step Xs Ys) :
    g.UsesOnly Ys := by
  obtain ⟨hp, before, after⟩ := hs
  have right := hg.usesOnly_right (h _ (by simp)) hp
  intro n hn
  simp only [List.mem_append] at hn
  rcases hn with (hn | hn) | hn
  · exact h n (by simp [hn])
  · exact right n hn
  · exact h n (by simp [hn])

theorem UsesOnly.derives (hg : g.WellFormed) (h : g.UsesOnly Xs) (hd : g.Derives Xs Ys) :
    g.UsesOnly Ys := by
  induction hd with
  | refl => exact h
  | tail _ hs ih => exact ih.step hg hs

section

variable (hp : ∀ n, g.Reachable n → g.Productive n)

include hp

/-- The augmented start symbol is productive because the start symbol is. -/
theorem WellFormed.productive_of_inUse (hg : g.WellFormed) (h : g.InUse n) : g.Productive n := by
  rcases h with rfl | h
  · obtain ⟨w, hw⟩ := hp g.start (reachable_start g)
    have below := hw.append (.refl [.terminal Terminal.endOfInput])
    refine ⟨w ++ [Terminal.endOfInput], (derives_right hg.accept).trans ?_⟩
    rw [List.map_append]
    exact below
  · exact hp n h

/-- A string of symbols in use derives a string of terminals. -/
theorem WellFormed.exists_terminals_of_usesOnly (hg : g.WellFormed) (h : g.UsesOnly Xs) :
    ∃ w : List Terminal, g.Derives Xs (w.map .terminal) := by
  induction Xs with
  | nil => exact ⟨[], .refl []⟩
  | cons X Xs ih =>
    obtain ⟨w, hw⟩ := ih fun n hn => h n (List.mem_cons_of_mem _ hn)
    have head : ∃ v : List Terminal, g.Derives [X] (v.map .terminal) := by
      cases X with
      | terminal t => exact ⟨[t], .refl _⟩
      | nonterminal n => exact hg.productive_of_inUse hp (h n List.mem_cons_self)
    obtain ⟨v, hv⟩ := head
    refine ⟨v ++ w, ?_⟩
    rw [List.map_append]
    exact hv.append hw

/-- A terminal that can begin what a string derives begins a string of terminals derived from
it. -/
theorem CanBegin.exists_terminals (hg : g.WellFormed) (h : g.UsesOnly Xs) (ht : g.CanBegin Xs t) :
    ∃ w : List Terminal, g.Derives Xs ((t :: w).map .terminal) := by
  obtain ⟨Ys, hd⟩ := ht
  have uses : g.UsesOnly Ys := fun n hn =>
    (h.derives hg hd) n (List.mem_cons_of_mem _ hn)
  obtain ⟨w, hw⟩ := hg.exists_terminals_of_usesOnly hp uses
  exact ⟨w, hd.trans ((Derives.refl [.terminal t]).append hw)⟩

end

/-- A sentence of two words is `d d`. -/
theorem productive_of_reachable_twoWords (h : twoWords.Reachable n) : twoWords.Productive n := by
  have places : ∀ rule ∈ twoWords.productions.toList, ∀ X ∈ rule.right,
      X ∈ [.nonterminal ⟨1⟩, .nonterminal ⟨2⟩, .terminal ⟨0⟩, .terminal ⟨2⟩, .terminal ⟨3⟩] := by
    decide +kernel
  have hword : twoWords.production? ⟨3⟩ = some ⟨⟨2⟩, [.terminal ⟨3⟩]⟩ := rfl
  have htwo : twoWords.production? ⟨1⟩ = some ⟨⟨1⟩, [.nonterminal ⟨2⟩, .nonterminal ⟨2⟩]⟩ := rfl
  have word := derives_right hword
  have two := derives_right htwo
  obtain ⟨rule, hm, hn⟩ := defined_twoWords.wellFormed.exists_right_of_reachable h
  have hn := places rule hm _ hn
  simp only [List.mem_cons, Symbol.nonterminal.injEq, reduceCtorEq, List.not_mem_nil,
    or_false] at hn
  rcases hn with rfl | rfl
  · exact ⟨[⟨3⟩, ⟨3⟩], two.trans (word.append word)⟩
  · exact ⟨[⟨3⟩], word⟩

end Grammar

end LRAutomata

import LRAutomata.Proofs.Automaton.Handle
import LRAutomata.Proofs.Grammar.Forest

/-!
# Automata without conflicts

If no state has a conflict, the grammar is unambiguous: the last step of a rightmost derivation can
be read off the string that it ends in, and so can every step before it.

* `ConflictFree.eq_of_steps`: two steps to the same string are the same;
* `ConflictFree.eq_of_rightmost`: so are two rightmost derivations of it;
* `unambiguous_of_conflicts_eq_nil`: so are two parse trees of the same string of terminals.
-/

namespace LRAutomata

namespace Grammar

variable {g : Grammar} {Xs Ys : List Symbol} {ps : List ProductionId} {p : ProductionId}

/-- A derivation leaves the augmented start symbol behind with its first step. -/
theorem WellFormed.start_not_mem (hg : g.WellFormed)
    (h : g.Rightmost [.nonterminal Nonterminal.augmented] ps Xs) :
    Xs = [.nonterminal Nonterminal.augmented] ∨ .nonterminal Nonterminal.augmented ∉ Xs := by
  induction h with
  | refl => exact .inl rfl
  | tail _ hs ih =>
    right
    obtain ⟨hp, before, after⟩ := hs
    have hafter := nonterminal_not_mem_terminals Nonterminal.augmented after
    simp only [List.mem_append, not_or]
    refine ⟨⟨?_, hg.unaugmented hp⟩, hafter⟩
    rcases ih with hs | hn
    · cases before with
      | nil => exact List.not_mem_nil
      | cons X before =>
        obtain ⟨-, hs⟩ := List.cons.inj hs
        exact absurd hs (List.append_ne_nil_of_right_ne_nil _ (List.cons_ne_nil _ _))
    · intro hm
      exact hn (List.mem_append_left _ hm)

theorem WellFormed.not_step_start (hg : g.WellFormed)
    (h : g.Rightmost [.nonterminal Nonterminal.augmented] ps Xs) :
    ¬ g.RightmostStep p Xs [.nonterminal Nonterminal.augmented] := by
  intro hs
  generalize hY : [Symbol.nonterminal Nonterminal.augmented] = Ys at hs
  have hm : Symbol.nonterminal Nonterminal.augmented ∈ Ys := hY ▸ List.mem_singleton_self _
  rcases hg.start_not_mem (.tail h hs) with he | hn
  · -- the string would have to begin with the start symbol before the step, too
    obtain ⟨hp, before, after⟩ := hs
    have hafter := nonterminal_not_mem_terminals Nonterminal.augmented after
    simp only [List.mem_append, hg.unaugmented hp, hafter, or_false] at hm
    rcases hg.start_not_mem h with hx | hn
    · cases before with
      | nil => exact absurd hm List.not_mem_nil
      | cons X before =>
        obtain ⟨-, hx⟩ := List.cons.inj hx
        exact absurd hx (List.append_ne_nil_of_right_ne_nil _ (List.cons_ne_nil _ _))
    · exact hn (List.mem_append_left _ hm)
  · exact hn hm

/-- A parse tree gives a rightmost derivation from the augmented start symbol, which uses the
augmented start production and then the productions of the tree. -/
theorem WellFormed.rightmost_of_parses (hg : g.WellFormed) {F : Forest} {w : List Terminal}
    (h : g.Parses F [.nonterminal g.start] w) :
    g.Rightmost [.nonterminal Nonterminal.augmented] (ProductionId.accept :: F.productions)
      ((w ++ [Terminal.endOfInput]).map .terminal) := by
  have step := RightmostStep.mk hg.accept [] []
  have below := h.rightmost.in_context [] [Terminal.endOfInput]
  simp only [List.map_nil, List.map_cons, List.nil_append, List.append_nil,
    List.singleton_append] at step below
  rw [List.map_append]
  exact (Rightmost.single step).trans below

end Grammar

namespace Automaton

variable {g : Grammar} {o : Options} {a : Automaton} {Xs Ys Zs : List Symbol}
  {p q : ProductionId} {ps qs : List ProductionId}

/-- No state has a conflict. -/
def ConflictFree (g : Grammar) (a : Automaton) : Prop :=
  ∀ s n, a.node? s = some n → n.toState.conflicts g = .ok []

section

variable {before before' mid path rest : List Symbol} {rule rule' : Production}
  {w w' : List Terminal} {s s' : StateId} {n : Node} {t : Terminal}

/-- Where a state reduces before a terminal, no path goes on with that terminal. -/
theorem ConflictFree.walk?_ne (hc : a.ConflictFree g) (hs : a.walk? path = some s)
    (hn : a.node? s = some n) (hr : n.items.Reduces g p t) :
    a.walk? (path ++ .terminal t :: rest) ≠ some s' := by
  intro hs'
  rw [← List.singleton_append, ← List.append_assoc] at hs'
  obtain ⟨r, hr'⟩ := exists_walk?_of_append hs'
  obtain ⟨s'', hs'', ht⟩ := walk?_concat_eq_some.mp hr'
  obtain rfl : s = s'' := Option.mem_unique hs hs''
  rw [goto?_of_node? hn] at ht
  have hnone : n.transitions.target? (.terminal t) = none :=
    State.target?_of_reduces (s := n.toState) (hc s n hn) hr
  rw [hnone] at ht
  cases ht

/-- If one handle ends before another in the same string, it ends with it: the automaton would
otherwise reduce and go on. -/
theorem ConflictFree.eq_of_prefix (hg : g.WellFormed) (ha : a.Carries g) (hc : a.ConflictFree g)
    (h : g.Rightmost [.nonterminal Nonterminal.augmented] ps
      (before ++ .nonterminal rule.left :: w.map .terminal))
    (hp : g.production? p = some rule)
    (h' : g.Rightmost [.nonterminal Nonterminal.augmented] qs
      (before' ++ .nonterminal rule'.left :: w'.map .terminal))
    (hq : g.production? q = some rule')
    (hpath : before' ++ rule'.right = before ++ rule.right ++ mid)
    (hw : w.map Symbol.terminal = mid ++ w'.map .terminal) :
    p = q ∧ before = before' ∧ w = w' := by
  obtain ⟨s, n, hs, hn, hr⟩ := ha.exists_reduces hg h hp
  obtain ⟨s', n', hs', hn', hr'⟩ := ha.exists_reduces hg h' hq
  rw [hpath] at hs'
  cases mid with
  | nil =>
    rw [List.append_nil] at hpath hs'
    obtain rfl : w = w' := List.map_injective_iff.mpr (fun _ _ => Symbol.terminal.inj) hw
    obtain rfl : s = s' := Option.mem_unique hs hs'
    obtain rfl : n = n' := Option.mem_unique hn hn'
    obtain rfl := State.eq_of_reduces (hc s n hn) hr hr'
    obtain rfl : rule = rule' := Option.mem_unique hp hq
    exact ⟨rfl, (List.append_cancel_right hpath).symm, rfl⟩
  | cons X mid =>
    cases w with
    | nil => cases hw
    | cons t w =>
      obtain ⟨rfl, -⟩ := List.cons.inj hw
      exact absurd hs' (hc.walk?_ne hs hn hr)

end

/-- Without conflicts, two last steps to the same string are the same. -/
theorem ConflictFree.eq_of_steps (hg : g.WellFormed) (ha : a.Carries g) (hc : a.ConflictFree g)
    (h : g.Rightmost [.nonterminal Nonterminal.augmented] ps Xs) (hs : g.RightmostStep p Xs Zs)
    (h' : g.Rightmost [.nonterminal Nonterminal.augmented] qs Ys)
    (hs' : g.RightmostStep q Ys Zs) : p = q ∧ Xs = Ys := by
  generalize hZ : Zs = Zs' at hs'
  obtain ⟨hp, before, w⟩ := hs
  obtain ⟨hq, before', w'⟩ := hs'
  rcases List.append_eq_append_iff.mp hZ with ⟨mid, hpath, hw⟩ | ⟨mid, hpath, hw⟩
  · obtain ⟨rfl, rfl, rfl⟩ := hc.eq_of_prefix hg ha h hp h' hq hpath hw
    rw [Option.mem_unique hp hq]
    exact ⟨rfl, rfl⟩
  · obtain ⟨rfl, rfl, rfl⟩ := hc.eq_of_prefix hg ha h' hq h hp hpath hw
    rw [Option.mem_unique hp hq]
    exact ⟨rfl, rfl⟩

/-- Without conflicts, a string has one rightmost derivation at most. -/
theorem ConflictFree.eq_of_rightmost (hg : g.WellFormed) (ha : a.Carries g)
    (hc : a.ConflictFree g) (h : g.Rightmost [.nonterminal Nonterminal.augmented] ps Zs)
    (h' : g.Rightmost [.nonterminal Nonterminal.augmented] qs Zs) : ps = qs := by
  induction h generalizing qs with
  | refl =>
    cases h' with
    | refl => rfl
    | tail h' hs' => exact absurd hs' (hg.not_step_start h')
  | tail h hs ih =>
    cases h' with
    | refl => exact absurd hs (hg.not_step_start h)
    | tail h' hs' =>
      obtain ⟨rfl, rfl⟩ := hc.eq_of_steps hg ha h hs h' hs'
      rw [ih h']

/-- If no state has a conflict, every string of terminals has one rightmost derivation at most
from the augmented start symbol, and one parse tree at most from the start symbol. -/
theorem unambiguous_of_conflicts_eq_nil [WordHash] (hg : g.Defined) (h : generate o g = .ok a)
    (hc : ∀ s n, a.node? s = some n → n.toState.conflicts g = .ok []) (w : List Terminal) :
    (∀ ps qs, g.Rightmost [.nonterminal Nonterminal.augmented] ps (w.map .terminal) →
      g.Rightmost [.nonterminal Nonterminal.augmented] qs (w.map .terminal) → ps = qs) ∧
    ∀ F F', g.Parses F [.nonterminal g.start] w → g.Parses F' [.nonterminal g.start] w →
      F = F' := by
  have hg := hg.wellFormed
  have ha := carries_of_generate hg h
  have hc : a.ConflictFree g := hc
  refine ⟨fun ps qs hp hq => hc.eq_of_rightmost hg ha hp hq, fun F F' hF hF' => ?_⟩
  have productions := hc.eq_of_rightmost hg ha (hg.rightmost_of_parses hF)
    (hg.rightmost_of_parses hF')
  have below : F.productions ++ [] = F'.productions ++ [] := by
    rw [(List.cons.inj productions).2]
  exact (hF.eq_of_productions_eq hF' below).1

/-- Whether no state has a conflict. -/
def quiet (g : Grammar) (a : Automaton) : Bool :=
  a.nodes.all fun n => n.toState.conflicts g = .ok []

theorem conflictFree_of_quiet (h : a.quiet g = true) : a.ConflictFree g := by
  intro s n hn
  rw [quiet, Array.all_eq_true_iff_forall_mem] at h
  exact of_decide_eq_true (h n (Array.mem_of_getElem? hn))

theorem unambiguous_twoWords : ∃ a, generate ⟨.lalr, 64⟩ .twoWords = .ok a ∧
    (∀ s n, a.node? s = some n → n.toState.conflicts .twoWords = .ok []) ∧
    (∀ ps qs, Grammar.twoWords.Rightmost [.nonterminal Nonterminal.augmented] ps
        ([⟨3⟩, ⟨3⟩, ⟨0⟩].map .terminal) →
      Grammar.twoWords.Rightmost [.nonterminal Nonterminal.augmented] qs
        ([⟨3⟩, ⟨3⟩, ⟨0⟩].map .terminal) → ps = qs) ∧
    ∀ F F', Grammar.twoWords.Parses F [.nonterminal ⟨1⟩] [⟨3⟩, ⟨3⟩, ⟨0⟩] →
      Grammar.twoWords.Parses F' [.nonterminal ⟨1⟩] [⟨3⟩, ⟨3⟩, ⟨0⟩] → F = F' := by
  obtain ⟨a, ha, hq⟩ := exists_ok_of_any (e := generate ⟨.lalr, 64⟩ .twoWords)
    (P := fun a => a.quiet .twoWords) (by decide +kernel)
  have hc := conflictFree_of_quiet hq
  exact ⟨a, ha, hc, unambiguous_of_conflicts_eq_nil Grammar.defined_twoWords ha hc _⟩

end Automaton

end LRAutomata

import LRAutomata.Proofs.Automaton.Unfailing
import Mathlib.Data.Finite.Prod
import Mathlib.SetTheory.Cardinal.Finite

/-!
# How many states there can be

States differ in their items, and there are finitely many lists of items. With a budget of that
many states, exploring ends when there is no state left to visit, and a larger budget makes no
difference.

* `finite_items`: items are finite maps between finite types;
* `Explored.size_le`: there are no more states than lists of items;
* `Explored.failsOnly_explore`: a budget is too small only if it is smaller than that;
* `explore_eq_of_le`: beyond it, all budgets have the same outcome;
* `Explored.explore_of_size_le`: the number of states that are found is budget enough.
-/

namespace LRAutomata

instance finite_uint16 : Finite UInt16 :=
  Finite.of_injective UInt16.toFin fun _ _ => UInt16.toFin_inj.mp

instance finite_core : Finite Core := by
  refine Finite.of_injective (fun c : Core => (c.production.id, c.dot)) ?_
  rintro ⟨⟨p⟩, i⟩ ⟨⟨q⟩, j⟩ h
  cases h
  rfl

instance finite_terminalSet : Finite TerminalSet := by
  refine Finite.of_injective (fun s : TerminalSet => s.bits.toFin) ?_
  rintro ⟨b⟩ ⟨c⟩ h
  exact congrArg TerminalSet.mk (BitVec.toFin_inj.mp h)

instance finite_items : Finite Items :=
  Finite.of_injective (fun s c => s.lookaheads? c) fun _ _ h =>
    Items.ext_lookaheads? fun c => congrFun h c

namespace Generator

variable [WordHash] {g : Grammar} {o : Options} {e : Generator} {a b : Automaton}

/-- States with the same items are one, for their signatures are the same. -/
theorem Explored.size_le (ha : e.Explored a) : a.size ≤ Nat.card Items := by
  have node (i : Fin a.size) := Automaton.exists_node?_of_lt (a := a) (s := ⟨i⟩) i.isLt
  choose n hn using node
  have inj : Function.Injective fun i => (n i).items := by
    intro i j h
    have sig : (n i).signature = (n j).signature := by
      rw [(ha.node (hn i)).1, (ha.node (hn j)).1]
      exact congrArg (Signature.ofItems _) h
    exact Fin.ext (congrArg StateId.number (ha.indexed.distinct (hn i) (hn j) sig))
  have card := Nat.card_le_card_of_injective _ inj
  rwa [Nat.card_fin] at card

/-- The first state can be added. -/
theorem exists_start (hg : g.WellFormed) (o : Options) : ∃ a, (ofGrammar g o).start = .ok a := by
  have hv : ∀ c ∈ startItems.cores, g.isValid c = true := by
    intro c hc
    rw [mem_cores_startItems.mp hc]
    exact (Option.any_eq_true _ _).mpr ⟨_, hg.accept, decide_eq_true (Nat.zero_le _)⟩
  have hclosed : ∀ c ∈ (State.ofItems (startItems.closed g g.firstSets)).items.cores,
      g.isValid c = true := fun c hc => Items.isValid_of_mem_closed hg hv hc
  have hfree (k : Signature) : (Automaton.empty o.method).find? k = none := by
    by_contra hk
    obtain ⟨s, hs⟩ := Option.ne_none_iff_exists'.mp hk
    obtain ⟨n, hn, -⟩ := Automaton.exists_node?_of_find? hs
    exact absurd (Automaton.lt_size_of_node? hn) (Nat.not_lt_zero _)
  obtain ⟨a, ha⟩ := Automaton.exists_add hclosed (hfree _)
  exact ⟨a, bind_eq_ok.mpr ⟨_, State.close_eq _ hv, ha⟩⟩

/-- Exploring fails by productions that are too long, or else because the budget is smaller than
the number of states that there can be. -/
theorem Explored.failsOnly_explore (hg : g.WellFormed) (budget : Nat) {k : Nat}
    (ha : (ofGrammar g o).Explored a) (hr : Reached a) (hf : Finished a k) :
    FailsOnly (fun f => g.Overflows f ∨ f = .tooManyStates ∧ k + budget < Nat.card Items)
      ((ofGrammar g o).explore budget k a) := by
  induction budget generalizing k a with
  | zero =>
    rw [Generator.explore]
    split
    next hk =>
      intro f h
      cases h
      exact .inr ⟨rfl, Nat.lt_of_lt_of_le hk ha.size_le⟩
    next => exact failsOnly_ok _ a
  | succ budget ih =>
    rw [Generator.explore]
    split
    next hk =>
      have visit := ha.failsOnly_visit hg hr (s := ⟨k⟩) hk
      refine FailsOnly.bind (visit.mono fun f => .inl) fun b hb => ?_
      obtain ⟨eb, rb, fb⟩ := ha.visit hr hf hk hb
      refine (ih eb rb fb).mono fun f h => h.imp id fun h => ⟨h.1, ?_⟩
      omega
    next => exact failsOnly_ok _ a

/-- A larger budget has the same outcome unless there were too many states. -/
theorem explore_eq_of_le {budget budget' : Nat} (hle : budget ≤ budget') {k : Nat}
    (h : e.explore budget k a ≠ .error .tooManyStates) :
    e.explore budget' k a = e.explore budget k a := by
  induction budget generalizing budget' k a with
  | zero =>
    rw [explore] at h ⊢
    split at h
    · exact absurd rfl h
    next hk =>
      rw [if_neg hk]
      cases budget' <;> rw [explore, if_neg hk]
  | succ budget ih =>
    obtain ⟨budget', rfl⟩ : ∃ n, budget' = n + 1 := ⟨budget' - 1, by omega⟩
    rw [explore] at h ⊢
    rw [explore]
    by_cases hk : k < a.size
    · rw [if_pos hk] at h
      rw [if_pos hk, if_pos hk]
      cases hv : e.visit a ⟨k⟩ with
      | error f => rfl
      | ok b =>
        rw [hv] at h
        exact ih (Nat.le_of_succ_le_succ hle) h
    · rw [if_neg hk, if_neg hk]

/-- The budget is the only use that is made of the limit on the number of states. -/
theorem explore_congr (g : Grammar) (m : Method) (maxStates maxStates' budget k : Nat)
    (a : Automaton) : (ofGrammar g ⟨m, maxStates⟩).explore budget k a =
      (ofGrammar g ⟨m, maxStates'⟩).explore budget k a := by
  induction budget generalizing k a with
  | zero => rfl
  | succ budget ih =>
    rw [explore, explore]
    have visit : (ofGrammar g ⟨m, maxStates⟩).visit a ⟨k⟩ =
        (ofGrammar g ⟨m, maxStates'⟩).visit a ⟨k⟩ := rfl
    rw [visit]
    simp only [ih]

/-- Exploring does not go beyond its budget. -/
theorem size_le_of_explore {budget k : Nat} (h : e.explore budget k a = .ok b) :
    b.size ≤ k + budget := by
  induction budget generalizing k a with
  | zero =>
    rw [explore] at h
    split at h <;> [cases h; skip]
    next hk =>
      cases h
      omega
  | succ budget ih =>
    rw [explore] at h
    split at h
    next =>
      obtain ⟨c, -, h⟩ := bind_eq_ok.mp h
      have hle := ih h
      omega
    next hk =>
      cases h
      omega

/-- No state is lost on the way. -/
theorem Explored.size_le_of_explore {budget k : Nat} (ha : e.Explored a) (hr : Reached a)
    (hf : Finished a k) (h : e.explore budget k a = .ok b) : a.size ≤ b.size := by
  induction budget generalizing k a with
  | zero =>
    rw [Generator.explore] at h
    split at h <;> cases h
    exact Nat.le_refl _
  | succ budget ih =>
    rw [Generator.explore] at h
    split at h
    next hk =>
      obtain ⟨c, hc, h⟩ := bind_eq_ok.mp h
      obtain ⟨ec, rc, fc⟩ := ha.visit hr hf hk hc
      exact Nat.le_trans (ha.grows_visit hr hc).size_le (ih ec rc fc h)
    next =>
      cases h
      exact Nat.le_refl _

/-- Any budget will do that there are no more states to visit than. -/
theorem Explored.explore_of_size_le {budget budget' k : Nat} (ha : e.Explored a) (hr : Reached a)
    (hf : Finished a k) (h : e.explore budget k a = .ok b) (hle : b.size ≤ k + budget') :
    e.explore budget' k a = .ok b := by
  induction budget generalizing budget' k a with
  | zero =>
    rw [Generator.explore] at h
    split at h <;> [cases h; skip]
    next hk => cases budget' <;> rw [Generator.explore, if_neg hk, h]
  | succ budget ih =>
    rw [Generator.explore] at h
    split at h
    next hk =>
      have hwhole : e.explore (budget + 1) k a = .ok b := by rw [Generator.explore, if_pos hk, h]
      have hsize := ha.size_le_of_explore hr hf hwhole
      obtain ⟨c, hc, h⟩ := bind_eq_ok.mp h
      obtain ⟨ec, rc, fc⟩ := ha.visit hr hf hk hc
      obtain ⟨n, rfl⟩ : ∃ n, budget' = n + 1 := ⟨budget' - 1, by omega⟩
      rw [Generator.explore, if_pos hk]
      exact bind_eq_ok.mpr ⟨c, hc, ih ec rc fc h (by omega)⟩
    next hk => cases budget' <;> rw [Generator.explore, if_neg hk, h]

end Generator

end LRAutomata

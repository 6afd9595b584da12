import LRAutomata.Proofs.Automaton.Conflict
import LRAutomata.Proofs.Automaton.Generate

/-!
# Handles

The last step of a rightmost derivation leaves a right side of a production in the string, its
handle. The automaton finds it:

* `Grammar.Awaits`: what is valid where a nonterminal stands in a string, with what may follow it;
* `Rightmost.awaits`: this holds of every nonterminal of every string of a rightmost derivation;
* `Carries.exists_reduces`: the path up to the end of a handle leads to a state that reduces it.
-/

namespace LRAutomata

namespace Grammar

variable {g : Grammar} {Xs Ys before after path : List Symbol} {p q : ProductionId}
  {rule : Production} {ps : List ProductionId} {t : Terminal}

theorem symbolAt?_of_split (h : g.production? p = some rule) {X : Symbol}
    (hr : rule.right = before ++ X :: after) : g.symbolAt? p before.length = some X := by
  rw [symbolAt?, h, Option.bind_some, hr]
  simp

theorem after_of_split (h : g.production? p = some rule) {X : Symbol}
    (hr : rule.right = before ++ X :: after) : g.after p before.length = after := by
  rw [Grammar.after, h]
  show rule.right.drop (before.length + 1) = after
  rw [hr, ← List.drop_drop, List.drop_left]
  rfl

theorem ValidShape.along (h : g.ValidShape path p 0) (hp : g.production? p = some rule)
    (hr : rule.right = before ++ after) : g.ValidShape (path ++ before) p before.length := by
  induction before using List.reverseRecOn generalizing after with
  | nil => rwa [List.append_nil]
  | append_singleton before X ih =>
    rw [List.append_assoc, List.singleton_append] at hr
    rw [← List.append_assoc, List.length_append, List.length_singleton]
    exact .shift (ih hr) (symbolAt?_of_split hp hr)

theorem Valid.along (h : g.Valid path p 0 t) (hp : g.production? p = some rule)
    (hr : rule.right = before ++ after) : g.Valid (path ++ before) p before.length t := by
  induction before using List.reverseRecOn generalizing after with
  | nil => rwa [List.append_nil]
  | append_singleton before X ih =>
    rw [List.append_assoc, List.singleton_append] at hr
    rw [← List.append_assoc, List.length_append, List.length_singleton]
    exact .shift (ih hr) (symbolAt?_of_split hp hr)

/-- The terminal can begin what is derived from the string; the end of input can if that is
empty. -/
def MayFollow (g : Grammar) (Xs : List Symbol) (t : Terminal) : Prop :=
  g.CanBegin Xs t ∨ g.Vanishes Xs ∧ t = Terminal.endOfInput

theorem mayFollow_append_iff :
    g.MayFollow (Xs ++ Ys) t ↔ g.CanBegin Xs t ∨ g.Vanishes Xs ∧ g.MayFollow Ys t := by
  rw [MayFollow, MayFollow, canBegin_append_iff, vanishes_append_iff, or_assoc, and_assoc,
    and_or_left]

theorem MayFollow.of_derives (h : g.Derives Xs Ys) (ht : g.MayFollow Ys t) : g.MayFollow Xs t := by
  rcases ht with ht | ⟨hv, ht⟩
  · exact .inl (ht.of_derives h)
  · exact .inr ⟨h.trans hv, ht⟩

/-- For every nonterminal in the string, its productions are valid for what stands before it, with
what may follow it. -/
def Awaits (g : Grammar) (Xs : List Symbol) : Prop :=
  ∀ before after q rule, g.production? q = some rule →
    Xs = before ++ .nonterminal rule.left :: after →
    g.ValidShape before q 0 ∧ ∀ t, g.MayFollow after t → g.Valid before q 0 t

theorem WellFormed.awaits_start (hg : g.WellFormed) :
    g.Awaits [.nonterminal Nonterminal.augmented] := by
  intro before after q rule hq h
  cases before with
  | cons X before =>
    obtain ⟨-, h⟩ := List.cons.inj h
    exact absurd h.symm (List.append_ne_nil_of_right_ne_nil _ (List.cons_ne_nil _ _))
  | nil =>
    obtain ⟨hX, rfl⟩ := List.cons.inj h
    obtain rfl := hg.eq_accept_of_left hq (Symbol.nonterminal.inj hX).symm
    refine ⟨.start, fun t ht => ?_⟩
    rcases ht with ht | ⟨-, rfl⟩
    · exact absurd ht (not_canBegin_nil t)
    · exact .start

/-- A nonterminal before the end of the string still waits when the end gives way: the old end
derives the new one, so what may follow now could follow before. -/
theorem Awaits.of_before {end₁ end₂ : List Symbol}
    (h : g.Awaits (before ++ .nonterminal rule.left :: after ++ end₁))
    (hp : g.production? p = some rule) (hd : g.Derives end₁ end₂) :
    g.ValidShape before p 0 ∧ ∀ t, g.MayFollow (after ++ end₂) t → g.Valid before p 0 t := by
  have split : before ++ Symbol.nonterminal rule.left :: after ++ end₁ =
      before ++ Symbol.nonterminal rule.left :: (after ++ end₁) := by
    rw [List.append_assoc, List.cons_append]
  obtain ⟨hv, hf⟩ := h before _ p rule hp split
  have hd' : g.Derives (after ++ end₁) (after ++ end₂) := (Derives.refl after).append hd
  exact ⟨hv, fun t ht => hf t (ht.of_derives hd')⟩

/-- A nonterminal in a right side waits where the left side did. -/
theorem Awaits.of_within {rule' : Production} {rest : List Symbol}
    (h : g.Awaits (path ++ .nonterminal rule.left :: rest)) (hp : g.production? p = some rule)
    (hq : g.production? q = some rule')
    (hr : rule.right = before ++ .nonterminal rule'.left :: after) :
    g.ValidShape (path ++ before) q 0 ∧
      ∀ t, g.MayFollow (after ++ rest) t → g.Valid (path ++ before) q 0 t := by
  obtain ⟨hv, hf⟩ := h path rest p rule hp rfl
  have hX := symbolAt?_of_split hp hr
  have along := hv.along hp hr
  refine ⟨.expand along hq hX, fun t ht => ?_⟩
  rw [mayFollow_append_iff, ← after_of_split hp hr] at ht
  rcases ht with ht | ⟨hv, ht⟩
  · exact .arise along hq hX ht
  · exact .inherit ((hf t ht).along hp hr) hq hX hv

/-- One rightmost step: a nonterminal after it stands before the one that gives way, or comes in
with the right side. -/
theorem Awaits.step (h : g.Awaits Xs) (hs : g.RightmostStep p Xs Ys) : g.Awaits Ys := by
  obtain ⟨hp, δ, w⟩ := hs
  intro before after q rule' hq he
  rw [List.append_assoc] at he
  rcases append_eq_append_cons he with ⟨mid, rfl, rfl⟩ | ⟨mid, rfl, hmid⟩
  · exact h.of_before hq (Relation.ReflTransGen.single (.mk hp [] _))
  · rcases append_eq_append_cons hmid with ⟨rest, hr, rfl⟩ | ⟨rest, -, hw⟩
    · exact h.of_within hp hq hr
    · refine absurd ?_ (nonterminal_not_mem_terminals rule'.left w)
      rw [hw]
      exact List.mem_append_right _ List.mem_cons_self

theorem Rightmost.awaits (hg : g.WellFormed)
    (h : g.Rightmost [.nonterminal Nonterminal.augmented] ps Xs) : g.Awaits Xs := by
  induction h with
  | refl => exact hg.awaits_start
  | tail _ hs ih => exact ih.step hs

/-- The production of the last step is valid where the handle begins, before the first terminal
after it. -/
theorem Rightmost.valid_start (hg : g.WellFormed) {w : List Terminal}
    (h : g.Rightmost [.nonterminal Nonterminal.augmented] ps
      (before ++ .nonterminal rule.left :: w.map .terminal))
    (hp : g.production? p = some rule) : g.Valid before p 0 (w.headD Terminal.endOfInput) := by
  have hf : g.MayFollow (w.map .terminal) (w.headD Terminal.endOfInput) := by
    cases w with
    | nil => exact .inr ⟨vanishes_nil, rfl⟩
    | cons t w => exact .inl ⟨w.map .terminal, .refl _⟩
  exact (h.awaits hg before _ p rule hp rfl).2 _ hf

/-- So it is valid up to the end of the handle. -/
theorem Rightmost.valid_handle (hg : g.WellFormed) {w : List Terminal}
    (h : g.Rightmost [.nonterminal Nonterminal.augmented] ps
      (before ++ .nonterminal rule.left :: w.map .terminal))
    (hp : g.production? p = some rule) : g.Valid (before ++ rule.right) p rule.right.length
      (w.headD Terminal.endOfInput) :=
  (h.valid_start hg hp).along hp (List.append_nil _).symm

end Grammar

namespace Automaton

variable {g : Grammar} {o : Options} {a : Automaton} {before : List Symbol} {p : ProductionId}
  {rule : Production} {ps : List ProductionId} {w : List Terminal}

/-- The path up to the end of a handle leads to a state that reduces it. -/
theorem Carries.exists_reduces (hg : g.WellFormed) (ha : a.Carries g)
    (h : g.Rightmost [.nonterminal Nonterminal.augmented] ps
      (before ++ .nonterminal rule.left :: w.map .terminal))
    (hp : g.production? p = some rule) :
    ∃ s n, a.walk? (before ++ rule.right) = some s ∧ a.node? s = some n ∧
      n.items.Reduces g p (w.headD Terminal.endOfInput) := by
  obtain ⟨s, n, hs, hn, c, hc, hcp, hd⟩ := ha.hasAt_of_valid hg (h.valid_handle hg hp)
  refine ⟨s, n, hs, hn, c, hc, ?_, hcp⟩
  rw [Grammar.isComplete, hcp, hp, Option.any_some, hd, decide_eq_true_eq]

theorem Tracks.production?_isSome (hg : g.WellFormed) (ha : a.Tracks g) {s : StateId} {n : Node}
    (hn : a.node? s = some n) : ∀ c ∈ n.items.cores, (g.production? c.production).isSome = true :=
  Items.production?_isSome_of_isValid (ha.isValid hg hn)

/-- No handle is lost: after a rightmost derivation, the path up to the end of the handle of its
last step is there, and the reductions of the state that it leads to have the production of that
step under the first terminal after the handle. -/
theorem exists_reductions_of_rightmost [WordHash] (hg : g.Defined) (h : generate o g = .ok a)
    (hd : g.Rightmost [.nonterminal Nonterminal.augmented] ps
      (before ++ .nonterminal rule.left :: w.map .terminal))
    (hp : g.production? p = some rule) :
    none ∉ a.follow (some StateId.initial) (before ++ rule.right) ∧
    ∃ s n rs qs, a.walk? (before ++ rule.right) = some s ∧ a.node? s = some n ∧
      n.toState.reductions g = .ok rs ∧ (w.headD Terminal.endOfInput, qs) ∈ rs ∧ p ∈ qs := by
  have hg := hg.wellFormed
  have ha := carries_of_generate hg h
  obtain ⟨s, n, hs, hn, hr⟩ := ha.exists_reduces hg hd hp
  obtain ⟨rs, hrs, hiff⟩ := State.exists_reductions (s := n.toState)
    (ha.tracks.production?_isSome hg hn)
  obtain ⟨qs, hm, hq⟩ := (hiff p _).mp hr
  exact ⟨none_not_mem_follow hs, s, n, rs, qs, hs, hn, hrs, hm, hq⟩

/-- The second word of `d d` is derived before the first: with `d` read and another one to come, the
state that is reached reduces by the production of a word without `c`. -/
theorem exists_reductions_twoWords : ∃ a, generate ⟨.lalr, 64⟩ .twoWords = .ok a ∧
    none ∉ a.follow (some StateId.initial) [.terminal ⟨3⟩] ∧
    ∃ s n rs qs, a.walk? [.terminal ⟨3⟩] = some s ∧ a.node? s = some n ∧
      n.toState.reductions .twoWords = .ok rs ∧ (⟨3⟩, qs) ∈ rs ∧ ⟨3⟩ ∈ qs := by
  obtain ⟨a, ha, -⟩ := exists_ok_of_any (e := generate ⟨.lalr, 64⟩ .twoWords)
    (P := fun _ => true) (by decide +kernel)
  have hstart : Grammar.twoWords.production? ⟨0⟩ =
      some ⟨⟨0⟩, [.nonterminal ⟨1⟩, .terminal ⟨0⟩]⟩ := rfl
  have htwo : Grammar.twoWords.production? ⟨1⟩ =
      some ⟨⟨1⟩, [.nonterminal ⟨2⟩, .nonterminal ⟨2⟩]⟩ := rfl
  have hword : Grammar.twoWords.production? ⟨3⟩ = some ⟨⟨2⟩, [.terminal ⟨3⟩]⟩ := rfl
  have derivation : Grammar.twoWords.Rightmost [.nonterminal Nonterminal.augmented]
      [⟨0⟩, ⟨1⟩, ⟨3⟩] ([] ++ .nonterminal (Production.mk ⟨2⟩ [.terminal ⟨3⟩]).left ::
        [⟨3⟩, ⟨0⟩].map .terminal) :=
    .tail (.tail (.tail .refl (.mk hstart [] [])) (.mk htwo [] [⟨0⟩]))
      (.mk hword [.nonterminal ⟨2⟩] [⟨0⟩])
  exact ⟨a, ha, exists_reductions_of_rightmost Grammar.defined_twoWords ha derivation hword⟩

end Automaton

end LRAutomata

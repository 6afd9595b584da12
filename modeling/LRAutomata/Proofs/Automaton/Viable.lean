import LRAutomata.Proofs.Automaton.Handle
import LRAutomata.Proofs.Grammar.Productive

/-!
# Viable prefixes

What an automaton offers comes from derivations, provided that every reachable nonterminal derives
a string of terminals:

* `Grammar.EndsInHandle`: the string that a rightmost derivation ends in, cut at its handle;
* `ValidShape.exists_handle`, `Valid.exists_handle`: a valid item belongs to such a handle, and its
  lookahead is the first terminal after it;
* `Automaton.viable_of_generate`: every path is a viable prefix, and every reduction is the last
  step of a rightmost derivation.
-/

namespace LRAutomata

namespace Grammar

variable {g : Grammar} {path before front rest : List Symbol} {p q : ProductionId} {d : Nat}
  {rule rule' : Production} {t : Terminal} {v w : List Terminal}

/-- A rightmost derivation from the augmented start symbol ends with a step by production `p`, which
leaves its right side between `before` and `w`. -/
def EndsInHandle (g : Grammar) (before : List Symbol) (p : ProductionId) (rule : Production)
    (w : List Terminal) : Prop :=
  g.production? p = some rule ∧ ∃ ps, g.Rightmost [.nonterminal Nonterminal.augmented] ps
    (before ++ .nonterminal rule.left :: w.map .terminal)

/-- The path is a prefix of a string of a rightmost derivation and does not go beyond the handle
there. -/
def ViablePrefix (g : Grammar) (path : List Symbol) : Prop :=
  ∃ before p rule w, g.EndsInHandle before p rule w ∧ path <+: before ++ rule.right

theorem WellFormed.endsInHandle_start (hg : g.WellFormed) : g.EndsInHandle [] ProductionId.accept
    ⟨Nonterminal.augmented, [.nonterminal g.start, .terminal Terminal.endOfInput]⟩ [] :=
  ⟨hg.accept, [], .refl⟩

/-- The derivation can go on to a nonterminal of the handle: what follows that one is driven on to
terminals, from the right. -/
theorem EndsInHandle.expose (h : g.EndsInHandle before p rule w)
    (hr : rule.right = front ++ .nonterminal rule'.left :: rest) (hq : g.production? q = some rule')
    (hd : g.Derives rest (v.map .terminal)) :
    g.EndsInHandle (before ++ front) q rule' (v ++ w) := by
  obtain ⟨hp, ps, h⟩ := h
  obtain ⟨qs, hqs⟩ := exists_rightmost_of_derives hd
  have last : g.Rightmost [.nonterminal Nonterminal.augmented] (ps ++ [p])
      (before ++ rule.right ++ w.map .terminal) := .tail h (.mk hp before w)
  have driven := hqs.in_context (before ++ front ++ [.nonterminal rule'.left]) w
  have same : before ++ rule.right ++ w.map Symbol.terminal =
      before ++ front ++ [.nonterminal rule'.left] ++ rest ++ w.map .terminal := by
    simp only [hr, List.append_assoc, List.cons_append, List.nil_append]
  rw [same] at last
  refine ⟨hq, ps ++ [p] ++ qs, ?_⟩
  simpa only [List.append_assoc, List.cons_append, List.nil_append, List.map_append]
    using last.trans driven

theorem symbolAt?_eq_some_iff {X : Symbol} : g.symbolAt? p d = some X ↔
    ∃ rule, g.production? p = some rule ∧ rule.right[d]? = some X := by
  rw [symbolAt?, Option.bind_eq_some_iff]

/-- A right side around the symbol at a place. -/
theorem split_of_symbolAt? (hp : g.production? p = some rule) {X : Symbol}
    (hX : g.symbolAt? p d = some X) : rule.right = rule.right.take d ++ X :: g.after p d := by
  obtain ⟨rule', hp', hd⟩ := symbolAt?_eq_some_iff.mp hX
  obtain rfl : rule = rule' := Option.mem_unique hp hp'
  obtain ⟨hlt, hget⟩ := List.getElem?_eq_some_iff.mp hd
  have hafter : g.after p d = rule.right.drop (d + 1) := by
    rw [after, hp]
  rw [hafter, ← hget, ← List.drop_eq_getElem_cons hlt, List.take_append_drop]

theorem ValidShape.inUse (hg : g.WellFormed) (h : g.ValidShape path p d)
    (hp : g.production? p = some rule) : g.InUse rule.left := by
  induction h generalizing rule with
  | start =>
    rw [hg.accept] at hp
    cases hp
    exact .inl rfl
  | shift _ _ ih => exact ih hp
  | expand _ hq hX ih =>
    obtain rfl := Option.mem_unique hq hp
    obtain ⟨rule', hp', hd⟩ := symbolAt?_eq_some_iff.mp hX
    exact hg.usesOnly_right (ih hp') hp' _ (List.mem_of_getElem? hd)

theorem ValidShape.usesOnly_after (hg : g.WellFormed) (h : g.ValidShape path p d) :
    g.UsesOnly (g.after p d) := by
  intro n hn
  rw [after] at hn
  split at hn
  next rule hp => exact hg.usesOnly_right (h.inUse hg hp) hp n (List.mem_of_mem_drop hn)
  next => exact absurd hn List.not_mem_nil

/-- The path goes into the handle of `p` before `w`, up to place `d`. -/
def EntersHandle (g : Grammar) (path : List Symbol) (p : ProductionId) (d : Nat)
    (w : List Terminal) : Prop :=
  ∃ before rule, g.EndsInHandle before p rule w ∧ path = before ++ rule.right.take d

theorem WellFormed.entersHandle_start (hg : g.WellFormed) :
    g.EntersHandle [] ProductionId.accept 0 [] :=
  ⟨[], _, hg.endsInHandle_start, rfl⟩

theorem EntersHandle.shift (h : g.EntersHandle path p d w) {X : Symbol}
    (hX : g.symbolAt? p d = some X) : g.EntersHandle (path ++ [X]) p (d + 1) w := by
  obtain ⟨before, rule, hb, rfl⟩ := h
  obtain ⟨rule', hp, hd⟩ := symbolAt?_eq_some_iff.mp hX
  obtain rfl : rule = rule' := Option.mem_unique hb.1 hp
  refine ⟨before, rule, hb, ?_⟩
  rw [List.take_add_one, hd, List.append_assoc]
  rfl

theorem EntersHandle.expand (h : g.EntersHandle path p d w) (hq : g.production? q = some rule)
    (hX : g.symbolAt? p d = some (.nonterminal rule.left))
    (hd : g.Derives (g.after p d) (v.map .terminal)) : g.EntersHandle path q 0 (v ++ w) := by
  obtain ⟨before, rule', hb, rfl⟩ := h
  refine ⟨_, rule, hb.expose (split_of_symbolAt? hb.1 hX) hq hd, ?_⟩
  rw [List.take_zero, List.append_nil]

section

variable (hp : ∀ n, g.Reachable n → g.Productive n)

include hp

/-- A valid shape belongs to a handle that its path goes into. -/
theorem ValidShape.exists_handle (hg : g.WellFormed) (h : g.ValidShape path p d) :
    ∃ w, g.EntersHandle path p d w := by
  induction h with
  | start => exact ⟨[], hg.entersHandle_start⟩
  | shift _ hX ih =>
    obtain ⟨w, hw⟩ := ih
    exact ⟨w, hw.shift hX⟩
  | expand hs hq hX ih =>
    obtain ⟨w, hw⟩ := ih
    obtain ⟨v, hv⟩ := hg.exists_terminals_of_usesOnly hp (hs.usesOnly_after hg)
    exact ⟨v ++ w, hw.expand hq hX hv⟩

/-- The lookahead of a valid item is the first terminal after such a handle. -/
theorem Valid.exists_handle (hg : g.WellFormed) (h : g.Valid path p d t) :
    ∃ w, g.EntersHandle path p d w ∧ w.headD Terminal.endOfInput = t := by
  induction h with
  | start => exact ⟨[], hg.entersHandle_start, rfl⟩
  | shift _ hX ih =>
    obtain ⟨w, hw, ht⟩ := ih
    exact ⟨w, hw.shift hX, ht⟩
  | arise hs hq hX hb =>
    obtain ⟨w, hw⟩ := hs.exists_handle hp hg
    obtain ⟨v, hv⟩ := hb.exists_terminals hp hg (hs.usesOnly_after hg)
    exact ⟨_, hw.expand hq hX hv, rfl⟩
  | inherit _ hq hX hv ih =>
    obtain ⟨w, hw, ht⟩ := ih
    exact ⟨w, hw.expand (v := []) hq hX hv, ht⟩

theorem ValidShape.viablePrefix (hg : g.WellFormed) (h : g.ValidShape path p d) :
    g.ViablePrefix path := by
  obtain ⟨w, before, rule, hb, rfl⟩ := h.exists_handle hp hg
  refine ⟨before, p, rule, w, hb, ?_⟩
  exact (List.prefix_append_right_inj before).mpr (List.take_prefix d rule.right)

/-- A valid item that is complete: the path ends with the handle. -/
theorem Valid.exists_complete (hg : g.WellFormed) (hr : g.production? p = some rule)
    (h : g.Valid path p rule.right.length t) : ∃ before w, g.EndsInHandle before p rule w ∧
      w.headD Terminal.endOfInput = t ∧ before ++ rule.right = path := by
  obtain ⟨w, ⟨before, rule', hb, rfl⟩, ht⟩ := h.exists_handle hp hg
  obtain rfl : rule = rule' := Option.mem_unique hr hb.1
  exact ⟨before, w, hb, ht, by rw [List.take_length]⟩

end

end Grammar

namespace Automaton

variable {g : Grammar} {o : Options} {a : Automaton} {path : List Symbol} {s : StateId} {n : Node}
  {p : ProductionId} {t : Terminal}

theorem exists_complete_of_reduces (hr : n.items.Reduces g p t) : ∃ c rule,
    n.items.Has c t ∧ c.production = p ∧ g.production? p = some rule ∧
      c.dot.toNat = rule.right.length := by
  obtain ⟨c, hc, hcomplete, rfl⟩ := hr
  obtain ⟨rule, hp, hd⟩ := (Option.any_eq_true _ _).mp hcomplete
  exact ⟨c, rule, hc, rfl, hp, (of_decide_eq_true hd).symm⟩

/-- A reduction at the end of a path for which its item is valid ends a rightmost derivation. -/
theorem exists_handle_of_itemAt (hp : ∀ n, g.Reachable n → g.Productive n) (hg : g.WellFormed)
    {c : Core} {rule : Production} (hr : g.production? c.production = some rule)
    (hd : c.dot.toNat = rule.right.length) (h : g.ItemAt path c t) :
    ∃ before w, g.EndsInHandle before c.production rule w ∧ w.headD Terminal.endOfInput = t ∧
      before ++ rule.right = path := by
  rw [Grammar.ItemAt, hd] at h
  exact h.exists_complete hp hg hr

/-- Where every reachable nonterminal derives a string of terminals, every path is a viable prefix,
and whatever a state reduces by before a terminal is the last step of a rightmost derivation whose
handle ends at that state, with that terminal after it; with the canonical method the derivation
can be chosen to fit any path to the state. -/
theorem viable_of_generate [WordHash] (hg : g.Defined) (hp : ∀ n, g.Reachable n → g.Productive n)
    (h : generate o g = .ok a) :
    (∀ path s, a.walk? path = some s → g.ViablePrefix path) ∧
    ∀ s n, a.node? s = some n → ∃ rs, n.toState.reductions g = .ok rs ∧
      ∀ t ps p, (t, ps) ∈ rs → p ∈ ps →
        (∃ before rule w, g.EndsInHandle before p rule w ∧ w.headD Terminal.endOfInput = t ∧
          a.walk? (before ++ rule.right) = some s) ∧
        (o.method = .canonical → ∀ path, a.walk? path = some s →
          ∃ before rule w, g.EndsInHandle before p rule w ∧ w.headD Terminal.endOfInput = t ∧
            before ++ rule.right = path) := by
  have hg := hg.wellFormed
  have ha := carries_of_generate hg h
  refine ⟨fun path s hs => ?_, fun s n hn => ?_⟩
  · have hsome : (a.walk? path).isSome = true := by
      rw [hs]
      rfl
    obtain ⟨q, d, hv⟩ := (ha.tracks.walk?_isSome_iff hg).mp hsome
    exact hv.viablePrefix hp hg
  · obtain ⟨rs, hrs, hiff⟩ := State.exists_reductions (s := n.toState)
      (ha.tracks.production?_isSome hg hn)
    refine ⟨rs, hrs, fun t ps p hm hps => ?_⟩
    have hr : n.items.Reduces g p t := (hiff p t).mpr ⟨ps, hm, hps⟩
    obtain ⟨c, rule, hc, rfl, hrule, hd⟩ := exists_complete_of_reduces hr
    refine ⟨?_, fun hm path hs => ?_⟩
    · obtain ⟨path, hs, hi⟩ := exists_itemAt_of_generate hg h hn hc
      obtain ⟨before, w, hb, ht, rfl⟩ := exists_handle_of_itemAt hp hg hrule hd hi
      exact ⟨before, rule, w, hb, ht, hs⟩
    · have hi := (canonical_of_generate hg hm h).itemAt hg hs hn hc
      obtain ⟨before, w, hb, ht, he⟩ := exists_handle_of_itemAt hp hg hrule hd hi
      exact ⟨before, rule, w, hb, ht, he⟩

/-- After `c d` the canonical automaton reduces by the production of a word without `c` if another
`c` follows: that word ends the first of the two, and the second one begins with `c`. -/
theorem viable_twoWords : ∃ a, generate ⟨.canonical, 64⟩ .twoWords = .ok a ∧
    (∀ n, Grammar.twoWords.Reachable n → Grammar.twoWords.Productive n) ∧
    Grammar.twoWords.ViablePrefix [.nonterminal ⟨2⟩, .terminal ⟨2⟩] ∧
    ∃ before rule w, Grammar.twoWords.EndsInHandle before ⟨3⟩ rule w ∧
      w.headD Terminal.endOfInput = ⟨2⟩ ∧
      before ++ rule.right = [.terminal ⟨2⟩, .terminal ⟨3⟩] := by
  obtain ⟨a, ha, hP⟩ := exists_ok_of_any (e := generate ⟨.canonical, 64⟩ .twoWords)
    (P := fun a => (a.walk? [.nonterminal ⟨2⟩, .terminal ⟨2⟩]).isSome ∧
      a.walk? [.terminal ⟨2⟩, .terminal ⟨3⟩] = some ⟨2⟩ ∧
      (a.node? ⟨2⟩).map (fun n => n.toState.reductions .twoWords) =
        some (.ok [(⟨2⟩, [⟨3⟩]), (⟨3⟩, [⟨3⟩])])) (by decide +kernel)
  obtain ⟨hsome, hwalk, hred⟩ := of_decide_eq_true hP
  have hp := @Grammar.productive_of_reachable_twoWords
  obtain ⟨hviable, hreduce⟩ := viable_of_generate Grammar.defined_twoWords (fun n => hp) ha
  obtain ⟨s, hs⟩ := Option.isSome_iff_exists.mp hsome
  obtain ⟨n, hn, hrs⟩ := Option.map_eq_some_iff.mp hred
  obtain ⟨rs, hrs', hall⟩ := hreduce ⟨2⟩ n hn
  obtain rfl := Except.ok.inj (hrs'.symm.trans hrs)
  have handle := hall ⟨2⟩ [⟨3⟩] ⟨3⟩ List.mem_cons_self List.mem_cons_self
  exact ⟨a, ha, fun n => hp, hviable _ s hs, handle.2 rfl _ hwalk⟩

end Automaton

end LRAutomata

import LRAutomata.Grammar.Declaration
import LRAutomata.Proofs.IndexedMap

/-!
# What declarations do to a draft

* `Draft.Accepts`: all that a declaration can do to a draft if it is not refused;
* `Draft.Counted`: the numbers given out count up without a gap and every counter is at the next
  one, so that what is declared next comes last;
* `Draft.Sound`: what makes the grammar well-formed in the end, kept by every declaration
  (`Sound.of_accepts`) and so by every run of them (`sound_run`);
* `Counted.grammar_catalog`: the finished grammar, told by what stands in the draft.
-/

namespace LRAutomata

namespace Draft

/-- A declaration that a draft accepts, the number that it gives out and the draft after it. -/
inductive Accepts (d : Draft) : Declaration → Option UInt16 → Draft → Prop where
  | terminal {name : String} : name ∉ d.terminals.values → d.nextTerminal.toNat < maxTerminals →
    Accepts d (.terminal name) (some d.nextTerminal)
      { d with
        nextTerminal := d.nextTerminal + 1
        terminals := d.terminals.insert ⟨d.nextTerminal⟩ name }
  | nonterminal {name : String} : name ∉ d.nonterminals.values →
    d.nextNonterminal.toNat < numberLimit →
    Accepts d (.nonterminal name) (some d.nextNonterminal)
      { d with
        nextNonterminal := d.nextNonterminal + 1
        nonterminals := d.nonterminals.insert ⟨d.nextNonterminal⟩ name }
  | rule {left : Nonterminal} {right : List Symbol} : d.hasNonterminal left = true →
    (∀ X ∈ right, d.admits X = true) → ⟨left, right⟩ ∉ d.productions.values →
    d.nextProduction.toNat < numberLimit →
    Accepts d (.rule left right) (some d.nextProduction)
      { d with
        nextProduction := d.nextProduction + 1
        productions := d.productions.insert ⟨d.nextProduction⟩ ⟨left, right⟩ }
  | start {n : Nonterminal} : d.hasNonterminal n = true →
    Accepts d (.start n) none { d with start := some n }

theorem accepts_of_declare {d d' : Draft} {step : Declaration} {number : Option UInt16}
    (h : d.declare step = .ok (number, d')) : d.Accepts step number d' := by
  cases step with
  | terminal name =>
    simp only [declare, declareTerminal] at h
    split at h <;> [cases h; skip]
    next hname =>
      split at h <;> [cases h; skip]
      next hlt =>
        cases h
        exact .terminal (by simpa using hname) (Nat.lt_of_not_le hlt)
  | nonterminal name =>
    simp only [declare, declareNonterminal] at h
    split at h <;> [cases h; skip]
    next hname =>
      split at h <;> [cases h; skip]
      next hlt =>
        cases h
        exact .nonterminal (by simpa using hname) (Nat.lt_of_not_le hlt)
  | rule left right =>
    simp only [declare, declareRule] at h
    split at h <;> [cases h; skip]
    next hleft =>
      split at h <;> [cases h; skip]
      next hright =>
        split at h <;> [cases h; skip]
        next hnew =>
          split at h <;> [cases h; skip]
          next hlt =>
            cases h
            rw [List.find?_eq_none] at hright
            exact .rule (by simpa using hleft) (fun X hX => by simpa using hright X hX)
              (by simpa using hnew) (Nat.lt_of_not_le hlt)
  | start n =>
    simp only [declare, declareStart] at h
    split at h <;> [skip; cases h]
    next hn =>
      cases h
      exact .start hn

/-! ## The counters -/

/-- The numbers given out count up, those of terminals and nonterminals from 0 and those of rules
from 1, and every counter is at the next one. -/
structure Counted (d : Draft) : Prop where
  terminals : d.terminals.Numbered Terminal.rank 0
  nextTerminal_eq : Terminal.rank ⟨d.nextTerminal⟩ = 0 + d.terminals.size
  nonterminals : d.nonterminals.Numbered Nonterminal.rank 0
  nextNonterminal_eq : Nonterminal.rank ⟨d.nextNonterminal⟩ = 0 + d.nonterminals.size
  productions : d.productions.Numbered ProductionId.rank 1
  nextProduction_eq : ProductionId.rank ⟨d.nextProduction⟩ = 1 + d.productions.size

theorem counted_empty : empty.Counted where
  terminals := ⟨by decide⟩
  nextTerminal_eq := by decide
  nonterminals := ⟨by decide⟩
  nextNonterminal_eq := by decide
  productions := ⟨by decide⟩
  nextProduction_eq := by decide

section

variable {d d' : Draft} {step : Declaration} {number : Option UInt16}

theorem toNat_add_one {i : UInt16} (h : i.toNat < numberLimit) : (i + 1).toNat = i.toNat + 1 := by
  unfold numberLimit at h
  rw [UInt16.toNat_add, UInt16.toNat_one, Nat.mod_eq_of_lt (by omega)]

theorem Counted.of_accepts (h : d.Counted) (ha : d.Accepts step number d') : d'.Counted := by
  cases ha with
  | terminal _ hlt =>
    have hlt : d.nextTerminal.toNat < numberLimit := Nat.lt_trans hlt (by decide)
    refine { h with
      terminals := h.terminals.insert h.nextTerminal_eq _
      nextTerminal_eq := (toNat_add_one hlt).trans ?_ }
    rw [h.terminals.size_insert h.nextTerminal_eq]
    exact congrArg Nat.succ h.nextTerminal_eq
  | nonterminal _ hlt =>
    refine { h with
      nonterminals := h.nonterminals.insert h.nextNonterminal_eq _
      nextNonterminal_eq := (toNat_add_one hlt).trans ?_ }
    rw [h.nonterminals.size_insert h.nextNonterminal_eq]
    exact congrArg Nat.succ h.nextNonterminal_eq
  | rule _ _ _ hlt =>
    refine { h with
      productions := h.productions.insert h.nextProduction_eq _
      nextProduction_eq := (toNat_add_one hlt).trans ?_ }
    rw [h.productions.size_insert h.nextProduction_eq]
    exact congrArg Nat.succ h.nextProduction_eq
  | start _ => exact { h with }

theorem Counted.hasNonterminal_iff (h : d.Counted) {n : Nonterminal} :
    d.hasNonterminal n = true ↔ n ≠ Nonterminal.augmented ∧ n.id.toNat < d.nonterminals.size := by
  simp only [hasNonterminal, Bool.and_eq_true, decide_eq_true_eq,
    h.nonterminals.contains_iff Nonterminal.rank_inj, Nonterminal.rank]

theorem Counted.admits_terminal_iff (h : d.Counted) {t : Terminal} :
    d.admits (.terminal t) = true ↔ t ≠ Terminal.marker ∧ t.id.toNat < d.terminals.size := by
  simp only [admits, Bool.and_eq_true, decide_eq_true_eq,
    h.terminals.contains_iff Terminal.rank_inj, Terminal.rank]

/-! ## What the declarations keep -/

/-- What the declarations keep of a draft. -/
structure Sound (d : Draft) : Prop extends d.Counted where
  terminals_le : d.terminals.size ≤ maxTerminals
  endOfInput_lt : Terminal.endOfInput.id.toNat < d.terminals.size
  nonterminals_pos : 0 < d.nonterminals.size
  nonterminals_le : d.nonterminals.size ≤ numberLimit
  productions_lt : d.productions.size < numberLimit
  left {rule : Production} : rule ∈ d.productions.values → d.hasNonterminal rule.left = true
  right {rule : Production} : rule ∈ d.productions.values → ∀ X ∈ rule.right, d.admits X = true
  start {n : Nonterminal} : d.start = some n → d.hasNonterminal n = true

theorem sound_empty : empty.Sound where
  toCounted := counted_empty
  terminals_le := by decide
  endOfInput_lt := by decide
  nonterminals_pos := by decide
  nonterminals_le := by decide
  productions_lt := by decide
  left h := by simp [empty, IndexedMap.empty, IndexedMap.values] at h
  right h := by simp [empty, IndexedMap.empty, IndexedMap.values] at h
  start h := by simp [empty] at h

theorem hasNonterminal_mono
    (hn : ∀ n, d.nonterminals.contains n = true → d'.nonterminals.contains n = true)
    {n : Nonterminal} (h : d.hasNonterminal n = true) : d'.hasNonterminal n = true := by
  rw [hasNonterminal, Bool.and_eq_true] at h ⊢
  exact ⟨h.1, hn n h.2⟩

theorem admits_mono (ht : ∀ t, d.terminals.contains t = true → d'.terminals.contains t = true)
    (hn : ∀ n, d.nonterminals.contains n = true → d'.nonterminals.contains n = true) {X : Symbol}
    (h : d.admits X = true) : d'.admits X = true := by
  cases X with
  | terminal t =>
    rw [admits, Bool.and_eq_true] at h ⊢
    exact ⟨h.1, ht t h.2⟩
  | nonterminal n => exact hasNonterminal_mono hn (n := n) h

/-- A draft with more symbols and the same rules and start symbol. -/
theorem Sound.of_more (h : d.Sound) (hc : d'.Counted)
    (ht : ∀ t, d.terminals.contains t = true → d'.terminals.contains t = true)
    (hn : ∀ n, d.nonterminals.contains n = true → d'.nonterminals.contains n = true)
    (hr : d'.productions = d.productions) (hs : d'.start = d.start)
    (htl : d.terminals.size ≤ d'.terminals.size ∧ d'.terminals.size ≤ maxTerminals)
    (hnl : d.nonterminals.size ≤ d'.nonterminals.size ∧ d'.nonterminals.size ≤ numberLimit) :
    d'.Sound where
  toCounted := hc
  terminals_le := htl.2
  endOfInput_lt := Nat.lt_of_lt_of_le h.endOfInput_lt htl.1
  nonterminals_pos := Nat.lt_of_lt_of_le h.nonterminals_pos hnl.1
  nonterminals_le := hnl.2
  productions_lt := hr ▸ h.productions_lt
  left hm := hasNonterminal_mono hn (h.left (hr ▸ hm))
  right hm X hX := admits_mono ht hn (h.right (hr ▸ hm) X hX)
  start he := hasNonterminal_mono hn (h.start (hs ▸ he))

/-- Every declaration that is not refused keeps a draft sound. -/
theorem Sound.of_accepts (h : d.Sound) (ha : d.Accepts step number d') : d'.Sound := by
  have hc := h.toCounted.of_accepts ha
  cases ha with
  | terminal _ hlt =>
    have hnext : d.nextTerminal.toNat = 0 + d.terminals.size := h.nextTerminal_eq
    have hsize := h.terminals.size_insert h.nextTerminal_eq
    refine h.of_more hc (fun t ht => IndexedMap.contains_insert_of_contains ht _ _)
      (fun _ => id) rfl rfl ?_ ⟨Nat.le_refl _, h.nonterminals_le⟩
    rw [hsize]
    omega
  | nonterminal _ hlt =>
    have hnext : d.nextNonterminal.toNat = 0 + d.nonterminals.size := h.nextNonterminal_eq
    have hsize := h.nonterminals.size_insert h.nextNonterminal_eq
    refine h.of_more hc (fun _ => id)
      (fun n hn => IndexedMap.contains_insert_of_contains hn _ _) rfl rfl
      ⟨Nat.le_refl _, h.terminals_le⟩ ?_
    rw [hsize]
    omega
  | rule hleft hright _ hlt =>
    have hnext : d.nextProduction.toNat = 1 + d.productions.size := h.nextProduction_eq
    have hsize := h.productions.size_insert h.nextProduction_eq
    have hvalues := h.productions.values_insert h.nextProduction_eq
    refine { h with
      toCounted := hc
      productions_lt := ?_
      left := fun hm => ?_
      right := fun hm X hX => ?_ }
    · rw [hsize]
      omega
    · rw [hvalues, List.mem_append, List.mem_singleton] at hm
      rcases hm with hm | rfl
      · exact h.left hm
      · exact hleft
    · rw [hvalues, List.mem_append, List.mem_singleton] at hm
      rcases hm with hm | rfl
      · exact h.right hm X hX
      · exact hright X hX
  | start hn =>
    exact { h with toCounted := hc, start := fun he => Option.some.inj he ▸ hn }

/-- What accepted declarations keep, a run of declarations keeps that passes over the refused ones.
-/
theorem run_induction {P : Draft → Prop}
    (hP : ∀ {d step number d'}, P d → d.Accepts step number d' → P d') (h : P d)
    (steps : List Declaration) : P (d.run false steps).2 := by
  induction steps generalizing d with
  | nil => exact h
  | cons step steps ih =>
    simp only [run]
    cases hd : d.declare step with
    | ok r => exact ih (hP h (accepts_of_declare hd))
    | error e => exact ih h

theorem sound_run (h : d.Sound) (steps : List Declaration) : (d.run false steps).2.Sound :=
  run_induction (fun h => h.of_accepts) h steps

/-! ## Finished drafts -/

/-- The start symbol is one of the declared ones. -/
theorem Sound.hasNonterminal_start? (h : d.Sound) {n : Nonterminal} (hn : d.start? = some n) :
    d.hasNonterminal n = true := by
  unfold start? at hn
  split at hn
  next he => exact Option.some.inj hn ▸ h.start he
  next =>
    have hne := List.find?_some (p := fun n => decide (n ≠ Nonterminal.augmented)) hn
    rw [hasNonterminal, Bool.and_eq_true]
    exact ⟨hne, IndexedMap.contains_iff.mpr (List.mem_of_find?_eq_some hn)⟩

/-- The first nonterminal declared has number 1. -/
theorem Counted.start?_of_none (h : d.Counted) (hs : d.start = none) {n : Nonterminal}
    (hn : d.start? = some n) : n = ⟨1⟩ := by
  have rank_eq {i : Nat} (hi : i < d.nonterminals.keys.length) :
      (d.nonterminals.keys[i]).rank = i :=
    (h.nonterminals.rank_eq_of_getElem? (List.getElem?_eq_getElem hi)).trans (Nat.zero_add i)
  rw [start?, hs] at hn
  obtain ⟨hne, i, hi, rfl, hbefore⟩ := List.find?_eq_some_iff_getElem.mp hn
  have hne : d.nonterminals.keys[i] ≠ Nonterminal.augmented := of_decide_eq_true hne
  have hzero : i ≠ 0 := fun h0 => hne (Nonterminal.rank_inj ((rank_eq hi).trans h0))
  have hone : i = 1 := by
    by_contra hne'
    -- then the nonterminal with number 1 would have been found before
    have hlt : 1 < i := by omega
    have hfirst : d.nonterminals.keys[1] = Nonterminal.augmented := by simpa using hbefore 1 hlt
    have hrank := rank_eq (Nat.lt_trans hlt hi)
    rw [hfirst] at hrank
    cases hrank
  exact Nonterminal.rank_inj ((rank_eq hi).trans hone)

theorem finish_eq_ok {c : Catalog} (h : d.finish = .ok c) :
    ∃ n, d.start? = some n ∧ c = d.catalog n := by
  unfold finish at h
  split at h <;> [skip; cases h]
  next n hn => exact ⟨n, hn, (Except.ok.inj h).symm⟩

/-- The grammar that a draft makes with start symbol `n`. -/
def completed (d : Draft) (n : Nonterminal) : Grammar where
  terminals := d.terminals.values.toArray
  nonterminals := d.nonterminals.values.toArray
  productions :=
    (⟨Nonterminal.augmented, [.nonterminal n, .terminal Terminal.endOfInput]⟩ ::
      d.productions.values).toArray
  start := n

/-- Sorting brings the augmented start production to the front and moves nothing else. -/
theorem Counted.entries_catalog (h : d.Counted) (n : Nonterminal) :
    (d.catalog n).productions.entries = (ProductionId.accept,
      ⟨Nonterminal.augmented, [.nonterminal n, .terminal Terminal.endOfInput]⟩) ::
        d.productions.entries := by
  have hfirst {p : ProductionId} (hp : p ∈ d.productions.keys) : 0 < p.rank :=
    (h.productions.rank_mem hp).1
  have hnew : ProductionId.accept ∉ d.productions.keys := fun hp => Nat.lt_irrefl 0 (hfirst hp)
  refine IndexedMap.entries_sortKeys ProductionId.rank_inj ?_ ?_
  · rw [IndexedMap.entries_insert_of_not_mem hnew]
    exact List.perm_append_singleton _ _
  · exact List.pairwise_cons.mpr
      ⟨fun e he => hfirst (List.mem_map_of_mem he), h.productions.ascending⟩

theorem Counted.grammar_catalog (h : d.Counted) (n : Nonterminal) :
    (d.catalog n).grammar = d.completed n := by
  have hvalues : (d.catalog n).productions.values =
      ⟨Nonterminal.augmented, [.nonterminal n, .terminal Terminal.endOfInput]⟩ ::
        d.productions.values := by
    rw [IndexedMap.values, h.entries_catalog]
    rfl
  rw [Catalog.grammar, completed, hvalues]
  rfl

end

end Draft

end LRAutomata

import LRAutomata.Proofs.Fault
import LRAutomata.Proofs.Grammar.Lookups
import LRAutomata.Proofs.Repetition

/-!
# Finding First sets and asking for them

The First sets of a grammar are found without a fault: the loops that find them end, every terminal
fits into a terminal set, and both sides of every inclusion are known. Asked for a sequence of
declared symbols, they say with which terminals what derives from it can begin, and whether it can
vanish.

* `FirstSets.Finds`: finding First sets with look-ups and insertions that can fail, for as long as
  anything changes;
* `WellFormed.finds_iff`: the First sets of the grammar are all that this comes to;
* `Grammar.firstSets_exact`: they are found, and exact;
* `Grammar.nullables_exact`: the nullable nonterminals are found, too, each of them once.
-/

namespace LRAutomata

namespace FirstSets

variable {g : Grammar} {f : FirstSets} {i : Inclusion}

/-- The First sets to start with; every terminal must fit into a set. -/
def start (g : Grammar) (nullables : List Nonterminal) : Except Fault FirstSets := do
  let terminals ← g.terminalIds.mapM fun t => ((∅ : TerminalSet).insert t).map Update.value
  return ⟨nullables, terminals.toArray, Array.replicate g.nonterminals.size ∅⟩

/-- Enlarges First of the whole by First of the part, both of which must be known. -/
def enlargeKnown (i : Inclusion) (f : FirstSets) : Except Fault (Update FirstSets) := do
  let part ← f.lookup i.part
  let whole ← f.lookup (.nonterminal i.whole)
  let u := whole.merge part
  return if u.changed then
    ⟨{ f with nonterminals := f.nonterminals.setIfInBounds i.whole.id.toNat u.value }, true⟩
  else ⟨f, false⟩

/-- What finding the First sets of a grammar comes to. -/
inductive Finds (g : Grammar) : Except Fault FirstSets → Prop where
  | fails {nullables : List Nonterminal} {e : Fault} :
    Settles (Update.pass Grammar.admitNullable g.productions.toList) g.plainlyNullable nullables →
    start g nullables = .error e → Finds g (.error e)
  | loop {nullables : List Nonterminal} {f : FirstSets} {r : Except Fault FirstSets} :
    Settles (Update.pass Grammar.admitNullable g.productions.toList) g.plainlyNullable nullables →
    start g nullables = .ok f →
    TrySettles (Update.tryPass enlargeKnown (g.inclusions nullables)) f r → Finds g r

theorem start_eq_ok (hg : g.WellFormed) : start g g.nullables = .ok (initial g) := by
  have insert {t : Terminal} (ht : t ∈ g.terminalIds) :
      ((∅ : TerminalSet).insert t).map Update.value = .ok (TerminalSet.single t) := by
    rw [TerminalSet.insert, if_pos (hg.lt_capacity_of_mem ht), TerminalSet.empty_union]
    rfl
  refine bind_eq_ok.mpr ⟨g.terminalIds.map TerminalSet.single, mapM_eq_ok.mpr ?_, rfl⟩
  rw [List.map_map]
  exact List.map_congr_left fun t ht => insert ht

/-- Both sides of an inclusion are known. -/
theorem For.enlargeKnown_eq_ok (hg : g.WellFormed) (hf : For g f)
    (hi : i ∈ g.inclusions g.nullables) : enlargeKnown i f = .ok (FirstSets.enlarge i f) := by
  obtain ⟨hwhole, hpart⟩ := hg.declares_inclusion hi
  rw [enlargeKnown, hf.lookup hpart, hf.lookup hwhole]
  rfl

end FirstSets

namespace Grammar

open FirstSets (Finds)

variable {g : Grammar}

/-- The First sets of the grammar are found, and nothing else comes of it. -/
theorem WellFormed.finds_iff (hg : g.WellFormed) {r : Except Fault FirstSets} :
    Finds g r ↔ r = .ok g.firstSets := by
  have hstart := FirstSets.start_eq_ok hg
  have keeps : ∀ f, FirstSets.For g f →
      FirstSets.For g (Update.pass FirstSets.enlarge (g.inclusions g.nullables) f).value :=
    fun f => (Progress.pass hg.progress_inclusions).keeps
  have pass : ∀ f, FirstSets.For g f →
      Update.tryPass FirstSets.enlargeKnown (g.inclusions g.nullables) f =
        .ok (Update.pass FirstSets.enlarge (g.inclusions g.nullables) f) := fun f =>
    Update.tryPass_eq_ok (fun i hi f hf => hf.enlargeKnown_eq_ok hg hi) fun i _ f hf => hf.enlarge i
  have loop := TrySettles.of_settles pass keeps hg.settles_firstSets (FirstSets.for_initial g)
  constructor
  · intro h
    cases h with
    | fails hn he =>
      obtain rfl := (settles_nullables g).unique hn
      rw [hstart] at he
      cases he
    | loop hn hs hl =>
      obtain rfl := (settles_nullables g).unique hn
      obtain rfl := Except.ok.inj (hstart.symm.trans hs)
      exact hl.unique loop
  · rintro rfl
    exact .loop (settles_nullables g) hstart loop

/-- First sets are found without a fault. For a sequence of declared symbols they hold just the
terminals with which something that derives from it begins, and say whether the empty sequence
derives from it; for a symbol they hold the same as for the sequence of it alone. -/
theorem firstSets_exact (hg : g.Defined) :
    (∀ r, Finds g r ↔ r = .ok g.firstSets) ∧
    (∀ Xs, (∀ X ∈ Xs, g.declares X = true) → ∃ first nullable,
      g.firstSets.lookupSequence Xs = .ok (first, nullable) ∧
      (∀ t, t ∈ first ↔ ∃ Ys, g.Derives Xs (.terminal t :: Ys)) ∧
      (nullable = true ↔ g.Derives Xs [])) ∧
    ∀ X, g.declares X = true → ∃ first nullable, g.firstSets.lookup X = .ok first ∧
      g.firstSets.lookupSequence [X] = .ok (first, nullable) := by
  have hg := hg.wellFormed
  refine ⟨fun r => hg.finds_iff, fun Xs hXs => ?_, fun X hX => ?_⟩
  · exact ⟨_, _, hg.for_firstSets.lookupSequence hXs, fun t => hg.mem_ofSequence_iff hXs,
      hg.allNullable_iff⟩
  · have single : g.firstSets.ofSequence [X] = g.firstSets.of X := TerminalSet.ext fun t => by
      have last := FirstSets.not_mem_ofSequence_nil (f := g.firstSets) t
      rw [FirstSets.mem_ofSequence_cons, or_iff_left fun h => last h.2]
    have sequence := hg.for_firstSets.lookupSequence (List.forall_mem_singleton.mpr hX)
    exact ⟨_, _, hg.for_firstSets.lookup hX, single ▸ sequence⟩

theorem firstSets_exact_hollow :
    (∃ Ys, hollow.Derives [.nonterminal ⟨2⟩, .nonterminal ⟨1⟩] (.terminal ⟨3⟩ :: Ys)) ∧
      hollow.Derives [.nonterminal ⟨2⟩, .nonterminal ⟨1⟩] [] := by
  obtain ⟨-, sequence, -⟩ := firstSets_exact defined_hollow
  obtain ⟨first, nullable, h, hfirst, hnullable⟩ :=
    sequence [.nonterminal ⟨2⟩, .nonterminal ⟨1⟩] (by decide)
  obtain ⟨found, hf, hr⟩ := exists_ok_of_any
    (e := hollow.firstSets.lookupSequence [.nonterminal ⟨2⟩, .nonterminal ⟨1⟩])
    (P := fun r => r.1.contains ⟨3⟩ && r.2) (by decide +kernel)
  obtain rfl := Except.ok.inj (h.symm.trans hf)
  obtain ⟨hmem, hvanish⟩ := Bool.and_eq_true_iff.mp hr
  exact ⟨(hfirst ⟨3⟩).mp hmem, hnullable.mp hvanish⟩

/-- What is admitted was not there before. -/
theorem nodup_admitNullable (rule : Production) {ns : List Nonterminal} (h : ns.Nodup) :
    (admitNullable rule ns).value.Nodup := by
  unfold admitNullable
  split
  next => exact h
  next hn =>
    split
    next =>
      refine List.nodup_append.mpr ⟨h, List.pairwise_singleton _ _, fun m hm n hn' he => hn ?_⟩
      rw [List.contains_iff_mem, ← List.mem_singleton.mp hn', ← he]
      exact hm
    next => exact h

/-- So neither a pass nor all the passes find a nonterminal twice. -/
theorem nodup_nullables (g : Grammar) : g.nullables.Nodup := by
  have pass (ns : List Nonterminal) (h : ns.Nodup) :
      (Update.pass admitNullable g.productions.toList ns).value.Nodup :=
    Update.pass_induction (P := List.Nodup) (fun rule _ _ => nodup_admitNullable rule) h
  exact settle_induction (P := List.Nodup) pass _ (nodup_eraseDups _)

/-- What can vanish has a production, so it is declared. -/
theorem WellFormed.declares_of_vanishes (hg : g.WellFormed) {n : Nonterminal}
    (h : g.Vanishes [.nonterminal n]) : g.declares (.nonterminal n) = true := by
  rcases Relation.ReflTransGen.cases_head h with he | ⟨Ys, hs, -⟩
  · cases he
  · generalize hX : [Symbol.nonterminal n] = Xs at hs
    obtain @⟨p, rule, hp, before, after⟩ := hs
    have hm : Symbol.nonterminal rule.left ∈ [Symbol.nonterminal n] := by
      rw [hX]
      exact List.mem_append_right _ List.mem_cons_self
    rw [← List.mem_singleton.mp hm]
    exact hg.left_declared hp

/-- The loop that looks for nullable nonterminals ends, with a list in which every declared
nonterminal that derives the empty string occurs once, and no other one. To ask for one of them is
to ask whether it derives the empty string. -/
theorem nullables_exact (hg : g.Defined) :
    (∀ ns, Settles (Update.pass admitNullable g.productions.toList) g.plainlyNullable ns ↔
      ns = g.firstSets.nullables) ∧
    g.firstSets.nullables.Nodup ∧
    (∀ n, n ∈ g.firstSets.nullables ↔
      g.declares (.nonterminal n) = true ∧ g.Derives [.nonterminal n] []) ∧
    ∀ n, g.firstSets.isNullable n = true ↔ g.Derives [.nonterminal n] [] := by
  have hg := hg.wellFormed
  have mem_iff (n : Nonterminal) : n ∈ g.nullables ↔ g.Vanishes [.nonterminal n] :=
    isNullable_nonterminal.symm.trans hg.isNullable_iff
  rw [hg.for_firstSets.nullables_eq]
  refine ⟨fun ns => ⟨fun h => h.unique (settles_nullables g), ?_⟩, nodup_nullables g, ?_, ?_⟩
  · rintro rfl
    exact settles_nullables g
  · intro n
    rw [mem_iff]
    exact ⟨fun h => ⟨hg.declares_of_vanishes h, h⟩, And.right⟩
  · intro n
    rw [FirstSets.isNullable, hg.for_firstSets.nullables_eq, List.contains_iff_mem]
    exact mem_iff n

/-- `A` and `B` are left sides of empty productions, `S` comes after them; the augmented start
symbol derives the end of input at least. -/
theorem nullables_exact_hollow : hollow.firstSets.nullables = [⟨2⟩, ⟨3⟩, ⟨1⟩] ∧
    hollow.Derives [.nonterminal ⟨1⟩] [] ∧
    ¬ hollow.Derives [.nonterminal Nonterminal.augmented] [] := by
  have found : hollow.firstSets.nullables = [⟨2⟩, ⟨3⟩, ⟨1⟩] := by decide +kernel
  obtain ⟨-, -, listed, -⟩ := nullables_exact defined_hollow
  rw [found] at listed
  refine ⟨found, ((listed ⟨1⟩).mp (by decide)).2, fun h => ?_⟩
  exact absurd ((listed Nonterminal.augmented).mpr ⟨by decide +kernel, h⟩) (by decide)

end Grammar

end LRAutomata

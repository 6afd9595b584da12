import LRAutomata.Proofs.Automaton.Budget
import LRAutomata.Proofs.Automaton.Filling
import LRAutomata.Proofs.Automaton.Generate
import LRAutomata.Proofs.Grammar.Lookups

/-!
# What generating comes to

Generating ends, and with states enough it returns an automaton unless a production in use has more
symbols than a dot can run through.

* `Grammar.LoopsEnd`: the inner loops go on for as long as they have to;
* `failsOnly_generate`: what generating can fail by;
* `WellFormed.exists_validShape`: a production in use is come to on some path, and a generated
  automaton has run through it (`not_tooLong_of_generate`);
* `generate_of_size_le`: an automaton is generated with every limit that it keeps to, and with no
  other one (`size_le_of_generate`);
* `exists_outcome`: the outcome does not depend on how many states more than enough are allowed, and
  when it is an automaton.
-/

namespace LRAutomata

namespace Grammar

variable {g : Grammar} {n : Nonterminal} {p : ProductionId} {rule : Production}

/-- None of the inner loops of generating gives up: they end when there is nothing left to do. -/
structure LoopsEnd (g : Grammar) : Prop where
  nullables : Settles (Update.pass admitNullable g.productions.toList) g.plainlyNullable g.nullables
  firstSets : Settles (Update.pass FirstSets.enlarge (g.inclusions g.nullables))
    (FirstSets.initial g) g.firstSets
  closing (s : Items) :
    Saturation.Runs g g.firstSets ⟨s, Agenda.ofList s.cores⟩ (s.closed g g.firstSets)
  propagating (links : List Link) (t : LookaheadTable) :
    Settles (Update.pass LookaheadTable.passOn links) t (t.propagate links)

theorem WellFormed.loopsEnd (hg : g.WellFormed) : g.LoopsEnd where
  nullables := settles_nullables g
  firstSets := hg.settles_firstSets
  closing := Items.runs_closed hg g.firstSets
  propagating := LookaheadTable.settles_propagate

/-- A reachable nonterminal comes after a dot on some path. -/
theorem WellFormed.exists_symbolAt? (hg : g.WellFormed) (h : g.Reachable n) :
    ∃ path p d, g.ValidShape path p d ∧ g.symbolAt? p d = some (.nonterminal n) := by
  obtain ⟨Xs, hd, hm⟩ := h
  induction hd generalizing n with
  | refl =>
    obtain rfl : n = g.start := by simpa using hm
    refine ⟨[], ProductionId.accept, 0, .start, ?_⟩
    rw [symbolAt?, hg.accept]
    rfl
  | tail _ hs ih =>
    obtain ⟨hp, before, after⟩ := hs
    simp only [List.mem_append] at hm
    rcases hm with (hm | hm) | hm
    · exact ih (by simp [hm])
    · -- the nonterminal comes with the production of this step, whose left side came before
      obtain ⟨path, q, d, hv, hX⟩ := ih (List.mem_append_right before List.mem_cons_self)
      obtain ⟨front, rest, hr⟩ := List.append_of_mem hm
      exact ⟨_, _, _, (hv.expand hp hX).along hp hr, symbolAt?_of_split hp hr⟩
    · exact ih (by simp [hm])

theorem WellFormed.exists_validShape (hg : g.WellFormed) (hp : g.production? p = some rule)
    (h : g.InUse rule.left) : ∃ path, g.ValidShape path p 0 := by
  rcases h with h | h
  · obtain rfl := hg.eq_accept_of_left hp h
    exact ⟨[], .start⟩
  · obtain ⟨path, q, d, hv, hX⟩ := hg.exists_symbolAt? h
    exact ⟨path, hv.expand hp hX⟩

end Grammar

namespace Automaton

section

variable [WordHash] {g : Grammar} {o : Options} {a : Automaton} {p : ProductionId}

/-- A generated automaton has a dot at the end of every production in use. -/
theorem not_tooLong_of_generate (hg : g.WellFormed) (h : generate o g = .ok a) :
    ¬ g.TooLong p := by
  rintro ⟨rule, hp, hu, hlong⟩
  obtain ⟨path, hv⟩ := hg.exists_validShape hp hu
  have hend := hv.along hp (List.append_nil rule.right).symm
  obtain ⟨s, n, -, -, c, -, -, hd⟩ :=
    (tracks_of_generate hg h).hasShape_of_validShape hg hend
  have hlt := c.dot.toNat_lt
  omega

/-- Generating fails by productions that are too long, or else because fewer states are allowed
than there can be. -/
theorem failsOnly_generate (hg : g.WellFormed) (o : Options) :
    FailsOnly (fun f => g.Overflows f ∨ f = .tooManyStates ∧ o.maxStates < Nat.card Items)
      (generate o g) := by
  obtain ⟨a₀, hstart⟩ := Generator.exists_start hg o
  obtain ⟨e₀, r₀⟩ := Generator.explored_of_start hstart
  have f₀ := Generator.finished_zero a₀
  refine FailsOnly.bind (failsOnly_of_exists _ ⟨a₀, hstart⟩) fun a hs => ?_
  obtain rfl : a₀ = a := Except.ok.inj (hstart.symm.trans hs)
  refine FailsOnly.bind ?_ fun a ha => ?_
  · have explore := e₀.failsOnly_explore hg o.maxStates r₀ f₀
    rwa [Nat.zero_add] at explore
  · obtain ⟨ea, ra, fa⟩ := e₀.explore _ r₀ f₀ ha
    cases hm : o.method with
    | canonical => exact failsOnly_ok _ a
    | lalr =>
      exact failsOnly_of_exists _
        (Generator.exists_assignLookaheads hg (tracks_of_explored hg rfl rfl ea ra fa))

/-- If all the states that there can be are allowed, there are not too many. -/
theorem Explored.explore_ne (hg : g.WellFormed) (ha : (Generator.ofGrammar g o).Explored a)
    (hr : Generator.Reached a) (hf : Generator.Finished a 0) :
    (Generator.ofGrammar g o).explore (Nat.card Items) 0 a ≠ .error .tooManyStates := by
  intro h
  rcases ha.failsOnly_explore hg (Nat.card Items) hr hf _ h with ⟨p, hp, -⟩ | ⟨-, hlt⟩
  · cases hp
  · omega

/-- With states enough, more of them make no difference. -/
theorem generate_eq_of_le (hg : g.WellFormed) (m : Method) {maxStates : Nat}
    (hle : Nat.card Items ≤ maxStates) :
    generate ⟨m, maxStates⟩ g = generate ⟨m, Nat.card Items⟩ g := by
  obtain ⟨a, hstart⟩ := Generator.exists_start hg ⟨m, Nat.card Items⟩
  obtain ⟨ea, ra⟩ := Generator.explored_of_start hstart
  have hstart' : (Generator.ofGrammar g ⟨m, maxStates⟩).start = .ok a := hstart
  have hexplore : (Generator.ofGrammar g ⟨m, maxStates⟩).explore maxStates 0 a =
      (Generator.ofGrammar g ⟨m, Nat.card Items⟩).explore (Nat.card Items) 0 a := by
    rw [Generator.explore_congr g m maxStates (Nat.card Items)]
    exact Generator.explore_eq_of_le hle
      (Explored.explore_ne hg ea ra (Generator.finished_zero a))
  simp only [generate, hstart, hstart', hexplore, bind, Except.bind]
  rfl

/-- An automaton has no more states than are allowed. -/
theorem size_le_of_generate (hg : g.WellFormed) (h : generate o g = .ok a) :
    a.size ≤ o.maxStates := by
  obtain ⟨a₀, a', -, he, hc, hl⟩ := exists_explore_of_generate h
  have hle := Generator.size_le_of_explore he
  rw [Nat.zero_add] at hle
  exact (sameOutline_of_generate hg hc hl).size_eq ▸ hle

/-- An automaton can be generated with any limit that it keeps to. -/
theorem generate_of_size_le (hg : g.WellFormed) {m : Method} {maxStates maxStates' : Nat}
    (h : generate ⟨m, maxStates⟩ g = .ok a) (hle : a.size ≤ maxStates') :
    generate ⟨m, maxStates'⟩ g = .ok a := by
  obtain ⟨a₀, a', hs, he, hc, hl⟩ := exists_explore_of_generate h
  obtain ⟨ea, ra⟩ := Generator.explored_of_start hs
  have hsize : a.size = a'.size := (sameOutline_of_generate hg hc hl).size_eq
  have hexplore : (Generator.ofGrammar g ⟨m, maxStates⟩).explore maxStates' 0 a₀ = .ok a' :=
    ea.explore_of_size_le ra (Generator.finished_zero a₀) he (by omega)
  rw [Generator.explore_congr g m maxStates maxStates'] at hexplore
  have hs' : (Generator.ofGrammar g ⟨m, maxStates'⟩).start = .ok a₀ := hs
  refine bind_eq_ok.mpr ⟨a₀, hs', bind_eq_ok.mpr ⟨a', hexplore, ?_⟩⟩
  cases m with
  | canonical => exact congrArg Except.ok (hc rfl)
  | lalr => exact hl rfl

end

/-- Generating ends: no inner loop gives up, no look-up fails, and with states enough the outcome
is always the same. It is an automaton just if every production in use has at most as many symbols
as a dot has places to move to; a fault is otherwise that of such a production, unless there are too
few states. -/
theorem exists_outcome [WordHash] {g : Grammar} (hg : g.Defined) (m : Method) :
    g.LoopsEnd ∧ g.LookupsSucceed ∧ ∃ (r : Except Fault Automaton) (enough : Nat),
      (∀ maxStates, enough ≤ maxStates → generate ⟨m, maxStates⟩ g = r) ∧
      (∀ maxStates f, generate ⟨m, maxStates⟩ g = .error f →
        g.Overflows f ∨ f = .tooManyStates ∧ maxStates < enough) ∧
      ((∃ a, r = .ok a) ↔ ∀ p rule, g.production? p = some rule → g.InUse rule.left →
        rule.right.length ≤ 65535) := by
  have hg := hg.wellFormed
  refine ⟨hg.loopsEnd, hg.lookupsSucceed, generate ⟨m, Nat.card Items⟩ g, Nat.card Items,
    fun maxStates hle => generate_eq_of_le hg m hle,
    fun maxStates => failsOnly_generate hg ⟨m, maxStates⟩, fun h p rule hp hu => ?_, fun h => ?_⟩
  · obtain ⟨a, ha⟩ := h
    have short : ¬ g.TooLong p := not_tooLong_of_generate hg ha
    by_contra hlong
    exact short ⟨rule, hp, hu, by omega⟩
  · cases hr : generate ⟨m, Nat.card Items⟩ g with
    | ok a => exact ⟨a, rfl⟩
    | error f =>
      rcases failsOnly_generate hg ⟨m, Nat.card Items⟩ f hr with ⟨p, -, hlong⟩ | ⟨-, hlt⟩
      · obtain ⟨rule, hp, hu, hlong⟩ := hlong
        have hle := h p rule hp hu
        omega
      · exact absurd hlt (Nat.lt_irrefl _)

theorem exists_outcome_twoWords : ∃ a enough, ∀ maxStates, enough ≤ maxStates →
    generate ⟨.lalr, maxStates⟩ .twoWords = .ok a := by
  obtain ⟨-, -, r, enough, hr, -, hok⟩ := exists_outcome Grammar.defined_twoWords .lalr
  have short : ∀ rule ∈ Grammar.twoWords.productions.toList, rule.right.length ≤ 65535 := by
    decide +kernel
  obtain ⟨a, rfl⟩ := hok.mpr fun p rule hp _ =>
    short rule (Grammar.defined_twoWords.wellFormed.mem_productions_iff.mpr ⟨p, hp⟩)
  exact ⟨a, enough, hr⟩

end Automaton

end LRAutomata

import LRAutomata.Proofs.Grammar.Catalog
import LRAutomata.Proofs.Grammar.Declaration

/-!
# Declared grammars are in order

* `Grammar.Orderly`: what is true of the numbers, names and productions of a declared grammar;
* `Grammar.Records`: how they come out of the declarations;
* `Grammar.orderly_of_defineAccepted`: every list of declarations leads to such a grammar, and to a
  catalog that says the same, if it leads to one at all.
-/

namespace LRAutomata

namespace Grammar

variable {g : Grammar}

theorem mem_map_ofNat_range {names : Array String} (hn : names.size ≤ 65536) {i : UInt16} :
    i ∈ (List.range names.size).map UInt16.ofNat ↔ ∃ name, names[i.toNat]? = some name := by
  rw [List.mem_map]
  constructor
  · rintro ⟨j, hj, rfl⟩
    have hj : j < names.size := List.mem_range.mp hj
    rw [UInt16.toNat_ofNat', Nat.mod_eq_of_lt (by omega)]
    exact ⟨_, Array.getElem?_eq_getElem hj⟩
  · rintro ⟨name, h⟩
    obtain ⟨hi, -⟩ := Array.getElem?_eq_some_iff.mp h
    exact ⟨i.toNat, List.mem_range.mpr hi, UInt16.ofNat_toNat⟩

/-- Among different names, the first place of a name is its only one. -/
theorem findIdx?_eq_some_iff_of_nodup {names : Array String} (hd : names.toList.Nodup)
    (hn : names.size ≤ 65536) {name : String} {i : UInt16} :
    (names.toList.findIdx? (· == name)).map UInt16.ofNat = some i ↔
      names[i.toNat]? = some name := by
  have hlt := i.toNat_lt
  rw [Option.map_eq_some_iff, ← Array.getElem?_toList]
  constructor
  · rintro ⟨j, hj, rfl⟩
    obtain ⟨hlen, he, -⟩ := List.findIdx?_eq_some_iff_getElem.mp hj
    have hlen' : j < names.size := hlen
    rw [UInt16.toNat_ofNat', Nat.mod_eq_of_lt (by omega), List.getElem?_eq_getElem hlen,
      eq_of_beq he]
  · intro h
    obtain ⟨hlen, he⟩ := List.getElem?_eq_some_iff.mp h
    refine ⟨i.toNat, List.findIdx?_eq_some_iff_getElem.mpr ⟨hlen, beq_iff_eq.mpr he, ?_⟩,
      UInt16.ofNat_toNat⟩
    intro j hj hname
    have hne := hd.getElem_inj_iff.mp ((eq_of_beq hname).trans he.symm)
    omega

/-- What the declarations guarantee of numbers and names, besides well-formedness. -/
structure Orderly (g : Grammar) : Prop extends g.WellFormed where
  /-- The numbers of terminals are those from 0 on, without a gap; so are the others. -/
  terminalIds_eq : g.terminalIds.map Terminal.rank = List.range g.terminals.size
  mem_terminalIds_iff (t : Terminal) : t ∈ g.terminalIds ↔ ∃ name, g.terminalName? t = some name
  nonterminalIds_eq : g.nonterminalIds.map Nonterminal.rank = List.range g.nonterminals.size
  mem_nonterminalIds_iff (n : Nonterminal) :
    n ∈ g.nonterminalIds ↔ ∃ name, g.nonterminalName? n = some name
  productionIds_eq :
    g.numberedProductions.map (fun p => p.1.rank) = List.range g.productions.size
  mem_numberedProductions_iff (p : ProductionId) (rule : Production) :
    (p, rule) ∈ g.numberedProductions ↔ g.production? p = some rule
  /-- Names are looked up by numbers and numbers by names, the one undoing the other. -/
  terminalNamed?_iff (name : String) (t : Terminal) :
    g.terminalNamed? name = some t ↔ g.terminalName? t = some name
  nonterminalNamed?_iff (name : String) (n : Nonterminal) :
    g.nonterminalNamed? name = some n ↔ g.nonterminalName? n = some name
  endOfInput_name : g.terminalName? Terminal.endOfInput = some "$eoi"
  marker_name : g.terminalName? Terminal.marker = some "#"
  augmented_name : g.nonterminalName? Nonterminal.augmented = some "$start"
  /-- No two productions have the same sides. -/
  production?_inj {p q : ProductionId} {rule : Production} : g.production? p = some rule →
    g.production? q = some rule → p = q
  /-- The alternatives of a nonterminal are the productions with that left side, in ascending
  order. -/
  mem_alternatives_iff (n : Nonterminal) (p : ProductionId) :
    p ∈ g.alternatives n ↔ ∃ right, g.production? p = some ⟨n, right⟩
  alternatives_ascending (n : Nonterminal) :
    (g.alternatives n).Pairwise fun p q => p.rank < q.rank

/-- How a grammar comes out of its declarations. -/
structure Records (g : Grammar) (steps : List Declaration) : Prop where
  /-- After the reserved ones, names stand in the order in which they were accepted; so do rules. -/
  terminals_eq : g.terminals.toList =
    ["$eoi", "#"] ++ (Draft.empty.accepted steps).filterMap Declaration.terminal?
  nonterminals_eq : g.nonterminals.toList =
    "$start" :: (Draft.empty.accepted steps).filterMap Declaration.nonterminal?
  productions_eq : g.productions.toList =
    ⟨Nonterminal.augmented, [.nonterminal g.start, .terminal Terminal.endOfInput]⟩ ::
      (Draft.empty.accepted steps).filterMap Declaration.rule?
  /-- The start symbol is the last one accepted, or else the first nonterminal. -/
  start_eq : g.start = ((Draft.empty.accepted steps).filterMap Declaration.start?).getLastD ⟨1⟩
  /-- The numbers given out are those of the grammar. -/
  files {step : Declaration} {number : Option UInt16} :
    (step, .ok number) ∈ steps.zip (Draft.empty.run false steps).1 → g.Files step number
  /-- Without the refused declarations, the same numbers are given out and the same grammar is
  defined. -/
  replay (strict : Bool) : Draft.empty.run strict (Draft.empty.accepted steps) =
    ((Draft.empty.run false steps).1.filter Except.isOk, (Draft.empty.run false steps).2)
  define_eq : define (Draft.empty.accepted steps) = .ok g

section

variable {steps : List Declaration}

theorem records_of_defineAccepted (h : defineAccepted steps = .ok g) : g.Records steps := by
  have hc := Draft.counted_empty
  have he := Draft.extends_run hc steps
  obtain ⟨n, hn, hg⟩ := eq_completed_of_defineAccepted h
  refine ⟨?_, ?_, ?_, ?_, fun hm => ?_,
    fun strict => Draft.run_accepted strict Draft.empty steps, ?_⟩
  · rw [hg]
    exact he.terminals
  · rw [hg]
    exact he.nonterminals
  · rw [hg, Draft.completed, List.toList_toArray, he.productions]
    rfl
  · have hstart : (Draft.empty.run false steps).2.start =
        ((Draft.empty.accepted steps).filterMap Declaration.start?).getLast? :=
      he.start.trans Option.or_none
    rw [List.getLastD_eq_getLast?, ← hstart, hg]
    cases hs : (Draft.empty.run false steps).2.start with
    | some m =>
      rw [Draft.start?, hs] at hn
      exact (Option.some.inj hn).symm
    | none => exact (Draft.sound_run Draft.sound_empty steps).start?_of_none hs hn
  · rw [hg]
    exact Draft.files_run hc n hm
  · rw [define, Draft.foldlM_accepted]
    exact h

theorem terminalIds_eq_map (g : Grammar) :
    g.terminalIds = ((List.range g.terminals.size).map UInt16.ofNat).map Terminal.mk := by
  rw [List.map_map]
  rfl

theorem nonterminalIds_eq_map (g : Grammar) :
    g.nonterminalIds = ((List.range g.nonterminals.size).map UInt16.ofNat).map Nonterminal.mk := by
  rw [List.map_map]
  rfl

theorem terminalNamed?_eq_map (g : Grammar) (name : String) : g.terminalNamed? name =
    ((g.terminals.toList.findIdx? (· == name)).map UInt16.ofNat).map Terminal.mk := by
  rw [Option.map_map]
  rfl

theorem nonterminalNamed?_eq_map (g : Grammar) (name : String) : g.nonterminalNamed? name =
    ((g.nonterminals.toList.findIdx? (· == name)).map UInt16.ofNat).map Nonterminal.mk := by
  rw [Option.map_map]
  rfl

theorem WellFormed.alternatives_ascending (hg : g.WellFormed) (n : Nonterminal) :
    (g.alternatives n).Pairwise fun p q => p.rank < q.rank := by
  have hasc : g.numberedProductions.Pairwise fun p q => p.1.rank < q.1.rank :=
    List.pairwise_map.mp (hg.productionIds_eq ▸ List.pairwise_lt_range)
  exact List.pairwise_map.mpr (hasc.filter _)

theorem Records.orderly (hr : g.Records steps) (hd : g.Defined) : g.Orderly := by
  have hg := hd.wellFormed
  obtain ⟨d, start, -, hdist, hdraft⟩ := hd.exists_draft
  have hterminals : g.terminals.size ≤ 65536 := Nat.le_trans hg.terminals_le (by decide)
  have hnonterminals : g.nonterminals.size ≤ 65536 := Nat.le_trans hg.nonterminals_le (by decide)
  refine ⟨hg, ?_, fun ⟨i⟩ => ?_, ?_, fun ⟨i⟩ => ?_, hg.productionIds_eq,
    fun p rule => hg.mem_numberedProductions_iff, fun name ⟨i⟩ => ?_, fun name ⟨i⟩ => ?_, ?_, ?_,
    ?_, hd.production?_inj, fun n p => ?_, hg.alternatives_ascending⟩
  · rw [terminalIds, List.map_map]
    exact map_ofNat_range hterminals
  · rw [terminalIds_eq_map, List.mem_map_of_injective fun _ _ => Terminal.mk.inj]
    exact mem_map_ofNat_range hterminals
  · rw [nonterminalIds, List.map_map]
    exact map_ofNat_range hnonterminals
  · rw [nonterminalIds_eq_map, List.mem_map_of_injective fun _ _ => Nonterminal.mk.inj]
    exact mem_map_ofNat_range hnonterminals
  · rw [terminalNamed?_eq_map, Option.map_eq_some_iff]
    simp only [Terminal.mk.injEq, exists_eq_right]
    exact findIdx?_eq_some_iff_of_nodup (hdraft ▸ hdist.terminals) hterminals
  · rw [nonterminalNamed?_eq_map, Option.map_eq_some_iff]
    simp only [Nonterminal.mk.injEq, exists_eq_right]
    exact findIdx?_eq_some_iff_of_nodup (hdraft ▸ hdist.nonterminals) hnonterminals
  · rw [terminalName?, ← Array.getElem?_toList, hr.terminals_eq]
    rfl
  · rw [terminalName?, ← Array.getElem?_toList, hr.terminals_eq]
    rfl
  · rw [nonterminalName?, ← Array.getElem?_toList, hr.nonterminals_eq]
    rfl
  · rw [hg.mem_alternatives_iff]
    constructor
    · rintro ⟨rule, hp, rfl⟩
      exact ⟨rule.right, hp⟩
    · rintro ⟨right, hp⟩
      exact ⟨_, hp, rfl⟩

/-- Whatever was declared, and whatever of it was refused: a grammar that comes out is in order, the
accepted declarations alone would have led to it, and the numbers under which the declarations have
left names, productions and left sides are the places in the grammar. -/
theorem orderly_of_defineAccepted (h : defineAccepted steps = .ok g) :
    g.Orderly ∧ g.Records steps ∧
      ∃ c, (Draft.empty.run false steps).2.finish = .ok c ∧ c.Tabulates g :=
  have hr := records_of_defineAccepted h
  ⟨hr.orderly ⟨steps, h⟩, hr, exists_catalog h⟩

end

/-- Declarations some of which are refused: a name or a rule for the second time, reserved symbols
and a symbol that is declared later. -/
def patchy : List Declaration :=
  [.terminal "a", .rule ⟨1⟩ [], .nonterminal "S", .terminal "a", .terminal "#",
    .rule ⟨1⟩ [.terminal ⟨2⟩, .nonterminal ⟨1⟩], .rule ⟨1⟩ [.terminal ⟨1⟩], .rule ⟨1⟩ [],
    .rule ⟨1⟩ [], .start ⟨0⟩, .nonterminal "T", .start ⟨2⟩, .rule ⟨2⟩ [.nonterminal ⟨1⟩]]

/-- The grammar that remains of them. -/
def patched : Grammar where
  terminals := #["$eoi", "#", "a"]
  nonterminals := #["$start", "S", "T"]
  productions := #[
    ⟨⟨0⟩, [.nonterminal ⟨2⟩, .terminal ⟨0⟩]⟩,
    ⟨⟨1⟩, [.terminal ⟨2⟩, .nonterminal ⟨1⟩]⟩,
    ⟨⟨1⟩, []⟩,
    ⟨⟨2⟩, [.nonterminal ⟨1⟩]⟩]
  start := ⟨2⟩

theorem orderly_patched : defineAccepted patchy = .ok patched ∧
    patched.Orderly ∧ patched.Records patchy ∧
      ∃ c, (Draft.empty.run false patchy).2.finish = .ok c ∧ c.Tabulates patched :=
  have h : defineAccepted patchy = .ok patched := by decide +kernel
  ⟨h, orderly_of_defineAccepted h⟩

end Grammar

end LRAutomata

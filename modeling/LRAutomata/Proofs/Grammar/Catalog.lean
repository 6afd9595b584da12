import LRAutomata.Proofs.Grammar.WellFormed

/-!
# Catalogs and their grammars

A catalog has its names and productions under numbers that were given out one by one; a grammar has
them at places. `Catalog.Tabulates` says that the two are the same: the keys count up from 0, the
entries stand in the order of the grammar, and every look-up in the catalog comes to the look-up of
the same name in the grammar.

* `getD_groupByLeft`: the productions gathered for a left side are those with it;
* `entries_terminals`, `entries_nonterminals`, `entries_productions`: the entries in their order;
* `tabulates_grammar`: a catalog whose keys count up tabulates its grammar;
* `Draft.Sound.tabulates_catalog`: so does what comes out of the declarations.
-/

namespace LRAutomata

namespace Grammar

variable {g : Grammar}

theorem map_ofNat_range {n : Nat} (hn : n ≤ 65536) :
    (List.range n).map (fun i => (UInt16.ofNat i).toNat) = List.range n := by
  refine (List.map_congr_left fun i hi => ?_).trans (List.map_id _)
  have hi : i < n := List.mem_range.mp hi
  rw [UInt16.toNat_ofNat', Nat.mod_eq_of_lt (by omega), id]

theorem WellFormed.productionIds_eq (hg : g.WellFormed) :
    g.numberedProductions.map (fun p => p.1.rank) = List.range g.productions.size := by
  have hle := hg.productions_le
  unfold Draft.numberLimit at hle
  refine List.ext_getElem ?_ fun i hi _ => ?_
  · rw [List.length_map, numberedProductions, List.length_mapIdx, Array.length_toList,
      List.length_range]
  · have hi : i < g.productions.size := by simpa [numberedProductions] using hi
    simp only [numberedProductions, List.getElem_map, List.getElem_mapIdx, ProductionId.rank,
      List.getElem_range]
    rw [UInt16.toNat_ofNat', Nat.mod_eq_of_lt (by omega)]

end Grammar

namespace Catalog

/-- A catalog that says the same as a grammar. -/
structure Tabulates (c : Catalog) (g : Grammar) : Prop where
  /-- The numbers given out are those from 0 on, in ascending order and without a gap. -/
  terminals : c.terminals.Numbered Terminal.rank 0
  nonterminals : c.nonterminals.Numbered Nonterminal.rank 0
  productions : c.productions.Numbered ProductionId.rank 0
  terminals_eq : c.terminals.entries = g.terminalIds.zip g.terminals.toList
  nonterminals_eq : c.nonterminals.entries = g.nonterminalIds.zip g.nonterminals.toList
  productions_eq : c.productions.entries = g.numberedProductions
  start_eq : c.start = g.start
  /-- Look-ups by number, by name and by left side. -/
  terminalName?_eq (t : Terminal) : c.terminals.get? t = g.terminalName? t
  nonterminalName?_eq (n : Nonterminal) : c.nonterminals.get? n = g.nonterminalName? n
  production?_eq (p : ProductionId) : c.productions.get? p = g.production? p
  terminalNamed?_eq (name : String) : c.terminalNamed? name = g.terminalNamed? name
  nonterminalNamed?_eq (name : String) : c.nonterminalNamed? name = g.nonterminalNamed? name
  productionsOf_eq (n : Nonterminal) : c.productionsOf n = g.alternatives n

theorem foldl_append_singleton {α : Type} (l : List α) :
    l.foldl (fun xs x => xs ++ [x]) [] = l := by
  induction l using List.reverseRecOn with
  | nil => rfl
  | append_singleton l x ih => rw [List.foldl_concat, ih]

/-- The productions with a left side are gathered in the order in which they stand. -/
theorem getD_groupByLeft (m : IndexedMap ProductionId Production) (n : Nonterminal) :
    ((groupByLeft m).get? n).getD [] = (m.entries.filter fun p => p.2.left = n).map Prod.fst := by
  have hpairs : groupByLeft m = (m.entries.map fun p => (p.2.left, p.1)).foldl
      (fun m q => m.update q.1 [] (· ++ [q.2])) .empty := by
    rw [List.foldl_map, groupByLeft]
  rw [hpairs, IndexedMap.getD_foldl_update [] fun xs x => xs ++ [x], foldl_append_singleton,
    List.filter_map, List.map_map]
  rfl

variable {c : Catalog}

theorem size_terminals_le (hg : c.grammar.WellFormed) : c.terminals.size ≤ 65536 := by
  rw [← IndexedMap.length_values]
  exact Nat.le_trans hg.terminals_le (by decide)

theorem size_nonterminals_le (hg : c.grammar.WellFormed) :
    c.nonterminals.size ≤ 65536 := by
  rw [← IndexedMap.length_values]
  exact Nat.le_trans hg.nonterminals_le (by decide)

theorem entries_terminals (ht : c.terminals.Numbered Terminal.rank 0)
    (hg : c.grammar.WellFormed) :
    c.terminals.entries = c.grammar.terminalIds.zip c.grammar.terminals.toList := by
  have hkeys : c.terminals.keys = c.grammar.terminalIds := by
    refine ht.keys_eq Terminal.rank_inj ?_
    rw [Grammar.terminalIds, List.map_map, grammar, List.size_toArray, IndexedMap.length_values]
    exact Grammar.map_ofNat_range (size_terminals_le hg)
  rw [c.terminals.entries_eq_zip, hkeys]
  rfl

theorem entries_nonterminals (hn : c.nonterminals.Numbered Nonterminal.rank 0)
    (hg : c.grammar.WellFormed) :
    c.nonterminals.entries = c.grammar.nonterminalIds.zip c.grammar.nonterminals.toList := by
  have hkeys : c.nonterminals.keys = c.grammar.nonterminalIds := by
    refine hn.keys_eq Nonterminal.rank_inj ?_
    rw [Grammar.nonterminalIds, List.map_map, grammar, List.size_toArray,
      IndexedMap.length_values]
    exact Grammar.map_ofNat_range (size_nonterminals_le hg)
  rw [c.nonterminals.entries_eq_zip, hkeys]
  rfl

theorem entries_productions (hp : c.productions.Numbered ProductionId.rank 0)
    (hg : c.grammar.WellFormed) : c.productions.entries = c.grammar.numberedProductions := by
  have hkeys : c.productions.keys = c.grammar.numberedProductions.map Prod.fst := by
    refine hp.keys_eq ProductionId.rank_inj ?_
    rw [List.map_map, ← IndexedMap.length_values]
    exact hg.productionIds_eq
  have hvalues : c.productions.values = c.grammar.numberedProductions.map Prod.snd := by
    refine List.ext_getElem? fun i => ?_
    rw [Grammar.numberedProductions, List.getElem?_map, List.getElem?_mapIdx, Option.map_map]
    exact Option.map_id'.symm
  rw [c.productions.entries_eq_zip, hkeys, hvalues, List.zip_map']
  exact List.map_id _

theorem tabulates_grammar (ht : c.terminals.Numbered Terminal.rank 0)
    (hn : c.nonterminals.Numbered Nonterminal.rank 0)
    (hp : c.productions.Numbered ProductionId.rank 0) (hb : c.byLeft = groupByLeft c.productions)
    (hg : c.grammar.WellFormed) : c.Tabulates c.grammar := by
  have hterminals := size_terminals_le hg
  have hnonterminals := size_nonterminals_le hg
  have toNat_ofNat {i k : Nat} (hk : k ≤ 65536) (hi : i < k) : (UInt16.ofNat i).toNat = i := by
    rw [UInt16.toNat_ofNat', Nat.mod_eq_of_lt (by omega)]
  have productions_eq := entries_productions hp hg
  refine ⟨ht, hn, hp, entries_terminals ht hg, entries_nonterminals hn hg, productions_eq, rfl,
    fun t => ?_, fun n => ?_, fun p => ?_, fun name => ?_, fun name => ?_, fun n => ?_⟩
  · rw [ht.get?_eq Terminal.rank_inj, Grammar.terminalName?, grammar, List.getElem?_toArray]
    rfl
  · rw [hn.get?_eq Nonterminal.rank_inj, Grammar.nonterminalName?, grammar,
      List.getElem?_toArray]
    rfl
  · rw [hp.get?_eq ProductionId.rank_inj, Grammar.production?, grammar, List.getElem?_toArray]
    rfl
  · exact ht.map_fst_find? Terminal.rank_inj (fun i hi => toNat_ofNat hterminals hi) name
  · exact hn.map_fst_find? Nonterminal.rank_inj (fun i hi => toNat_ofNat hnonterminals hi) name
  · rw [productionsOf, hb, getD_groupByLeft, productions_eq, Grammar.alternatives]

end Catalog

namespace Draft

variable {d : Draft} {n : Nonterminal}

/-- With the augmented start production in front, the numbers of productions count up from 0. -/
theorem Counted.numbered_catalog (h : d.Counted) (n : Nonterminal) :
    (d.catalog n).productions.Numbered ProductionId.rank 0 where
  map_rank_keys := by
    rw [IndexedMap.keys, IndexedMap.size, h.entries_catalog, List.map_cons, List.map_cons,
      List.length_cons, List.range'_succ]
    exact congrArg (List.cons 0) h.productions.map_rank_keys

theorem Sound.tabulates_catalog (h : d.Sound) (hn : d.hasNonterminal n = true) :
    (d.catalog n).Tabulates (d.completed n) := by
  rw [← h.grammar_catalog n]
  refine Catalog.tabulates_grammar h.terminals h.nonterminals (h.numbered_catalog n) rfl ?_
  rw [h.grammar_catalog n]
  exact h.wellFormed_completed hn

end Draft

/-- The catalog that declarations lead to tabulates the grammar that they define. -/
theorem Grammar.exists_catalog {g : Grammar} {steps : List Declaration}
    (h : defineAccepted steps = .ok g) :
    ∃ c, (Draft.empty.run false steps).2.finish = .ok c ∧ c.Tabulates g := by
  have hd := Draft.sound_run Draft.sound_empty steps
  obtain ⟨c, hc, hg⟩ := bind_eq_ok.mp h
  obtain ⟨n, hn, rfl⟩ := Draft.finish_eq_ok hc
  refine ⟨_, hc, ?_⟩
  rw [← Except.ok.inj hg, hd.grammar_catalog n]
  exact hd.tabulates_catalog (hd.hasNonterminal_start? hn)

end LRAutomata

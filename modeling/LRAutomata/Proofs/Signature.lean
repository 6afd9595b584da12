import LRAutomata.Proofs.Item.Items
import LRAutomata.Proofs.TerminalSet.Members
import LRAutomata.Signature

/-!
# Signatures tell items apart

* `Core.word_inj`: the word of a core determines it, as its words do a terminal set
  (`TerminalSet.words_inj`);
* `ofItems_true_inj`: with lookaheads, equal signatures are signatures of equal items;
* `ofItems_false_eq_iff`: without, they are signatures of items with the same cores;
* `ofItems_eq_iff`: both, by the members of the two lists;
* `ofItems_true_ofList_eq_iff`: the order in which items were put in does not show.
-/

namespace LRAutomata

theorem Core.toNat_word (c : Core) : c.word.toNat = c.rank := by
  have hp := c.production.id.toNat_lt
  have hd := c.dot.toNat_lt
  have hlt : c.production.id.toNat * 2 ^ 16 < 2 ^ 32 := by omega
  simp only [word, UInt32.toNat_or, UInt32.toNat_shiftLeft, UInt16.toNat_toUInt32,
    UInt32.reduceToNat, Nat.reduceMod, Nat.shiftLeft_eq, Nat.mod_eq_of_lt hlt]
  rw [← Nat.shiftLeft_eq, ← Nat.shiftLeft_add_eq_or_of_lt hd, Nat.shiftLeft_eq]
  rfl

theorem Core.word_inj {c d : Core} (h : c.word = d.word) : c = d :=
  rank_inj (by rw [← toNat_word, ← toNat_word, h])

namespace Signature

theorem ofItems_false (s : Items) : ofItems false s = ⟨s.cores.map Core.word⟩ := by
  have key : ∀ is : List Item,
      is.flatMap (itemWords false) = (is.map Item.core).map Core.word := by
    intro is
    induction is with
    | nil => rfl
    | cons i is ih => rw [List.flatMap_cons, ih]; rfl
  rw [ofItems, key]
  rfl

/-- Without lookaheads, equal signatures are those of the same cores. -/
theorem ofItems_false_eq_iff {s t : Items} :
    ofItems false s = ofItems false t ↔ s.cores = t.cores := by
  rw [ofItems_false, ofItems_false, Signature.mk.injEq]
  exact ⟨fun h => List.map_injective_iff.mpr (fun _ _ => Core.word_inj) h, fun h => by rw [h]⟩

theorem flatMap_itemWords_inj : ∀ {is js : List Item},
    is.flatMap (itemWords true) = js.flatMap (itemWords true) → is = js
  | [], [], _ => rfl
  | [], j :: js, h => by simp [itemWords] at h
  | i :: is, [], h => by simp [itemWords] at h
  | i :: is, j :: js, h => by
    rw [List.flatMap_cons, List.flatMap_cons] at h
    -- every item takes nine words
    have hlen : (itemWords true i).length = (itemWords true j).length := by
      simp [itemWords, TerminalSet.length_words]
    obtain ⟨hw, hrest⟩ := List.append_inj h hlen
    simp only [itemWords, if_true, List.cons.injEq] at hw
    have hi : i = j := by
      obtain ⟨c, a⟩ := i
      obtain ⟨d, b⟩ := j
      exact congrArg₂ Item.mk (Core.word_inj hw.1) (TerminalSet.words_inj hw.2)
    rw [hi, flatMap_itemWords_inj hrest]

/-- With lookaheads, equal signatures are those of equal items. -/
theorem ofItems_true_inj {s t : Items} (h : ofItems true s = ofItems true t) : s = t :=
  SortedList.ext (flatMap_itemWords_inj (congrArg words h))

theorem ofItems_true_eq_iff {s t : Items} : ofItems true s = ofItems true t ↔ s = t :=
  ⟨ofItems_true_inj, congrArg _⟩

theorem cores_eq_of_ofItems {b : Bool} {s t : Items} (h : ofItems b s = ofItems b t) :
    s.cores = t.cores := by
  cases b with
  | false => exact ofItems_false_eq_iff.mp h
  | true => rw [ofItems_true_inj h]

/-- Of the calls that built the items, only what they put in can be told from the signature. -/
theorem ofItems_true_ofList_eq_iff {is js : List Item} :
    ofItems true (.ofList is) = ofItems true (.ofList js) ↔
      (∀ c, (∃ i ∈ is, i.core = c) ↔ ∃ j ∈ js, j.core = c) ∧
      ∀ c t, (∃ i ∈ is, i.core = c ∧ t ∈ i.lookaheads) ↔ ∃ j ∈ js, j.core = c ∧ t ∈ j.lookaheads := by
  rw [ofItems_true_eq_iff]
  simp only [← Items.mem_cores_ofList, ← Items.has_ofList]
  exact ⟨fun h => h ▸ ⟨fun _ => Iff.rfl, fun _ _ => Iff.rfl⟩, fun h => Items.eq_of_views h.1 h.2⟩

/-- With lookaheads, two signatures are equal just if the items are the same; without, just if the
cores are the same, which is what `sameCores` finds out. -/
theorem ofItems_eq_iff (s t : Items) :
    (ofItems true s = ofItems true t ↔ ∀ i, i ∈ s.toList ↔ i ∈ t.toList) ∧
    (ofItems false s = ofItems false t ↔ s.sameCores t = true) ∧
    (s.sameCores t = true ↔ ∀ c, c ∈ s.cores ↔ c ∈ t.cores) := by
  have same : s.sameCores t = true ↔ s.cores = t.cores := by
    rw [Items.sameCores, decide_eq_true_eq]
  refine ⟨?_, ?_, ?_⟩
  · rw [ofItems_true_eq_iff]
    exact ⟨fun h _ => h ▸ Iff.rfl, SortedList.eq_of_mem_iff⟩
  · rw [ofItems_false_eq_iff, same]
  · rw [same, Items.cores_eq_iff]

end Signature

end LRAutomata

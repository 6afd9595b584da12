import LRAutomata.Proofs.Repetition
import LRAutomata.SortedList
import LRAutomata.TerminalSet

/-!
# What a terminal set shows of its members

* `mem_toList`, `ascending_toList`: the list of the members;
* `size_mono`, `size_lt_of_subset`: more members, a larger size;
* `testBit_words_iff`: a member is a bit of one of the words, and `words_inj`: the words determine
  the set.
-/

namespace LRAutomata

namespace TerminalSet

variable {s t : TerminalSet} {a : Terminal}

theorem mem_iff_getLsbD {i : Nat} (hi : i < capacity) :
    (⟨UInt16.ofNat i⟩ : Terminal) ∈ s ↔ s.bits.getLsbD i = true := by
  rw [mem_def, UInt16.toNat_ofNat', Nat.mod_eq_of_lt (by simp only [capacity] at hi; omega)]

@[simp] theorem mem_toList : a ∈ s.toList ↔ a ∈ s := by
  simp only [toList, List.mem_map, List.mem_filter, List.mem_range]
  refine ⟨fun h => ?_, fun h => ?_⟩
  · obtain ⟨i, ⟨hi, hs⟩, rfl⟩ := h
    exact (mem_iff_getLsbD hi).mpr hs
  · exact ⟨a.id.toNat, ⟨lt_capacity_of_mem h, h⟩, by rw [UInt16.ofNat_toNat]⟩

theorem ascending_toList (s : TerminalSet) :
    s.toList.Pairwise fun t u => t.rank < u.rank := by
  refine List.pairwise_map.mpr (List.Pairwise.imp_of_mem ?_ (List.pairwise_lt_range.filter _))
  intro i j hi hj hlt
  have hi := List.mem_range.mp (List.mem_filter.mp hi).1
  have hj := List.mem_range.mp (List.mem_filter.mp hj).1
  simp only [capacity] at hi hj
  simp only [Terminal.rank, UInt16.toNat_ofNat']
  omega

theorem nodup_toList (s : TerminalSet) : s.toList.Nodup :=
  SortedList.nodup_of_ascending s.ascending_toList

theorem mem_foldl_union {α : Type} (sets : α → TerminalSet) (l : List α) (s : TerminalSet)
    (t : Terminal) : t ∈ l.foldl (fun s a => s ∪ sets a) s ↔ t ∈ s ∨ ∃ a ∈ l, t ∈ sets a := by
  refine foldl_iff_or_exists (P := fun s : TerminalSet => t ∈ s) (fun s a => ?_) l s
  exact mem_union

theorem size_eq_countP (s : TerminalSet) :
    s.size = (List.range capacity).countP s.bits.getLsbD := by
  simp only [size, toList, List.length_map, List.countP_eq_length_filter]

theorem size_le_capacity (s : TerminalSet) : s.size ≤ capacity := by
  rw [size_eq_countP]
  exact Nat.le_trans List.countP_le_length (by simp)

theorem size_mono (h : s ⊆ t) : s.size ≤ t.size := by
  rw [size_eq_countP, size_eq_countP]
  refine List.countP_mono_left fun i hi hs => ?_
  have hi := List.mem_range.mp hi
  exact (mem_iff_getLsbD hi).mp (subset_iff.mp h _ ((mem_iff_getLsbD hi).mpr hs))

theorem size_lt_of_subset (h : s ⊆ t) (hn : ¬ t ⊆ s) : s.size < t.size := by
  have hst : ∀ i ∈ List.range capacity, s.bits.getLsbD i = true → t.bits.getLsbD i = true :=
    fun i hi hs => by
      have hi := List.mem_range.mp hi
      exact (mem_iff_getLsbD hi).mp (subset_iff.mp h _ ((mem_iff_getLsbD hi).mpr hs))
  have hex : ∃ a, a ∈ t ∧ a ∉ s := by
    rw [subset_iff] at hn
    push Not at hn
    exact hn
  obtain ⟨a, hat, has⟩ := hex
  -- the members of `s` are those of `t` that pass the test for `s`, and `a` does not
  have key : (List.range capacity).filter s.bits.getLsbD =
      ((List.range capacity).filter t.bits.getLsbD).filter s.bits.getLsbD := by
    rw [List.filter_filter]
    refine List.filter_congr fun i hi => ?_
    cases hs : s.bits.getLsbD i with
    | false => simp
    | true => simp [hst i hi hs]
  rw [size_eq_countP, size_eq_countP, List.countP_eq_length_filter, List.countP_eq_length_filter,
    key, List.length_filter_lt_length_iff_exists]
  exact ⟨a.id.toNat, List.mem_filter.mpr ⟨List.mem_range.mpr (lt_capacity_of_mem hat), hat⟩, has⟩

theorem length_words (s : TerminalSet) : s.words.length = 8 := by
  simp [words]

/-- Each word has the bits of 32 terminals. -/
theorem getElem?_words (s : TerminalSet) {k : Nat} (hk : k < 8) :
    s.words[k]? = some (UInt32.ofBitVec (s.bits.extractLsb' (32 * k) 32)) := by
  rw [words, List.getElem?_map, List.getElem?_range hk, Option.map_some]

/-- A member is the bit of its number: the word by the quotient, the place in it by the
remainder. -/
theorem testBit_words_iff :
    (s.words.getD (a.id.toNat / 32) 0).toNat.testBit (a.id.toNat % 32) = true ↔ a ∈ s := by
  rw [List.getD_eq_getElem?_getD]
  by_cases hk : a.id.toNat / 32 < 8
  · rw [getElem?_words s hk, Option.getD_some, UInt32.toNat_ofBitVec, BitVec.testBit_toNat,
      BitVec.getLsbD_extractLsb', Nat.div_add_mod, decide_eq_true (Nat.mod_lt _ (by decide)),
      Bool.true_and]
    exact mem_def.symm
  · rw [List.getElem?_eq_none (by rw [length_words]; omega), Option.getD_none]
    have outside : a ∉ s := fun ha => by
      have := lt_capacity_of_mem ha
      simp only [capacity] at this
      omega
    simp [outside]

theorem words_inj (h : s.words = t.words) : s = t :=
  ext fun a => by rw [← testBit_words_iff, ← testBit_words_iff, h]

end TerminalSet

end LRAutomata

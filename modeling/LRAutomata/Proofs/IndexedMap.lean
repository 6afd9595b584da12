import LRAutomata.IndexedMap
import LRAutomata.Proofs.Repetition
import Mathlib.Data.List.Induction
import Mathlib.Data.List.Nodup

/-!
# Look-ups in indexed maps

* `get?_insert`, `keys_insert`: what inserting does to the map and to the order of its keys;
* `entries_sortKeys`: sorting comes to the one ascending arrangement of the entries;
* `entries_foldl_update`: values collected for each key by updates, one pair after another;
* `Numbered`: the keys count up without a gap, so that inserting under the next number appends
  (`Numbered.entries_insert`) and a look-up reads the place that the number says
  (`Numbered.get?_eq`).
-/

namespace LRAutomata

namespace IndexedMap

variable {κ ν : Type} {m : IndexedMap κ ν} {k : κ} {v : ν}

theorem length_values (m : IndexedMap κ ν) : m.values.length = m.size := List.length_map _

theorem entries_eq_zip (m : IndexedMap κ ν) : m.entries = m.keys.zip m.values := by
  rw [keys, values, List.zip_map']
  exact (List.map_id _).symm

/-- Entries in ascending order of their keys are what sorting comes to. -/
theorem entries_sortKeys {rank : κ → Nat} (hinj : ∀ {k l}, rank k = rank l → k = l)
    {es : List (κ × ν)} (hperm : m.entries.Perm es)
    (hasc : es.Pairwise fun a b => rank a.1 < rank b.1) : (m.sortKeys rank).entries = es :=
  sortByRank_eq _ ((List.pairwise_map.mp m.nodup).imp fun hne he => hne (hinj he)) hasc
    fun _ => hperm.mem_iff

/-- The keys count up from `first` without a gap. -/
structure Numbered (rank : κ → Nat) (first : Nat) (m : IndexedMap κ ν) : Prop where
  map_rank_keys : m.keys.map rank = List.range' first m.size

section

variable {rank : κ → Nat} {first : Nat}

theorem Numbered.ascending (h : m.Numbered rank first) :
    m.entries.Pairwise fun a b => rank a.1 < rank b.1 := by
  have hasc : (m.keys.map rank).Pairwise (· < ·) :=
    h.map_rank_keys ▸ List.pairwise_lt_range'
  rw [keys, List.map_map] at hasc
  exact List.pairwise_map.mp hasc

/-- The key at a place has the number of the place, counted from `first`. -/
theorem Numbered.rank_eq_of_getElem? (h : m.Numbered rank first) {i : Nat}
    (hk : m.keys[i]? = some k) : rank k = first + i := by
  have hi : (m.keys.map rank)[i]? = some (rank k) := by
    rw [List.getElem?_map, hk]
    rfl
  rw [h.map_rank_keys] at hi
  obtain ⟨hlt, hr⟩ := List.getElem?_eq_some_iff.mp hi
  rw [← hr, List.getElem_range', Nat.one_mul]

theorem Numbered.rank_mem (h : m.Numbered rank first) (hk : k ∈ m.keys) :
    first ≤ rank k ∧ rank k < first + m.size := by
  have hr : rank k ∈ List.range' first m.size := h.map_rank_keys ▸ List.mem_map_of_mem hk
  exact List.mem_range'_1.mp hr

/-- The next number is not in use. -/
theorem Numbered.not_mem_keys (h : m.Numbered rank first) (hk : rank k = first + m.size) :
    k ∉ m.keys := fun hm => by
  have := (h.rank_mem hm).2
  omega

/-- Keys that count up from 0 are determined by how many there are. -/
theorem Numbered.keys_eq (h : m.Numbered rank 0) (hinj : ∀ {k l}, rank k = rank l → k = l)
    {ks : List κ} (hks : ks.map rank = List.range m.size) : m.keys = ks :=
  List.map_injective_iff.mpr (fun _ _ => hinj)
    (h.map_rank_keys.trans (List.range_eq_range'.symm.trans hks.symm))

/-- The first key with a value, by the place of the value. -/
theorem Numbered.map_fst_find? [DecidableEq ν] (h : m.Numbered rank 0)
    (hinj : ∀ {k l}, rank k = rank l → k = l) {key : Nat → κ}
    (hkey : ∀ i < m.size, rank (key i) = i) (v : ν) :
    (m.entries.find? fun e => e.2 = v).map Prod.fst =
      (m.values.findIdx? (· == v)).map key := by
  have hplace : m.values.findIdx? (· == v) = m.entries.findIdx? fun e => e.2 = v := by
    rw [values, List.findIdx?_map]
    rfl
  rw [List.find?_eq_bind_findIdx?_getElem?, hplace]
  cases hi : m.entries.findIdx? fun e => e.2 = v with
  | none => rfl
  | some i =>
    obtain ⟨hlt, -⟩ := List.findIdx?_eq_some_iff_getElem.mp hi
    have hk : m.keys[i]? = some m.entries[i].1 := by
      rw [keys, List.getElem?_map, List.getElem?_eq_getElem hlt]
      rfl
    have hr := (h.rank_eq_of_getElem? hk).trans (Nat.zero_add i)
    rw [Option.bind_some, List.getElem?_eq_getElem hlt, Option.map_some, Option.map_some,
      hinj (hr.trans (hkey i hlt).symm)]

end

variable [DecidableEq κ]

/-! ## Looking up and inserting -/

theorem keys_insert (m : IndexedMap κ ν) (k : κ) (v : ν) :
    (m.insert k v).keys = if k ∈ m.keys then m.keys else m.keys ++ [k] :=
  map_fst_put k v m.entries

theorem find?_put (k l : κ) (v : ν) (es : List (κ × ν)) :
    ((put k v es).find? fun e => e.1 = l).map Prod.snd =
      if k = l then some v else (es.find? fun e => e.1 = l).map Prod.snd := by
  induction es with
  | nil => by_cases h : k = l <;> simp [put, h]
  | cons e es ih =>
    simp only [put]
    split
    next he => by_cases h : k = l <;> simp [he, h]
    next he =>
      by_cases hl : e.1 = l
      · have hk : k ≠ l := fun h => he (hl.trans h.symm)
        simp [hl, hk]
      · simp only [List.find?_cons, hl, decide_false, ih]

theorem get?_insert (m : IndexedMap κ ν) (k : κ) (v : ν) (l : κ) :
    (m.insert k v).get? l = if k = l then some v else m.get? l :=
  find?_put k l v m.entries

theorem get?_update (m : IndexedMap κ ν) (k : κ) (d : ν) (f : ν → ν) (l : κ) :
    (m.update k d f).get? l = if k = l then some (f ((m.get? l).getD d)) else m.get? l := by
  rw [update, get?_insert]
  split
  next h => rw [h]
  next => rfl

/-- The map as a set of pairs. -/
theorem get?_eq_some_iff : m.get? k = some v ↔ (k, v) ∈ m.entries := by
  rw [get?, Option.map_eq_some_iff]
  constructor
  · rintro ⟨⟨l, w⟩, he, rfl⟩
    obtain rfl : l = k := by simpa using List.find?_some he
    exact List.mem_of_find?_eq_some he
  · intro hm
    obtain ⟨e, he⟩ : ∃ e, m.entries.find? (fun e => e.1 = k) = some e := by
      rw [← Option.isSome_iff_exists, List.find?_isSome]
      exact ⟨(k, v), hm, decide_eq_true rfl⟩
    have hk : e.1 = k := by simpa using List.find?_some he
    have : e = (k, v) := List.inj_on_of_nodup_map m.nodup (List.mem_of_find?_eq_some he) hm hk
    exact ⟨e, he, by rw [this]⟩

theorem contains_iff : m.contains k = true ↔ k ∈ m.keys := by
  rw [contains, Option.isSome_iff_exists, keys, List.mem_map]
  simp only [get?_eq_some_iff, Prod.exists, exists_and_right, exists_eq_right]

theorem contains_insert_of_contains {l : κ} (h : m.contains l = true) (k : κ) (v : ν) :
    (m.insert k v).contains l = true := by
  rw [contains, get?_insert]
  split
  · rfl
  · exact h

/-- A new key comes last. -/
theorem entries_insert_of_not_mem (hk : k ∉ m.keys) (v : ν) :
    (m.insert k v).entries = m.entries ++ [(k, v)] := by
  have (es : List (κ × ν)) (h : k ∉ es.map Prod.fst) : put k v es = es ++ [(k, v)] := by
    induction es with
    | nil => rfl
    | cons e es ih =>
      rw [List.map_cons, List.mem_cons, not_or] at h
      rw [put, if_neg (Ne.symm h.1), ih h.2, List.cons_append]
  exact this m.entries hk

/-- A map is its keys with what is found under them. -/
theorem entries_eq_map (m : IndexedMap κ ν) (d : ν) :
    m.entries = m.keys.map fun k => (k, (m.get? k).getD d) := by
  rw [keys, List.map_map]
  refine (List.map_id _).symm.trans (List.map_congr_left fun e he => ?_)
  rw [Function.comp_apply, get?_eq_some_iff.mpr he]
  rfl

section

variable {α : Type} (d : ν) (f : ν → α → ν)

theorem keys_foldl_update (pairs : List (κ × α)) :
    (pairs.foldl (fun m p => m.update p.1 d (f · p.2)) empty).keys =
      (pairs.map Prod.fst).eraseDups := by
  induction pairs using List.reverseRecOn with
  | nil => rfl
  | append_singleton pairs p ih =>
    rw [List.foldl_concat, update, keys_insert, ih, List.map_append, List.map_singleton,
      eraseDups_concat]
    simp only [List.mem_eraseDups]

theorem getD_foldl_update (pairs : List (κ × α)) (k : κ) :
    ((pairs.foldl (fun m p => m.update p.1 d (f · p.2)) empty).get? k).getD d =
      ((pairs.filter fun p => p.1 = k).map Prod.snd).foldl f d := by
  induction pairs using List.reverseRecOn with
  | nil => rfl
  | append_singleton pairs p ih =>
    rw [List.foldl_concat, get?_update, List.filter_append, List.map_append, List.foldl_append,
      ← ih]
    split
    next h => simp [h]
    next h => simp [h]

/-- For every key that comes up, in the order in which they do, the value is made from the pairs
with that key. -/
theorem entries_foldl_update (pairs : List (κ × α)) :
    (pairs.foldl (fun m p => m.update p.1 d (f · p.2)) empty).entries =
      (pairs.map Prod.fst).eraseDups.map fun k =>
        (k, ((pairs.filter fun p => p.1 = k).map Prod.snd).foldl f d) := by
  rw [entries_eq_map _ d, keys_foldl_update]
  exact List.map_congr_left fun k _ => by rw [getD_foldl_update]

end

/-! ## Keys that count up -/

section

variable {rank : κ → Nat} {first : Nat}

/-- What is inserted under the next number comes last. -/
theorem Numbered.entries_insert (h : m.Numbered rank first) (hk : rank k = first + m.size)
    (v : ν) : (m.insert k v).entries = m.entries ++ [(k, v)] :=
  entries_insert_of_not_mem (h.not_mem_keys hk) v

theorem Numbered.values_insert (h : m.Numbered rank first) (hk : rank k = first + m.size)
    (v : ν) : (m.insert k v).values = m.values ++ [v] := by
  rw [values, h.entries_insert hk, List.map_append]
  rfl

theorem Numbered.size_insert (h : m.Numbered rank first) (hk : rank k = first + m.size) (v : ν) :
    (m.insert k v).size = m.size + 1 := by
  rw [size, h.entries_insert hk, List.length_append]
  rfl

theorem Numbered.insert (h : m.Numbered rank first) (hk : rank k = first + m.size) (v : ν) :
    (m.insert k v).Numbered rank first where
  map_rank_keys := by
    rw [keys_insert, if_neg (h.not_mem_keys hk), h.size_insert hk, List.range'_concat,
      Nat.one_mul, ← hk, List.map_append, h.map_rank_keys]
    rfl

/-- A look-up reads the place that the number says. -/
theorem Numbered.get?_eq (h : m.Numbered rank 0) (hinj : ∀ {k l}, rank k = rank l → k = l)
    (k : κ) : m.get? k = m.values[rank k]? := by
  have rank_eq {i : Nat} {e : κ × ν} (he : m.entries[i]? = some e) : rank e.1 = i := by
    have hk : m.keys[i]? = some e.1 := by
      rw [keys, List.getElem?_map, he]
      rfl
    exact (h.rank_eq_of_getElem? hk).trans (Nat.zero_add i)
  refine Option.ext fun v => ?_
  rw [get?_eq_some_iff, List.mem_iff_getElem?, values, List.getElem?_map, Option.map_eq_some_iff]
  constructor
  · rintro ⟨i, hi⟩
    exact ⟨(k, v), by rw [rank_eq hi]; exact hi, rfl⟩
  · rintro ⟨⟨l, w⟩, he, rfl⟩
    obtain rfl : l = k := hinj (rank_eq he)
    exact ⟨_, he⟩

theorem Numbered.contains_iff (h : m.Numbered rank 0) (hinj : ∀ {k l}, rank k = rank l → k = l) :
    m.contains k = true ↔ rank k < m.size := by
  rw [contains, h.get?_eq hinj, ← length_values]
  simp

end

end IndexedMap

end LRAutomata

import LRAutomata.Automaton.Index
import Mathlib.Data.List.Nodup

/-!
# The index finds every state

`Holds` says that the index files exactly the first `count` states, each in the bucket of its
signature. Filing the next state keeps this (`Holds.file`), and so does spreading the states over
more buckets (`Holds.withRoom`), so that looking a signature up is as good as comparing it with the
signatures of all states (`signature?_of_find?`, `Holds.signature?_ne_of_find?`). Nothing is filed
twice (`Repeatless`), so that the buckets together are the states in some order
(`Holds.flatten_perm`). There are twice as many buckets as soon as there are as many states
(`size_buckets_inserted`).
-/

namespace LRAutomata

namespace SignatureIndex

variable {x : SignatureIndex} {signature? : StateId → Option Signature} {count : Nat}
  {k : Signature} {s : StateId}

/-- No bucket holds a state twice. -/
def Repeatless (x : SignatureIndex) : Prop :=
  ∀ (slot : Nat) (bucket : List StateId), x.buckets[slot]? = some bucket → bucket.Nodup

theorem repeatless_replicate (n c : Nat) : Repeatless ⟨Array.replicate n [], c⟩ := by
  intro slot bucket hb
  simp only [Array.getElem?_replicate] at hb
  split at hb <;> cases hb
  exact .nil

variable [WordHash]

/-- The buckets hold just the states with numbers below `count`, where their signatures belong. -/
structure Holds (x : SignatureIndex) (signature? : StateId → Option Signature) (count : Nat) :
    Prop where
  pos : 0 < x.buckets.size
  mem_iff {slot : Nat} {bucket : List StateId} : x.buckets[slot]? = some bucket → ∀ s,
    s ∈ bucket ↔ s.number < count ∧ ∃ k, signature? s = some k ∧ k.slot x.buckets.size = slot

theorem Holds.slot_lt (h : x.Holds signature? count) (k : Signature) :
    k.slot x.buckets.size < x.buckets.size := Nat.mod_lt _ h.pos

theorem signature?_of_find? (h : x.find? signature? k = some s) : signature? s = some k := by
  simpa using List.find?_some h

theorem Holds.signature?_ne_of_find? (h : x.Holds signature? count)
    (hf : x.find? signature? k = none) (hs : s.number < count) : signature? s ≠ some k := by
  intro hk
  rw [find?, bucketOf, Array.getElem?_eq_getElem (h.slot_lt k), Option.getD_some,
    List.find?_eq_none] at hf
  have hm := (h.mem_iff (Array.getElem?_eq_getElem (h.slot_lt k)) s).mpr ⟨hs, k, hk, rfl⟩
  simpa [hk] using hf s hm

/-! ## Filing -/

@[simp] theorem size_buckets_file : (x.file k s).buckets.size = x.buckets.size :=
  Array.size_modify

theorem holds_replicate {n : Nat} (hn : 0 < n) (c : Nat) :
    Holds ⟨Array.replicate n [], c⟩ signature? 0 where
  pos := by simpa using hn
  mem_iff {slot bucket} hb s := by
    simp only [Array.getElem?_replicate] at hb
    split at hb <;> [skip; cases hb]
    cases hb
    simp

/-- Filing the next state under its signature. -/
theorem Holds.file (h : x.Holds signature? count) (hk : signature? ⟨count⟩ = some k) :
    (x.file k ⟨count⟩).Holds signature? (count + 1) where
  pos := by rw [size_buckets_file]; exact h.pos
  mem_iff {slot bucket} hb s := by
    simp only [SignatureIndex.file, Array.getElem?_modify] at hb
    rw [size_buckets_file]
    have hlt : s.number < count + 1 ↔ s = ⟨count⟩ ∨ s.number < count := by
      obtain ⟨n⟩ := s
      simp only [StateId.mk.injEq]
      omega
    split at hb
    next he =>
      -- the bucket that the state goes to
      obtain ⟨old, hold, rfl⟩ := Option.map_eq_some_iff.mp hb
      rw [List.mem_append, List.mem_singleton, h.mem_iff hold s, hlt]
      refine ⟨fun h => ?_, fun h => ?_⟩
      · rcases h with ⟨hs, hex⟩ | rfl
        · exact ⟨.inr hs, hex⟩
        · exact ⟨.inl rfl, k, hk, he⟩
      · obtain ⟨rfl | hs, hex⟩ := h
        · exact .inr rfl
        · exact .inl ⟨hs, hex⟩
    next he =>
      rw [h.mem_iff hb s, hlt]
      refine ⟨fun h => ?_, fun h => ?_⟩
      · obtain ⟨hs, hex⟩ := h
        exact ⟨.inr hs, hex⟩
      · obtain ⟨rfl | hs, k', hk', hs'⟩ := h
        · rw [hk] at hk'
          exact absurd (Option.some.inj hk' ▸ hs') he
        · exact ⟨hs, k', hk', hs'⟩

/-- Only the signatures of filed states matter. -/
theorem Holds.congr (h : x.Holds signature? count) {signature?' : StateId → Option Signature}
    (he : ∀ s : StateId, s.number < count → signature?' s = signature? s) :
    x.Holds signature?' count where
  pos := h.pos
  mem_iff hb s := by
    rw [h.mem_iff hb s]
    exact and_congr_right fun hs => by rw [he s hs]

/-- Filing the states in order. -/
theorem Holds.foldl_file (h : x.Holds signature? 0) {f : SignatureIndex → Nat → SignatureIndex}
    (hf : ∀ y i k, signature? ⟨i⟩ = some k → f y i = y.file k ⟨i⟩) {n : Nat}
    (hd : ∀ i < n, (signature? ⟨i⟩).isSome = true) :
    ((List.range n).foldl f x).Holds signature? n := by
  induction n with
  | zero => exact h
  | succ n ih =>
    obtain ⟨k, hk⟩ := Option.isSome_iff_exists.mp (hd n (Nat.lt_succ_self n))
    rw [List.range_succ, List.foldl_append, List.foldl_cons, List.foldl_nil, hf _ n k hk]
    exact (ih fun i hi => hd i (by omega)).file hk

/-- Spreading the states over twice as many buckets. -/
theorem Holds.grown (h : x.Holds signature? x.count)
    (hd : ∀ s : StateId, s.number < x.count → (signature? s).isSome = true) :
    (x.grown signature?).Holds signature? x.count := by
  have hpos : 0 < 2 * x.buckets.size := by
    have := h.pos
    omega
  refine (holds_replicate hpos x.count).foldl_file (fun y i k hk => ?_) fun i hi => hd ⟨i⟩ hi
  rw [hk]

theorem count_grown : (x.grown signature?).count = x.count := by
  refine List.foldlRecOn (motive := fun y : SignatureIndex => y.count = x.count) _ _ rfl
    fun y hy i _ => ?_
  rw [← hy]
  split <;> rfl

theorem count_withRoom : (x.withRoom signature?).count = x.count := by
  rw [withRoom]
  split
  · exact count_grown
  · rfl

theorem Holds.withRoom (h : x.Holds signature? x.count)
    (hd : ∀ s : StateId, s.number < x.count → (signature? s).isSome = true) :
    (x.withRoom signature?).Holds signature? x.count := by
  rw [SignatureIndex.withRoom]
  split
  · exact h.grown hd
  · exact h

/-- The index with one more state in the bucket of its signature. -/
def inserted (signature? : StateId → Option Signature) (x : SignatureIndex) (k : Signature)
    (s : StateId) : SignatureIndex :=
  { (x.withRoom signature?).file k s with count := x.count + 1 }

/-- A state that has a signature is filed under it. -/
theorem insert_of_signature? (hk : signature? s = some k) :
    x.insert signature? s = .ok (x.inserted signature? k s) := by
  simp only [insert, inserted, hk, count_withRoom]

/-- Filing one more state, whatever happens to the buckets. -/
theorem Holds.inserted (h : x.Holds signature? x.count)
    (hd : ∀ s : StateId, s.number < x.count → (signature? s).isSome = true)
    (hk : signature? ⟨x.count⟩ = some k) :
    (x.inserted signature? k ⟨x.count⟩).Holds signature? (x.count + 1) :=
  have hy := (h.withRoom hd).file hk
  ⟨hy.pos, hy.mem_iff⟩

/-! ## Nothing is filed twice -/

/-- The next state is in no bucket yet. -/
theorem Holds.repeatless_file (h : x.Holds signature? count) (hx : x.Repeatless) (k : Signature) :
    (x.file k ⟨count⟩).Repeatless := by
  intro slot bucket hb
  simp only [SignatureIndex.file, Array.getElem?_modify] at hb
  split at hb <;> [skip; exact hx slot bucket hb]
  obtain ⟨old, hold, rfl⟩ := Option.map_eq_some_iff.mp hb
  rw [List.nodup_append]
  refine ⟨hx slot old hold, List.nodup_cons.mpr ⟨List.not_mem_nil, .nil⟩, fun s hs t ht he => ?_⟩
  rw [he, List.mem_singleton.mp ht] at hs
  exact Nat.lt_irrefl _ ((h.mem_iff hold _).mp hs).1

theorem Holds.repeatless_foldl_file (h : x.Holds signature? 0) (hx : x.Repeatless)
    {f : SignatureIndex → Nat → SignatureIndex}
    (hf : ∀ y i k, signature? ⟨i⟩ = some k → f y i = y.file k ⟨i⟩) {n : Nat}
    (hd : ∀ i < n, (signature? ⟨i⟩).isSome = true) : ((List.range n).foldl f x).Repeatless := by
  induction n with
  | zero => exact hx
  | succ n ih =>
    obtain ⟨k, hk⟩ := Option.isSome_iff_exists.mp (hd n (Nat.lt_succ_self n))
    have hd : ∀ i < n, (signature? ⟨i⟩).isSome = true := fun i hi => hd i (Nat.lt_succ_of_lt hi)
    rw [List.range_succ, List.foldl_append, List.foldl_cons, List.foldl_nil, hf _ n k hk]
    exact (h.foldl_file hf hd).repeatless_file (ih hd) k

theorem Holds.repeatless_grown (h : x.Holds signature? x.count)
    (hd : ∀ s : StateId, s.number < x.count → (signature? s).isSome = true) :
    (x.grown signature?).Repeatless := by
  have hpos : 0 < 2 * x.buckets.size := Nat.mul_pos (by decide) h.pos
  refine (holds_replicate hpos x.count).repeatless_foldl_file (repeatless_replicate _ _)
    (fun y i k hk => ?_) fun i hi => hd ⟨i⟩ hi
  rw [hk]

theorem Holds.repeatless_withRoom (h : x.Holds signature? x.count) (hx : x.Repeatless)
    (hd : ∀ s : StateId, s.number < x.count → (signature? s).isSome = true) :
    (x.withRoom signature?).Repeatless := by
  rw [SignatureIndex.withRoom]
  split
  · exact h.repeatless_grown hd
  · exact hx

/-- Filing one more state puts no state into a bucket twice, whatever happens to the buckets. -/
theorem Holds.repeatless_inserted (h : x.Holds signature? x.count) (hx : x.Repeatless)
    (hd : ∀ s : StateId, s.number < x.count → (signature? s).isSome = true) (k : Signature) :
    (x.inserted signature? k ⟨x.count⟩).Repeatless :=
  (h.withRoom hd).repeatless_file (h.repeatless_withRoom hx hd) k

/-- All the buckets together hold the first `count` states, once each. -/
theorem Holds.flatten_perm (h : x.Holds signature? count) (hx : x.Repeatless)
    (hd : ∀ s : StateId, s.number < count → (signature? s).isSome = true) :
    x.buckets.toList.flatten.Perm ((List.range count).map StateId.mk) := by
  have bucket {slot : Nat} {hs : slot < x.buckets.toList.length} :
      x.buckets[slot]? = some x.buckets.toList[slot] := by
    rw [← Array.getElem?_toList, List.getElem?_eq_getElem hs]
  have nodup : x.buckets.toList.flatten.Nodup := by
    refine List.nodup_flatten.mpr ⟨fun b hb => ?_, List.pairwise_iff_getElem.mpr ?_⟩
    · obtain ⟨slot, hs, rfl⟩ := List.mem_iff_getElem.mp hb
      exact hx slot _ bucket
    · intro i j hi hj hij s hs hs'
      obtain ⟨-, k, hk, hki⟩ := (h.mem_iff bucket s).mp hs
      obtain ⟨-, k', hk', hkj⟩ := (h.mem_iff bucket s).mp hs'
      obtain rfl : k = k' := Option.mem_unique hk hk'
      exact Nat.ne_of_lt hij (hki.symm.trans hkj)
  have nodup' : ((List.range count).map StateId.mk).Nodup :=
    List.nodup_range.map fun _ _ he => congrArg StateId.number he
  refine (List.perm_ext_iff_of_nodup nodup nodup').mpr fun s => ?_
  rw [List.mem_flatten, List.mem_map]
  constructor
  · rintro ⟨b, hb, hs⟩
    obtain ⟨slot, hlt, rfl⟩ := List.mem_iff_getElem.mp hb
    exact ⟨s.number, List.mem_range.mpr ((h.mem_iff bucket s).mp hs).1, rfl⟩
  · rintro ⟨i, hi, rfl⟩
    have hi : i < count := List.mem_range.mp hi
    obtain ⟨k, hk⟩ := Option.isSome_iff_exists.mp (hd ⟨i⟩ hi)
    have hslot : k.slot x.buckets.size < x.buckets.toList.length := h.slot_lt k
    exact ⟨_, List.getElem_mem hslot, (h.mem_iff bucket ⟨i⟩).mpr ⟨hi, k, hk, rfl⟩⟩

theorem size_buckets_grown : (x.grown signature?).buckets.size = 2 * x.buckets.size := by
  refine List.foldlRecOn (motive := fun y : SignatureIndex => y.buckets.size = 2 * x.buckets.size)
    _ _ Array.size_replicate fun y hy i _ => ?_
  split
  · rw [size_buckets_file, hy]
  · exact hy

/-- The buckets are doubled before there are more states than buckets. -/
theorem size_buckets_inserted : (x.inserted signature? k s).buckets.size =
    if x.buckets.size ≤ x.count then 2 * x.buckets.size else x.buckets.size := by
  simp only [inserted, size_buckets_file, withRoom]
  split
  · exact size_buckets_grown
  · rfl

end SignatureIndex

end LRAutomata

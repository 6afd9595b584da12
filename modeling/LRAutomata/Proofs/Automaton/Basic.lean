import LRAutomata.Automaton.Basic
import LRAutomata.Proofs.Automaton.Index
import LRAutomata.Proofs.Fault
import LRAutomata.Proofs.Item.Items
import LRAutomata.Proofs.Transitions
import Mathlib.Data.List.Induction

/-!
# Adding states and transitions

* `Automaton.goto?`, `Automaton.walk?`: where a symbol and where a path lead;
* `Grows`: what an automaton keeps while states and transitions are added to it;
* `Indexed`: every state is found by its signature, and no other state has it;
* `add_freshId`: adding a state pushes its node and then files it (`pushed`);
* `interned_of_intern`: what finding or adding a state does (`Interned`);
* `linked_of_addTransition`: what adding a transition does (`Linked`).
-/

namespace LRAutomata

namespace Automaton

/-- Where a state leads on a symbol. -/
def goto? (a : Automaton) (s : StateId) (X : Symbol) : Option StateId :=
  (a.node? s).bind fun n => n.transitions.target? X

/-- Where a path from the start state leads: to the last of the states along it. -/
def walk? (a : Automaton) (path : List Symbol) : Option StateId :=
  (a.follow (some StateId.initial) path).getLastD (some StateId.initial)

section

variable {a : Automaton} {s t : StateId} {X : Symbol}

theorem follow_append (o : Option StateId) (Xs Ys : List Symbol) :
    a.follow o (Xs ++ Ys) = a.follow o Xs ++ a.follow ((a.follow o Xs).getLastD o) Ys := by
  induction Xs generalizing o with
  | nil => rfl
  | cons X Xs ih => simp only [List.cons_append, follow, ih, List.getLastD_cons]

@[simp] theorem walk?_nil (a : Automaton) : a.walk? [] = some StateId.initial := rfl

theorem walk?_concat (path : List Symbol) (X : Symbol) :
    a.walk? (path ++ [X]) = (a.walk? path).bind fun s => a.goto? s X := by
  simp only [walk?, follow_append, follow, List.getLastD_concat]
  rfl

theorem walk?_concat_eq_some {path : List Symbol} :
    a.walk? (path ++ [X]) = some t ↔ ∃ s, a.walk? path = some s ∧ a.goto? s X = some t := by
  rw [walk?_concat, Option.bind_eq_some_iff]

theorem goto?_of_node? {n : Node} (hn : a.node? s = some n) (X : Symbol) :
    a.goto? s X = n.transitions.target? X := by
  rw [goto?, hn, Option.bind_some]

theorem goto?_eq_some_iff :
    a.goto? s X = some t ↔ ∃ n, a.node? s = some n ∧ n.transitions.target? X = some t := by
  rw [goto?, Option.bind_eq_some_iff]

/-- A prefix of a path that leads somewhere leads somewhere. -/
theorem exists_walk?_of_append {path rest : List Symbol} (h : a.walk? (path ++ rest) = some t) :
    ∃ s, a.walk? path = some s := by
  induction rest using List.reverseRecOn generalizing t with
  | nil => exact ⟨t, by rwa [List.append_nil] at h⟩
  | append_singleton rest X ih =>
    rw [← List.append_assoc] at h
    obtain ⟨s, hs, -⟩ := walk?_concat_eq_some.mp h
    exact ih hs

/-- A path that leads somewhere has all its transitions. -/
theorem none_not_mem_follow {path : List Symbol} (h : a.walk? path = some t) :
    none ∉ a.follow (some StateId.initial) path := by
  induction path using List.reverseRecOn generalizing t with
  | nil => exact List.not_mem_nil
  | append_singleton path X ih =>
    obtain ⟨s, hs, ht⟩ := walk?_concat_eq_some.mp h
    have hlast : (a.follow (some StateId.initial) path).getLastD (some StateId.initial) = some s :=
      hs
    have hX : a.follow (some s) [X] = [some t] := congrArg (fun o => [o]) ht
    rw [follow_append, hlast, hX, List.mem_append, List.mem_singleton]
    intro hm
    rcases hm with hm | hm
    · exact ih hs hm
    · cases hm

/-- Every state of `a` is a state of `b` with the same items and at least the transitions. -/
def Grows (a b : Automaton) : Prop :=
  ∀ s n, a.node? s = some n → ∃ tr : Transitions, b.node? s = some { n with transitions := tr } ∧
    ∀ X t, n.transitions.target? X = some t → tr.target? X = some t

theorem Grows.refl (a : Automaton) : a.Grows a := fun _ n hn => ⟨n.transitions, hn, fun _ _ => id⟩

theorem Grows.trans {b c : Automaton} (hb : a.Grows b) (hc : b.Grows c) : a.Grows c := by
  intro s n hn
  obtain ⟨tr, hb, old⟩ := hb s n hn
  obtain ⟨tr', hc, old'⟩ := hc s _ hb
  exact ⟨tr', hc, fun X t h => old' X t (old X t h)⟩

theorem Grows.goto? {b : Automaton} (h : a.Grows b) (hs : a.goto? s X = some t) :
    b.goto? s X = some t := by
  obtain ⟨n, hn, ht⟩ := goto?_eq_some_iff.mp hs
  obtain ⟨tr, hm, old⟩ := h s n hn
  exact goto?_eq_some_iff.mpr ⟨_, hm, old X t ht⟩

theorem Grows.walk? {b : Automaton} (h : a.Grows b) {path : List Symbol}
    (hs : a.walk? path = some t) : b.walk? path = some t := by
  induction path using List.reverseRecOn generalizing t with
  | nil => exact hs
  | append_singleton path X ih =>
    obtain ⟨s, hs, ht⟩ := walk?_concat_eq_some.mp hs
    exact walk?_concat_eq_some.mpr ⟨s, ih hs, h.goto? ht⟩

/-! ## Finding states by their signatures -/

theorem signature?_eq_some_iff {k : Signature} :
    a.signature? s = some k ↔ ∃ n, a.node? s = some n ∧ n.signature = k := by
  rw [signature?, Option.map_eq_some_iff]

theorem lt_size_of_node? {n : Node} (h : a.node? s = some n) : s.number < a.size :=
  (Array.getElem?_eq_some_iff.mp h).1

theorem exists_node?_of_lt (h : s.number < a.size) : ∃ n, a.node? s = some n :=
  ⟨_, Array.getElem?_eq_getElem h⟩

theorem size_le_of_node? {b : Automaton}
    (h : ∀ s n, a.node? s = some n → ∃ m, b.node? s = some m) : a.size ≤ b.size := by
  by_contra hlt
  obtain ⟨n, hn⟩ := exists_node?_of_lt (a := a) (s := ⟨b.size⟩) (Nat.lt_of_not_le hlt)
  obtain ⟨m, hm⟩ := h _ n hn
  exact Nat.lt_irrefl _ (lt_size_of_node? hm)

theorem Grows.size_le {b : Automaton} (h : a.Grows b) : a.size ≤ b.size :=
  size_le_of_node? fun s n hn => (h s n hn).imp' _ fun _ hm => hm.1

theorem node_eq_ok {n : Node} : a.node s = .ok n ↔ a.node? s = some n := by
  rw [node]
  cases a.node? s <;> simp

theorem ne_freshId_of_node? {n : Node} (h : a.node? s = some n) : s ≠ a.freshId := by
  intro he
  rw [he] at h
  exact Nat.lt_irrefl _ (lt_size_of_node? h)

section

variable [WordHash]

/-- The index finds every state by its signature, and no two states share one. -/
structure Indexed (a : Automaton) : Prop where
  count_eq : a.index.count = a.size
  holds : a.index.Holds a.signature? a.size
  distinct {s t : StateId} {n m : Node} : a.node? s = some n → a.node? t = some m →
    n.signature = m.signature → s = t

theorem exists_node?_of_find? {k : Signature} (h : a.find? k = some s) :
    ∃ n, a.node? s = some n ∧ n.signature = k :=
  signature?_eq_some_iff.mp (SignatureIndex.signature?_of_find? h)

theorem Indexed.ne_of_find? (ha : a.Indexed) {k : Signature} (h : a.find? k = none) {n : Node}
    (hn : a.node? s = some n) : n.signature ≠ k := fun hk =>
  ha.holds.signature?_ne_of_find? h (lt_size_of_node? hn) (signature?_eq_some_iff.mpr ⟨n, hn, hk⟩)

/-- Every state is found by its signature. -/
theorem Indexed.find?_eq (ha : a.Indexed) {n : Node} (hn : a.node? s = some n) :
    a.find? n.signature = some s := by
  cases hf : a.find? n.signature with
  | none => exact absurd rfl (ha.ne_of_find? hf hn)
  | some t =>
    obtain ⟨m, hm, hk⟩ := exists_node?_of_find? hf
    rw [ha.distinct hm hn hk]

/-- Only the signatures of the states matter to the index. -/
theorem Indexed.congr (ha : a.Indexed) {b : Automaton} (hi : b.index = a.index)
    (hs : b.size = a.size) (hk : b.signature? = a.signature?) : b.Indexed := by
  have back {s : StateId} {m : Node} (hm : b.node? s = some m) :
      ∃ n, a.node? s = some n ∧ n.signature = m.signature := by
    rw [← signature?_eq_some_iff, ← hk, signature?_eq_some_iff]
    exact ⟨m, hm, rfl⟩
  refine ⟨?_, ?_, fun {s t n m} hs ht he => ?_⟩
  · rw [hi, hs]
    exact ha.count_eq
  · rw [hi, hs, hk]
    exact ha.holds
  · obtain ⟨n', hs', hn⟩ := back hs
    obtain ⟨m', ht', hm⟩ := back ht
    exact ha.distinct hs' ht' (hn.trans (he.trans hm.symm))

theorem indexed_empty (method : Method) : (empty method).Indexed where
  count_eq := rfl
  holds := SignatureIndex.holds_replicate (by decide) _
  distinct h := by simp [empty, node?] at h

/-! ## Adding a state -/

/-- The node that an automaton keeps for a candidate. -/
def nodeOf (g : Grammar) (candidate : State) (k : Signature) : Node :=
  { candidate with successors := candidate.items.nextSymbols g, signature := k }

/-- `b` is `a` with a state of signature `k`, found or added as `t`. -/
structure Interned (g : Grammar) (a : Automaton) (candidate : State) (t : StateId)
    (b : Automaton) : Prop where
  method_eq : b.method = a.method
  indexed : b.Indexed
  target : ∃ m, b.node? t = some m ∧ m.signature = a.signatureFor candidate
  old {s : StateId} {n : Node} : a.node? s = some n → b.node? s = some n
  cases {s : StateId} {n : Node} : b.node? s = some n → a.node? s = some n ∨
    s = t ∧ a.size ≤ s.number ∧ n = nodeOf g candidate (a.signatureFor candidate)

/-- An automaton with one node more, filed under the signature that it has: the index is told of
all nodes, the new one among them. -/
def pushed (a : Automaton) (n : Node) : Automaton :=
  let b : Automaton := { a with nodes := a.nodes.push n }
  { b with index := a.index.inserted b.signature? n.signature a.freshId }

theorem node?_pushed (a : Automaton) (n : Node) (s : StateId) :
    (a.pushed n).node? s = if s = a.freshId then some n else a.node? s := by
  obtain ⟨i⟩ := s
  simp only [pushed, node?, Array.getElem?_push, freshId, StateId.mk.injEq, size]

theorem signature?_pushed_freshId (a : Automaton) (n : Node) :
    (a.pushed n).signature? a.freshId = some n.signature := by
  rw [signature?, node?_pushed, if_pos rfl]
  rfl

/-- Under the next number and a new signature a candidate is added, unless one of its productions
does not exist. -/
theorem add_freshId {g : Grammar} {candidate : State} {k : Signature} (hf : a.find? k = none) :
    a.add g candidate k a.freshId = (candidate.items.successors g).map fun Xs =>
      a.pushed { candidate with successors := Xs, signature := k } := by
  rw [add, if_neg (not_not_intro rfl), hf]
  cases candidate.items.successors g with
  | error f => rfl
  | ok Xs =>
    let n : Node := { candidate with successors := Xs, signature := k }
    have hinsert := SignatureIndex.insert_of_signature? (x := a.index)
      (signature?_pushed_freshId a n)
    exact congrArg (fun r : Except Fault SignatureIndex => r >>= fun x =>
      .ok ({ a with nodes := a.nodes.push n, index := x } : Automaton)) hinsert

theorem add_eq_ok {g : Grammar} {candidate : State} {k : Signature} {b : Automaton}
    (h : a.add g candidate k s = .ok b) :
    s = a.freshId ∧ a.find? k = none ∧ b = a.pushed (nodeOf g candidate k) := by
  have hs : s = a.freshId := by
    by_contra hne
    rw [add, if_pos hne] at h
    cases h
  have hf : a.find? k = none := by
    by_contra hne
    rw [add, if_neg (not_not_intro hs), if_pos (Option.isSome_iff_ne_none.mpr hne)] at h
    cases h
  refine ⟨hs, hf, ?_⟩
  rw [hs, add_freshId hf] at h
  cases hXs : candidate.items.successors g with
  | error f =>
    rw [hXs] at h
    cases h
  | ok Xs =>
    rw [hXs] at h
    obtain ⟨-, -, hn⟩ := bind_eq_ok.mp hXs
    cases hn
    exact (Except.ok.inj h).symm

theorem Indexed.isSome_signature? (ha : a.Indexed) (hs : s.number < a.index.count) :
    (a.signature? s).isSome = true := by
  obtain ⟨n, hn⟩ := exists_node?_of_lt (ha.count_eq ▸ hs)
  rw [signature?, hn]
  rfl

/-- The signatures of the states that were there are read as before. -/
theorem Indexed.signature?_pushed (ha : a.Indexed) (n : Node) (hs : s.number < a.index.count) :
    (a.pushed n).signature? s = a.signature? s := by
  obtain ⟨m, hm⟩ := exists_node?_of_lt (ha.count_eq ▸ hs)
  rw [signature?, signature?, node?_pushed, if_neg (ne_freshId_of_node? hm)]

theorem Indexed.freshId_eq (ha : a.Indexed) : a.freshId = ⟨a.index.count⟩ :=
  congrArg StateId.mk ha.count_eq.symm

/-- Before the new node is filed, the index holds the others, by the signatures of all. -/
theorem Indexed.holds_before (ha : a.Indexed) (n : Node) :
    a.index.Holds (a.pushed n).signature? a.index.count := by
  have hx : a.index.Holds a.signature? a.index.count := ha.count_eq.symm ▸ ha.holds
  exact hx.congr fun s hs => ha.signature?_pushed n hs

theorem Indexed.holds_pushed (ha : a.Indexed) (n : Node) :
    (a.pushed n).index.Holds (a.pushed n).signature? (a.pushed n).size := by
  have hsize : (a.pushed n).size = a.index.count + 1 := by
    rw [ha.count_eq]
    exact Array.size_push ..
  have hk := signature?_pushed_freshId a n
  rw [ha.freshId_eq] at hk
  rw [hsize]
  show (a.index.inserted (a.pushed n).signature? n.signature a.freshId).Holds _ _
  rw [ha.freshId_eq]
  refine (ha.holds_before n).inserted (fun s hs => ?_) hk
  rw [ha.signature?_pushed n hs]
  exact ha.isSome_signature? hs

/-- A node may be added if no state has its signature. -/
theorem Indexed.pushed (ha : a.Indexed) {n : Node} (hf : a.find? n.signature = none) :
    (a.pushed n).Indexed := by
  refine ⟨?_, ha.holds_pushed n, fun {s t m m'} hs ht hk => ?_⟩
  · show a.index.count + 1 = (a.nodes.push n).size
    rw [ha.count_eq, Array.size_push, size]
  · rw [node?_pushed] at hs ht
    split at hs
    next hs' =>
      cases hs
      split at ht
      next ht' => rw [hs', ht']
      next => exact absurd hk.symm (ha.ne_of_find? hf ht)
    next =>
      split at ht
      next => cases ht; exact absurd hk (ha.ne_of_find? hf hs)
      next => exact ha.distinct hs ht hk

/-- Adding a state whose signature is its own. -/
theorem Indexed.interned_of_add (ha : a.Indexed) {g : Grammar} {candidate : State} {b : Automaton}
    (h : a.add g candidate (a.signatureFor candidate) s = .ok b) :
    Interned g a candidate s b := by
  obtain ⟨rfl, hf, rfl⟩ := add_eq_ok h
  refine ⟨rfl, ha.pushed hf, ⟨_, by rw [node?_pushed, if_pos rfl], rfl⟩, fun {s n} hn => ?_,
    fun {s n} hn => ?_⟩
  · rw [node?_pushed, if_neg (ne_freshId_of_node? hn)]
    exact hn
  · rw [node?_pushed] at hn
    split at hn
    next hs => exact .inr ⟨hs, by rw [hs]; exact Nat.le_refl _, (Option.some.inj hn).symm⟩
    next => exact .inl hn

theorem Indexed.interned_of_intern (ha : a.Indexed) {g : Grammar} {candidate : State}
    {u : Update Automaton} (h : a.intern g candidate = .ok (t, u)) :
    Interned g a candidate t u.value := by
  simp only [intern] at h
  split at h
  next s hs =>
    cases h
    exact ⟨rfl, ha, exists_node?_of_find? hs, id, .inl⟩
  next hn =>
    cases hb : a.add g candidate (a.signatureFor candidate) a.freshId with
    | error e => rw [hb] at h; cases h
    | ok b =>
      rw [hb] at h
      cases h
      exact ha.interned_of_add hb

theorem Interned.grows {g : Grammar} {candidate : State} {b : Automaton}
    (h : Interned g a candidate t b) : a.Grows b :=
  fun _ n hn => ⟨n.transitions, h.old hn, fun _ _ => id⟩

end

/-! ## Adding a transition -/

/-- `b` is `a` with a transition from `s` to `t` on `X`. -/
structure Linked (a : Automaton) (s : StateId) (X : Symbol) (t : StateId) (b : Automaton) :
    Prop where
  method_eq : b.method = a.method
  index_eq : b.index = a.index
  size_eq : b.size = a.size
  grows : a.Grows b
  goto?_eq : b.goto? s X = some t
  back {r : StateId} {m : Node} : b.node? r = some m → ∃ tr : Transitions,
    a.node? r = some { m with transitions := tr } ∧
      ∀ Y q, m.transitions.target? Y = some q → tr.target? Y = some q ∨ r = s ∧ Y = X ∧ q = t

theorem node?_setIfInBounds {n : Node} (h : a.node? s = some n) (m : Node) (r : StateId) :
    (⟨a.method, a.nodes.setIfInBounds s.number m, a.index⟩ : Automaton).node? r =
      if r = s then some m else a.node? r := by
  obtain ⟨i⟩ := r
  obtain ⟨j⟩ := s
  have hj := lt_size_of_node? h
  unfold size at hj
  simp only [node?, Array.getElem?_setIfInBounds, StateId.mk.injEq, hj, if_true, eq_comm]

theorem eq_of_insert {tr : Transitions} {u : Update Transitions} (h : tr.insert X t = .ok u)
    {q : StateId} (hq : tr.target? X = some q) : q = t := by
  rcases Transitions.insert_eq_ok_iff.mp h with ⟨hn, -⟩ | ⟨ht, -⟩
  · cases hq.symm.trans hn
  · exact Option.some.inj (hq.symm.trans ht)

theorem linked_of_addTransition {u : Update Automaton} (h : a.addTransition s X t = .ok u) :
    Linked a s X t u.value := by
  unfold addTransition at h
  split at h <;> [cases h; skip]
  obtain ⟨n, hn, v, hv, rfl⟩ : ∃ n, a.node? s = some n ∧ ∃ v, n.transitions.insert X t = .ok v ∧
      u = ⟨⟨a.method, a.nodes.setIfInBounds s.number { n with transitions := v.value }, a.index⟩,
        v.changed⟩ := by
    obtain ⟨n, hn, h⟩ := bind_eq_ok.mp h
    obtain ⟨v, hv, h⟩ := bind_eq_ok.mp h
    exact ⟨n, node_eq_ok.mp hn, v, hv, (Except.ok.inj h).symm⟩
  have node := node?_setIfInBounds hn { n with transitions := v.value }
  have target := Transitions.target?_insert hv
  refine ⟨rfl, rfl, Array.size_setIfInBounds .., fun r m hm => ?_, ?_, fun {r m} hm => ?_⟩
  · by_cases hr : r = s
    · obtain rfl : n = m := Option.some.inj (hn.symm.trans (hr ▸ hm))
      refine ⟨v.value, by rw [node, if_pos hr], fun Y q hq => ?_⟩
      rw [target]
      split
      next hY =>
        subst hY
        rw [eq_of_insert hv hq]
      next => exact hq
    · exact ⟨m.transitions, by rw [node, if_neg hr]; exact hm, fun _ _ => id⟩
  · rw [goto?, node, if_pos rfl, Option.bind_some, target, if_pos rfl]
  · rw [node] at hm
    split at hm
    next hr =>
      cases hm
      refine ⟨n.transitions, hr ▸ hn, fun Y q hq => ?_⟩
      rw [target] at hq
      split at hq
      next hY => exact .inr ⟨hr, hY.symm, (Option.some.inj hq).symm⟩
      next => exact .inl hq
    next => exact ⟨m.transitions, hm, fun _ _ => .inl⟩

theorem Linked.indexed [WordHash] {b : Automaton} (h : Linked a s X t b) (ha : a.Indexed) :
    b.Indexed := by
  refine ha.congr h.index_eq h.size_eq (funext fun r => ?_)
  rw [signature?, signature?]
  cases hm : b.node? r with
  | some m =>
    obtain ⟨tr, hn, -⟩ := h.back hm
    rw [hn]
    rfl
  | none =>
    cases hn : a.node? r with
    | none => rfl
    | some n =>
      obtain ⟨tr, hm', -⟩ := h.grows r n hn
      rw [hm] at hm'
      cases hm'

end

end Automaton

end LRAutomata

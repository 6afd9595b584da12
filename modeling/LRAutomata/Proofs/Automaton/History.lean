import LRAutomata.Proofs.Automaton.Basic
import Mathlib.Algebra.Group.Nat.Defs

/-!
# The index after any calls

An automaton without states, some calls that add states and transitions to it, those that are
refused left out: whatever the calls were and whatever the hash is, looking a signature up in the
buckets is as good as comparing it with the signatures of all states in turn.

* `Automaton.Filed`: what every call keeps (`Filed.of_call`), and so any calls (`Filed.after`);
* `Searchable`: what the calls and the index promise in terms of the states alone;
* `searchable_after`: any calls keep this promise, and later calls take nothing back.
-/

namespace LRAutomata

namespace Automaton

/-- A call that adds to an automaton: a candidate, under the signature that the automaton gives it,
or a transition. -/
inductive Call where
  | add (g : Grammar) (candidate : State) (s : StateId)
  | addTransition (source : StateId) (X : Symbol) (target : StateId)

section

variable {a b : Automaton} {s t : StateId} {X : Symbol}

theorem mem_stateIds : s ∈ a.stateIds ↔ ∃ n, a.node? s = some n := by
  rw [stateIds, List.mem_map]
  constructor
  · rintro ⟨i, hi, rfl⟩
    exact exists_node?_of_lt (List.mem_range.mp hi)
  · rintro ⟨n, hn⟩
    exact ⟨s.number, List.mem_range.mpr (lt_size_of_node? hn), rfl⟩

theorem successors_eq_error_iff {g : Grammar} {items : Items} :
    (∃ f, items.successors g = .error f) ↔
      ∃ i ∈ items.toList, g.production? i.core.production = none := by
  rw [Items.successors, Items.requireDeclared]
  cases hi : items.toList.find? fun i => (g.production? i.core.production).isNone with
  | none =>
    simpa [bind, Except.bind, pure, Except.pure, Option.isSome_iff_ne_none] using hi
  | some i =>
    refine ⟨fun _ => ⟨i, List.mem_of_find?_eq_some hi, ?_⟩, fun _ => ⟨_, rfl⟩⟩
    simpa using List.find?_some hi

variable [WordHash]

/-- The automaton that a call leads to, if it is not refused. -/
def call (a : Automaton) : Call → Except Fault Automaton
  | .add g candidate s => a.add g candidate (a.signatureFor candidate) s
  | .addTransition source X target => (a.addTransition source X target).map Update.value

/-- The automaton after some calls, each of which changes nothing if it is refused. -/
def after (a : Automaton) (calls : List Call) : Automaton :=
  calls.foldl (fun a c => (a.call c).toOption.getD a) a

/-! ## What calls keep -/

/-- Every state is filed once, under the signature of its own items, and there is at least one
bucket for each state. -/
structure Filed (a : Automaton) : Prop extends a.Indexed where
  repeatless : a.index.Repeatless
  signature_eq {s : StateId} {n : Node} : a.node? s = some n →
    n.signature = a.signatureFor n.toState
  doublings : ∃ j, a.index.buckets.size = 64 * 2 ^ j
  room : a.size ≤ a.index.buckets.size

theorem filed_empty (method : Method) : (empty method).Filed where
  toIndexed := indexed_empty method
  repeatless := SignatureIndex.repeatless_replicate 64 0
  signature_eq h := by simp [empty, node?] at h
  doublings := ⟨0, Array.size_replicate⟩
  room := Nat.zero_le _

/-- Adding a node under the signature of its items, which no state has yet. -/
theorem Filed.pushed (ha : a.Filed) {n : Node} (hf : a.find? n.signature = none)
    (hn : n.signature = a.signatureFor n.toState) : (a.pushed n).Filed := by
  have hbuckets : (a.pushed n).index.buckets.size =
      if a.index.buckets.size ≤ a.size then 2 * a.index.buckets.size
      else a.index.buckets.size := by
    rw [← ha.count_eq]
    exact SignatureIndex.size_buckets_inserted
  refine ⟨ha.toIndexed.pushed hf, ?_, fun {s m} hm => ?_, ?_, ?_⟩
  · show (a.index.inserted (a.pushed n).signature? n.signature a.freshId).Repeatless
    rw [ha.freshId_eq]
    refine (ha.holds_before n).repeatless_inserted ha.repeatless (fun s hs => ?_) n.signature
    rw [ha.signature?_pushed n hs]
    exact ha.isSome_signature? hs
  · rw [node?_pushed] at hm
    split at hm
    · cases hm
      exact hn
    · exact ha.signature_eq hm
  · obtain ⟨j, hj⟩ := ha.doublings
    rw [hbuckets]
    split
    · exact ⟨j + 1, by rw [hj, Nat.pow_succ]; omega⟩
    · exact ⟨j, hj⟩
  · have hsize : (a.pushed n).size = a.size + 1 := Array.size_push ..
    have hpos := ha.holds.pos
    have hroom := ha.room
    rw [hbuckets, hsize]
    split <;> omega

/-- A transition changes neither the index nor a signature. -/
theorem Linked.filed (h : Linked a s X t b) (ha : a.Filed) : b.Filed where
  toIndexed := h.indexed ha.toIndexed
  repeatless := h.index_eq ▸ ha.repeatless
  signature_eq {r m} hm := by
    obtain ⟨tr, hn, -⟩ := h.back hm
    have hk := ha.signature_eq hn
    rw [signatureFor, h.method_eq]
    exact hk
  doublings := h.index_eq ▸ ha.doublings
  room := by
    rw [h.size_eq, h.index_eq]
    exact ha.room

theorem Filed.of_call (ha : a.Filed) {c : Call} (h : a.call c = .ok b) : b.Filed ∧ a.Grows b := by
  cases c with
  | add g candidate s =>
    obtain ⟨rfl, hf, rfl⟩ := add_eq_ok h
    exact ⟨ha.pushed hf rfl, (ha.toIndexed.interned_of_add h).grows⟩
  | addTransition source X target =>
    cases hu : a.addTransition source X target with
    | error f => rw [call, hu] at h; cases h
    | ok u =>
      rw [call, hu] at h
      cases h
      have hl := linked_of_addTransition hu
      exact ⟨hl.filed ha, hl.grows⟩

theorem Filed.after (ha : a.Filed) (calls : List Call) :
    (a.after calls).Filed ∧ a.Grows (a.after calls) := by
  induction calls generalizing a with
  | nil => exact ⟨ha, .refl a⟩
  | cons c calls ih =>
    rw [Automaton.after, List.foldl_cons]
    cases h : a.call c with
    | error f => exact ih ha
    | ok b =>
      obtain ⟨hb, hab⟩ := ha.of_call h
      obtain ⟨hc, hbc⟩ := ih hb
      exact ⟨hc, hab.trans hbc⟩

theorem Indexed.find?_eq_some_iff (ha : a.Indexed) {k : Signature} :
    a.find? k = some s ↔ ∃ n, a.node? s = some n ∧ n.signature = k := by
  refine ⟨exists_node?_of_find?, ?_⟩
  rintro ⟨n, hn, rfl⟩
  exact ha.find?_eq hn

theorem Indexed.add_eq_error_iff (ha : a.Indexed) {g : Grammar} {candidate : State}
    {k : Signature} : (∃ f, a.add g candidate k s = .error f) ↔
      s ≠ a.freshId ∨ (∃ t n, a.node? t = some n ∧ n.signature = k) ∨
        ∃ i ∈ candidate.items.toList, g.production? i.core.production = none := by
  have htaken : (a.find? k).isSome = true ↔ ∃ t n, a.node? t = some n ∧ n.signature = k := by
    rw [Option.isSome_iff_exists]
    exact exists_congr fun t => ha.find?_eq_some_iff
  by_cases hs : s = a.freshId
  · cases hk : a.find? k with
    | some t =>
      refine ⟨fun _ => .inr (.inl (htaken.mp (by rw [hk]; rfl))), fun _ => ⟨.duplicateState s, ?_⟩⟩
      rw [add, if_neg (not_not_intro hs), hk]
      rfl
    | none =>
      have hfree : ¬∃ t n, a.node? t = some n ∧ n.signature = k := by
        rw [← htaken, hk]
        simp
      rw [or_iff_right (not_not_intro hs), or_iff_right hfree, ← successors_eq_error_iff, hs,
        add_freshId hk]
      cases candidate.items.successors g <;> simp [Except.map]
  · exact ⟨fun _ => .inl hs, fun _ => ⟨.outOfSequence s, if_pos hs⟩⟩

/-! ## What the index promises -/

/-- What adding and looking up do, told without the index, and where the buckets have the states.
-/
structure Searchable (a : Automaton) : Prop where
  /-- A candidate is refused if its number is not the next one, if its signature is taken or if
  one of its productions does not exist, and for no other reason. -/
  refuses_iff (g : Grammar) (candidate : State) (s : StateId) :
    (∃ f, a.call (.add g candidate s) = .error f) ↔ s ≠ a.freshId ∨
      (∃ t n, a.node? t = some n ∧ n.signature = a.signatureFor candidate) ∨
      ∃ i ∈ candidate.items.toList, g.production? i.core.production = none
  /-- A candidate that is not refused becomes the state of that number, and the only new one. -/
  commits {g : Grammar} {candidate : State} {s : StateId} {b : Automaton} :
    a.call (.add g candidate s) = .ok b → ∀ t n, b.node? t = some n ↔
      a.node? t = some n ∨ t = s ∧ n = nodeOf g candidate (a.signatureFor candidate)
  /-- Every state is known by the signature of its own items. -/
  signature_eq {s : StateId} {n : Node} : a.node? s = some n →
    n.signature = a.signatureFor n.toState
  /-- No two states have the same signature. -/
  distinct {s t : StateId} {n m : Node} : a.node? s = some n → a.node? t = some m →
    n.signature = m.signature → s = t
  /-- A signature is found where a state has it, and nowhere else. -/
  find?_eq_some_iff (k : Signature) (s : StateId) :
    a.find? k = some s ↔ ∃ n, a.node? s = some n ∧ n.signature = k
  /-- Looking up in one bucket does what comparing with all states in turn does. -/
  find?_eq (k : Signature) :
    a.find? k = a.stateIds.find? fun s => a.signature? s = some k
  /-- The buckets hold the numbers of the states and no other ones, each of them once. -/
  filed : a.index.buckets.toList.flatten.Perm a.stateIds
  /-- A bucket has the states whose signatures belong there among that many buckets. -/
  mem_bucket_iff {slot : Nat} {bucket : List StateId} : a.index.buckets[slot]? = some bucket →
    ∀ s, s ∈ bucket ↔ ∃ n, a.node? s = some n ∧
      n.signature.bucket a.index.buckets.size = .ok (slot + 1)
  /-- The buckets have been doubled a number of times, so that they are not fewer than the
  states. -/
  doublings : ∃ j, a.index.buckets.size = 64 * 2 ^ j
  room : a.size ≤ a.index.buckets.size

theorem Indexed.find?_eq_scan (ha : a.Indexed) (k : Signature) :
    a.find? k = a.stateIds.find? fun s => a.signature? s = some k := by
  refine Option.ext fun s => ?_
  rw [ha.find?_eq_some_iff]
  constructor
  · rintro ⟨n, hn, rfl⟩
    have hs : a.signature? s = some n.signature := signature?_eq_some_iff.mpr ⟨n, hn, rfl⟩
    cases hf : a.stateIds.find? fun t => a.signature? t = some n.signature with
    | none => simpa [hs] using List.find?_eq_none.mp hf s (mem_stateIds.mpr ⟨n, hn⟩)
    | some t =>
      obtain ⟨m, hm, hk⟩ := signature?_eq_some_iff.mp (by simpa using List.find?_some hf)
      rw [ha.distinct hm hn hk]
  · intro hf
    exact signature?_eq_some_iff.mp (by simpa using List.find?_some hf)

theorem node?_of_call_add {g : Grammar} {candidate : State}
    (h : a.call (.add g candidate s) = .ok b) (t : StateId) (n : Node) : b.node? t = some n ↔
      a.node? t = some n ∨ t = s ∧ n = nodeOf g candidate (a.signatureFor candidate) := by
  obtain ⟨rfl, -, rfl⟩ := add_eq_ok h
  rw [node?_pushed]
  split
  next ht =>
    rw [Option.some.injEq, eq_comm]
    exact ⟨fun he => .inr ⟨ht, he⟩,
      fun h => (h.resolve_left fun hn => ne_freshId_of_node? hn ht).2⟩
  next ht => exact ⟨.inl, fun h => h.resolve_right fun h => ht h.1⟩

theorem Filed.mem_bucket_iff (ha : a.Filed) {slot : Nat} {bucket : List StateId}
    (hb : a.index.buckets[slot]? = some bucket) (s : StateId) : s ∈ bucket ↔
      ∃ n, a.node? s = some n ∧ n.signature.bucket a.index.buckets.size = .ok (slot + 1) := by
  have hbucket (k : Signature) :
      k.bucket a.index.buckets.size = .ok (k.slot a.index.buckets.size + 1) :=
    if_neg (Nat.ne_of_gt ha.holds.pos)
  rw [ha.holds.mem_iff hb s]
  constructor
  · rintro ⟨-, k, hk, hslot⟩
    obtain ⟨n, hn, rfl⟩ := signature?_eq_some_iff.mp hk
    exact ⟨n, hn, by rw [hbucket, hslot]⟩
  · rintro ⟨n, hn, hslot⟩
    rw [hbucket] at hslot
    exact ⟨lt_size_of_node? hn, _, signature?_eq_some_iff.mpr ⟨n, hn, rfl⟩,
      Nat.succ.inj (Except.ok.inj hslot)⟩

theorem Filed.searchable (ha : a.Filed) : a.Searchable where
  refuses_iff _ _ _ := ha.add_eq_error_iff
  commits := node?_of_call_add
  signature_eq := ha.signature_eq
  distinct := ha.distinct
  find?_eq_some_iff _ _ := ha.find?_eq_some_iff
  find?_eq := ha.find?_eq_scan
  filed := ha.holds.flatten_perm ha.repeatless fun s hs => by
    obtain ⟨n, hn⟩ := exists_node?_of_lt hs
    rw [signature?, hn]
    rfl
  mem_bucket_iff := ha.mem_bucket_iff
  doublings := ha.doublings
  room := ha.room

end

/-- Whatever calls were made on an automaton without states and however words are hashed, the index
has every state where it belongs, and what more calls do leaves the numbers, items and signatures
of the states as they are. -/
theorem searchable_after [WordHash] (method : Method) (calls : List Call) :
    ((empty method).after calls).Searchable ∧ ∀ more,
      ((empty method).after calls).Grows ((empty method).after (calls ++ more)) := by
  have ha := ((filed_empty method).after calls).1
  refine ⟨ha.searchable, fun more => ?_⟩
  rw [show (empty method).after (calls ++ more) = ((empty method).after calls).after more from
    List.foldl_append]
  exact (ha.after more).2

end Automaton

end LRAutomata

import LRAutomata.Automaton.Generate
import LRAutomata.Proofs.Automaton.Basic
import LRAutomata.Proofs.Item.Closure
import LRAutomata.Proofs.Signature

/-!
# What exploring finds

* `Generator.Explored`: how the states found so far came about, an invariant of exploring;
* `Explored.step`: following one symbol keeps the invariant and adds the transition;
* `Generator.Finished`: every state leads somewhere on every symbol after one of its dots;
* `explored_of_explore`: exploring ends only when this is so.
-/

namespace LRAutomata

namespace Generator

variable {e : Generator} {a b : Automaton} {s t : StateId} {n : Node} {X : Symbol}

theorem mem_cores_startItems {c : Core} :
    c ∈ startItems.cores ↔ c = ⟨ProductionId.accept, 0⟩ := Items.mem_cores_singleton

theorem has_startItems {c : Core} {t : Terminal} :
    startItems.Has c t ↔ c = ⟨ProductionId.accept, 0⟩ ∧ t = Terminal.endOfInput :=
  Items.has_singleton (by decide)

/-- The items with their lookaheads, if the method counts these. -/
def mask (e : Generator) (kernel : Items) : Items :=
  if e.options.method.countsLookaheads then kernel else kernel.withoutLookaheads

/-- The closed items that `items` lead to on `X`. -/
def target (e : Generator) (items : Items) (X : Symbol) : Items :=
  (e.mask (items.shifted e.grammar X)).closed e.grammar e.first

theorem close_eq_ok {g : Grammar} {f : FirstSets} {items : Items} {candidate : State}
    (h : (State.ofItems items).close g f = .ok candidate) :
    candidate = .ofItems (items.closed g f) := by
  obtain ⟨k, hk, h⟩ := bind_eq_ok.mp h
  cases h
  rw [Items.close_eq_ok hk]
  rfl

theorem successor_eq_ok {items : Items} {candidate : State}
    (h : e.successor items X = .ok candidate) : candidate = .ofItems (e.target items X) ∧
      ∀ c ∈ items.cores, e.grammar.next? c = some X → c.dot ≠ Core.lastDot := by
  obtain ⟨k, hk, h⟩ := bind_eq_ok.mp h
  obtain ⟨rfl, hd⟩ := Items.shift_eq_ok hk
  exact ⟨close_eq_ok h, hd⟩

/-! ## The invariant -/

/-- Every state lies at the end of a path. -/
def Reached (a : Automaton) : Prop := ∀ s n, a.node? s = some n → ∃ path, a.walk? path = some s

/-- The states before number `k` lead somewhere on every symbol after one of their dots. -/
def Finished (a : Automaton) (k : Nat) : Prop :=
  ∀ s n, s.number < k → a.node? s = some n → ∀ X ∈ n.successors, (a.goto? s X).isSome

theorem finished_zero (a : Automaton) : Finished a 0 :=
  fun _ _ hs => absurd hs (Nat.not_lt_zero _)

theorem signatureFor_congr (h : b.method = a.method) (candidate : State) :
    b.signatureFor candidate = a.signatureFor candidate := by
  rw [Automaton.signatureFor, h, Automaton.signatureFor]

variable [WordHash]

/-- The first state is the closed start item, the index is right, every node is annotated rightly,
and every transition leads to the state that its source and its symbol determine. -/
structure Explored (e : Generator) (a : Automaton) : Prop where
  method_eq : a.method = e.options.method
  indexed : a.Indexed
  start : ∃ n, a.node? StateId.initial = some n ∧
    n.items = startItems.closed e.grammar e.first
  node {s : StateId} {n : Node} : a.node? s = some n →
    n.signature = a.signatureFor n.toState ∧ n.successors = n.items.nextSymbols e.grammar
  edge {s t : StateId} {n : Node} {X : Symbol} : a.node? s = some n →
    n.transitions.target? X = some t → X ∈ n.successors ∧ ∃ candidate m,
      e.successor n.items X = .ok candidate ∧ a.node? t = some m ∧
        m.signature = a.signatureFor candidate

/-- A state that some symbol leads to may be added. -/
theorem Explored.interned (ha : e.Explored a) {items : Items} {candidate : State}
    (hc : e.successor items X = .ok candidate)
    (hb : Automaton.Interned e.grammar a candidate t b) : e.Explored b := by
  have sig := signatureFor_congr hb.method_eq
  refine ⟨hb.method_eq.trans ha.method_eq, hb.indexed, ?_, fun hn => ?_, fun hn hX => ?_⟩
  · obtain ⟨n, hn, h⟩ := ha.start
    exact ⟨n, hb.old hn, h⟩
  · rcases hb.cases hn with hn | ⟨-, -, rfl⟩
    · rw [sig]; exact ha.node hn
    · exact ⟨(sig _).symm, rfl⟩
  · rcases hb.cases hn with hn | ⟨-, -, rfl⟩
    · obtain ⟨hX, candidate, m, hc, hm, hk⟩ := ha.edge hn hX
      exact ⟨hX, candidate, m, hc, hb.old hm, by rw [sig, hk]⟩
    · -- a new state has no transitions yet
      rw [(successor_eq_ok hc).1] at hX
      cases hX

/-- The transition on the symbol to the state that it leads to may be added. -/
theorem Explored.linked (ha : e.Explored a) (hn : a.node? s = some n) (hX : X ∈ n.successors)
    {candidate : State} (hc : e.successor n.items X = .ok candidate)
    (ht : ∃ m, a.node? t = some m ∧ m.signature = a.signatureFor candidate)
    (hb : Automaton.Linked a s X t b) : e.Explored b := by
  have sig := signatureFor_congr hb.method_eq
  have kept : ∀ {t k}, (∃ m, a.node? t = some m ∧ m.signature = k) →
      ∃ m, b.node? t = some m ∧ m.signature = k := by
    rintro t _ ⟨m, hm, rfl⟩
    obtain ⟨tr, hm, -⟩ := hb.grows t m hm
    exact ⟨_, hm, rfl⟩
  refine ⟨hb.method_eq.trans ha.method_eq, hb.indexed ha.indexed, ?_, fun hm => ?_,
    fun {r q m Y} hm hq => ?_⟩
  · obtain ⟨n, hn, h⟩ := ha.start
    obtain ⟨tr, hm, -⟩ := hb.grows _ n hn
    exact ⟨_, hm, h⟩
  · obtain ⟨tr, hm, -⟩ := hb.back hm
    obtain ⟨hk, hs⟩ := ha.node hm
    exact ⟨by rw [sig]; exact hk, hs⟩
  · obtain ⟨tr, hm, old⟩ := hb.back hm
    rcases old Y q hq with hq | ⟨rfl, rfl, rfl⟩
    · obtain ⟨hY, candidate, m', hc, hm', hk⟩ := ha.edge hm hq
      obtain ⟨m'', hm'', hk'⟩ := kept ⟨m', hm', hk⟩
      exact ⟨hY, candidate, m'', hc, hm'', by rw [sig, hk']⟩
    · obtain rfl : n = _ := Option.mem_unique hn hm
      obtain ⟨m', hm', hk⟩ := kept ht
      exact ⟨hX, candidate, m', hc, hm', by rw [sig, hk]⟩

theorem step_eq_ok (ha : a.Indexed) (h : e.step s a X = .ok b) :
    ∃ n candidate t c, a.node? s = some n ∧ e.successor n.items X = .ok candidate ∧
      Automaton.Interned e.grammar a candidate t c ∧ Automaton.Linked c s X t b := by
  obtain ⟨n, hn, h⟩ := bind_eq_ok.mp h
  obtain ⟨candidate, hc, h⟩ := bind_eq_ok.mp h
  obtain ⟨⟨t, u⟩, hi, h⟩ := bind_eq_ok.mp h
  obtain ⟨v, hv, h⟩ := bind_eq_ok.mp h
  cases h
  exact ⟨n, candidate, t, u.value, Automaton.node_eq_ok.mp hn, hc, ha.interned_of_intern hi,
    Automaton.linked_of_addTransition hv⟩

/-- Following a symbol keeps what was found, and the symbol leads somewhere afterwards. -/
theorem Explored.step (ha : e.Explored a) (hr : Reached a) (hn : a.node? s = some n)
    (hX : X ∈ n.successors) (h : e.step s a X = .ok b) :
    e.Explored b ∧ Reached b ∧ a.Grows b ∧ (b.goto? s X).isSome := by
  obtain ⟨n', candidate, t, c, hn', hc, hi, hl⟩ := step_eq_ok ha.indexed h
  obtain rfl : n = n' := Option.mem_unique hn hn'
  have grows : a.Grows b := hi.grows.trans hl.grows
  have target : ∃ m, c.node? t = some m ∧ m.signature = c.signatureFor candidate := by
    rw [signatureFor_congr hi.method_eq]
    exact hi.target
  refine ⟨(ha.interned hc hi).linked (hi.old hn) hX hc target hl, fun r m hm => ?_, grows,
    by rw [hl.goto?_eq]; rfl⟩
  obtain ⟨tr, hm, -⟩ := hl.back hm
  rcases hi.cases hm with hm | ⟨rfl, -, -⟩
  · obtain ⟨path, hp⟩ := hr r _ hm
    exact ⟨path, grows.walk? hp⟩
  · obtain ⟨path, hp⟩ := hr s n hn
    exact ⟨path ++ [X], Automaton.walk?_concat_eq_some.mpr ⟨s, grows.walk? hp, hl.goto?_eq⟩⟩

theorem Explored.foldlM_step {Xs : List Symbol} (ha : e.Explored a) (hr : Reached a)
    (hn : a.node? s = some n) (hX : ∀ X ∈ Xs, X ∈ n.successors)
    (h : Xs.foldlM (e.step s) a = .ok b) :
    e.Explored b ∧ Reached b ∧ a.Grows b ∧ ∀ X ∈ Xs, (b.goto? s X).isSome := by
  induction Xs generalizing a n with
  | nil =>
    cases h
    exact ⟨ha, hr, .refl _, fun X hX => absurd hX List.not_mem_nil⟩
  | cons X Xs ih =>
    rw [List.foldlM_cons] at h
    obtain ⟨c, hc, h⟩ := bind_eq_ok.mp h
    obtain ⟨hX, hXs⟩ := List.forall_mem_cons.mp hX
    obtain ⟨ec, rc, gc, hg⟩ := ha.step hr hn hX hc
    obtain ⟨tr, hm, -⟩ := gc s n hn
    obtain ⟨eb, rb, gb, hgs⟩ := ih ec rc hm hXs h
    refine ⟨eb, rb, gc.trans gb, List.forall_mem_cons.mpr ⟨?_, hgs⟩⟩
    obtain ⟨t, ht⟩ := Option.isSome_iff_exists.mp hg
    rw [gb.goto? ht]
    rfl

theorem Explored.visit {k : Nat} (ha : e.Explored a) (hr : Reached a) (hf : Finished a k)
    (hk : k < a.size) (h : e.visit a ⟨k⟩ = .ok b) :
    e.Explored b ∧ Reached b ∧ Finished b (k + 1) := by
  obtain ⟨n, hn, h⟩ := bind_eq_ok.mp h
  rw [Automaton.node_eq_ok] at hn
  obtain ⟨eb, rb, grows, hg⟩ := ha.foldlM_step hr hn (fun _ => id) h
  refine ⟨eb, rb, fun s m hs hm X hX => ?_⟩
  obtain ⟨n', hn'⟩ := Automaton.exists_node?_of_lt (a := a) (s := s) (by omega)
  obtain ⟨tr, hm', -⟩ := grows s n' hn'
  obtain rfl : _ = m := Option.mem_unique hm' hm
  by_cases hsk : s.number < k
  · obtain ⟨t, ht⟩ := Option.isSome_iff_exists.mp (hf s n' hsk hn' X hX)
    rw [grows.goto? ht]
    rfl
  · obtain rfl : s = ⟨k⟩ := by
      obtain ⟨i⟩ := s
      rw [show i = k by simp only at hs hsk; omega]
    obtain rfl : n = n' := Option.mem_unique hn hn'
    exact hg X hX

theorem Explored.grows_visit (ha : e.Explored a) (hr : Reached a) (h : e.visit a s = .ok b) :
    a.Grows b := by
  obtain ⟨n, hn, h⟩ := bind_eq_ok.mp h
  exact (ha.foldlM_step hr (Automaton.node_eq_ok.mp hn) (fun _ => id) h).2.2.1

/-- Exploring ends when there is no state left to visit. -/
theorem Explored.explore (budget : Nat) {k : Nat} (ha : e.Explored a) (hr : Reached a)
    (hf : Finished a k) (h : e.explore budget k a = .ok b) :
    e.Explored b ∧ Reached b ∧ Finished b b.size := by
  induction budget generalizing k a with
  | zero =>
    simp only [Generator.explore] at h
    split at h <;> [cases h; skip]
    next hk =>
      cases h
      exact ⟨ha, hr, fun s n hs => hf s n (by omega)⟩
  | succ budget ih =>
    simp only [Generator.explore] at h
    split at h
    next hk =>
      obtain ⟨c, hc, h⟩ := bind_eq_ok.mp h
      obtain ⟨ec, rc, fc⟩ := ha.visit hr hf hk hc
      exact ih ec rc fc h
    next hk =>
      cases h
      exact ⟨ha, hr, fun s n hs => hf s n (by omega)⟩

theorem explored_of_start (h : e.start = .ok a) : e.Explored a ∧ Reached a := by
  obtain ⟨candidate, hc, h⟩ := bind_eq_ok.mp h
  obtain rfl := close_eq_ok hc
  have hi := (Automaton.indexed_empty e.options.method).interned_of_add h
  have none : ∀ {s n}, (Automaton.empty e.options.method).node? s ≠ some n := by
    simp [Automaton.empty, Automaton.node?]
  have only : ∀ {s n}, a.node? s = some n → s = StateId.initial ∧
      n = Automaton.nodeOf e.grammar (.ofItems (startItems.closed e.grammar e.first))
        (a.signatureFor (.ofItems (startItems.closed e.grammar e.first))) := by
    intro s n hn
    rcases hi.cases hn with hn | ⟨hs, -, hn⟩
    · exact absurd hn none
    · exact ⟨hs, by rw [hn, signatureFor_congr hi.method_eq]⟩
  obtain ⟨m, hm, -⟩ := hi.target
  refine ⟨⟨hi.method_eq, hi.indexed, ⟨m, hm, ?_⟩, fun hn => ?_, fun hn hX => ?_⟩, fun s n hn => ?_⟩
  · rw [(only hm).2]
    rfl
  · obtain ⟨-, rfl⟩ := only hn
    exact ⟨rfl, rfl⟩
  · obtain ⟨-, rfl⟩ := only hn
    cases hX
  · exact ⟨[], by rw [(only hn).1]; rfl⟩

/-- What generating has found before it looks for lookaheads. -/
theorem explored_of_explore {budget : Nat} (hs : e.start = .ok a)
    (h : e.explore budget 0 a = .ok b) : e.Explored b ∧ Reached b ∧ Finished b b.size := by
  obtain ⟨ea, ra⟩ := explored_of_start hs
  exact ea.explore budget ra (finished_zero a) h

end Generator

end LRAutomata

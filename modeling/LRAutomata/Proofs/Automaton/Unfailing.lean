import LRAutomata.Proofs.Automaton.Viable

/-!
# What exploring can fail by

The only thing that stops exploring is a dot that would have to move beyond the last place it can
have, so that the production is too long, or the limit on the number of states.

* `FailsOnly`: what the faults of a computation can be, with `FailsOnly.bind`;
* `Grammar.TooLong`: a production in use that a dot cannot run through;
* `Explored.failsOnly_step`: following a symbol fails by such productions only;
* `Explored.failsOnly_visit`: so does following all symbols of a state.
-/

namespace LRAutomata

section

variable {α β : Type} {F G : Fault → Prop} {x : Except Fault α} {k : α → Except Fault β}

/-- If there is a fault, it is one of these. -/
def FailsOnly (F : Fault → Prop) (x : Except Fault α) : Prop := ∀ f, x = .error f → F f

theorem failsOnly_ok (F : Fault → Prop) (a : α) : FailsOnly F (.ok a : Except Fault α) := by
  intro f h
  cases h

theorem failsOnly_of_exists (F : Fault → Prop) (h : ∃ a, x = .ok a) : FailsOnly F x := by
  obtain ⟨a, rfl⟩ := h
  exact failsOnly_ok F a

theorem FailsOnly.mono (h : FailsOnly F x) (hFG : ∀ f, F f → G f) : FailsOnly G x :=
  fun f hf => hFG f (h f hf)

theorem FailsOnly.bind (h : FailsOnly F x) (hk : ∀ a, x = .ok a → FailsOnly F (k a)) :
    FailsOnly F (x >>= k) := by
  cases x with
  | error e =>
    intro f hf
    obtain rfl : e = f := Except.error.inj hf
    exact h e rfl
  | ok a => exact hk a rfl

end

namespace Grammar

variable {g : Grammar} {path : List Symbol} {c : Core} {X : Symbol}

/-- The left side of the production is in use, and its right side has more places than a dot. -/
def TooLong (g : Grammar) (p : ProductionId) : Prop :=
  ∃ rule, g.production? p = some rule ∧ g.InUse rule.left ∧ 65535 < rule.right.length

/-- The fault of a dot that cannot run through a production that is too long. -/
def Overflows (g : Grammar) (f : Fault) : Prop := ∃ p, f = .dotOverflow p ∧ g.TooLong p

/-- A symbol after a dot that cannot move any further. -/
theorem ShapeAt.tooLong (hg : g.WellFormed) (h : g.ShapeAt path c) (hX : g.next? c = some X)
    (hd : c.dot = Core.lastDot) : g.TooLong c.production := by
  obtain ⟨rule, hp, hX⟩ := Option.bind_eq_some_iff.mp hX
  refine ⟨rule, hp, h.inUse hg hp, ?_⟩
  have hlt := (List.getElem?_eq_some_iff.mp hX).1
  rw [hd] at hlt
  exact hlt

end Grammar

theorem State.close_eq {g : Grammar} {s : State} (f : FirstSets)
    (h : ∀ c ∈ s.items.cores, g.isValid c = true) :
    s.close g f = .ok { s with items := s.items.closed g f } := by
  rw [close, Items.close_eq f h]
  rfl

namespace Items

variable {g : Grammar} {s : Items} {X : Symbol}

theorem failsOnly_shift (hg : g.WellFormed) (hv : ∀ c ∈ s.cores, g.isValid c = true)
    (hs : ∀ c ∈ s.cores, ∃ path, g.ShapeAt path c) : FailsOnly g.Overflows (s.shift g X) := by
  rw [shift, requireDeclared_eq_ok (production?_isSome_of_isValid hv)]
  intro f hf
  simp only [bind, Except.bind] at hf
  split at hf <;> [skip; cases hf]
  next i hi =>
    cases hf
    obtain ⟨path, hshape⟩ := hs i.core (mem_cores_of_mem (List.mem_of_find?_eq_some hi))
    have htest := List.find?_some hi
    simp only [Bool.and_eq_true, decide_eq_true_eq] at htest
    exact ⟨_, rfl, hshape.tooLong hg htest.1 htest.2⟩

/-- Dots that move over a symbol stay within their productions. -/
theorem isValid_of_mem_shifted {c : Core} (hd : ∀ c ∈ s.cores, g.next? c = some X →
    c.dot ≠ Core.lastDot) (h : c ∈ (s.shifted g X).cores) : g.isValid c = true := by
  obtain ⟨c, hc, hX, rfl⟩ := mem_cores_shifted.mp h
  obtain ⟨rule, hp, hget⟩ := Option.bind_eq_some_iff.mp hX
  refine (Option.any_eq_true _ _).mpr ⟨rule, hp, decide_eq_true ?_⟩
  rw [Grammar.dot_advanced (hd c hc hX)]
  exact (List.getElem?_eq_some_iff.mp hget).1

end Items

namespace Automaton

variable {g : Grammar} {a : Automaton} {s t : StateId} {n m : Node} {X : Symbol}
  {candidate : State}

/-- A state may be added under the next number if no state has its signature. -/
theorem exists_add [WordHash] {k : Signature} (hv : ∀ c ∈ candidate.items.cores, g.isValid c = true)
    (hk : a.find? k = none) : ∃ b, a.add g candidate k a.freshId = .ok b := by
  rw [add_freshId hk, Items.successors_eq hv]
  exact ⟨_, rfl⟩

theorem exists_intern [WordHash] (hv : ∀ c ∈ candidate.items.cores, g.isValid c = true) :
    ∃ r, a.intern g candidate = .ok r := by
  simp only [intern]
  split
  next s hs => exact ⟨_, rfl⟩
  next hn =>
    obtain ⟨b, hb⟩ := exists_add hv hn
    rw [hb]
    exact ⟨_, rfl⟩

/-- A transition may be added between existing states unless there is one to another state. -/
theorem exists_addTransition (hs : a.node? s = some n) (ht : a.node? t = some m)
    (hX : ∀ q, n.transitions.target? X = some q → q = t) :
    ∃ u, a.addTransition s X t = .ok u := by
  have hlt := lt_size_of_node? ht
  rw [addTransition, if_neg (by omega), node_eq_ok.mpr hs]
  have hinsert : ∃ v, n.transitions.insert X t = .ok v := by
    cases hq : n.transitions.target? X with
    | none => exact ⟨_, Transitions.insert_eq_ok_iff.mpr (.inl ⟨hq, rfl⟩)⟩
    | some q => exact ⟨_, Transitions.insert_eq_ok_iff.mpr (.inr ⟨hX q hq ▸ hq, rfl⟩)⟩
  obtain ⟨v, hv⟩ := hinsert
  exact ⟨_, bind_eq_ok.mpr ⟨n, rfl, bind_eq_ok.mpr ⟨v, hv, rfl⟩⟩⟩

end Automaton

namespace Generator

variable {g : Grammar} {o : Options} {a b : Automaton} {s t : StateId} {n : Node} {X : Symbol}

/-- The items that a symbol leads to are valid. -/
theorem isValid_target {e : Generator} (hg : e.grammar.WellFormed)
    (hf : e.first = e.grammar.firstSets) {items : Items}
    (hd : ∀ c ∈ items.cores, e.grammar.next? c = some X → c.dot ≠ Core.lastDot) :
    (∀ c ∈ (e.mask (items.shifted e.grammar X)).cores, e.grammar.isValid c = true) ∧
      ∀ c ∈ (e.target items X).cores, e.grammar.isValid c = true := by
  have hmask : ∀ c ∈ (e.mask (items.shifted e.grammar X)).cores, e.grammar.isValid c = true := by
    intro c hc
    refine Items.isValid_of_mem_shifted hd (c := c) ?_
    rw [mask] at hc
    split at hc
    · exact hc
    · rwa [Items.cores_withoutLookaheads] at hc
  refine ⟨hmask, fun c hc => ?_⟩
  rw [target, hf] at hc
  exact Items.isValid_of_mem_closed hg hmask hc

theorem failsOnly_successor (hg : g.WellFormed) {items : Items}
    (hv : ∀ c ∈ items.cores, g.isValid c = true)
    (hs : ∀ c ∈ items.cores, ∃ path, g.ShapeAt path c) :
    FailsOnly g.Overflows ((ofGrammar g o).successor items X) := by
  refine (Items.failsOnly_shift hg hv hs).bind fun k hk => failsOnly_of_exists _ ?_
  obtain ⟨rfl, hd⟩ := Items.shift_eq_ok hk
  have hmask := (isValid_target (e := ofGrammar g o) hg rfl hd).1
  exact ⟨_, State.close_eq _ hmask⟩

theorem isValid_of_successor_eq_ok (hg : g.WellFormed) {items : Items} {candidate : State}
    (h : (ofGrammar g o).successor items X = .ok candidate) :
    ∀ c ∈ candidate.items.cores, g.isValid c = true := by
  obtain ⟨rfl, hd⟩ := successor_eq_ok h
  exact (isValid_target (e := ofGrammar g o) hg rfl hd).2

variable [WordHash]

/-- Following a symbol fails only if a dot cannot move over it: the state that it leads to can be
added if it is new, and a transition that is there already leads to that state. -/
theorem Explored.failsOnly_step (hg : g.WellFormed) (ha : (ofGrammar g o).Explored a)
    (hr : Reached a) (hn : a.node? s = some n) :
    FailsOnly g.Overflows ((ofGrammar g o).step s a X) := by
  have hc := Automaton.coherent_of_explored hg rfl rfl ha hr
  obtain ⟨path, hs⟩ := hr s n hn
  have hshape : ∀ c ∈ n.items.cores, ∃ path, g.ShapeAt path c := fun c hm =>
    ⟨path, hc.shapeAt hg hs hn c hm⟩
  refine FailsOnly.bind (failsOnly_of_exists _ ⟨n, Automaton.node_eq_ok.mpr hn⟩) fun n' hn' => ?_
  obtain rfl : n = n' := Option.mem_unique hn (Automaton.node_eq_ok.mp hn')
  refine FailsOnly.bind (failsOnly_successor hg (hc.isValid hg hn) hshape) fun candidate hcand => ?_
  obtain ⟨⟨t, u⟩, hi⟩ := Automaton.exists_intern (a := a) (isValid_of_successor_eq_ok hg hcand)
  have interned := ha.indexed.interned_of_intern hi
  obtain ⟨m, hm, hk⟩ := interned.target
  have hX : ∀ q, n.transitions.target? X = some q → q = t := by
    intro q hq
    obtain ⟨-, candidate', m', hc', hm', hk'⟩ := ha.edge hn hq
    obtain rfl : candidate = candidate' := Except.ok.inj (hcand.symm.trans hc')
    exact interned.indexed.distinct (interned.old hm') hm (hk'.trans hk.symm)
  obtain ⟨v, hv⟩ := Automaton.exists_addTransition (interned.old hn) hm hX
  exact failsOnly_of_exists _ ⟨v.value, bind_eq_ok.mpr ⟨_, hi, bind_eq_ok.mpr ⟨v, hv, rfl⟩⟩⟩

theorem Explored.failsOnly_foldlM (hg : g.WellFormed) {Xs : List Symbol}
    (ha : (ofGrammar g o).Explored a) (hr : Reached a) (hn : a.node? s = some n)
    (hX : ∀ X ∈ Xs, X ∈ n.successors) :
    FailsOnly g.Overflows (Xs.foldlM ((ofGrammar g o).step s) a) := by
  induction Xs generalizing a n with
  | nil => exact failsOnly_ok _ a
  | cons X Xs ih =>
    obtain ⟨hX, hXs⟩ := List.forall_mem_cons.mp hX
    rw [List.foldlM_cons]
    refine FailsOnly.bind (ha.failsOnly_step hg hr hn) fun b hb => ?_
    obtain ⟨eb, rb, grows, -⟩ := ha.step hr hn hX hb
    obtain ⟨tr, hm, -⟩ := grows s n hn
    exact ih eb rb hm hXs

theorem Explored.failsOnly_visit (hg : g.WellFormed) (ha : (ofGrammar g o).Explored a)
    (hr : Reached a) (hs : s.number < a.size) :
    FailsOnly g.Overflows ((ofGrammar g o).visit a s) := by
  obtain ⟨n, hn⟩ := Automaton.exists_node?_of_lt hs
  refine FailsOnly.bind (failsOnly_of_exists _ ⟨n, Automaton.node_eq_ok.mpr hn⟩) fun n' hn' => ?_
  obtain rfl : n = n' := Option.mem_unique hn (Automaton.node_eq_ok.mp hn')
  exact ha.failsOnly_foldlM hg hr hn fun _ => id

end Generator

end LRAutomata

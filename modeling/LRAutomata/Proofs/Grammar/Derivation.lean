import LRAutomata.Grammar.Basic
import Mathlib.Data.List.Basic
import Mathlib.Logic.Relation

/-!
# Derivations

`Grammar.Derives` relates a string of symbols to those that it turns into when nonterminals give
way to right sides of their productions, anywhere in the string. `Grammar.Rightmost` is the same
for derivations in which every step is at the last nonterminal, with the productions that were
used, in order.

* `Derives.append`, `Derives.of_append`: the parts of a string derive apart from each other;
* `derives_terminals_iff`: terminals stay;
* `vanishes_append_iff`, `canBegin_append_iff`: how a string can become empty, and with which
  terminal what it derives can begin.
-/

namespace LRAutomata

/-- An element of a string that is put together from two lies in one of them. -/
theorem append_eq_append_cons {α : Type} {xs ys before after : List α} {x : α}
    (h : xs ++ ys = before ++ x :: after) :
    (∃ mid, xs = before ++ x :: mid ∧ after = mid ++ ys) ∨
      ∃ mid, before = xs ++ mid ∧ ys = mid ++ x :: after := by
  rcases List.append_eq_append_iff.mp h with ⟨mid, rfl, hys⟩ | ⟨mid, rfl, hmid⟩
  · exact .inr ⟨mid, rfl, hys⟩
  · cases mid with
    | nil => exact .inr ⟨[], by rw [List.append_nil, List.append_nil], hmid.symm⟩
    | cons y mid =>
      obtain ⟨rfl, rfl⟩ := List.cons.inj hmid
      exact .inl ⟨mid, rfl, rfl⟩

namespace Grammar

/-- One step of a derivation: a nonterminal gives way to the right side of a production. -/
inductive Step (g : Grammar) : List Symbol → List Symbol → Prop where
  | mk {p : ProductionId} {rule : Production} (h : g.production? p = some rule)
    (before after : List Symbol) :
    Step g (before ++ .nonterminal rule.left :: after) (before ++ rule.right ++ after)

/-- Any number of steps. -/
def Derives (g : Grammar) : List Symbol → List Symbol → Prop := Relation.ReflTransGen g.Step

/-- The empty string can be derived from `Xs`. -/
def Vanishes (g : Grammar) (Xs : List Symbol) : Prop := g.Derives Xs []

/-- A string that begins with `t` can be derived from `Xs`. -/
def CanBegin (g : Grammar) (Xs : List Symbol) (t : Terminal) : Prop :=
  ∃ Ys, g.Derives Xs (.terminal t :: Ys)

section

variable {g : Grammar} {Xs Ys Zs Ws : List Symbol}

theorem Derives.refl (Xs : List Symbol) : g.Derives Xs Xs := Relation.ReflTransGen.refl

theorem Derives.trans (h : g.Derives Xs Ys) (h' : g.Derives Ys Zs) : g.Derives Xs Zs :=
  Relation.ReflTransGen.trans h h'

theorem Derives.head (h : g.Step Xs Ys) (h' : g.Derives Ys Zs) : g.Derives Xs Zs :=
  Relation.ReflTransGen.head h h'

theorem Step.append_left (h : g.Step Xs Ys) (Zs : List Symbol) :
    g.Step (Zs ++ Xs) (Zs ++ Ys) := by
  obtain ⟨hp, before, after⟩ := h
  simpa only [List.append_assoc] using Step.mk hp (Zs ++ before) after

theorem Step.append_right (h : g.Step Xs Ys) (Zs : List Symbol) :
    g.Step (Xs ++ Zs) (Ys ++ Zs) := by
  obtain ⟨hp, before, after⟩ := h
  simpa only [List.append_assoc, List.cons_append] using Step.mk hp before (after ++ Zs)

theorem Derives.append (h : g.Derives Xs Ys) (h' : g.Derives Zs Ws) :
    g.Derives (Xs ++ Zs) (Ys ++ Ws) := by
  have left : g.Derives (Xs ++ Zs) (Ys ++ Zs) :=
    Relation.ReflTransGen.lift (· ++ Zs) (fun _ _ (hs : g.Step _ _) => hs.append_right Zs) _ _ h
  have right : g.Derives (Ys ++ Zs) (Ys ++ Ws) :=
    Relation.ReflTransGen.lift (Ys ++ ·) (fun _ _ (hs : g.Step _ _) => hs.append_left Ys) _ _ h'
  exact left.trans right

/-- A production lets its left side derive its right side. -/
theorem derives_right {p : ProductionId} {rule : Production} (h : g.production? p = some rule) :
    g.Derives [.nonterminal rule.left] rule.right := by
  have := Step.mk h [] []
  rw [List.nil_append, List.nil_append, List.append_nil] at this
  exact Relation.ReflTransGen.single this

/-- A step in a string is one in either of its parts. -/
theorem Step.of_append (h : g.Step (Xs ++ Ys) Zs) :
    (∃ Xs', g.Step Xs Xs' ∧ Zs = Xs' ++ Ys) ∨ ∃ Ys', g.Step Ys Ys' ∧ Zs = Xs ++ Ys' := by
  generalize hW : Xs ++ Ys = Ws at h
  obtain ⟨hp, before, after⟩ := h
  rcases append_eq_append_cons hW with ⟨mid, rfl, rfl⟩ | ⟨mid, rfl, rfl⟩
  · exact .inl ⟨_, Step.mk hp before mid, by simp only [List.append_assoc]⟩
  · exact .inr ⟨_, Step.mk hp mid after, by simp only [List.append_assoc]⟩

/-- What a string derives falls into what its parts derive. -/
theorem Derives.of_append (h : g.Derives (Xs ++ Ys) Zs) :
    ∃ Xs' Ys', Zs = Xs' ++ Ys' ∧ g.Derives Xs Xs' ∧ g.Derives Ys Ys' := by
  induction h with
  | refl => exact ⟨Xs, Ys, rfl, .refl _, .refl _⟩
  | tail _ hs ih =>
    obtain ⟨Xs', Ys', rfl, hx, hy⟩ := ih
    rcases hs.of_append with ⟨Xs'', hx', rfl⟩ | ⟨Ys'', hy', rfl⟩
    · exact ⟨Xs'', Ys', rfl, Relation.ReflTransGen.tail hx hx', hy⟩
    · exact ⟨Xs', Ys'', rfl, hx, Relation.ReflTransGen.tail hy hy'⟩

theorem not_step_terminals (w : List Terminal) : ¬ g.Step (w.map .terminal) Xs := by
  intro h
  generalize hW : w.map Symbol.terminal = Ws at h
  obtain ⟨hp, before, after⟩ := h
  have hm : Symbol.nonterminal _ ∈ w.map Symbol.terminal :=
    hW ▸ List.mem_append_right _ List.mem_cons_self
  obtain ⟨t, -, ht⟩ := List.mem_map.mp hm
  cases ht

theorem derives_terminals_iff {w : List Terminal} :
    g.Derives (w.map .terminal) Xs ↔ Xs = w.map .terminal :=
  Relation.reflTransGen_iff_eq fun _ => not_step_terminals w

theorem derives_terminal_iff {t : Terminal} : g.Derives [.terminal t] Xs ↔ Xs = [.terminal t] :=
  derives_terminals_iff (w := [t])

theorem derives_nil_iff : g.Derives [] Xs ↔ Xs = [] := derives_terminals_iff (w := [])

theorem vanishes_nil : g.Vanishes [] := .refl []

theorem vanishes_append_iff : g.Vanishes (Xs ++ Ys) ↔ g.Vanishes Xs ∧ g.Vanishes Ys := by
  refine ⟨fun h => ?_, fun h => ?_⟩
  · obtain ⟨Xs', Ys', he, hx, hy⟩ := Derives.of_append h
    obtain ⟨rfl, rfl⟩ := List.append_eq_nil_iff.mp he.symm
    exact ⟨hx, hy⟩
  · obtain ⟨hx, hy⟩ := h
    exact hx.append hy

theorem vanishes_cons_iff {X : Symbol} :
    g.Vanishes (X :: Xs) ↔ g.Vanishes [X] ∧ g.Vanishes Xs := by
  rw [← List.singleton_append, vanishes_append_iff]

theorem not_canBegin_nil (t : Terminal) : ¬ g.CanBegin [] t := by
  rintro ⟨Ys, h⟩
  exact List.cons_ne_nil _ _ (derives_nil_iff.mp h)

theorem canBegin_terminal_iff {s t : Terminal} : g.CanBegin [.terminal s] t ↔ t = s := by
  constructor
  · rintro ⟨Ys, h⟩
    exact Symbol.terminal.inj (List.cons.inj (derives_terminal_iff.mp h)).1
  · rintro rfl
    exact ⟨[], .refl _⟩

theorem canBegin_append_iff {t : Terminal} :
    g.CanBegin (Xs ++ Ys) t ↔ g.CanBegin Xs t ∨ g.Vanishes Xs ∧ g.CanBegin Ys t := by
  refine ⟨fun h => ?_, fun h => ?_⟩
  · obtain ⟨Zs, h⟩ := h
    obtain ⟨Xs', Ys', he, hx, hy⟩ := Derives.of_append h
    cases Xs' with
    | nil =>
      rw [List.nil_append] at he
      exact .inr ⟨hx, Zs, he ▸ hy⟩
    | cons X Xs' =>
      rw [List.cons_append] at he
      obtain ⟨rfl, -⟩ := List.cons.inj he
      exact .inl ⟨Xs', hx⟩
  · rcases h with ⟨Zs, h⟩ | ⟨hv, Zs, h⟩
    · exact ⟨Zs ++ Ys, h.append (.refl Ys)⟩
    · exact ⟨Zs, hv.append h⟩

theorem canBegin_cons_iff {X : Symbol} {t : Terminal} :
    g.CanBegin (X :: Xs) t ↔ g.CanBegin [X] t ∨ g.Vanishes [X] ∧ g.CanBegin Xs t := by
  rw [← List.singleton_append, canBegin_append_iff]

theorem CanBegin.of_derives {t : Terminal} (h : g.Derives Xs Ys) (hb : g.CanBegin Ys t) :
    g.CanBegin Xs t :=
  hb.imp fun _ h' => h.trans h'

end

/-! ## Rightmost derivations -/

/-- One step by production `p` at the last nonterminal. -/
inductive RightmostStep (g : Grammar) (p : ProductionId) : List Symbol → List Symbol → Prop where
  | mk {rule : Production} (h : g.production? p = some rule) (before : List Symbol)
    (after : List Terminal) :
    RightmostStep g p (before ++ .nonterminal rule.left :: after.map .terminal)
      (before ++ rule.right ++ after.map .terminal)

/-- A rightmost derivation by the productions of a list, one after the other. -/
inductive Rightmost (g : Grammar) (Xs : List Symbol) : List ProductionId → List Symbol → Prop where
  | refl : Rightmost g Xs [] Xs
  | tail {ps : List ProductionId} {p : ProductionId} {Ys Zs : List Symbol} :
    Rightmost g Xs ps Ys → RightmostStep g p Ys Zs → Rightmost g Xs (ps ++ [p]) Zs

section

variable {g : Grammar} {Xs Ys Zs : List Symbol} {p : ProductionId} {ps : List ProductionId}

theorem nonterminal_not_mem_terminals (n : Nonterminal) (w : List Terminal) :
    Symbol.nonterminal n ∉ w.map Symbol.terminal := by
  intro h
  obtain ⟨t, -, ht⟩ := List.mem_map.mp h
  cases ht

/-- The last nonterminal of a string is in one place only. -/
theorem eq_of_last_nonterminal {before before' : List Symbol} {n n' : Nonterminal}
    {w w' : List Terminal}
    (h : before ++ Symbol.nonterminal n :: w.map .terminal =
      before' ++ Symbol.nonterminal n' :: w'.map .terminal) : before = before' ∧ w = w' := by
  rcases append_eq_append_cons h with ⟨mid, -, hw⟩ | ⟨mid, rfl, hmid⟩
  · refine absurd ?_ (nonterminal_not_mem_terminals n w')
    rw [hw]
    exact List.mem_append_right _ List.mem_cons_self
  · cases mid with
    | nil =>
      obtain ⟨-, hw⟩ := List.cons.inj hmid
      exact ⟨(List.append_nil _).symm, List.map_injective_iff.mpr (fun _ _ => Symbol.terminal.inj) hw⟩
    | cons X mid =>
      obtain ⟨-, hw⟩ := List.cons.inj hmid
      refine absurd ?_ (nonterminal_not_mem_terminals n' w)
      rw [hw]
      exact List.mem_append_right _ List.mem_cons_self

/-- A rightmost step is determined by its production. -/
theorem RightmostStep.unique (h : g.RightmostStep p Xs Ys) (h' : g.RightmostStep p Xs Zs) :
    Ys = Zs := by
  generalize hX : Xs = Xs' at h'
  obtain ⟨hp, before, w⟩ := h
  obtain ⟨hp', before', w'⟩ := h'
  obtain ⟨rfl, rfl⟩ := eq_of_last_nonterminal hX
  rw [Option.mem_unique hp hp']

/-- So a rightmost derivation is determined by its productions. -/
theorem Rightmost.unique (h : g.Rightmost Xs ps Ys) (h' : g.Rightmost Xs ps Zs) : Ys = Zs := by
  generalize hq : ps = qs at h'
  induction h generalizing qs Zs with
  | refl =>
    cases h' with
    | refl => rfl
    | tail => exact absurd hq.symm (List.append_ne_nil_of_right_ne_nil _ (List.cons_ne_nil _ _))
  | tail _ hs ih =>
    cases h' with
    | refl => exact absurd hq (List.append_ne_nil_of_right_ne_nil _ (List.cons_ne_nil _ _))
    | tail h' hs' =>
      obtain ⟨hps, hp⟩ := List.append_inj' hq rfl
      obtain rfl := (List.cons.inj hp).1
      obtain rfl := ih _ hps h'
      exact hs.unique hs'

end

theorem RightmostStep.step {g : Grammar} {p : ProductionId} {Xs Ys : List Symbol}
    (h : g.RightmostStep p Xs Ys) : g.Step Xs Ys := by
  obtain ⟨hp, before, after⟩ := h
  exact .mk hp before (after.map .terminal)

end Grammar

end LRAutomata

import LRAutomata.Proofs.Grammar.Derivation

/-!
# Parse forests

A `Forest` is a list of parse trees, one after the other; `Grammar.Parses` says that it parses a
string of terminals as a string of symbols, tree by symbol. Its productions, from the last tree to
the first and each before those below it, are those of a rightmost derivation.

* `Parses.rightmost`: that derivation;
* `Parses.eq_of_productions_eq`: a forest is determined by its productions;
* `exists_parses_of_derives`: a forest parses what is derived in any order, so that a rightmost
  derivation of it exists (`exists_rightmost_of_derives`).
-/

namespace LRAutomata

/-- Parse trees in a row: each is a terminal, or a production with the trees below it. -/
inductive Forest where
  | nil
  | terminal (t : Terminal) (others : Forest)
  | node (p : ProductionId) (children others : Forest)
deriving DecidableEq

namespace Forest

/-- The productions in the order in which a rightmost derivation uses them. -/
def productions : Forest → List ProductionId
  | nil => []
  | terminal _ others => others.productions
  | node p children others => others.productions ++ p :: children.productions

/-- The trees of two forests in a row. -/
def append : Forest → Forest → Forest
  | nil, G => G
  | terminal t F, G => terminal t (F.append G)
  | node p children F, G => node p children (F.append G)

end Forest

namespace Grammar

variable {g : Grammar} {Xs Ys Zs : List Symbol} {p : ProductionId} {ps qs : List ProductionId}
  {F F' : Forest} {v w : List Terminal}

/-- The forest parses `w` as `Xs`. -/
inductive Parses (g : Grammar) : Forest → List Symbol → List Terminal → Prop where
  | nil : Parses g .nil [] []
  | terminal {F : Forest} {Xs : List Symbol} {w : List Terminal} (t : Terminal) :
    Parses g F Xs w → Parses g (.terminal t F) (.terminal t :: Xs) (t :: w)
  | node {p : ProductionId} {rule : Production} {F F' : Forest} {Xs : List Symbol}
    {v w : List Terminal} : g.production? p = some rule → Parses g F rule.right v →
    Parses g F' Xs w → Parses g (.node p F F') (.nonterminal rule.left :: Xs) (v ++ w)

theorem Rightmost.trans (h : g.Rightmost Xs ps Ys) (h' : g.Rightmost Ys qs Zs) :
    g.Rightmost Xs (ps ++ qs) Zs := by
  induction h' with
  | refl => rwa [List.append_nil]
  | tail _ hs ih =>
    rw [← List.append_assoc]
    exact .tail ih hs

theorem Rightmost.single (h : g.RightmostStep p Xs Ys) : g.Rightmost Xs [p] Ys :=
  .tail .refl h

theorem RightmostStep.in_context (h : g.RightmostStep p Xs Ys) (before : List Symbol)
    (w : List Terminal) : g.RightmostStep p (before ++ Xs ++ w.map .terminal)
      (before ++ Ys ++ w.map .terminal) := by
  obtain ⟨hp, δ, after⟩ := h
  have := RightmostStep.mk hp (before ++ δ) (after ++ w)
  simpa only [List.append_assoc, List.cons_append, List.map_append] using this

theorem Rightmost.in_context (h : g.Rightmost Xs ps Ys) (before : List Symbol)
    (w : List Terminal) : g.Rightmost (before ++ Xs ++ w.map .terminal) ps
      (before ++ Ys ++ w.map .terminal) := by
  induction h with
  | refl => exact .refl
  | tail _ hs ih => exact .tail ih (hs.in_context before w)

/-- The productions of a forest are those of a rightmost derivation of what it parses. -/
theorem Parses.rightmost (h : g.Parses F Xs w) :
    g.Rightmost Xs F.productions (w.map .terminal) := by
  induction h with
  | nil => exact .refl
  | terminal t _ ih => simpa [Forest.productions] using ih.in_context [.terminal t] []
  | @node p rule F F' Xs v w hp _ _ ih ih' =>
    -- the other trees first, then the production, then the trees below it
    have others := ih'.in_context [.nonterminal rule.left] []
    have step := (RightmostStep.mk hp [] []).in_context [] w
    have below := ih.in_context [] w
    simp only [List.map_nil, List.append_nil, List.nil_append, List.singleton_append]
      at others step below
    rw [List.map_append]
    exact others.trans ((Rightmost.single step).trans below)

/-- A forest is determined by its productions and the string of symbols that it parses as. -/
theorem Parses.eq_of_productions_eq (h : g.Parses F Xs v) (h' : g.Parses F' Xs w)
    {rest rest' : List ProductionId} (he : F.productions ++ rest = F'.productions ++ rest') :
    F = F' ∧ rest = rest' := by
  induction h generalizing F' w rest rest' with
  | nil =>
    cases h'
    exact ⟨rfl, he⟩
  | terminal t _ ih =>
    cases h' with
    | terminal _ h' =>
      obtain ⟨rfl, hrest⟩ := ih h' he
      exact ⟨rfl, hrest⟩
  | @node p rule F G Xs v u hp _ _ ih ih' =>
    generalize hY : Symbol.nonterminal rule.left :: Xs = Ys at h'
    cases h' with
    | nil => cases hY
    | terminal t _ => cases hY
    | @node p' rule' F' G' _ v' u' hp' hF' hG' =>
      obtain ⟨-, rfl⟩ := List.cons.inj hY
      simp only [Forest.productions, List.append_assoc, List.cons_append] at he
      obtain ⟨rfl, hcons⟩ := ih' hG' he
      obtain ⟨rfl, hbelow⟩ := List.cons.inj hcons
      obtain rfl : rule = rule' := Option.mem_unique hp hp'
      obtain ⟨rfl, hrest⟩ := ih hF' hbelow
      exact ⟨rfl, hrest⟩

theorem Parses.append (h : g.Parses F Xs v) (h' : g.Parses F' Ys w) :
    g.Parses (F.append F') (Xs ++ Ys) (v ++ w) := by
  induction h with
  | nil => exact h'
  | terminal t _ ih => exact .terminal t ih
  | node hp hC _ _ ih =>
    rw [List.append_assoc]
    exact .node hp hC ih

/-- A forest of two strings in a row falls into forests of each. -/
theorem Parses.of_append (h : g.Parses F (Xs ++ Ys) w) :
    ∃ F₁ F₂ w₁ w₂, w = w₁ ++ w₂ ∧ g.Parses F₁ Xs w₁ ∧ g.Parses F₂ Ys w₂ := by
  induction Xs generalizing F w with
  | nil => exact ⟨.nil, F, [], w, rfl, .nil, h⟩
  | cons X Xs ih =>
    cases h with
    | terminal t h =>
      obtain ⟨F₁, F₂, w₁, w₂, rfl, h₁, h₂⟩ := ih h
      exact ⟨_, F₂, t :: w₁, w₂, rfl, .terminal t h₁, h₂⟩
    | @node p rule C _ _ v _ hp hC h =>
      obtain ⟨F₁, F₂, w₁, w₂, rfl, h₁, h₂⟩ := ih h
      exact ⟨_, F₂, v ++ w₁, w₂, (List.append_assoc ..).symm, .node hp hC h₁, h₂⟩

/-- A step backwards puts the trees of a right side below their production. -/
theorem Parses.of_step (hs : g.Step Xs Ys) (h : g.Parses F Ys w) : ∃ F', g.Parses F' Xs w := by
  obtain ⟨hp, before, after⟩ := hs
  obtain ⟨F₁₂, F₃, w₁₂, w₃, rfl, h₁₂, h₃⟩ := h.of_append
  obtain ⟨F₁, F₂, w₁, w₂, rfl, h₁, h₂⟩ := h₁₂.of_append
  have h' := h₁.append (.node hp h₂ h₃)
  rw [← List.append_assoc] at h'
  exact ⟨_, h'⟩

/-- What derives a string of terminals, in whatever order, has a forest. -/
theorem exists_parses_of_derives (h : g.Derives Xs (w.map .terminal)) : ∃ F, g.Parses F Xs w := by
  induction h using Relation.ReflTransGen.head_induction_on with
  | refl =>
    induction w with
    | nil => exact ⟨.nil, .nil⟩
    | cons t w ih =>
      obtain ⟨F, hF⟩ := ih
      exact ⟨_, .terminal t hF⟩
  | head hs _ ih =>
    obtain ⟨F, hF⟩ := ih
    exact hF.of_step hs

/-- So it derives the string by rightmost steps. -/
theorem exists_rightmost_of_derives (h : g.Derives Xs (w.map .terminal)) :
    ∃ ps, g.Rightmost Xs ps (w.map .terminal) := by
  obtain ⟨F, hF⟩ := exists_parses_of_derives h
  exact ⟨F.productions, hF.rightmost⟩

end Grammar

end LRAutomata

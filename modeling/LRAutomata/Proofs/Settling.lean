import LRAutomata.Proofs.TerminalSet.Members
import Mathlib.Algebra.Order.BigOperators.Group.List
import Mathlib.Algebra.Order.Ring.Nat

/-!
# Settling at a fixed point

`settle` gives up after a number of repetitions. It does not have to when every change brings up a
quantity that is bounded by that number:

* `Progress`: what a step has to do for that, and `Progress.pass`: a pass over a list does it if
  each of its steps does;
* `Settles`: repeating a step without such a bound, and `Progress.settles`: the bound is enough;
* `Progress.fixed_of_settles`: the settled value is one that the step leaves alone;
* `Progress.of_pass_eq`: what a pass leaves alone, each of its steps leaves alone;
* `TrySettles`: repeating a step that can fail, and `TrySettles.of_settles`: where it does not fail;
* `TerminalSet.total`: the quantity for a family of terminal sets, the number of their members.
-/

namespace LRAutomata

/-- On the values with `P`, a step keeps `P`, leaves a value alone if it reports no change, and
brings `weight` up if it reports one. -/
structure Progress {α : Type} (P : α → Prop) (weight : α → Nat) (step : α → Update α) : Prop where
  keeps {a : α} : P a → P (step a).value
  same {a : α} : P a → (step a).changed = false → (step a).value = a
  grows {a : α} : P a → (step a).changed = true → weight a < weight (step a).value

/-- Repeating `step` for as long as it changes anything leads from one value to another. -/
inductive Settles {α : Type} (step : α → Update α) : α → α → Prop where
  | done {a : α} : (step a).changed = false → Settles step a (step a).value
  | again {a b : α} : (step a).changed = true → Settles step (step a).value b → Settles step a b

theorem Settles.unique {α : Type} {step : α → Update α} {a b c : α} (h : Settles step a b)
    (h' : Settles step a c) : b = c := by
  induction h with
  | done hc =>
    rcases h' with - | ⟨hc', -⟩
    · rfl
    · cases hc.symm.trans hc'
  | again hc _ ih =>
    rcases h' with hc' | ⟨-, h'⟩
    · cases hc.symm.trans hc'
    · exact ih h'

namespace Update

variable {α β : Type} {f : β → α → Update α}

theorem eq_of {u : Update α} {a : α} {c : Bool} (hv : u.value = a) (hc : u.changed = c) :
    u = ⟨a, c⟩ := by
  rw [← hv, ← hc]

/-- The value of a pass does not depend on what was reported before it, and it reports a change if
there was one before it or in it. -/
theorem foldl_andThen (bs : List β) (a : α) (c : Bool) :
    bs.foldl (fun (u : Update α) b => u.andThen (f b)) ⟨a, c⟩ =
      (⟨(pass f bs a).value, c || (pass f bs a).changed⟩ : Update α) := by
  induction bs generalizing a c with
  | nil => simp [pass]
  | cons b bs ih =>
    rw [List.foldl_cons, pass, List.foldl_cons]
    simp only [andThen] at ih ⊢
    rw [ih, ih, Bool.false_or, Bool.or_assoc]

theorem pass_cons (b : β) (bs : List β) (a : α) :
    pass f (b :: bs) a =
      ⟨(pass f bs (f b a).value).value, (f b a).changed || (pass f bs (f b a).value).changed⟩ := by
  rw [pass, List.foldl_cons, andThen, foldl_andThen, Bool.false_or]

theorem pass_induction {P : α → Prop} {bs : List β} (h : ∀ b ∈ bs, ∀ a, P a → P (f b a).value)
    {a : α} (ha : P a) : P (pass f bs a).value := by
  induction bs generalizing a with
  | nil => exact ha
  | cons b bs ih =>
    rw [pass_cons]
    exact ih (fun b' hb' => h b' (List.mem_cons_of_mem _ hb')) (h b List.mem_cons_self a ha)

end Update

namespace Progress

variable {α β : Type} {P : α → Prop} {weight : α → Nat} {step : α → Update α}
  {f : β → α → Update α}

/-- A step never brings the weight down. -/
theorem weight_le (h : Progress P weight step) {a : α} (ha : P a) :
    weight a ≤ weight (step a).value := by
  cases hc : (step a).changed with
  | false => rw [h.same ha hc]
  | true => exact Nat.le_of_lt (h.grows ha hc)

theorem pass {bs : List β} (h : ∀ b ∈ bs, Progress P weight (f b)) :
    Progress P weight (Update.pass f bs) := by
  induction bs with
  | nil => exact ⟨fun ha => ha, fun _ _ => rfl, fun _ hc => by simp [Update.pass] at hc⟩
  | cons b bs ih =>
    have hb := h b List.mem_cons_self
    have ih := ih fun b' hb' => h b' (List.mem_cons_of_mem _ hb')
    refine ⟨fun ha => ?_, fun ha hc => ?_, fun ha hc => ?_⟩
    · rw [Update.pass_cons]
      exact ih.keeps (hb.keeps ha)
    · rw [Update.pass_cons, Bool.or_eq_false_iff] at hc
      rw [Update.pass_cons]
      rw [hb.same ha hc.1] at hc ⊢
      exact ih.same ha hc.2
    · rw [Update.pass_cons, Bool.or_eq_true] at hc
      rw [Update.pass_cons]
      rcases hc with hc | hc
      · exact Nat.lt_of_lt_of_le (hb.grows ha hc) (ih.weight_le (hb.keeps ha))
      · exact Nat.lt_of_le_of_lt (hb.weight_le ha) (ih.grows (hb.keeps ha) hc)

/-- What a pass leaves alone, each of its steps leaves alone. -/
theorem of_pass_eq {bs : List β} (h : ∀ b ∈ bs, Progress P weight (f b)) {a : α} (ha : P a)
    (hp : Update.pass f bs a = ⟨a, false⟩) : ∀ b ∈ bs, f b a = ⟨a, false⟩ := by
  induction bs with
  | nil => exact fun b hb => absurd hb List.not_mem_nil
  | cons b bs ih =>
    have hb := h b List.mem_cons_self
    simp only [Update.pass_cons, Update.mk.injEq, Bool.or_eq_false_iff] at hp
    obtain ⟨hv, hc, hcs⟩ := hp
    have same : f b a = ⟨a, false⟩ := Update.eq_of (hb.same ha hc) hc
    rw [same] at hv hcs
    have hrest := ih (fun b' hb' => h b' (List.mem_cons_of_mem _ hb')) (Update.eq_of hv hcs)
    intro b' hb'
    rcases List.mem_cons.mp hb' with rfl | hb'
    · exact same
    · exact hrest b' hb'

/-- With enough repetitions the step is repeated for as long as it changes anything. -/
theorem settles_of_le (h : Progress P weight step) {limit : Nat}
    (hl : ∀ a, P a → weight a ≤ limit) {bound : Nat} {a : α} (ha : P a)
    (hb : limit ≤ weight a + bound) : Settles step a (settle step bound a) := by
  induction bound generalizing a with
  | zero =>
    cases hc : (step a).changed with
    | false =>
      have stop := Settles.done hc
      rwa [h.same ha hc] at stop
    | true =>
      have := h.grows ha hc
      have := hl _ (h.keeps ha)
      omega
  | succ n ih =>
    simp only [settle]
    cases hc : (step a).changed with
    | false => exact .done hc
    | true =>
      rw [if_pos rfl]
      have := h.grows ha hc
      exact .again hc (ih (h.keeps ha) (by omega))

/-- What a loop ends with is left alone by its step. -/
theorem fixed_of_settles (h : Progress P weight step) {a b : α} (ha : P a)
    (hs : Settles step a b) : step b = ⟨b, false⟩ := by
  induction hs with
  | done hc =>
    rw [h.same ha hc]
    exact Update.eq_of (h.same ha hc) hc
  | again _ _ ih => exact ih (h.keeps ha)

/-- A bound on the weight is enough of them. -/
theorem settles (h : Progress P weight step) {bound : Nat} (hl : ∀ a, P a → weight a ≤ bound)
    {a : α} (ha : P a) : Settles step a (settle step bound a) :=
  h.settles_of_le hl ha (Nat.le_add_left ..)

theorem settle_keeps (h : Progress P weight step) (bound : Nat) {a : α} (ha : P a) :
    P (settle step bound a) :=
  settle_induction (fun _ => h.keeps) bound ha

end Progress

/-! ## Steps that can fail -/

/-- One pass over a list by an operation that can fail. -/
def Update.tryPass {α β : Type} (f : β → α → Except Fault (Update α)) (elements : List β) (a : α) :
    Except Fault (Update α) :=
  elements.foldlM
    (fun u b => (f b u.value).map fun v => ⟨v.value, u.changed || v.changed⟩) ⟨a, false⟩

/-- Repeating a step that can fail, for as long as it changes anything. -/
inductive TrySettles {α : Type} (step : α → Except Fault (Update α)) :
    α → Except Fault α → Prop where
  | done {a b : α} : step a = .ok ⟨b, false⟩ → TrySettles step a (.ok b)
  | fails {a : α} {e : Fault} : step a = .error e → TrySettles step a (.error e)
  | again {a b : α} {r : Except Fault α} : step a = .ok ⟨b, true⟩ → TrySettles step b r →
    TrySettles step a r

section

variable {α β : Type} {P : α → Prop}

/-- A pass does not fail if none of its steps does where `P` holds. -/
theorem Update.tryPass_eq_ok {tried : β → α → Except Fault (Update α)} {f : β → α → Update α}
    {bs : List β} (hf : ∀ b ∈ bs, ∀ a, P a → tried b a = .ok (f b a))
    (keeps : ∀ b ∈ bs, ∀ a, P a → P (f b a).value) {a : α} (ha : P a) :
    tryPass tried bs a = .ok (pass f bs a) := by
  have key : ∀ u : Update α, P u.value →
      bs.foldlM (fun u b => (tried b u.value).map fun v => ⟨v.value, u.changed || v.changed⟩) u =
        .ok (bs.foldl (fun u b => u.andThen (f b)) u) := by
    induction bs with
    | nil => exact fun _ _ => rfl
    | cons b bs ih =>
      intro u hu
      have hb := hf b List.mem_cons_self u.value hu
      rw [List.foldlM_cons, hb, List.foldl_cons]
      exact ih (fun b' hb' => hf b' (List.mem_cons_of_mem _ hb'))
        (fun b' hb' => keeps b' (List.mem_cons_of_mem _ hb')) _
        (keeps b List.mem_cons_self u.value hu)
  exact key ⟨a, false⟩ ha

/-- A loop whose step does not fail where `P` holds does not fail. -/
theorem TrySettles.of_settles {tried : α → Except Fault (Update α)} {step : α → Update α}
    (hs : ∀ a, P a → tried a = .ok (step a)) (keeps : ∀ a, P a → P (step a).value) {a b : α}
    (h : Settles step a b) (ha : P a) : TrySettles tried a (.ok b) := by
  induction h with
  | @done a hc => exact .done ((hs a ha).trans (congrArg _ (Update.eq_of rfl hc)))
  | @again a b hc _ ih =>
    exact .again ((hs a ha).trans (congrArg _ (Update.eq_of rfl hc))) (ih (keeps a ha))

theorem TrySettles.unique {step : α → Except Fault (Update α)} {a : α} {r r' : Except Fault α}
    (h : TrySettles step a r) (h' : TrySettles step a r') : r = r' := by
  -- what the step comes to decides which of the rules applies
  induction h with
  | done hs =>
    rcases h' with hs' | hs' | ⟨hs', -⟩ <;> cases hs.symm.trans hs'
    rfl
  | fails hs =>
    rcases h' with hs' | hs' | ⟨hs', -⟩ <;> cases hs.symm.trans hs'
    rfl
  | again hs _ ih =>
    rcases h' with hs' | hs' | ⟨hs', h'⟩ <;> cases hs.symm.trans hs'
    exact ih h'

end

namespace TerminalSet

/-- How many members the sets of a family have, together. -/
def total {κ : Type} (look : κ → TerminalSet) (keys : List κ) : Nat :=
  (keys.map fun k => (look k).size).sum

theorem total_le {κ : Type} (look : κ → TerminalSet) (keys : List κ) :
    total look keys ≤ capacity * keys.length := by
  induction keys with
  | nil => simp [total]
  | cons k keys ih =>
    have := size_le_capacity (look k)
    simp only [total, List.map_cons, List.sum_cons, List.length_cons] at ih ⊢
    rw [Nat.mul_add]
    omega

/-- If no set of a family loses a member and one of them gains one, there are more members. -/
theorem total_lt {κ : Type} {look look' : κ → TerminalSet} {keys : List κ}
    (h : ∀ k ∈ keys, look k ⊆ look' k) {k : κ} (hk : k ∈ keys) (hn : ¬ look' k ⊆ look k) :
    total look keys < total look' keys :=
  List.sum_lt_sum _ _ (fun k hk => size_mono (h k hk)) ⟨k, hk, size_lt_of_subset (h k hk) hn⟩

end TerminalSet

end LRAutomata

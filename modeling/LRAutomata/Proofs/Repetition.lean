import Mathlib.Data.List.Basic
import Mathlib.Data.List.Perm.Subperm

/-!
# Repetitions

What repeating a step for each element of a list can bring about:

* `foldl_iff_or_exists`: what one of the steps does.

What `List.eraseDups` leaves of a list:

* `nodup_eraseDups`: no repetitions;
* `eraseDups_concat`: one more element stays if it is new;
* `eq_eraseDups`: the elements in the order of their first occurrences.
-/

namespace LRAutomata

/-- If a step only adds to what holds, then in the end there holds what did so before or what was
added for one of the elements. -/
theorem foldl_iff_or_exists {σ α : Type} {step : σ → α → σ} {P : σ → Prop} {Q : α → Prop}
    (adds : ∀ s a, P (step s a) ↔ P s ∨ Q a) (l : List α) (s : σ) :
    P (l.foldl step s) ↔ P s ∨ ∃ a ∈ l, Q a := by
  induction l generalizing s with
  | nil => simp
  | cons a l ih => rw [List.foldl_cons, ih, adds, List.exists_mem_cons_iff, or_assoc]

variable {α : Type} [BEq α] [LawfulBEq α]

theorem nodup_eraseDups : (l : List α) → l.eraseDups.Nodup
  | [] => List.nodup_nil
  | x :: l => by
    rw [List.eraseDups_cons, List.nodup_cons]
    refine ⟨fun hx => ?_, nodup_eraseDups (l.filter fun y => !y == x)⟩
    have hne := (List.mem_filter.mp (List.mem_eraseDups.mp hx)).2
    rw [beq_self_eq_true] at hne
    cases hne
termination_by l => l.length
decreasing_by exact Nat.lt_succ_of_le (List.length_filter_le ..)

theorem eraseDups_concat (l : List α) (x : α) :
    (l ++ [x]).eraseDups = if x ∈ l then l.eraseDups else l.eraseDups ++ [x] := by
  rw [List.eraseDups_append]
  split
  next hx => simp [List.removeAll, hx]
  next hx => simp [List.removeAll, hx, List.eraseDups_cons]

theorem length_eraseDups_le (l : List α) : l.eraseDups.length ≤ l.length :=
  ((nodup_eraseDups l).subperm fun _ hx => List.mem_eraseDups.mp hx).length_le

/-- If `l` has the elements of `m` once each and all that stands before an element in `l` stands
before every occurrence of it in `m`, then `l` is `m` with its repetitions taken out. -/
theorem eq_eraseDups {l m : List α} (hd : l.Nodup) (hm : ∀ x, x ∈ l ↔ x ∈ m)
    (ho : l.Pairwise fun x y => ∀ front rest, m = front ++ y :: rest → x ∈ front) :
    l = m.eraseDups := by
  induction hlen : m.length using Nat.strongRecOn generalizing l m with
  | ind k ih =>
  cases m with
  | nil =>
    rw [List.eraseDups_nil, List.eq_nil_iff_forall_not_mem]
    exact fun x hx => List.not_mem_nil ((hm x).mp hx)
  | cons y m =>
    cases l with
    | nil => exact absurd ((hm y).mpr List.mem_cons_self) List.not_mem_nil
    | cons x l =>
      obtain ⟨hx, hdl⟩ := List.nodup_cons.mp hd
      obtain ⟨hfirst, hol⟩ := List.pairwise_cons.mp ho
      obtain rfl : y = x := by
        rcases List.mem_cons.mp ((hm y).mpr List.mem_cons_self) with h | h
        · exact h
        · -- `x` would stand before `y`, the first element of the list
          exact absurd (hfirst y h [] m rfl) List.not_mem_nil
      rw [List.eraseDups_cons]
      congr 1
      refine ih _ ?_ hdl (fun z => ?_) ?_ rfl
      · rw [← hlen, List.length_cons]
        exact Nat.lt_succ_of_le (List.length_filter_le ..)
      · rw [List.mem_filter, Bool.not_eq_true', beq_eq_false_iff_ne]
        refine ⟨fun hz => ?_, fun ⟨hz, hne⟩ => ?_⟩
        · have hne : z ≠ y := fun he => hx (he ▸ hz)
          exact ⟨(List.mem_cons.mp ((hm z).mp (List.mem_cons_of_mem _ hz))).resolve_left hne, hne⟩
        · exact (List.mem_cons.mp ((hm z).mpr (List.mem_cons_of_mem _ hz))).resolve_left hne
      · refine hol.imp_of_mem fun {u v} hu _ h front rest he => ?_
        obtain ⟨front', rest', rfl, hf, hr⟩ := List.filter_eq_append_iff.mp he
        obtain ⟨skipped, rest'', rfl, hskip, hv, -⟩ := List.filter_eq_cons_iff.mp hr
        have hne : u ≠ y := fun he => hx (he ▸ hu)
        have hmem := h (y :: front' ++ skipped) rest'' (by simp)
        simp only [List.cons_append, List.mem_cons, List.mem_append] at hmem
        rw [← hf, List.mem_filter, Bool.not_eq_true', beq_eq_false_iff_ne]
        rcases hmem with he | hu | hu
        · exact absurd he hne
        · exact ⟨hu, hne⟩
        · exact absurd (by simpa using hne) (hskip u hu)

end LRAutomata

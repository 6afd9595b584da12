import LRAutomata.Proofs.Grammar.WellFormed
import Mathlib.Data.List.Nodup

/-!
# What a grammar keeps of its declarations

* `Draft.Distinct`: no name and no rule is declared twice, which the declarations keep, so that a
  production has one number (`Grammar.Defined.production?_inj`);
* `Draft.Extends`: what the accepted declarations of a run add to a draft;
* `Draft.run_accepted`: without the refused declarations a run comes to the same;
* `Draft.files_run`: what is declared is under the number given out for it.
-/

namespace LRAutomata

namespace Declaration

/-- The name of the terminal declared. -/
def terminal? : Declaration → Option String
  | terminal name => some name
  | _ => none

/-- The name of the nonterminal declared. -/
def nonterminal? : Declaration → Option String
  | nonterminal name => some name
  | _ => none

/-- The rule declared. -/
def rule? : Declaration → Option Production
  | rule left right => some ⟨left, right⟩
  | _ => none

/-- The start symbol asked for. -/
def start? : Declaration → Option Nonterminal
  | start n => some n
  | _ => none

end Declaration

namespace Grammar

/-- Whether the number that a declaration was given is the one that the grammar has it under. -/
def Files (g : Grammar) : Declaration → Option UInt16 → Prop
  | .terminal name, some i => g.terminalName? ⟨i⟩ = some name
  | .nonterminal name, some i => g.nonterminalName? ⟨i⟩ = some name
  | .rule left right, some i => g.production? ⟨i⟩ = some ⟨left, right⟩
  | .start _, none => True
  | _, _ => False

end Grammar

namespace Draft

/-- No name and no rule occurs twice. -/
structure Distinct (d : Draft) : Prop where
  terminals : d.terminals.values.Nodup
  nonterminals : d.nonterminals.values.Nodup
  productions : d.productions.values.Nodup

theorem distinct_empty : empty.Distinct where
  terminals := by decide
  nonterminals := by decide
  productions := .nil

section

variable {d d' d'' : Draft} {step : Declaration} {number : Option UInt16}
  {steps steps' : List Declaration}

theorem Distinct.of_accepts (h : d.Distinct) (hc : d.Counted) (ha : d.Accepts step number d') :
    d'.Distinct := by
  have nodup {α : Type} {l : List α} {x : α} (hl : l.Nodup) (hx : x ∉ l) : (l ++ [x]).Nodup := by
    rw [← List.concat_eq_append]
    exact hl.concat hx
  cases ha with
  | terminal hn _ =>
    refine { h with terminals := ?_ }
    rw [hc.terminals.values_insert hc.nextTerminal_eq]
    exact nodup h.terminals hn
  | nonterminal hn _ =>
    refine { h with nonterminals := ?_ }
    rw [hc.nonterminals.values_insert hc.nextNonterminal_eq]
    exact nodup h.nonterminals hn
  | rule _ _ hn _ =>
    refine { h with productions := ?_ }
    rw [hc.productions.values_insert hc.nextProduction_eq]
    exact nodup h.productions hn
  | start _ => exact { h with }

theorem distinct_run (hc : d.Counted) (h : d.Distinct) (steps : List Declaration) :
    (d.run false steps).2.Distinct :=
  (run_induction (P := fun d => d.Counted ∧ d.Distinct)
    (fun h ha => ⟨h.1.of_accepts ha, h.2.of_accepts h.1 ha⟩) ⟨hc, h⟩ steps).2

/-! ## What declarations add -/

/-- `d'` is `d` with all that the declarations add, in their order. -/
structure Extends (d : Draft) (steps : List Declaration) (d' : Draft) : Prop where
  terminals : d'.terminals.values = d.terminals.values ++ steps.filterMap Declaration.terminal?
  nonterminals :
    d'.nonterminals.values = d.nonterminals.values ++ steps.filterMap Declaration.nonterminal?
  productions : d'.productions.values = d.productions.values ++ steps.filterMap Declaration.rule?
  start : d'.start = (steps.filterMap Declaration.start?).getLast?.or d.start

theorem Extends.refl (d : Draft) : d.Extends [] d where
  terminals := (List.append_nil _).symm
  nonterminals := (List.append_nil _).symm
  productions := (List.append_nil _).symm
  start := rfl

theorem Extends.trans (h : d.Extends steps d') (h' : d'.Extends steps' d'') :
    d.Extends (steps ++ steps') d'' where
  terminals := by rw [h'.terminals, h.terminals, List.filterMap_append, List.append_assoc]
  nonterminals := by
    rw [h'.nonterminals, h.nonterminals, List.filterMap_append, List.append_assoc]
  productions := by
    rw [h'.productions, h.productions, List.filterMap_append, List.append_assoc]
  start := by
    rw [h'.start, h.start, List.filterMap_append, List.getLast?_append, Option.or_assoc]

theorem Accepts.extends (ha : d.Accepts step number d') (h : d.Counted) : d.Extends [step] d' := by
  cases ha with
  | terminal =>
    exact { Extends.refl d with terminals := h.terminals.values_insert h.nextTerminal_eq _ }
  | nonterminal =>
    exact { Extends.refl d with
      nonterminals := h.nonterminals.values_insert h.nextNonterminal_eq _ }
  | rule =>
    exact { Extends.refl d with productions := h.productions.values_insert h.nextProduction_eq _ }
  | start => exact { Extends.refl d with start := rfl }

/-! ## Runs -/

/-- The declarations of a run that are not refused. -/
def accepted (d : Draft) (steps : List Declaration) : List Declaration :=
  ((steps.zip (d.run false steps).1).filter fun p => p.2.isOk).map Prod.fst

theorem run_cons_ok (strict : Bool) (h : d.declare step = .ok (number, d')) :
    d.run strict (step :: steps) =
      (.ok number :: (d'.run strict steps).1, (d'.run strict steps).2) := by
  rw [run, h]

theorem run_cons_error {e : GrammarError} (h : d.declare step = .error e) :
    d.run false (step :: steps) = (.error e :: (d.run false steps).1, (d.run false steps).2) := by
  rw [run, h]
  rfl

theorem accepted_cons_ok (h : d.declare step = .ok (number, d')) :
    d.accepted (step :: steps) = step :: d'.accepted steps := by
  rw [accepted, run_cons_ok false h]
  rfl

theorem accepted_cons_error {e : GrammarError} (h : d.declare step = .error e) :
    d.accepted (step :: steps) = d.accepted steps := by
  rw [accepted, run_cons_error h]
  rfl

/-- A run adds what its accepted declarations add. -/
theorem extends_run (hc : d.Counted) (steps : List Declaration) :
    d.Extends (d.accepted steps) (d.run false steps).2 := by
  induction steps generalizing d with
  | nil => exact .refl d
  | cons step steps ih =>
    cases h : d.declare step with
    | ok r =>
      have ha := accepts_of_declare h
      rw [accepted_cons_ok h, run_cons_ok false h]
      exact (ha.extends hc).trans (ih (hc.of_accepts ha))
    | error e =>
      rw [accepted_cons_error h, run_cons_error h]
      exact ih hc

/-- The accepted declarations of a run are accepted again when the others are left out, and they
get the same numbers. -/
theorem run_accepted (strict : Bool) (d : Draft) (steps : List Declaration) :
    d.run strict (d.accepted steps) =
      ((d.run false steps).1.filter Except.isOk, (d.run false steps).2) := by
  induction steps generalizing d with
  | nil => rfl
  | cons step steps ih =>
    cases h : d.declare step with
    | ok r =>
      rw [accepted_cons_ok h, run_cons_ok false h, run_cons_ok strict h, ih]
      rfl
    | error e =>
      rw [accepted_cons_error h, run_cons_error h, ih]
      rfl

/-- Stopping at the first refused declaration is no different where none is refused. -/
theorem run_of_foldlM
    (h : steps.foldlM (fun d step => (d.declare step).map Prod.snd) d = .ok d') :
    (d.run false steps).2 = d' := by
  induction steps generalizing d with
  | nil => exact Except.ok.inj h
  | cons step steps ih =>
    rw [List.foldlM_cons] at h
    cases hd : d.declare step with
    | ok r =>
      rw [hd] at h
      rw [run_cons_ok false hd]
      exact ih h
    | error e =>
      rw [hd] at h
      cases h

theorem foldlM_accepted (d : Draft) (steps : List Declaration) :
    (d.accepted steps).foldlM (fun d step => (d.declare step).map Prod.snd) d =
      .ok (d.run false steps).2 := by
  induction steps generalizing d with
  | nil => rfl
  | cons step steps ih =>
    cases h : d.declare step with
    | ok r =>
      rw [accepted_cons_ok h, run_cons_ok false h, List.foldlM_cons, h]
      exact ih r.2
    | error e =>
      rw [accepted_cons_error h, run_cons_error h]
      exact ih d

/-! ## Numbers given out -/

theorem getElem?_of_append {α : Type} {xs ys : List α} {x : α} {more : List α}
    (h : ys = (xs ++ [x]) ++ more) : ys[xs.length]? = some x := by
  rw [h, List.append_assoc, List.getElem?_append_right (Nat.le_refl _), Nat.sub_self]
  rfl

/-- What a declaration adds is under the number that it gave out, whatever is declared later. -/
theorem Accepts.files (ha : d.Accepts step number d') (hc : d.Counted) (h : d'.Extends steps d'')
    (n : Nonterminal) : (d''.completed n).Files step number := by
  cases ha with
  | terminal =>
    have hnext : d.nextTerminal.toNat = d.terminals.values.length :=
      hc.nextTerminal_eq.trans (by rw [IndexedMap.length_values, Nat.zero_add])
    have hvalues := h.terminals
    rw [hc.terminals.values_insert hc.nextTerminal_eq] at hvalues
    show d''.terminals.values.toArray[d.nextTerminal.toNat]? = some _
    rw [List.getElem?_toArray, hnext]
    exact getElem?_of_append hvalues
  | nonterminal =>
    have hnext : d.nextNonterminal.toNat = d.nonterminals.values.length :=
      hc.nextNonterminal_eq.trans (by rw [IndexedMap.length_values, Nat.zero_add])
    have hvalues := h.nonterminals
    rw [hc.nonterminals.values_insert hc.nextNonterminal_eq] at hvalues
    show d''.nonterminals.values.toArray[d.nextNonterminal.toNat]? = some _
    rw [List.getElem?_toArray, hnext]
    exact getElem?_of_append hvalues
  | rule =>
    have hnext : d.nextProduction.toNat = d.productions.values.length + 1 :=
      hc.nextProduction_eq.trans (by rw [IndexedMap.length_values, Nat.add_comm])
    have hvalues := h.productions
    rw [hc.productions.values_insert hc.nextProduction_eq] at hvalues
    show (_ :: d''.productions.values).toArray[d.nextProduction.toNat]? = some _
    rw [List.getElem?_toArray, hnext, List.getElem?_cons_succ]
    exact getElem?_of_append hvalues
  | start => trivial

theorem files_run (h : d.Counted) (n : Nonterminal)
    (hm : (step, .ok number) ∈ steps.zip (d.run false steps).1) :
    ((d.run false steps).2.completed n).Files step number := by
  induction steps generalizing d with
  | nil => cases hm
  | cons first steps ih =>
    cases hd : d.declare first with
    | ok r =>
      rw [run_cons_ok false hd, List.zip_cons_cons, List.mem_cons] at hm
      rw [run_cons_ok false hd]
      have ha := accepts_of_declare hd
      rcases hm with he | hm
      · cases he
        exact ha.files h (extends_run (h.of_accepts ha) steps) n
      · exact ih (h.of_accepts ha) hm
    | error e =>
      rw [run_cons_error hd, List.zip_cons_cons, List.mem_cons] at hm
      rw [run_cons_error hd]
      exact ih h (hm.resolve_left fun he => by cases he)

/-- The productions of the completed grammar are all different. -/
theorem Distinct.nodup_productions (h : d.Distinct) (hs : d.Sound) (n : Nonterminal) :
    (d.completed n).productions.toList.Nodup := by
  rw [completed, List.toList_toArray]
  refine List.nodup_cons.mpr ⟨fun hm => ?_, h.productions⟩
  exact (hs.hasNonterminal_iff.mp (hs.left hm)).1 rfl

end

end Draft

namespace Grammar

variable {g : Grammar}

/-- A grammar whose declarations all succeed is a special case. -/
theorem defined_of_define {steps : List Declaration} (h : define steps = .ok g) : g.Defined := by
  obtain ⟨d, hd, h⟩ := bind_eq_ok.mp h
  refine ⟨steps, ?_⟩
  rw [defineAccepted, Draft.run_of_foldlM hd]
  exact h

/-- A grammar comes out of a draft that is sound and declares nothing twice. -/
theorem Defined.exists_draft (h : g.Defined) :
    ∃ d n, d.Sound ∧ d.Distinct ∧ g = Draft.completed d n := by
  obtain ⟨steps, h⟩ := h
  obtain ⟨n, -, rfl⟩ := eq_completed_of_defineAccepted h
  exact ⟨_, n, Draft.sound_run Draft.sound_empty steps,
    Draft.distinct_run Draft.counted_empty Draft.distinct_empty steps, rfl⟩

/-- A production has one number. -/
theorem Defined.production?_inj (h : g.Defined) {p q : ProductionId} {rule : Production}
    (hp : g.production? p = some rule) (hq : g.production? q = some rule) : p = q := by
  obtain ⟨d, n, hs, hd, rfl⟩ := h.exists_draft
  refine ProductionId.rank_inj ((List.getElem?_inj (WellFormed.lt_of_production? hp)
    (hd.nodup_productions hs n)).mp ?_)
  rw [Array.getElem?_toList, Array.getElem?_toList]
  exact hp.trans hq.symm

end Grammar

end LRAutomata

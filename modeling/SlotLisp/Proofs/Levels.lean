import SlotLisp.Proofs.Congruence

/-!
# More levels

An evaluation that finds no level left is refused, and leaves a note about it in the journal. So a
run has met the limit exactly if there are more such notes after it, also where `eval` has made an
error atom of the refusal.

**Theorem (`outcome_evaluate_of_le`).** A run that does not meet the limit has the same outcome with
more levels.
-/

namespace SlotLisp

/-- How many evaluations have been refused at the limit. -/
def Store.refusals (s : Store) : Nat := s.journal.count (.noted .depthReached)

/-- Evaluating a call meets the limit on nested evaluations. -/
def Machine.MeetsLimit (m : Machine) (context : Closure) (call : List Atom) : Prop :=
  m.store.refusals < (m.evaluate context call).2.store.refusals

namespace Eval

/-- Wherever `m` does not meet the limit, `m'` has the same outcome. Refusals are never taken back,
which makes the relation one of every part of a run if it is one of the whole. -/
def AgreesWithin (α : Type) (m m' : Eval α) : Prop :=
  ∀ s : Store, s.refusals ≤ (outcome m s).2.refusals ∧
    ((outcome m s).2.refusals = s.refusals → outcome m' s = outcome m s)

theorem AgreesWithin.of_same {α : Type} {m : Eval α}
    (h : ∀ s : Store, s.refusals ≤ (outcome m s).2.refusals) : AgreesWithin α m m :=
  fun s => ⟨h s, fun _ => rfl⟩

theorem AgreesWithin.bind {α β : Type} {m m' : Eval α} {f f' : α → Eval β}
    (hm : AgreesWithin α m m') (hf : ∀ a, AgreesWithin β (f a) (f' a)) :
    AgreesWithin β (m >>= f) (m' >>= f') := by
  intro s
  obtain ⟨hle, heq⟩ := hm s
  rw [outcome_bind, outcome_bind]
  rcases hrun : outcome m s with ⟨e | a, s₁⟩
  · rw [hrun] at hle heq
    refine ⟨hle, fun h => ?_⟩
    rw [heq h]
  · rw [hrun] at hle heq
    obtain ⟨hle', heq'⟩ := hf a s₁
    refine ⟨Nat.le_trans hle hle', fun h => ?_⟩
    -- Nothing was refused in either part.
    have h₁ : s₁.refusals = s.refusals := Nat.le_antisymm (h ▸ hle') hle
    rw [heq h₁]
    exact heq' (h.trans h₁.symm)

theorem AgreesWithin.reified {m m' : Eval Atom} (hm : AgreesWithin Atom m m') :
    AgreesWithin Atom (reified m) (reified m') := by
  intro s
  obtain ⟨hle, heq⟩ := hm s
  rw [outcome_reified, outcome_reified]
  rcases hrun : outcome m s with ⟨e | a, s₁⟩
  all_goals
    rw [hrun] at hle heq
    exact ⟨hle, fun h => by rw [heq h]⟩

theorem congruence_agreesWithin :
    Congruence (fun _ => True) fun α _ m m' => AgreesWithin α m m' where
  pure _ := .of_same fun s => Nat.le_refl _
  bind hm hf := hm.bind fun a => hf a (symbolsIn_true a)
  throw e := .of_same fun s => Nat.le_refl _
  reified := .reified
  resolve _ _ := .of_same fun s => Nat.le_of_eq (by rw [outcome_resolve])
  record e := .of_same fun s => by
    rw [outcome_record, Store.refusals, Store.refusals, Array.count_push]
    exact Nat.le_add_right _ _
  bindGlobal _ _ := .of_same fun s => Nat.le_refl _
  tagging _ := .of_same fun s => Nat.le_refl _

/-- An evaluation that is refused meets the limit. -/
theorem agreesWithin_refused (m : Eval Atom) :
    AgreesWithin Atom (refuse .depthReached .depthExceeded) m := by
  intro s
  rw [outcome_refuse, Store.refusals, Store.refusals, Array.count_push_self]
  exact ⟨Nat.le_succ _, fun h => absurd h (Nat.succ_ne_self _)⟩

theorem agreesWithin_evaluate {k k' : Nat} (hk : k ≤ k') (context : Closure) (row : List Atom) :
    AgreesWithin Atom (evaluate k context row) (evaluate k' context row) := by
  induction k generalizing k' context row with
  | zero =>
    cases row with
    | nil =>
      cases k' <;> exact congruence_agreesWithin.refuse _ _
    | cons head params => exact agreesWithin_refused _
  | succ k ih =>
    obtain ⟨j, rfl⟩ : ∃ j, k' = j + 1 := ⟨k' - 1, by omega⟩
    have hlevels : Related (fun _ => True) (fun α _ m m' => AgreesWithin α m m') (evaluate k)
        (evaluate j) := fun context row _ _ => ih (Nat.le_of_succ_le_succ hk) context row
    exact congruence_agreesWithin.evaluate_succ hlevels context row (symbolsIn_true context)
      (symbolsIn_true row)

/-- A run that does not meet the limit has the same outcome with more levels. -/
theorem outcome_evaluate_of_le {k k' : Nat} (hk : k ≤ k') {context : Closure} {row : List Atom}
    {s : Store} (h : (outcome (evaluate k context row) s).2.refusals = s.refusals) :
    outcome (evaluate k' context row) s = outcome (evaluate k context row) s :=
  (agreesWithin_evaluate hk context row s).2 h

end Eval

/-- A run that does not meet the limit leaves as many refusals as there were. -/
theorem Machine.refusals_of_not_meetsLimit {m : Machine} {context : Closure} {row : List Atom}
    (h : ¬m.MeetsLimit context row) :
    (Eval.outcome (SlotLisp.evaluate m.levels context row) m.store).2.refusals =
      m.store.refusals :=
  Nat.le_antisymm (Nat.not_lt.1 h)
    (Eval.agreesWithin_evaluate (Nat.le_refl m.levels) context row m.store).1

end SlotLisp

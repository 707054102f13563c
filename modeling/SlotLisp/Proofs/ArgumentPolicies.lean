import SlotLisp.Proofs.PureEvaluation

/-!
# Strict arguments, lazy arguments and calls

A list can be met in three places: as a call, as a lazy argument and as a strict argument. A call
passes its parameters on as they are. A lazy argument is the call of its items after one level of
resolving, so that its parameters are replaced by what they mean. A strict argument is the call of
the strict values of its items, so that all lists in it are called before it is, whatever its head.

So the three differ, in general. For instance, only `(if true 1 (undefined))` as a lazy argument
leaves the branch that is not selected alone, and only `(global x 2)` as a call binds an `x` that
is bound already. This file tells when they agree.

**Theorems.** Strict and lazy arguments agree on a list without lists in it, on pure calls, and
otherwise, for a row of parameters and all heads at once, exactly if evaluating the row ahead only
resolves it (`strictArgument_agrees`). Lazy arguments and calls agree on pure calls, and for a row
of parameters and all heads at once, exactly if resolving leaves the row as it is
(`lazyArgument_agrees`).
-/

namespace SlotLisp

/-! ## Quoting shows everything -/

namespace Eval

theorem outcome_quote (params : List Atom) (s : Store) :
    outcome (quote params) s =
      (.ok (.list params (Atom.tagRow params s.nextTag).1),
        { s with nextTag := (Atom.tagRow params s.nextTag).2 }) := rfl

theorem tagRow_snd_inj {params : List Atom} {i j : ℕ}
    (h : (Atom.tagRow params i).2 = (Atom.tagRow params j).2) : i = j := by
  unfold Atom.tagRow at h
  split at h
  · exact Nat.succ.inj h
  · exact h

/-- Quoting tells rows and stores apart. -/
theorem outcome_quote_inj {params params' : List Atom} {s s' : Store}
    (h : outcome (quote params) s = outcome (quote params') s') : params = params' ∧ s = s' := by
  obtain ⟨globals, journal, nextTag⟩ := s
  obtain ⟨globals', journal', nextTag'⟩ := s'
  rw [outcome_quote, outcome_quote] at h
  simp only [Prod.mk.injEq, Except.ok.injEq, Atom.list.injEq, Store.mk.injEq] at h
  obtain ⟨⟨rfl, -⟩, rfl, rfl, htag⟩ := h
  exact ⟨rfl, by rw [tagRow_snd_inj htag]⟩

theorem outcome_evaluate_quote {levels : ℕ} (h : 0 < levels) (context : Closure)
    (params : List Atom) (s : Store) :
    outcome (evaluate levels context (.native .quote :: params)) s = outcome (quote params) s := by
  obtain ⟨k, rfl⟩ : ∃ k, levels = k + 1 := ⟨levels - 1, by omega⟩
  have hcallee : s.globals.callee (.native .quote) = .native .quote := rfl
  rw [outcome_evaluate_native hcallee]
  rfl

theorem outcome_lazyArgument_quote {levels : ℕ} (h : 0 < levels) (context : Closure)
    (params : List Atom) (tag : Tag) (s : Store) :
    outcome (lazyArgument (evaluate levels) context (.list (.native .quote :: params) tag)) s =
      outcome (quote (params.map (context.meaning s.globals))) s := by
  have hhead : context.meaning s.globals (.native .quote) = .native .quote := rfl
  rw [outcome_lazyArgument_list, List.map_cons, hhead, outcome_evaluate_quote h]

/-! ## Strict and lazy arguments -/

variable {call : Evaluator} {context : Closure} {s : Store} {params : List Atom}

theorem outcome_lazyArgument_unresolved {levels : ℕ} {head : Atom}
    (hhead : s.globals.callee (context.meaning s.globals head) = s.globals.callee head)
    (hparams : params.map (context.meaning s.globals) = params) (tag : Tag) :
    outcome (lazyArgument (evaluate levels) context (.list (head :: params) tag)) s =
      outcome (evaluate levels context (head :: params)) s := by
  rw [outcome_lazyArgument_list, List.map_cons, hparams, outcome_evaluate_head hhead]

theorem lazyArgument_eq_evaluate_iff {levels : ℕ} :
    (∀ (head : Atom) (tag : Tag),
      s.globals.callee (context.meaning s.globals head) = s.globals.callee head →
      outcome (lazyArgument (evaluate levels) context (.list (head :: params) tag)) s =
        outcome (evaluate levels context (head :: params)) s) ↔
      levels = 0 ∨ params.map (context.meaning s.globals) = params := by
  constructor
  · intro hall
    rcases Nat.eq_zero_or_pos levels with h | h
    · exact Or.inl h
    · have hquote := hall (.native .quote) none rfl
      rw [outcome_lazyArgument_quote h, outcome_evaluate_quote h] at hquote
      exact Or.inr (outcome_quote_inj hquote).1
  · intro h head tag hhead
    rcases h with rfl | h
    · rw [outcome_lazyArgument_list]
      rfl
    · exact outcome_lazyArgument_unresolved hhead h tag

end Eval

/-! ## When the three agree -/

/-- **Lazy arguments and calls.** A list as a lazy argument is the call of what its items mean. On a
pure call that is not higher than the levels that are left, this is the call itself. And lazy
arguments and calls agree on the lists with given parameters, for every head that resolving does
not make stand for another function, exactly if no level is left or the parameters mean
themselves. -/
theorem lazyArgument_agrees (m : Machine) (context : Closure) :
    (∀ (items : List Atom) (tag : Tag), m.lazyArgument context (.list items tag) =
      m.evaluate context (m.resolved context items)) ∧
    (m.store.globals.Seeded → ∀ (items : List Atom) (tag : Tag) (v : Value),
      Denotes context m.levels (.list items tag) v →
        m.lazyArgument context (.list items tag) = m.evaluate context items) ∧
    (∀ params : List Atom,
      (∀ (head : Atom) (tag : Tag),
        m.store.globals.callee (context.meaning m.store.globals head) =
          m.store.globals.callee head →
        m.lazyArgument context (.list (head :: params) tag) =
          m.evaluate context (head :: params)) ↔
        m.limit ≤ m.depth ∨ m.resolved context params = params) := by
  refine ⟨?_, ?_, ?_⟩
  · intro items tag
    exact Machine.onStore_eq_iff.2 (Eval.outcome_lazyArgument_list _ context items tag m.store)
  · intro hg items tag v h
    have hk := Eval.evaluatesForms context hg m.levels
    exact Machine.onStore_eq_iff.2
      ((Eval.outcome_lazyArgument hg hk h).trans (hk items tag v h).symm)
  · intro params
    rw [← Nat.sub_eq_zero_iff_le]
    refine Iff.trans ?_ Eval.lazyArgument_eq_evaluate_iff
    exact forall₃_congr fun _ _ _ => Machine.onStore_eq_iff

/-- Lazy arguments and calls differ: where `x` is bound, `(global x 2)` binds it anew as a call, and
as a lazy argument it fails. -/
theorem lazyArgument_global_bound :
    let two : Atom := .number ⟨0x40000000⟩
    let m : Machine := ({} : Machine).bind (ascii "x") (.number ⟨0x3f800000⟩)
    let row : List Atom := [.symbol (ascii "global"), .symbol (ascii "x"), two]
    (m.lazyArgument .empty (.list row none)).1 = .error .notASymbol ∧
      (m.evaluate .empty row).1 = .ok .nil ∧
      (m.evaluate .empty row).2.lookup (ascii "x") = some two :=
  ⟨rfl, rfl, rfl⟩

/-- The pure call `(neg pi)`, and `(quote a b)` where neither symbol is bound. -/
theorem lazyArgument_agrees_at_start :
    let m : Machine := {}
    let negated : List Atom := [.symbol (ascii "neg"), .symbol (ascii "pi")]
    let quoted : List Atom := [.symbol (ascii "quote"), .symbol (ascii "a"), .symbol (ascii "b")]
    m.lazyArgument .empty (.list negated none) = m.evaluate .empty negated ∧
      m.lazyArgument .empty (.list quoted none) = m.evaluate .empty quoted := by
  intro m negated quoted
  obtain ⟨-, hpure, hrow⟩ := lazyArgument_agrees m .empty
  have hnegated : Denotes .empty 2000 (.list negated none) (.number ⟨0xc0490fdb⟩) :=
    Or.inr (.call (.symbol .negate) (.operator .negate [.number ⟨0x40490fdb⟩])
      (.cons ((Leaf.constant .pi).denotes _) .nil))
  exact ⟨hpure Globals.seeded_initial _ _ _ hnegated, (hrow _).2 (Or.inr rfl) _ none rfl⟩

end SlotLisp

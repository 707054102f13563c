import SlotLisp.Proofs.Congruence

/-!
# Globals that are not named

A global is read and bound by its name alone, and the only names are those of symbols. So what a
program does not name, it can neither see nor change.

**Theorem (`evaluate_unnamed_global`).** Where neither the call, nor the context, nor the value of
another global has the symbol `x` in it, evaluation does the same whatever the global `x` is bound
to, and leaves it as it is.

The proof follows two runs side by side whose stores are twins: they agree in all but the global
`x`, and have no symbol `x` in what they agree in. A step can only lead out of this if it comes upon
the symbol `x`, and no step makes that symbol of others (`Congruence`).
-/

namespace SlotLisp

theorem symbolsIn_ne_iff {α : Type} [HasSymbols α] {x : Text} {a : α} :
    SymbolsIn (· ≠ x) a ↔ x ∉ HasSymbols.symbols a := by
  constructor
  · intro h hmem
    exact h x hmem rfl
  · intro h name hname heq
    exact h (heq ▸ hname)

/-! ## Twins -/

/-- Stores that differ at most in the global `x`, and hold no symbol `x` in their other globals. -/
structure Store.Twins (x : Text) (s s' : Store) : Prop where
  globals : ∀ name, name ≠ x → s'.globals.find? name = s.globals.find? name
  values : ∀ name value, name ≠ x → s.globals.find? name = some value → SymbolsIn (· ≠ x) value
  journal : s'.journal = s.journal
  nextTag : s'.nextTag = s.nextTag

namespace Store.Twins

variable {x : Text} {s s' : Store}

theorem valueOf (h : s.Twins x s') {name : Text} (hname : name ≠ x) :
    s'.globals.valueOf name = s.globals.valueOf name := by
  rw [Globals.valueOf, Globals.valueOf, h.globals name hname]

theorem symbolsIn_valueOf (h : s.Twins x s') {name : Text} (hname : name ≠ x) :
    SymbolsIn (· ≠ x) (s.globals.valueOf name) := by
  rw [Globals.valueOf]
  cases hfind : s.globals.find? name with
  | none => exact symbolsIn_symbol.2 hname
  | some value => exact h.values name value hname hfind

theorem bind (h : s.Twins x s') {name : Text} (hname : name ≠ x) {value : Atom}
    (hvalue : SymbolsIn (· ≠ x) value) :
    Store.Twins x { s with globals := s.globals.bind name value }
      { s' with globals := s'.globals.bind name value } where
  globals other hother := by
    by_cases heq : other = name
    · subst heq
      simp
    · simp only [Globals.find?_bind_of_ne _ heq]
      exact h.globals other hother
  values other found hother hfind := by
    by_cases heq : other = name
    · subst heq
      simp only [Globals.find?_bind_self, Option.some.injEq] at hfind
      exact hfind ▸ hvalue
    · simp only [Globals.find?_bind_of_ne _ heq] at hfind
      exact h.values other found hother hfind
  journal := h.journal
  nextTag := h.nextTag

end Store.Twins

/-- From the twins `s` and `s'` runs have led to the twins `t` and `t'`, and have not changed the
global `x`. -/
structure Store.LeadTo (x : Text) (s s' t t' : Store) : Prop where
  twins : t.Twins x t'
  left : t.globals.find? x = s.globals.find? x
  right : t'.globals.find? x = s'.globals.find? x

theorem Store.Twins.leadTo {x : Text} {s s' : Store} (h : s.Twins x s') :
    Store.LeadTo x s s' s s' :=
  ⟨h, rfl, rfl⟩

theorem Store.LeadTo.trans {x : Text} {s s' t t' u u' : Store} (h : Store.LeadTo x s s' t t')
    (h' : Store.LeadTo x t t' u u') : Store.LeadTo x s s' u u' :=
  ⟨h'.twins, h'.left.trans h.left, h'.right.trans h.right⟩

/-! ## Runs from twins -/

namespace Eval

variable {x : Text} {α β : Type} [HasSymbols α] [HasSymbols β]

/-- Two runs from `s` and `s'` that end alike: with the same value, which has no symbol `x` in it,
or with the same failure. -/
inductive SameRun (x : Text) (s s' : Store) :
    Except EvalError α × Store → Except EvalError α × Store → Prop
  | ok {a : α} {t t' : Store} (ha : SymbolsIn (· ≠ x) a) (h : Store.LeadTo x s s' t t') :
      SameRun x s s' (.ok a, t) (.ok a, t')
  | error {e : EvalError} {t t' : Store} (h : Store.LeadTo x s s' t t') :
      SameRun x s s' (.error e, t) (.error e, t')

/-- From twins, both computations run alike. -/
def SameOnTwins (x : Text) (α : Type) [HasSymbols α] (m m' : Eval α) : Prop :=
  ∀ s s' : Store, s.Twins x s' → SameRun x s s' (outcome m s) (outcome m' s')

theorem SameRun.result {s s' : Store} {p p' : Except EvalError α × Store}
    (h : SameRun x s s' p p') : p'.1 = p.1 := by
  cases h <;> rfl

theorem SameRun.leadTo {s s' : Store} {p p' : Except EvalError α × Store}
    (h : SameRun x s s' p p') : Store.LeadTo x s s' p.2 p'.2 := by
  cases h with
  | ok _ h => exact h
  | error h => exact h

theorem SameRun.behind {s s' t t' : Store} {p p' : Except EvalError α × Store}
    (h : SameRun x t t' p p') (hlead : Store.LeadTo x s s' t t') : SameRun x s s' p p' := by
  cases h with
  | ok ha h => exact .ok ha (hlead.trans h)
  | error h => exact .error (hlead.trans h)

theorem SameOnTwins.bind {m m' : Eval α} {f f' : α → Eval β} (hm : SameOnTwins x α m m')
    (hf : ∀ a, SymbolsIn (· ≠ x) a → SameOnTwins x β (f a) (f' a)) :
    SameOnTwins x β (m >>= f) (m' >>= f') := by
  intro s s' h
  have hfirst := hm s s' h
  rw [outcome_bind, outcome_bind]
  generalize outcome m s = p at hfirst ⊢
  generalize outcome m' s' = p' at hfirst ⊢
  cases hfirst with
  | ok ha hlead => exact (hf _ ha _ _ hlead.twins).behind hlead
  | error hlead => exact .error hlead

theorem SameOnTwins.reified {m m' : Eval Atom} (hm : SameOnTwins x Atom m m') :
    SameOnTwins x Atom (reified m) (reified m') := by
  intro s s' h
  have hfirst := hm s s' h
  rw [outcome_reified, outcome_reified]
  generalize outcome m s = p at hfirst ⊢
  generalize outcome m' s' = p' at hfirst ⊢
  cases hfirst with
  | ok ha hlead => exact .ok ha hlead
  | error hlead => exact .ok (symbolsIn_of_no_symbols rfl) hlead

theorem SameOnTwins.resolve {context : Closure} {a : Atom} (hcontext : SymbolsIn (· ≠ x) context)
    (ha : SymbolsIn (· ≠ x) a) : SameOnTwins x Atom (resolve context a) (resolve context a) := by
  intro s s' h
  rw [outcome_resolve, outcome_resolve]
  cases a with
  | symbol name =>
    -- The only step that looks at the globals, and it looks at one that twins have in common.
    have hname : name ≠ x := (symbolsIn_symbol (N := (· ≠ x))).1 ha
    simp only [ClosureOf.meaning, h.valueOf hname]
    exact .ok (h.symbolsIn_valueOf hname) h.leadTo
  | _ => exact .ok (ClosureOf.symbolsIn_resolve hcontext ha) h.leadTo

theorem SameOnTwins.bindGlobal {name : Text} {value : Atom} (hname : name ≠ x)
    (hvalue : SymbolsIn (· ≠ x) value) :
    SameOnTwins x Unit (bindGlobal name value) (bindGlobal name value) := by
  intro s s' h
  rw [outcome_bindGlobal, outcome_bindGlobal]
  refine .ok (symbolsIn_of_no_symbols rfl) ⟨h.bind hname hvalue, ?_, ?_⟩
  · exact Globals.find?_bind_of_ne _ (Ne.symm hname) value
  · exact Globals.find?_bind_of_ne _ (Ne.symm hname) value

theorem congruence_sameOnTwins (x : Text) : Congruence (· ≠ x) (SameOnTwins x) where
  pure ha s s' h := .ok ha h.leadTo
  bind := .bind
  throw e s s' h := .error h.leadTo
  reified := .reified
  resolve := .resolve
  record e s s' h := by
    have hjournal : s'.journal.push e = s.journal.push e := by rw [h.journal]
    exact .ok (symbolsIn_of_no_symbols rfl) ⟨⟨h.globals, h.values, hjournal, h.nextTag⟩, rfl, rfl⟩
  bindGlobal := .bindGlobal
  tagging {α _ m} hm s s' h := by
    rw [outcome_tagging, outcome_tagging, h.nextTag]
    exact .ok (hm _) ⟨⟨h.globals, h.values, h.journal, rfl⟩, rfl, rfl⟩

/-- Without the symbol `x`, evaluation runs alike from twins. -/
theorem related_sameOnTwins (x : Text) (levels : Nat) :
    Related (· ≠ x) (SameOnTwins x) (evaluate levels) (evaluate levels) := by
  induction levels with
  | zero =>
    intro context row _ _
    cases row <;> exact (congruence_sameOnTwins x).refuse _ _
  | succ levels ih => exact (congruence_sameOnTwins x).evaluate_succ ih

end Eval

/-! ## Machines -/

/-- The machine with another table of globals. -/
def Machine.withGlobals (m : Machine) (g : Globals) : Machine :=
  { m with store := { m.store with globals := g } }

/-- **What is not named is neither seen nor changed.** Let there be no symbol `x` in a call, in its
context, and in the values of all globals but `x`. In two machines that differ in the global `x`
alone, if at all, evaluating the call has the same result and leaves the same journal and the same
globals other than `x`, and in each of them the global `x` is as before. -/
theorem evaluate_unnamed_global (m : Machine) {context : Closure} {row : List Atom} {x : Text}
    (hrow : x ∉ Atom.symbolsAll row) (hcontext : x ∉ context.symbols)
    (hglobals : ∀ name value, name ≠ x → m.lookup name = some value → x ∉ value.symbols)
    {g g' : Globals} (hg : ∀ name, name ≠ x → g.find? name = m.lookup name)
    (hg' : ∀ name, name ≠ x → g'.find? name = m.lookup name) :
    let (result, left) := (m.withGlobals g).evaluate context row
    let (result', left') := (m.withGlobals g').evaluate context row
    result' = result ∧ left'.store.journal = left.store.journal ∧
      (∀ name, name ≠ x → left'.lookup name = left.lookup name) ∧
      left.lookup x = g.find? x ∧ left'.lookup x = g'.find? x := by
  have htwins : (m.withGlobals g).store.Twins x (m.withGlobals g').store := by
    refine ⟨fun name hname => ?_, fun name value hname hfind => ?_, rfl, rfl⟩
    · exact (hg' name hname).trans (hg name hname).symm
    · exact symbolsIn_ne_iff.2 (hglobals name value hname ((hg name hname).symm.trans hfind))
  have hrun := Eval.related_sameOnTwins x m.levels context row (symbolsIn_ne_iff.2 hcontext)
    (symbolsIn_ne_iff.2 hrow) _ _ htwins
  have hlead := hrun.leadTo
  rw [Machine.evaluate, Machine.evaluate, Machine.onStore_eq, Machine.onStore_eq]
  exact ⟨hrun.result, hlead.twins.journal, hlead.twins.globals, hlead.left, hlead.right⟩

/-- The form `(eval (global f (lambda (y) (print y))) (f (quote z)))` binds a global, compiles,
prints and reifies, and does so alike with the global `x` unbound and bound to the list `(x)`. -/
theorem evaluate_unnamed_global_bound :
    let m : Machine := {}
    let x := ascii "x"
    let value : Atom := .list [.symbol x] none
    let g := Globals.initial.bind x value
    let body : Atom := .list [.symbol (ascii "print"), .symbol (ascii "y")] none
    let f : Atom := .list [.symbol (ascii "lambda"), .list [.symbol (ascii "y")] none, body] none
    let row : List Atom := [.symbol (ascii "eval"),
      .list [.symbol (ascii "global"), .symbol (ascii "f"), f] none,
      .list [.symbol (ascii "f"), .list [.symbol (ascii "quote"), .symbol (ascii "z")] none] none]
    x ∉ Atom.symbolsAll row ∧ x ∉ ClosureOf.empty.symbols ∧
      (∀ name value, name ≠ x → m.lookup name = some value → x ∉ value.symbols) ∧
      (∀ name, name ≠ x → g.find? name = m.lookup name) ∧
      ((m.withGlobals g).evaluate .empty row).1 = .ok (.list [.nil, .nil] none) ∧
      ((m.withGlobals g).evaluate .empty row).2.lookup x = some value := by
  intro m x value g body f row
  have hrow : x ∉ Atom.symbolsAll row := by decide
  have hcontext : x ∉ ClosureOf.empty.symbols := List.not_mem_nil
  have hglobals : ∀ name value, name ≠ x → m.lookup name = some value → x ∉ value.symbols := by
    intro name value _ hfind
    obtain ⟨before, after, heq, -⟩ := List.lookup_eq_some_iff.1 hfind
    have hmem : (name, value) ∈ Globals.initial.entries := by
      rw [show Globals.initial.entries = _ from heq]
      simp
    have hnone : ∀ e ∈ Globals.initial.entries, e.2.symbols = [] := by decide
    rw [hnone _ hmem]
    exact List.not_mem_nil
  have hg : ∀ name, name ≠ x → g.find? name = m.lookup name := by
    intro name hname
    exact Globals.find?_bind_of_ne _ hname value
  obtain ⟨hresult, -, -, -, hbound⟩ :=
    evaluate_unnamed_global m hrow hcontext hglobals (fun _ _ => rfl) hg
  exact ⟨hrow, hcontext, hglobals, hg, hresult.trans rfl, hbound.trans rfl⟩

end SlotLisp

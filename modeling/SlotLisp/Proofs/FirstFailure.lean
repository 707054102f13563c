import SlotLisp.Proofs.Outcome

/-!
# The first failing argument decides

The builtins `+`, `*`, `=` and `print` obtain all their arguments in order before they do anything
else.

**Theorem (`evaluate_first_failure`).** A call of one of them fails exactly if one of its arguments
does. The first one that fails decides the call: the error and all effects are those of obtaining
the arguments up to this one, and what follows it makes no difference.

A row of arguments is obtained by obtaining one part of it and then the other
(`strictArguments_append`). So a row that fails has a first item that fails, and the items in front
of it have been obtained (`exists_failing_item`).
-/

namespace SlotLisp

/-- The builtins that obtain all their arguments strictly. -/
def Builtin.strict : List Builtin := [.sum, .product, .equal, .print]

namespace Eval

variable {call : Evaluator} {context : Closure} {s s' : Store}

/-! ## Rows in parts -/

theorem strictArguments_append (call : Evaluator) (context : Closure) (as bs : List Atom) :
    strictArguments call context (as ++ bs) = do
      let vs ← strictArguments call context as
      let ws ← strictArguments call context bs
      return vs ++ ws := by
  induction as with
  | nil => simp [strictArguments]
  | cons a as ih => simp [strictArguments, ih]

/-- Where an item fails, nothing behind it is obtained. -/
theorem outcome_strictArguments_of_error {before vs : List Atom} {a : Atom} {e : EvalError}
    {s₁ : Store} (hbefore : outcome (strictArguments call context before) s = (.ok vs, s₁))
    (ha : outcome (strictArgument call context a) s₁ = (.error e, s')) (after : List Atom) :
    outcome (strictArguments call context (before ++ a :: after)) s = (.error e, s') := by
  have hrest : outcome (strictArguments call context (a :: after)) s₁ = (.error e, s') := by
    rw [strictArguments]
    exact outcome_bind_of_error ha _
  rw [strictArguments_append, outcome_bind_of_ok hbefore, outcome_bind_of_error hrest]

theorem exists_failing_item {row : List Atom} {e : EvalError}
    (h : outcome (strictArguments call context row) s = (.error e, s')) :
    ∃ before a after vs s₁, row = before ++ a :: after ∧
      outcome (strictArguments call context before) s = (.ok vs, s₁) ∧
      outcome (strictArgument call context a) s₁ = (.error e, s') := by
  induction row generalizing s with
  | nil =>
    rw [strictArguments] at h
    cases h
  | cons a as ih =>
    rw [strictArguments] at h
    rcases ha : outcome (strictArgument call context a) s with ⟨_ | v, s₁⟩
    · rw [outcome_bind_of_error ha] at h
      cases h
      exact ⟨[], a, as, [], s, rfl, by rw [strictArguments]; rfl, ha⟩
    · rw [outcome_bind_of_ok ha] at h
      rcases has : outcome (strictArguments call context as) s₁ with ⟨_ | vs, s₂⟩
      · rw [outcome_bind_of_error has] at h
        cases h
        obtain ⟨before, b, after, vs, s₃, rfl, hbefore, hb⟩ := ih has
        refine ⟨a :: before, b, after, v :: vs, s₃, rfl, ?_, hb⟩
        rw [strictArguments, outcome_bind_of_ok ha, outcome_bind_of_ok hbefore]
        rfl
      · rw [outcome_bind_of_ok has] at h
        cases h

/-! ## Strict builtins -/

/-- A strict builtin obtains its arguments, and then it does not fail any more. -/
theorem run_strict {f : Builtin} (hf : f ∈ Builtin.strict) (call : Evaluator) (context : Closure)
    (params : List Atom) :
    ∃ g : List Atom → Eval Atom,
      f.run call context params = strictArguments call context params >>= g ∧
        ∀ vs s, ∃ v s', outcome (g vs) s = (.ok v, s') := by
  simp only [Builtin.strict, List.mem_cons, List.not_mem_nil, or_false] at hf
  rcases hf with rfl | rfl | rfl | rfl
  all_goals exact ⟨_, rfl, fun vs s => ⟨_, _, rfl⟩⟩

end Eval

/-! ## Machines -/

namespace Machine

variable {m m' : Machine} {context : Closure} {before : List Atom} {a : Atom} {e : EvalError}

/-- The machine with another count of evaluations in progress. -/
def atDepth (m : Machine) (depth : Nat) : Machine := { m with depth }

/-- Obtaining arguments in order, the machine gets over those of `before` and fails at `a`. -/
def FailsAt (m : Machine) (context : Closure) (before : List Atom) (a : Atom) (e : EvalError)
    (m' : Machine) : Prop :=
  ∃ vs m₁, m.strictArguments context before = (.ok vs, m₁) ∧
    m₁.strictArgument context a = (.error e, m')

/-- A call fails at an argument: it may be made, and inside it the arguments fail there. -/
def CallFailsAt (m : Machine) (context : Closure) (before : List Atom) (a : Atom) (e : EvalError)
    (m' : Machine) : Prop :=
  m.depth < m.limit ∧ (m.atDepth (m.depth + 1)).FailsAt context before a e m'

theorem FailsAt.strictArguments (h : m.FailsAt context before a e m') (after : List Atom) :
    m.strictArguments context (before ++ a :: after) = (.error e, m') := by
  obtain ⟨vs, m₁, hbefore, ha⟩ := h
  obtain ⟨s₁, hvalues, rfl⟩ := onStore_eq_mk_iff.1 hbefore
  obtain ⟨s', hfails, rfl⟩ := onStore_eq_mk_iff.1 ha
  exact onStore_eq_mk_iff.2 ⟨s', Eval.outcome_strictArguments_of_error hvalues hfails after, rfl⟩

theorem FailsAt.strictArgument_list (h : m.FailsAt context before a e m') (after : List Atom)
    (tag : Tag) : m.strictArgument context (.list (before ++ a :: after) tag) = (.error e, m') := by
  rw [strictArgument, Eval.strictArgument]
  exact onStore_bind_of_error (h.strictArguments after) _

theorem exists_failsAt {row : List Atom} (h : m.strictArguments context row = (.error e, m')) :
    ∃ before a after, row = before ++ a :: after ∧ m.FailsAt context before a e m' := by
  obtain ⟨s', hrow, rfl⟩ := onStore_eq_mk_iff.1 h
  obtain ⟨before, a, after, vs, s₁, hsplit, hbefore, ha⟩ := Eval.exists_failing_item hrow
  exact ⟨before, a, after, hsplit, vs, _, onStore_eq_mk_iff.2 ⟨s₁, hbefore, rfl⟩,
    onStore_eq_mk_iff.2 ⟨s', ha, rfl⟩⟩

theorem evaluate_builtin {f : Builtin} {name : Text} (hdepth : m.depth < m.limit)
    (h : m.lookup name = some (.native f)) (context : Closure) (params : List Atom) :
    m.evaluate context (.symbol name :: params) =
      (((m.atDepth (m.depth + 1)).callBuiltin f context params).1,
        ((m.atDepth (m.depth + 1)).callBuiltin f context params).2.atDepth m.depth) := by
  have hlevels : m.levels = (m.atDepth (m.depth + 1)).levels + 1 := by
    simp only [levels, atDepth]
    omega
  rw [evaluate, hlevels, onStore_eq, Eval.outcome_evaluate_native (Eval.callee_of_find? h)]
  rfl

theorem depth_lt_of_evaluate {head v : Atom} {params : List Atom}
    (h : (m.evaluate context (head :: params)).1 = .ok v) : m.depth < m.limit := by
  rcases Nat.lt_or_ge m.depth m.limit with hdepth | hdepth
  · exact hdepth
  · have hlevels : m.levels = 0 := Nat.sub_eq_zero_of_le hdepth
    rw [evaluate, hlevels] at h
    cases h

section Strict

variable {f : Builtin} (hf : f ∈ Builtin.strict) (hseed : m.lookup f.name = some (.native f))
  (hdepth : m.depth < m.limit) {params : List Atom}
include hf hseed hdepth

theorem evaluate_strict_of_ok {vs : List Atom}
    (h : (m.atDepth (m.depth + 1)).strictArguments context params = (.ok vs, m')) :
    ∃ v, (m.evaluate context (.symbol f.name :: params)).1 = .ok v := by
  obtain ⟨g, hrun, hg⟩ := Eval.run_strict hf (SlotLisp.evaluate (m.atDepth (m.depth + 1)).levels)
    context params
  obtain ⟨v, s', hv⟩ := hg vs m'.store
  refine ⟨v, ?_⟩
  rw [evaluate_builtin hdepth hseed, callBuiltin, hrun, onStore_bind_of_ok h, onStore_eq, hv]

theorem evaluate_strict_of_error
    (h : (m.atDepth (m.depth + 1)).strictArguments context params = (.error e, m')) :
    m.evaluate context (.symbol f.name :: params) = (.error e, m'.atDepth m.depth) := by
  obtain ⟨g, hrun, -⟩ := Eval.run_strict hf (SlotLisp.evaluate (m.atDepth (m.depth + 1)).levels)
    context params
  rw [evaluate_builtin hdepth hseed, callBuiltin, hrun, onStore_bind_of_error h]

theorem exists_failsAt_of_evaluate
    (h : (m.evaluate context (.symbol f.name :: params)).1 = .error e) :
    ∃ before a after m', params = before ++ a :: after ∧
      (m.atDepth (m.depth + 1)).FailsAt context before a e m' := by
  rcases hrow : (m.atDepth (m.depth + 1)).strictArguments context params with ⟨e' | vs, m'⟩
  · rw [evaluate_strict_of_error hf hseed hdepth hrow] at h
    cases h
    obtain ⟨before, a, after, hsplit, hfails⟩ := exists_failsAt hrow
    exact ⟨before, a, after, m', hsplit, hfails⟩
  · obtain ⟨v, hv⟩ := evaluate_strict_of_ok hf hseed hdepth hrow
    rw [hv] at h
    cases h

/-- A call that succeeds with the arguments `before` and fails with one more fails at that one. -/
theorem failsAt_of_evaluate {v : Atom}
    (hbefore : (m.evaluate context (.symbol f.name :: before)).1 = .ok v)
    (ha : (m.evaluate context (.symbol f.name :: (before ++ [a]))).1 = .error e) :
    ∃ m', (m.atDepth (m.depth + 1)).FailsAt context before a e m' := by
  obtain ⟨before', a', after, m', hsplit, hfails⟩ :=
    exists_failsAt_of_evaluate hf hseed hdepth ha
  rcases List.eq_nil_or_concat after with rfl | ⟨after, c, rfl⟩
  · obtain ⟨rfl, ha'⟩ := List.append_inj' hsplit rfl
    cases ha'
    exact ⟨m', hfails⟩
  · -- The call without the last argument would have failed already.
    rw [List.concat_eq_append, ← List.cons_append, ← List.append_assoc] at hsplit
    obtain ⟨rfl, -⟩ := List.append_inj' hsplit rfl
    rw [evaluate_strict_of_error hf hseed hdepth (hfails.strictArguments after)] at hbefore
    cases hbefore

end Strict

end Machine

/-- **The first failing argument decides.** Let `f` be `+`, `*`, `=` or `print`, bound to its name.

* If a call of `f` fails at the argument `a` behind those of `before`, then it fails whatever
  follows `a`. The error is the one of `a`, and the call leaves what obtaining `before` and `a`
  leaves. So `f` itself does nothing, `print` does not print, and two calls that differ only behind
  `a` cannot be told apart.
* To fail at `a` behind `before` means to succeed without `a`, and to fail with it as the last
  argument.
* Every call of `f` that may be made and fails does so at one of its arguments.
* A list as an argument fails in the same way at the first of its items that fails. -/
theorem evaluate_first_failure {m : Machine} {f : Builtin} (hf : f ∈ Builtin.strict)
    (hseed : m.lookup f.name = some (.native f)) (context : Closure) :
    (∀ before a e m', m.CallFailsAt context before a e m' → ∀ ys zs : List Atom,
      m.evaluate context (.symbol f.name :: (before ++ a :: ys)) = (.error e, m'.atDepth m.depth) ∧
      m.evaluate context (.symbol f.name :: (before ++ a :: zs)) =
        m.evaluate context (.symbol f.name :: (before ++ a :: ys))) ∧
    (∀ before a e, (∃ m', m.CallFailsAt context before a e m') ↔
      (∃ v, (m.evaluate context (.symbol f.name :: before)).1 = .ok v) ∧
        (m.evaluate context (.symbol f.name :: (before ++ [a]))).1 = .error e) ∧
    (∀ params e, m.depth < m.limit → (m.evaluate context (.symbol f.name :: params)).1 = .error e →
      ∃ before a after m', params = before ++ a :: after ∧ m.CallFailsAt context before a e m') ∧
    (∀ (n n' : Machine) (before after : List Atom) (a : Atom) (e : EvalError) (tag : Tag),
      n.FailsAt context before a e n' →
        n.strictArgument context (.list (before ++ a :: after) tag) = (.error e, n')) := by
  refine ⟨?_, ?_, ?_, ?_⟩
  · intro before a e m' h ys zs
    have hrow (after : List Atom) := Machine.evaluate_strict_of_error hf hseed h.1
      (h.2.strictArguments after)
    exact ⟨hrow ys, (hrow zs).trans (hrow ys).symm⟩
  · intro before a e
    constructor
    · intro h
      obtain ⟨m', hdepth, hfails⟩ := h
      have ⟨vs, m₁, hbefore, _⟩ := hfails
      refine ⟨Machine.evaluate_strict_of_ok hf hseed hdepth hbefore, ?_⟩
      rw [Machine.evaluate_strict_of_error hf hseed hdepth (hfails.strictArguments [])]
    · intro h
      obtain ⟨⟨v, hbefore⟩, ha⟩ := h
      have hdepth := Machine.depth_lt_of_evaluate hbefore
      obtain ⟨m', hfails⟩ := Machine.failsAt_of_evaluate hf hseed hdepth hbefore ha
      exact ⟨m', hdepth, hfails⟩
  · intro params e hdepth h
    obtain ⟨before, a, after, m', hsplit, hfails⟩ :=
      Machine.exists_failsAt_of_evaluate hf hseed hdepth h
    exact ⟨before, a, after, m', hsplit, hdepth, hfails⟩
  · intro n n' before after a e tag h
    exact h.strictArgument_list after tag

/-- In `(print (print nil) (undefined) ...)` the inner call prints, the undefined function fails the
outer one, and nothing else happens, whatever follows. -/
theorem evaluate_first_failure_print :
    let m : Machine := {}
    let before : List Atom := [.list [.symbol (ascii "print"), .symbol (ascii "nil")] none]
    let a : Atom := .list [.symbol (ascii "undefined")] none
    let m' : Machine := { depth := 1, store := { journal :=
      #[.printed (ascii "[Nil]"), .noted (.notCallable (ascii "Symbol"))] } }
    m.lookup (ascii "print") = some (.native .print) ∧
      m.CallFailsAt .empty before a .notAFunction m' ∧
      (m.evaluate .empty (.symbol (ascii "print") :: before)).1 = .ok .nil ∧
      ∀ ys, m.evaluate .empty (.symbol (ascii "print") :: (before ++ a :: ys)) =
        (.error .notAFunction, m'.atDepth 0) := by
  have hbefore : (({} : Machine).atDepth 1).strictArguments .empty
      [.list [.symbol (ascii "print"), .symbol (ascii "nil")] none] =
      (.ok [.nil], { depth := 1, store := { journal := #[.printed (ascii "[Nil]")] } }) := rfl
  have ha : Machine.strictArgument
      { depth := 1, store := { journal := #[.printed (ascii "[Nil]")] } } .empty
      (.list [.symbol (ascii "undefined")] none) =
      (.error .notAFunction, { depth := 1, store := { journal :=
        #[.printed (ascii "[Nil]"), .noted (.notCallable (ascii "Symbol"))] } }) := rfl
  intro m before a m'
  have hfails : m.CallFailsAt .empty before a .notAFunction m' :=
    ⟨by decide, _, _, hbefore, ha⟩
  have hseed : m.lookup (ascii "print") = some (.native .print) := rfl
  exact ⟨hseed, hfails, rfl, fun ys => ((evaluate_first_failure (f := .print) (by decide) hseed
    .empty).1 before a _ m' hfails ys []).1⟩

end SlotLisp

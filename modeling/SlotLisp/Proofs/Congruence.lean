import SlotLisp.Proofs.Outcome
import SlotLisp.Proofs.Symbols

/-!
# Relations that evaluation keeps

Builtins make calls through the evaluator that they are given, and otherwise consist of a few kinds
of steps: they resolve atoms, record events, bind globals, draw tags, fail, and catch failures. A
relation between computations that all these steps keep is a congruence.

Some relations are kept only by steps on atoms whose symbols are all in some set `N`. That is enough
for evaluation, because no step gives a symbol that was not there before.

**Theorems.** A builtin is related to itself under related evaluators (`Congruence.run`), and one
more level of evaluation keeps evaluators related (`Congruence.evaluate_succ`). So whatever is to be
shown about all runs of the evaluator, alone or of two of them side by side, is shown for the steps.
-/

namespace SlotLisp.Eval

/-- A relation between computations that every step of a builtin keeps, where all symbols are in
`N`. A computation goes on only with values that have symbols in `N`. -/
structure Congruence (N : Text → Prop)
    (R : ∀ (α : Type) [HasSymbols α], Eval α → Eval α → Prop) : Prop where
  pure {α : Type} [HasSymbols α] {a : α} : SymbolsIn N a → R α (pure a) (pure a)
  bind {α β : Type} [HasSymbols α] [HasSymbols β] {m m' : Eval α} {f f' : α → Eval β} :
    R α m m' → (∀ a, SymbolsIn N a → R β (f a) (f' a)) → R β (m >>= f) (m' >>= f')
  throw {α : Type} [HasSymbols α] (e : EvalError) : R α (throw e) (throw e)
  reified {m m' : Eval Atom} : R Atom m m' → R Atom (reified m) (reified m')
  resolve {context : Closure} {a : Atom} : SymbolsIn N context → SymbolsIn N a →
    R Atom (resolve context a) (resolve context a)
  record (e : Event) : R Unit (record e) (record e)
  bindGlobal {name : Text} {value : Atom} : N name → SymbolsIn N value →
    R Unit (bindGlobal name value) (bindGlobal name value)
  tagging {α : Type} [HasSymbols α] {m : StateM Nat α} : (∀ n, SymbolsIn N (m.run n).1) →
    R α (tagging m) (tagging m)

/-- Evaluators that do related things on all rows in all contexts, where all symbols are in `N`. -/
def Related (N : Text → Prop) (R : ∀ (α : Type) [HasSymbols α], Eval α → Eval α → Prop)
    (call call' : Evaluator) : Prop :=
  ∀ context row, SymbolsIn N context → SymbolsIn N row →
    R Atom (call context row) (call' context row)

namespace Congruence

variable {N : Text → Prop} {R : ∀ (α : Type) [HasSymbols α], Eval α → Eval α → Prop}
variable {call call' : Evaluator} {context : Closure}

/-! ## Steps -/

section Steps

variable (hR : Congruence N R)
include hR

theorem refuse {α : Type} [HasSymbols α] (n : Note) (e : EvalError) :
    R α (refuse n e) (refuse n e) :=
  hR.bind (hR.record _) fun _ _ => hR.throw e

theorem misuse {α : Type} [HasSymbols α] (m : Misuse) : R α (misuse m) (misuse m) :=
  hR.refuse _ _

/-- A value without symbols. -/
theorem plain {a : Atom} (h : a.symbols = []) : R Atom (Pure.pure a) (Pure.pure a) :=
  hR.pure (symbolsIn_of_no_symbols h)

theorem newList {items : List Atom} (h : SymbolsIn N items) :
    R Atom (Eval.tagging (Atom.newList items)) (Eval.tagging (Atom.newList items)) :=
  hR.tagging (Atom.symbolsIn_newList h)

/-- A row is obtained by its first item and then the later ones. -/
theorem row {m m' : Eval Atom} {rest rest' : Eval (List Atom)} (hm : R Atom m m')
    (hrest : R (List Atom) rest rest') :
    R (List Atom) (do return (← m) :: (← rest)) (do return (← m') :: (← rest')) :=
  hR.bind hm fun _ hv => hR.bind hrest fun _ hvs => hR.pure (symbolsIn_cons.2 ⟨hv, hvs⟩)

theorem function {head : Atom} (hhead : SymbolsIn N head) :
    R Atom (function head) (function head) := by
  cases head with
  | symbol name => exact hR.resolve ClosureOf.symbolsIn_empty hhead
  | _ => exact hR.pure hhead

theorem resolveAll (hcontext : SymbolsIn N context) {params : List Atom}
    (h : SymbolsIn N params) :
    R (List Atom) (resolveAll context params) (resolveAll context params) := by
  induction params with
  | nil => exact hR.pure symbolsIn_nil
  | cons a as ih =>
    rw [symbolsIn_cons] at h
    exact hR.row (hR.resolve hcontext h.1) (ih h.2)

theorem lambda (hcontext : SymbolsIn N context) {params : List Atom} (h : SymbolsIn N params) :
    R Atom (lambda context params) (lambda context params) := by
  refine hR.bind (hR.resolveAll hcontext h) fun vs hvs => ?_
  split
  · next names _ body _ _ =>
    rw [symbolsIn_cons, symbolsIn_cons, symbolsIn_list, symbolsIn_list] at hvs
    obtain ⟨hitems, hbody, -⟩ := hvs
    cases hnames : names.mapM Atom.symbolName? with
    | none => exact hR.misuse _
    | some names =>
      have hcode := Atom.symbolsIn_freezeAll hcontext body hbody
      have hclosure := ClosureOf.symbolsIn_compile hcode (names_of_mapM hnames hitems)
      refine hR.bind ?_ fun _ _ => hR.bind (hR.tagging (Atom.symbolsIn_newClosure hclosure))
        fun c hc => hR.pure (symbolsIn_closure_atom.2 hc)
      cases Note.ofCompile names with
      | none => exact hR.pure (symbolsIn_of_no_symbols rfl)
      | some n => exact hR.record _
  · exact hR.misuse _

end Steps

/-! ## Strict arguments -/

mutual

theorem strictArgument (hR : Congruence N R) (hcall : Related N R call call')
    (hcontext : SymbolsIn N context) (a : Atom) (ha : SymbolsIn N a) :
    R Atom (strictArgument call context a) (strictArgument call' context a) := by
  cases a with
  | list items tag =>
    rw [Eval.strictArgument, Eval.strictArgument]
    exact hR.bind (strictArguments hR hcall hcontext items (symbolsIn_list.1 ha))
      fun row hrow => hcall context row hcontext hrow
  | _ =>
    rw [strictArgument_of_not_list rfl, strictArgument_of_not_list rfl]
    exact hR.resolve hcontext ha

theorem strictArguments (hR : Congruence N R) (hcall : Related N R call call')
    (hcontext : SymbolsIn N context) (params : List Atom) (h : SymbolsIn N params) :
    R (List Atom) (strictArguments call context params) (strictArguments call' context params) := by
  cases params with
  | nil =>
    rw [Eval.strictArguments, Eval.strictArguments]
    exact hR.pure symbolsIn_nil
  | cons a as =>
    rw [symbolsIn_cons] at h
    rw [Eval.strictArguments, Eval.strictArguments]
    exact hR.row (strictArgument hR hcall hcontext a h.1)
      (strictArguments hR hcall hcontext as h.2)

end

/-! ## Builtins that make calls -/

section Calls

variable (hR : Congruence N R) (hcall : Related N R call call') (hcontext : SymbolsIn N context)
include hR hcall hcontext

theorem lazyArgument {a : Atom} (ha : SymbolsIn N a) :
    R Atom (lazyArgument call context a) (lazyArgument call' context a) := by
  cases a with
  | list items tag =>
    exact hR.bind (hR.resolveAll hcontext (symbolsIn_list.1 ha)) fun row hrow =>
      hcall context row hcontext hrow
  | _ =>
    rw [lazyArgument_of_not_list rfl, lazyArgument_of_not_list rfl]
    exact hR.resolve hcontext ha

theorem reifiedCalls {forms : List Atom} (h : SymbolsIn N forms) :
    R (List Atom) (reifiedCalls call context forms) (reifiedCalls call' context forms) := by
  induction forms with
  | nil => exact hR.pure symbolsIn_nil
  | cons form forms ih =>
    rw [symbolsIn_cons] at h
    cases form with
    | list items tag =>
      exact hR.row (hR.reified (hcall context items hcontext (symbolsIn_list.1 h.1))) (ih h.2)
    | _ => exact ih h.2

theorem mapCalls {f : Atom} (hf : SymbolsIn N f) {items : List Atom} (h : SymbolsIn N items) :
    R (List Atom) (mapCalls call context f items) (mapCalls call' context f items) := by
  induction items with
  | nil => exact hR.pure symbolsIn_nil
  | cons a as ih =>
    rw [symbolsIn_cons] at h
    have hrow : SymbolsIn N [f, a] := by simp [hf, h.1]
    exact hR.row (hcall context [f, a] hcontext hrow) (ih h.2)

theorem branch {params : List Atom} (h : SymbolsIn N params) :
    R Atom (branch call context params) (branch call' context params) := by
  cases params with
  | nil => exact hR.misuse _
  | cons condition branches =>
    rw [symbolsIn_cons] at h
    refine hR.bind (lazyArgument hR hcall hcontext h.1) fun value _ => ?_
    cases hchosen : branches[if value.isTruthy then 0 else 1]? with
    | none => exact hR.plain rfl
    | some chosen =>
      have hbranch := symbolsIn_row.1 h.2 chosen (List.mem_of_getElem? hchosen)
      exact lazyArgument hR hcall hcontext hbranch

theorem global {params : List Atom} (h : SymbolsIn N params) :
    R Atom (global call context params) (global call' context params) := by
  unfold Eval.global
  cases hname : globalName? context params with
  | none => exact hR.refuse _ _
  | some name =>
    cases hparam : params[1]? with
    | none => exact hR.misuse _
    | some param =>
      have hvalue := symbolsIn_row.1 h param (List.mem_of_getElem? hparam)
      exact hR.bind (lazyArgument hR hcall hcontext hvalue) fun value hvalue =>
        hR.bind (hR.record _) fun _ _ =>
          hR.bind (hR.bindGlobal (name_of_globalName? hname hcontext h) hvalue) fun _ _ =>
            hR.plain rfl

theorem eval {params : List Atom} (h : SymbolsIn N params) :
    R Atom (eval call context params) (eval call' context params) := by
  unfold Eval.eval
  split
  · exact hR.bind (reifiedCalls hR hcall hcontext h) fun vs hvs => hR.newList hvs
  · exact hR.misuse _

theorem map {params : List Atom} (h : SymbolsIn N params) :
    R Atom (map call context params) (map call' context params) := by
  rcases params with _ | ⟨f, _ | ⟨sequence, rest⟩⟩
  · exact hR.misuse _
  · exact hR.misuse _
  · rw [symbolsIn_cons, symbolsIn_cons] at h
    refine hR.bind (lazyArgument hR hcall hcontext h.1) fun f hf => ?_
    refine hR.bind (lazyArgument hR hcall hcontext h.2.1) fun v hv => ?_
    cases v with
    | list items tag =>
      exact hR.bind (mapCalls hR hcall hcontext hf (symbolsIn_list.1 hv)) fun vs hvs =>
        hR.newList hvs
    | _ => exact hR.misuse _

theorem negate {params : List Atom} (h : SymbolsIn N params) :
    R Atom (negate call context params) (negate call' context params) := by
  have hparam : SymbolsIn N (params.head?.getD .nil) := by
    cases params with
    | nil => exact symbolsIn_of_no_symbols rfl
    | cons a as => exact (symbolsIn_cons.1 h).1
  refine hR.bind (lazyArgument hR hcall hcontext hparam) fun v hv => ?_
  cases v with
  | number x => exact hR.plain rfl
  | _ => exact hR.pure hv

/-- Under related evaluators, a builtin does related things. -/
theorem run (f : Builtin) {params : List Atom} (h : SymbolsIn N params) :
    R Atom (f.run call context params) (f.run call' context params) := by
  have hstrict := strictArguments hR hcall hcontext params h
  have hresolve := hR.resolveAll hcontext h
  cases f with
  | print => exact hR.bind hstrict fun vs _ => hR.bind (hR.record _) fun _ _ => hR.plain rfl
  | printRaw => exact hR.bind (hR.record _) fun _ _ => hR.plain rfl
  | branch => exact branch hR hcall hcontext h
  | lambda => exact hR.lambda hcontext h
  | quote => exact hR.newList h
  | typeOf =>
    refine hR.bind hresolve fun vs _ => hR.pure (symbolsIn_list.2 (symbolsIn_row.2 fun a ha => ?_))
    obtain ⟨v, -, rfl⟩ := List.mem_map.1 ha
    exact symbolsIn_of_no_symbols rfl
  | global => exact global hR hcall hcontext h
  | resolve => exact hR.bind hresolve fun vs hvs => hR.newList hvs
  | eval => exact eval hR hcall hcontext h
  | map => exact map hR hcall hcontext h
  | sum => exact hR.bind hstrict fun vs _ => hR.plain rfl
  | product => exact hR.bind hstrict fun vs _ => hR.plain rfl
  | equal => exact hR.bind hstrict fun vs _ => hR.plain rfl
  | negate => exact negate hR hcall hcontext h

end Calls

/-- Evaluators that are related stay so with one more level. -/
theorem evaluate_succ (hR : Congruence N R) {k k' : Nat}
    (h : Related N R (evaluate k) (evaluate k')) :
    Related N R (evaluate (k + 1)) (evaluate (k' + 1)) := by
  intro context row hcontext hrow
  cases row with
  | nil => exact hR.refuse _ _
  | cons head params =>
    rw [symbolsIn_cons] at hrow
    refine hR.bind (hR.function hrow.1) fun v hv => ?_
    cases v with
    | closure c =>
      have hc : SymbolsIn N c := symbolsIn_closure_atom.1 hv
      exact h (c.bind params) c.code (ClosureOf.symbolsIn_bind hc hrow.2) (symbolsIn_closure.1 hc).2
    | native f => exact run hR h hcontext f hrow.2
    | _ => exact hR.refuse _ _

end Congruence

end SlotLisp.Eval

import SlotLisp.Proofs.ObjectNames

/-!
# Evaluation does not depend on the names of objects

**Theorem (`alike_evaluate`).** Let two stores be the same but for the names of objects, and let
also those names match that they have still to give. Then the same call, with its objects renamed,
does the same in both: it has the same value but for the names of objects, or fails alike, and
leaves stores that match again.

As for other relations between runs, what is to be shown is that each step of a builtin keeps it.
The values of two runs are not equal here but renamed, so what follows a step is compared at a value
and at the renamed one (`Alike.bind`).
-/

namespace SlotLisp

/-- The store `s'` is the store `s` with its objects renamed, and so are those to come. -/
structure Store.Renamed (ρ : Nat → Nat) (s s' : Store) : Prop where
  globals : s'.globals = s.globals.rename ρ
  journal : s'.journal = s.journal
  fresh : Fresh ρ s.nextTag s'.nextTag

namespace Eval

variable {ρ : Nat → Nat} {α β : Type} [HasTags α] [HasTags β]

/-- Outcomes that are the same but for the names of objects. -/
inductive EndAlike (ρ : Nat → Nat) {α : Type} [HasTags α] :
    Except EvalError α × Store → Except EvalError α × Store → Prop
  | ok {a : α} {s s' : Store} (h : s.Renamed ρ s') :
      EndAlike ρ (.ok a, s) (.ok (HasTags.rename ρ a), s')
  | error {e : EvalError} {s s' : Store} (h : s.Renamed ρ s') :
      EndAlike ρ (.error e, s) (.error e, s')

/-- The result of the second outcome is that of the first with its objects renamed. -/
theorem EndAlike.result {p p' : Except EvalError α × Store} (h : EndAlike ρ p p') :
    p'.1 = p.1.map (HasTags.rename ρ) := by
  cases h <;> rfl

theorem EndAlike.renamed {p p' : Except EvalError α × Store} (h : EndAlike ρ p p') :
    p.2.Renamed ρ p'.2 := by
  cases h with
  | ok h => exact h
  | error h => exact h

/-- From stores that are the same but for the names of objects, the computations end alike. -/
def Alike (ρ : Nat → Nat) {α : Type} [HasTags α] (m m' : Eval α) : Prop :=
  ∀ s s' : Store, s.Renamed ρ s' → EndAlike ρ (outcome m s) (outcome m' s')

/-- Evaluators that do alike on all rows in all contexts. -/
def AlikeCalls (ρ : Nat → Nat) (call call' : Evaluator) : Prop :=
  ∀ context row, Alike ρ (call context row) (call' (context.rename ρ) (Atom.renameAll ρ row))

/-! ## Steps -/

namespace Alike

theorem pure (a : α) : Alike ρ (pure a) (pure (HasTags.rename ρ a)) := fun _ _ h => .ok h

theorem throw (e : EvalError) : Alike ρ (throw e : Eval α) (throw e) := fun _ _ h => .error h

/-- What follows a step is compared at its value and at the renamed value. -/
theorem bind {m m' : Eval α} {f f' : α → Eval β} (hm : Alike ρ m m')
    (hf : ∀ a, Alike ρ (f a) (f' (HasTags.rename ρ a))) : Alike ρ (m >>= f) (m' >>= f') := by
  intro s s' h
  have hfirst := hm s s' h
  rw [outcome_bind, outcome_bind]
  generalize outcome m s = p at hfirst ⊢
  generalize outcome m' s' = p' at hfirst ⊢
  cases hfirst with
  | ok h => exact hf _ _ _ h
  | error h => exact .error h

/-- An error holds no objects, so its atom is the same in both runs. -/
theorem reified {m m' : Eval Atom} (hm : Alike ρ m m') : Alike ρ (reified m) (reified m') := by
  intro s s' h
  have hfirst := hm s s' h
  rw [outcome_reified, outcome_reified]
  generalize outcome m s = p at hfirst ⊢
  generalize outcome m' s' = p' at hfirst ⊢
  cases hfirst with
  | ok h => exact .ok h
  | error h => exact .ok h

theorem record (e : Event) : Alike ρ (record e) (record e) := by
  intro s s' h
  rw [outcome_record, outcome_record, h.journal]
  exact .ok ⟨h.globals, rfl, h.fresh⟩

/-- The globals are bound in both stores, under the same name. -/
theorem bindGlobal (name : Text) (value : Atom) :
    Alike ρ (bindGlobal name value) (bindGlobal name (value.rename ρ)) := by
  intro s s' h
  rw [outcome_bindGlobal, outcome_bindGlobal, h.globals, Globals.bind_rename]
  exact .ok ⟨rfl, h.journal, h.fresh⟩

/-- Drawing tags moves both counters on, and they match afterwards. -/
theorem tagging {m m' : StateM Nat α} (hm : DrawAlike ρ m m') :
    Alike ρ (tagging m) (tagging m') := by
  intro s s' h
  obtain ⟨hvalue, hfresh⟩ := hm s.nextTag s'.nextTag h.fresh
  rw [outcome_tagging, outcome_tagging, hvalue]
  exact .ok ⟨h.globals, h.journal, hfresh⟩

theorem resolve (context : Closure) (a : Atom) :
    Alike ρ (resolve context a) (resolve (context.rename ρ) (a.rename ρ)) := by
  intro s s' h
  rw [outcome_resolve, outcome_resolve, h.globals, ClosureOf.meaning_rename]
  exact .ok h

theorem function (head : Atom) : Alike ρ (function head) (function (head.rename ρ)) := by
  intro s s' h
  rw [outcome_function, outcome_function, h.globals, Globals.callee_rename]
  exact .ok h

theorem refuse (n : Note) (e : EvalError) : Alike ρ (refuse n e : Eval α) (refuse n e) :=
  (record _).bind fun _ => throw e

theorem misuse (m : Misuse) : Alike ρ (misuse m : Eval α) (misuse m) := refuse _ _

theorem newList (items : List Atom) :
    Alike ρ (Eval.tagging (Atom.newList items))
      (Eval.tagging (Atom.newList (Atom.renameAll ρ items))) :=
  tagging (Atom.newList_rename items)

/-- A row is obtained by its first item and then the later ones. -/
theorem row {m m' : Eval Atom} {rest rest' : Eval (List Atom)} (hm : Alike ρ m m')
    (hrest : Alike ρ rest rest') :
    Alike ρ (do return (← m) :: (← rest)) (do return (← m') :: (← rest')) :=
  hm.bind fun v => hrest.bind fun vs => pure (v :: vs)

theorem resolveAll (context : Closure) (params : List Atom) :
    Alike ρ (resolveAll context params)
      (resolveAll (context.rename ρ) (Atom.renameAll ρ params)) := by
  induction params with
  | nil => exact pure []
  | cons a as ih => exact (resolve context a).row ih

end Alike

/-! ## What builtins read off their parameters -/

theorem mapM_symbolName?_rename (names : List Atom) :
    (Atom.renameAll ρ names).mapM Atom.symbolName? = names.mapM Atom.symbolName? := by
  induction names with
  | nil => rfl
  | cons a as ih => simp [Atom.renameAll, ih]

/-- The name that `global` binds is a text. -/
theorem globalName?_rename (context : Closure) (params : List Atom) :
    globalName? (context.rename ρ) (Atom.renameAll ρ params) = globalName? context params := by
  cases params with
  | nil => rfl
  | cons a as =>
    show ((context.rename ρ).resolve (a.rename ρ)).symbolName? = (context.resolve a).symbolName?
    rw [ClosureOf.resolve_rename, Atom.symbolName?_rename]

/-- The one place where a builtin compares objects. -/
theorem allEqual_rename (hρ : Function.Injective ρ) (vs : List Atom) :
    allEqual (Atom.renameAll ρ vs) = allEqual vs := by
  cases vs with
  | nil => rfl
  | cons v vs =>
    rw [Atom.renameAll, allEqual, allEqual, Atom.renameAll_eq_map, List.all_map]
    congr 1
    funext a
    exact Atom.beq_rename hρ a v

theorem typeNames_rename (vs : List Atom) :
    (Atom.renameAll ρ vs).map (fun a => Atom.string a.typeName) =
      Atom.renameAll ρ (vs.map fun a => .string a.typeName) := by
  simp [Atom.renameAll_eq_map, Atom.rename]

namespace Alike

/-- Notes on compiling tell about names of parameters only. -/
theorem noted (names : List Text) :
    Alike ρ ((Note.ofCompile names).forM note) ((Note.ofCompile names).forM note) := by
  cases Note.ofCompile names with
  | none => exact pure ()
  | some n => exact record _

theorem lambda (context : Closure) (params : List Atom) :
    Alike ρ (lambda context params) (lambda (context.rename ρ) (Atom.renameAll ρ params)) := by
  refine (resolveAll context params).bind fun vs => ?_
  rcases vs with _ | ⟨a, _ | ⟨b, rest⟩⟩
  · exact misuse _
  · cases a <;> exact misuse _
  · cases a with
    | list names i =>
      cases b with
      | list body j =>
        -- The names of the parameters are the same in both runs, and with them the notes on them.
        -- Only what is captured and the body carry tags.
        simp only [HasTags.rename, Atom.renameAll, Atom.rename_list, mapM_symbolName?_rename,
          Atom.freezeAll_rename, ClosureOf.compile_rename]
        cases names.mapM Atom.symbolName? with
        | none => exact misuse _
        | some names =>
          exact (noted names).bind fun _ =>
            (tagging (Atom.newClosure_rename _)).bind fun c => pure (Atom.closure c)
      | _ => exact misuse _
    | _ => exact misuse _

/-! ## Strict arguments -/

variable {call call' : Evaluator}

mutual

/-- The calls inside a strict argument are made by the evaluators that do alike. -/
theorem strictArgument (hcall : AlikeCalls ρ call call') (context : Closure) (a : Atom) :
    Alike ρ (strictArgument call context a)
      (strictArgument call' (context.rename ρ) (a.rename ρ)) := by
  cases a with
  | list items tag =>
    rw [Atom.rename_list, Eval.strictArgument, Eval.strictArgument]
    exact (strictArguments hcall context items).bind fun row => hcall context row
  | _ =>
    rw [strictArgument_of_not_list rfl, strictArgument_of_not_list rfl]
    exact resolve context _

theorem strictArguments (hcall : AlikeCalls ρ call call') (context : Closure) (params : List Atom) :
    Alike ρ (strictArguments call context params)
      (strictArguments call' (context.rename ρ) (Atom.renameAll ρ params)) := by
  cases params with
  | nil =>
    rw [Atom.renameAll, Eval.strictArguments, Eval.strictArguments]
    exact pure []
  | cons a as =>
    rw [Atom.renameAll, Eval.strictArguments, Eval.strictArguments]
    exact (strictArgument hcall context a).row (strictArguments hcall context as)

end

/-! ## Builtins that make calls -/

section Calls

variable (hcall : AlikeCalls ρ call call') (context : Closure)
include hcall

theorem lazyArgument (a : Atom) :
    Alike ρ (lazyArgument call context a)
      (lazyArgument call' (context.rename ρ) (a.rename ρ)) := by
  cases a with
  | list items tag => exact (resolveAll context items).bind fun row => hcall context row
  | _ =>
    rw [lazyArgument_of_not_list rfl, lazyArgument_of_not_list rfl]
    exact resolve context _

theorem reifiedCalls (forms : List Atom) :
    Alike ρ (reifiedCalls call context forms)
      (reifiedCalls call' (context.rename ρ) (Atom.renameAll ρ forms)) := by
  induction forms with
  | nil => exact pure []
  | cons form forms ih =>
    cases form with
    | list items tag => exact (hcall context items).reified.row ih
    | _ => exact ih

theorem mapCalls (f : Atom) (items : List Atom) :
    Alike ρ (mapCalls call context f items)
      (mapCalls call' (context.rename ρ) (f.rename ρ) (Atom.renameAll ρ items)) := by
  induction items with
  | nil => exact pure []
  | cons a as ih => exact (hcall context [f, a]).row ih

theorem branch (params : List Atom) :
    Alike ρ (branch call context params)
      (branch call' (context.rename ρ) (Atom.renameAll ρ params)) := by
  cases params with
  | nil => exact misuse _
  | cons condition branches =>
    refine (lazyArgument hcall context condition).bind fun value => ?_
    simp only [HasTags.rename, Atom.isTruthy_rename, Atom.renameAll_eq_map, List.getElem?_map]
    cases branches[if value.isTruthy then 0 else 1]? with
    | none => exact pure Atom.nil
    | some chosen => exact lazyArgument hcall context chosen

theorem global (params : List Atom) :
    Alike ρ (global call context params)
      (global call' (context.rename ρ) (Atom.renameAll ρ params)) := by
  unfold Eval.global
  rw [globalName?_rename, Atom.renameAll_eq_map, List.getElem?_map]
  cases globalName? context params with
  | none => exact refuse _ _
  | some name =>
    cases params[1]? with
    | none => exact misuse _
    | some param =>
      refine (lazyArgument hcall context param).bind fun value => ?_
      simp only [HasTags.rename, Atom.typeName_rename]
      exact (record _).bind fun _ => (bindGlobal name value).bind fun _ => pure Atom.nil

theorem eval (params : List Atom) :
    Alike ρ (eval call context params)
      (eval call' (context.rename ρ) (Atom.renameAll ρ params)) := by
  have hall : (Atom.renameAll ρ params).all Atom.isList = params.all Atom.isList := by
    simp [Atom.renameAll_eq_map, Function.comp_def]
  unfold Eval.eval
  rw [hall]
  split
  · exact (reifiedCalls hcall context params).bind newList
  · exact misuse _

theorem map (params : List Atom) :
    Alike ρ (map call context params) (map call' (context.rename ρ) (Atom.renameAll ρ params)) := by
  rcases params with _ | ⟨f, _ | ⟨sequence, rest⟩⟩
  · exact misuse _
  · exact misuse _
  · refine (lazyArgument hcall context f).bind fun f => ?_
    refine (lazyArgument hcall context sequence).bind fun v => ?_
    cases v with
    | list items tag => exact (mapCalls hcall context f items).bind newList
    | _ => exact misuse _

theorem negate (params : List Atom) :
    Alike ρ (negate call context params)
      (negate call' (context.rename ρ) (Atom.renameAll ρ params)) := by
  have hparam : (Atom.renameAll ρ params).head?.getD .nil = (params.head?.getD .nil).rename ρ := by
    cases params <;> rfl
  unfold Eval.negate
  rw [hparam]
  refine (lazyArgument hcall context _).bind fun v => ?_
  cases v with
  | number x => exact pure (Atom.number (-x))
  | _ => exact pure _

/-- Under evaluators that do alike, a builtin does alike. -/
theorem run (hρ : Function.Injective ρ) (f : Builtin) (params : List Atom) :
    Alike ρ (f.run call context params)
      (f.run call' (context.rename ρ) (Atom.renameAll ρ params)) := by
  have hstrict := strictArguments hcall context params
  have hresolve := resolveAll (ρ := ρ) context params
  cases f with
  | print =>
    refine hstrict.bind fun vs => ?_
    simp only [HasTags.rename, Atom.debugRow_rename]
    exact (record _).bind fun _ => pure Atom.nil
  | printRaw =>
    unfold Builtin.run Eval.printRaw
    rw [Atom.debugRow_rename]
    exact (record _).bind fun _ => pure Atom.nil
  | branch => exact branch hcall context params
  | lambda => exact lambda context params
  | quote => exact newList params
  | typeOf =>
    refine hresolve.bind fun vs => ?_
    simp only [HasTags.rename, typeNames_rename]
    exact pure (Atom.list _ none)
  | global => exact global hcall context params
  | resolve => exact hresolve.bind newList
  | eval => exact eval hcall context params
  | map => exact map hcall context params
  | sum =>
    refine hstrict.bind fun vs => ?_
    simp only [HasTags.rename, Atom.renameAll_eq_map, List.foldl_map, Atom.operand_rename]
    exact pure (Atom.number _)
  | product =>
    refine hstrict.bind fun vs => ?_
    simp only [HasTags.rename, Atom.renameAll_eq_map, List.foldl_map, Atom.operand_rename]
    exact pure (Atom.number _)
  | equal =>
    refine hstrict.bind fun vs => ?_
    simp only [HasTags.rename, allEqual_rename hρ]
    exact pure (Atom.bool _)
  | negate => exact negate hcall context params

end Calls

end Alike

/-! ## Evaluation -/

/-- **Evaluation does not depend on the names of objects.** -/
theorem alike_evaluate (hρ : Function.Injective ρ) (levels : Nat) :
    AlikeCalls ρ (evaluate levels) (evaluate levels) := by
  induction levels with
  | zero =>
    intro context row
    cases row <;> exact Alike.refuse _ _
  | succ levels ih =>
    intro context row
    cases row with
    | nil => exact Alike.refuse _ _
    | cons head params =>
      refine (Alike.function head).bind fun v => ?_
      cases v with
      | closure c =>
        -- The code of a closure is renamed with it, and the arguments are bound as they stand.
        have hframe := ih (c.bind params) c.code
        rw [← ClosureOf.bind_rename] at hframe
        exact hframe
      | native f => exact Alike.run ih context hρ f params
      | _ => exact Alike.refuse _ _

end Eval

end SlotLisp

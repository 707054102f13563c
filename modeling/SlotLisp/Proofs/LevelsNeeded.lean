import SlotLisp.Proofs.PureEvaluation

/-!
# How many levels a pure expression needs

Only evaluations are counted against the limit on nested evaluations. A strict argument is evaluated
from the inside out, and all its calls are made from the same level, however deeply they are nested.
A lazy argument is evaluated from the outside in, and each call in it is one level further down.

**Theorem (`evaluate_need`).** `Expression.need` is exactly how many levels a pure call needs: with
as many it has its value, with fewer it is refused for the limit.

`Takes` says of any computation how many levels it takes. Computations one after the other take the
larger number (`Takes.bind`), because each of them gets all levels, and a call takes one level more
than what it calls (`takes_evaluate_native`).
-/

namespace SlotLisp

/-! ## The need of an expression -/

namespace Expression

variable {n : ℕ}

def isCall : Expression n → Bool
  | call _ _ => true
  | branch _ _ => true
  | _ => false

mutual

/-- How many levels evaluating an expression takes. What is not a call takes none. Of the strict
arguments of a call, it only matters whether there is a call among them. -/
def need (env : Fin n → Value) : Expression n → ℕ
  | call .negate args => (needAll env args).getD 0 0 + 1
  | call _ args => if args.any isCall then 2 else 1
  | branch condition branches =>
    let chosen := if (condition.value env).isTruthy then 0 else 1
    max (need env condition) ((needAll env branches).getD chosen 0) + 1
  | _ => 0

def needAll (env : Fin n → Value) : List (Expression n) → List ℕ
  | [] => []
  | e :: es => need env e :: needAll env es

end

end Expression

/-! ## Computations that take levels -/

/-- The store after an evaluation was refused for the limit. -/
def Store.refused (s : Store) : Store :=
  { s with journal := s.journal.push (.noted .depthReached) }

namespace Eval

variable {α β : Type} {s : Store} {levels : ℕ}

/-- The computation takes so many levels: if there are as many, it gives `a` and changes nothing,
and otherwise it is refused for the limit. -/
def Takes (m : Eval α) (s : Store) (need levels : ℕ) (a : α) : Prop :=
  outcome m s = if need ≤ levels then (.ok a, s) else (.error .depthExceeded, s.refused)

theorem takes_zero {m : Eval α} {a : α} (h : outcome m s = (.ok a, s)) : Takes m s 0 levels a := by
  rw [Takes, if_pos (Nat.zero_le levels), h]

/-- What is done first leaves its levels to what is done next. -/
theorem Takes.bind {m : Eval α} {f : α → Eval β} {need need' : ℕ} {a : α} {b : β}
    (hm : Takes m s need levels a) (hf : Takes (f a) s need' levels b) :
    Takes (m >>= f) s (max need need') levels b := by
  unfold Takes at hm hf ⊢
  by_cases hneed : need ≤ levels
  · rw [if_pos hneed] at hm
    rw [outcome_bind_of_ok hm, hf]
    simp [hneed]
  · rw [if_neg hneed] at hm
    rw [outcome_bind_of_error hm, if_neg]
    exact fun h => hneed (le_trans (le_max_left _ _) h)

/-- A computation on a result takes no levels of its own. -/
theorem Takes.map {m : Eval α} {f : α → Eval β} {need : ℕ} {a : α} {b : β}
    (hm : Takes m s need levels a) (hf : outcome (f a) s = (.ok b, s)) :
    Takes (m >>= f) s need levels b := by
  have hnone : Takes (f a) s 0 levels b := takes_zero hf
  have h := hm.bind hnone
  rwa [Nat.max_zero] at h

/-- A call of a builtin takes one level more than the builtin. -/
theorem takes_evaluate_native {head : Atom} {f : Builtin} (h : s.globals.callee head = .native f)
    {context : Closure} {params : List Atom} {need : ℕ} {a : Atom}
    (hrun : ∀ levels, Takes (f.run (evaluate levels) context params) s need levels a)
    (levels : ℕ) : Takes (evaluate levels context (head :: params)) s (need + 1) levels a := by
  cases levels with
  | zero => rw [Takes, evaluate, outcome_refuse, if_neg (Nat.not_succ_le_zero need), Store.refused]
  | succ levels =>
    rw [Takes, outcome_evaluate_native h, hrun levels]
    simp only [Nat.succ_le_succ_iff]

end Eval

/-! ## Forms of an expression -/

namespace Expression

variable {n : ℕ} {context : Closure} {env : Fin n → Value} {g : Globals}

mutual

/-- An atom is the expression, with the heads of its calls and its leaves resolved or not. -/
def Form (context : Closure) (env : Fin n → Value) : Expression n → Atom → Prop
  | call f args, a =>
    ∃ head items tag, a = .list (head :: items) tag ∧ Names head f.builtin ∧
      FormAll context env args items
  | branch condition branches, a =>
    ∃ head item items tag, a = .list (head :: item :: items) tag ∧ Names head .branch ∧
      Form context env condition item ∧ FormAll context env branches items
  | number x, a => Leaf context a (.number x)
  | string t, a => Leaf context a (.string t)
  | constant c, a => Leaf context a c.value
  | param i, a => Leaf context a (env i)

def FormAll (context : Closure) (env : Fin n → Value) : List (Expression n) → List Atom → Prop
  | [], items => items = []
  | e :: es, items => ∃ a as, items = a :: as ∧ Form context env e a ∧ FormAll context env es as

end

/-- What is not a call is a leaf. -/
theorem form_iff_leaf {e : Expression n} (he : e.isCall = false) {a : Atom} :
    e.Form context env a ↔ Leaf context a (e.value env) := by
  cases e with
  | call f args => cases he
  | branch condition branches => cases he
  | _ => rw [Form, value]

theorem need_of_not_isCall {e : Expression n} (he : e.isCall = false) : e.need env = 0 := by
  cases e with
  | call f args => cases he
  | branch condition branches => cases he
  | _ => rw [need] <;> simp

/-- A call is a list. -/
theorem Form.exists_list {e : Expression n} (he : e.isCall = true) {a : Atom}
    (h : e.Form context env a) : ∃ row tag, a = .list row tag := by
  cases e with
  | call f args =>
    rw [Form] at h
    obtain ⟨head, items, tag, rfl, -⟩ := h
    exact ⟨_, tag, rfl⟩
  | branch condition branches =>
    rw [Form] at h
    obtain ⟨head, item, items, tag, rfl, -⟩ := h
    exact ⟨_, tag, rfl⟩
  | _ => cases he

/-- Resolving a form gives a form, since lists are left alone. -/
theorem Form.meaning (hg : g.Seeded) {e : Expression n} {a : Atom} (h : e.Form context env a) :
    e.Form context env (context.meaning g a) := by
  cases he : e.isCall with
  | false =>
    rw [form_iff_leaf he] at h ⊢
    rw [h.meaning hg]
    exact .value _
  | true =>
    obtain ⟨row, tag, rfl⟩ := h.exists_list he
    exact h

theorem FormAll.meaning (hg : g.Seeded) {es : List (Expression n)} {items : List Atom}
    (h : FormAll context env es items) :
    FormAll context env es (items.map (context.meaning g)) := by
  induction es generalizing items with
  | nil =>
    rw [FormAll] at h
    rw [h, List.map_nil, FormAll]
  | cons e es ih =>
    rw [FormAll] at h
    obtain ⟨a, as, rfl, ha, has⟩ := h
    rw [List.map_cons, FormAll]
    exact ⟨_, _, rfl, ha.meaning hg, ih has⟩

/-- Resolving the items of a call gives a form of the call. -/
theorem Form.meaning_items (hg : g.Seeded) {e : Expression n} {row : List Atom} {tag : Tag}
    (h : e.Form context env (.list row tag)) :
    e.Form context env (.list (row.map (context.meaning g)) tag) := by
  cases he : e.isCall with
  | false => cases ((form_iff_leaf he).1 h).isList_eq_false
  | true =>
    cases e with
    | call f args =>
      rw [Form] at h ⊢
      obtain ⟨head, items, tag', heq, hhead, hitems⟩ := h
      cases heq
      have hf : f.builtin ∈ Builtin.pure := (Applies.operator f []).mem_pure
      refine ⟨.native f.builtin, _, tag, ?_, .native _, hitems.meaning hg⟩
      rw [List.map_cons, hhead.meaning hg hf]
    | branch condition branches =>
      rw [Form] at h ⊢
      obtain ⟨head, item, items, tag', heq, hhead, hitem, hitems⟩ := h
      cases heq
      refine ⟨.native .branch, _, _, tag, ?_, .native _, hitem.meaning hg, hitems.meaning hg⟩
      rw [List.map_cons, List.map_cons, hhead.meaning hg (by decide)]
    | _ => cases he

mutual

/-- An expression that is written down is a form of itself. -/
theorem form_of_spelled {p : Fin n → Atom} (hp : ∀ i, Leaf context (p i) (env i))
    (e : Expression n) {a : Atom} (h : e.Spelled p a) : e.Form context env a := by
  cases e with
  | number x =>
    rw [Spelled] at h
    rw [h, Form]
    exact .value (.number x)
  | string t =>
    rw [Spelled] at h
    rw [h, Form]
    exact .value (.string t)
  | constant c =>
    rw [Spelled] at h
    rw [h, Form]
    exact .constant c
  | param i =>
    rw [Spelled] at h
    rw [h, Form]
    exact hp i
  | call f args =>
    rw [Spelled] at h
    obtain ⟨items, tag, rfl, hitems⟩ := h
    rw [Form]
    exact ⟨_, items, tag, rfl, .symbol _, formAll_of_spelledAll hp args hitems⟩
  | branch condition branches =>
    rw [Spelled] at h
    obtain ⟨item, items, tag, rfl, hitem, hitems⟩ := h
    rw [Form]
    exact ⟨_, item, items, tag, rfl, .symbol _, form_of_spelled hp condition hitem,
      formAll_of_spelledAll hp branches hitems⟩

theorem formAll_of_spelledAll {p : Fin n → Atom} (hp : ∀ i, Leaf context (p i) (env i))
    (es : List (Expression n)) {items : List Atom} (h : SpelledAll p es items) :
    FormAll context env es items := by
  cases es with
  | nil =>
    rw [SpelledAll] at h
    rwa [FormAll]
  | cons e es =>
    rw [SpelledAll] at h
    obtain ⟨a, as, rfl, ha, has⟩ := h
    rw [FormAll]
    exact ⟨a, as, rfl, form_of_spelled hp e ha, formAll_of_spelledAll hp es has⟩

end

/-! ## Strict arguments -/

section Takes

variable {s : Store} {levels : ℕ}

open Eval

/-- A call of values takes one level. -/
theorem takes_evaluate_values (hg : s.globals.Seeded) {f : Builtin} {vs : List Value} {v : Value}
    (happ : Applies f vs v) (context : Closure) (levels : ℕ) :
    Takes (evaluate levels context (.native f :: vs.map Value.toAtom)) s 1 levels v.toAtom := by
  cases levels with
  | zero => rfl
  | succ levels =>
    have hform : Denotes context (levels + 1) (.list (.native f :: vs.map Value.toAtom) none) v :=
      Or.inr (.call (.native f) happ (Denotes.values levels vs))
    rw [Takes, if_pos (Nat.succ_le_succ (Nat.zero_le levels))]
    exact evaluatesForms context hg (levels + 1) _ none v hform

theorem takes_resolve (hg : s.globals.Seeded) {a : Atom} {v : Value} (h : Leaf context a v) :
    Takes (resolve context a) s 0 levels v.toAtom := by
  apply takes_zero
  rw [outcome_resolve, h.meaning hg]

theorem takes_strictArguments_cons {call : Evaluator} {a b : Atom} {as bs : List Atom}
    {need need' : ℕ} (ha : Takes (strictArgument call context a) s need levels b)
    (has : Takes (strictArguments call context as) s need' levels bs) :
    Takes (strictArguments call context (a :: as)) s (max need need') levels (b :: bs) := by
  rw [strictArguments]
  exact ha.bind (has.map rfl)

/-- A call as a strict argument takes one level, if its own arguments do not take more. -/
theorem takes_strictArgument_call (hg : s.globals.Seeded) {f : Builtin} {head : Atom}
    (hhead : Names head f) {items : List Atom} {vs : List Value} {v : Value}
    (happ : Applies f vs v) {need : ℕ} (hneed : need ≤ 1)
    (hitems : Takes (strictArguments (evaluate levels) context items) s need levels
      (vs.map Value.toAtom)) (tag : Tag) :
    Takes (strictArgument (evaluate levels) context (.list (head :: items) tag)) s 1 levels
      v.toAtom := by
  have hlist : head.isList = false := by cases hhead <;> rfl
  have hfunction :
      Takes (strictArgument (evaluate levels) context head) s 0 levels (.native f) := by
    apply takes_zero
    rw [strictArgument_of_not_list hlist, outcome_resolve, hhead.meaning hg happ.mem_pure]
  have hcall := (takes_strictArguments_cons hfunction hitems).bind
    (takes_evaluate_values hg happ context levels)
  rw [strictArgument]
  rwa [Nat.zero_max, Nat.max_eq_right hneed] at hcall

mutual

/-- A strict argument takes one level if it is a call, however deeply calls are nested in it. -/
theorem takes_strictArgument (hg : s.globals.Seeded) (e : Expression n) {a : Atom}
    (h : e.Form context env a) :
    Takes (strictArgument (evaluate levels) context a) s (if e.isCall then 1 else 0) levels
      (e.value env).toAtom := by
  have leaf {e : Expression n} (he : e.isCall = false) (h : e.Form context env a) :
      Takes (strictArgument (evaluate levels) context a) s (if e.isCall then 1 else 0) levels
        (e.value env).toAtom := by
    have hleaf := (form_iff_leaf he).1 h
    rw [strictArgument_of_not_list hleaf.isList_eq_false, he]
    exact takes_resolve hg hleaf
  cases e with
  | call f args =>
    rw [Form] at h
    obtain ⟨head, items, tag, rfl, hhead, hitems⟩ := h
    rw [value]
    refine takes_strictArgument_call hg hhead (.operator f _) ?_
      (takes_strictArguments hg args hitems) tag
    split_ifs <;> decide
  | branch condition branches =>
    rw [Form] at h
    obtain ⟨head, item, items, tag, rfl, hhead, hitem, hitems⟩ := h
    rw [value]
    refine takes_strictArgument_call hg hhead (.branch _ _) ?_
      (takes_strictArguments_cons (takes_strictArgument hg condition hitem)
        (takes_strictArguments hg branches hitems)) tag
    split_ifs <;> decide
  | _ => exact leaf rfl h

theorem takes_strictArguments (hg : s.globals.Seeded) (es : List (Expression n))
    {items : List Atom} (h : FormAll context env es items) :
    Takes (strictArguments (evaluate levels) context items) s (if es.any isCall then 1 else 0)
      levels ((valueAll env es).map Value.toAtom) := by
  cases es with
  | nil =>
    rw [FormAll] at h
    rw [h, strictArguments]
    exact takes_zero rfl
  | cons e es =>
    rw [FormAll] at h
    obtain ⟨a, as, rfl, ha, has⟩ := h
    have hrow := takes_strictArguments_cons (takes_strictArgument hg e ha)
      (takes_strictArguments hg es has)
    have hneed : (if (e :: es).any isCall then 1 else 0) =
        max (if e.isCall then 1 else 0) (if es.any isCall then 1 else 0) := by
      cases he : e.isCall <;> cases hes : es.any isCall <;> simp [he, hes]
    rwa [hneed]

end

/-! ## Lazy arguments -/

theorem takes_negate {call : Evaluator} {items : List Atom} {vs : List Value} {need : ℕ}
    (h : Takes (lazyArgument call context (items.getD 0 .nil)) s need levels
      (vs.getD 0 .nil).toAtom) :
    Takes (negate call context items) s need levels (Operator.negate.apply vs).toAtom := by
  rw [negate, List.head?_eq_getElem?]
  refine h.map ?_
  cases vs with
  | nil => rfl
  | cons v vs => cases v <;> rfl

theorem select_eq_getD (v : Value) (vs : List Value) :
    v.select vs = vs.getD (if v.isTruthy then 0 else 1) .nil := by
  unfold Value.select
  cases v.isTruthy with
  | true => cases vs <;> rfl
  | false => rcases vs with _ | ⟨_, _ | ⟨_, _⟩⟩ <;> rfl

/-- Of the branches, only the selected one takes levels. -/
theorem takes_branch {call : Evaluator} {item : Atom} {items : List Atom} {v : Value}
    {vs : List Value} {need : ℕ} {needs : List ℕ}
    (hcondition : Takes (lazyArgument call context item) s need levels v.toAtom)
    (hbranches : ∀ i, Takes (lazyArgument call context (items.getD i .nil)) s (needs.getD i 0)
      levels (vs.getD i .nil).toAtom) :
    Takes (Eval.branch call context (item :: items)) s
      (max need (needs.getD (if v.isTruthy then 0 else 1) 0)) levels (v.select vs).toAtom := by
  rw [Eval.branch, select_eq_getD]
  refine hcondition.bind ?_
  rw [Value.isTruthy_toAtom]
  have hchosen := hbranches (if v.isTruthy then 0 else 1)
  rw [List.getD_eq_getElem?_getD] at hchosen
  cases hitem : items[if v.isTruthy then 0 else 1]? with
  | some chosen =>
    rw [hitem] at hchosen
    exact hchosen
  | none =>
    -- A branch that is not there gives the same as `nil` in its place.
    rw [hitem] at hchosen
    exact hchosen

/-- A lazy argument takes what its call takes. -/
theorem takes_lazyArgument (hg : s.globals.Seeded) {e : Expression n}
    (hcall : ∀ {row tag}, e.Form context env (.list row tag) →
      Takes (evaluate levels context row) s (e.need env) levels (e.value env).toAtom)
    {a : Atom} (h : e.Form context env a) :
    Takes (lazyArgument (evaluate levels) context a) s (e.need env) levels
      (e.value env).toAtom := by
  cases he : e.isCall with
  | false =>
    have hleaf := (form_iff_leaf he).1 h
    rw [lazyArgument_of_not_list hleaf.isList_eq_false, need_of_not_isCall he]
    exact takes_resolve hg hleaf
  | true =>
    obtain ⟨row, tag, rfl⟩ := h.exists_list he
    rw [Takes, outcome_lazyArgument_list]
    exact hcall (h.meaning_items hg)

theorem need_call {f : Operator} (hf : f ≠ .negate) (args : List (Expression n)) :
    (call f args).need env = (if args.any isCall then 1 else 0) + 1 := by
  cases f with
  | negate => exact absurd rfl hf
  | _ =>
    rw [need]
    · split_ifs <;> rfl
    · simp

mutual

/-- A call takes as many levels as it needs. -/
theorem takes_evaluate (hg : s.globals.Seeded) (e : Expression n) {row : List Atom} {tag : Tag}
    (h : e.Form context env (.list row tag)) (levels : ℕ) :
    Takes (evaluate levels context row) s (e.need env) levels (e.value env).toAtom := by
  cases e with
  | call f args =>
    rw [Form] at h
    obtain ⟨head, items, tag, heq, hhead, hitems⟩ := h
    cases heq
    have hcallee := hhead.callee hg (Applies.operator f []).mem_pure
    by_cases hf : f = .negate
    · subst hf
      rw [need, value]
      exact takes_evaluate_native hcallee
        (fun levels => takes_negate (takes_lazyArguments hg args hitems levels 0)) levels
    · -- No induction here: what is nested in strict arguments does not add up.
      rw [need_call hf, value]
      refine takes_evaluate_native hcallee (fun levels => ?_) levels
      obtain ⟨g, hrun, hvalue⟩ := run_eq_bind hf (evaluate levels) context items
      rw [hrun]
      exact (takes_strictArguments hg args hitems).map (hvalue _ s)
  | branch condition branches =>
    rw [Form] at h
    obtain ⟨head, item, items, tag, heq, hhead, hitem, hitems⟩ := h
    cases heq
    rw [need, value]
    refine takes_evaluate_native (hhead.callee hg (by decide)) (fun levels => ?_) levels
    exact takes_branch
      (takes_lazyArgument hg (fun h => takes_evaluate hg condition h levels) hitem)
      (takes_lazyArguments hg branches hitems levels)
  | _ => cases ((form_iff_leaf rfl).1 h).isList_eq_false

/-- Each of some lazy arguments takes what it needs, and one that is not there takes nothing. -/
theorem takes_lazyArguments (hg : s.globals.Seeded) (es : List (Expression n))
    {items : List Atom} (h : FormAll context env es items) (levels i : ℕ) :
    Takes (lazyArgument (evaluate levels) context (items.getD i .nil)) s
      ((needAll env es).getD i 0) levels ((valueAll env es).getD i .nil).toAtom := by
  cases es with
  | nil =>
    rw [FormAll] at h
    rw [h]
    exact takes_zero rfl
  | cons e es =>
    rw [FormAll] at h
    obtain ⟨a, as, rfl, ha, has⟩ := h
    rw [needAll, valueAll]
    cases i with
    | zero => exact takes_lazyArgument hg (fun h => takes_evaluate hg e h levels) ha
    | succ i => exact takes_lazyArguments hg es has levels i

end

theorem takes_evaluate_spelled (hg : s.globals.Seeded) (e : Expression 0) {code : List Atom}
    {tag : Tag} (hcode : e.Spelled Fin.elim0 (.list code tag)) (context : Closure) (levels : ℕ) :
    Takes (evaluate levels context code) s (e.need Fin.elim0) levels
      (e.value Fin.elim0).toAtom :=
  takes_evaluate hg e (form_of_spelled (fun i => i.elim0) e hcode) levels

end Takes

theorem need_call_le_two {n : ℕ} {env : Fin n → Value} {f : Operator} (hf : f ≠ .negate)
    (args : List (Expression n)) : (call f args).need env ≤ 2 := by
  rw [need_call hf]
  split_ifs <;> decide

end Expression

/-- **The need is exact.** Let `code` be a call that is a pure expression without parameters, and
let the names that pure expressions use mean what they mean at the start. On any machine, and in any
context, evaluating the call has the value of the expression and changes nothing if the levels left
are as many as the expression needs, and is refused for the limit otherwise. So two levels are
enough for a call of `+`, `*` or `=`, whatever its arguments are. -/
theorem evaluate_need (e : Expression 0) {code : List Atom} {tag : Tag}
    (hcode : e.Spelled Fin.elim0 (.list code tag)) (context : Closure) (m : Machine)
    (hm : m.store.globals.Seeded) :
    let result := m.evaluate context code
    let need := e.need Fin.elim0
    ((∃ a, result.1 = .ok a) ↔ need ≤ m.limit - m.depth) ∧
      (m.limit - m.depth < need → result.1 = .error .depthExceeded) ∧
      (need ≤ m.limit - m.depth → result = (.ok (e.value Fin.elim0).toAtom, m)) ∧
      (∀ f args, e = .call f args → f ≠ .negate → 2 ≤ m.limit - m.depth →
        result = (.ok (e.value Fin.elim0).toAtom, m)) := by
  intro result need
  have htakes : Eval.Takes _ m.store need (m.limit - m.depth) _ :=
    e.takes_evaluate_spelled hm hcode context m.levels
  have henough (h : need ≤ m.limit - m.depth) : result = (.ok (e.value Fin.elim0).toAtom, m) := by
    rw [Eval.Takes, if_pos h] at htakes
    exact Machine.onStore_eq_self_iff.2 htakes
  have hrefused (h : m.limit - m.depth < need) : result.1 = .error .depthExceeded := by
    rw [Eval.Takes, if_neg (Nat.not_le.2 h)] at htakes
    exact congrArg Prod.fst htakes
  refine ⟨⟨?_, fun h => ⟨_, congrArg Prod.fst (henough h)⟩⟩, hrefused, henough, ?_⟩
  · rintro ⟨a, ha⟩
    by_contra h
    rw [hrefused (Nat.not_le.1 h)] at ha
    cases ha
  · rintro f args rfl hf htwo
    exact henough ((Expression.need_call_le_two hf args).trans htwo)

/-- Two levels are enough for `(+ (neg (neg (neg 1))))`, but not for `(neg (+ (neg 1)))`. -/
theorem evaluate_need_two :
    let one : Atom := .number ⟨0x3f800000⟩
    let neg (a : Atom) : Atom := .list [.symbol (ascii "neg"), a] none
    let sum (a : Atom) : List Atom := [.symbol (ascii "+"), a]
    let m : Machine := { limit := 2 }
    m.evaluate .empty (sum (neg (neg (neg one)))) = (.ok (.number ⟨0xbf800000⟩), m) ∧
      (m.evaluate .empty [.symbol (ascii "neg"), .list (sum (neg one)) none]).1 =
        .error .depthExceeded := by
  intro one neg sum m
  let negated (e : Expression 0) : Expression 0 := .call .negate [e]
  let total (e : Expression 0) : Expression 0 := .call .sum [e]
  have hspelled : (total (negated (negated (negated (.number ⟨0x3f800000⟩))))).Spelled Fin.elim0
      (.list (sum (neg (neg (neg one)))) none) := by
    simp only [total, negated, Expression.Spelled, Expression.SpelledAll]
    exact ⟨_, _, rfl, _, _, rfl, ⟨_, _, rfl, _, _, rfl, ⟨_, _, rfl, _, _, rfl,
      ⟨_, _, rfl, _, _, rfl, rfl, rfl⟩, rfl⟩, rfl⟩, rfl⟩
  have hspelled' : (negated (total (negated (.number ⟨0x3f800000⟩)))).Spelled Fin.elim0
      (.list [.symbol (ascii "neg"), .list (sum (neg one)) none] none) := by
    simp only [total, negated, Expression.Spelled, Expression.SpelledAll]
    exact ⟨_, _, rfl, _, _, rfl, ⟨_, _, rfl, _, _, rfl,
      ⟨_, _, rfl, _, _, rfl, rfl, rfl⟩, rfl⟩, rfl⟩
  have hvalue : (total (negated (negated (negated (.number ⟨0x3f800000⟩))))).value Fin.elim0 =
      .number ⟨0xbf800000⟩ := by decide +kernel
  have h := (evaluate_need _ hspelled .empty m Globals.seeded_initial).2.2.2 _ _ rfl
    (by decide) (by decide)
  rw [hvalue] at h
  exact ⟨h, (evaluate_need _ hspelled' .empty m Globals.seeded_initial).2.1 (by decide)⟩

end SlotLisp

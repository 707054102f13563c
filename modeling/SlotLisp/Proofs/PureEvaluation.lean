import Mathlib.Data.Fin.VecNotation
import Mathlib.Data.List.Forall2
import Mathlib.Data.List.OfFn
import Mathlib.Tactic.FinCases
import SlotLisp.Proofs.Expression
import SlotLisp.Proofs.Substitution

/-!
# Evaluating pure expressions

The evaluator does not work call by value. It obtains some arguments lazily and others strictly, a
lazy argument is called with its parameters resolved already, and a strict one with values in their
place. So one expression is met in many forms: with upvalues or values for parameters, with symbols
or builtins at the heads of calls, and with calls or their values as arguments. `Denotes` relates
all these forms to the value, and is what the induction is about.

**Theorem (`evaluate_pure`).** In a frame that holds values for the parameters, evaluating a pure
call gives its value and leaves the machine as it was, whenever as many evaluations may be nested
as the expression is high.
-/

namespace SlotLisp

/-! ## Globals that pure expressions rely on -/

def Builtin.pure : List Builtin := [.sum, .product, .equal, .negate, .branch]

/-- The names that pure expressions use. -/
def reserved : List Text := Constant.all.map Constant.name ++ Builtin.pure.map Builtin.name

/-- The reserved names have the bindings that every machine starts with. -/
structure Globals.Seeded (g : Globals) : Prop where
  constant : ∀ c : Constant, g.find? c.name = some c.value.toAtom
  builtin : ∀ f ∈ Builtin.pure, g.find? f.name = some (.native f)

theorem Globals.seeded_initial : Globals.initial.Seeded where
  constant c := by cases c <;> rfl
  builtin f hf := by fin_cases hf <;> rfl

theorem Constant.name_mem_reserved (c : Constant) : c.name ∈ reserved := by
  refine List.mem_append_left _ (List.mem_map_of_mem ?_)
  cases c <;> decide

theorem Builtin.name_mem_reserved {f : Builtin} (hf : f ∈ Builtin.pure) : f.name ∈ reserved :=
  List.mem_append_right _ (List.mem_map_of_mem hf)

/-! ## The forms of an expression -/

/-- What a pure builtin makes of values. -/
inductive Applies : Builtin → List Value → Value → Prop
  | operator (f : Operator) (vs : List Value) : Applies f.builtin vs (f.apply vs)
  | branch (v : Value) (vs : List Value) : Applies .branch (v :: vs) (v.select vs)

theorem Applies.mem_pure {f : Builtin} {vs : List Value} {v : Value} (h : Applies f vs v) :
    f ∈ Builtin.pure := by
  cases h with
  | operator f => cases f <;> decide
  | branch => decide

/-- A symbol that is bound to a builtin, or the builtin itself. -/
inductive Names : Atom → Builtin → Prop
  | symbol (f : Builtin) : Names (.symbol f.name) f
  | native (f : Builtin) : Names (.native f) f

/-- An atom that means a value as it stands, in the context of a closure. -/
inductive Leaf (context : Closure) : Atom → Value → Prop
  | value (v : Value) : Leaf context v.toAtom v
  | constant (c : Constant) : Leaf context (.symbol c.name) c.value
  | slot {i : ℕ} {name : Text} {v : Value} (h : context.slot i = v.toAtom) :
      Leaf context (.upvalue i name) v

/-- A list that calls a pure builtin, with arguments that are related to values by `R`. -/
inductive Node (R : Atom → Value → Prop) : Atom → Value → Prop
  | call {f : Builtin} {head : Atom} {items : List Atom} {vs : List Value} {v : Value} {tag : Tag}
      (hhead : Names head f) (happ : Applies f vs v) (hitems : List.Forall₂ R items vs) :
      Node R (.list (head :: items) tag) v

/-- In the context of a closure, an atom is a form of an expression of height at most `k` that has
the given value. Any part of the expression may have been resolved or evaluated. -/
def Denotes (context : Closure) : ℕ → Atom → Value → Prop
  | 0, a, v => Leaf context a v
  | k + 1, a, v => Leaf context a v ∨ Node (Denotes context k) a v

section Forms

variable {context : Closure} {g : Globals}

theorem Names.callee (hg : g.Seeded) {head : Atom} {f : Builtin} (h : Names head f)
    (hf : f ∈ Builtin.pure) : g.callee head = .native f := by
  cases h with
  | native => rfl
  | symbol =>
    show (g.find? f.name).getD _ = _
    rw [hg.builtin f hf]
    rfl

theorem Names.meaning (hg : g.Seeded) {head : Atom} {f : Builtin} (h : Names head f)
    (hf : f ∈ Builtin.pure) : context.meaning g head = .native f := by
  cases h with
  | native => rfl
  | symbol => exact (Names.symbol f).callee hg hf

theorem Leaf.isList_eq_false {a : Atom} {v : Value} (h : Leaf context a v) : a.isList = false := by
  cases h with
  | value => exact v.isList_toAtom
  | constant => rfl
  | slot => rfl

/-- A leaf means its value. -/
theorem Leaf.meaning (hg : g.Seeded) {a : Atom} {v : Value} (h : Leaf context a v) :
    context.meaning g a = v.toAtom := by
  cases h with
  | value => exact v.meaning_toAtom context g
  | constant c =>
    show (g.find? c.name).getD _ = _
    rw [hg.constant c]
    rfl
  | slot h => exact h

theorem Leaf.denotes {a : Atom} {v : Value} (h : Leaf context a v) (k : ℕ) :
    Denotes context k a v := by
  cases k with
  | zero => exact h
  | succ k => exact Or.inl h

/-- Resolving a form gives a form. -/
theorem Denotes.meaning (hg : g.Seeded) {k : ℕ} {a : Atom} {v : Value}
    (h : Denotes context k a v) : Denotes context k (context.meaning g a) v := by
  have leaf (h : Leaf context a v) : Denotes context k (context.meaning g a) v := by
    rw [h.meaning hg]
    exact (Leaf.value v).denotes k
  cases k with
  | zero => exact leaf h
  | succ k =>
    rcases h with h | h
    · exact leaf h
    · cases h with
      | call hhead happ hitems => exact Or.inr (.call hhead happ hitems)

/-- A list is only a form of a call. -/
theorem Denotes.of_list {k : ℕ} {row : List Atom} {tag : Tag} {v : Value}
    (h : Denotes context k (.list row tag) v) :
    ∃ j f head items vs, k = j + 1 ∧ row = head :: items ∧ Names head f ∧ Applies f vs v ∧
      List.Forall₂ (Denotes context j) items vs := by
  cases k with
  | zero => cases h.isList_eq_false
  | succ k =>
    rcases h with h | h
    · cases h.isList_eq_false
    · cases h with
      | call hhead happ hitems => exact ⟨k, _, _, _, _, rfl, rfl, hhead, happ, hitems⟩

/-- Values are forms of themselves. -/
theorem Denotes.values (k : ℕ) (vs : List Value) :
    List.Forall₂ (Denotes context k) (vs.map Value.toAtom) vs := by
  rw [List.forall₂_map_left_iff]
  exact List.forall₂_same.2 fun v _ => (Leaf.value v).denotes k

end Forms

/-! ## Evaluating forms -/

namespace Eval

variable {context : Closure} {s : Store} {k : ℕ}

/-- With `k` levels left, calls that are forms of an expression of height at most `k` evaluate to
its value and change nothing. -/
def EvaluatesForms (context : Closure) (s : Store) (k : ℕ) : Prop :=
  ∀ (row : List Atom) (tag : Tag) (v : Value), Denotes context k (.list row tag) v →
    outcome (evaluate k context row) s = (.ok v.toAtom, s)

theorem outcome_strictArguments {R : Atom → Value → Prop} {call : Evaluator}
    (h : ∀ {a v}, R a v → outcome (strictArgument call context a) s = (.ok v.toAtom, s))
    {items : List Atom} {vs : List Value} (hitems : List.Forall₂ R items vs) :
    outcome (strictArguments call context items) s = (.ok (vs.map Value.toAtom), s) := by
  induction hitems with
  | nil => rw [strictArguments]; rfl
  | cons ha _ ih =>
    rw [strictArguments, outcome_bind_of_ok (h ha), outcome_bind_of_ok ih]
    rfl

theorem outcome_lazyArgument (hg : s.globals.Seeded) (hk : EvaluatesForms context s k)
    {a : Atom} {v : Value} (h : Denotes context k a v) :
    outcome (lazyArgument (evaluate k) context a) s = (.ok v.toAtom, s) := by
  by_cases ha : a.isList = false
  · have hleaf : Leaf context a v := by
      cases k with
      | zero => exact h
      | succ k =>
        rcases h with h | h
        · exact h
        · cases h; cases ha
    rw [lazyArgument_of_not_list ha, outcome_resolve, hleaf.meaning hg]
  · cases a with
    | list row tag =>
      obtain ⟨j, f, head, items, vs, rfl, rfl, hhead, happ, hitems⟩ := h.of_list
      rw [outcome_lazyArgument_list]
      -- One level of resolving gives another form of the same call.
      refine hk _ tag v (Or.inr ?_)
      rw [List.map_cons, hhead.meaning hg happ.mem_pure]
      refine .call (.native f) happ ?_
      rw [List.forall₂_map_left_iff]
      exact hitems.imp fun _ _ h => h.meaning hg
    | _ => exact absurd rfl ha

/-- A strict argument is evaluated from the inside out, so all its calls get the same number of
levels. Any number is enough that leaves room for a call of values. -/
theorem outcome_strictArgument (hg : s.globals.Seeded) (hk : EvaluatesForms context s k)
    {j : ℕ} (hj : j ≤ k) {a : Atom} {v : Value} (h : Denotes context j a v) :
    outcome (strictArgument (evaluate k) context a) s = (.ok v.toAtom, s) := by
  have leaf {a : Atom} {v : Value} (h : Leaf context a v) :
      outcome (strictArgument (evaluate k) context a) s = (.ok v.toAtom, s) := by
    rw [strictArgument_of_not_list h.isList_eq_false, outcome_resolve, h.meaning hg]
  induction j generalizing a v with
  | zero => exact leaf h
  | succ j ih =>
    rcases h with h | h
    · exact leaf h
    · cases h with
      | @call f head items vs v tag hhead happ hitems =>
        have hfun : head.isList = false := by cases hhead <;> rfl
        have hstrict := outcome_strictArguments (ih (Nat.le_of_lt hj)) hitems
        rw [outcome_strictArgument_list hfun hstrict, hhead.meaning hg happ.mem_pure]
        obtain ⟨k, rfl⟩ : ∃ i, k = i + 1 := ⟨k - 1, by omega⟩
        exact hk _ none v (Or.inr (.call (.native f) happ (Denotes.values k vs)))

/-! ## The pure builtins -/

theorem allEqual_map_toAtom (vs : List Value) :
    Atom.bool (allEqual (vs.map Value.toAtom)) = (Operator.equal.apply vs).toAtom := by
  cases vs with
  | nil => rfl
  | cons v vs => simp [allEqual, Operator.apply, List.all_map, Function.comp_def]

theorem outcome_negate (hg : s.globals.Seeded) (hk : EvaluatesForms context s k)
    {items : List Atom} {vs : List Value} (hitems : List.Forall₂ (Denotes context k) items vs) :
    outcome (negate (evaluate k) context items) s =
      (.ok (Operator.negate.apply vs).toAtom, s) := by
  cases hitems with
  | nil => rfl
  | @cons a v as vs ha _ =>
    rw [negate, List.head?_cons, Option.getD_some,
      outcome_bind_of_ok (outcome_lazyArgument hg hk ha)]
    cases v <;> rfl

theorem outcome_branch (hg : s.globals.Seeded) (hk : EvaluatesForms context s k)
    {a : Atom} {items : List Atom} {v : Value} {vs : List Value} (ha : Denotes context k a v)
    (hitems : List.Forall₂ (Denotes context k) items vs) :
    outcome (branch (evaluate k) context (a :: items)) s = (.ok (v.select vs).toAtom, s) := by
  rw [branch, outcome_bind_of_ok (outcome_lazyArgument hg hk ha), Value.isTruthy_toAtom]
  cases hv : v.isTruthy with
  | true =>
    cases hitems with
    | nil => simp [Value.select, hv]
    | cons hthen _ => simp [Value.select, hv, outcome_lazyArgument hg hk hthen]
  | false =>
    cases hitems with
    | nil => simp [Value.select, hv]
    | cons _ hrest =>
      cases hrest with
      | nil => simp [Value.select, hv]
      | cons helse _ => simp [Value.select, hv, outcome_lazyArgument hg hk helse]

/-- An operator other than `neg` obtains its arguments strictly, and makes of values what it makes
of them. -/
theorem run_eq_bind {f : Operator} (hf : f ≠ .negate) (call : Evaluator) (context : Closure)
    (items : List Atom) :
    ∃ g : List Atom → Eval Atom,
      f.builtin.run call context items = strictArguments call context items >>= g ∧
        ∀ vs s, outcome (g (vs.map Value.toAtom)) s = (.ok (f.apply vs).toAtom, s) := by
  cases f with
  | sum => exact ⟨_, rfl, fun vs s => by simp [Operator.apply, List.foldl_map]⟩
  | product => exact ⟨_, rfl, fun vs s => by simp [Operator.apply, List.foldl_map]⟩
  | equal => exact ⟨_, rfl, fun vs s => by rw [outcome_pure, allEqual_map_toAtom]⟩
  | negate => exact absurd rfl hf

/-- Each pure builtin makes of the forms of its arguments what it makes of their values. -/
theorem outcome_run (hg : s.globals.Seeded) (hk : EvaluatesForms context s k) {f : Builtin}
    {items : List Atom} {vs : List Value} {v : Value} (happ : Applies f vs v)
    (hitems : List.Forall₂ (Denotes context k) items vs) :
    outcome (f.run (evaluate k) context items) s = (.ok v.toAtom, s) := by
  have hstrict := outcome_strictArguments (outcome_strictArgument hg hk le_rfl) hitems
  cases happ with
  | operator f =>
    by_cases hf : f = .negate
    · subst hf
      exact outcome_negate hg hk hitems
    · obtain ⟨g, hrun, hvalue⟩ := run_eq_bind hf (evaluate k) context items
      rw [hrun, outcome_bind_of_ok hstrict, hvalue]
  | branch =>
    cases hitems with
    | cons ha hrest => exact outcome_branch hg hk ha hrest

/-- Evaluating a form of a pure call gives its value, if there are as many levels as the form is
high. -/
theorem evaluatesForms (context : Closure) (hg : s.globals.Seeded) (k : ℕ) :
    EvaluatesForms context s k := by
  induction k with
  | zero =>
    intro row tag v h
    obtain ⟨j, f, head, items, vs, hj, -⟩ := h.of_list
    cases hj
  | succ k ih =>
    intro row tag v h
    obtain ⟨j, f, head, items, vs, hj, rfl, hhead, happ, hitems⟩ := h.of_list
    cases hj
    rw [outcome_evaluate_native (hhead.callee hg happ.mem_pure)]
    exact outcome_run hg ih happ hitems

end Eval

/-! ## Frames -/

/-- A bound slot holds its argument. -/
theorem ClosureOf.slot_bind {c : Closure} {args : List Atom} {i : ℕ} (hc : i < c.arity)
    (hi : i < args.length) : (c.bind args).slot i = args[i] := by
  rw [slot_bind_getD hc, List.getElem?_eq_getElem hi, Option.getD_some]

namespace Expression

variable {n : ℕ}

section Denoted

variable {context : Closure} {p : Fin n → Atom} {env : Fin n → Value}

mutual

/-- An expression that is written down is a form of itself. -/
theorem denotes_of_spelled (hp : ∀ i, Leaf context (p i) (env i)) (e : Expression n) {a : Atom}
    (h : e.Spelled p a) {k : ℕ} (hk : e.height ≤ k) : Denotes context k a (e.value env) := by
  cases e with
  | number x =>
    rw [Spelled] at h
    exact h ▸ (Leaf.value (.number x)).denotes k
  | string t =>
    rw [Spelled] at h
    exact h ▸ (Leaf.value (.string t)).denotes k
  | constant c =>
    rw [Spelled] at h
    exact h ▸ (Leaf.constant c).denotes k
  | param i =>
    rw [Spelled] at h
    exact h ▸ (hp i).denotes k
  | call f args =>
    rw [Spelled] at h
    obtain ⟨items, tag, rfl, hitems⟩ := h
    rw [height] at hk
    obtain ⟨j, rfl⟩ : ∃ j, k = j + 1 := ⟨k - 1, by omega⟩
    exact Or.inr (.call (.symbol f.builtin) (.operator f _)
      (denotes_of_spelledAll hp args hitems (Nat.le_of_succ_le_succ hk)))
  | branch condition branches =>
    rw [Spelled] at h
    obtain ⟨item, items, tag, rfl, hitem, hitems⟩ := h
    rw [height] at hk
    obtain ⟨j, rfl⟩ : ∃ j, k = j + 1 := ⟨k - 1, by omega⟩
    have hj := Nat.le_of_succ_le_succ hk
    exact Or.inr (.call (.symbol .branch) (.branch _ _)
      (.cons (denotes_of_spelled hp condition hitem (le_trans (le_max_left _ _) hj))
        (denotes_of_spelledAll hp branches hitems (le_trans (le_max_right _ _) hj))))

theorem denotes_of_spelledAll (hp : ∀ i, Leaf context (p i) (env i)) (es : List (Expression n))
    {items : List Atom} (h : SpelledAll p es items) {k : ℕ} (hk : heightAll es ≤ k) :
    List.Forall₂ (Denotes context k) items (valueAll env es) := by
  cases es with
  | nil =>
    rw [SpelledAll] at h
    subst h
    exact .nil
  | cons e es =>
    rw [SpelledAll] at h
    obtain ⟨a, as, rfl, ha, has⟩ := h
    rw [heightAll] at hk
    exact .cons (denotes_of_spelled hp e ha (le_trans (le_max_left _ _) hk))
      (denotes_of_spelledAll hp es has (le_trans (le_max_right _ _) hk))

end

end Denoted

section Captured

variable {names : Fin n → Text}

theorem capture_param (hinj : Function.Injective names) (i : Fin n) :
    Atom.capture (List.ofFn names) (.symbol (names i)) = .upvalue i (names i) := by
  have hidx : (List.ofFn names).idxOf? (names i) = some i.val := by
    refine List.idxOf?_eq_some_iff.2 ⟨by simp, by simp, fun j hj h => ?_⟩
    have := hinj (List.getElem_ofFn .. ▸ h)
    simp [← this] at hj
  rw [Atom.capture, hidx]

theorem capture_reserved (hres : ∀ i, names i ∉ reserved) {name : Text} (h : name ∈ reserved) :
    Atom.capture (List.ofFn names) (.symbol name) = .symbol name := by
  have hidx : (List.ofFn names).idxOf? name = none := by
    refine List.idxOf?_eq_none_iff.2 fun hmem => ?_
    obtain ⟨i, rfl⟩ := (List.mem_ofFn' _ _).1 hmem
    exact hres i h
  rw [Atom.capture, hidx]

mutual

/-- Compiling an expression turns its parameters into upvalues. -/
theorem spelled_capture (hinj : Function.Injective names) (hres : ∀ i, names i ∉ reserved)
    (e : Expression n) {a : Atom} (h : e.Spelled (fun i => .symbol (names i)) a) :
    e.Spelled (fun i => .upvalue i (names i)) (Atom.capture (List.ofFn names) a) := by
  cases e with
  | number x =>
    rw [Spelled] at h ⊢
    rw [h]; rfl
  | string t =>
    rw [Spelled] at h ⊢
    rw [h]; rfl
  | constant c =>
    rw [Spelled] at h ⊢
    rw [h, capture_reserved hres c.name_mem_reserved]
  | param i =>
    rw [Spelled] at h ⊢
    rw [h, capture_param hinj]
  | call f args =>
    rw [Spelled] at h ⊢
    obtain ⟨items, tag, rfl, hitems⟩ := h
    have hf : f.builtin ∈ Builtin.pure := (Applies.operator f []).mem_pure
    refine ⟨_, none, ?_, spelledAll_capture hinj hres args hitems⟩
    rw [Atom.capture, Atom.captureAll, capture_reserved hres (Builtin.name_mem_reserved hf)]
  | branch condition branches =>
    rw [Spelled] at h ⊢
    obtain ⟨item, items, tag, rfl, hitem, hitems⟩ := h
    have hf : Builtin.branch ∈ Builtin.pure := by decide
    refine ⟨_, _, none, ?_, spelled_capture hinj hres condition hitem,
      spelledAll_capture hinj hres branches hitems⟩
    rw [Atom.capture, Atom.captureAll, capture_reserved hres (Builtin.name_mem_reserved hf),
      Atom.captureAll]

theorem spelledAll_capture (hinj : Function.Injective names) (hres : ∀ i, names i ∉ reserved)
    (es : List (Expression n)) {items : List Atom}
    (h : SpelledAll (fun i => .symbol (names i)) es items) :
    SpelledAll (fun i => .upvalue i (names i)) es (Atom.captureAll (List.ofFn names) items) := by
  cases es with
  | nil =>
    rw [SpelledAll] at h ⊢
    rw [h]; rfl
  | cons e es =>
    rw [SpelledAll] at h ⊢
    obtain ⟨a, as, rfl, ha, has⟩ := h
    exact ⟨_, _, rfl, spelled_capture hinj hres e ha, spelledAll_capture hinj hres es has⟩

end

end Captured

/-- In the frame of its compiled code, a written expression is a form of itself. -/
theorem denotes_frame {names : Fin n → Text} (hinj : Function.Injective names)
    (hres : ∀ i, names i ∉ reserved) (e : Expression n) {code : List Atom} {tag : Tag}
    (hcode : e.Spelled (fun i => .symbol (names i)) (.list code tag)) (vs : List Value)
    (hlen : n ≤ vs.length) {k : ℕ} (hk : e.height ≤ k) :
    ∃ tag, Denotes ((ClosureOf.compile code (List.ofFn names)).bind (vs.map Value.toAtom)) k
      (.list (ClosureOf.compile code (List.ofFn names)).code tag)
      (e.value fun i => vs.get (i.castLE hlen)) := by
  have hslot (i : Fin n) :
      ((ClosureOf.compile code (List.ofFn names)).bind (vs.map Value.toAtom)).slot i =
        (vs.get (i.castLE hlen)).toAtom := by
    have harity : i.val < (ClosureOf.compile code (List.ofFn names)).arity := by
      rw [ClosureOf.arity_compile, List.length_ofFn]
      exact i.isLt
    have hargs : i.val < (vs.map Value.toAtom).length := by
      rw [List.length_map]
      exact lt_of_lt_of_le i.isLt hlen
    rw [ClosureOf.slot_bind harity hargs, List.getElem_map]
    rfl
  by_cases hn : n = 0
  · -- Without names the code is taken as it is, and there are no parameters in it.
    subst hn
    exact ⟨tag, e.denotes_of_spelled (fun i => i.elim0) hcode hk⟩
  · have hne : (List.ofFn names).isEmpty = false := by
      rw [List.isEmpty_eq_false_iff, ne_eq, List.ofFn_eq_nil_iff]
      exact hn
    have hspelled := e.spelled_capture hinj hres hcode
    rw [Atom.capture] at hspelled
    refine ⟨none, ?_⟩
    rw [show (ClosureOf.compile code (List.ofFn names)).code =
      Atom.captureAll (List.ofFn names) code by rw [ClosureOf.compile, hne]; rfl]
    exact e.denotes_of_spelled (fun i => .slot (hslot i)) hspelled hk

end Expression

/-- **Pure expressions mean their value.** Let `code` be a call that is a pure expression with
distinct parameter names, none of them reserved. In the frame of its closure, bound to values for
all parameters, evaluating it succeeds with the value of the expression under these, and changes
nothing of the machine. -/
theorem evaluate_pure {n : ℕ} (names : Fin n → Text) (hinj : Function.Injective names)
    (hres : ∀ i, names i ∉ reserved) (e : Expression n) {code : List Atom} {tag : Tag}
    (hcode : e.Spelled (fun i => .symbol (names i)) (.list code tag)) (vs : List Value)
    (hlen : n ≤ vs.length) (m : Machine) (hm : m.store.globals.Seeded)
    (hdepth : e.height ≤ m.limit - m.depth) :
    let frame := (ClosureOf.compile code (List.ofFn names)).bind (vs.map Value.toAtom)
    m.evaluate frame frame.code = (.ok (e.value fun i => vs.get (i.castLE hlen)).toAtom, m) := by
  intro frame
  obtain ⟨tag, hframe⟩ := e.denotes_frame hinj hres hcode vs hlen hdepth
  exact Machine.onStore_eq_self_iff.2 (Eval.evaluatesForms frame hm m.levels _ tag _ hframe)

/-- The call `(+ x x (if (= x y) (neg y) 1))` with the same number for `x` and `y`. -/
theorem evaluate_pure_sum_if :
    let x : Atom := .symbol (ascii "x")
    let y : Atom := .symbol (ascii "y")
    let code : List Atom := [.symbol (ascii "+"), x, x, .list [.symbol (ascii "if"),
      .list [.symbol (ascii "="), x, y] none, .list [.symbol (ascii "neg"), y] none,
      .number ⟨0x3f800000⟩] none]
    let two : Atom := .number ⟨0x40000000⟩
    let frame := (ClosureOf.compile code [ascii "x", ascii "y"]).bind [two, two]
    ({} : Machine).evaluate frame frame.code = (.ok two, {}) := by
  intro x y code two frame
  let names : Fin 2 → Text := ![ascii "x", ascii "y"]
  let vs : List Value := [.number ⟨0x40000000⟩, .number ⟨0x40000000⟩]
  let e : Expression 2 := .call .sum [.param 0, .param 0,
    .branch (.call .equal [.param 0, .param 1]) [.call .negate [.param 1], .number ⟨0x3f800000⟩]]
  have hcode : e.Spelled (fun i => .symbol (names i)) (.list code none) := by
    simp only [e, Expression.Spelled, Expression.SpelledAll]
    exact ⟨_, _, rfl, _, _, rfl, rfl, _, _, rfl, rfl, _, _, rfl, ⟨_, _, _, rfl,
      ⟨_, _, rfl, _, _, rfl, rfl, _, _, rfl, rfl, rfl⟩,
      _, _, rfl, ⟨_, _, rfl, _, _, rfl, rfl, rfl⟩, _, _, rfl, rfl, rfl⟩, rfl⟩
  have hinj : ∀ i j, names i = names j → i = j := by decide
  have hvalue : ∀ hlen : 2 ≤ vs.length,
      e.value (fun i => vs.get (i.castLE hlen)) = .number ⟨0x40000000⟩ := by decide +kernel
  have h := evaluate_pure names hinj (by decide) e hcode vs (by decide) {} Globals.seeded_initial
    (by decide)
  rw [hvalue] at h
  exact h

end SlotLisp

import Mathlib.Logic.Relation
import SlotLisp.Proofs.Outcome

/-!
# Evaluation step by step

The evaluator is a recursive function that is told how many levels are left. Here evaluation is
taken apart into steps of a machine that has the stack of what is pending as data, and that counts
the evaluations in progress: the counter goes up when an evaluation starts, down when it ends with a
value or a failure, and is compared with the limit in between. Nothing tells this machine that its
runs end.

**Theorem (`evaluation_ends`).** From every call and every builtin the machine comes to an end, with
the result and the store that the evaluator gives and with the counter where it was, and on the way
the counter never exceeds the limit.

The evaluator is the machine's run with the stack taken away. So the proof follows the evaluator,
and it says of each of its functions where the machine arrives, whatever is on the stack below
(`Follows`). Levels are what is left up to the limit.
-/

namespace SlotLisp

/-! ## Configurations -/

/-- What remains to be done with the result of the computation above it on the stack. -/
inductive Frame where
  /-- An evaluation ends. -/
  | leave
  /-- A strict argument joins the row of those before it, and the later ones follow. -/
  | argument (context : Closure) (later done : List Atom)
  /-- The row of strict arguments is a call. -/
  | call (context : Closure)
  /-- The row of strict arguments is that of a builtin. -/
  | conclude (f : Builtin)
  | branch (context : Closure) (branches : List Atom)
  | negate
  | bind (name : Text)
  /-- The value or the error of a form joins those before it, and the later forms follow. -/
  | reify (context : Closure) (later done : List Atom)
  | mapFunction (context : Closure) (sequence : Atom)
  | mapSequence (context : Closure) (f : Atom)
  | mapItem (context : Closure) (f : Atom) (later done : List Atom)

/-- What is to be done next. -/
inductive Control where
  | evaluate (context : Closure) (row : List Atom)
  | builtin (f : Builtin) (context : Closure) (params : List Atom)
  | lazy (context : Closure) (a : Atom)
  | strict (context : Closure) (later done : List Atom)
  | reify (context : Closure) (later done : List Atom)
  | map (context : Closure) (f : Atom) (later done : List Atom)
  | result (r : Except EvalError Atom)

structure Config where
  control : Control
  stack : List Frame
  /-- How many evaluations are in progress. -/
  depth : Nat
  store : Store

namespace Config

variable {α β : Type}

/-- Where a computation leads: on to what is next after its value, or to its failure. -/
def after (m : Eval α) (next : α → Control) (stack : List Frame) (depth : Nat) (s : Store) :
    Config :=
  match m.outcome s with
  | (.ok a, s') => ⟨next a, stack, depth, s'⟩
  | (.error e, s') => ⟨.result (.error e), stack, depth, s'⟩

abbrev returned (m : Eval Atom) : List Frame → Nat → Store → Config :=
  after m fun v => .result (.ok v)

theorem after_congr {m m' : Eval α} {s s' : Store} (h : m.outcome s = m'.outcome s')
    (next : α → Control) (stack : List Frame) (depth : Nat) :
    after m next stack depth s = after m' next stack depth s' := by
  rw [after, after, h]

theorem after_of_ok {m : Eval α} {a : α} {s s' : Store} (h : m.outcome s = (.ok a, s'))
    (next : α → Control) (stack : List Frame) (depth : Nat) :
    after m next stack depth s = ⟨next a, stack, depth, s'⟩ := by
  rw [after, h]

theorem after_pure (a : α) (next : α → Control) (stack : List Frame) (depth : Nat) (s : Store) :
    after (pure a) next stack depth s = ⟨next a, stack, depth, s⟩ := rfl

theorem returned_eq (m : Eval Atom) (stack : List Frame) (depth : Nat) (s : Store) :
    returned m stack depth s = ⟨.result (m.outcome s).1, stack, depth, (m.outcome s).2⟩ := by
  unfold returned after
  rcases m.outcome s with ⟨_ | _, _⟩ <;> rfl

/-- What a builtin makes of its strict arguments. -/
def concluded (values : List Atom) : Builtin → Eval Atom
  | .print => do
    Eval.print (Atom.debugRow values)
    return .nil
  | .sum => return .number (values.foldl (fun x a => x + a.operand) .zero)
  | .product => return .number (values.foldl (fun x a => x * a.operand) .zero)
  | _ => return .bool (Eval.allEqual values)

/-! ## Steps -/

def startBuiltin (f : Builtin) (context : Closure) (params : List Atom) (stack : List Frame)
    (depth : Nat) (s : Store) : Config :=
  match f with
  | .print | .sum | .product | .equal => ⟨.strict context params [], .conclude f :: stack, depth, s⟩
  | .printRaw => returned (Eval.printRaw params) stack depth s
  | .lambda => returned (Eval.lambda context params) stack depth s
  | .quote => returned (Eval.quote params) stack depth s
  | .typeOf => returned (Eval.typeOf context params) stack depth s
  | .resolve => returned (Eval.resolveList context params) stack depth s
  | .branch => match params with
    | [] => returned (Eval.misuse .missingCondition) stack depth s
    | condition :: branches =>
      ⟨.lazy context condition, .branch context branches :: stack, depth, s⟩
  | .negate => ⟨.lazy context (params.head?.getD .nil), .negate :: stack, depth, s⟩
  | .global => match Eval.globalName? context params, params[1]? with
    | none, _ => returned (Eval.refuse .unnamedGlobal .notASymbol) stack depth s
    | some _, none => returned (Eval.misuse .missingValue) stack depth s
    | some name, some param => ⟨.lazy context param, .bind name :: stack, depth, s⟩
  | .eval =>
    if params.all Atom.isList then ⟨.reify context params [], stack, depth, s⟩
    else returned (Eval.misuse .formNotList) stack depth s
  | .map => match params with
    | f :: sequence :: _ => ⟨.lazy context f, .mapFunction context sequence :: stack, depth, s⟩
    | _ => returned (Eval.misuse .malformedMap) stack depth s

def enter (context : Closure) (head : Atom) (params : List Atom) (stack : List Frame) (depth : Nat)
    (s : Store) : Config :=
  match s.globals.callee head with
  | .closure c => ⟨.evaluate (c.bind params) c.code, .leave :: stack, depth + 1, s⟩
  | .native f => ⟨.builtin f context params, .leave :: stack, depth + 1, s⟩
  | a => returned (Eval.refuse (.notCallable a.typeName) .notAFunction) (.leave :: stack)
      (depth + 1) s

/-- Goes on with a value. Rows have frames of their own. -/
def resume (v : Atom) (stack : List Frame) (depth : Nat) (s : Store) : Frame → Option Config
  | .leave => some ⟨.result (.ok v), stack, depth - 1, s⟩
  | .argument context later done => some ⟨.strict context later (done ++ [v]), stack, depth, s⟩
  | .branch context branches => match branches[if v.isTruthy then 0 else 1]? with
    | some chosen => some ⟨.lazy context chosen, stack, depth, s⟩
    | none => some ⟨.result (.ok .nil), stack, depth, s⟩
  | .negate => match v with
    | .number x => some ⟨.result (.ok (.number (-x))), stack, depth, s⟩
    | a => some ⟨.result (.ok a), stack, depth, s⟩
  | .bind name => some (returned (do
      Eval.note (.bound name v.typeName)
      Eval.bindGlobal name v
      return .nil) stack depth s)
  | .reify context later done => some ⟨.reify context later (done ++ [v]), stack, depth, s⟩
  | .mapFunction context sequence =>
    some ⟨.lazy context sequence, .mapSequence context v :: stack, depth, s⟩
  | .mapSequence context f => match v with
    | .list items _ => some ⟨.map context f items [], stack, depth, s⟩
    | _ => some (returned (Eval.misuse .notSequence) stack depth s)
  | .mapItem context f later done => some ⟨.map context f later (done ++ [v]), stack, depth, s⟩
  | .call _ | .conclude _ => none

/-- Goes on with a failure, which takes all frames away up to one that catches it. -/
def fail (e : EvalError) (stack : List Frame) (depth : Nat) (s : Store) : Frame → Config
  | .leave => ⟨.result (.error e), stack, depth - 1, s⟩
  | .reify context later done => ⟨.reify context later (done ++ [.error e]), stack, depth, s⟩
  | _ => ⟨.result (.error e), stack, depth, s⟩

/-- The next configuration, in a machine with the given limit. There is none after the result of
everything, when the stack is empty. -/
def next? (limit : Nat) : Config → Option Config
  | ⟨.evaluate _ [], stack, depth, s⟩ =>
    some (returned (Eval.refuse .emptyCall .nonEvaluable) stack depth s)
  | ⟨.evaluate context (head :: params), stack, depth, s⟩ =>
    if limit ≤ depth then
      some (returned (Eval.refuse .depthReached .depthExceeded) stack depth s)
    else some (enter context head params stack depth s)
  | ⟨.builtin f context params, stack, depth, s⟩ =>
    some (startBuiltin f context params stack depth s)
  | ⟨.lazy context (.list items _), stack, depth, s⟩ =>
    some ⟨.evaluate context (items.map (context.meaning s.globals)), stack, depth, s⟩
  | ⟨.lazy context a, stack, depth, s⟩ =>
    some ⟨.result (.ok (context.meaning s.globals a)), stack, depth, s⟩
  | ⟨.strict _ [] values, .call context :: stack, depth, s⟩ =>
    some ⟨.evaluate context values, stack, depth, s⟩
  | ⟨.strict _ [] values, .conclude f :: stack, depth, s⟩ =>
    some (returned (concluded values f) stack depth s)
  | ⟨.strict _ [] _, _, _, _⟩ => none
  | ⟨.strict context (.list items _ :: later) done, stack, depth, s⟩ =>
    some ⟨.strict context items [], .call context :: .argument context later done :: stack, depth,
      s⟩
  | ⟨.strict context (a :: later) done, stack, depth, s⟩ =>
    some ⟨.strict context later (done ++ [context.meaning s.globals a]), stack, depth, s⟩
  | ⟨.reify _ [] done, stack, depth, s⟩ =>
    some (returned (Eval.tagging (Atom.newList done)) stack depth s)
  | ⟨.reify context (.list items _ :: later) done, stack, depth, s⟩ =>
    some ⟨.evaluate context items, .reify context later done :: stack, depth, s⟩
  | ⟨.reify context (_ :: later) done, stack, depth, s⟩ =>
    some ⟨.reify context later done, stack, depth, s⟩
  | ⟨.map _ _ [] done, stack, depth, s⟩ =>
    some (returned (Eval.tagging (Atom.newList done)) stack depth s)
  | ⟨.map context f (a :: later) done, stack, depth, s⟩ =>
    some ⟨.evaluate context [f, a], .mapItem context f later done :: stack, depth, s⟩
  | ⟨.result (.ok v), frame :: stack, depth, s⟩ => resume v stack depth s frame
  | ⟨.result (.error e), frame :: stack, depth, s⟩ => some (fail e stack depth s frame)
  | ⟨.result _, [], _, _⟩ => none

def Step (limit : Nat) (c c' : Config) : Prop := c.next? limit = some c'

/-- Finitely many steps lead from one configuration to another. -/
def Reaches (limit : Nat) : Config → Config → Prop := Relation.ReflTransGen (Step limit)

variable {limit d : Nat} {context : Closure} {stack : List Frame} {s s' : Store} {c c' : Config}

theorem reaches_of_next? {c'' : Config} (h : c.next? limit = some c')
    (hrest : Reaches limit c' c'') : Reaches limit c c'' :=
  Relation.ReflTransGen.head h hrest

theorem next?_of_ended (r : Except EvalError Atom) :
    next? limit ⟨.result r, [], d, s⟩ = none := by
  cases r <;> rfl

/-! ## The counter -/

@[simp] theorem depth_after (m : Eval α) (next : α → Control) :
    (after m next stack d s).depth = d := by
  unfold after
  rcases m.outcome s with ⟨_ | _, _⟩ <;> rfl

@[simp] theorem depth_startBuiltin (f : Builtin) (params : List Atom) :
    (startBuiltin f context params stack d s).depth = d := by
  unfold startBuiltin
  repeat' split
  all_goals simp

@[simp] theorem depth_enter (head : Atom) (params : List Atom) :
    (enter context head params stack d s).depth = d + 1 := by
  unfold enter
  split <;> simp

theorem depth_le_of_resume {v : Atom} {frame : Frame} (h : resume v stack d s frame = some c) :
    c.depth ≤ d := by
  unfold resume at h
  repeat' split at h
  all_goals cases h
  all_goals simp

theorem depth_fail_le (e : EvalError) (frame : Frame) : (fail e stack d s frame).depth ≤ d := by
  cases frame <;> simp [fail]

/-- What a step does to the counter: it goes up by one below the limit, and otherwise not up. -/
theorem depth_of_next? (h : c.next? limit = some c') :
    c'.depth ≤ c.depth ∨ c.depth < limit ∧ c'.depth = c.depth + 1 := by
  fun_cases next? limit c
  case case3 hlimit =>
    rw [next?, if_neg hlimit] at h
    cases h
    exact .inr ⟨Nat.lt_of_not_le hlimit, depth_enter ..⟩
  case case17 => exact .inl (depth_le_of_resume h)
  case case18 =>
    cases h
    exact .inl (depth_fail_le ..)
  -- No other step goes to another depth.
  all_goals
    refine .inl (Nat.le_of_eq ?_)
    simp only [next?, *, if_true, Option.some.injEq, reduceCtorEq] at h
  all_goals
    subst h
    simp

theorem depth_le_of_reaches (h : Reaches limit c c') (hc : c.depth ≤ limit) :
    c'.depth ≤ limit := by
  induction h with
  | refl => exact hc
  | tail _ hstep ih =>
    rcases depth_of_next? hstep with hle | ⟨hlt, heq⟩
    · exact Nat.le_trans hle ih
    · exact heq ▸ hlt

/-- Steps are determined, so a run that has come to an end is the only run. -/
theorem acc_of_reaches (h : Reaches limit c c') (hend : c'.next? limit = none) :
    Acc (fun after before => Step limit before after) c := by
  induction h using Relation.ReflTransGen.head_induction_on with
  | refl =>
    refine ⟨_, fun c'' hstep => ?_⟩
    rw [Step, hend] at hstep
    cases hstep
  | head hstep _ ih =>
    refine ⟨_, fun c'' hstep' => ?_⟩
    rw [Step, hstep] at hstep'
    cases hstep'
    exact ih

/-! ## The evaluator -/

/-- The machine does the calls of an evaluator when `d` evaluations are in progress. -/
def Follows (limit d : Nat) (call : Evaluator) : Prop :=
  ∀ context row stack s,
    Reaches limit ⟨.evaluate context row, stack, d, s⟩ (returned (call context row) stack d s)

variable {call : Evaluator}

/-- Computations are done in sequence: the second from where the first leads, and a failure of the
first takes away what is on the stack for its value. -/
theorem reaches_bind {m : Eval α} {f : α → Eval β} {next : α → Control} {next' : β → Control}
    {above : List Frame} (hm : Reaches limit c (after m next above d s))
    (hok : ∀ a s', Reaches limit ⟨next a, above, d, s'⟩ (after (f a) next' stack d s'))
    (herror : ∀ e s', Reaches limit ⟨.result (.error e), above, d, s'⟩
      ⟨.result (.error e), stack, d, s'⟩) :
    Reaches limit c (after (m >>= f) next' stack d s) := by
  refine hm.trans ?_
  unfold after
  rw [Eval.outcome_bind]
  rcases m.outcome s with ⟨e | a, s'⟩
  · exact herror e s'
  · exact hok a s'

theorem reaches_lazy (hcall : Follows limit d call) (context : Closure) (a : Atom)
    (stack : List Frame) (s : Store) :
    Reaches limit ⟨.lazy context a, stack, d, s⟩
      (returned (Eval.lazyArgument call context a) stack d s) := by
  cases a with
  | list items tag =>
    rw [returned, after_congr (Eval.outcome_lazyArgument_list call context items tag s)]
    exact reaches_of_next? rfl (hcall context _ stack s)
  | _ =>
    rw [returned, Eval.lazyArgument_of_not_list rfl, after_of_ok (Eval.outcome_resolve ..)]
    exact .single rfl

theorem reaches_frame {m : Eval Atom} {next : Atom → Control} {frame : Frame}
    (hm : Reaches limit c (returned m (frame :: stack) d s))
    (hok : ∀ v s', resume v stack d s' frame = some ⟨next v, stack, d, s'⟩)
    (herror : ∀ e s', fail e stack d s' frame = ⟨.result (.error e), stack, d, s'⟩) :
    Reaches limit c (after m next stack d s) := by
  refine hm.trans (.single ?_)
  unfold returned after
  rcases m.outcome s with ⟨e | v, s'⟩
  · exact congrArg some (herror e s')
  · exact hok v s'

/-- Rows are obtained item by item: the first item joins those that are done, and the later ones
join them. -/
theorem reaches_row {m : Eval Atom} {rest : Eval (List Atom)} {done : List Atom}
    {next last : List Atom → Control}
    (hfirst : Reaches limit c (after m (fun v => next (done ++ [v])) stack d s))
    (hlater : ∀ v s', Reaches limit ⟨next (done ++ [v]), stack, d, s'⟩
      (after rest (fun values => last (done ++ [v] ++ values)) stack d s')) :
    Reaches limit c (after (do return (← m) :: (← rest)) (fun values => last (done ++ values))
      stack d s) := by
  refine reaches_bind hfirst (fun v s' => ?_) (fun _ _ => .refl)
  refine reaches_bind (hlater v s') (fun values s'' => ?_) (fun _ _ => .refl)
  rw [after_pure, List.append_assoc, List.singleton_append]
  exact .refl

mutual

theorem reaches_strictArgument (hcall : Follows limit d call) (context : Closure) (a : Atom)
    (later done : List Atom) (stack : List Frame) (s : Store) :
    Reaches limit ⟨.strict context (a :: later) done, stack, d, s⟩
      (after (Eval.strictArgument call context a)
        (fun v => .strict context later (done ++ [v])) stack d s) := by
  cases a with
  | list items tag =>
    rw [Eval.strictArgument]
    -- The items are obtained above a frame for their call and one for its value.
    refine reaches_bind (reaches_of_next? rfl (reaches_strict hcall context items [] _ s))
      (fun row s' => ?_) (fun e s' => reaches_of_next? rfl (.single rfl))
    exact reaches_of_next? rfl
      (reaches_frame (hcall context row _ s') (fun _ _ => rfl) (fun _ _ => rfl))
  | _ =>
    rw [Eval.strictArgument_of_not_list rfl, after_of_ok (Eval.outcome_resolve ..)]
    exact .single rfl

theorem reaches_strict (hcall : Follows limit d call) (context : Closure) (params done : List Atom)
    (stack : List Frame) (s : Store) :
    Reaches limit ⟨.strict context params done, stack, d, s⟩
      (after (Eval.strictArguments call context params)
        (fun values => .strict context [] (done ++ values)) stack d s) := by
  cases params with
  | nil =>
    rw [Eval.strictArguments, after_pure, List.append_nil]
    exact .refl
  | cons a later =>
    exact reaches_row (reaches_strictArgument hcall context a later done stack s)
      fun v s' => reaches_strict hcall context later (done ++ [v]) stack s'

end

theorem reaches_reify (hcall : Follows limit d call) (context : Closure) (forms : List Atom) :
    ∀ done stack s, Reaches limit ⟨.reify context forms done, stack, d, s⟩
      (after (Eval.reifiedCalls call context forms)
        (fun values => .reify context [] (done ++ values)) stack d s) := by
  induction forms with
  | nil =>
    intro done stack s
    rw [Eval.reifiedCalls, after_pure, List.append_nil]
    exact .refl
  | cons form later ih =>
    intro done stack s
    cases form with
    | list items tag =>
      have hform : Reaches limit ⟨.reify context (.list items tag :: later) done, stack, d, s⟩
          (after (Eval.reified (call context items))
            (fun v => .reify context later (done ++ [v])) stack d s) := by
        refine reaches_of_next? rfl ((hcall context items _ s).trans (.single ?_))
        unfold returned after
        rw [Eval.outcome_reified]
        rcases (call context items).outcome s with ⟨e | v, s'⟩ <;> rfl
      exact reaches_row hform fun v s' => ih (done ++ [v]) stack s'
    | _ => exact reaches_of_next? rfl (ih done stack s)

theorem reaches_map (hcall : Follows limit d call) (context : Closure) (f : Atom)
    (items : List Atom) :
    ∀ done stack s, Reaches limit ⟨.map context f items done, stack, d, s⟩
      (after (Eval.mapCalls call context f items)
        (fun values => .map context f [] (done ++ values)) stack d s) := by
  induction items with
  | nil =>
    intro done stack s
    rw [Eval.mapCalls, after_pure, List.append_nil]
    exact .refl
  | cons a later ih =>
    intro done stack s
    have hitem : Reaches limit ⟨.map context f (a :: later) done, stack, d, s⟩
        (after (call context [f, a]) (fun v => .map context f later (done ++ [v])) stack d s) :=
      reaches_frame (reaches_of_next? rfl (hcall context [f, a] _ s)) (fun _ _ => rfl)
        (fun _ _ => rfl)
    exact reaches_row hitem fun v s' => ih (done ++ [v]) stack s'

theorem reaches_builtin (hcall : Follows limit d call) (f : Builtin) (context : Closure)
    (params : List Atom) (stack : List Frame) (s : Store) :
    Reaches limit ⟨.builtin f context params, stack, d, s⟩
      (returned (f.run call context params) stack d s) := by
  have hstrict := reaches_strict hcall context params [] (.conclude f :: stack) s
  have hlazy := reaches_lazy hcall context
  refine reaches_of_next? rfl ?_
  cases f with
  | print | sum | product | equal =>
    exact reaches_bind hstrict (fun _ _ => .single rfl) (fun _ _ => .single rfl)
  | printRaw | lambda | quote | typeOf | resolve => exact .refl
  | branch =>
    cases params with
    | nil => exact .refl
    | cons condition branches =>
      refine reaches_bind (hlazy condition _ s) (fun v s' => ?_) (fun _ _ => .single rfl)
      cases hchosen : branches[if v.isTruthy then 0 else 1]? with
      | none => exact .single (by simp only [Step, next?, resume, hchosen, after_pure])
      | some chosen =>
        exact reaches_of_next? (by simp only [next?, resume, hchosen]) (hlazy chosen stack s')
  | negate =>
    refine reaches_bind (hlazy _ _ s) (fun v s' => .single ?_) (fun _ _ => .single rfl)
    cases v <;> rfl
  | global =>
    rw [startBuiltin, Builtin.run, Eval.global]
    rcases Eval.globalName? context params with _ | name
    · exact .refl
    rcases params[1]? with _ | param
    · exact .refl
    exact reaches_bind (hlazy param _ s) (fun _ _ => .single rfl) (fun _ _ => .single rfl)
  | eval =>
    rw [startBuiltin, Builtin.run, Eval.eval]
    split
    · exact reaches_bind (reaches_reify hcall context params [] stack s)
        (fun _ _ => .single rfl) (fun _ _ => .refl)
    · exact .refl
  | map =>
    rcases params with _ | ⟨f, _ | ⟨sequence, _⟩⟩
    · exact .refl
    · exact .refl
    · refine reaches_bind (hlazy f _ s) (fun v s' => reaches_of_next? rfl ?_)
        (fun _ _ => .single rfl)
      refine reaches_bind (hlazy sequence _ s') (fun w s'' => ?_) (fun _ _ => .single rfl)
      cases w with
      | list items tag =>
        exact reaches_of_next? rfl (reaches_bind (reaches_map hcall context v items [] stack s'')
          (fun _ _ => .single rfl) (fun _ _ => .refl))
      | _ => exact .single rfl

/-- The machine evaluates: the levels are those left up to the limit. -/
theorem follows_evaluate (levels : Nat) :
    ∀ d, limit - d = levels → Follows limit d (evaluate levels) := by
  induction levels with
  | zero =>
    intro d hd context row stack s
    cases row with
    | nil => exact .single rfl
    | cons head params => exact .single (if_pos (Nat.sub_eq_zero_iff_le.mp hd))
  | succ levels ih =>
    intro d hd context row stack s
    cases row with
    | nil => exact .single rfl
    | cons head params =>
      have hlimit : ¬ limit ≤ d := by omega
      have hcall : Follows limit (d + 1) (evaluate levels) := ih (d + 1) (by omega)
      refine reaches_of_next? (if_neg hlimit) ?_
      -- What the call leads to one level deeper, the frame for leaving takes back.
      suffices h : Reaches limit (enter context head params stack d s)
          (returned (evaluate (levels + 1) context (head :: params)) (.leave :: stack) (d + 1) s) by
        refine h.trans (.single ?_)
        unfold returned after
        rcases (evaluate (levels + 1) context (head :: params)).outcome s with ⟨e | v, s'⟩ <;> rfl
      rw [returned, evaluate,
        after_congr (Eval.outcome_bind_of_ok (Eval.outcome_function head s) _), enter]
      cases s.globals.callee head with
      | closure c => exact hcall (c.bind params) c.code _ s
      | native f => exact reaches_builtin hcall f context params _ s
      | _ => exact .refl

end Config

/-! ## Evaluations end -/

namespace Machine

/-- Where the machine starts, with nothing pending. -/
def start (m : Machine) (control : Control) : Config := ⟨control, [], m.depth, m.store⟩

/-- Started on a machine, the steps come to an end with the given outcome. -/
structure Completes (m : Machine) (control : Control) (outcome : Except EvalError Atom × Machine) :
    Prop where
  /-- There is no infinite run. -/
  finite : Acc (fun after before => Config.Step m.limit before after) (m.start control)
  /-- When nothing is pending any more, the counter is where it was. -/
  ends : Config.Reaches m.limit (m.start control)
    ⟨.result outcome.1, [], m.depth, outcome.2.store⟩
  /-- On the way, the counter does not exceed the limit. -/
  bounded : ∀ c, Config.Reaches m.limit (m.start control) c → c.depth ≤ m.limit
  /-- Only the store has changed. -/
  keeps : outcome.2 = { m with store := outcome.2.store }

theorem completes_of_reaches {m : Machine} (hm : m.depth ≤ m.limit) {control : Control}
    {f : Eval Atom}
    (h : Config.Reaches m.limit (m.start control) (Config.returned f [] m.depth m.store)) :
    m.Completes control (m.onStore f.run) := by
  rw [Config.returned_eq] at h
  exact ⟨Config.acc_of_reaches h (Config.next?_of_ended _), h,
    fun c hc => Config.depth_le_of_reaches hc hm, rfl⟩

end Machine

/-- The lines for the standard output, in order. -/
def Store.lines (s : Store) : List Text :=
  s.journal.toList.filterMap fun
    | .printed line => some line
    | .noted _ => none

/-- Every evaluation ends, and so does every builtin that is called directly: in each machine that
does not exceed its limit, in every context, the steps lead to the result and the store that the
evaluator gives, and they put the counter of evaluations back and keep it within the limit. At the
limit, calls fail, and they bind and print nothing. -/
theorem evaluation_ends (m : Machine) (hm : m.depth ≤ m.limit) (context : Closure) :
    (∀ call, m.Completes (.evaluate context call) (m.evaluate context call)) ∧
    (∀ f params, m.Completes (.builtin f context params) (m.callBuiltin f context params)) ∧
    (m.depth = m.limit → ∀ head params,
      (m.evaluate context (head :: params)).1 = .error .depthExceeded ∧
        (m.evaluate context (head :: params)).2.store.globals = m.store.globals ∧
        (m.evaluate context (head :: params)).2.store.lines = m.store.lines) := by
  have hcall : Config.Follows m.limit m.depth (evaluate m.levels) :=
    Config.follows_evaluate m.levels m.depth rfl
  refine ⟨fun call => ?_, fun f params => ?_, fun hlimit head params => ?_⟩
  · exact Machine.completes_of_reaches hm (hcall context call [] m.store)
  · exact Machine.completes_of_reaches hm (Config.reaches_builtin hcall f context params [] m.store)
  · have hlevels : m.levels = 0 := by rw [Machine.levels, hlimit, Nat.sub_self]
    rw [Machine.evaluate, hlevels, Machine.onStore_eq, evaluate, Eval.outcome_refuse]
    simp [Store.lines]

/-- A function that calls itself without end, in a machine with a limit of three: its evaluation
ends with a failure. -/
theorem evaluation_ends_loop :
    let loop : Atom := .symbol (ascii "loop")
    let m : Machine :=
      ({ limit := 3 } : Machine).bind (ascii "loop") (.closure (.compile [loop] []))
    m.depth ≤ m.limit ∧ m.Completes (.evaluate .empty [loop]) (m.evaluate .empty [loop]) ∧
      (m.evaluate .empty [loop]).1 = .error .depthExceeded := by
  intro loop m
  have hm : m.depth ≤ m.limit := by decide
  exact ⟨hm, (evaluation_ends m hm .empty).1 [loop], rfl⟩

end SlotLisp

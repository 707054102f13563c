import SlotLisp.Proofs.Levels
import SlotLisp.Proofs.StepMachine

/-!
# Raising the limit

Only a call that is about to be made is held against the limit on nested evaluations. If the limit
is met there, the call fails, but the run may go on, since `eval` makes a value of the failure. So
the result does not tell whether a run has met the limit.

**Theorem (`evaluate_raised_limit`).** A run that meets the limit at none of its calls is the same
with every higher limit. And no run depends on the limit and on the evaluations in progress
otherwise than by the levels that are left.

That the limit is met is noted in the journal and nowhere else, and nothing else is noted that way.
So the notes in the journal tell exactly whether one of the steps of a run has met the limit
(`meetsLimit_iff`).
-/

namespace SlotLisp

/-! ## Computations that do not meet the limit -/

namespace Eval

variable {α β : Type}

/-- The computation makes no note of the limit. -/
def Quiet (m : Eval α) : Prop := ∀ s : Store, (outcome m s).2.refusals = s.refusals

theorem quiet_pure (a : α) : Quiet (pure a) := fun _ => rfl

theorem quiet_bindGlobal (name : Text) (value : Atom) : Quiet (bindGlobal name value) :=
  fun _ => rfl

theorem quiet_tagging (m : StateM Nat α) : Quiet (tagging m) := fun _ => rfl

theorem Quiet.bind {m : Eval α} {f : α → Eval β} (hm : Quiet m) (hf : ∀ a, Quiet (f a)) :
    Quiet (m >>= f) := by
  intro s
  have hs := hm s
  rw [outcome_bind]
  rcases hrun : outcome m s with ⟨e | a, s'⟩ <;> rw [hrun] at hs
  · exact hs
  · exact (hf a s').trans hs

theorem quiet_record {e : Event} (he : e ≠ .noted .depthReached) : Quiet (record e) := by
  intro s
  rw [outcome_record]
  simp [Store.refusals, he]

theorem quiet_refuse {n : Note} (hn : n ≠ .depthReached) (e : EvalError) :
    Quiet (refuse n e : Eval α) :=
  (quiet_record (by simpa using hn)).bind fun _ _ => rfl

theorem quiet_misuse (m : Misuse) : Quiet (misuse m : Eval α) := quiet_refuse (by simp) _

theorem quiet_resolveAll (context : Closure) (params : List Atom) :
    Quiet (resolveAll context params) := by
  intro s
  rw [outcome_resolveAll]

theorem quiet_lambda (context : Closure) (params : List Atom) : Quiet (lambda context params) := by
  refine (quiet_resolveAll context params).bind fun vs => ?_
  split
  · next names _ body _ _ =>
    cases names.mapM Atom.symbolName? with
    | none => exact quiet_misuse _
    | some names =>
      refine Quiet.bind ?_ fun _ => (quiet_tagging _).bind fun c => quiet_pure _
      unfold Note.ofCompile
      split
      · exact quiet_pure _
      · exact quiet_record (by simp)
  · exact quiet_misuse _

theorem quiet_concluded (values : List Atom) (f : Builtin) : Quiet (Config.concluded values f) := by
  cases f with
  | print => exact (quiet_record (by simp)).bind fun _ => quiet_pure _
  | _ => exact quiet_pure _

end Eval

/-! ## Steps that meet the limit -/

namespace Config

variable {limit d : Nat} {context : Closure} {stack : List Frame} {s : Store} {c c' : Config}

/-- A call is to be made while as many evaluations are in progress as may be. -/
def AtLimit (limit : Nat) : Config → Prop
  | ⟨.evaluate _ (_ :: _), _, depth, _⟩ => limit ≤ depth
  | _ => False

/-- At the limit there is a step to be made, which refuses the call. -/
theorem not_atLimit_of_ended (h : c.next? limit = none) : ¬c.AtLimit limit := by
  rcases c with ⟨⟨context, row⟩ | _ | _ | _ | _ | _ | _, stack, depth, s⟩
  · cases row with
    | nil => exact id
    | cons head params =>
      intro hlimit
      have hlimit' : limit ≤ depth := hlimit
      rw [next?, if_pos hlimit'] at h
      cases h
  all_goals exact id

theorem refusals_after {α : Type} {m : Eval α} (hm : Eval.Quiet m) (next : α → Control) :
    (after m next stack d s).store.refusals = s.refusals := by
  rw [← hm s]
  unfold after
  rcases m.outcome s with ⟨e | a, s'⟩ <;> rfl

theorem refusals_startBuiltin (f : Builtin) (params : List Atom) :
    (startBuiltin f context params stack d s).store.refusals = s.refusals := by
  have hmisuse (m : Misuse) :
      (returned (Eval.misuse m) stack d s).store.refusals = s.refusals :=
    refusals_after (Eval.quiet_misuse m) _
  have hresolve := Eval.quiet_resolveAll context params
  cases f with
  | print | sum | product | equal | negate => rfl
  | printRaw =>
    exact refusals_after ((Eval.quiet_record (by simp)).bind fun _ => Eval.quiet_pure _) _
  | lambda => exact refusals_after (Eval.quiet_lambda context params) _
  | quote => exact refusals_after (Eval.quiet_tagging _) _
  | typeOf => exact refusals_after (hresolve.bind fun _ => Eval.quiet_pure _) _
  | resolve => exact refusals_after (hresolve.bind fun _ => Eval.quiet_tagging _) _
  | branch =>
    cases params with
    | nil => exact hmisuse _
    | cons condition branches => rfl
  | global =>
    rw [startBuiltin]
    rcases Eval.globalName? context params with _ | name
    · exact refusals_after (Eval.quiet_refuse (by simp) _) _
    rcases params[1]? with _ | param
    · exact hmisuse _
    · rfl
  | eval =>
    rw [startBuiltin]
    split
    · rfl
    · exact hmisuse _
  | map =>
    rcases params with _ | ⟨f, _ | ⟨sequence, _⟩⟩
    · exact hmisuse _
    · exact hmisuse _
    · rfl

theorem refusals_enter (head : Atom) (params : List Atom) :
    (enter context head params stack d s).store.refusals = s.refusals := by
  unfold enter
  split
  · rfl
  · rfl
  · exact refusals_after (Eval.quiet_refuse (by simp) _) _

theorem refusals_of_resume {v : Atom} {frame : Frame} (h : resume v stack d s frame = some c) :
    c.store.refusals = s.refusals := by
  cases frame with
  | branch context branches =>
    simp only [resume] at h
    split at h <;> cases h <;> rfl
  | negate =>
    simp only [resume] at h
    split at h <;> cases h <;> rfl
  | bind name =>
    cases h
    exact refusals_after ((Eval.quiet_record (by simp)).bind fun _ =>
      (Eval.quiet_bindGlobal name v).bind fun _ => Eval.quiet_pure _) _
  | mapSequence context f =>
    simp only [resume] at h
    split at h <;> cases h
    · rfl
    · exact refusals_after (Eval.quiet_misuse _) _
  | call | conclude => cases h
  | _ =>
    cases h
    rfl

theorem refusals_fail (e : EvalError) (frame : Frame) :
    (fail e stack d s frame).store.refusals = s.refusals := by
  cases frame <;> rfl

/-- What a step does to the count of refusals: it goes up by one at the limit, and otherwise it
stays. -/
theorem refusals_of_next? (h : c.next? limit = some c') :
    c.AtLimit limit ∧ c'.store.refusals = c.store.refusals + 1 ∨
      ¬c.AtLimit limit ∧ c'.store.refusals = c.store.refusals := by
  fun_cases next? limit c
  case case1 =>
    cases h
    exact .inr ⟨id, refusals_after (Eval.quiet_refuse (by simp) _) _⟩
  case case2 hlimit =>
    rw [next?, if_pos hlimit] at h
    cases h
    rw [returned_eq, Eval.outcome_refuse]
    exact .inl ⟨hlimit, Array.count_push_self ..⟩
  case case3 hlimit =>
    rw [next?, if_neg hlimit] at h
    cases h
    exact .inr ⟨hlimit, refusals_enter ..⟩
  case case4 =>
    cases h
    exact .inr ⟨id, refusals_startBuiltin ..⟩
  case case17 => exact .inr ⟨id, refusals_of_resume h⟩
  case case18 =>
    cases h
    exact .inr ⟨id, refusals_fail ..⟩
  case case8 =>
    cases h
    exact .inr ⟨id, refusals_after (Eval.quiet_concluded _ _) _⟩
  -- All other steps are made without a note.
  all_goals simp only [next?, *, Option.some.injEq, reduceCtorEq] at h
  all_goals
    subst h
    exact .inr ⟨id, rfl⟩

/-! ## Runs that meet the limit -/

theorem refusals_le_of_reaches (h : Reaches limit c c') :
    c.store.refusals ≤ c'.store.refusals := by
  induction h with
  | refl => exact Nat.le_refl _
  | tail _ hstep ih =>
    rcases refusals_of_next? hstep with ⟨-, heq⟩ | ⟨-, heq⟩ <;> omega

/-- Where no step is made at the limit, the count of refusals stays. -/
theorem refusals_of_reaches (h : Reaches limit c c')
    (hlimit : ∀ b, Reaches limit c b → ¬b.AtLimit limit) :
    c'.store.refusals = c.store.refusals := by
  induction h with
  | refl => rfl
  | tail hrun hstep ih =>
    rcases refusals_of_next? hstep with ⟨hat, -⟩ | ⟨-, heq⟩
    · exact absurd hat (hlimit _ hrun)
    · rw [heq, ih]

/-- From wherever a run has come, it goes on to where it ends. -/
theorem reaches_end {e : Config} (h : Reaches limit c c') (he : Reaches limit c e)
    (hend : e.next? limit = none) : Reaches limit c' e := by
  have hunique : Relator.RightUnique (Step limit) := by
    intro a b b' hb hb'
    exact Option.some.inj (hb.symm.trans hb')
  rcases Relation.ReflTransGen.total_of_right_unique hunique h he with hle | hge
  · exact hle
  · cases hge.cases_head with
    | inl heq => exact heq ▸ .refl
    | inr hstep =>
      obtain ⟨b, hb, -⟩ := hstep
      rw [Step, hend] at hb
      cases hb

/-- A run to its end meets the limit at some step, exactly if the count of refusals goes up. -/
theorem refusals_lt_iff {e : Config} (he : Reaches limit c e) (hend : e.next? limit = none) :
    c.store.refusals < e.store.refusals ↔ ∃ b, Reaches limit c b ∧ b.AtLimit limit := by
  constructor
  · intro hlt
    by_cases hexists : ∃ b, Reaches limit c b ∧ b.AtLimit limit
    · exact hexists
    · have heq := refusals_of_reaches he fun b hb hat => hexists ⟨b, hb, hat⟩
      exact absurd heq (Nat.ne_of_gt hlt)
  · rintro ⟨b, hb, hat⟩
    rcases (reaches_end hb he hend).cases_head with rfl | ⟨b', hstep, hrest⟩
    · exact absurd hat (not_atLimit_of_ended hend)
    · have hle := refusals_le_of_reaches hb
      have hle' := refusals_le_of_reaches hrest
      rcases refusals_of_next? hstep with ⟨-, heq⟩ | ⟨hnot, -⟩
      · omega
      · exact absurd hat hnot

end Config

namespace Machine

/-- The machine with another limit, and with another number of evaluations in progress. -/
def withLimit (m : Machine) (limit depth : Nat) : Machine := { m with limit, depth }

variable (m : Machine) (context : Closure) (row : List Atom)

/-- Whether a run meets the limit is whether one of its steps does. -/
theorem meetsLimit_iff :
    m.MeetsLimit context row ↔
      ∃ c, Config.Reaches m.limit (m.start (.evaluate context row)) c ∧ c.AtLimit m.limit := by
  have hrun := Config.follows_evaluate m.levels m.depth rfl context row [] m.store
  rw [Config.returned_eq] at hrun
  exact Config.refusals_lt_iff hrun (Config.next?_of_ended _)

variable {m context row}

/-- With another limit a run is the same, if the outcome is. -/
theorem evaluate_withLimit {limit depth : Nat}
    (h : Eval.outcome (SlotLisp.evaluate (limit - depth) context row) m.store =
      Eval.outcome (SlotLisp.evaluate m.levels context row) m.store) :
    (m.withLimit limit depth).evaluate context row =
      ((m.evaluate context row).1, (m.evaluate context row).2.withLimit limit depth) := by
  have hrun : (m.withLimit limit depth).evaluate context row =
      ((Eval.outcome (SlotLisp.evaluate (limit - depth) context row) m.store).1,
        ⟨limit, depth, (Eval.outcome (SlotLisp.evaluate (limit - depth) context row) m.store).2⟩) :=
    rfl
  rw [hrun, h]
  rfl

end Machine

/-- **Only the levels that are left matter, and only where they run out.** A run meets the limit if
one of its steps is a call with as many evaluations in progress as may be, whatever becomes of the
failure. If a run does not meet the limit, it has the same result and leaves the same store with
every higher limit. And every run has the same result and leaves the same store when the limit and
the number of evaluations in progress are both higher by the same amount. -/
theorem evaluate_raised_limit (m : Machine) (context : Closure) (row : List Atom) :
    (m.MeetsLimit context row ↔
      ∃ c, Config.Reaches m.limit (m.start (.evaluate context row)) c ∧ c.AtLimit m.limit) ∧
    (¬m.MeetsLimit context row → ∀ limit, m.limit ≤ limit →
      (m.withLimit limit m.depth).evaluate context row =
        ((m.evaluate context row).1, (m.evaluate context row).2.withLimit limit m.depth)) ∧
    (∀ k, (m.withLimit (m.limit + k) (m.depth + k)).evaluate context row =
        ((m.evaluate context row).1,
          (m.evaluate context row).2.withLimit (m.limit + k) (m.depth + k))) := by
  refine ⟨m.meetsLimit_iff context row, fun hmeets limit hlimit => ?_, fun k => ?_⟩
  · have hlevels : m.levels ≤ limit - m.depth := Nat.sub_le_sub_right hlimit m.depth
    apply Machine.evaluate_withLimit
    exact Eval.outcome_evaluate_of_le hlevels (Machine.refusals_of_not_meetsLimit hmeets)
  · have hlevels : m.limit + k - (m.depth + k) = m.levels := Nat.add_sub_add_right ..
    apply Machine.evaluate_withLimit
    rw [hlevels]

/-- A machine in which two evaluations may be nested, and the forms `(eval (print "a"))` and
`(eval (eval (print "a")))`. The first does not meet the limit, so it does the same under a limit of
a thousand. The second meets the limit inside `eval`, and succeeds all the same. -/
theorem evaluate_raised_limit_eval :
    let m : Machine := { limit := 2 }
    let print : Atom := .list [.symbol (ascii "print"), .string (ascii "a")] none
    let form : List Atom := [.symbol (ascii "eval"), print]
    let nested : List Atom := [.symbol (ascii "eval"), .list form none]
    ¬m.MeetsLimit .empty form ∧ m.limit ≤ 1000 ∧
      (m.withLimit 1000 0).evaluate .empty form =
        (.ok (.list [.nil] none), (m.evaluate .empty form).2.withLimit 1000 0) ∧
      m.MeetsLimit .empty nested ∧
      (m.evaluate .empty nested).1 = .ok (.list [.list [.error .depthExceeded] none] none) := by
  intro m print form nested
  have hmeets : ¬m.MeetsLimit .empty form := Nat.lt_irrefl 0
  have hlimit : m.limit ≤ 1000 := by decide
  refine ⟨hmeets, hlimit, ?_, Nat.zero_lt_one, rfl⟩
  exact ((evaluate_raised_limit m .empty form).2.1 hmeets 1000 hlimit).trans rfl

end SlotLisp

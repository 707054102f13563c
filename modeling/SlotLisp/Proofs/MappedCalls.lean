import SlotLisp.Proofs.ArgumentPolicies
import SlotLisp.Proofs.FirstFailure
import SlotLisp.Proofs.Renaming

/-!
# Mapping a function over quoted elements

**Theorem (`evaluate_map_quote`).** The call `(map f (quote e ...))` makes the calls of what `f`
stands for on the elements, in order and each on the machine that the one before it leaves, up to
the first one that fails. If none fails, it gives the list of their values.

The function and the elements are obtained once, before the first call. What the calls bind anew, be
it `f` or `map` itself, makes no difference to that.

The quotation is an object of its own. If it holds a NaN, it takes a tag, and the objects that the
calls make get other tags than they would have got without it. By `alike_evaluate` this is all that
comes of it.
-/

namespace SlotLisp

/-- The atom stands for something else where it is resolved. -/
def Atom.isReference : Atom → Bool
  | symbol _ | upvalue _ _ => true
  | _ => false

theorem ClosureOf.meaning_of_not_isReference {a : Atom} (h : a.isReference = false) (c : Closure)
    (g : Globals) : c.meaning g a = a := by
  cases a with
  | symbol | upvalue => cases h
  | _ => rfl

/-! ## The calls -/

namespace Machine

/-- The machine with its counter of tags at `n`. -/
def withNextTag (m : Machine) (n : ℕ) : Machine := { m with store := { m.store with nextTag := n } }

/-- The machine with a quotation of the elements made. It is a new object, and takes a tag if one of
the elements is a NaN. -/
def quoting (m : Machine) (elements : List Atom) : Machine :=
  m.withNextTag (if elements.any Atom.isNaN then m.store.nextTag + 1 else m.store.nextTag)

theorem quoting_of_no_NaN {elements : List Atom} (h : ∀ a ∈ elements, a.isNaN = false)
    (m : Machine) : m.quoting elements = m := by
  have hany : elements.any Atom.isNaN = false := by simpa using h
  rw [quoting, hany]
  rfl

/-- Calls a function on each element in order, on the machine that the call before leaves. The first
call that fails is the last one. -/
def callEach (m : Machine) (context : Closure) (f : Atom) :
    List Atom → Except EvalError (List Atom) × Machine
  | [] => (.ok [], m)
  | a :: as =>
    match m.evaluate context [f, a] with
    | (.error e, m') => (.error e, m')
    | (.ok v, m') =>
      let (vs, m'') := m'.callEach context f as
      (vs.map (v :: ·), m'')

theorem levels_of_onStore {α : Type} {m m' : Machine} {f : Eval α} {r : Except EvalError α}
    (h : m.onStore f.run = (r, m')) : m'.levels = m.levels := by
  obtain ⟨s, -, rfl⟩ := onStore_eq_mk_iff.1 h
  rfl

theorem callEach_eq (m : Machine) (context : Closure) (f : Atom) (as : List Atom) :
    m.callEach context f as =
      m.onStore (Eval.mapCalls (SlotLisp.evaluate m.levels) context f as).run := by
  -- The machine changes from call to call, but the levels left on it do not.
  induction as generalizing m with
  | nil => rfl
  | cons a as ih =>
    rw [callEach, Eval.mapCalls]
    rcases hcall : m.evaluate context [f, a] with ⟨e | v, m'⟩
    · exact (onStore_bind_of_error hcall _).symm
    · rw [onStore_bind_of_ok hcall]
      simp only [ih m', levels_of_onStore hcall]
      rcases hrest : m'.onStore (Eval.mapCalls (SlotLisp.evaluate m.levels) context f as).run with
        ⟨e | vs, m''⟩
      · exact (onStore_bind_of_error hrest _).symm
      · rw [onStore_bind_of_ok hrest]
        rfl

end Machine

/-! ## The builtin `map` -/

/-- The row of the call `(map f (quote e ...))`. -/
def mapQuote (f : Text) (elements : List Atom) (tag : Tag) : List Atom :=
  [.symbol (ascii "map"), .symbol f, .list (.symbol (ascii "quote") :: elements) tag]

namespace Eval

/-- The builtin `map` resolves the function, makes the quotation, and then makes the calls. -/
theorem outcome_map_quote {levels : ℕ} (hlevels : 0 < levels) {s : Store}
    (hquote : s.globals.find? (ascii "quote") = some (.native .quote)) (context : Closure)
    (f : Text) {elements : List Atom} (helements : ∀ a ∈ elements, a.isReference = false)
    (tag : Tag) :
    outcome (map (evaluate levels) context
        [.symbol f, .list (.symbol (ascii "quote") :: elements) tag]) s =
      outcome (mapCalls (evaluate levels) context (s.globals.valueOf f) elements >>= fun vs =>
        tagging (Atom.newList vs)) { s with nextTag := (Atom.tagRow elements s.nextTag).2 } := by
  have hmeanings : elements.map (context.meaning s.globals) = elements := by
    rw [List.map_congr_left (g := id) fun a ha =>
      ClosureOf.meaning_of_not_isReference (helements a ha) context s.globals, List.map_id]
  have hhead : context.meaning s.globals (.symbol (ascii "quote")) = .native .quote :=
    callee_of_find? hquote
  have hf : outcome (lazyArgument (evaluate levels) context (.symbol f)) s =
      (.ok (s.globals.valueOf f), s) := rfl
  have hsequence : outcome (lazyArgument (evaluate levels) context
      (.list (.symbol (ascii "quote") :: elements) tag)) s = outcome (quote elements) s := by
    rw [outcome_lazyArgument_list, List.map_cons, hhead, hmeanings, outcome_evaluate_quote hlevels]
  rw [map, outcome_bind_of_ok hf, outcome_bind_of_ok (hsequence.trans (outcome_quote elements s))]

end Eval

namespace Machine

section Calls

variable {m m' : Machine} {elements : List Atom}
  (hmap : m.lookup (ascii "map") = some (.native .map))
  (hquote : m.lookup (ascii "quote") = some (.native .quote)) (hdepth : m.depth + 2 ≤ m.limit)
  (helements : ∀ a ∈ elements, a.isReference = false) (context : Closure) (f : Text) (tag : Tag)
include hmap hquote hdepth helements

/-- One level down, and with the quotation made, the calls are made and their values are listed. -/
theorem evaluate_mapQuote :
    let inside := (m.atDepth (m.depth + 1)).quoting elements
    let calls := inside.onStore (Eval.mapCalls (SlotLisp.evaluate inside.levels) context
      (m.store.globals.valueOf f) elements >>= fun vs => Eval.tagging (Atom.newList vs)).run
    m.evaluate context (mapQuote f elements tag) = (calls.1, calls.2.atDepth m.depth) := by
  intro inside calls
  have hlevels : 0 < (m.atDepth (m.depth + 1)).levels := by
    simp only [levels, atDepth]
    omega
  have hquote' : (m.atDepth (m.depth + 1)).store.globals.find? (ascii "quote") =
      some (.native .quote) := hquote
  have hcounter : (Atom.tagRow elements (m.atDepth (m.depth + 1)).store.nextTag).2 =
      inside.store.nextTag := by
    simp only [inside, quoting, Atom.tagRow]
    split <;> rfl
  rw [mapQuote, evaluate_builtin (by omega) hmap, callBuiltin, onStore_eq]
  simp only [Builtin.run]
  rw [Eval.outcome_map_quote hlevels hquote' context f helements tag, hcounter]
  rfl

theorem evaluate_mapQuote_of_ok {vs : List Atom}
    (h : ((m.atDepth (m.depth + 1)).quoting elements).callEach context
      (m.store.globals.valueOf f) elements = (.ok vs, m')) :
    ∃ tag' n, m.evaluate context (mapQuote f elements tag) =
      (.ok (.list vs tag'), (m'.withNextTag n).atDepth m.depth) := by
  rw [callEach_eq] at h
  rw [evaluate_mapQuote hmap hquote hdepth helements, onStore_bind_of_ok h]
  exact ⟨_, _, rfl⟩

theorem evaluate_mapQuote_of_error {e : EvalError}
    (h : ((m.atDepth (m.depth + 1)).quoting elements).callEach context
      (m.store.globals.valueOf f) elements = (.error e, m')) :
    m.evaluate context (mapQuote f elements tag) = (.error e, m'.atDepth m.depth) := by
  rw [callEach_eq] at h
  rw [evaluate_mapQuote hmap hquote hdepth helements, onStore_bind_of_error h]

end Calls

end Machine

/-! ## Another counter -/

/-- Moves the tags from `n` on so that they begin at `n'`. -/
def moved (n n' i : ℕ) : ℕ := if i < n then i else i + (n' - n)

section Moved

variable {n n' : ℕ}

theorem moved_injective : Function.Injective (moved n n') := by
  intro i j h
  unfold moved at h
  split at h <;> split at h <;> omega

theorem moved_of_lt {i : ℕ} (h : i < n) : moved n n' i = i := if_pos h

theorem fresh_moved (h : n ≤ n') : Fresh (moved n n') n n' := by
  intro k
  unfold moved
  split <;> omega

end Moved

/-- All tags in the globals have been drawn from the counter. -/
def Store.Drawn (s : Store) : Prop := ∀ e ∈ s.globals.entries, e.2.drawn s.nextTag = true

theorem Store.Drawn.rename_globals {s : Store} (h : s.Drawn) {ρ : ℕ → ℕ}
    (hρ : ∀ i, i < s.nextTag → ρ i = i) : s.globals.rename ρ = s.globals := by
  have hentries : s.globals.entries.map (fun e => (e.1, e.2.rename ρ)) = s.globals.entries := by
    have hid : ∀ e ∈ s.globals.entries, (e.1, e.2.rename ρ) = id e :=
      fun e he => Prod.ext rfl (Atom.rename_of_drawn hρ e.2 (h e he))
    rw [List.map_congr_left hid, List.map_id]
  exact congrArg Globals.mk hentries

/-- With another counter, the calls do the same but for the names of new objects. -/
theorem Machine.callEach_withNextTag {m : Machine} {context : Closure} {f : Text}
    {elements : List Atom} (hstore : m.store.Drawn)
    (hcontext : (Atom.closure context).drawn m.store.nextTag = true)
    (helements : Atom.drawnAll m.store.nextTag elements = true) {n : ℕ}
    (hn : m.store.nextTag ≤ n) :
    let ρ := moved m.store.nextTag n
    let (r, left) := m.callEach context (m.store.globals.valueOf f) elements
    let (r', left') := (m.withNextTag n).callEach context (m.store.globals.valueOf f) elements
    r' = r.map (Atom.renameAll ρ) ∧ left'.store.globals = left.store.globals.rename ρ ∧
      left'.store.journal = left.store.journal := by
  intro ρ
  have hfix : ∀ i, i < m.store.nextTag → ρ i = i := fun i hi => moved_of_lt hi
  have hglobals := hstore.rename_globals hfix
  have hc : context.rename ρ = context :=
    Atom.closure.inj (Atom.rename_of_drawn hfix (.closure context) hcontext)
  have hf : (m.store.globals.valueOf f).rename ρ = m.store.globals.valueOf f := by
    rw [← Globals.valueOf_rename, hglobals]
  have hrow := Atom.renameAll_of_drawn hfix elements helements
  have hstores : m.store.Renamed ρ (m.withNextTag n).store :=
    ⟨hglobals.symm, rfl, fresh_moved hn⟩
  have hcalls := Eval.Alike.mapCalls (Eval.alike_evaluate moved_injective m.levels) context
    (m.store.globals.valueOf f) elements _ _ hstores
  rw [hc, hf, hrow] at hcalls
  rw [callEach_eq, callEach_eq, onStore_eq, onStore_eq]
  exact ⟨hcalls.result, hcalls.renamed.globals, hcalls.renamed.journal⟩

/-- **Mapping over quoted elements is a sequence of calls.** Let `map` and `quote` be bound as at
the start, let two levels be left, and let no element stand for something else. Then the call
`(map f (quote e ...))` makes the calls of the function that `f` stands for on the elements, in
order, one level down. If all succeed, it gives the list of their values. Otherwise it fails with
the first error, and nothing is called after that. Both ways it leaves what the calls leave.

The quotation makes a difference to the calls only if one of the elements is a NaN. Even then, if
all tags have been drawn from the counter, they do the same without it, but for the names of new
objects. -/
theorem evaluate_map_quote {m : Machine} (hmap : m.lookup (ascii "map") = some (.native .map))
    (hquote : m.lookup (ascii "quote") = some (.native .quote)) (hdepth : m.depth + 2 ≤ m.limit)
    {elements : List Atom} (helements : ∀ a ∈ elements, a.isReference = false)
    (context : Closure) (f : Text) (tag : Tag) :
    let function := m.store.globals.valueOf f
    let start := m.atDepth (m.depth + 1)
    (∀ vs m', (start.quoting elements).callEach context function elements = (.ok vs, m') →
      ∃ tag' n, m.evaluate context (mapQuote f elements tag) =
        (.ok (.list vs tag'), (m'.withNextTag n).atDepth m.depth)) ∧
    (∀ e m', (start.quoting elements).callEach context function elements = (.error e, m') →
      m.evaluate context (mapQuote f elements tag) = (.error e, m'.atDepth m.depth)) ∧
    ((∀ a ∈ elements, a.isNaN = false) → start.quoting elements = start) ∧
    (m.store.Drawn → (Atom.closure context).drawn m.store.nextTag = true →
      Atom.drawnAll m.store.nextTag elements = true →
        ∃ ρ : ℕ → ℕ, Function.Injective ρ ∧ (∀ i, i < m.store.nextTag → ρ i = i) ∧
          let (r, left) := start.callEach context function elements
          let (r', left') := (start.quoting elements).callEach context function elements
          r' = r.map (Atom.renameAll ρ) ∧ left'.store.globals = left.store.globals.rename ρ ∧
            left'.store.journal = left.store.journal) := by
  intro function start
  refine ⟨?_, ?_, ?_, ?_⟩
  · intro vs m' h
    exact Machine.evaluate_mapQuote_of_ok hmap hquote hdepth helements context f tag h
  · intro e m' h
    exact Machine.evaluate_mapQuote_of_error hmap hquote hdepth helements context f tag h
  · intro hnan
    exact start.quoting_of_no_NaN hnan
  · intro hstore hcontext hdrawn
    have hle : start.store.nextTag ≤
        if elements.any Atom.isNaN then start.store.nextTag + 1 else start.store.nextTag := by
      split <;> omega
    exact ⟨_, moved_injective, fun i hi => moved_of_lt hi,
      Machine.callEach_withNextTag (m := start) hstore hcontext hdrawn hle⟩

/-- The function binds its own name to its argument. It is called all the same on the second
element, which is a NaN. -/
theorem evaluate_map_quote_rebinding :
    let f := ascii "f"
    let one : Atom := .number ⟨0x3f800000⟩
    let nan : Atom := .number .invalid
    let function : Closure := ⟨[.symbol (ascii "x")],
      [.symbol (ascii "global"), .symbol f, .upvalue 0 (ascii "x")], none, none⟩
    let m : Machine := ({} : Machine).bind f (.closure function)
    let elements := [one, nan]
    m.lookup (ascii "map") = some (.native .map) ∧
      m.lookup (ascii "quote") = some (.native .quote) ∧ m.depth + 2 ≤ m.limit ∧
      (∀ a ∈ elements, a.isReference = false) ∧ m.store.Drawn ∧
      (∃ tag, (m.evaluate .empty (mapQuote f elements none)).1 = .ok (.list [.nil, .nil] tag)) ∧
      (m.evaluate .empty (mapQuote f elements none)).2.lookup f = some nan := by
  intro f one nan function m elements
  have hmap : m.lookup (ascii "map") = some (.native .map) := rfl
  have hquote : m.lookup (ascii "quote") = some (.native .quote) := rfl
  have hdepth : m.depth + 2 ≤ m.limit := by decide
  have helements : ∀ a ∈ elements, a.isReference = false := by decide
  have hcalls : (((m.atDepth 1).quoting elements).callEach .empty (.closure function) elements).1 =
      .ok [.nil, .nil] := rfl
  have hbound : (((m.atDepth 1).quoting elements).callEach .empty (.closure function)
      elements).2.lookup f = some nan := rfl
  have hdrawn : ∀ e ∈ m.store.globals.entries, e.2.drawn m.store.nextTag = true := by decide
  obtain ⟨hok, -⟩ := evaluate_map_quote hmap hquote hdepth helements .empty f none
  obtain ⟨tag, n, heq⟩ := hok _ _ (Prod.ext hcalls rfl)
  rw [heq]
  exact ⟨hmap, hquote, hdepth, helements, hdrawn, ⟨tag, rfl⟩, hbound⟩

end SlotLisp

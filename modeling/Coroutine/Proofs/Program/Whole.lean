import Mathlib
import Coroutine.Compiler
import Coroutine.Proofs.Code.Built
import Coroutine.Proofs.Tree.Checked

/-!
# Programs of bodies that do not suspend

The body of a lambda without suspend points stays one expression, unless it is a label. Its graph
has a single state, which finishes with the value of the body; that of a generator has one state
that evaluates the body and one that ends. `Lambda.program_compile` gives the linear program for all
options.
-/

namespace Coroutine

/-! ## Lowering -/

/-- An expression without suspend points stays whole, unless it is a label. -/
theorem Lowering.lower_whole {p : Place} (hp : p.rethrow = none) {e : Expr}
    (hplain : e.suspends = false) (hlabel : ∀ target fallback, e ≠ .label target fallback) :
    lower p e = pure e := by
  have hwhole : p.whole e = e := by rw [Place.whole, hp]
  have hsplit (lowered : Lower Expr) : p.split e lowered = pure e := by
    rw [Place.split, hplain, hwhole]
    rfl
  cases e with
  | label target fallback => exact absurd rfl (hlabel target fallback)
  | await | yieldReturn | yieldBreak => cases hplain
  | constant | var | lambda => rw [lower, hwhole]
  | condition test ifTrue ifFalse => cases ifFalse <;> rw [lower, hsplit]
  | switch value cases fallback => cases fallback <;> rw [lower, hsplit]
  | tryCatch body handlers cleanup => cases cleanup <;> rw [lower, hsplit]
  | goto kind target value =>
    cases value with
    | none => rw [lower, hwhole]
    | some value => rw [lower, hsplit]
  | throw value =>
    cases value with
    | none => rw [lower, hwhole]
    | some value => rw [lower, hsplit]
  | _ => rw [lower, hsplit]

/-! ## Graphs -/

/-- A constant or a variable can always be built. -/
theorem Code.build_of_isPureLeaf (resolve : Expr.Resolver) {e : Expr} (h : e.isPureLeaf = true)
    (allowEscape : Bool) : ∃ code, Code.build resolve allowEscape e = .ok code := by
  cases e with
  | constant | var => exact ⟨_, rfl⟩
  | _ => cases h

namespace Lambda

variable (l : Lambda)

/-- The states of a body that is one expression. -/
def wholeStates : Array State :=
  match l.kind with
  | .generator => #[
      { zone := Graph.top, region := Graph.top
        expressions := if l.body.isPureLeaf then [] else [l.body]
        transition := some (.goto 1) },
      { zone := Graph.top, region := Graph.top, transition := some .yieldBreak }]
  | _ => #[
      { zone := Graph.top, region := Graph.top, transition := some (.finish (some l.body)) }]

/-- A graph with no zone but the top one. -/
def flatGraph (states : Array State) : Graph :=
  { name := l.displayName, kind := l.kind, params := l.params, states
    zones := #[{ kind := .top, parent := none, region := Graph.top
                 nodes := List.range states.size }]
    openZones := [Graph.top] }

variable {l} (resolve : Expr.Resolver)

/-- The graph of a body without suspend points. -/
theorem lower_eq {facts : Facts} (hcheck : l.check = .ok facts)
    (hplain : l.body.suspends = false)
    (hlabel : ∀ target fallback, l.body ≠ .label target fallback) :
    l.lower resolve = .ok (l.flatGraph l.wholeStates) := by
  have hlower (exit : Option Nat) : Lowering.lower { resolve, exit } l.body = pure l.body :=
    Lowering.lower_whole rfl hplain hlabel
  unfold lower
  rw [hcheck]
  unfold Lowering.lowerBody flatGraph wholeStates
  cases l.kind with
  | generator =>
    simp only [hlower, pure_bind, Lowering.emit]
    cases l.body.isPureLeaf <;> cbv
  | _ =>
    simp only [hlower]
    rfl

/-! ## Simplification -/

/-- The states in their order of emission; a first state that does nothing is passed by. -/
def wholeLayout (l : Lambda) (o : Options) : Graph :=
  match l.kind with
  | .generator =>
    let g := l.flatGraph #[
      { zone := Graph.top, region := Graph.top
        expressions := if l.body.isPureLeaf then [] else [l.body]
        transition := some (.goto 1), pruned := l.body.isPureLeaf && o.optimize },
      { zone := Graph.top, region := Graph.top, transition := some .yieldBreak
        order := if l.body.isPureLeaf && o.optimize then 0 else 1 }]
    { g with entry := if l.body.isPureLeaf && o.optimize then 1 else 0 }
  | _ => l.flatGraph l.wholeStates

theorem simplify_eq (o : Options) :
    ((l.flatGraph l.wholeStates).simplify o).2 = l.wholeLayout o := by
  unfold Graph.simplify wholeLayout flatGraph wholeStates
  cases l.kind with
  | generator =>
    cases l.body.isPureLeaf <;> cases o.optimize <;> cases o.pruneUnreachable <;> cbv
  | _ => cases o.optimize <;> cases o.pruneUnreachable <;> cbv

/-! ## Assembly -/

/-- The instructions that evaluate the body of a generator, if it does more than give a value. -/
def bodyInstrs (l : Lambda) (o : Options) (code : Code) : List Instr :=
  if l.body.isPureLeaf then (if o.optimize then [] else [.label (.state 0)])
  else [.label (.state 0), .eval ⟨l.body, code⟩]

/-- The instructions that end a generator. -/
def exitInstrs (elide : Bool) : List Instr :=
  (if elide then [] else [.goto (.state 1)]) ++ [.label (.state 1), .yieldBreak]

/-- The instructions of a body that is one expression. -/
def wholeInstrs (l : Lambda) (o : Options) (code : Code) : List Instr :=
  match l.kind with
  | .generator => l.bodyInstrs o code ++
    exitInstrs (o.fallthroughElision || l.body.isPureLeaf && o.optimize)
  | _ => [.label (.state 0), .finish (some ⟨l.body, code⟩)]

/-- The program of a body that is one expression. -/
def wholeProgram (l : Lambda) (instrs : List Instr) : Program :=
  { name := l.displayName, kind := l.kind, params := l.params, vars := []
    entry := ⟨Graph.top, [], instrs.toArray⟩, labels := [], resumePoints := [] }

theorem regionNodes_wholeLayout (o : Options) : (l.wholeLayout o).regionNodes Graph.top =
    match l.kind with
    | .generator => if l.body.isPureLeaf && o.optimize then [1] else [0, 1]
    | _ => [0] := by
  unfold wholeLayout flatGraph wholeStates
  cases l.kind with
  | generator => cases l.body.isPureLeaf <;> cases o.optimize <;> cbv
  | _ => cbv

/-- The states are rendered as soon as the body can be built. -/
theorem renderStates_wholeLayout (o : Options) :
    Assembly.renderStates (l.wholeLayout o) resolve Graph.top o.fallthroughElision
      ((l.wholeLayout o).regionNodes Graph.top) {} =
    (Code.build resolve true l.body).map fun code => (l.wholeInstrs o code, {}) := by
  have hcompile (region : Nat) (elide : Bool) (next : Option Nat) :
      Assembly.Place.compile ⟨resolve, region, elide, next⟩ l.body =
        (Code.build resolve true l.body).map fun code => ⟨l.body, code⟩ := by
    rw [Assembly.Place.compile]
    cases Code.build resolve true l.body <;> rfl
  rw [regionNodes_wholeLayout]
  unfold wholeLayout flatGraph wholeStates wholeInstrs bodyInstrs
  -- a generator does not evaluate a pure leaf, so the program has no code for it
  cases l.kind with
  | generator =>
    cases hleaf : l.body.isPureLeaf with
    | true =>
      obtain ⟨code, hcode⟩ := Code.build_of_isPureLeaf resolve hleaf true
      rw [hcode]
      cases o.optimize <;> cases o.fallthroughElision
      all_goals
        simp [Assembly.renderStates, Assembly.renderState, Graph.state,
          Assembly.Place.compileAll, Assembly.renderTransition, Assembly.Place.jump]
        rfl
    | false =>
      cases o.optimize <;> cases o.fallthroughElision
      all_goals
        simp [Assembly.renderStates, Assembly.renderState, Graph.state,
          Assembly.Place.compileAll, hcompile, Assembly.renderTransition, Assembly.Place.jump]
        cases Code.build resolve true l.body <;> rfl
  | _ =>
    simp [Assembly.renderStates, Assembly.renderState, Graph.state,
      Assembly.Place.compileAll, hcompile, Assembly.renderTransition]
    cases Code.build resolve true l.body <;> rfl

/-- Nothing leads out of the instructions. -/
theorem regionExitsOf_wholeInstrs (o : Options) {code : Code} (hescapes : code.escapes = []) :
    Assembly.regionExitsOf (l.wholeLayout o) Graph.top (l.wholeInstrs o code) = .ok [] := by
  unfold Assembly.regionExitsOf Assembly.escapes wholeInstrs bodyInstrs exitInstrs
  cases l.kind with
  | generator =>
    cases l.body.isPureLeaf <;> cases o.optimize <;> cases o.fallthroughElision
    all_goals
      simp [Instr.exprs, Instr.targets, hescapes, Assembly.escapeTargets, Assembly.outside,
        Instr.isLabel]
      rfl
  | _ =>
    simp [Instr.exprs, Instr.targets, hescapes, Assembly.escapeTargets, Assembly.outside]
    rfl

theorem resumeStates_wholeLayout (o : Options) : (l.wholeLayout o).resumeStates = [] := by
  unfold wholeLayout flatGraph wholeStates
  cases l.kind with
  | generator => cases l.body.isPureLeaf <;> cases o.optimize <;> cbv
  | _ => cbv

theorem assemble_wholeLayout (o : Options)
    (hescapes : ∀ code, Code.build resolve true l.body = .ok code → code.escapes = []) :
    (l.wholeLayout o).assemble resolve o =
      (Code.build resolve true l.body).map fun code => l.wholeProgram (l.wholeInstrs o code) := by
  have hschedule : Assembly.schedule (l.wholeLayout o) = [Graph.top] := by
    unfold wholeLayout
    cases l.kind <;> cbv
  have htable : Assembly.table (l.wholeLayout o) Graph.top = [] := by
    rw [Assembly.table, resumeStates_wholeLayout, List.filterMap_nil]
  unfold Graph.assemble
  rw [hschedule]
  simp only [Assembly.renderAll, Assembly.render, Bind.bind, StateT.run, StateT.bind, Except.bind,
    renderStates_wholeLayout, htable]
  cases hcode : Code.build resolve true l.body with
  | error e => rfl
  | ok code =>
    simp only [Except.map, regionExitsOf_wholeInstrs o (hescapes code hcode)]
    change Except.ok _ = _
    rw [resumeStates_wholeLayout]
    unfold wholeLayout wholeProgram flatGraph
    cases l.kind <;> rfl

/-- The linear program of a body without suspend points. It fails to compile only where its code
cannot be built. -/
theorem program_compile {facts : Facts} (hcheck : l.check = .ok facts)
    (hplain : l.body.suspends = false)
    (hlabel : ∀ target fallback, l.body ≠ .label target fallback) (o : Options) :
    (l.compile resolve o).map Compiled.program =
      (Code.build resolve false l.body).map fun code => l.wholeProgram (l.wholeInstrs o code) := by
  have hbuild : Code.build resolve true l.body = Code.build resolve false l.body :=
    Code.build_of_closed (check_labels hcheck).1
  have hescapes (code : Code) (hcode : Code.build resolve true l.body = .ok code) :
      code.escapes = [] := Code.escapes_build (hbuild.symm.trans hcode)
  rw [← hbuild, ← assemble_wholeLayout resolve o hescapes, ← simplify_eq]
  unfold compile
  rw [lower_eq resolve hcheck hplain hlabel]
  change Except.map _ (Except.bind (Graph.assemble _ _ _) _) = _
  cases ((l.flatGraph l.wholeStates).simplify o).2.assemble resolve o <;> rfl

end Lambda

end Coroutine

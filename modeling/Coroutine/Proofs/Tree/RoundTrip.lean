import Mathlib
import Coroutine.Proofs.Json.Text
import Coroutine.Proofs.Tree.Documents

/-!
# Reading trees back

Every documented tree is recovered from its document and from its text, whichever fields that hold
their defaults were left out. There is a lemma for each kind of expression, which says that it is
recovered if its parts are; an induction on trees puts them together.
-/

namespace Coroutine

variable {cs : List SwitchCase}

namespace Expr

open Decoder

/-- Whether an expression is recovered from its document. -/
def Recovered (e : Expr) : Prop :=
  Recovers .node e.toJson decodeWithin (fun e' => e'.anonymous = e.anonymous)

/-- Whether several expressions are recovered from their documents. -/
def AllRecovered (es : List Expr) : Prop :=
  Recovers (.items .node) (.array (listJson es)) (fun room => listOf (decodeWithin room))
    (fun es' => allAnonymous es' = allAnonymous es)

/-- Whether the arms of a switch are recovered from their documents. -/
def CasesRecovered (cs : List SwitchCase) : Prop :=
  Recovers (.items (.record .arm)) (.array (casesJson cs))
    (fun room => listOf (decodeCase (decodeWithin room)))
    (fun cs' => casesAnonymous cs' = casesAnonymous cs)

/-- Whether the handlers of a try are recovered from their documents. -/
def HandlersRecovered (hs : List Handler) : Prop :=
  Recovers (.items (.record .handler)) (.array (handlersJson hs))
    (fun room => listOf (decodeHandler (decodeWithin room)))
    (fun hs' => handlersAnonymous hs' = handlersAnonymous hs)

/-- A node is recovered if what stands inside is. -/
theorem recovers_node {P : Expr → Prop} {kind : String} {j : Json}
    (h : Recovers (.inside kind) j (fun room j' => decodeNode (decodeWithin room) kind j') P) :
    Recovers .node (.object [(kind, j)]) decodeWithin P := by
  intro j' room hj' hroom
  obtain ⟨j'', rfl, hj''⟩ := hj'.of_node
  simp only [Json.depth, Json.fieldsDepth] at hroom
  cases room with
  | zero => omega
  | succ room => exact h j'' room hj'' (by omega)

variable {e e' : Expr}

/-- Constants are read back. -/
theorem recovered_constant {v : Value} (h : v.Documented) : Recovered (.constant v) := by
  apply recovers_node
  apply Recovers.plain
  apply (Value.reads h).map
  intro v' hv'
  exact congrArg Expr.constant hv'

/-- Variables are read back. -/
theorem recovered_var {x : Var} (h : x.Documented) : Recovered (.var x) := by
  apply recovers_node
  apply Recovers.plain
  apply Reads.map (.lift (Var.ofJson?_toJson h) rfl)
  rintro _ rfl
  rfl

/-- Assignments are read back. -/
theorem recovered_assign {x : Var} (hx : x.Documented) (h : Recovered e) :
    Recovered (.assign x e) := by
  apply recovers_node
  apply Recovers.record (r := .assign) rfl
  rintro room _ (_ | ⟨htarget, _ | ⟨hvalue, ⟨⟩⟩⟩)
  apply (htarget.required rfl (Var.recovers hx)).bind
  rintro _ rfl
  apply (hvalue.required rfl h).bind
  intro value' hvalue'
  exact .pure (congrArg (Expr.assign _) hvalue')

/-- Binary operations are read back. -/
theorem recovered_binary (op : BinaryOp) (h : Recovered e) (h' : Recovered e') :
    Recovered (.binary op e e') := by
  apply recovers_node
  apply Recovers.record (r := .binary) rfl
  rintro room _ (_ | ⟨hop, _ | ⟨hleft, _ | ⟨hright, ⟨⟩⟩⟩⟩)
  apply (hop.required rfl (recovers_choice op.lookup_name)).bind
  rintro _ rfl
  apply (hleft.required rfl h).bind
  intro left' hleft'
  apply (hright.required rfl h').bind
  intro right' hright'
  exact .pure (congrArg₂ (Expr.binary _) hleft' hright')

/-- Unary operations are read back. -/
theorem recovered_unary (op : UnaryOp) (h : Recovered e) : Recovered (.unary op e) := by
  apply recovers_node
  apply Recovers.record (r := .unary) rfl
  rintro room _ (_ | ⟨hop, _ | ⟨hoperand, ⟨⟩⟩⟩)
  apply (hop.required rfl (recovers_choice op.lookup_name)).bind
  rintro _ rfl
  apply (hoperand.required rfl h).bind
  intro operand' hoperand'
  exact .pure (congrArg (Expr.unary _) hoperand')

/-- Missing arguments were none. -/
theorem nil_of_default {es : List Expr} (h : some (Json.array []) = some (.array (listJson es))) :
    allAnonymous [] = allAnonymous es := by
  cases es with
  | nil => rfl
  | cons e es => simp [listJson] at h

/-- Calls of the host are read back. -/
theorem recovered_call (function : String) {args : List Expr} (h : AllRecovered args) :
    Recovered (.call function args) := by
  apply recovers_node
  apply Recovers.record (r := .call) rfl
  rintro room _ (_ | ⟨hfunction, _ | ⟨hargs, ⟨⟩⟩⟩)
  apply (hfunction.required rfl (recovers_string function)).bind
  rintro _ rfl
  apply (hargs.withDefault h nil_of_default).bind
  intro args' hargs'
  exact .pure (congrArg (Expr.call _) hargs')

/-- Calls of closures are read back; the arguments may be left out if there are none. -/
theorem recovered_invoke {args : List Expr} (h : Recovered e) (hs : AllRecovered args) :
    Recovered (.invoke e args) := by
  apply recovers_node
  apply Recovers.record (r := .invoke) rfl
  rintro room _ (_ | ⟨htarget, _ | ⟨hargs, ⟨⟩⟩⟩)
  apply (htarget.required rfl h).bind
  intro target' htarget'
  apply (hargs.withDefault hs nil_of_default).bind
  intro args' hargs'
  exact .pure (congrArg₂ Expr.invoke htarget' hargs')

/-- Missing variables were none. -/
theorem nil_of_default_vars {xs : List Var}
    (h : some (Json.array []) = some (.ofList Var.toJson xs)) : [] = xs := by
  cases xs with
  | nil => rfl
  | cons x xs => simp [Json.ofList] at h

/-- Options that correspond up to equality are equal. -/
theorem eq_of_rel {α : Type} {x y : Option α} (h : Option.Rel Eq x y) : x = y := by
  cases h with
  | some h => rw [h]
  | none => rfl

/-- A lambda is recovered if its body is. -/
theorem recovers_lambda (name : Option String) (kind : LambdaKind) {params : List Var}
    (hparams : ∀ x ∈ params, x.Documented) (h : Recovered e) :
    Recovers (.record .lambda) (Lambda.toJson ⟨name, kind, params, e⟩)
      (fun room j' => decodeLambda (decodeWithin room) j')
      (fun l' => l'.anonymous = Lambda.anonymous ⟨name, kind, params, e⟩) := by
  apply Recovers.record (r := .lambda) rfl
  rintro room _ (_ | ⟨hname, _ | ⟨hkind, _ | ⟨hps, _ | ⟨hbody, ⟨⟩⟩⟩⟩⟩)
  apply (hname.optional rfl (by simp) fun n _ => recovers_string n).bind
  intro name' hname'
  obtain rfl := eq_of_rel hname'
  have hsync : some (Json.string "sync") = some (.string kind.name) → .sync = kind := by
    cases kind <;> simp [LambdaKind.name]
  apply (hkind.withDefault (recovers_choice kind.lookup_name) hsync).bind
  rintro _ rfl
  apply (hps.withDefault (Var.recovers_list hparams) nil_of_default_vars).bind
  rintro _ rfl
  apply (hbody.required rfl h).bind
  intro body' hbody'
  exact .pure (congrArg (Lambda.mk _ _ _) hbody')

/-- A lambda is read back with its name, or with none if it was left out. -/
theorem recovered_lambda (name : Option String) (kind : LambdaKind) {params : List Var}
    (hparams : ∀ x ∈ params, x.Documented) (h : Recovered e) :
    Recovered (.lambda ⟨name, kind, params, e⟩) := by
  apply recovers_node
  intro j' room hj' hroom
  apply (recovers_lambda name kind hparams h j' room hj' hroom).map
  rintro ⟨_, _, _, _⟩ hl'
  exact congrArg Expr.lambda hl'

/-- Blocks are read back, with variables and statements that may be left out. -/
theorem recovered_block {vars : List Var} {body : List Expr} (hvars : ∀ x ∈ vars, x.Documented)
    (hs : AllRecovered body) : Recovered (.block vars body) := by
  apply recovers_node
  apply Recovers.record (r := .block) rfl
  rintro room _ (_ | ⟨hvs, _ | ⟨hbody, ⟨⟩⟩⟩)
  apply (hvs.withDefault (Var.recovers_list hvars) nil_of_default_vars).bind
  rintro _ rfl
  apply (hbody.required rfl hs).bind
  intro body' hbody'
  exact .pure (congrArg (Expr.block _) hbody')

/-- Awaits are read back; the type and the flag have defaults. -/
theorem recovered_await (type : String) (configure : Bool) (h : Recovered e) :
    Recovered (.await e type configure) := by
  apply recovers_node
  apply Recovers.record (r := .await) rfl
  rintro room _ (_ | ⟨hawaitable, _ | ⟨htype, _ | ⟨hconfigure, ⟨⟩⟩⟩⟩)
  apply (hawaitable.required rfl h).bind
  intro awaitable' hawaitable'
  have htask : some (Json.string "Task") = some (.string type) → defaultAwaitable = type :=
    fun h => by simpa [defaultAwaitable] using h
  apply (htype.withDefault (recovers_string type) htask).bind
  rintro _ rfl
  have hbool : Recovers .plain (.bool configure) (fun _ j => lift j.bool?) (· = configure) :=
    .plain (.lift rfl rfl)
  apply (hconfigure.withDefault hbool fun h => by simpa using h).bind
  rintro _ rfl
  exact .pure (congrArg (Expr.await · _ _) hawaitable')

/-- What is yielded is read back. -/
theorem recovered_yieldReturn (h : Recovered e) : Recovered (.yieldReturn e) := by
  apply recovers_node
  intro j' room hj' hroom
  apply (h j' room hj' hroom).map
  intro value' hvalue'
  exact congrArg Expr.yieldReturn hvalue'

/-- The end of an iterator is read back. It has no fields. -/
theorem recovered_yieldBreak : Recovered .yieldBreak := by
  intro j' room hj' hroom
  cases hj' with
  | whole =>
    cases room with
    | zero => omega
    | succ room => exact .pure rfl

/-! ### Parts that may be absent -/

/-- No expression is written as null, so an option can be told from its value. -/
theorem toJson_ne_null (e : Expr) : e.toJson ≠ .null := by
  fun_cases toJson e <;> simp

variable {x : Option Expr}

/-- A branch that may be absent is recovered if it is when it is there. -/
theorem reads_optional {room : Nat} {name : String} {o : Option Json}
    (hfound : Found room ⟨name, .node, some .null⟩ (.ofOption toJson x) o)
    (h : ∀ e ∈ x, Recovered e) :
    Reads (optional (decodeWithin room) o) (fun x' => optionAnonymous x' = optionAnonymous x) := by
  apply (hfound.optional rfl toJson_ne_null h).mono
  intro x' hrel
  cases hrel with
  | some he => exact congrArg some he
  | none => rfl

/-- How a conditional is written. -/
theorem toJson_condition : (condition e e' x).toJson = .object [("condition", .object
    [("test", e.toJson), ("if_true", e'.toJson), ("if_false", .ofOption toJson x)])] := by
  cases x <;> rfl

/-- A conditional is read back; its second branch may be left out. -/
theorem recovered_condition (h : Recovered e) (h' : Recovered e') (hx : ∀ e ∈ x, Recovered e) :
    Recovered (.condition e e' x) := by
  rw [Recovered, toJson_condition]
  apply recovers_node
  apply Recovers.record (r := .condition) rfl
  rintro room _ (_ | ⟨htest, _ | ⟨htrue, _ | ⟨hfalse, ⟨⟩⟩⟩⟩)
  apply (htest.required rfl h).bind
  intro test' htest'
  apply (htrue.required rfl h').bind
  intro ifTrue' htrue'
  apply (reads_optional hfalse hx).bind
  intro ifFalse' hfalse'
  apply Reads.pure
  show Expr.condition _ _ _ = Expr.condition _ _ _
  rw [htest', htrue', hfalse']

/-- How a switch is written. -/
theorem toJson_switch :
    (switch e cs x).toJson = .object [("switch", .object
    [("value", e.toJson), ("cases", .array (casesJson cs)),
     ("default", .ofOption toJson x)])] := by
  cases x <;> rfl

/-- A switch is read back, arm by arm; its default may be left out. -/
theorem recovered_switch (h : Recovered e) (hs : CasesRecovered cs) (hx : ∀ e ∈ x, Recovered e) :
    Recovered (.switch e cs x) := by
  rw [Recovered, toJson_switch]
  apply recovers_node
  apply Recovers.record (r := .switch) rfl
  rintro room _ (_ | ⟨hvalue, _ | ⟨hcases, _ | ⟨hdefault, ⟨⟩⟩⟩⟩)
  apply (hvalue.required rfl h).bind
  intro value' hvalue'
  apply (hcases.required rfl hs).bind
  intro cases' hcases'
  apply (reads_optional hdefault hx).bind
  intro fallback' hfallback'
  apply Reads.pure
  show Expr.switch _ _ _ = Expr.switch _ _ _
  rw [hvalue', hcases', hfallback']

/-- A label that may be absent. -/
theorem reads_optionalLabel {room : Nat} {name : String} {l : Option Label} {o : Option Json}
    (hfound : Found room ⟨name, .record .target, some .null⟩ (.ofOption Label.toJson l) o)
    (h : ∀ k ∈ l, k.Documented) : Reads (optional decodeLabel o) (· = l) := by
  have hnull : ∀ k : Label, k.toJson ≠ .null := by simp [Label.toJson]
  exact (hfound.optional rfl hnull fun k hk => Label.recovers (h k hk)).mono fun _ => eq_of_rel

/-- A loop is read back; its labels may be left out. -/
theorem recovered_loop {l l' : Option Label} (h : Recovered e) (hl : ∀ k ∈ l, k.Documented)
    (hl' : ∀ k ∈ l', k.Documented) : Recovered (.loop e l l') := by
  apply recovers_node
  apply Recovers.record (r := .loop) rfl
  rintro room _ (_ | ⟨hbody, _ | ⟨hbreak, _ | ⟨hcontinue, ⟨⟩⟩⟩⟩)
  apply (hbody.required rfl h).bind
  intro body' hbody'
  apply (reads_optionalLabel hbreak hl).bind
  rintro _ rfl
  apply (reads_optionalLabel hcontinue hl').bind
  rintro _ rfl
  exact .pure (congrArg (Expr.loop · _ _) hbody')

/-- How a jump is written. -/
theorem toJson_goto {kind : JumpKind} {l : Label} : (goto kind l x).toJson = .object [("goto",
    .object [("kind", .string kind.name), ("target", l.toJson),
      ("value", .ofOption toJson x)])] := by
  cases x <;> rfl

/-- A jump is read back; its value may be left out. -/
theorem recovered_goto (kind : JumpKind) {l : Label} (hl : l.Documented)
    (hx : ∀ e ∈ x, Recovered e) : Recovered (.goto kind l x) := by
  rw [Recovered, toJson_goto]
  apply recovers_node
  apply Recovers.record (r := .goto) rfl
  rintro room _ (_ | ⟨hkind, _ | ⟨htarget, _ | ⟨hvalue, ⟨⟩⟩⟩⟩)
  have hgoto : some (Json.string "goto") = some (.string kind.name) → .toLabel = kind := by
    cases kind <;> simp [JumpKind.name]
  apply (hkind.withDefault (recovers_choice kind.lookup_name) hgoto).bind
  rintro _ rfl
  apply (htarget.required rfl (Label.recovers hl)).bind
  rintro _ rfl
  apply (reads_optional hvalue hx).bind
  intro value' hvalue'
  exact .pure (congrArg (Expr.goto _ _) hvalue')

/-- How a label is written. -/
theorem toJson_label {l : Label} : (label l x).toJson = .object [("label", .object
    [("target", l.toJson), ("default", .ofOption toJson x)])] := by
  cases x <;> rfl

/-- A label is read back; its default may be left out. -/
theorem recovered_label {l : Label} (hl : l.Documented) (hx : ∀ e ∈ x, Recovered e) :
    Recovered (.label l x) := by
  rw [Recovered, toJson_label]
  apply recovers_node
  apply Recovers.record (r := .label) rfl
  rintro room _ (_ | ⟨htarget, _ | ⟨hdefault, ⟨⟩⟩⟩)
  apply (htarget.required rfl (Label.recovers hl)).bind
  rintro _ rfl
  apply (reads_optional hdefault hx).bind
  intro fallback' hfallback'
  exact .pure (congrArg (Expr.label _) hfallback')

/-- How a guarded expression is written. -/
theorem toJson_tryCatch {hs : List Handler} : (tryCatch e hs x).toJson = .object [("try", .object
    [("body", e.toJson), ("handlers", .array (handlersJson hs)),
     ("finally", .ofOption toJson x)])] := by
  cases x <;> rfl

/-- A guarded expression is read back, handler by handler; handlers and cleanup may be left out. -/
theorem recovered_tryCatch {hs : List Handler} (h : Recovered e) (hhs : HandlersRecovered hs)
    (hx : ∀ e ∈ x, Recovered e) : Recovered (.tryCatch e hs x) := by
  rw [Recovered, toJson_tryCatch]
  apply recovers_node
  apply Recovers.record (r := .tryCatch) rfl
  rintro room _ (_ | ⟨hbody, _ | ⟨hhandlers, _ | ⟨hfinally, ⟨⟩⟩⟩⟩)
  apply (hbody.required rfl h).bind
  intro body' hbody'
  have hnone : some (Json.array []) = some (.array (handlersJson hs)) →
      handlersAnonymous [] = handlersAnonymous hs := by
    intro hnil
    cases hs with
    | nil => rfl
    | cons c cs =>
      obtain ⟨_, _, _⟩ := c
      simp [handlersJson] at hnil
  apply (hhandlers.withDefault hhs hnone).bind
  intro handlers' hhandlers'
  apply (reads_optional hfinally hx).bind
  intro cleanup' hcleanup'
  apply Reads.pure
  show Expr.tryCatch _ _ _ = Expr.tryCatch _ _ _
  rw [hbody', hhandlers', hcleanup']

/-- How a throw is written. -/
theorem toJson_throw : (throw x).toJson = .object [("throw", .ofOption toJson x)] := by
  cases x <;> rfl

/-- The operand of a throw is never left out: without one it is `null`. -/
theorem recovered_throw (hx : ∀ e ∈ x, Recovered e) : Recovered (.throw x) := by
  rw [Recovered, toJson_throw]
  apply recovers_node
  intro j' room hj' hroom
  have hfound : Found room ⟨"throw", .node, some .null⟩ (.ofOption toJson x) (some j') :=
    .kept hj' hroom
  apply (reads_optional hfound hx).map
  intro value' hvalue'
  exact congrArg Expr.throw hvalue'

/-! ### Lists -/

/-- A list is read back if its head and its tail are. -/
theorem allRecovered_cons {es : List Expr} (h : Recovered e) (hs : AllRecovered es) :
    AllRecovered (e :: es) := by
  apply Recovers.cons h hs
  intro e' es' he' hes'
  exact congrArg₂ List.cons he' hes'

/-- Arms are read back if the tests and the body of the first one and the other arms are. -/
theorem casesRecovered_cons {tests : List Expr} (ht : AllRecovered tests) (h : Recovered e)
    (hs : CasesRecovered cs) : CasesRecovered (⟨tests, e⟩ :: cs) := by
  have harm : Recovers (.record .arm)
      (.object [("test_values", .array (listJson tests)), ("body", e.toJson)])
      (fun room => decodeCase (decodeWithin room))
      (fun c => allAnonymous c.tests = allAnonymous tests ∧ c.body.anonymous = e.anonymous) := by
    apply Recovers.record (r := .arm) rfl
    rintro room _ (_ | ⟨htests, _ | ⟨hbody, ⟨⟩⟩⟩)
    apply (htests.required rfl ht).bind
    intro tests' htests'
    apply (hbody.required rfl h).bind
    intro body' hbody'
    exact .pure ⟨htests', hbody'⟩
  apply Recovers.cons harm hs
  rintro ⟨tests', body'⟩ cs' ⟨htests', hbody'⟩ hcs'
  exact congrArg₂ List.cons (congrArg₂ SwitchCase.mk htests' hbody') hcs'

/-- Handlers are read back if the body of the first one and the other handlers are. -/
theorem handlersRecovered_cons (filter : Filter) {x : Option Var} {hs : List Handler}
    (hx : ∀ y ∈ x, y.Documented) (h : Recovered e) (hhs : HandlersRecovered hs) :
    HandlersRecovered (⟨filter, x, e⟩ :: hs) := by
  have hhandler : Recovers (.record .handler)
      (.object [("filter", filter.toJson), ("variable", .ofOption Var.toJson x),
        ("body", e.toJson)])
      (fun room => decodeHandler (decodeWithin room))
      (fun c => c.filter = filter ∧ c.var = x ∧ c.body.anonymous = e.anonymous) := by
    apply Recovers.record (r := .handler) rfl
    rintro room _ (_ | ⟨hfilter, _ | ⟨hvar, _ | ⟨hbody, ⟨⟩⟩⟩⟩)
    have hany : some (Json.string "any") = some filter.toJson → .any = filter := by
      cases filter <;> simp [Filter.toJson]
    apply (hfilter.withDefault (Filter.recovers filter) hany).bind
    rintro _ rfl
    have hnull : ∀ y : Var, y.toJson ≠ .null := by simp [Var.toJson]
    apply (hvar.optional rfl hnull fun y hy => Var.recovers (hx y hy)).bind
    intro x' hx'
    apply (hbody.required rfl h).bind
    intro body' hbody'
    exact .pure ⟨rfl, eq_of_rel hx', hbody'⟩
  apply Recovers.cons hhandler hhs
  rintro ⟨filter', x', body'⟩ hs' ⟨rfl, rfl, hbody'⟩ hhs'
  exact congrArg₂ List.cons (congrArg (Handler.mk _ _) hbody') hhs'

/-! ### All of them -/

mutual

/-- Every documented expression is recovered from its document. -/
theorem recovered : ∀ {e : Expr}, e.Documented → Recovered e
  | .constant _, h => recovered_constant h
  | .var _, h => recovered_var h
  | .assign _ _, h => recovered_assign h.1 (recovered h.2)
  | .binary op _ _, h => recovered_binary op (recovered h.1) (recovered h.2)
  | .unary op operand, h => recovered_unary op (recovered (e := operand) h)
  | .call function args, h => recovered_call function (allRecovered (show AllDocumented args from h))
  | .invoke _ _, h => recovered_invoke (recovered h.1) (allRecovered h.2)
  | .lambda ⟨name, kind, _, _⟩, h => recovered_lambda name kind h.1 (recovered h.2)
  | .block _ _, h => recovered_block h.1 (allRecovered h.2)
  | .condition _ _ _, h =>
    recovered_condition (recovered h.1) (recovered h.2.1) (optionRecovered h.2.2)
  | .switch _ _ _, h =>
    recovered_switch (recovered h.1) (casesRecovered h.2.1) (optionRecovered h.2.2)
  | .loop _ _ _, h => recovered_loop (recovered h.1) h.2.1 h.2.2
  | .goto kind _ _, h => recovered_goto kind h.1 (optionRecovered h.2)
  | .label _ _, h => recovered_label h.1 (optionRecovered h.2)
  | .tryCatch _ _ _, h =>
    recovered_tryCatch (recovered h.1) (handlersRecovered h.2.1) (optionRecovered h.2.2)
  | .throw value, h => recovered_throw (optionRecovered (x := value) h)
  | .await awaitable type configure, h =>
    recovered_await type configure (recovered (e := awaitable) h)
  | .yieldReturn value, h => recovered_yieldReturn (recovered (e := value) h)
  | .yieldBreak, _ => recovered_yieldBreak

/-- All expressions of a list are read back. -/
theorem allRecovered : ∀ {es : List Expr}, AllDocumented es → AllRecovered es
  | [], _ => .nil rfl
  | _ :: _, h => allRecovered_cons (recovered h.1) (allRecovered h.2)

/-- An optional expression is read back. -/
theorem optionRecovered : ∀ {x : Option Expr}, OptionDocumented x → ∀ e ∈ x, Recovered e
  | none, _ => nofun
  | some e, h => by
    rintro _ ⟨⟩
    exact recovered h

/-- All arms of a switch are read back. -/
theorem casesRecovered : ∀ {cs : List SwitchCase}, CasesDocumented cs → CasesRecovered cs
  | [], _ => .nil rfl
  | ⟨_, _⟩ :: _, h =>
    casesRecovered_cons (allRecovered h.1) (recovered h.2.1) (casesRecovered h.2.2)

/-- All handlers are read back. -/
theorem handlersRecovered : ∀ {hs : List Handler}, HandlersDocumented hs → HandlersRecovered hs
  | [], _ => .nil rfl
  | ⟨filter, _, _⟩ :: _, h =>
    handlersRecovered_cons filter h.1 (recovered h.2.1) (handlersRecovered h.2.2)

end

end Expr

/-! ## Texts -/

section Texts

open Json

mutual

/-- Leaving fields out brings in no numbers. -/
theorem Abridges.exact : ∀ {f : Form} {j j' : Json}, Abridges f j j' → j.Exact → j'.Exact
  | _, _, _, .whole _ _, hj => hj
  | _, _, _, .node h, hj => ⟨h.exact hj.1, trivial⟩
  | _, _, _, .record h, hj => AbridgesFields.exact h hj
  | _, _, _, .items h, hj => AbridgesItems.exact h hj

/-- A brief form of exact fields is exact. -/
theorem AbridgesFields.exact : ∀ {as : List Field} {fs fs' : List (String × Json)},
    AbridgesFields as fs fs' → FieldsExact fs → FieldsExact fs'
  | _, _, _, .nil, h => h
  | _, _, _, .keep hj hs, h => ⟨hj.exact h.1, hs.exact h.2⟩
  | _, _, _, .leave _ hs, h => hs.exact h.2

/-- A brief form of exact items is exact. -/
theorem AbridgesItems.exact : ∀ {f : Form} {js js' : List Json},
    AbridgesItems f js js' → AllExact js → AllExact js'
  | _, _, _, .nil _, h => h
  | _, _, _, .cons hj hs, h => ⟨hj.exact h.1, hs.exact h.2⟩

end

/-- Numbers below the range of identifiers are exact. -/
theorem Json.exact_nat {n : Nat} (h : n < 2 ^ 32) : (Json.nat n).Exact := by
  show -2 ^ 63 ≤ (n : Int) ∧ (n : Int) < 2 ^ 64
  omega

/-- An optional value is exact if the value is. -/
theorem Json.exact_ofOption {α : Type} {toJson : α → Json} {x : Option α}
    (h : ∀ a ∈ x, (toJson a).Exact) : (Json.ofOption toJson x).Exact := by
  cases x with
  | none => trivial
  | some a => exact h a rfl

/-- A list is exact if all its values are. -/
theorem Json.exact_ofList {α : Type} {toJson : α → Json} {as : List α}
    (h : ∀ a ∈ as, (toJson a).Exact) : (Json.ofList toJson as).Exact := by
  show AllExact (as.map toJson)
  induction as with
  | nil => trivial
  | cons a as ih => exact ⟨h a (by simp), ih fun b hb => h b (by simp [hb])⟩

/-- Variables are written exactly. -/
theorem Var.exact_toJson {x : Var} (h : x.Documented) : x.toJson.Exact :=
  ⟨exact_nat h, trivial, trivial⟩

/-- Labels are written exactly. -/
theorem Label.exact_toJson {l : Label} (h : l.Documented) : l.toJson.Exact :=
  ⟨exact_nat h, exact_ofOption fun _ _ => trivial, trivial⟩

/-- Filters are written exactly. -/
theorem Filter.exact_toJson (f : Filter) : f.toJson.Exact := by
  cases f with
  | any => trivial
  | kind k => exact ⟨trivial, trivial⟩

/-- Values are written exactly: their floats are finite. -/
theorem Value.exact_toJson {v : Value} (h : v.Documented) : v.toJson.Exact := by
  cases v with
  | unit | bool _ | str _ => trivial
  | int i =>
    have hlow := i.le_toInt
    have hhigh := i.toInt_lt
    show -2 ^ 63 ≤ i.toInt ∧ i.toInt < 2 ^ 64
    omega
  | exception e => exact ⟨trivial, trivial, trivial⟩
  | float _ | task _ | closure _ => exact h.elim

namespace Expr

mutual

/-- The numbers in the document of a tree are integers. -/
theorem exact_toJson : ∀ {e : Expr}, e.Documented → e.toJson.Exact
  | .constant _, h => ⟨Value.exact_toJson h, trivial⟩
  | .var _, h => ⟨Var.exact_toJson h, trivial⟩
  | .assign _ _, h => ⟨⟨Var.exact_toJson h.1, exact_toJson h.2, trivial⟩, trivial⟩
  | .binary _ _ _, h => ⟨⟨trivial, exact_toJson h.1, exact_toJson h.2, trivial⟩, trivial⟩
  | .unary _ operand, h => ⟨⟨trivial, exact_toJson (e := operand) h, trivial⟩, trivial⟩
  | .call _ args, h => ⟨⟨trivial, exact_listJson args h, trivial⟩, trivial⟩
  | .invoke _ args, h => ⟨⟨exact_toJson h.1, exact_listJson args h.2, trivial⟩, trivial⟩
  | .lambda ⟨_, _, _, _⟩, h =>
    ⟨⟨exact_ofOption fun _ _ => trivial, trivial,
      exact_ofList fun x hx => Var.exact_toJson (h.1 x hx), exact_toJson h.2, trivial⟩, trivial⟩
  | .block _ body, h =>
    ⟨⟨exact_ofList fun x hx => Var.exact_toJson (h.1 x hx), exact_listJson body h.2, trivial⟩,
      trivial⟩
  | .condition _ _ none, h =>
    ⟨⟨exact_toJson h.1, exact_toJson h.2.1, trivial, trivial⟩, trivial⟩
  | .condition _ _ (some ifFalse), h =>
    ⟨⟨exact_toJson h.1, exact_toJson h.2.1, exact_toJson (e := ifFalse) h.2.2, trivial⟩, trivial⟩
  | .switch _ cases none, h =>
    ⟨⟨exact_toJson h.1, exact_casesJson cases h.2.1, trivial, trivial⟩, trivial⟩
  | .switch _ cases (some fallback), h =>
    ⟨⟨exact_toJson h.1, exact_casesJson cases h.2.1, exact_toJson (e := fallback) h.2.2, trivial⟩,
      trivial⟩
  | .loop _ _ _, h =>
    ⟨⟨exact_toJson h.1, exact_ofOption fun l hl => Label.exact_toJson (h.2.1 l hl),
      exact_ofOption fun l hl => Label.exact_toJson (h.2.2 l hl), trivial⟩, trivial⟩
  | .goto _ _ none, h => ⟨⟨trivial, Label.exact_toJson h.1, trivial, trivial⟩, trivial⟩
  | .goto _ _ (some value), h =>
    ⟨⟨trivial, Label.exact_toJson h.1, exact_toJson (e := value) h.2, trivial⟩, trivial⟩
  | .label _ none, h => ⟨⟨Label.exact_toJson h.1, trivial, trivial⟩, trivial⟩
  | .label _ (some fallback), h =>
    ⟨⟨Label.exact_toJson h.1, exact_toJson (e := fallback) h.2, trivial⟩, trivial⟩
  | .tryCatch _ handlers none, h =>
    ⟨⟨exact_toJson h.1, exact_handlersJson handlers h.2.1, trivial, trivial⟩, trivial⟩
  | .tryCatch _ handlers (some cleanup), h =>
    ⟨⟨exact_toJson h.1, exact_handlersJson handlers h.2.1, exact_toJson (e := cleanup) h.2.2,
      trivial⟩, trivial⟩
  | .throw none, _ => ⟨trivial, trivial⟩
  | .throw (some value), h => ⟨exact_toJson (e := value) h, trivial⟩
  | .await awaitable _ _, h =>
    ⟨⟨exact_toJson (e := awaitable) h, trivial, trivial, trivial⟩, trivial⟩
  | .yieldReturn value, h => ⟨exact_toJson (e := value) h, trivial⟩
  | .yieldBreak, _ => trivial

/-- Lists of expressions are written exactly. -/
theorem exact_listJson : ∀ es : List Expr, AllDocumented es → AllExact (listJson es)
  | [], _ => trivial
  | _ :: es, h => ⟨exact_toJson h.1, exact_listJson es h.2⟩

/-- Arms are written exactly. -/
theorem exact_casesJson : ∀ cs : List SwitchCase, CasesDocumented cs → AllExact (casesJson cs)
  | [], _ => trivial
  | ⟨tests, _⟩ :: cs, h =>
    ⟨⟨exact_listJson tests h.1, exact_toJson h.2.1, trivial⟩, exact_casesJson cs h.2.2⟩

/-- Handlers are written exactly. -/
theorem exact_handlersJson :
    ∀ hs : List Handler, HandlersDocumented hs → AllExact (handlersJson hs)
  | [], _ => trivial
  | ⟨filter, _, _⟩ :: hs, h =>
    ⟨⟨filter.exact_toJson, exact_ofOption fun y hy => Var.exact_toJson (h.1 y hy),
      exact_toJson h.2.1, trivial⟩, exact_handlersJson hs h.2.2⟩

end

end Expr

end Texts

/-- A tree is read back from the text of its document, all but the identities of exceptions, after
any of the fields that hold their defaults were left out. So is a lambda. Texts that nest deeper than
documents may are not read, and no others. -/
theorem documents_round_trip :
    (∀ e : Expr, e.Documented → ∀ j, Abridges .node e.toJson j →
      (Json.read j.compress = if j.depth ≤ Json.nesting then some j else none) ∧
        ∀ n, ∃ e' n', (Expr.decode j).run n = some (e', n') ∧ e'.anonymous = e.anonymous) ∧
    ∀ l : Lambda, l.Documented → ∀ j, Abridges (.record .lambda) l.toJson j →
      (Json.read j.compress = if j.depth ≤ Json.nesting then some j else none) ∧
        ∀ n, ∃ l' n', (Lambda.decode j).run n = some (l', n') ∧ l'.anonymous = l.anonymous := by
  constructor
  · intro e he j hj
    have hexact := hj.exact (Expr.exact_toJson he)
    exact ⟨Json.parse_compress hexact _, Expr.recovered he j (j.depth + 1) hj (by omega)⟩
  · rintro ⟨name, kind, params, body⟩ ⟨hparams, hbody⟩ j hj
    have hexact := hj.exact (Expr.exact_toJson (e := .lambda ⟨name, kind, params, body⟩)
      ⟨hparams, hbody⟩).1
    have hread := Expr.recovers_lambda name kind hparams (Expr.recovered hbody)
    exact ⟨Json.parse_compress hexact _, hread j (j.depth + 1) hj (by omega)⟩

/-- A condition negated over and over. -/
def Expr.denied : Nat → Expr
  | 0 => .constant (.bool true)
  | n + 1 => .unary .not (denied n)

/-- Denials can be written, however many there are. -/
theorem Expr.documented_denied : ∀ n, (denied n).Documented
  | 0 => trivial
  | n + 1 => documented_denied n

/-- A negation stands in an object in an object. -/
theorem Expr.depth_denied (n : Nat) : (denied n).toJson.depth = 2 * n + 1 := by
  induction n with
  | zero => rfl
  | succ n ih =>
    simp only [denied, toJson, Json.depth, Json.fieldsDepth, ih]
    omega

/-- Not all documents of trees are read: one that negates a condition 64 times nests too deep. -/
theorem Expr.denied_not_read : (denied 64).Documented ∧
    Json.read (denied 64).toJson.compress = none := by
  have hdoc := documented_denied 64
  refine ⟨hdoc, ?_⟩
  rw [Json.read, Json.parse_compress (exact_toJson hdoc), depth_denied]
  rfl

/-- An awaited call whose failure is thrown again, with a jump on the way out. -/
def Expr.guardedAwait : Expr :=
  .tryCatch (.await (.call "f" []) "Task" true) [⟨.any, none, .throw none⟩]
    (some (.goto .toLabel ⟨7, none⟩ (some (.constant (.exception ⟨⟨"K", "m"⟩, 5⟩)))))

/-- The document of `Expr.guardedAwait` without the fields that may be missing. -/
def Expr.guardedAwaitBrief : Json :=
  .object [("try", .object
    [("body", .object [("await", .object
      [("awaitable", .object [("call", .object [("function", .string "f")])])])]),
     ("handlers", .array [.object [("body", .object [("throw", .null)])]]),
     ("finally", .object [("goto", .object
      [("target", .object [("id", .nat 7)]),
       ("value", .object [("constant", Fault.toJson ⟨"K", "m"⟩)])])])])]

theorem Expr.guardedAwait_round_trip :
    guardedAwait.Documented ∧ Abridges .node guardedAwait.toJson guardedAwaitBrief ∧
      ∃ e' n', (Expr.decode guardedAwaitBrief).run 0 = some (e', n') ∧
        e'.anonymous = guardedAwait.anonymous := by
  have hdoc : guardedAwait.Documented :=
    ⟨trivial, ⟨nofun, trivial, trivial⟩, by show 7 < 2 ^ 32; norm_num, trivial⟩
  have hcall : Abridges .node (Expr.call "f" []).toJson
      (.object [("call", .object [("function", .string "f")])]) :=
    .node (.record (.keep (.whole _ _) (.leave rfl .nil)))
  have hawait : Abridges .node (Expr.await (.call "f" []) "Task" true).toJson _ :=
    .node (.record (.keep hcall (.leave rfl (.leave rfl .nil))))
  have hhandler : Abridges (.record .handler) _ (.object [("body", .object [("throw", .null)])]) :=
    .record (.leave rfl (.leave rfl (.keep (.whole _ _) .nil)))
  have htarget : Abridges (.record .target) (Label.toJson ⟨7, none⟩) (.object [("id", .nat 7)]) :=
    .record (.keep (.whole _ _) (.leave rfl .nil))
  have hgoto : Abridges .node
      (Expr.goto .toLabel ⟨7, none⟩ (some (.constant (.exception ⟨⟨"K", "m"⟩, 5⟩)))).toJson _ :=
    .node (.record (.leave rfl (.keep htarget (.keep (.whole _ _) .nil))))
  have hbrief : Abridges .node guardedAwait.toJson guardedAwaitBrief :=
    .node (.record (.keep hawait (.keep (.items (.cons hhandler (.nil _))) (.keep hgoto .nil))))
  exact ⟨hdoc, hbrief, (documents_round_trip.1 guardedAwait hdoc _ hbrief).2 0⟩

end Coroutine

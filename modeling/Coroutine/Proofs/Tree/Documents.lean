import Mathlib
import Coroutine.Proofs.Tree.Abridged

/-!
# Trees and their documents

Reading the document of a tree gives the tree back, whichever of its defaults were left out. Two
things are lost on the way: floats, tasks and closures have no document that reads back, and an
exception read from a document is a new object. So the trees here are those in which everything is
`Documented`, and they are compared by their `anonymous` forms, in which every exception has the
same identity.
-/

namespace Coroutine

/-! ## Trees that have a document -/

/-- Whether a constant can be read back. -/
def Value.Documented : Value → Prop
  | .unit | .bool _ | .int _ | .str _ | .exception _ => True
  | .float _ | .task _ | .closure _ => False

/-- Whether the number of a variable is one that documents have. -/
def Var.Documented (x : Var) : Prop := x.id < 2 ^ 32

/-- Whether the number of a label is one that documents have. -/
def Label.Documented (l : Label) : Prop := l.id < 2 ^ 32

/-- A value without the identity of an exception. -/
def Value.anonymous : Value → Value
  | .exception e => .exception ⟨e.toFault, 0⟩
  | v => v

namespace Expr

mutual

/-- Whether all that an expression mentions can be read back. -/
def Documented : Expr → Prop
  | .constant v => v.Documented
  | .var x => x.Documented
  | .assign x value => x.Documented ∧ value.Documented
  | .binary _ left right => left.Documented ∧ right.Documented
  | .unary _ operand => operand.Documented
  | .call _ args => AllDocumented args
  | .invoke target args => target.Documented ∧ AllDocumented args
  | .lambda ⟨_, _, params, body⟩ => (∀ x ∈ params, x.Documented) ∧ body.Documented
  | .block vars body => (∀ x ∈ vars, x.Documented) ∧ AllDocumented body
  | .condition test ifTrue ifFalse =>
    test.Documented ∧ ifTrue.Documented ∧ OptionDocumented ifFalse
  | .switch value cases fallback =>
    value.Documented ∧ CasesDocumented cases ∧ OptionDocumented fallback
  | .loop body breakLabel continueLabel =>
    body.Documented ∧ (∀ l ∈ breakLabel, l.Documented) ∧ ∀ l ∈ continueLabel, l.Documented
  | .goto _ target value => target.Documented ∧ OptionDocumented value
  | .label target fallback => target.Documented ∧ OptionDocumented fallback
  | .tryCatch body handlers cleanup =>
    body.Documented ∧ HandlersDocumented handlers ∧ OptionDocumented cleanup
  | .throw value => OptionDocumented value
  | .await awaitable _ _ => awaitable.Documented
  | .yieldReturn value => value.Documented
  | .yieldBreak => True

/-- `Documented` for several expressions. -/
def AllDocumented : List Expr → Prop
  | [] => True
  | e :: es => e.Documented ∧ AllDocumented es

/-- `Documented` for an expression that may be absent. -/
def OptionDocumented : Option Expr → Prop
  | none => True
  | some e => e.Documented

/-- `Documented` for the arms of a switch. -/
def CasesDocumented : List SwitchCase → Prop
  | [] => True
  | ⟨tests, body⟩ :: cs => AllDocumented tests ∧ body.Documented ∧ CasesDocumented cs

/-- `Documented` for the handlers of a try. -/
def HandlersDocumented : List Handler → Prop
  | [] => True
  | ⟨_, x, body⟩ :: hs => (∀ y ∈ x, y.Documented) ∧ body.Documented ∧ HandlersDocumented hs

end

mutual

/-- An expression without the identities of its exceptions. -/
def anonymous : Expr → Expr
  | .constant v => .constant v.anonymous
  | .var x => .var x
  | .assign x value => .assign x value.anonymous
  | .binary op left right => .binary op left.anonymous right.anonymous
  | .unary op operand => .unary op operand.anonymous
  | .call function args => .call function (allAnonymous args)
  | .invoke target args => .invoke target.anonymous (allAnonymous args)
  | .lambda ⟨name, kind, params, body⟩ => .lambda ⟨name, kind, params, body.anonymous⟩
  | .block vars body => .block vars (allAnonymous body)
  | .condition test ifTrue ifFalse =>
    .condition test.anonymous ifTrue.anonymous (optionAnonymous ifFalse)
  | .switch value cases fallback =>
    .switch value.anonymous (casesAnonymous cases) (optionAnonymous fallback)
  | .loop body breakLabel continueLabel => .loop body.anonymous breakLabel continueLabel
  | .goto kind target value => .goto kind target (optionAnonymous value)
  | .label target fallback => .label target (optionAnonymous fallback)
  | .tryCatch body handlers cleanup =>
    .tryCatch body.anonymous (handlersAnonymous handlers) (optionAnonymous cleanup)
  | .throw value => .throw (optionAnonymous value)
  | .await awaitable type configure => .await awaitable.anonymous type configure
  | .yieldReturn value => .yieldReturn value.anonymous
  | .yieldBreak => .yieldBreak

/-- `anonymous` for several expressions. -/
def allAnonymous : List Expr → List Expr
  | [] => []
  | e :: es => e.anonymous :: allAnonymous es

/-- `anonymous` for an expression that may be absent. -/
def optionAnonymous : Option Expr → Option Expr
  | none => none
  | some e => some e.anonymous

/-- `anonymous` for the arms of a switch. -/
def casesAnonymous : List SwitchCase → List SwitchCase
  | [] => []
  | ⟨tests, body⟩ :: cs => ⟨allAnonymous tests, body.anonymous⟩ :: casesAnonymous cs

/-- `anonymous` for the handlers of a try. -/
def handlersAnonymous : List Handler → List Handler
  | [] => []
  | ⟨filter, x, body⟩ :: hs => ⟨filter, x, body.anonymous⟩ :: handlersAnonymous hs

end

end Expr

/-- Whether all that a lambda mentions can be read back. -/
def Lambda.Documented (l : Lambda) : Prop := (∀ x ∈ l.params, x.Documented) ∧ l.body.Documented

/-- A lambda without the identities of its exceptions. -/
def Lambda.anonymous (l : Lambda) : Lambda := { l with body := l.body.anonymous }

/-! ## Readers that succeed -/

namespace Decoder

variable {α β : Type} {P : α → Prop} {Q : β → Prop}

/-- Whether a reader succeeds, with a result of which `P` holds, however many exceptions were made
before. -/
def Reads (d : Decoder α) (P : α → Prop) : Prop := ∀ n, ∃ a n', d.run n = some (a, n') ∧ P a

/-- A value is read without a document. -/
theorem Reads.pure {a : α} (h : P a) : Reads (pure a) P := fun n => ⟨a, n, rfl, h⟩

/-- A value that is there is read. -/
theorem Reads.lift {o : Option α} {a : α} (ho : o = some a) (h : P a) : Reads (lift o) P := by
  subst ho
  exact fun n => ⟨a, n, rfl, h⟩

/-- What is read in turn. -/
theorem Reads.bind {d : Decoder α} {k : α → Decoder β} (h : Reads d P)
    (hk : ∀ a, P a → Reads (k a) Q) : Reads (d >>= k) Q := by
  intro n
  obtain ⟨a, n', hd, ha⟩ := h n
  obtain ⟨b, n'', hka, hb⟩ := hk a ha n'
  refine ⟨b, n'', ?_, hb⟩
  rw [StateT.run_bind, hd]
  exact hka

/-- What is read may be described in a weaker way. -/
theorem Reads.mono {d : Decoder α} {P' : α → Prop} (h : Reads d P) (hP : ∀ a, P a → P' a) :
    Reads d P' := by
  intro n
  obtain ⟨a, n', hd, ha⟩ := h n
  exact ⟨a, n', hd, hP a ha⟩

/-- What is read may be changed on the way. -/
theorem Reads.map {d : Decoder α} {f : α → β} (h : Reads d P) (hf : ∀ a, P a → Q (f a)) :
    Reads (f <$> d) Q := by
  intro n
  obtain ⟨a, n', hd, ha⟩ := h n
  refine ⟨f a, n', ?_, hf a ha⟩
  rw [StateT.run_map, hd]
  rfl

end Decoder

/-- Whether a part of the form `f`, written as `j`, is recovered by a reader that takes the depth it
may read as fuel, whatever was left out. -/
def Recovers {α : Type} (f : Form) (j : Json) (read : Nat → Json → Decoder α) (P : α → Prop) :
    Prop :=
  ∀ j' room, Abridges f j j' → j'.depth < room → (read room j').Reads P

namespace Recovers

open Decoder

variable {α : Type} {P : α → Prop} {read : Json → Decoder α} {j : Json}

/-- A document without a brief form is read as it is. -/
theorem plain (h : Reads (read j) P) : Recovers .plain j (fun _ => read) P := by
  intro j' room hj' _
  obtain rfl := hj'.eq_of_plain
  exact h

/-- A record is recovered if the reader can go on with whatever fields it finds. -/
theorem record {r : Entry} {fs : List (String × Json)}
    {k : Nat → List (Option Json) → Decoder α} (hn : fs.map Prod.fst = r.names)
    (hk : ∀ room os, FoundAll room r.fields fs os → Reads (k room os) P) :
    Recovers (.record r) (.object fs)
      (fun room j' => Decoder.lift (j'.record? r.names) >>= k room) P := by
  intro j' room hj' hroom
  obtain ⟨os, hread, hos⟩ := hj'.found hn
  apply Reads.bind (.lift hread rfl)
  rintro _ rfl
  exact hk room os (hos.mono hroom.le)

/-- No items are read back as an empty list. -/
theorem nil {f : Form} {read : Nat → Json → Decoder α} {Q : List α → Prop} (h : Q []) :
    Recovers (.items f) (.array []) (fun room => listOf (read room)) Q := by
  intro j' room hj' _
  obtain ⟨js', rfl, hitems⟩ := hj'.of_items
  cases hitems
  exact .pure h

/-- Items are read back one after the other. -/
theorem cons {f : Form} {j : Json} {js : List Json} {read : Nat → Json → Decoder α}
    {Q R : List α → Prop} (h : Recovers f j read P)
    (hs : Recovers (.items f) (.array js) (fun room => listOf (read room)) Q)
    (hcons : ∀ a as, P a → Q as → R (a :: as)) :
    Recovers (.items f) (.array (j :: js)) (fun room => listOf (read room)) R := by
  intro j' room hj' hroom
  obtain ⟨_, rfl, hitems⟩ := hj'.of_items
  cases hitems with
  | @cons _ _ j'' _ js'' hj hjs =>
    have hdepth : j''.depth < room ∧ (Json.array js'').depth < room := by
      simp only [Json.depth, Json.listDepth] at hroom ⊢
      omega
    show Reads ((j'' :: js'').mapM (read room)) _
    rw [List.mapM_cons]
    apply (h j'' room hj hdepth.1).bind
    intro a ha
    apply (hs (.array js'') room (.items hjs) hdepth.2).bind
    intro as has
    exact .pure (hcons a as ha has)

end Recovers

namespace Found

open Decoder

variable {α β : Type} {P : α → Prop} {room : Nat} {a : Field} {j : Json} {o : Option Json}
  {read : Nat → Json → Decoder α}

/-- A field that must be there is there. -/
theorem required (h : Found room a j o) (ha : a.default? = none)
    (hread : Recovers a.form j read P) : Reads (required (read room) o) P := by
  cases h with
  | kept h hroom => exact hread _ _ h hroom
  | left h => simp [ha] at h

/-- A field that is missing held its default. -/
theorem withDefault {d : α} (h : Found room a j o) (hread : Recovers a.form j read P)
    (hd : a.default? = some j → P d) : Reads (withDefault d (read room) o) P := by
  cases h with
  | kept h hroom => exact hread _ _ h hroom
  | left h => exact .pure (hd h)

/-- A field without a default has to be there. -/
theorem eq_some (h : Found room a j o) (hform : a.form = .plain) (ha : a.default? = none) :
    o = some j := by
  cases h with
  | kept h _ =>
    rw [hform] at h
    rw [h.eq_of_plain]
  | left h => simp [ha] at h

/-- A field with a default is read as what it stands for. -/
theorem getD_eq {d : Json} (h : Found room a j o) (hform : a.form = .plain)
    (ha : a.default? = some d) : o.getD d = j := by
  cases h with
  | kept h _ =>
    rw [hform] at h
    exact h.eq_of_plain
  | left h => exact Option.some.inj (ha.symm.trans h)

/-- An absent part reads as absent, also where it is spelled out, and one that is there is not taken
for absent. -/
theorem optional {x : Option β} {toJson : β → Json} {R : α → β → Prop}
    (h : Found room a (.ofOption toJson x) o) (ha : a.default? = some .null)
    (hnull : ∀ y, toJson y ≠ .null)
    (hread : ∀ y ∈ x, Recovers a.form (toJson y) read (R · y)) :
    Reads (optional (read room) o) (Option.Rel R · x) := by
  cases x with
  | none =>
    cases h with
    | kept h _ =>
      obtain rfl := h.eq_null
      exact .pure .none
    | left _ => exact .pure .none
  | some y =>
    cases h with
    | @kept j' h hroom =>
      have hsome : Decoder.optional (read room) (some j') = some <$> read room j' := by
        cases j' with
        | null => exact absurd rfl (h.ne_null (hnull y))
        | _ => rfl
      rw [hsome]
      exact (hread y rfl _ _ h hroom).map fun _ => .some
    | left h =>
      rw [ha] at h
      exact absurd (Option.some.inj h).symm (hnull y)

end Found

/-! ## Parts without expressions -/

section Leaves

open Decoder

/-- A number that fits is read back. -/
theorem Json.nat?_nat {n width : Nat} (h : n < 2 ^ width) : (Json.nat n).nat? width = some n := by
  have hlt : n < twoPow width := h
  simp [Json.nat, Json.nat?, hlt]

/-- A variable is read back from its document. -/
theorem Var.ofJson?_toJson {x : Var} (h : x.Documented) : Var.ofJson? x.toJson = some x := by
  have hid := Json.nat?_nat h
  simp [Var.ofJson?, Var.toJson, Json.record?, Json.field?, Json.string?, hid]

/-- The document of a variable has no brief form. -/
theorem Var.recovers {x : Var} (h : x.Documented) :
    Recovers .plain x.toJson (fun _ => Expr.decodeVar) (· = x) :=
  .plain (.lift (Var.ofJson?_toJson h) rfl)

/-- A list of variables is read back. -/
theorem Var.recovers_list {xs : List Var} (h : ∀ x ∈ xs, x.Documented) :
    Recovers .plain (.ofList Var.toJson xs) (fun _ => listOf Expr.decodeVar) (· = xs) := by
  apply Recovers.plain
  induction xs with
  | nil => exact .pure rfl
  | cons x xs ih =>
    have hx : Reads (Expr.decodeVar x.toJson) (· = x) := .lift (Var.ofJson?_toJson (h x (by simp))) rfl
    have hxs := ih fun y hy => h y (by simp [hy])
    show Reads ((x.toJson :: xs.map Var.toJson).mapM Expr.decodeVar) _
    rw [List.mapM_cons]
    apply hx.bind
    rintro _ rfl
    apply Reads.bind hxs
    rintro _ rfl
    exact .pure rfl

/-- A label is read back; its name may be left out. -/
theorem Label.recovers {l : Label} (h : l.Documented) :
    Recovers (.record .target) l.toJson (fun _ => Expr.decodeLabel) (· = l) := by
  intro j' room hj' _
  obtain ⟨os, hread, hos⟩ := hj'.found rfl
  rcases hos with _ | ⟨hid, _ | ⟨hname, ⟨⟩⟩⟩
  show Reads (lift (Label.ofJson? j')) _
  refine Reads.lift (a := l) ?_ rfl
  have hstring : (Json.ofOption Json.string l.name).orNull? Json.string? = some l.name := by
    cases l.name <;> rfl
  replace hread : j'.record? ["id", "name"] = _ := hread
  rw [Label.ofJson?, hread, hid.eq_some rfl rfl]
  simp [hname.getD_eq rfl rfl, hstring, Json.nat?_nat h]

/-- A filter is read back. -/
theorem Filter.recovers (f : Filter) :
    Recovers .plain f.toJson (fun _ j => lift (Filter.ofJson? j)) (· = f) := by
  apply Recovers.plain
  cases f with
  | any => exact .lift rfl rfl
  | kind k => exact .lift rfl rfl

/-- A thing from a table is recovered by its name. -/
theorem recovers_choice {α : Type} {table : List (String × α)} {name : String} {x : α}
    (h : table.lookup name = some x) :
    Recovers .plain (.string name) (fun _ j => lift (j.choice? table)) (· = x) :=
  .plain (.lift h rfl)

/-- A binary operator is found by its name. -/
theorem BinaryOp.lookup_name (op : BinaryOp) : BinaryOp.table.lookup op.name = some op := by
  cases op <;> decide

/-- A unary operator is found by its name. -/
theorem UnaryOp.lookup_name (op : UnaryOp) : UnaryOp.table.lookup op.name = some op := by
  cases op <;> decide

/-- A kind of jump is found by its name. -/
theorem JumpKind.lookup_name (k : JumpKind) : JumpKind.table.lookup k.name = some k := by
  cases k <;> decide

/-- A kind of lambda is found by its name. -/
theorem LambdaKind.lookup_name (k : LambdaKind) : LambdaKind.table.lookup k.name = some k := by
  cases k <;> decide

/-- A string is read back. -/
theorem recovers_string (s : String) :
    Recovers .plain (.string s) (fun _ => Expr.decodeString) (· = s) :=
  .plain (.lift rfl rfl)

/-- A fault is read back. -/
theorem Fault.ofJson?_toJson (f : Fault) : Fault.ofJson? f.toJson = some f := by
  simp [Fault.ofJson?, Fault.toJson, Json.record?, Json.field?, Json.string?]

/-- A value is read back, up to the identity of exceptions. -/
theorem Value.reads {v : Value} (h : v.Documented) :
    Reads (Value.decode v.toJson) (fun v' => v'.anonymous = v.anonymous) := by
  cases v with
  | unit | bool _ | str _ => exact .pure rfl
  | int i =>
    have hle : i.toInt ≤ Int64.maxValue.toInt := i.toInt_le
    show Reads (Pure.pure (if _ then _ else _)) _
    rw [if_pos hle, Int64.ofInt_toInt]
    exact .pure rfl
  | exception e =>
    show Reads (Value.exception <$> Exception.decode e.toFault.toJson) _
    intro n
    refine ⟨.exception ⟨e.toFault, n⟩, n + 1, ?_, rfl⟩
    simp [Exception.decode, Fault.ofJson?_toJson, lift]
  | float _ | task _ | closure _ => exact h.elim

end Leaves

end Coroutine

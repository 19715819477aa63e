import Mathlib
import Coroutine.Tree.Check
import Coroutine.Tree.Labels
import Coroutine.Proofs.Ensures
import Coroutine.Proofs.Tree.Settings

/-!
# What the construction checks find

The checks of an expression are those of its node and of its parts (`check_eq`), and each of them
either fails or adds what it found to the survey: `Records` says when a traversal passes and what
it adds then. A lambda passes its checks if every node suits its place and every lambda has labels
of its own, each defined once, for all its jumps; the facts are then those of the tree
(`Lambda.check_eq_ok_iff`).
-/

namespace Coroutine

variable {n : Nat} {p : Place}

/-- The variables that a link notes, a block having noted its own. -/
def Link.introduced : Link → List Var
  | .handler x => x.toList
  | .body params => params
  | _ => []

namespace Expr

/-- The targets of the jumps in an expression, in order. -/
def targets (e : Expr) : List Label := e.preorder.filterMap jumpTarget?

/-- Every jump in an expression finds its label there. -/
def Closed (e : Expr) : Prop := ∀ t ∈ e.targets, t.id ∈ e.definedLabels

/-- The labels that are defined, node by node. -/
theorem definedLabels_eq (e : Expr) :
    e.definedLabels = e.ownLabels ++ e.children.flatMap definedLabels := by
  rw [definedLabels, preorder, nodes_eq, List.flatMap_cons, List.flatMap_assoc]
  rfl

/-- The labels that are jumped to, node by node. -/
theorem targets_eq (e : Expr) : e.targets = e.jumpTarget?.toList ++ e.children.flatMap targets := by
  rw [targets, preorder, nodes_eq, List.filterMap_cons, List.filterMap_flatMap]
  cases e.jumpTarget? <;> rfl

/-- The variables that a node reads or assigns. -/
def references : Expr → List Var
  | .var x | .assign x _ => [x]
  | _ => []

/-- The variables that a node refers to, or that a block declares. -/
def named : Expr → List Var
  | .block vars _ => vars
  | e => e.references

/-- The variables that a node refers to or declares. -/
def ownVars : Expr → List Var
  | .block vars _ => vars
  | .lambda l => l.params
  | .tryCatch _ handlers _ => handlers.flatMap (·.var.toList)
  | e => e.references

/-- The variables of a node are those that it names and those that it introduces in a part. -/
theorem ownVars_eq (e : Expr) : e.ownVars = e.named ++ e.parts.flatMap (·.1.introduced) := by
  cases e <;>
    simp [ownVars, named, references, parts, children, Link.introduced, List.flatMap_map]

/-- The numbers of the variables anywhere in an expression. -/
def varIds (e : Expr) : List Nat := (e.walk.flatMap ownVars).map Var.id

/-- The numbers of the labels anywhere in an expression. -/
def labelIds (e : Expr) : List Nat :=
  e.walk.flatMap fun x => x.ownLabels ++ x.jumpTarget?.toList.map Label.id

end Expr

/-- A maximum is bounded if all the numbers are. -/
theorem foldr_max_le_iff {l : List Nat} : l.foldr max 0 ≤ n ↔ ∀ i ∈ l, i ≤ n := by
  induction l with
  | nil => simp
  | cons i l ih => simp [ih]

namespace Check

/-! ## The traversal, node by node -/

/-- The place of a part. -/
def Place.through (p : Place) : Link → Place
  | .plain => p
  | .scope vars => p.declaring vars
  | .handler x => { p.declaring x.toList with handling := true }
  | .body params => p.entering params

/-- Checks a node without its parts. -/
def checkNode (p : Place) : Expr → Checker Unit
  | .var x | .assign x _ => reference p x
  | .lambda l =>
    if l.kind ≠ .sync then
      throw (.unsupported .nestedCoroutine (.lambda l))
    else
      match l.body.firstSuspend? with
      | some node => throw (.unsupported .nestedBody node)
      | none => pure ()
  | .block vars _ => declare vars
  | .loop _ breakLabel continueLabel => do
    defineOptional breakLabel
    defineOptional continueLabel
  | .goto _ l _ => target l
  | .label l _ => define l
  | .throw none => if p.handling then pure () else throw .rethrowOutsideCatch
  | e@(.await ..) | e@(.yieldReturn _) | e@.yieldBreak => suspendPoint p e
  | _ => pure ()

/-- Checks a part of a node. -/
def checkPart (p : Place) : Link × Expr → Checker Unit
  | (.handler x, e) => do
    declare x.toList
    check (p.through (.handler x)) e
  | (.body params, e) => withLabels do
    declare params
    check (p.through (.body params)) e
  | (l, e) => check (p.through l) e

/-- A list is checked item by item. -/
theorem checkList_eq (p : Place) : ∀ l, checkList p l = forM l (check p)
  | [] => rfl
  | e :: es => by rw [checkList, checkList_eq p es, List.forM_cons]

/-- The arms of a switch are checked like the list of their expressions. -/
theorem checkCases_eq (p : Place) :
    ∀ l, checkCases p l = forM (l.flatMap SwitchCase.children) (check p)
  | [] => rfl
  | ⟨tests, body⟩ :: cs => by
    simp [checkCases, checkCases_eq p cs, checkList_eq, SwitchCase.children, List.forM_append]

/-- Handlers are checked like the parts that they are. -/
theorem checkHandlers_eq (p : Place) : ∀ l : List Handler,
    checkHandlers p l = forM (l.map fun h => (Link.handler h.var, h.body)) (checkPart p)
  | [] => rfl
  | ⟨_, x, body⟩ :: hs => by
    simp [checkHandlers, checkHandlers_eq p hs, checkPart, Place.through]

/-- An inner lambda is a node whose body is its only part. -/
theorem check_lambda (p : Place) (l : Lambda) : check p (.lambda l) = (do
    checkNode p (.lambda l)
    forM (Expr.lambda l).parts (checkPart p)) := by
  obtain ⟨name, kind, params, body⟩ := l
  simp only [check, checkNode, Expr.parts, List.forM_cons, List.forM_nil, checkPart, bind_pure_unit,
    Place.through]
  split
  · rfl
  · cases body.firstSuspend? with
    | some node => rfl
    | none => exact (pure_bind _ _).symm

/-- An expression is checked by checking its node and its parts. -/
theorem check_eq (p : Place) (e : Expr) : check p e = (do
    checkNode p e
    forM e.parts (checkPart p)) := by
  rcases e with _ | _ | _ | _ | _ | _ | _ | l | _ | ⟨_, _, _ | _⟩ | ⟨_, _, _ | _⟩ | _ |
    ⟨_, _, _ | _⟩ | ⟨_, _ | _⟩ | ⟨_, _, _ | _⟩ | ⟨_ | _⟩ | _ | _ | _ <;>
  first
  | exact check_lambda p _
  | simp [check, checkNode, Expr.parts, Expr.children, checkPart, Place.through, checkList_eq,
      checkCases_eq, checkHandlers_eq, List.forM_append]

/-! ## What traversals add to the survey -/

/-- What a traversal finds. -/
@[ext] structure Found where
  suspends : Nat := 0
  maxVar : Nat := 0
  maxLabel : Nat := 0
  /-- The references to variables of enclosing lambdas. -/
  captured : List Var := []
  defined : List Nat := []
  targeted : List Label := []

/-- One find after another. -/
def Found.and (f g : Found) : Found where
  suspends := f.suspends + g.suspends
  maxVar := max f.maxVar g.maxVar
  maxLabel := max f.maxLabel g.maxLabel
  captured := f.captured ++ g.captured
  defined := f.defined ++ g.defined
  targeted := f.targeted ++ g.targeted

/-- Adds a captured variable that is not there. -/
def capture (seen : List Var) (x : Var) : List Var :=
  if seen.any (·.id == x.id) then seen else seen ++ [x]

/-- A survey with what was found. -/
def Survey.add (s : Survey) (f : Found) : Survey where
  facts :=
    { suspendPoints := s.facts.suspendPoints + f.suspends
      maxVar := max s.facts.maxVar f.maxVar
      maxLabel := max s.facts.maxLabel f.maxLabel
      captured := f.captured.foldl capture s.facts.captured }
  defined := f.defined.reverse ++ s.defined
  targeted := s.targeted ++ f.targeted

/-- What two checks find is added in turn. -/
theorem Survey.add_and (s : Survey) (f g : Found) : s.add (f.and g) = (s.add f).add g := by
  simp [Survey.add, Found.and, Nat.add_assoc, max_assoc, List.append_assoc]

/-- Whether the labels found are new and different. -/
def Found.Fresh (f : Found) (s : Survey) : Prop := f.defined.Nodup ∧ f.defined.Disjoint s.defined

/-- What two checks find is new if the first finding is, and then the second. -/
theorem Found.fresh_and {f g : Found} {s : Survey} :
    (f.and g).Fresh s ↔ f.Fresh s ∧ g.Fresh (s.add f) := by
  simp only [Fresh, Found.and, Survey.add, List.nodup_append', List.disjoint_append_left,
    List.disjoint_append_right, List.disjoint_reverse_right]
  have := @List.disjoint_comm _ f.defined g.defined
  tauto

/-- A traversal passes if `P` holds and the labels it defines are new. It then adds what it
found. -/
def Records (m : Checker Unit) (P : Prop) (f : Found) : Prop :=
  ∀ s r, m s = .ok r ↔ P ∧ f.Fresh s ∧ r = ((), s.add f)

namespace Records

variable {a b : Checker Unit} {P Q : Prop} {f g : Found}

/-- A check may be described in another way. -/
theorem congr (h : Records a P f) (hP : P ↔ Q) (hf : f = g) : Records a Q g := by
  subst hf
  exact fun s r => (h s r).trans (and_congr_left' hP)

/-- A check that does nothing finds nothing and always passes. -/
theorem nothing : Records (pure ()) True {} := fun s r => by
  simp [pure, StateT.pure, Except.pure, Found.Fresh, Survey.add, eq_comm]

/-- A check that fails never passes. -/
theorem fail {e : BuildError} {f : Found} : Records (throw e) False f := fun _ _ =>
  iff_of_false nofun fun h => h.1

/-- Two checks pass if both do and find no label twice. -/
theorem seq (ha : Records a P f) (hb : Records b Q g) :
    Records (do a; b) (P ∧ Q) (f.and g) := fun s r => by
  refine bind_eq_ok.trans ?_
  rw [Survey.add_and, Found.fresh_and]
  constructor
  · rintro ⟨x, hx, hr⟩
    obtain ⟨hP, hf, rfl⟩ := (ha s x).1 hx
    obtain ⟨hQ, hg, hr⟩ := (hb _ r).1 hr
    exact ⟨⟨hP, hQ⟩, ⟨hf, hg⟩, hr⟩
  · rintro ⟨⟨hP, hQ⟩, ⟨hf, hg⟩, hr⟩
    exact ⟨_, (ha s _).2 ⟨hP, hf, rfl⟩, (hb _ r).2 ⟨hQ, hg, hr⟩⟩

/-- A change of the survey that defines no labels. -/
theorem change {c : Survey → Survey} (hf : f.defined = []) (hc : ∀ s, c s = s.add f) :
    Records (modify c) True f := fun s r => by
  simp [modify, modifyGet, MonadStateOf.modifyGet, StateT.modifyGet, pure, Except.pure, hc,
    Found.Fresh, hf, eq_comm]

/-- A list of checks, by induction on the list. -/
theorem forM {α : Type} {m : α → Checker Unit} {P : α → Prop} {f : α → Found} :
    ∀ {l : List α}, (∀ x ∈ l, Records (m x) (P x) (f x)) →
      Records (forM l m) (∀ x ∈ l, P x) (l.foldr (fun x => (f x).and) {})
  | [], _ => nothing.congr (by simp) rfl
  | x :: l, h => by
    obtain ⟨hx, hl⟩ := List.forall_mem_cons.1 h
    rw [List.forM_cons]
    exact (hx.seq (forM hl)).congr List.forall_mem_cons.symm rfl

end Records

/-! ## Nodes and parts -/

/-- The place that links lead to. -/
def Place.along (p : Place) (links : List Link) : Place := links.foldl Place.through p

/-- What a place asks of a node that stands there. -/
@[mk_iff] structure Place.Admits (p : Place) (e : Expr) : Prop where
  bound : ∀ x ∈ e.references, x.id ∈ p.own ∨ x.id ∈ p.outer
  nested : ∀ l, e = .lambda l → l.kind = .sync ∧ l.body.suspends = false
  suspends : e.isSuspendPoint = true → p.nested = false ∧ suits p.kind e = true
  rethrows : e = .throw none → p.handling = true

/-- The largest number of variables. -/
def maxId (xs : List Var) : Nat := (xs.map Var.id).foldr max 0

/-- What is found at a node. -/
def foundAt (p : Place) (e : Expr) : Found where
  suspends := if p.nested then 0 else if e.isSuspendPoint then 1 else 0
  maxVar := maxId e.named
  maxLabel := (e.ownLabels ++ e.jumpTarget?.toList.map Label.id).foldr max 0
  captured := e.references.filter fun x => !p.own.contains x.id
  defined := e.ownLabels
  targeted := e.jumpTarget?.toList

/-- Declarations pass; the largest identifier is found. -/
theorem records_declare (xs : List Var) : Records (declare xs) True { maxVar := maxId xs } := by
  induction xs with
  | nil => exact .nothing
  | cons x xs ih =>
    have hx : Records (useVar x.id) True { maxVar := x.id } := .change rfl fun s => by simp [Survey.add]
    exact (hx.seq ih).congr and_self_iff (by simp [Found.and, maxId])

/-- References pass inside the scope of the variable. One from an inner lambda is captured. -/
theorem records_reference (p : Place) (x : Var) : Records (reference p x)
    (x.id ∈ p.own ∨ x.id ∈ p.outer)
    { maxVar := x.id, captured := [x].filter fun x => !p.own.contains x.id } := by
  have hx : Records (useVar x.id) True { maxVar := x.id } := .change rfl fun s => by simp [Survey.add]
  unfold reference
  split
  · rename_i hown
    exact (hx.seq .nothing).congr (by simp_all) (by simp_all [Found.and])
  · rename_i hown
    split
    · rename_i houter
      refine (hx.seq (.change (f := { captured := [x] }) rfl fun s => ?_)).congr (by simp_all)
        (by simp_all [Found.and])
      simp only [Survey.add, capture, List.foldl_cons, List.foldl_nil]
      split <;> simp
    · exact (hx.seq (.fail (f := { captured := [x] }))).congr (by simp_all) (by simp_all [Found.and])

/-- A definition passes if the label is new. -/
theorem records_define (l : Label) :
    Records (define l) True { maxLabel := l.id, defined := [l.id] } := by
  have hl : Records (useLabel l.id) True { maxLabel := l.id } :=
    .change rfl fun s => by simp [Survey.add]
  refine (hl.seq (Q := True) (g := { defined := [l.id] }) fun s r => ?_).congr and_self_iff
    (by simp [Found.and])
  change (if s.defined.contains l.id then throw (.duplicateLabel l.text) else modify _ :
    Checker Unit) s = .ok r ↔ _
  split
  · rename_i hold
    exact iff_of_false nofun (by simp_all [Found.Fresh])
  · rename_i hnew
    simp_all [modify, modifyGet, MonadStateOf.modifyGet, StateT.modifyGet, pure, Except.pure,
      Found.Fresh, Survey.add, eq_comm]

/-- A definition that may be left out. -/
theorem records_defineOptional (l : Option Label) : Records (defineOptional l) True
    { maxLabel := (l.toList.map Label.id).foldr max 0, defined := l.toList.map Label.id } := by
  cases l with
  | none => exact .nothing
  | some l => exact (records_define l).congr .rfl (by simp)

/-- A jump passes; its label is asked for. -/
theorem records_target (l : Label) :
    Records (target l) True { maxLabel := l.id, targeted := [l] } := by
  have hl : Records (useLabel l.id) True { maxLabel := l.id } :=
    .change rfl fun s => by simp [Survey.add]
  refine (hl.seq (.change (f := { targeted := [l] }) rfl fun s => ?_)).congr and_self_iff
    (by simp [Found.and])
  simp [Survey.add]

/-- A suspend point passes where the kind of the lambda lets it. -/
theorem records_suspendPoint (p : Place) (e : Expr) : Records (suspendPoint p e)
    (p.nested = false ∧ suits p.kind e = true) { suspends := if p.nested then 0 else 1 } := by
  unfold suspendPoint
  split
  · exact Records.fail.congr (by simp_all) rfl
  · split
    · exact (Records.change (f := { suspends := 1 }) rfl fun s => by simp [Survey.add]).congr
        (by simp_all) (by simp_all)
    · exact Records.fail.congr (by simp_all) rfl

/-- Inner lambdas pass if they are plain and do not suspend. -/
theorem records_lambda (l : Lambda) :
    Records (checkNode p (.lambda l)) (l.kind = .sync ∧ l.body.suspends = false) {} := by
  have hsuspends := l.body.isSome_firstSuspend?
  simp only [checkNode]
  split
  · exact Records.fail.congr (by simp_all) rfl
  · cases hfirst : l.body.firstSuspend? with
    | some node => exact Records.fail.congr (by simp_all) rfl
    | none => exact Records.nothing.congr (by simp_all) rfl

/-- An exception is rethrown only inside a handler. -/
theorem records_rethrow (p : Place) (value : Option Expr) :
    Records (checkNode p (.throw value)) (value = none → p.handling = true) {} := by
  cases value with
  | some value => exact Records.nothing.congr (by simp) rfl
  | none =>
    simp only [checkNode]
    split
    · exact Records.nothing.congr (by simp_all) rfl
    · exact Records.fail.congr (by simp_all) rfl

/-- A node is checked against its place. -/
theorem records_checkNode (p : Place) (e : Expr) :
    Records (checkNode p e) (p.Admits e) (foundAt p e) := by
  have hadmits := p.admits_iff e
  cases e with
  | var x | assign x value =>
    refine (records_reference p x).congr ?_ ?_
    · simp [hadmits, Expr.references, Expr.isSuspendPoint]
    · simp [foundAt, Expr.references, Expr.isSuspendPoint, Expr.ownLabels, Expr.jumpTarget?,
        Expr.named, maxId]
  | lambda l =>
    refine (records_lambda l).congr ?_ ?_
    · simp [hadmits, Expr.references, Expr.isSuspendPoint]
    · simp [foundAt, Expr.references, Expr.isSuspendPoint, Expr.ownLabels, Expr.jumpTarget?,
        Expr.named, maxId]
  | block vars body =>
    refine (records_declare vars).congr ?_ ?_
    · simp [hadmits, Expr.references, Expr.isSuspendPoint]
    · simp [foundAt, Expr.references, Expr.isSuspendPoint, Expr.ownLabels, Expr.jumpTarget?, Expr.named]
  | loop body b c =>
    refine ((records_defineOptional b).seq (records_defineOptional c)).congr ?_ ?_
    · simp [hadmits, Expr.references, Expr.isSuspendPoint]
    · cases b <;> cases c <;>
        simp [foundAt, Found.and, Expr.references, Expr.isSuspendPoint, Expr.ownLabels,
          Expr.jumpTarget?, Expr.named, maxId]
  | goto kind l value =>
    refine (records_target l).congr ?_ ?_
    · simp [hadmits, Expr.references, Expr.isSuspendPoint]
    · simp [foundAt, Expr.references, Expr.isSuspendPoint, Expr.ownLabels, Expr.jumpTarget?,
        Expr.named, maxId]
  | label l fallback =>
    refine (records_define l).congr ?_ ?_
    · simp [hadmits, Expr.references, Expr.isSuspendPoint]
    · simp [foundAt, Expr.references, Expr.isSuspendPoint, Expr.ownLabels, Expr.jumpTarget?,
        Expr.named, maxId]
  | throw value =>
    refine (records_rethrow p value).congr ?_ ?_
    · simp [hadmits, Expr.references, Expr.isSuspendPoint]
    · simp [foundAt, Expr.references, Expr.isSuspendPoint, Expr.ownLabels, Expr.jumpTarget?,
        Expr.named, maxId]
  | await awaitable type configure | yieldReturn value | yieldBreak =>
    refine (records_suspendPoint p _).congr ?_ ?_
    · simp [hadmits, Expr.references, Expr.isSuspendPoint]
    · simp [foundAt, Expr.references, Expr.isSuspendPoint, Expr.ownLabels, Expr.jumpTarget?,
        Expr.named, maxId]
  | _ =>
    refine Records.nothing.congr ?_ ?_
    · simp [hadmits, Expr.references, Expr.isSuspendPoint]
    · simp [foundAt, Expr.references, Expr.isSuspendPoint, Expr.ownLabels, Expr.jumpTarget?,
        Expr.named, maxId]

/-- Labels are closed if each one that is targeted is defined. -/
theorem closes_iff {outside inside : Survey} {r : Unit × Survey} :
    (match inside.targeted.find? fun l => !inside.defined.contains l.id with
      | some missing => throw (.unresolvedLabel missing.text)
      | none => set { outside with facts := inside.facts } : Checker Unit) inside = .ok r ↔
    (∀ l ∈ inside.targeted, l.id ∈ inside.defined) ∧
      r = ((), { outside with facts := inside.facts }) := by
  have hclosed : inside.targeted.find? (fun l => !inside.defined.contains l.id) = none ↔
      ∀ l ∈ inside.targeted, l.id ∈ inside.defined := by simp
  rw [← hclosed]
  cases inside.targeted.find? fun l => !inside.defined.contains l.id with
  | some missing => exact iff_of_false (fun h => by cases h) (by simp)
  | none => simp [set, StateT.set, pure, Except.pure, eq_comm]

/-- The labels of a lambda are its own, but the facts go on. -/
theorem records_withLabels {body : Checker Unit} {P : Prop} {f : Found} (h : Records body P f) :
    Records (withLabels body) (P ∧ f.defined.Nodup ∧ ∀ l ∈ f.targeted, l.id ∈ f.defined)
      { f with defined := [], targeted := [] } := by
  intro s r
  let inside : Survey := { s with defined := [], targeted := [] }
  change (body inside >>= fun x => _) = .ok r ↔ _
  have hcloses : (∀ l ∈ (inside.add f).targeted, l.id ∈ (inside.add f).defined) ↔
      ∀ l ∈ f.targeted, l.id ∈ f.defined := by simp [inside, Survey.add]
  have hadd : ({ s with facts := (inside.add f).facts } : Survey) =
      s.add { f with defined := [], targeted := [] } := by simp [inside, Survey.add]
  rw [bind_eq_ok]
  constructor
  · rintro ⟨x, hx, hr⟩
    obtain ⟨hP, hfresh, rfl⟩ := (h inside x).1 hx
    obtain ⟨hclosed, hr⟩ := closes_iff.1 hr
    exact ⟨⟨hP, hfresh.1, hcloses.1 hclosed⟩, by simp [Found.Fresh], hadd ▸ hr⟩
  · rintro ⟨⟨hP, hnodup, hclosed⟩, -, hr⟩
    exact ⟨_, (h inside _).2 ⟨hP, ⟨hnodup, by simp [inside]⟩, rfl⟩,
      closes_iff.2 ⟨hcloses.2 hclosed, hadd ▸ hr⟩⟩

/-! ## The tree -/

/-- What is found in an expression. -/
def found (p : Place) (e : Expr) : Found where
  suspends := if p.nested then 0 else e.suspendCount
  maxVar := e.varIds.foldr max 0
  maxLabel := e.labelIds.foldr max 0
  captured := e.occurrences.flatMap fun o =>
    o.2.references.filter fun x => !(p.along o.1).own.contains x.id
  defined := e.definedLabels
  targeted := e.targets

/-- What is found in a part, with the variables that only exist there. -/
def foundPart (p : Place) : Link × Expr → Found
  | (.handler x, e) => Found.and { maxVar := maxId x.toList } (found (p.through (.handler x)) e)
  | (.body params, e) => { Found.and { maxVar := maxId params }
      (found (p.through (.body params)) e) with defined := [], targeted := [] }
  | (l, e) => found (p.through l) e

/-- What a part asks for beside what its nodes ask for. -/
def Sealed : Link × Expr → Prop
  | (.body _, e) => e.definedLabels.Nodup ∧ e.Closed
  | _ => True

/-- Whether every node of an expression suits its place, and every lambda has its own labels. -/
def Passes (p : Place) (e : Expr) : Prop :=
  ∀ o ∈ e.occurrences, (p.along o.1).Admits o.2 ∧ ∀ q ∈ o.2.parts, Sealed q

/-- An expression passes if its node is admitted and its parts pass. -/
theorem passes_iff {e : Expr} :
    Passes p e ↔
    p.Admits e ∧ ∀ q ∈ e.parts, Passes (p.through q.1) q.2 ∧ Sealed q := by
  refine (Expr.forall_occurrences (P := fun links e =>
    (p.along links).Admits e ∧ ∀ q ∈ e.parts, Sealed q)).trans ?_
  constructor
  · rintro ⟨⟨hnode, hseal⟩, hparts⟩
    exact ⟨hnode, fun q hq => ⟨hparts q hq, hseal q hq⟩⟩
  · rintro ⟨hnode, hparts⟩
    exact ⟨⟨hnode, fun q hq => (hparts q hq).2⟩, fun q hq => (hparts q hq).1⟩

/-- What a list of checks finds, field by field. -/
theorem foldr_and {α : Type} (f : α → Found) (l : List α) :
    l.foldr (fun x => (f x).and) {} =
      { suspends := (l.map fun x => (f x).suspends).sum
        maxVar := (l.map fun x => (f x).maxVar).foldr max 0
        maxLabel := (l.map fun x => (f x).maxLabel).foldr max 0
        captured := l.flatMap fun x => (f x).captured
        defined := l.flatMap fun x => (f x).defined
        targeted := l.flatMap fun x => (f x).targeted } := by
  induction l with
  | nil => rfl
  | cons x l ih => simp [ih, Found.and]

/-- The largest identifier of some variables bounds them. -/
theorem maxId_le_iff {xs : List Var} : maxId xs ≤ n ↔ ∀ x ∈ xs, x.id ≤ n := by
  simp [maxId, foldr_max_le_iff]

/-- The largest identifier that is found bounds all variables below. -/
theorem maxVar_found_le_iff {e : Expr} :
    (found p e).maxVar ≤ n ↔ ∀ x ∈ e.walk, ∀ y ∈ x.ownVars, y.id ≤ n := by
  rw [found, foldr_max_le_iff, Expr.varIds, List.forall_mem_map, List.forall_mem_flatMap]

/-- The variables of a node are found there and on the way to its parts. -/
theorem maxVar_found (p : Place) (e : Expr) : (found p e).maxVar =
    max (foundAt p e).maxVar ((e.parts.map fun q => (foundPart p q).maxVar).foldr max 0) := by
  refine eq_of_forall_ge_iff fun n => ?_
  have hpart : ∀ q : Link × Expr, (foundPart p q).maxVar ≤ n ↔
      (∀ x ∈ q.1.introduced, x.id ≤ n) ∧ ∀ x ∈ q.2.walk, ∀ y ∈ x.ownVars, y.id ≤ n := by
    rintro ⟨l, c⟩
    cases l <;> simp [foundPart, Found.and, maxVar_found_le_iff, maxId_le_iff, Link.introduced]
  rw [max_le_iff, foldr_max_le_iff, List.forall_mem_map, maxVar_found_le_iff, Expr.walk,
    Expr.walk_eq, List.forall_mem_cons, List.forall_mem_flatMap, Expr.ownVars_eq,
    List.forall_mem_append, List.forall_mem_flatMap, and_assoc, ← forall₂_and]
  exact and_congr maxId_le_iff.symm (forall₂_congr fun q _ => (hpart q).symm)

/-- The largest label is that of the node or one of its parts. -/
theorem maxLabel_found (p : Place) (e : Expr) : (found p e).maxLabel =
    max (foundAt p e).maxLabel ((e.parts.map fun q => (foundPart p q).maxLabel).foldr max 0) := by
  refine eq_of_forall_ge_iff fun n => ?_
  have hpart : ∀ q : Link × Expr, (foundPart p q).maxLabel ≤ n ↔ ∀ i ∈ q.2.labelIds, i ≤ n := by
    rintro ⟨l, c⟩
    rw [← foldr_max_le_iff]
    cases l <;> simp [foundPart, Found.and, found]
  rw [max_le_iff, foldr_max_le_iff, List.forall_mem_map, found, foldr_max_le_iff, Expr.labelIds,
    Expr.walk, Expr.walk_eq, List.flatMap_cons, List.forall_mem_append, List.flatMap_assoc,
    List.forall_mem_flatMap]
  exact and_congr foldr_max_le_iff.symm (forall₂_congr fun q _ => (hpart q).symm)

/-- What is captured by the node and then by its parts. -/
theorem captured_found (p : Place) (e : Expr) : (found p e).captured =
    (foundAt p e).captured ++ e.parts.flatMap fun q => (foundPart p q).captured := by
  have hpart : ∀ q : Link × Expr, (foundPart p q).captured = q.2.occurrences.flatMap fun o =>
      o.2.references.filter fun x => !(p.along (q.1 :: o.1)).own.contains x.id := by
    rintro ⟨l, c⟩
    cases l <;> rfl
  simp only [hpart]
  rw [found, Expr.occurrences_eq, List.flatMap_cons, List.flatMap_assoc]
  simp only [List.flatMap_map]
  rfl

/-- What belongs to one lambda alone is found in the children. -/
theorem foundPart_of_child (p : Place) {q : Link × Expr} (hq : ∀ params, q.1 ≠ .body params) :
    (foundPart p q).suspends = (if p.nested then 0 else q.2.suspendCount) ∧
      (foundPart p q).defined = q.2.definedLabels ∧ (foundPart p q).targeted = q.2.targets := by
  obtain ⟨l, c⟩ := q
  cases l with
  | body params => exact absurd rfl (hq params)
  | plain | scope vars => exact ⟨rfl, rfl, rfl⟩
  | handler x => exact ⟨Nat.zero_add _, rfl, rfl⟩

/-- What is found in an expression is what is found at its node and in its parts. -/
theorem found_eq (p : Place) (e : Expr) :
    found p e = (foundAt p e).and (e.parts.foldr (fun q => (foundPart p q).and) {}) := by
  rw [foldr_and]
  obtain ⟨l, rfl⟩ | ⟨hparts, hlinks⟩ := e.parts_eq_children
  · ext1
    · simp [found, foundAt, Found.and, Expr.suspendCount, Expr.isSuspendPoint, Expr.parts, foundPart,
        Place.through, Place.entering]
    · exact maxVar_found p _
    · exact maxLabel_found p _
    · exact captured_found p _
    · simp [found, foundAt, Found.and, Expr.definedLabels_eq, Expr.children, Expr.parts, foundPart]
    · simp [found, foundAt, Found.and, Expr.targets_eq, Expr.children, Expr.parts, foundPart]
  · have hpart := fun q hq => foundPart_of_child p (hlinks q hq)
    ext1
    · rw [Found.and, List.map_congr_left fun q hq => (hpart q hq).1]
      cases hnested : p.nested with
      | true => simp [found, foundAt, hnested]
      | false => simp [found, foundAt, hnested, e.suspendCount_eq, ← hparts, Function.comp_def]
    · exact maxVar_found p e
    · exact maxLabel_found p e
    · exact captured_found p e
    · rw [found, Expr.definedLabels_eq, ← hparts, List.flatMap_map]
      exact congrArg (_ ++ ·) (List.flatMap_congr fun q hq => (hpart q hq).2.1.symm)
    · rw [found, Expr.targets_eq, ← hparts, List.flatMap_map]
      exact congrArg (_ ++ ·) (List.flatMap_congr fun q hq => (hpart q hq).2.2.symm)

/-- A part is checked in its own place, and a lambda's body on its own. -/
theorem records_checkPart (p : Place) (q : Link × Expr)
    (h : ∀ p, Records (check p q.2) (Passes p q.2) (found p q.2)) :
    Records (checkPart p q) (Passes (p.through q.1) q.2 ∧ Sealed q) (foundPart p q) := by
  obtain ⟨l, e⟩ := q
  cases l with
  | plain | scope vars => exact (h _).congr (by simp [Sealed]) rfl
  | handler x => exact ((records_declare _).seq (h _)).congr (by simp [Sealed]) rfl
  | body params =>
    refine (records_withLabels ((records_declare _).seq (h _))).congr ?_ rfl
    simp [Sealed, Found.and, found, Expr.Closed]

/-- The checks pass where every node suits its place, and find what there is. -/
theorem records_check (p : Place) (e : Expr) : Records (check p e) (Passes p e) (found p e) := by
  induction e using Expr.parts_induction generalizing p with
  | step e ih =>
    rw [check_eq, found_eq]
    have hparts := Records.forM fun q hq => records_checkPart p q (ih q hq)
    exact ((records_checkNode p e).seq hparts).congr passes_iff.symm rfl

/-! ## Scopes -/

/-- What surrounds a place, when all variables have numbers up to `n`. -/
def Place.setting (p : Place) (n : Nat) : Setting where
  inner i := i ≤ n
  bound i := i ∈ p.own ∨ i ∈ p.outer
  assigned i := i ≤ n
  handling := p.handling
  waits := !p.nested

/-- What is bound in a place is bound in the setting of this place. -/
theorem Place.setting_through (p : Place) (n : Nat) (l : Link) :
    ((p.through l).setting n).Within ((p.setting n).through l) := by
  refine ⟨?_, fun i => ?_, ?_, ?_, ?_⟩ <;>
  cases l <;>
  simp [Place.setting, Place.through, Place.declaring, Place.entering, Setting.through,
    Setting.declaring, Setting.catching, Setting.entering, or_assoc]

/-- A node that is admitted fits the setting of its place. -/
theorem Place.Admits.fitsAt {e : Expr} (h : p.Admits e) (hn : ∀ y ∈ e.ownVars, y.id ≤ n) :
    e.FitsAt (p.setting n) := by
  have hwaits (he : e.isSuspendPoint = true) : (p.setting n).waits = true := by
    simp [Place.setting, (h.suspends he).1]
  cases e with
  | var x => exact h.bound x (.head _)
  | assign x value => exact ⟨h.bound x (.head _), hn x (.head _)⟩
  | lambda l | block vars body => exact hn
  | tryCatch body handlers cleanup =>
    exact fun c hc x hx => hn x (List.mem_flatMap.2 ⟨c, hc, hx⟩)
  | throw value => exact fun hvalue => h.rethrows (hvalue ▸ rfl)
  | await awaitable type configure | yieldReturn value | yieldBreak => exact hwaits rfl
  | _ => trivial

/-- An expression that passes the checks fits the setting of its place. -/
theorem Passes.fits {e : Expr} (h : Passes p e) (hn : ∀ x ∈ e.walk, ∀ y ∈ x.ownVars, y.id ≤ n) :
    e.Fits (p.setting n) := by
  induction e using Expr.parts_induction generalizing p with
  | step e ih =>
    obtain ⟨hnode, hparts⟩ := passes_iff.1 h
    rw [Expr.walk, Expr.walk_eq, List.forall_mem_cons, List.forall_mem_flatMap] at hn
    refine Expr.fits_iff.2 ⟨?_, fun q hq => ?_⟩
    · exact hnode.fitsAt hn.1
    · exact (ih q hq (hparts q hq).1 (hn.2 q hq)).mono (p.setting_through n q.1)

end Check

namespace Lambda

/-- The place of the body of a lambda. -/
def place (l : Lambda) : Check.Place := { kind := l.kind, own := l.params.map Var.id }

/-- The facts that there are about a lambda. -/
def facts (l : Lambda) : Facts where
  suspendPoints := l.body.suspendCount
  maxVar := (l.params.map Var.id ++ l.body.varIds).foldr max 0
  maxLabel := l.body.labelIds.foldr max 0
  captured := (Check.found l.place l.body).captured.foldl Check.capture []

/-- When a lambda passes its checks, and what they report. -/
theorem check_eq_ok_iff {l : Lambda} {facts : Facts} : l.check = .ok facts ↔
    (Check.Passes l.place l.body ∧ l.body.definedLabels.Nodup ∧ l.body.Closed) ∧
      facts = l.facts := by
  have hrecords := Check.records_withLabels
    ((Check.records_declare l.params).seq (Check.records_check l.place l.body))
  have hfacts : ((({} : Check.Survey).add { Check.Found.and { maxVar := Check.maxId l.params }
      (Check.found l.place l.body) with defined := [], targeted := [] }).facts) = l.facts := by
    have hmax : max (Check.maxId l.params) (l.body.varIds.foldr max 0) = l.facts.maxVar := by
      refine eq_of_forall_ge_iff fun n => ?_
      rw [max_le_iff, Check.maxId, Lambda.facts, foldr_max_le_iff, foldr_max_le_iff,
        foldr_max_le_iff, List.forall_mem_append]
    rw [Check.Survey.add, Facts.mk.injEq]
    exact ⟨(Nat.zero_add _).trans (Nat.zero_add _), (Nat.zero_max _).trans hmax,
      (Nat.zero_max _).trans (Nat.zero_max _), rfl⟩
  refine bind_eq_ok.trans ?_
  constructor
  · rintro ⟨r, hr, hfacts'⟩
    obtain ⟨⟨⟨-, hpasses⟩, hlabels⟩, -, rfl⟩ := (hrecords {} r).1 hr
    exact ⟨⟨hpasses, hlabels⟩, (Except.ok.inj hfacts').symm.trans hfacts⟩
  · rintro ⟨⟨hpasses, hlabels⟩, rfl⟩
    exact ⟨_, (hrecords {} _).2 ⟨⟨⟨trivial, hpasses⟩, hlabels⟩, by simp [Check.Found.Fresh], rfl⟩,
      congrArg Except.ok hfacts⟩

/-- What surrounds the body of a lambda, when all variables have numbers up to `n`. -/
def setting (l : Lambda) (n : Nat) : Setting where
  inner i := i ≤ n
  bound i := i ∈ l.params.map Var.id
  assigned i := i ≤ n
  handling := false
  waits := true

/-- The facts bound all variables of a lambda. -/
theorem le_maxVar {l : Lambda} {facts : Facts} (h : l.check = .ok facts) :
    (∀ x ∈ l.params, x.id ≤ facts.maxVar) ∧
      ∀ x ∈ l.body.walk, ∀ y ∈ x.ownVars, y.id ≤ facts.maxVar := by
  obtain ⟨-, rfl⟩ := check_eq_ok_iff.1 h
  have hle := foldr_max_le_iff.1 (le_refl l.facts.maxVar)
  rw [List.forall_mem_append, Expr.varIds, List.forall_mem_map, List.forall_mem_map,
    List.forall_mem_flatMap] at hle
  exact hle

/-- A lambda that passes its checks has a body that fits its parameters. -/
theorem check_fits {l : Lambda} {facts : Facts} (h : l.check = .ok facts) :
    (∀ x ∈ l.params, x.id ≤ facts.maxVar) ∧ l.body.Fits (l.setting facts.maxVar) := by
  obtain ⟨hparams, hvars⟩ := le_maxVar h
  have hin : (l.place.setting facts.maxVar).Within (l.setting facts.maxVar) :=
    ⟨fun _ h => h, fun i hi => hi.elim id nofun, fun _ h => h, id, id⟩
  exact ⟨hparams, ((check_eq_ok_iff.1 h).1.1.fits hvars).mono hin⟩

/-- In a lambda that passes its checks jumps find their labels, each of which is defined once. -/
theorem check_labels {l : Lambda} {facts : Facts} (h : l.check = .ok facts) :
    l.body.Closed ∧ l.body.definedLabels.Nodup := (check_eq_ok_iff.1 h).1.2.symm

end Lambda

end Coroutine

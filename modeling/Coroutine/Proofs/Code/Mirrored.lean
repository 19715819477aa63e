import Mathlib
import Coroutine.Proofs.Ensures
import Coroutine.Tree.Labels
import Coroutine.Proofs.Code.Sound

/-!
# Code mirrors its expression

An expression is reduced by reducing its children, one after the other, and putting its node above
them (`Expr.reduce_eq`). Whatever holds of the nodes of a run of expressions is proved along this:
`Expr.reduce_induction`.
-/

namespace Coroutine

/-! ## Runs -/

namespace Fragment

/-- Fragments are put together in any order of brackets. -/
theorem append_assoc (a b c : Fragment) : a ++ b ++ c = a ++ (b ++ c) := by
  change append (append a b) c = append a (append b c)
  simp only [append, List.append_assoc]

/-- The empty fragment adds nothing. -/
theorem append_empty (a : Fragment) : a ++ ({} : Fragment) = a := by
  change append a {} = a
  simp only [append, List.append_nil]

end Fragment

/-- The place after two fragments is the one after the second, seen from the first. -/
theorem Spot.after_append (s : Spot) (a b : Fragment) :
    s.after (a ++ b) = (s.after a).after b := by
  have hsize : (a ++ b).size = a.size + b.size := List.length_append
  have hwidth : (a ++ b).width = a.width + b.width := List.length_append
  simp only [after, hsize, hwidth, Nat.add_assoc]

namespace Expr

variable {resolve : Resolver}

/-- What the node of an expression does. -/
def op? (resolve : Resolver) : Expr → Except BuildError Op
  | .constant v => return .constant v
  | .var x => return .var x
  | .assign x _ => return .assign x
  | .binary op _ _ => return .binary op
  | .unary op _ => return .unary op
  | .call function _ => return .call function
  | .invoke _ _ => return .invoke
  | .lambda l => do
    let code ← Code.build resolve false l.body
    return .lambda ⟨l.displayName, l.params, code⟩
  | .block vars _ => return .block vars
  | .condition _ _ ifFalse => return .condition ifFalse.isSome
  | .switch _ cases fallback =>
    return .switch (caseSlots 1 cases) (fallback.map fun _ => 1 + caseWidth cases)
  | .loop _ _ _ => return .loop
  | .goto _ target value => return .goto target.id value.isSome .escape
  | .label target _ => return .label target.id
  | .tryCatch _ handlers cleanup =>
    return .tryCatch (handlerSlots 1 handlers) (cleanup.map fun _ => 1 + handlers.length)
  | .throw none => return .rethrow
  | .throw (some _) => return .throw
  | .await _ type configure => return .await (← resolve type) configure
  | .yieldReturn _ => return .yieldReturn
  | .yieldBreak => return .yieldBreak

/-- Notes the labels and the jump of an expression whose node has an index. -/
def mark (id : Nat) : Expr → Fragment → Fragment
  | .loop _ breakLabel continueLabel, f => f.sitesFirst (loopSites id breakLabel continueLabel)
  | .goto _ target _, f => f.jumpLast id target.id
  | .label target _, f => f.siteLast target.id (.label id)
  | _, f => f

/-- A list is numbered part by part: the second part begins where the first one ends. -/
theorem reduceList_append (s : Spot) (l l' : List Expr) : reduceList resolve s (l ++ l') = (do
    let a ← reduceList resolve s l
    let b ← reduceList resolve (s.after a) l'
    return a ++ b) := by
  induction l generalizing s with
  | nil => exact (bind_pure _).symm
  | cons e l ih =>
    simp only [List.cons_append, reduceList, ih, bind_assoc, pure_bind, Spot.after_append,
      Fragment.append_assoc]

/-- A single expression is numbered by itself. -/
theorem reduceList_singleton (s : Spot) (e : Expr) :
    reduceList resolve s [e] = e.reduce resolve s := by
  simp only [reduceList, pure_bind, Fragment.append_empty, bind_pure]

/-- The arms of a switch are numbered like the list of all their expressions. -/
theorem reduceCases_eq (s : Spot) (l : List SwitchCase) :
    reduceCases resolve s l = reduceList resolve s (l.flatMap SwitchCase.children) := by
  induction l generalizing s with
  | nil => rfl
  | cons c l ih =>
    obtain ⟨tests, body⟩ := c
    simp only [reduceCases, ih, SwitchCase.children, List.flatMap_cons, reduceList_append,
      reduceList, bind_assoc, pure_bind, Spot.after_append, Fragment.append_assoc,
      Fragment.append_empty]

/-- Handlers are numbered like the list of their bodies. -/
theorem reduceHandlers_eq (s : Spot) (l : List Handler) :
    reduceHandlers resolve s l = reduceList resolve s (l.map Handler.body) := by
  induction l generalizing s with
  | nil => rfl
  | cons h l ih =>
    obtain ⟨filter, x, body⟩ := h
    simp only [reduceHandlers, ih, List.map_cons, reduceList]

/-- An expression is reduced by reducing its children and adding its node. -/
theorem reduce_eq (s : Spot) (e : Expr) : e.reduce resolve s = (do
    let f ← reduceList resolve s.first e.children
    let op ← e.op? resolve
    return e.mark s.id (s.node op f)) := by
  rcases e with _ | _ | _ | _ | _ | _ | _ | ⟨⟨_, _, _, _⟩⟩ | _ | ⟨_, _, _ | _⟩ | ⟨_, _, _ | _⟩ | _ |
    ⟨_, _, _ | _⟩ | ⟨_, _ | _⟩ | ⟨_, _, _ | _⟩ | ⟨_ | _⟩ | _ | _ | _ <;>
  simp only [reduce, op?, mark, children, reduceList, reduceList_append, reduceCases_eq,
    reduceHandlers_eq, bind_assoc, pure_bind, bind_pure, Option.toList_some, Option.toList_none,
    List.append_nil, Option.isSome, Option.map, Spot.after_append, Fragment.append_assoc,
    Fragment.append_empty, Code.build, Lambda.displayName]

/-- What holds of the nodes of a run if it holds of its parts. -/
theorem reduce_induction {P : Spot → List Expr → Fragment → Prop} (nil : ∀ s, P s [] {})
    (cons : ∀ s e es a b, P s [e] a → P (s.after a) es b → P s (e :: es) (a ++ b))
    (node : ∀ s e f op, P s.first e.children f → e.op? resolve = .ok op →
      P s [e] (e.mark s.id (s.node op f)))
    (es : List Expr) {s : Spot} {f : Fragment} (h : reduceList resolve s es = .ok f) : P s es f := by
  have hlist : ∀ es : List Expr, (∀ e ∈ es, ∀ s f, e.reduce resolve s = .ok f → P s [e] f) →
      ∀ s f, reduceList resolve s es = .ok f → P s es f := by
    intro es hes
    induction es with
    | nil =>
      intro s f h
      cases h
      exact nil s
    | cons e es ih =>
      intro s f h
      obtain ⟨he, hes⟩ := List.forall_mem_cons.1 hes
      obtain ⟨a, ha, h⟩ := bind_eq_ok.1 h
      obtain ⟨b, hb, h⟩ := bind_eq_ok.1 h
      cases h
      exact cons s e es a b (he s a ha) (ih hes _ b hb)
  suffices hone : ∀ e s f, e.reduce resolve s = .ok f → P s [e] f from
    hlist es (fun e _ => hone e) s f h
  intro e
  induction e using children_induction with
  | step e ih =>
    intro s f h
    rw [reduce_eq] at h
    obtain ⟨g, hg, h⟩ := bind_eq_ok.1 h
    obtain ⟨op, hop, h⟩ := bind_eq_ok.1 h
    cases h
    exact node s e g op (hlist _ ih _ _ hg) hop

/-! ## Numbers -/

/-- The numbers of the nodes of expressions side by side, the nodes below each of them coming
before the next. -/
def indices (first : Nat) : List Expr → List Nat
  | [] => []
  | e :: es => first :: indices (first + e.preorder.length) es

/-- Marking an expression adds no node. -/
@[simp] theorem nodes_mark (id : Nat) (e : Expr) (f : Fragment) :
    (e.mark id f).nodes = f.nodes := by cases e <;> rfl

/-- Marking an expression leaves the roots alone. -/
@[simp] theorem roots_mark (id : Nat) (e : Expr) (f : Fragment) :
    (e.mark id f).roots = f.roots := by cases e <;> rfl

end Expr

/-! ## Nodes in code -/

/-- Code holds nodes from an index on, up to the routes of jumps. -/
def Code.Holds (c : Code) (base : Nat) (nodes : List Node) : Prop :=
  ∀ k n, nodes[k]? = some n → (c.node (base + k)).withRoute .escape = n.withRoute .escape

namespace Code.Holds

variable {c : Code} {base : Nat}

/-- The first nodes of a part. -/
theorem left {a b : List Node} (h : c.Holds base (a ++ b)) : c.Holds base a := by
  intro k n hk
  refine h k n ?_
  rw [List.getElem?_append_left (List.getElem?_eq_some_iff.1 hk).1]
  exact hk

/-- The nodes after them, further on. -/
theorem right {a b : List Node} (h : c.Holds base (a ++ b)) : c.Holds (base + a.length) b := by
  intro k n hk
  rw [Nat.add_assoc]
  refine h (a.length + k) n ?_
  rw [List.getElem?_append_right (Nat.le_add_right _ _), Nat.add_sub_cancel_left]
  exact hk

/-- The nodes after the first one. -/
theorem tail {n : Node} {nodes : List Node} (h : c.Holds base (n :: nodes)) :
    c.Holds (base + 1) nodes :=
  right (a := [n]) h

end Code.Holds

/-- The node with an index, and all below it, are those of an expression. -/
inductive Code.Mirrors (resolve : Expr.Resolver) (c : Code) :
    Option Nat → Nat → Nat → Expr → Prop
  | node {parent : Option Nat} {slot id : Nat} {e : Expr} {op : Op}
      (does : e.op? resolve = .ok op)
      (node : (c.node id).withRoute .escape =
        Node.withRoute .escape ⟨parent, slot, Expr.indices (id + 1) e.children, op⟩)
      (child : ∀ k x r, e.children[k]? = some x →
        (Expr.indices (id + 1) e.children)[k]? = some r → Mirrors resolve c (some id) k r x) :
      Mirrors resolve c parent slot id e

namespace Expr

variable {resolve : Resolver}

/-- The nodes of expressions side by side with their numbers. -/
def located (first : Nat) (es : List Expr) : List (Expr × Nat) :=
  (es.flatMap preorder).zipIdx first

/-- The nodes of the first expression come before those of the others. -/
theorem located_cons (first : Nat) (e : Expr) (es : List Expr) : located first (e :: es) =
    located first [e] ++ located (first + e.preorder.length) es := by
  simp [located, List.zipIdx_append]

/-- The node of an expression comes right before those of its children. -/
theorem located_singleton (first : Nat) (e : Expr) :
    located first [e] = (e, first) :: located (first + 1) e.children := by
  rw [located, List.flatMap_singleton, preorder, nodes_eq, List.zipIdx_cons]
  rfl

/-- The definitions of the labels of a node. -/
def ownSites (id : Nat) : Expr → List (Nat × Site)
  | .loop _ breakLabel continueLabel => loopSites id breakLabel continueLabel
  | .label target _ => [(target.id, .label id)]
  | _ => []

/-- The jump of a node, with its label. -/
def ownJump? (id : Nat) (e : Expr) : Option (Nat × Nat) := e.jumpTarget?.map fun t => (id, t.id)

end Expr

/-- A run of nodes is that of expressions: in number, in order, in any code that holds it, and with
all labels and jumps on record. -/
structure Fragment.Renders (resolve : Expr.Resolver) (s : Spot) (es : List Expr) (f : Fragment) :
    Prop where
  size : f.size = (es.flatMap Expr.preorder).length
  roots : f.roots = Expr.indices s.id es
  mirrors : ∀ c : Code, c.Holds s.id f.nodes → ∀ k x r, es[k]? = some x → f.roots[k]? = some r →
    c.Mirrors resolve s.parent (s.slot + k) r x
  sites : f.sites.Perm ((Expr.located s.id es).flatMap fun x => x.1.ownSites x.2)
  jumps : f.jumps.Perm ((Expr.located s.id es).filterMap fun x => x.1.ownJump? x.2)

namespace Fragment.Renders

variable {resolve : Expr.Resolver} {s : Spot} {e : Expr} {es : List Expr} {a b f : Fragment}

/-- No expressions have no nodes. -/
theorem empty : Renders resolve s [] {} := ⟨rfl, rfl, nofun, .refl _, .refl _⟩

/-- Fragments next to each other render the expressions next to each other. -/
theorem append (ha : a.Renders resolve s [e]) (hb : b.Renders resolve (s.after a) es) :
    (a ++ b).Renders resolve s (e :: es) := by
  have hsize : a.size = e.preorder.length := ha.size.trans (by simp)
  have hroots : (a ++ b).roots = s.id :: b.roots := congrArg (· ++ b.roots) ha.roots
  refine ⟨?_, ?_, fun c hc k x r hx hr => ?_, ?_, ?_⟩
  · rw [show (a ++ b).size = a.size + b.size from List.length_append, hsize, hb.size]
    simp
  · rw [hroots, hb.roots, Spot.after, hsize]
    rfl
  · cases k with
    | zero =>
      obtain rfl : e = x := by simpa using hx
      obtain rfl : s.id = r := by simpa [hroots] using hr
      exact ha.mirrors c hc.left 0 e s.id rfl (by rw [ha.roots]; rfl)
    | succ k =>
      have hwidth : a.width = 1 := congrArg List.length ha.roots
      have hmirrors := hb.mirrors c hc.right k x r (by simpa using hx) (by simpa [hroots] using hr)
      rw [Spot.after, hwidth, Nat.add_assoc, Nat.add_comm 1] at hmirrors
      exact hmirrors
  · rw [Expr.located_cons, List.flatMap_append]
    have hsites := hb.sites
    rw [Spot.after, hsize] at hsites
    exact ha.sites.append hsites
  · rw [Expr.located_cons, List.filterMap_append]
    have hjumps := hb.jumps
    rw [Spot.after, hsize] at hjumps
    exact ha.jumps.append hjumps

/-- A node before the fragment of its children renders the expression. -/
theorem node {op : Op} (hf : f.Renders resolve s.first e.children)
    (hop : e.op? resolve = .ok op) : (e.mark s.id (s.node op f)).Renders resolve s [e] := by
  refine ⟨?_, ?_, fun c hc k x r hx hr => ?_, ?_, ?_⟩
  · rw [Fragment.size, Expr.nodes_mark, List.flatMap_singleton, Expr.preorder, Expr.nodes_eq,
      List.length_cons]
    exact congrArg (· + 1) hf.size
  · rw [Expr.roots_mark]
    rfl
  · rw [Expr.roots_mark] at hr
    rw [Expr.nodes_mark] at hc
    obtain ⟨rfl, rfl⟩ : k = 0 ∧ s.id = r := by simpa [Spot.node, List.getElem?_singleton] using hr
    obtain rfl : e = x := by simpa using hx
    refine .node hop ?_ fun k x r hx hr => ?_
    · rw [← show s.first.id = s.id + 1 from rfl, ← hf.roots]
      exact hc 0 _ rfl
    · have hmirrors := hf.mirrors c hc.tail k x r hx (hf.roots ▸ hr)
      rwa [show s.first.slot + k = k from Nat.zero_add k] at hmirrors
  · rw [Expr.located_singleton, List.flatMap_cons]
    cases e with
    | loop body b c => exact hf.sites.append_left _
    | label l fallback => exact List.perm_append_comm.trans (hf.sites.cons _)
    | _ => exact hf.sites
  · rw [Expr.located_singleton, List.filterMap_cons]
    cases e with
    | goto kind l value => exact List.perm_append_comm.trans (hf.jumps.cons _)
    | _ => exact hf.jumps

end Fragment.Renders

/-- Reducing renders expressions. -/
theorem Expr.renders_of_reduceList {resolve : Resolver} {es : List Expr} {s : Spot} {f : Fragment}
    (h : reduceList resolve s es = .ok f) : f.Renders resolve s es :=
  reduce_induction (P := fun s es f => f.Renders resolve s es) (fun _ => .empty)
    (fun _ _ _ _ _ => .append) (fun _ _ _ _ => .node) es h

end Coroutine

import Mathlib
import Coroutine.Proofs.Tree.WellFormed
import Coroutine.Proofs.Lowering.Result

/-!
# What the checks report

The facts that the checks gather on their way are exact. The suspend points are the ones that the
tree has, whichever way they are looked for; the largest numbers are those of the variables and the
labels that occur, so that the numbers after them are free for lowering; and the captured variables
are those that some reference takes from outside of a nested lambda.
-/

namespace Coroutine

/-- Whether a variable that is referred to where links lead occurs free in a lambda on the way. -/
def Link.frees (i : Nat) : List Link → Bool
  | [] => false
  | .body params :: links =>
    !((params ++ links.flatMap declared).map Var.id).contains i || frees i links
  | _ :: links => frees i links

/-- The references, in order, to variables that occur free in a nested lambda. -/
def Expr.freeReferences (e : Expr) : List Var :=
  e.occurrences.flatMap fun o => o.2.references.filter fun x => Link.frees x.id o.1

/-- The numbers of the variables anywhere in a lambda. -/
def Lambda.varIds (l : Lambda) : List Nat := l.params.map Var.id ++ l.body.varIds

/-- Facts that are right about a lambda. -/
structure Facts.Exact (facts : Facts) (l : Lambda) : Prop where
  suspendPoints : facts.suspendPoints = l.body.suspendCount
  maxVar : facts.maxVar = l.varIds.foldr max 0
  maxLabel : facts.maxLabel = l.body.labelIds.foldr max 0
  /-- Each captured variable is listed where it is first referred to. -/
  captured : facts.captured = l.body.freeReferences.eraseDupsBy fun x y => x.id == y.id
  /-- Lowering begins to number temporaries after the largest variable, and stays there. -/
  lowers : ∀ resolve g, l.lower resolve = .ok g → ∃ d : Lowering.Draft,
    (Lowering.lowerBody resolve l.kind l.body).run (l.first facts) = .ok ((), d) ∧ d.graph = g ∧
      facts.maxVar < d.nextVar
  /-- A temporary that is numbered there is no variable of the tree: its number is another one, and
  so is its word while the numbers are in range. -/
  temporary : ∀ (d d' : Lowering.Draft) stem x, facts.maxVar < d.nextVar →
    Lowering.temporary stem d = .ok (x, d') → x.id ∉ l.varIds ∧
      (x.id < UInt32.size → x.word ∉ l.varIds.map word) ∧ facts.maxVar < d'.nextVar

namespace Check

theorem own_along {p : Place} {links : List Link} {i : Nat} : i ∈ (p.along links).own ↔
    Link.frees i links = false ∧ (i ∈ p.own ∨ i ∈ (links.flatMap Link.declared).map Var.id) := by
  induction links generalizing p with
  | nil => simp [Place.along, Link.frees]
  | cons l links ih =>
    refine (ih (p := p.through l)).trans ?_
    rw [List.flatMap_cons, List.map_append, List.mem_append]
    cases l <;>
      simp only [Place.through, Place.declaring, Place.entering, Link.declared, Link.frees,
        List.map_nil, List.not_mem_nil, List.mem_append, List.map_append, Bool.or_eq_false_iff,
        Bool.not_eq_false', List.contains_iff_mem] <;>
      tauto

theorem foldl_capture (xs : List Var) : ∀ seen : List Var,
    xs.foldl capture seen.reverse = List.eraseDupsBy.loop (fun x y => x.id == y.id) xs seen := by
  induction xs with
  | nil => exact fun _ => rfl
  | cons x xs ih =>
    intro seen
    have hany : seen.any (fun y => y.id == x.id) = seen.any fun y => x.id == y.id := by
      simp only [Bool.beq_comm (a := x.id)]
    rw [List.foldl_cons, List.eraseDupsBy.loop, capture, List.any_reverse, hany]
    cases seen.any fun y => x.id == y.id with
    | true => exact ih seen
    | false => exact (congrArg (xs.foldl capture) List.reverse_cons.symm).trans (ih (x :: seen))

end Check

namespace Lambda

theorem captured_found {l : Lambda} (h : Check.Passes l.place l.body) :
    (Check.found l.place l.body).captured = l.body.freeReferences := by
  refine List.flatMap_congr fun o ho => List.filter_congr fun x hx => ?_
  have hbound := Check.Place.bound_along.1 ((h o ho).1.bound x hx)
  have hown : x.id ∈ (l.place.along o.1).own ↔ Link.frees x.id o.1 = false :=
    Check.own_along.trans (and_iff_left (hbound.imp_left fun h => h.elim id nofun))
  cases hfrees : Link.frees x.id o.1 <;> simp [hown, hfrees]

theorem facts_exact {l : Lambda} {facts : Facts} (h : l.check = .ok facts) : facts.Exact l := by
  obtain ⟨⟨hpasses, -⟩, hfacts⟩ := check_eq_ok_iff.1 h
  have hids : ∀ i ∈ l.varIds, i ≤ facts.maxVar :=
    foldr_max_le_iff.1 (hfacts ▸ le_refl l.facts.maxVar)
  refine ⟨hfacts ▸ rfl, hfacts ▸ rfl, hfacts ▸ rfl, ?_, fun resolve g hg => ?_,
    fun d d' stem x hd htemp => ?_⟩
  · rw [hfacts]
    exact (congrArg (List.foldl Check.capture []) (captured_found hpasses)).trans
      (Check.foldl_capture _ [])
  · obtain ⟨d, -, hrun, hleads, -, -, hgraph⟩ := lower_settles h hg
    exact ⟨d, hrun, hgraph, hleads.sound.first⟩
  · cases htemp
    have hfresh : d.nextVar ∉ l.varIds := fun hmem => absurd (hids _ hmem) (not_le.2 hd)
    refine ⟨hfresh, fun hrange hmem => ?_, hd.trans (Nat.lt_succ_self _)⟩
    -- the variables of the tree are smaller, and so in range too
    obtain ⟨i, hi, hword⟩ := List.mem_map.1 hmem
    have hlt : i < UInt32.size := ((hids i hi).trans_lt hd).trans hrange
    obtain rfl : i = d.nextVar := (word_of_lt hlt).symm.trans (hword.trans (word_of_lt hrange))
    exact hfresh hi

/-- What the traversals of a tree find agrees, and the facts that the checks report are exact. -/
theorem check_exact (e : Expr) :
    (e.suspends = true ↔ e.firstSuspend?.isSome = true) ∧
    (e.suspends = true ↔ 0 < e.suspendCount) ∧
    e.firstSuspend? = e.preorder.find? Expr.isSuspendPoint ∧
    ∀ (l : Lambda) (facts : Facts), l.check = .ok facts → facts.Exact l := by
  refine ⟨?_, ?_, e.firstSuspend?_eq_find?, fun l facts h => facts_exact h⟩
  · rw [e.isSome_firstSuspend?]
  · rw [e.suspends_eq_any, List.any_eq_true, e.suspendCount_eq_countP, List.countP_pos_iff]

/-- A closure over a variable of its creator, with one of its own and an await around it. -/
def capturing : Lambda :=
  ⟨some "capturing", .async, [⟨1, "x"⟩], .block [⟨2, "y"⟩] [
    .assign ⟨2, "y"⟩ (.await (.var ⟨1, "x"⟩) "task" true),
    .lambda ⟨none, .sync, [⟨4, "z"⟩], .binary .add (.var ⟨2, "y"⟩)
      (.binary .add (.var ⟨4, "z"⟩) (.var ⟨2, "y"⟩))⟩,
    .label ⟨3, none⟩ none]⟩

theorem capturing_exact :
    capturing.check = .ok ⟨1, 4, 3, [⟨2, "y"⟩]⟩ ∧ Facts.Exact ⟨1, 4, 3, [⟨2, "y"⟩]⟩ capturing :=
  ⟨rfl, (check_exact capturing.body).2.2.2 capturing _ rfl⟩

/-- A lambda with the last variable in range, and the first one. -/
def brimming : Lambda :=
  ⟨some "brimming", .async, [⟨0, "x"⟩, ⟨UInt32.size - 1, "y"⟩], .await (.var ⟨0, "x"⟩) "task" true⟩

/-- Out of range, the words begin anew: the first temporary has the word of a parameter. -/
theorem brimming_collides : ∃ g, brimming.lower (fun name => .ok (.task name)) = .ok g ∧
    ∃ x ∈ g.vars, x.id ∉ brimming.varIds ∧ x.word ∈ brimming.varIds.map word := by
  have hrun : ((brimming.lower fun name => .ok (.task name)).toOption.bind fun g =>
      g.vars.head?.map fun x => (decide (x.id ∈ brimming.varIds), decide (x.word ∈ brimming.varIds.map word))) =
      some (false, true) := by
    cbv
  obtain ⟨g, hg, hrun⟩ := bind_toOption_eq_some hrun
  obtain ⟨x, hx, heq⟩ := Option.map_eq_some_iff.1 hrun
  obtain ⟨hid, hword⟩ := Prod.mk.inj heq
  exact ⟨g, hg, x, List.mem_of_head? hx, of_decide_eq_false hid, of_decide_eq_true hword⟩

end Lambda

end Coroutine

import Mathlib
import Coroutine.Program.Assembly
import Coroutine.Proofs.Ensures
import Coroutine.Proofs.Lowering.Drafts

/-!
# The image of a state graph

Assembly renders every region once and moves its block into the instruction that enters it. An
`Image` says what came out of it: the block and the exits of every region that was rendered. In these
terms the instructions of a state are a plain function of the state (`Image.stateCode`), and
`assemble_image` says that the program of a graph is that of a faithful image: every block holds the
instructions of its states, one after the other.
-/

namespace Coroutine

/-- The expressions that a transition evaluates. -/
def Transition.exprs : Transition → List Expr
  | .conditional test _ _ => [test]
  | .switch value arms _ => value :: arms.flatMap SwitchArm.tests
  | .await a => [a.awaitable]
  | .yieldReturn value _ => [value]
  | .finish value => value.toList
  | _ => []

/-- The expressions that a state evaluates. -/
def State.exprs (s : State) : List Expr :=
  s.expressions ++ s.result.toList.map Prod.snd ++ (s.transition.map Transition.exprs).getD []

namespace Assembly

/-- An expression as it stands in a program. -/
def compiled (resolve : Expr.Resolver) (e : Expr) : CompiledExpr :=
  ⟨e, (Code.build resolve true e).toOption.getD default⟩

/-- Whether an expression has code. -/
def Builds (resolve : Expr.Resolver) (e : Expr) : Prop := ∃ c, Code.build resolve true e = .ok c

/-- What a state graph was rendered to. -/
structure Image where
  graph : Graph
  resolve : Expr.Resolver
  /-- Whether jumps to the state that comes next were left out. -/
  elide : Bool
  /-- The regions that were rendered. -/
  regions : List Nat
  block : Nat → Block
  exits : Nat → List RegionExit

namespace Image

variable (im : Image)

/-- What the states of a region are rendered with. -/
def place (region : Nat) (next : Option Nat) : Place := ⟨im.resolve, region, im.elide, next⟩

/-- An expression as it stands in the program. -/
def expr (e : Expr) : CompiledExpr := compiled im.resolve e

/-- A jump to a state, unless it comes next anyway. -/
def jump (next : Option Nat) (target : Nat) : List Instr :=
  if im.elide && next == some target then [] else [.goto (.state target)]

/-- The protected region that a state enters. -/
def tryRegion (owner : Nat) (t : RegionEntry) : TryRegion where
  owner := owner
  block := im.block t.region
  tryState := t.tryState
  exception := t.exception
  handlers := t.handlers.map fun h => (h.filter, h.code)
  catchAll := t.cleanup.isSome
  exits := im.exits t.region

/-- The targets of a region's exits, by their codes. -/
def exitCases (region : Nat) : List (Int × Target) :=
  (im.exits region).map fun e => (e.code, e.target)

/-- The instructions after a protected region. -/
def afterRegion (next : Option Nat) (t : RegionEntry) : List Instr :=
  match t.cleanup with
  | some cleanup => im.jump next cleanup
  | none =>
    [.dispatch t.tryState t.exception
      ((t.handlers.map fun h => (h.code, Target.state h.body)) ++ im.exitCases t.region) false
      (.state t.join)]

/-- The instructions of a transition. -/
def transitionCode (next : Option Nat) (source : Nat) : Transition → List Instr
  | .goto target | .loop target => im.jump next target
  | .conditional test ifTrue ifFalse =>
    .gotoIf (im.expr test) (.state ifTrue) :: im.jump next ifFalse
  | .switch value arms fallback =>
    [.switch (im.expr value) (arms.map fun a => (a.tests.map im.expr, .state a.body))
      (.state fallback)]
  | .tryCatch t =>
    [.assign t.tryState (im.expr (.constant (.int (Int64.ofInt notLeft)))),
      .label (.reentry source), .region (im.tryRegion source t)] ++ im.afterRegion next t
  | .cleanupExit e =>
    [.dispatch e.tryState e.exception (im.exitCases e.region) true (.state e.join)]
  | .await a =>
    [.getAwaiter (im.expr a.awaitable) a.awaiter a.binder a.configure,
      .gotoIfCompleted a.awaiter a.binder (.state a.completion), .setState a.completion,
      .register a.awaiter a.binder, .suspend .await]
  | .awaitResult a => .getResult a.awaiter a.binder a.result :: im.jump next a.target
  | .yieldReturn value resume =>
    [.setCurrent (im.expr value), .setState resume, .suspend .yield]
  | .yieldBreak => [.yieldBreak]
  | .finish value => [.finish (value.map im.expr)]

/-- The instructions of a state before its transition. -/
def bodyCode (s : State) : List Instr :=
  (s.expressions.map fun e => .eval (im.expr e)) ++
    s.result.toList.map fun (x, e) => .assign x (im.expr e)

/-- The instructions of a state. -/
def stateCode (next : Option Nat) (id : Nat) : List Instr :=
  let s := im.graph.state id
  .label (.state id) :: (im.bodyCode s ++
    (s.transition.map (im.transitionCode next id)).getD [])

/-- The instructions of states that come one after the other. -/
def statesCode : List Nat → List Instr
  | [] => []
  | id :: ids => im.stateCode ids.head? id ++ statesCode ids

/-- What rendering shows about a state. -/
structure StateRendered (s : Nat) : Prop where
  builds : ∀ e ∈ (im.graph.state s).exprs, Builds im.resolve e
  leads : (im.graph.state s).transition.isSome = true
  inner : ∀ t, (im.graph.state s).transition = some t →
    ∀ q i, t.record? = some (q, i) → q ∈ im.regions

/-- The block of a region holds the instructions of its states. -/
structure Renders (r : Nat) : Prop where
  region : (im.block r).region = r
  table : (im.block r).table = table im.graph r
  instrs : (im.block r).instrs.toList = im.statesCode (im.graph.regionNodes r)
  exits : regionExitsOf im.graph r (im.block r).instrs.toList = .ok (im.exits r)
  states : ∀ s ∈ im.graph.regionNodes r, im.StateRendered s

/-- The program with the block of the top region. -/
def program : Program where
  name := im.graph.name
  kind := im.graph.kind
  params := im.graph.params
  vars := im.graph.ownVars
  entry := im.block Graph.top
  labels := (im.graph.labels.filter fun (_, b) => !(im.graph.state b.state).pruned).map
    fun (l, b) => (l, ⟨.state b.state, b.var⟩)
  resumePoints := im.graph.resumeStates.map Int.ofNat

/-- An image of which all regions are as they should be. -/
structure Faithful : Prop where
  top : Graph.top ∈ im.regions
  renders : ∀ r ∈ im.regions, im.Renders r

/-- What has been rendered belongs to an image. -/
structure Holds (r : Rendered) : Prop where
  blocks : ∀ q b, (q, b) ∈ r.blocks → q ∈ im.regions ∧ b = im.block q
  exits : ∀ q x, (q, x) ∈ r.exits → q ∈ im.regions ∧ x = im.exits q

end Image

/-! ## Expressions -/

section

variable {p : Place}

/-- An expression that was compiled is what it compiles to. -/
theorem Place.compile_eq_ok {e : Expr} {c : CompiledExpr} (h : p.compile e = .ok c) :
    c = compiled p.resolve e ∧ Builds p.resolve e := by
  obtain ⟨code, hcode, h⟩ := bind_eq_ok.1 h
  cases h
  refine ⟨?_, code, hcode⟩
  rw [compiled, hcode]
  rfl

/-- Expressions that were compiled are what they compile to. -/
theorem Place.compileAll_eq_ok : ∀ {es : List Expr} {cs : List CompiledExpr},
    p.compileAll es = .ok cs → cs = es.map (compiled p.resolve) ∧ ∀ e ∈ es, Builds p.resolve e
  | [], cs, h => by
    cases h
    exact ⟨rfl, by simp⟩
  | e :: es, cs, h => by
    obtain ⟨c, hc, h⟩ := bind_eq_ok.1 h
    obtain ⟨rest, hrest, h⟩ := bind_eq_ok.1 h
    cases h
    obtain ⟨rfl, hbuilds⟩ := compile_eq_ok hc
    obtain ⟨rfl, hall⟩ := compileAll_eq_ok hrest
    exact ⟨rfl, List.forall_mem_cons.2 ⟨hbuilds, hall⟩⟩

/-- The arms of a switch are rendered with what their tests compile to. -/
theorem renderArms_eq_ok : ∀ {arms : List SwitchArm} {cs : List (List CompiledExpr × Target)},
    renderArms p arms = .ok cs →
      cs = (arms.map fun a => (a.tests.map (compiled p.resolve), .state a.body)) ∧
        ∀ e ∈ arms.flatMap SwitchArm.tests, Builds p.resolve e
  | [], cs, h => by
    cases h
    exact ⟨rfl, by simp⟩
  | a :: arms, cs, h => by
    obtain ⟨c, hc, h⟩ := bind_eq_ok.1 h
    obtain ⟨rest, hrest, h⟩ := bind_eq_ok.1 h
    cases h
    obtain ⟨rfl, hbuilds⟩ := Place.compileAll_eq_ok hc
    obtain ⟨rfl, hall⟩ := renderArms_eq_ok hrest
    refine ⟨rfl, fun e he => ?_⟩
    rcases List.mem_append.1 he with he | he
    · exact hbuilds e he
    · exact hall e he

end

/-! ## States -/

section

variable {im : Image} {r : Rendered} {region : Nat} {next : Option Nat}

/-- What is found in a list of pairs is one of them. -/
theorem mem_of_lookup {α β : Type} [BEq α] [LawfulBEq α] {l : List (α × β)} {a : α} {b : β}
    (h : l.lookup a = some b) : (a, b) ∈ l := by
  obtain ⟨l₁, l₂, rfl, -⟩ := List.lookup_eq_some_iff.1 h
  simp

/-- The exits of a region are those that the image has. -/
theorem regionExits_ensures (hr : im.Holds r) (p : Place) (q : Nat) :
    Ensures (regionExits p q) r fun x r' => r' = r ∧ q ∈ im.regions ∧ x = im.exits q := by
  refine .bind (.get ?_)
  split
  · rename_i x hx
    obtain ⟨hq, rfl⟩ := hr.exits _ _ (mem_of_lookup hx)
    exact .pure ⟨rfl, hq, rfl⟩
  · exact .throw

/-- A region that is taken has been rendered before. -/
theorem takeRegion_ensures (hr : im.Holds r) (p : Place) (q : Nat) :
    Ensures (takeRegion p q) r fun x r' =>
      im.Holds r' ∧ q ∈ im.regions ∧ x = (im.block q, im.exits q) := by
  refine .bind (.get ?_)
  split
  · exact .throw
  · rename_i b hb
    obtain ⟨hq, rfl⟩ := hr.blocks _ _ (mem_of_lookup hb)
    refine .bind (.modify ?_)
    have hr' : im.Holds { r with blocks := r.blocks.filter (·.1 != q) } :=
      ⟨fun q b hb => hr.blocks q b (List.mem_of_mem_filter hb), hr.exits⟩
    refine .bind ((regionExits_ensures hr' p q).mono ?_)
    rintro x r' ⟨rfl, -, rfl⟩
    exact .pure ⟨hr', hq, rfl⟩

/-- A constant has code. -/
theorem builds_constant (resolve : Expr.Resolver) (v : Value) : Builds resolve (.constant v) :=
  ⟨_, rfl⟩

/-- A region is rendered as the image says. -/
theorem renderRegion_ensures (hr : im.Holds r) (source : Nat) (t : RegionEntry) :
    Ensures (renderRegion (im.place region next) source t) r fun code r' =>
      im.Holds r' ∧ t.region ∈ im.regions ∧
        code = im.transitionCode next source (.tryCatch t) := by
  refine .bind (.lift fun reset hreset => ?_)
  obtain ⟨rfl, -⟩ := Place.compile_eq_ok hreset
  refine .bind ((takeRegion_ensures hr _ t.region).mono ?_)
  rintro ⟨b, x⟩ r' ⟨hr', hq, heq⟩
  cases heq
  exact .pure ⟨hr', hq, rfl⟩

/-- A transition is rendered as the image says. -/
theorem renderTransition_ensures (hr : im.Holds r) (source : Nat) (t : Transition) :
    Ensures (renderTransition (im.place region next) source t) r fun code r' =>
      im.Holds r' ∧ code = im.transitionCode next source t ∧
        (∀ e ∈ t.exprs, Builds im.resolve e) ∧
        ∀ q i, t.record? = some (q, i) → q ∈ im.regions := by
  cases t with
  | goto | loop | awaitResult | yieldBreak => exact .pure ⟨hr, rfl, nofun, nofun⟩
  | conditional test ifTrue ifFalse =>
    refine .bind (.lift fun c hc => ?_)
    obtain ⟨rfl, hbuilds⟩ := Place.compile_eq_ok hc
    exact .pure ⟨hr, rfl, List.forall_mem_singleton.2 hbuilds, nofun⟩
  | switch value arms fallback =>
    refine .bind (.lift fun c hc => ?_)
    obtain ⟨rfl, hbuilds⟩ := Place.compile_eq_ok hc
    refine .bind (.lift fun cs hcs => ?_)
    obtain ⟨rfl, hall⟩ := renderArms_eq_ok hcs
    exact .pure ⟨hr, rfl, List.forall_mem_cons.2 ⟨hbuilds, hall⟩, nofun⟩
  | tryCatch t =>
    refine (renderRegion_ensures hr source t).mono ?_
    rintro code r' ⟨hr', hq, rfl⟩
    refine ⟨hr', rfl, nofun, fun q i hrecord => ?_⟩
    cases hrecord
    exact hq
  | cleanupExit e =>
    refine .bind ((regionExits_ensures hr _ e.region).mono ?_)
    rintro x r' ⟨rfl, hq, rfl⟩
    refine .pure ⟨hr, rfl, nofun, fun q i hrecord => ?_⟩
    cases hrecord
    exact hq
  | await a =>
    refine .bind (.lift fun c hc => ?_)
    obtain ⟨rfl, hbuilds⟩ := Place.compile_eq_ok hc
    exact .pure ⟨hr, rfl, List.forall_mem_singleton.2 hbuilds, nofun⟩
  | yieldReturn value resume =>
    refine .bind (.lift fun c hc => ?_)
    obtain ⟨rfl, hbuilds⟩ := Place.compile_eq_ok hc
    exact .pure ⟨hr, rfl, List.forall_mem_singleton.2 hbuilds, nofun⟩
  | finish value =>
    cases value with
    | none => exact .pure ⟨hr, rfl, nofun, nofun⟩
    | some value =>
      refine .bind (.lift fun c hc => ?_)
      obtain ⟨rfl, hbuilds⟩ := Place.compile_eq_ok hc
      exact .pure ⟨hr, rfl, List.forall_mem_singleton.2 hbuilds, nofun⟩

/-- With its result, whichever it has, a state goes on to its transition. -/
theorem renderRest_ensures (hr : im.Holds r) {id : Nat} {s : State} (hs : im.graph.state id = s)
    (hbuilds : ∀ e ∈ s.expressions, Builds im.resolve e)
    (hbuilds' : ∀ e ∈ s.result.toList.map Prod.snd, Builds im.resolve e) {code : List Instr}
    (hcode : code = s.result.toList.map (fun (x, e) => .assign x (im.expr e))) :
    Ensures (match s.transition with
      | none => throw (.danglingTarget (stateText id) "<no transition>")
      | some t => do
        let rest ← renderTransition (im.place region next) id t
        return .label (.state id) ::
          ((s.expressions.map (compiled im.resolve)).map Instr.eval ++ code ++ rest) :
      Assemble (List Instr)) r fun code r' =>
        im.Holds r' ∧ code = im.stateCode next id ∧ im.StateRendered id := by
  split
  · exact .throw
  · rename_i t ht
    refine .bind ((renderTransition_ensures hr id t).mono ?_)
    rintro rest r' ⟨hr', rfl, hexprs, hinner⟩
    refine .pure ⟨hr', ?_, ?_, ?_, ?_⟩
    · simp only [Image.stateCode, Image.bodyCode, hs, ht, hcode, List.map_map]
      rfl
    · intro e he
      rw [hs, State.exprs, ht] at he
      rcases List.mem_append.1 he with he | he
      · exact (List.mem_append.1 he).elim (hbuilds e) (hbuilds' e)
      · exact hexprs e he
    · rw [hs, ht]
      rfl
    · intro t' ht'
      rw [hs, ht] at ht'
      cases ht'
      exact hinner

/-- A state is rendered as the image says. -/
theorem renderState_ensures (hr : im.Holds r) (id : Nat) :
    Ensures (renderState (im.place region next) id (im.graph.state id)) r fun code r' =>
      im.Holds r' ∧ code = im.stateCode next id ∧ im.StateRendered id := by
  generalize hs : im.graph.state id = s
  refine .bind (.lift fun evals hevals => ?_)
  obtain ⟨rfl, hbuilds⟩ := Place.compileAll_eq_ok hevals
  cases hresult : s.result with
  | none => exact renderRest_ensures hr hs hbuilds (by simp [hresult]) (by rw [hresult]; rfl)
  | some xe =>
    refine .bind (.lift fun c hc => ?_)
    obtain ⟨rfl, hbuilds'⟩ := Place.compile_eq_ok hc
    refine renderRest_ensures hr hs hbuilds ?_ (by rw [hresult]; rfl)
    rw [hresult]
    exact List.forall_mem_singleton.2 hbuilds'

/-- States are rendered as the image says, one after the other. -/
theorem renderStates_ensures : ∀ (ids : List Nat) {r : Rendered}, im.Holds r →
    Ensures (renderStates im.graph im.resolve region im.elide ids) r fun code r' =>
      im.Holds r' ∧ code = im.statesCode ids ∧ ∀ s ∈ ids, im.StateRendered s
  | [], r, hr => .pure ⟨hr, rfl, nofun⟩
  | id :: ids, r, hr => by
    refine .bind ((renderState_ensures hr id).mono ?_)
    rintro code r₁ ⟨hr₁, rfl, hs⟩
    refine .bind ((renderStates_ensures ids hr₁).mono ?_)
    rintro rest r₂ ⟨hr₂, rfl, hrest⟩
    exact .pure ⟨hr₂, rfl, List.forall_mem_cons.2 ⟨hs, hrest⟩⟩

end

/-! ## Regions -/

namespace Image

/-- An image with one more region. -/
def add (im : Image) (r : Nat) (b : Block) (x : List RegionExit) : Image where
  graph := im.graph
  resolve := im.resolve
  elide := im.elide
  regions := r :: im.regions
  block := Function.update im.block r b
  exits := Function.update im.exits r x

variable {im : Image} {r : Nat} {b : Block} {x : List RegionExit}

/-- A region that is added has the block that is added. -/
@[simp] theorem block_add_self : (im.add r b x).block r = b := by simp [add]

/-- A region that is added has the exits that are added. -/
@[simp] theorem exits_add_self : (im.add r b x).exits r = x := by simp [add]

/-- The other regions keep their blocks. -/
theorem block_add_of_ne {q : Nat} (hq : q ≠ r) : (im.add r b x).block q = im.block q := by
  simp [add, hq]

/-- The other regions keep their exits. -/
theorem exits_add_of_ne {q : Nat} (hq : q ≠ r) : (im.add r b x).exits q = im.exits q := by
  simp [add, hq]

/-- One more region does not change the instructions of a state that does not enter or leave it. -/
theorem transitionCode_add {t : Transition} (hr : ∀ q i, t.record? = some (q, i) → q ≠ r)
    (next : Option Nat) (source : Nat) :
    (im.add r b x).transitionCode next source t = im.transitionCode next source t := by
  cases t with
  | tryCatch t =>
    have hq : t.region ≠ r := hr _ _ rfl
    simp only [transitionCode, tryRegion, afterRegion, exitCases, block_add_of_ne hq,
      exits_add_of_ne hq]
    rfl
  | cleanupExit e =>
    have hq : e.region ≠ r := hr _ _ rfl
    simp only [transitionCode, exitCases, exits_add_of_ne hq]
  | _ => rfl

/-- States that were rendered stay so. -/
theorem StateRendered.add {s : Nat} (hs : im.StateRendered s) (r : Nat) (b : Block)
    (x : List RegionExit) : (im.add r b x).StateRendered s :=
  ⟨hs.builds, hs.leads, fun t ht q i hrecord => List.mem_cons_of_mem _ (hs.inner t ht q i hrecord)⟩

/-- Their code does not depend on regions that come later. -/
theorem statesCode_add (hr : r ∉ im.regions) : ∀ {ids : List Nat}, (∀ s ∈ ids, im.StateRendered s) →
    (im.add r b x).statesCode ids = im.statesCode ids
  | [], _ => rfl
  | s :: ids, hids => by
    obtain ⟨hs, hids⟩ := List.forall_mem_cons.1 hids
    have hstate : (im.add r b x).stateCode ids.head? s = im.stateCode ids.head? s := by
      cases ht : (im.graph.state s).transition with
      | none => simp only [stateCode, Image.add, ht]; rfl
      | some t =>
        have hne : ∀ q i, t.record? = some (q, i) → q ≠ r := fun q i hq h =>
          hr (h ▸ hs.inner t ht q i hq)
        have hcode : (im.add r b x).transitionCode ids.head? s t =
            im.transitionCode ids.head? s t := transitionCode_add hne ids.head? s
        simp only [stateCode, Image.add, ht] at hcode ⊢
        rw [Option.map_some, hcode]
        rfl
    rw [statesCode, statesCode, hstate, statesCode_add hr hids]

/-- The other regions stay as they are. -/
theorem Renders.add {q : Nat} (hq : im.Renders q) (hr : r ∉ im.regions) (hne : q ≠ r) :
    (im.add r b x).Renders q := by
  refine ⟨?_, ?_, ?_, ?_, fun s hs => (hq.states s hs).add r b x⟩
  · rw [block_add_of_ne hne]
    exact hq.region
  · rw [block_add_of_ne hne]
    exact hq.table
  · rw [block_add_of_ne hne, hq.instrs]
    exact (statesCode_add hr hq.states).symm
  · rw [block_add_of_ne hne, exits_add_of_ne hne]
    exact hq.exits

/-- What has been rendered of a graph: an image whose regions are as they should be. -/
structure Partial (im : Image) (r : Rendered) : Prop where
  holds : im.Holds r
  renders : ∀ q ∈ im.regions, im.Renders q

/-- An image of the same graph with more regions. -/
structure Continues (im : Image) (regions : List Nat) (im' : Image) : Prop where
  graph : im'.graph = im.graph
  resolve : im'.resolve = im.resolve
  elide : im'.elide = im.elide
  regions : ∀ q, q ∈ im'.regions ↔ q ∈ regions ∨ q ∈ im.regions

end Image

section

variable {im : Image} {r : Rendered}

/-- A region is rendered after all that it needs, and added to the image. -/
theorem render_ensures (h : im.Partial r) {region : Nat} (hnew : region ∉ im.regions) :
    Ensures (render im.graph im.resolve im.elide region) r fun _ r' =>
      ∃ b x, (im.add region b x).Partial r' := by
  refine .bind ((renderStates_ensures _ h.holds).mono ?_)
  rintro code r' ⟨hr', rfl, hstates⟩
  refine .bind (.lift fun x hx => ?_)
  -- the block and the exits of the region are added, and those of others do not change
  refine .modify ?_
  refine ⟨⟨region, table im.graph region, (im.statesCode (im.graph.regionNodes region)).toArray⟩, x,
    ⟨fun q b hb => ?_, fun q y hy => ?_⟩, fun q hq => ?_⟩
  · rcases List.mem_cons.1 hb with heq | hb
    · cases heq
      exact ⟨List.mem_cons_self, Image.block_add_self.symm⟩
    · obtain ⟨hq, rfl⟩ := hr'.blocks q b hb
      have hne : q ≠ region := fun heq => hnew (heq ▸ hq)
      exact ⟨List.mem_cons_of_mem _ hq, (Image.block_add_of_ne hne).symm⟩
  · rcases List.mem_cons.1 hy with heq | hy
    · cases heq
      exact ⟨List.mem_cons_self, Image.exits_add_self.symm⟩
    · obtain ⟨hq, rfl⟩ := hr'.exits q y hy
      have hne : q ≠ region := fun heq => hnew (heq ▸ hq)
      exact ⟨List.mem_cons_of_mem _ hq, (Image.exits_add_of_ne hne).symm⟩
  -- a region is rendered as the image before it says, since it is not part of itself
  · by_cases hne : q = region
    · subst hne
      have hcode := Image.statesCode_add (b := ⟨q, table im.graph q,
        (im.statesCode (im.graph.regionNodes q)).toArray⟩) (x := x) hnew hstates
      refine ⟨?_, ?_, ?_, ?_, fun s hs => (hstates s hs).add q _ x⟩
      · rw [Image.block_add_self]
      · rw [Image.block_add_self]
        rfl
      · rw [Image.block_add_self]
        exact hcode.symm
      · rw [Image.block_add_self, Image.exits_add_self]
        exact hx
    · exact (h.renders q ((List.mem_cons.1 hq).resolve_left hne)).add hnew hne

/-- Regions are rendered in turn: by induction on the schedule. -/
theorem renderAll_ensures : ∀ (regions : List Nat) {im : Image} {r : Rendered}, im.Partial r →
    regions.Nodup → (∀ q ∈ regions, q ∉ im.regions) →
    Ensures (renderAll im.graph im.resolve im.elide regions) r fun _ r' =>
      ∃ im', im.Continues regions im' ∧ im'.Partial r'
  | [], im, r, h, _, _ => .pure ⟨im, ⟨rfl, rfl, rfl, fun _ => by simp⟩, h⟩
  | q :: regions, im, r, h, hnodup, hnew => by
    obtain ⟨hq, hnodup⟩ := List.nodup_cons.1 hnodup
    obtain ⟨hqnew, hnew⟩ := List.forall_mem_cons.1 hnew
    refine .bind ((render_ensures h hqnew).mono ?_)
    rintro ⟨⟩ r₁ ⟨b, x, h₁⟩
    have hfresh : ∀ q' ∈ regions, q' ∉ (im.add q b x).regions := by
      intro q' hq' hmem
      rcases List.mem_cons.1 hmem with rfl | hmem
      · exact hq hq'
      · exact hnew q' hq' hmem
    refine (renderAll_ensures regions h₁ hnodup hfresh).mono ?_
    rintro ⟨⟩ r₂ ⟨im', hc, h₂⟩
    refine ⟨im', ⟨hc.graph, hc.resolve, hc.elide, fun p => ?_⟩, h₂⟩
    rw [hc.regions, Image.add, List.mem_cons, List.mem_cons]
    tauto

/-- No region is rendered twice. -/
theorem nodup_schedule (g : Graph) : (schedule g).Nodup := by
  refine (List.mergeSort_perm _ _).nodup_iff.2 ?_
  exact (List.nodup_range.filter _).filter _

/-- The program of a graph is that of a faithful image of it, with the regions that are entered. -/
theorem assemble_image {g : Graph} {resolve : Expr.Resolver} {o : Options} {program : Program}
    (h : g.assemble resolve o = .ok program) :
    ∃ im : Image, im.graph = g ∧ im.resolve = resolve ∧ im.elide = o.fallthroughElision ∧
      (∀ q, q ∈ im.regions ↔ q ∈ schedule g) ∧ im.Faithful ∧ program = im.program := by
  obtain ⟨⟨⟨⟩, rendered⟩, hrun, h⟩ := bind_eq_ok.1 h
  let im₀ : Image := ⟨g, resolve, o.fallthroughElision, [], fun _ => default, fun _ => []⟩
  have h₀ : im₀.Partial {} := ⟨⟨nofun, nofun⟩, nofun⟩
  obtain ⟨im, hc, him⟩ :=
    renderAll_ensures (schedule g) h₀ (nodup_schedule g) (fun _ _ => List.not_mem_nil) _ _ hrun
  refine ⟨im, hc.graph, hc.resolve, hc.elide, fun q => by simp [hc.regions, im₀], ?_⟩
  simp only at h
  split at h
  · cases h
  · rename_i entry hentry
    obtain ⟨htop, rfl⟩ := him.holds.blocks _ _ (mem_of_lookup hentry)
    refine ⟨⟨htop, him.renders⟩, ?_⟩
    obtain rfl : im.graph = g := hc.graph
    exact (Except.ok.inj h).symm

end

end Assembly

end Coroutine

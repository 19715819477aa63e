import Mathlib
import Coroutine.Proofs.Machine.Cleanups

/-!
# Jumps arrive

A jump that was routed to a node leaves the frames above the frame of this node one by one. There it
ends a loop, starts its body again, or goes down the blocks on its path to the statement after its
label: `Lands`. It gets that far by steps in which the host has no part (`Unaided`), unless a cleanup
has to run on the way.

A frame is recognized by its code and the number of its node, and a closure that calls itself has
frames alike further down. But what a jump leaves belongs to the same call as the frame that it comes
to (`Arrives`), so it does not go past it.
-/

namespace Coroutine

variable {σ : Type} {vars : List Var}

/-! ## Where jumps lead -/

/-- A step that comes out the same whatever the host does. -/
def Unaided (mode : LambdaKind) (a b : Context × World σ) : Prop :=
  ∀ env : Env σ, step env mode a.1 a.2 = (.ok (.running b.1), b.2)

/-- The depth of the chain in which the children of a block or a loop run. -/
def Frame.inside (f : Frame) : Nat :=
  match f.op with
  | .block vars => f.depth + if (!vars.isEmpty) = true then 1 else 0
  | _ => f.depth

/-- The context with the frames up to a block or a loop, and nothing left of what its children did. -/
def Context.backTo (c : Context) (f : Frame) (fs : List Frame) : Context :=
  { c with
    frames := f :: fs
    results := truncateResults c.results f.base
    scopes := c.scopes.truncate f.inside
    control := none }

/-- A block opens a scope of its own if it declares variables. They have no value yet. -/
inductive Opens (vars : List Var) (w : World σ) : Chain → World σ → Prop
  | nothing (empty : vars.isEmpty = true) : Opens vars w [] w
  | scope (empty : vars.isEmpty = false) :
      Opens vars w [w.scopes.size] (w.newScope (.ofVars vars)).2

/-- Where a jump to a label leads from the frame that it was routed to, which is the top one. -/
inductive Lands (label : Nat) (v : Value) :
    RouteKind → List Nat → Context → World σ → Context → World σ → Prop
  /-- The loop is gone, with the value of the jump as its result. -/
  | ends {path : List Nat} {c : Context} {w : World σ} {f : Frame} {fs : List Frame}
      (frames : c.frames = f :: fs) (op : f.op = .loop) :
      Lands label v .toBreak path c w { c with frames := fs, results := v :: c.results } w
  /-- The loop is about to start its body. -/
  | restarts {path : List Nat} {c : Context} {w : World σ} {f : Frame} {fs : List Frame}
      (frames : c.frames = f :: fs) (op : f.op = .loop) :
      Lands label v .toContinue path c w { c with frames := { f with phase := .iteration } :: fs } w
  /-- The block with the label is about to run the statement after it. -/
  | follows {c : Context} {w : World σ} {f : Frame} {fs : List Frame} {vars : List Var}
      {slot target : Nat} (frames : c.frames = f :: fs) (op : f.op = .block vars)
      (child : f.children[slot]? = some target) (site : (f.code.node target).op = .label label)
      (more : slot + 1 < f.children.length) :
      Lands label v .toLabel [slot] c w
        { c with frames := { f with phase := .statement (slot + 1) (!vars.isEmpty) } :: fs } w
  /-- The label is the last statement of its block, which is gone, with the value of the jump as its
  result. -/
  | completes {c : Context} {w : World σ} {f : Frame} {fs : List Frame} {vars : List Var}
      {slot target : Nat} (frames : c.frames = f :: fs) (op : f.op = .block vars)
      (child : f.children[slot]? = some target) (site : (f.code.node target).op = .label label)
      (last : slot + 1 = f.children.length) :
      Lands label v .toLabel [slot] c w
        { c with
          frames := fs
          results := v :: c.results
          scopes := c.scopes.truncate f.depth } w
  /-- The next block on the path is opened, with a new scope if it declares variables. -/
  | descends {c c' : Context} {w w₁ w' : World σ} {f : Frame} {fs : List Frame}
      {vars locals : List Var} {slot b : Nat} {path : List Nat} {ext : Chain}
      (frames : c.frames = f :: fs) (op : f.op = .block vars)
      (child : f.children[slot]? = some b) (block : (f.code.node b).op = .block locals)
      (opens : Opens locals w ext w₁)
      (rest : Lands label v .toLabel path
        { c with
          frames := ⟨f.code, b, .statement 0 (!locals.isEmpty), c.results.length, c.scopes.length,
            none⟩ :: { f with phase := .statementDone slot (!vars.isEmpty) } :: fs
          scopes := ext ++ c.scopes } w₁ c' w') :
      Lands label v .toLabel (slot :: path) c w c' w'

/-! ## Leaving frames -/

theorem truncateResults_truncateResults (rs : List Value) {m n : Nat} (h : n ≤ m) :
    truncateResults (truncateResults rs m) n = truncateResults rs n := by
  simp only [truncateResults, List.drop_drop, List.length_drop]
  congr 1
  omega

theorem truncateResults_self (rs : List Value) : truncateResults rs rs.length = rs := by
  simp [truncateResults]

theorem Chain.truncate_suffix (χ : Chain) (depth : Nat) : χ.truncate depth <:+ χ :=
  List.drop_suffix _ _

section

variable {mode : LambdaKind} {c : Context} {w : World σ} {f g : Frame} {fs gs : List Frame}
  {code : Code} {label a : Nat} {path : List Nat} {kind : RouteKind} {v : Value}

/-- A jump leaves a frame without a cleanup. -/
theorem Unaided.leave (hcontrol : c.control = some (.jump ⟨code, label, .within a path kind, v⟩))
    (hframes : c.frames = g :: gs) (hnode : g.node ≠ a) (hcleanup : g.pendingCleanup? = none) :
    Unaided mode (c, w) ({ c with
      frames := gs
      results := truncateResults c.results g.base
      scopes := g.saved.getD (c.scopes.truncate g.depth) }, w) := by
  intro env
  obtain ⟨scopes, results, frames, control, current, suspension⟩ := c
  subst hcontrol hframes
  simp only [step, unwind, Ne.symm hnode, false_and, if_false, Coroutine.leave, hcleanup]
  rfl

variable (mode) in
/-- A jump leaves the frames above the one that it was routed to. The chain is then the one inside
that frame. -/
theorem leaves_all {T : Terms} {pre : List Frame} (hstack : Stack T w (pre ++ f :: fs) c.scopes)
    (hframes : c.frames = pre ++ f :: fs)
    (hcontrol : c.control = some (.jump ⟨code, label, .within a path kind, v⟩))
    (hpre : ∀ g ∈ pre, g.node ≠ a ∧ g.phase ≠ .inClosure ∧ g.pendingCleanup? = none ∧
      f.base ≤ g.base) :
    ∃ rs χ, Relation.ReflTransGen (Unaided mode) (c, w)
        ({ c with frames := f :: fs, results := rs, scopes := χ }, w) ∧
      truncateResults rs f.base = truncateResults c.results f.base ∧
      Stack T w (f :: fs) χ ∧ χ <:+ c.scopes := by
  -- by induction on the frames above: each one is left in one step, and none starts a cleanup
  induction pre generalizing c with
  | nil =>
    obtain ⟨scopes, results, frames, control, current, suspension⟩ := c
    subst hframes
    exact ⟨results, scopes, .refl, rfl, hstack, List.suffix_rfl⟩
  | cons g pre ih =>
    obtain ⟨⟨hnode, hcall, hcleanup, hbase⟩, hpre⟩ := List.forall_mem_cons.1 hpre
    have hstep : Unaided mode (c, w) _ := .leave hcontrol hframes hnode hcleanup
    rw [List.cons_append] at hstack
    generalize hχ : c.scopes = χ at hstack
    cases hstack with
    | push below sound runs =>
      have hsaved := runs.saved_eq hcall
      have hpop := runs.pop sound.depth
      rw [← hχ] at hpop
      obtain ⟨rs, χ₀, hsteps, hresults, hstack, hsuffix⟩ := @ih { c with
        frames := pre ++ f :: fs
        results := truncateResults c.results g.base
        scopes := g.saved.getD (c.scopes.truncate g.depth) } (hpop ▸ below) rfl hcontrol hpre
      refine ⟨rs, χ₀, .head hstep hsteps, ?_, hstack, hχ ▸ hsuffix.trans ?_⟩
      · rw [hresults, truncateResults_truncateResults _ hbase]
      · rw [hsaved]
        exact c.scopes.truncate_suffix _

/-! ## Landing -/

/-- What a step does with a jump at the frame that it was routed to. -/
theorem Unaided.land {c' : Context} {w' : World σ}
    (hcontrol : c.control = some (.jump ⟨f.code, label, .within f.node path kind, v⟩))
    (hframes : c.frames = f :: fs)
    (hland : Coroutine.land mode f ⟨f.code, label, .within f.node path kind, v⟩ path kind
      { c with control := none } w = (.ok c', w')) : Unaided mode (c, w) (c', w') := by
  intro env
  obtain ⟨scopes, results, frames, control, current, suspension⟩ := c
  subst hcontrol hframes
  simp only [step, unwind, Code.same_self, and_self, if_true]
  rw [map_eq_pure_bind, exceptState_bind, hland]
  rfl

/-- A jump at its loop ends it, or starts its body again. -/
theorem lands_loop (hcontrol : c.control = some (.jump ⟨f.code, label, .within f.node path kind, v⟩))
    (hframes : c.frames = f :: fs) (hkind : kind = .toBreak ∨ kind = .toContinue)
    (hop : f.op = .loop) (hsaved : f.saved = none)
    (hphase : f.phase = .iteration ∨ f.phase = .iterationDone) :
    ∃ c', Unaided mode (c, w) (c', w) ∧ Lands label v kind path (c.backTo f fs) w c' w := by
  have hinside : f.inside = f.depth := by rw [Frame.inside, hop]
  rcases hkind with rfl | rfl
  · refine ⟨_, .land hcontrol hframes ?_, .ends rfl hop⟩
    rcases hphase with hphase | hphase
    all_goals
      simp only [Coroutine.land, hphase, Context.complete, Context.popFrame, hframes, hsaved,
        Context.push, Context.backTo, hinside]
      rfl
  · refine ⟨_, .land hcontrol hframes ?_, .restarts rfl hop⟩
    rcases hphase with hphase | hphase
    all_goals
      simp only [Coroutine.land, hphase, Context.reset, Context.setPhase, hframes,
        Context.backTo, hinside]
      rfl

variable (mode) in
/-- The frame with which a block starts. -/
theorem enter_block_eq {code : Code} {b : Nat} (hop : (code.node b).op = .block vars)
    (c : Context) (w : World σ) :
    ∃ ext w₁, Opens vars w ext w₁ ∧ enter mode code b c w =
      (.ok { c with
        frames := ⟨code, b, .statement 0 (!vars.isEmpty), c.results.length, c.scopes.length, none⟩
          :: c.frames
        scopes := ext ++ c.scopes }, w₁) := by
  cases hvars : vars.isEmpty with
  | true =>
    refine ⟨[], w, .nothing hvars, ?_⟩
    simp only [enter, hop, hvars, if_true, Op.firstPhase]
    rfl
  | false =>
    refine ⟨_, _, .scope hvars, ?_⟩
    simp only [enter, hop, hvars, Bool.false_eq_true, if_false, Op.firstPhase]
    rfl

theorem Opens.length {ext : Chain} {w₁ : World σ} (h : Opens vars w ext w₁) :
    ext.length = if (!vars.isEmpty) = true then 1 else 0 := by
  cases h with
  | nothing empty => rw [empty]; rfl
  | scope empty => rw [empty]; rfl

/-- There is nothing to take back from a frame that has just started. -/
theorem Context.backTo_transfer (hcontrol : c.control = none) (hframes : c.frames = f :: fs)
    (hbase : f.base = c.results.length) (hinside : f.inside = c.scopes.length) (t : Transfer) :
    (c.transfer t).backTo f fs = c := by
  obtain ⟨scopes, results, frames, control, current, suspension⟩ := c
  subst hcontrol hframes
  simp only [Context.backTo, Context.transfer, hbase, hinside, truncateResults_self,
    Chain.truncate_self]

/-- A jump at a block goes down the blocks on its path. -/
theorem lands_block {target : Nat}
    (hcontrol : c.control = some (.jump ⟨f.code, label, .within f.node path .toLabel, v⟩))
    (hframes : c.frames = f :: fs) (hleads : f.code.Leads f.node path target)
    (htarget : (f.code.node target).op = .label label) (hop : f.op = .block vars)
    (hsaved : f.saved = none) (hphase : ∃ i, f.phase = .statement i (!vars.isEmpty) ∨
      f.phase = .statementDone i (!vars.isEmpty)) :
    ∃ c' w', Relation.ReflTransGen (Unaided mode) (c, w) (c', w') ∧
      Lands label v .toLabel path (c.backTo f fs) w c' w' := by
  induction path generalizing c w f fs vars with
  | nil => cases hleads
  | cons slot path ih =>
    have hinside : f.inside = f.depth + if (!vars.isEmpty) = true then 1 else 0 := by
      rw [Frame.inside, hop]
    obtain ⟨i, hphase⟩ := hphase
    cases hleads with
    | last hblock hchild =>
      -- the label is a statement of this block: what follows it is next, or the block is done
      by_cases hmore : slot + 1 < f.children.length
      · refine ⟨_, w, .single (.land hcontrol hframes ?_), .follows rfl hop hchild htarget hmore⟩
        rcases hphase with hphase | hphase
        all_goals
          simp only [Coroutine.land, hphase, if_pos hmore, Context.setPhase, hframes,
            Context.backTo, hinside]
          rfl
      · have hlast : slot + 1 = f.children.length :=
          le_antisymm (List.getElem?_eq_some_iff.1 hchild).1 (Nat.not_lt.1 hmore)
        refine ⟨_, w, .single (.land hcontrol hframes ?_), .completes rfl hop hchild htarget hlast⟩
        have htwice := truncateResults_truncateResults c.results (le_refl f.base)
        rcases hphase with hphase | hphase
        all_goals
          simp only [Coroutine.land, hphase, if_neg hmore, Context.complete, Context.popFrame,
            hframes, hsaved, Context.push, Context.backTo, hinside, htwice]
          rfl
    | @down _ b _ _ _ hblock hchild hrest =>
      -- the label is further down: the block on the way is entered, and the jump goes on from there
      obtain ⟨locals, hb⟩ := hrest.block
      obtain ⟨first, rest, rfl⟩ : ∃ first rest, path = first :: rest := by
        cases hrest <;> exact ⟨_, _, rfl⟩
      let c₀ : Context := { c.backTo f fs with
        frames := { f with phase := .statementDone slot (!vars.isEmpty) } :: fs }
      let g : Frame := ⟨f.code, b, .statement 0 (!locals.isEmpty), c₀.results.length,
        c₀.scopes.length, none⟩
      obtain ⟨ext, w₁, hopens, henter⟩ := enter_block_eq mode hb c₀ w
      let c₁ : Context := { c₀ with frames := g :: c₀.frames, scopes := ext ++ c₀.scopes }
      let t : Transfer := .jump ⟨f.code, label, .within b (first :: rest) .toLabel, v⟩
      have hstep : Unaided mode (c, w) (c₁.transfer t, w₁) := .land hcontrol hframes (by
        rcases hphase with hphase | hphase
        all_goals
          simp only [Coroutine.land, hphase, Context.setPhase, hframes, ← hinside, child_eq_ok hchild]
          show (enter mode f.code b c₀ >>= fun c => pure (c.transfer t)) w = _
          rw [exceptState_bind, henter]
          rfl)
      obtain ⟨c', w', hsteps, hlands⟩ := ih (c := c₁.transfer t) (f := g) (w := w₁) rfl rfl hrest
        htarget hb rfl ⟨0, .inl rfl⟩
      have hback : (c₁.transfer t).backTo g c₀.frames = c₁ := by
        refine Context.backTo_transfer rfl rfl rfl ?_ t
        rw [Frame.inside, show g.op = .block locals from hb, List.length_append, hopens.length,
          Nat.add_comm]
      rw [hback] at hlands
      exact ⟨c', w', .head hstep hsteps, .descends rfl hop hchild hb hopens hlands⟩

end

/-! ## Arrival -/

/-- The frame that a jump was routed to, and those that it leaves. -/
theorem Arrives.split {code : Code} {label a : Nat} {path : List Nat} {kind : RouteKind}
    {fs : List Frame} (h : Arrives code label a path kind fs) :
    ∃ pre f rest, fs = pre ++ f :: rest ∧ f.code = code ∧ f.node = a ∧ f.Takes label path kind ∧
      ∀ g ∈ pre, g.code = code ∧ g.node ≠ a ∧ g.phase ≠ .inClosure := by
  induction fs with
  | nil => cases h
  | cons g fs ih =>
    obtain ⟨hcode, ⟨hnode, htakes⟩ | ⟨hnode, hcall, hbelow⟩⟩ := h
    · exact ⟨[], g, fs, rfl, hcode, hnode, htakes, nofun⟩
    · obtain ⟨pre, f, rest, rfl, hf, ha, htakes, hpre⟩ := ih hbelow
      refine ⟨g :: pre, f, rest, rfl, hf, ha, htakes, ?_⟩
      exact List.forall_mem_cons.2 ⟨⟨hcode, hnode, hcall⟩, hpre⟩

/-- A jump lands from the frame that it was routed to. -/
theorem Frame.Takes.lands {T : Terms} (mode : LambdaKind) {c : Context} {w : World σ} {f : Frame}
    {fs : List Frame} {label : Nat} {path : List Nat} {kind : RouteKind} {v : Value}
    (htakes : f.Takes label path kind) (hstack : Stack T w (f :: fs) c.scopes)
    (hcontrol : c.control = some (.jump ⟨f.code, label, .within f.node path kind, v⟩))
    (hframes : c.frames = f :: fs) :
    f.inside = c.scopes.length ∧ ∃ c' w', Relation.ReflTransGen (Unaided mode) (c, w) (c', w') ∧
      Lands label v kind path (c.backTo f fs) w c' w' := by
  generalize hχ : c.scopes = χ at hstack
  cases hstack with
  | push below sound runs =>
    match kind, htakes with
    | .toBreak, hop | .toContinue, hop =>
      obtain ⟨hsaved, rfl, hphase⟩ := runs.loop_phase hop
      obtain ⟨c', hstep, hlands⟩ := lands_loop hcontrol hframes (by simp) hop hsaved hphase
      refine ⟨?_, c', w, .single hstep, hlands⟩
      rw [Frame.inside, hop]
      exact sound.depth
    | .toLabel, ⟨target, hleads, htarget⟩ =>
      obtain ⟨vars, hop⟩ := hleads.block
      obtain ⟨hsaved, -, hscope, hphase⟩ := runs.block_phase hop
      refine ⟨?_, lands_block hcontrol hframes hleads htarget hop hsaved hphase⟩
      rw [Frame.inside, show f.op = .block vars from hop]
      rcases hscope with ⟨hvars, rfl⟩ | ⟨hvars, t, rfl⟩
      · simp [hvars, sound.depth]
      · simp [hvars, sound.depth]

/-- Landing leaves no transfer in flight and no scope changed. -/
theorem Lands.keeps {label : Nat} {v : Value} {kind : RouteKind} {path : List Nat} {c c' : Context}
    {w w' : World σ} (h : Lands label v kind path c w c' w') :
    c'.control = c.control ∧ ∀ s < w.scopes.size, w'.scope s = w.scope s := by
  induction h with
  | ends | restarts | follows | completes => exact ⟨rfl, fun s _ => rfl⟩
  | descends frames op child block opens rest ih =>
    refine ⟨ih.1, fun s hs => ?_⟩
    cases opens with
    | nothing empty => exact ih.2 s hs
    | scope empty =>
      rw [ih.2 s (by simpa [World.newScope] using Nat.lt_succ_of_lt hs)]
      simp [World.newScope, World.scope, Array.getD_eq_getD_getElem?, Array.getElem?_push, hs.ne]

namespace InterpretedMachine

/-- In every context that the runs of a prepared lambda go through, a jump that stays within its code
belongs to the same call as the frame that it was routed to, and unless a cleanup has to run on the
way, it lands from there, in finitely many steps and whatever the host does. All scopes that there
were keep their contents, and the chain is the one inside that frame, with a new scope for each block
that is entered. -/
theorem jumps_land {l : Lambda} {resolve : Expr.Resolver} {p : Prepared}
    (hp : l.prepare resolve = .ok p) {ground : Chain} {c : Context} {w : World σ}
    (hv : Visits p ground c w) {code : Code} {label a : Nat} {path : List Nat} {kind : RouteKind}
    {v : Value}
    (hcontrol : c.control = some (.jump ⟨code, label, .within a path kind, v⟩)) :
    ∃ pre f fs, c.frames = pre ++ f :: fs ∧ f.code = code ∧ f.node = a ∧
      (∀ g ∈ pre, g.code = f.code ∧ g.node ≠ a ∧ g.phase ≠ .inClosure) ∧
      ((∀ g ∈ pre, g.pendingCleanup? = none) →
        ∃ c' w', Relation.ReflTransGen (Unaided p.kind) (c, w) (c', w') ∧
          Lands label v kind path (c.backTo f fs) w c' w' ∧ c'.control = none ∧
          ∀ s < w.scopes.size, w'.scope s = w.scope s) := by
  obtain ⟨-, hsound, -⟩ := hv.sound hp
  have hbases := (hv.consistent hp).bases
  have hstack := hsound.stack
  have harrives : Arrives code label a path kind c.frames := hsound.control _ hcontrol
  obtain ⟨pre, f, fs, hframes, rfl, rfl, htakes, hpre⟩ := harrives.split
  refine ⟨pre, f, fs, hframes, rfl, rfl, hpre, fun hcleanups => ?_⟩
  rw [hframes] at hstack hbases
  -- first the frames above are left, then the jump lands
  obtain ⟨rs, χ, hsteps, hresults, hstack, hsuffix⟩ := leaves_all p.kind hstack hframes
    hcontrol fun g hg => ⟨(hpre g hg).2.1, (hpre g hg).2.2, hcleanups g hg,
      (List.pairwise_append.1 hbases).2.2 g hg f List.mem_cons_self⟩
  obtain ⟨hinside, c', w', hlanding, hlands⟩ := htakes.lands p.kind
    (c := { c with frames := f :: fs, results := rs, scopes := χ }) hstack hcontrol rfl
  have hback : ({ c with frames := f :: fs, results := rs, scopes := χ } : Context).backTo f fs =
      c.backTo f fs := by
    obtain ⟨ext, hext⟩ := hsuffix
    simp only [Context.backTo, hresults, hinside, Chain.truncate_self, ← hext,
      Chain.truncate_append]
  rw [hback] at hlands
  obtain ⟨hnone, hkeeps⟩ := hlands.keeps
  exact ⟨c', w', hsteps.trans hlanding, hlands, hnone, hkeeps⟩

/-- The jump that a context is about to make. -/
def jump? (c : Context) : Option Jump :=
  match c.control with
  | some (.jump j) => some j
  | _ => none

/-- Where a jump is found, control is on its way. -/
theorem control_of_jump? {c : Context} {j : Jump} (h : jump? c = some j) :
    c.control = some (.jump j) := by
  unfold jump? at h
  split at h
  · rename_i heq
    rw [heq, Option.some.inj h]
  · cases h

/-- Jumps over a statement to a label inside a block with a variable. -/
def leap : Lambda where
  name := none
  kind := .sync
  params := []
  body := .block [] [
    .goto .toLabel ⟨1, none⟩ (some (.constant (.int 5))),
    .block [⟨0, "x"⟩] [.unit, .label ⟨1, none⟩ none, .var ⟨0, "x"⟩]]

/-- After three steps the jump is on its way to the second statement of the second statement. The block
there is entered with a new scope and goes on after the label. -/
theorem leap_lands : ∃ p ground c code, ∃ w : World Unit, ∃ f fs c' w',
    leap.prepare .tasks = .ok p ∧ Visits p ground c w ∧
    c.control = some (.jump ⟨code, 1, .within Code.root [1, 1] .toLabel, .int 5⟩) ∧
    Relation.ReflTransGen (Unaided p.kind) (c, w) (c', w') ∧
    Lands 1 (.int 5) .toLabel [1, 1] (c.backTo f fs) w c' w' := by
  have hrun : ((leap.prepare .tasks).toOption.bind fun p =>
      (InterpretedMachine.new p none [] World.pending).toOption.bind fun (m, w) =>
        let (r, w₁) := enter p.kind p.code Code.root m.context w
        r.toOption.bind fun c =>
          (next? Env.bare p.kind c w₁).bind fun (c₁, w₂) =>
            (next? Env.bare p.kind c₁ w₂).bind fun (c₂, w₃) =>
              (next? Env.bare p.kind c₂ w₃).map fun (c₃, _) =>
                ((jump? c₃).map fun j => (j.label, j.route, j.value),
                  c₃.frames.map Frame.pendingCleanup?)) =
      some (some (1, .within Code.root [1, 1] .toLabel, .int 5), [none, none]) := by
    cbv
  obtain ⟨p, hp, hrun⟩ := bind_toOption_eq_some hrun
  obtain ⟨⟨m, w⟩, hnew, hrun⟩ := bind_toOption_eq_some hrun
  obtain ⟨c, hc, hrun⟩ := bind_toOption_eq_some hrun
  obtain ⟨⟨c₁, w₂⟩, hc₁, hrun⟩ := Option.bind_eq_some_iff.1 hrun
  obtain ⟨⟨c₂, w₃⟩, hc₂, hrun⟩ := Option.bind_eq_some_iff.1 hrun
  obtain ⟨⟨c₃, w₄⟩, hc₃, heq⟩ := Option.map_eq_some_iff.1 hrun
  simp only [Prod.mk.injEq] at heq
  obtain ⟨hjump, hcleanups⟩ := heq
  obtain ⟨code, hcontrol⟩ : ∃ code, c₃.control =
      some (.jump ⟨code, 1, .within Code.root [1, 1] .toLabel, .int 5⟩) := by
    obtain ⟨⟨code, label, route, value⟩, hj, heq⟩ := Option.map_eq_some_iff.1 hjump
    cases heq
    exact ⟨code, control_of_jump? hj⟩
  have hvisits : Visits p m.context.scopes c (enter p.kind p.code Code.root m.context w).2 :=
    .start (s := m.context.suspension) (.of_empty rfl) hnew rfl (fun h => .refl h)
      (Prod.ext hc rfl)
  have hvisits : Visits p m.context.scopes c₃ w₄ :=
    ((hvisits.move (moves_of_next? Env.bare_tame hc₁)).move (moves_of_next? Env.bare_tame hc₂)).move
      (moves_of_next? Env.bare_tame hc₃)
  obtain ⟨pre, f, fs, hframes, -, -, -, hlands⟩ := jumps_land hp hvisits hcontrol
  obtain ⟨c', w', hsteps, hlands, -⟩ := hlands fun g hg => by
    have hmem : g.pendingCleanup? ∈ c₃.frames.map Frame.pendingCleanup? :=
      List.mem_map_of_mem (hframes ▸ List.mem_append_left _ hg)
    simpa [hcleanups] using hmem
  exact ⟨p, _, c₃, code, w₄, f, fs, c', w', hp, hvisits, hcontrol, hsteps, hlands⟩

end InterpretedMachine

end Coroutine

import Mathlib
import Coroutine.Proofs.Machine.Fuel
import Coroutine.Proofs.Machine.Abreast

/-!
# Runs of two variants

A run of one variant is followed by a run of the other. Where the first one passes a no-op the second
one waits, and before the first one does something the second one catches up by passing its own no-ops
(`Variant.catchUp`). By induction on the first run, the second one ends in the same way
(`Variant.run_couples`).
-/

namespace Coroutine

open Assembly

variable {σ : Type} {env : Env σ} {m : CompiledMachine} {p p' : Position} {s : Durable × World σ}
  {x : Except RunError Flow × (Durable × World σ)}

/-! ## Runs without a limit -/

namespace CompiledMachine

variable {i : Instr} {s' : Durable × World σ} {fuel : Nat}

/-- A run ends. -/
def Yields (env : Env σ) (m : CompiledMachine) (p : Position) (s : Durable × World σ)
    (x : Except RunError Flow × (Durable × World σ)) : Prop :=
  ∃ fuel, ∀ steps, m.runFrom env fuel steps p s = some x

/-- What one step comes to, and what the run comes to from there. -/
def Continues (env : Env σ) (m : CompiledMachine) (fuel steps : Nat) :
    Except RunError (Position ⊕ Flow) → Durable × World σ →
      Except RunError Flow × (Durable × World σ) → Prop
  | .ok (.inl p), s, x => m.runFrom env fuel steps p s = some x
  | .ok (.inr f), s, x => x = (.ok f, s)
  | .error e, s, x => x = (.error e, s)

theorem runFrom_succ (hlimit : m.limit = none) (hi : p.block.instrs[p.pc]? = some i)
    {steps : Nat} : m.runFrom env (fuel + 1) steps p s = some x ↔
      ∃ res s', m.stepAt env fuel p i s = some (res, s') ∧
        Continues env m fuel (steps + 1) res s' x := by
  have hno : limitReached m.limit steps = false := by rw [hlimit]; rfl
  rw [runFrom]
  simp only [hi, hno, Bool.false_eq_true, if_false]
  rw [Exec.bind_eq]
  rcases m.stepAt env fuel p i s with _ | ⟨_ | _ | _, s'⟩
  · simp
  all_goals
    constructor
    · intro h
      refine ⟨_, _, rfl, ?_⟩
      first
        | exact h
        | exact (Option.some.inj h).symm
    · rintro ⟨res, s', hres, h⟩
      cases hres
      first
        | exact h
        | exact congrArg some (Eq.symm h)

/-- A run that ends after one more step. -/
theorem Yields.step (hlimit : m.limit = none) (hi : p.block.instrs[p.pc]? = some i)
    (hstep : m.stepAt env fuel p i s = some (.ok (.inl p'), s')) (h : Yields env m p' s' x) :
    Yields env m p s x := by
  obtain ⟨fuel', hrun⟩ := h
  have hstep' := stepAt_le env (le_max_left fuel fuel') m p i _ _ hstep
  exact ⟨max fuel fuel' + 1, fun steps => (runFrom_succ hlimit hi).2
    ⟨_, _, hstep', runFrom_le env (le_max_right _ _) m _ p' _ _ (hrun _)⟩⟩

theorem Yields.stop (hlimit : m.limit = none) (hi : p.block.instrs[p.pc]? = some i) {f : Flow}
    (hstep : m.stepAt env fuel p i s = some (.ok (.inr f), s')) :
    Yields env m p s (.ok f, s') :=
  ⟨fuel + 1, fun _ => (runFrom_succ hlimit hi).2 ⟨_, _, hstep, rfl⟩⟩

theorem Yields.fail (hlimit : m.limit = none) (hi : p.block.instrs[p.pc]? = some i) {e : RunError}
    (hstep : m.stepAt env fuel p i s = some (.error e, s')) :
    Yields env m p s (.error e, s') :=
  ⟨fuel + 1, fun _ => (runFrom_succ hlimit hi).2 ⟨_, _, hstep, rfl⟩⟩

end CompiledMachine

/-! ## No-ops -/

namespace Variant

open CompiledMachine

variable {g : Graph} {n : Nat} {resolve : Expr.Resolver} {v v' : Variant g n resolve}
  {k r c : Nat} {m' : CompiledMachine}

theorem Stands.move (h : v.Stands r p) (pc : Nat) : v.Stands r { p with pc } :=
  ⟨h.mem, h.block, h.nested⟩

theorem Stands.region_of_atLabel (hs : v.Stands r p) {pc : Nat} (h : v.image.AtLabel r pc c) :
    (g.state c).region = r :=
  ((v.mem_regionNodes hs.entered).1 (hs.renders.mem_of_atLabel h)).2

variable (env m s) in
/-- A jump to a state of the region leads to its label. -/
theorem stepAt_goto (hs : v.Stands r p) (hc : (g.state c).region = r)
    (hi : (v.image.block r).instrs[p.pc]? = some (.goto (.state c))) :
    ∃ pc, v.image.AtLabel r pc c ∧
      ∀ fuel, m.stepAt env fuel p (.goto (.state c)) s = some (.ok (.inl { p with pc }), s) := by
  have hreach : v.image.Reaches r (.state c) :=
    hs.renders.reaches_target (Block.mem_of_getElem? hi) List.mem_cons_self
  obtain ⟨pc, hpos⟩ := Option.isSome_iff_exists.1 ((v.isSome_position? hs.entered hreach).2 hc)
  refine ⟨pc, hs.renders.atLabel (Block.getElem?_of_position? hpos), fun fuel => ?_⟩
  exact stepAt_jump rfl (by rw [hs.block]; exact hpos)

/-- A no-op leads to where it goes on to. -/
theorem Stands.pass (hs : v.Stands r p) (h : v.image.AtLabel r p.pc c) {d : Nat}
    (hd : g.bypass? c = some d) : p.block.instrs[p.pc]? = some (.label (.state c)) ∧
      v.image.Bound r (p.pc + 1) (v.renames d) := by
  obtain ⟨hi, y, hy, hface⟩ := hs.renders.facing_of_atLabel h
  refine ⟨by rw [hs.block]; exact hi, ?_⟩
  obtain ⟨hexprs, hresult, htrans, -⟩ := Graph.bypass?_eq_some hd
  have hlive := ((v.mem_regionNodes hs.entered).1 (hs.renders.mem_of_atLabel h)).1
  obtain rfl : y = .goto (v.renames d) := by
    rw [v.reduces.transition c hlive, htrans] at hy
    exact (Option.some.inj hy).symm
  have hbody : v.image.bodyCode (v.image.graph.state c) = [] := by
    rw [Image.bodyCode, v.reduces.expressions c hlive, v.reduces.result c hlive, hexprs, hresult]
    rfl
  rw [hbody] at hface
  exact hface.bound

section

variable (env s) (hlimit : m.limit = none)
include hlimit

/-- From where control is bound for a state of the region it comes to the state's label. -/
theorem arrive (hs : v.Stands r p) (hc : (g.state c).region = r) (h : v.image.Bound r p.pc c) :
    ∃ pc, v.image.AtLabel r pc c ∧ ∀ x, Yields env m { p with pc } s x → Yields env m p s x := by
  rcases h with hi | hlabel
  · obtain ⟨pc, hpc, hstep⟩ := stepAt_goto env m s hs hc hi
    exact ⟨pc, hpc, fun x => .step hlimit (by rw [hs.block]; exact hi) (hstep 0)⟩
  · exact ⟨p.pc, hlabel, fun x hx => hx⟩

/-- By passing no-ops control comes to the state at which they end. -/
theorem catchUp (hpassed : Graph.Passed g g.remap c) : ∀ {p : Position}, v.Stands r p →
    (g.state c).region = r → v.image.Bound r p.pc c →
      ∃ pc, v.image.AtLabel r pc (g.remap c) ∧
        ∀ x, Yields env m { p with pc } s x → Yields env m p s x := by
  induction hpassed with
  | here hend =>
    intro p hs hc h
    rw [hend]
    exact arrive env s hlimit hs hc h
  | @step c d hstep hend _ ih =>
    intro p hs hc h
    obtain ⟨pc, hpc, hgo⟩ := arrive env s hlimit hs hc h
    obtain ⟨hi, hbound⟩ := (hs.move pc).pass hpc hstep
    have hd : (g.state d).region = r := (Graph.bypass?_eq_some hstep).2.2.2.2.1.trans hc
    have hs₁ := (hs.move pc).move (pc + 1)
    obtain ⟨pc', hpc', hgo'⟩ : ∃ pc', v.image.AtLabel r pc' (g.remap d) ∧ ∀ x,
        Yields env m { p with pc := pc' } s x → Yields env m { p with pc := pc + 1 } s x := by
      rcases v.near d with hnear | hnear
      · rw [hnear] at hbound
        exact ih hs₁ hd hbound
      · rw [hnear] at hbound
        exact arrive env s hlimit hs₁ ((Graph.passed_remap d).region.trans hd) hbound
    rw [← hend]
    have hlabel : m.stepAt env 0 { p with pc } (.label (.state c)) s =
        some (.ok (.inl { p with pc := pc + 1 }), s) := rfl
    exact ⟨pc', hpc', fun x hx => hgo x (.step hlimit hi hlabel (hgo' x hx))⟩

end

/-! ## Runs -/

/-- Both machines at the label of a state that is no no-op go on before instructions that are
alike. -/
theorem beside_of_label (hs : v.Stands r p) (hs' : v'.Stands r p') (h : v.image.AtLabel r p.pc c)
    (h' : v'.image.AtLabel r p'.pc c) : p.block.instrs[p.pc]? = some (.label (.state c)) ∧
      p'.block.instrs[p'.pc]? = some (.label (.state c)) ∧
      v.Beside v' k r (p.pc + 1) (p'.pc + 1) := by
  obtain ⟨hi, y, hy, hface⟩ := hs.renders.facing_of_atLabel h
  obtain ⟨hi', y', hy', hface'⟩ := hs'.renders.facing_of_atLabel h'
  refine ⟨by rw [hs.block]; exact hi, by rw [hs'.block]; exact hi', ?_⟩
  have hmem := hs.renders.mem_of_atLabel h
  have hmem' := hs'.renders.mem_of_atLabel h'
  -- both variants render one transition of the graph, each with its own references
  obtain ⟨z, hz, hyz⟩ := v.transition ((v.mem_regionNodes hs.entered).1 hmem).1
  obtain ⟨z', hz', hyz'⟩ := v'.transition ((v'.mem_regionNodes hs'.entered).1 hmem').1
  obtain rfl := Option.some.inj (hz.symm.trans hz')
  obtain rfl := Option.some.inj (hy.symm.trans hyz)
  obtain rfl := Option.some.inj (hy'.symm.trans hyz')
  have hsees {w : Variant g n resolve} {pc : Nat} {o : Option Nat} (hr : w.image.Renders r)
      (hface : w.image.Facing r pc (w.image.bodyCode (w.image.graph.state c) ++
        w.image.lead c (z.mapReferences w.renames)) o) :
      w.image.Sees r (w.image.lead c (z.mapReferences w.renames)) :=
    fun i hi => hface.sees hr i (List.mem_append_right _ hi)
  refine .of_facing hface hface' (code_alike hs.entered hs'.entered hmem hmem' hz
    (hsees hs.renders hface) (hsees hs'.renders hface')) ?_ fun ho => ?_
  -- control falls through to states with one end
  · have hmap (f : Nat → Nat) : (z.mapReferences f).fallthrough? = z.fallthrough?.map f := by
      cases z <;> rfl
    rw [hmap, hmap]
    cases z.fallthrough? with
    | none => exact .none
    | some d => exact .some (by rw [v.remap_renames, v'.remap_renames])
  · obtain ⟨j, hj, hcont⟩ := v.image.continues_lead c ho
    refine ⟨j, ?_, hcont⟩
    rw [List.getLast?_append, hj]
    rfl

/-- A run of one machine is followed by a run of the other, which ends in the same way. -/
theorem run_couples (henv : env.Overlooks (v.likeness v' k).reserve)
    (hm : m.program = v.image.program) (hm' : m'.program = v'.image.program)
    (hlimit : m.limit = none) (hlimit' : m'.limit = none) (fuel : Nat) :
    ∀ {steps : Nat} {p p' : Position} {a b a' : Durable × World σ}
      {res : Except RunError Flow}, (∃ q, v.image.Poised q p a.1 steps) → v.Abreast v' k p p' →
      (v.likeness v' k).Twins a b → m.runFrom env fuel steps p a = some (res, a') →
      ∃ res' b', Yields env m' p' b (res', b') ∧ (v.likeness v' k).Twins a' b' ∧
        Likeness.Agree (fun f f' => f' = f) res res' := by
  induction fuel with
  | zero =>
    intro steps p p' a b a' res _ _ _ hrun
    cases hrun
  | succ fuel ih =>
    rintro steps p p' a b a' res ⟨q₀, hpoised⟩ ⟨r, hs, hs', hbeside⟩ hab hrun
    -- wherever the first machine steps to, it is poised
    have hnext {i : Instr} (hi : p.block.instrs[p.pc]? = some i) {p₁ : Position}
        {a₁ : Durable × World σ} (hstep : m.stepAt env fuel p i a = some (.ok (.inl p₁), a₁)) :
        ∃ q, v.image.Poised q p₁ a₁.1 (steps + 1) :=
      (step_poised v.regular' v.faithful env fuel m hpoised hi a.2 _ _ hstep).1 p₁ rfl
    -- both machines step
    have hboth {i i' : Instr} (hi : p.block.instrs[p.pc]? = some i)
        (hi' : p'.block.instrs[p'.pc]? = some i') (hstep : ∀ res₁ a₁,
          m.stepAt env fuel p i a = some (res₁, a₁) → ∃ res₂ b₁,
            m'.stepAt env fuel p' i' b = some (res₂, b₁) ∧ (v.likeness v' k).Twins a₁ b₁ ∧
              Likeness.Agree (v.StepAlike v' k) res₁ res₂) :
        ∃ res' b', Yields env m' p' b (res', b') ∧ (v.likeness v' k).Twins a' b' ∧
          Likeness.Agree (fun f f' => f' = f) res res' := by
      obtain ⟨res₁, a₁, hstep₁, hcont⟩ := (runFrom_succ hlimit hi).1 hrun
      obtain ⟨res₂, b₁, hstep₂, hab₁, hagree⟩ := hstep res₁ a₁ hstep₁
      match res₁, res₂, hagree with
      | .error e, .error _, rfl =>
        cases hcont
        exact ⟨_, b₁, .fail hlimit' hi' hstep₂, hab₁, rfl⟩
      | .ok (.inr f), .ok (.inr _), rfl =>
        cases hcont
        exact ⟨_, b₁, .stop hlimit' hi' hstep₂, hab₁, rfl⟩
      | .ok (.inl p₁), .ok (.inl p₂), habreast =>
        obtain ⟨res', b', hyields, hab', hagree'⟩ := ih (hnext hi hstep₁) habreast hab₁ hcont
        exact ⟨res', b', .step hlimit' hi' hstep₂ hyields, hab', hagree'⟩
    -- the first machine steps and the second one waits
    have hwait {i : Instr} (hi : p.block.instrs[p.pc]? = some i) {pc : Nat}
        (hstep : m.stepAt env fuel p i a = some (.ok (.inl { p with pc }), a)) {c c' : Nat}
        (h : v.image.Bound r pc c) (h' : v'.image.Bound r p'.pc c')
        (heq : g.remap c = g.remap c') :
        ∃ res' b', Yields env m' p' b (res', b') ∧ (v.likeness v' k).Twins a' b' ∧
          Likeness.Agree (fun f f' => f' = f) res res' := by
      obtain ⟨res₁, a₁, hstep₁, hcont⟩ := (runFrom_succ hlimit hi).1 hrun
      rw [hstep] at hstep₁
      cases hstep₁
      exact ih (hnext hi hstep) ⟨r, hs.move pc, hs', .bound h h' heq⟩ hab hcont
    cases hbeside with
    | @facing i i' is is' o o' h h' hi his ho hends =>
      have hinstr : p.block.instrs[p.pc]? = some i := by rw [hs.block]; exact h.head
      refine hboth hinstr (by rw [hs'.block]; exact h'.head) fun res₁ a₁ hstep => ?_
      refine stepAt_couples henv hm hm' (hlimit'.trans hlimit.symm) hs hs' h h' hi his ho hends hab
        (fun R hR => ?_) hstep
      have hstored := hpoised.stored i hinstr
      rw [hR] at hstored
      exact hstored
    | @bound c c' h h' heq =>
      rcases h with hi | hlabel
      · have hinstr : p.block.instrs[p.pc]? = some (.goto (.state c)) := by rw [hs.block]; exact hi
        rcases h' with hi' | hlabel'
        · refine hboth hinstr (by rw [hs'.block]; exact hi') fun res₁ a₁ hstep => ?_
          have htarget : (v.linkage v' r).target (.state c) (.state c') :=
            ⟨⟨c, c', rfl, rfl, heq⟩,
              hs.renders.reaches_target (Block.mem_of_getElem? hi) List.mem_cons_self,
              hs'.renders.reaches_target (Block.mem_of_getElem? hi') List.mem_cons_self⟩
          exact jump_couples hs hs' htarget a b hab res₁ a₁ hstep
        · have hc : (g.state c).region = r :=
            (Graph.region_eq_of_remap heq.symm).trans (hs'.region_of_atLabel hlabel')
          obtain ⟨pc, hpc, hstep⟩ := stepAt_goto env m a hs hc hi
          exact hwait hinstr (hstep fuel) (.inr hpc) (.inr hlabel') heq
      · cases hd : g.bypass? c with
        | some d =>
          obtain ⟨hi, hbound⟩ := hs.pass hlabel hd
          refine hwait hi rfl hbound h' ?_
          rw [v.remap_renames, Graph.remap_of_bypass? hd, heq]
        | none =>
          have hc : g.remap c = c := by
            cases Graph.passed_remap (g := g) c with
            | here h => exact h
            | step hstep => rw [hd] at hstep; cases hstep
          have hregion := hs.region_of_atLabel hlabel
          have hregion' := (Graph.region_eq_of_remap heq).trans hregion
          obtain ⟨pc', hlabel', hgo⟩ :=
            catchUp env b hlimit' (Graph.passed_remap c') hs' hregion' h'
          rw [← heq, hc] at hlabel'
          obtain ⟨hi, hi', hbeside⟩ := beside_of_label (k := k) hs (hs'.move pc') hlabel hlabel'
          obtain ⟨res₁, a₁, hstep₁, hcont⟩ := (runFrom_succ hlimit hi).1 hrun
          cases hstep₁
          obtain ⟨res', b', hyields, hab', hagree⟩ := ih (hnext hi rfl)
            ⟨r, hs.move _, hs'.move _, hbeside⟩ hab hcont
          have hstep₂ : m'.stepAt env 0 { p' with pc := pc' } (.label (.state c)) b =
              some (.ok (.inl { p' with pc := pc' + 1 }), b) := rfl
          exact ⟨res', b', hgo _ (.step hlimit' hi' hstep₂ hyields), hab', hagree⟩

end Variant

end Coroutine

import Mathlib
import Coroutine.Proofs.Machine.Exec
import Coroutine.Proofs.Interpreter.Hiding

/-!
# Machines that do the same

Two machines whose programs differ in their targets are alike in what programs can see: they have the
same variables but for those in which regions record how they were left, and the records mean the same
(`Likeness.Twins`). A part of one machine's run is coupled with a part of the other's if both end in
the same way and keep the machines alike (`Likeness.Couples`). Instructions that differ in nothing but
their targets, the states they store and the codes they go by are coupled: `Likeness.exec_couples`.
-/

namespace Coroutine

open Assembly

variable {σ α β α' β' : Type}

/-- The code that a record stands for. -/
def Value.recorded (v : Value) : Int := (v.int?.map Int64.toInt).getD 0

/-- In what respect two machines are alike. -/
structure Likeness where
  /-- The variables of records, which may have different values. -/
  reserve : Reserve
  /-- What expressions can see. -/
  setting : Setting
  waits : setting.waits = false
  handling : setting.handling = false
  visible : ∀ i, setting.bound i → ¬reserve.held (word i)
  /-- States to resume at that correspond. -/
  stored : Int → Int → Prop
  /-- Values of a record that mean the same. -/
  record : Nat → Value → Value → Prop

namespace Likeness

variable (γ : Likeness)

/-- Two machines are alike. -/
structure Twins (a b : Durable × World σ) : Prop where
  scopes : a.1.scopes = [γ.reserve.scope]
  durable : b.1 = { a.1 with state := b.1.state }
  stored : γ.stored a.1.state b.1.state
  left : a.2.Confines γ.reserve
  right : b.2.Confines γ.reserve
  world : b.2.without γ.reserve = a.2.without γ.reserve
  sound : (a.2.without γ.reserve).Sound
  binds : (a.2.without γ.reserve).Binds [γ.reserve.scope] γ.setting
  records : ∀ i, γ.reserve.held i → ∃ u v, (a.2.scope γ.reserve.scope).get? i = some u ∧
    (b.2.scope γ.reserve.scope).get? i = some v ∧ γ.record i u v

variable {γ}

namespace Twins

variable {d d' : Durable} {w w' w₁ w₁' : World σ}

/-- The second machine runs in the same scope. -/
theorem scopes' {a b : Durable × World σ} (h : γ.Twins a b) : b.1.scopes = [γ.reserve.scope] := by
  rw [h.durable]
  exact h.scopes

/-- Both worlds go on alike, and keep their records. -/
theorem move (h : γ.Twins (d, w) (d', w')) (hs : w.Shields γ.reserve w₁)
    (hs' : w'.Shields γ.reserve w₁') (heq : w₁'.without γ.reserve = w₁.without γ.reserve)
    (hk : (w.without γ.reserve).Keeps (w₁.without γ.reserve)) : γ.Twins (d, w₁) (d', w₁') where
  scopes := h.scopes
  durable := h.durable
  stored := h.stored
  left := hs.confines
  right := hs'.confines
  world := heq
  sound := hk.sound
  binds := h.binds.grows hk.grows
  records i hi := by
    obtain ⟨u, v, hu, hv, hrecord⟩ := h.records i hi
    exact ⟨u, v, (hs.kept i hi).trans hu, (hs'.kept i hi).trans hv, hrecord⟩

/-- A variable in sight has the same value in both worlds. -/
theorem lookup (h : γ.Twins (d, w) (d', w')) {x : Var} (hx : γ.setting.bound x.id) :
    w'.lookup [γ.reserve.scope] x.word = w.lookup [γ.reserve.scope] x.word ∧
      (w.lookup [γ.reserve.scope] x.word).isSome = true := by
  have hvisible : ¬γ.reserve.held x.word := γ.visible x.id hx
  have hsame (w : World σ) : (w.without γ.reserve).lookup [γ.reserve.scope] x.word =
      w.lookup [γ.reserve.scope] x.word := by
    simp only [World.lookup, List.findSome?_cons, List.findSome?_nil,
      World.get?_without fun _ => hvisible]
  refine ⟨by rw [← hsame, h.world, hsame], ?_⟩
  rw [← hsame]
  exact World.isSome_lookup h.binds hx

/-- A variable in sight is assigned in both worlds. -/
theorem assign (h : γ.Twins (d, w) (d', w')) {x : Var} (hx : γ.setting.bound x.id) (u : Value) :
    γ.Twins (d, (w.assign [γ.reserve.scope] x.word u).2)
        (d', (w'.assign [γ.reserve.scope] x.word u).2) ∧
      (w.assign [γ.reserve.scope] x.word u).1 = true ∧
      (w'.assign [γ.reserve.scope] x.word u).1 = true := by
  have hends : γ.reserve.Ends [γ.reserve.scope] := by simp [Reserve.Ends]
  have htrue := World.assign_fst h.binds hx u
  have htrue' : ((w'.without γ.reserve).assign [γ.reserve.scope] x.word u).1 = true := by
    rw [h.world]
    exact htrue
  obtain ⟨heq, hs⟩ := (h.left.assign_without hends x.word u).resolve_left (by rw [htrue]; simp)
  obtain ⟨heq', hs'⟩ := (h.right.assign_without hends x.word u).resolve_left (by rw [htrue']; simp)
  have hk := h.sound.assign [γ.reserve.scope] x.word u
  rw [heq] at htrue hk
  refine ⟨h.move hs hs' ?_ hk, htrue, ?_⟩
  · rw [h.world, heq] at heq'
    exact (Prod.mk.inj heq').2.symm
  · rw [heq'] at htrue'
    exact htrue'

/-- Records that mean the same are made in both worlds. -/
theorem assign_record (h : γ.Twins (d, w) (d', w')) {i : Nat} (hi : γ.reserve.held i) {u v : Value}
    (hrecord : γ.record i u v) :
    γ.Twins (d, (w.assign [γ.reserve.scope] i u).2) (d', (w'.assign [γ.reserve.scope] i v).2) ∧
      (w.assign [γ.reserve.scope] i u).1 = true ∧ (w'.assign [γ.reserve.scope] i v).1 = true := by
  -- both machines have the record, so both assignments find it
  have hassign : ∀ {w : World σ} {u₀ : Value} (u : Value),
      (w.scope γ.reserve.scope).get? i = some u₀ →
      w.assign [γ.reserve.scope] i u = (true, w.modifyScope γ.reserve.scope (·.set i u)) := by
    intro w u₀ u hu₀
    simp [World.assign, World.holder?, Scope.contains, hu₀]
  have hget : ∀ {w : World σ} {u₀ u : Value}, (w.scope γ.reserve.scope).get? i = some u₀ →
      ∀ j, ((w.modifyScope γ.reserve.scope (·.set i u)).scope γ.reserve.scope).get? j =
        if j = i then some u else (w.scope γ.reserve.scope).get? j := by
    intro w u₀ u hu₀ j
    rw [World.scope_modifyScope w _ _ _ rfl, if_pos rfl, Scope.get?_set]
    split
    · rename_i hj
      rw [hj, hu₀]
      rfl
    · rfl
  obtain ⟨u₀, v₀, hu₀, hv₀, -⟩ := h.records i hi
  have hhidden := World.modifyScope_without_of_held (w := w) hi u
  have hhidden' := World.modifyScope_without_of_held (w := w') hi v
  have hleft := h.left.assign [γ.reserve.scope] i u
  have hright := h.right.assign [γ.reserve.scope] i v
  rw [hassign u hu₀] at hleft ⊢
  rw [hassign v hv₀] at hright ⊢
  refine ⟨⟨h.scopes, h.durable, h.stored, hleft, hright, ?_, ?_, ?_, fun j hj => ?_⟩, rfl, rfl⟩
  -- the record is hidden, so that nothing else shows the assignments
  · rw [hhidden, hhidden', h.world]
  · rw [hhidden]
    exact h.sound
  · rw [hhidden]
    exact h.binds
  · rw [hget hu₀, hget hv₀]
    by_cases heq : j = i
    · subst heq
      exact ⟨u, v, if_pos rfl, if_pos rfl, hrecord⟩
    · rw [if_neg heq, if_neg heq]
      exact h.records j hj

/-- What the host does to both worlds comes to the same. -/
theorem perform (h : γ.Twins (d, w) (d', w')) {e : Effect σ α} (he : e.Overlooks γ.reserve) :
    (e w').1 = (e w).1 ∧ γ.Twins (d, (e w).2) (d', (e w').2) := by
  have hsound' : (w'.without γ.reserve).Sound := h.world ▸ h.sound
  have hleft := he.without w h.left h.sound
  have hright := he.without w' h.right hsound'
  rw [h.world, hleft] at hright
  obtain ⟨hresult, hworld⟩ := Prod.mk.inj hright
  have hkeeps := he.keeps (w.without γ.reserve) h.sound
  rw [Effect.perform, hleft] at hkeeps
  exact ⟨hresult.symm, h.move (he.shields w h.left h.sound) (he.shields w' h.right hsound')
    hworld.symm hkeeps⟩

end Twins

/-! ## Coupled parts of a run -/

/-- Both parts end with related results, or with the same error. -/
def Agree (R : α → β → Prop) : Except RunError α → Except RunError β → Prop
  | .ok a, .ok b => R a b
  | .error e, .error e' => e = e'
  | _, _ => False

variable (γ) in
/-- Whenever the first part ends, the second one ends in the same way and the machines stay
alike. -/
def Couples (x : Exec σ α) (y : Exec σ β) (R : α → β → Prop) : Prop :=
  ∀ a b, γ.Twins a b → ∀ r a', x a = some (r, a') →
    ∃ r' b', y b = some (r', b') ∧ γ.Twins a' b' ∧ Agree R r r'

namespace Couples

variable {R : α → β → Prop}

/-- Equal values couple. -/
theorem pure {a : α} {b : β} (h : R a b) : γ.Couples (pure a : Exec σ α) (pure b) R := by
  intro s t hst r s' hx
  cases hx
  exact ⟨_, t, rfl, hst, h⟩

/-- Equal errors couple. -/
theorem throw (e : RunError) : γ.Couples (throw e : Exec σ α) (throw e) R := by
  intro s t hst r s' hx
  cases hx
  exact ⟨_, t, rfl, hst, rfl⟩

/-- Coupled parts couple one after the other. -/
theorem bind {x : Exec σ α} {y : Exec σ β} {f : α → Exec σ α'} {g : β → Exec σ β'}
    {Q : α' → β' → Prop} (h : γ.Couples x y R) (hfg : ∀ a b, R a b → γ.Couples (f a) (g b) Q) :
    γ.Couples (x >>= f) (y >>= g) Q := by
  intro s t hst r s' hx
  rw [Exec.bind_eq] at hx
  rcases hrun : x s with _ | ⟨r₁, s₁⟩
  · rw [hrun] at hx
    cases hx
  · obtain ⟨r₂, t₁, hy, hst₁, hagree⟩ := h s t hst r₁ s₁ hrun
    rw [hrun] at hx
    rw [Exec.bind_eq, hy]
    match r₁, r₂, hagree with
    | .ok a, .ok b, hab => exact hfg a b hab s₁ t₁ hst₁ r s' hx
    | .error e, .error _, rfl =>
      cases hx
      exact ⟨_, t₁, rfl, hst₁, rfl⟩

/-- Only what the machines are alike in is read of the durable state. -/
theorem durably_bind {f g : Durable → Exec σ α} {Q : α → α → Prop}
    (h : ∀ d d', d.scopes = [γ.reserve.scope] → d'.scopes = [γ.reserve.scope] →
      γ.Couples (f d) (g d') Q) :
    γ.Couples (CompiledMachine.durably >>= f) (CompiledMachine.durably >>= g) Q := by
  rintro ⟨d, w⟩ ⟨d', w'⟩ hst r s' hx
  exact h d d' hst.scopes hst.scopes' _ _ hst r s' hx

/-- Changes of the durable state couple if they agree but for the stored state. -/
theorem modifyDurable {f g : Durable → Durable} (h : ∀ d d', d' = { d with state := d'.state } →
      γ.stored d.state d'.state → (f d).scopes = d.scopes ∧
        g d' = { f d with state := (g d').state } ∧ γ.stored (f d).state (g d').state) :
    γ.Couples (CompiledMachine.modifyDurable f : Exec σ Unit) (CompiledMachine.modifyDurable g)
      fun _ _ => True := by
  rintro ⟨d, w⟩ ⟨d', w'⟩ hst r s' hx
  obtain ⟨hscopes, hdurable, hstored⟩ := h d d' hst.durable hst.stored
  cases hx
  exact ⟨_, _, rfl, { hst with
    scopes := hscopes.trans hst.scopes
    durable := hdurable
    stored := hstored }, trivial⟩

/-- A part of the run that leaves the state to resume at alone. -/
theorem modifyDurable_same {f : Durable → Durable}
    (h : ∀ d state, f { d with state } = { f d with state })
    (hscopes : ∀ d, (f d).scopes = d.scopes) :
    γ.Couples (CompiledMachine.modifyDurable f : Exec σ Unit) (CompiledMachine.modifyDurable f)
      fun _ _ => True := by
  refine .modifyDurable fun d d' hd hstored => ⟨hscopes d, ?_, ?_⟩
  · rw [hd, h]
  · have hstate : ∀ d, (f d).state = d.state := fun d => by
      have := congrArg Durable.state (h d d.state)
      exact this
    rw [hstate, hstate]
    exact hstored

/-- Calls of the host couple: the host overlooks what is hidden. -/
theorem perform {e : Effect σ α} (he : e.Overlooks γ.reserve) :
    γ.Couples (CompiledMachine.perform e) (CompiledMachine.perform e) fun a b => b = a := by
  rintro ⟨d, w⟩ ⟨d', w'⟩ hst r s' hx
  obtain ⟨hresult, htwins⟩ := hst.perform he
  simp only [CompiledMachine.perform] at hx ⊢
  rcases hrun : e w with ⟨r₁, w₁⟩
  rcases hrun' : e w' with ⟨r₂, w₂⟩
  rw [hrun, hrun'] at htwins hresult
  rw [hrun] at hx
  obtain rfl : r₂ = r₁ := hresult
  cases r₂ with
  | ok a =>
    cases hx
    exact ⟨_, _, rfl, htwins, rfl⟩
  | error x =>
    cases hx
    exact ⟨_, _, rfl, htwins, rfl⟩

/-- Reads of a variable that is not hidden couple. -/
theorem read {x : Var} (hx : γ.setting.bound x.id) :
    γ.Couples (CompiledMachine.read x : Exec σ Value) (CompiledMachine.read x)
      fun a b => b = a := by
  rintro ⟨d, w⟩ ⟨d', w'⟩ hst r s' hr
  obtain ⟨hsame, hsome⟩ := hst.lookup hx
  obtain ⟨v, hv⟩ := Option.isSome_iff_exists.1 hsome
  rw [← hst.scopes] at hv
  rw [CompiledMachine.read_eq hv] at hr
  cases hr
  have hv' : w'.lookup d'.scopes x.word = some v := by
    rw [hst.scopes', hsame, ← hst.scopes, hv]
  exact ⟨_, _, CompiledMachine.read_eq hv', hst, rfl⟩

/-- Reading a record gives values that mean the same. -/
theorem read_record {x : Var} (hx : γ.reserve.held x.word) :
    γ.Couples (CompiledMachine.read x : Exec σ Value) (CompiledMachine.read x)
      (γ.record x.word) := by
  rintro ⟨d, w⟩ ⟨d', w'⟩ hst r s' hr
  obtain ⟨u, v, hu, hv, hrecord⟩ := hst.records x.word hx
  have hfind : ∀ {d : Durable} {w : World σ} {u : Value}, d.scopes = [γ.reserve.scope] →
      (w.scope γ.reserve.scope).get? x.word = some u → w.lookup d.scopes x.word = some u := by
    intro d w u hd hu
    simp [World.lookup, hd, hu]
  rw [CompiledMachine.read_eq (hfind hst.scopes hu)] at hr
  cases hr
  exact ⟨_, _, CompiledMachine.read_eq (hfind hst.scopes' hv), hst, hrecord⟩

/-- Writes of a variable that is not hidden couple. -/
theorem write {x : Var} (hx : γ.setting.bound x.id) (u : Value) :
    γ.Couples (CompiledMachine.write x u : Exec σ Unit) (CompiledMachine.write x u)
      fun _ _ => True := by
  rintro ⟨d, w⟩ ⟨d', w'⟩ hst r s' hr
  obtain ⟨htwins, htrue, htrue'⟩ := hst.assign hx u
  rw [CompiledMachine.write_eq (by rw [hst.scopes]; exact htrue)] at hr
  cases hr
  refine ⟨_, _, CompiledMachine.write_eq (by rw [hst.scopes']; exact htrue'), ?_, trivial⟩
  rw [hst.scopes, hst.scopes']
  exact htwins

/-- Records that mean the same may be written. -/
theorem write_record {x : Var} (hx : γ.reserve.held x.word) {u v : Value}
    (hrecord : γ.record x.word u v) :
    γ.Couples (CompiledMachine.write x u : Exec σ Unit) (CompiledMachine.write x v)
      fun _ _ => True := by
  rintro ⟨d, w⟩ ⟨d', w'⟩ hst r s' hr
  obtain ⟨htwins, htrue, htrue'⟩ := hst.assign_record hx hrecord
  rw [CompiledMachine.write_eq (by rw [hst.scopes]; exact htrue)] at hr
  cases hr
  refine ⟨_, _, CompiledMachine.write_eq (by rw [hst.scopes']; exact htrue'), ?_, trivial⟩
  rw [hst.scopes, hst.scopes']
  exact htwins

/-- What the first part gives is known besides. -/
theorem ensures {x : Exec σ α} {y : Exec σ β} {P : α → Prop} (h : γ.Couples x y R)
    (hx : ∀ s, Exec.Ensures x s fun r _ => ∀ a, r = .ok a → P a) :
    γ.Couples x y fun a b => P a ∧ R a b := by
  intro s t hst r s' hr
  obtain ⟨r', t', hy, hst', hagree⟩ := h s t hst r s' hr
  refine ⟨r', t', hy, hst', ?_⟩
  match r, r', hagree with
  | .ok a, .ok b, hab => exact ⟨hx s _ _ hr a rfl, hab⟩
  | .error e, .error _, he => exact he

/-- Sound code has the same value in both worlds, or jumps to the same label. -/
theorem evaluate {env : Env σ} (henv : env.Overlooks γ.reserve) {limit : Option Nat} {fuel : Nat}
    {code : Code} {escapes : Nat → Prop} (hcode : code.Sound escapes γ.setting) :
    γ.Couples (fun (d, w) => (evaluate env limit fuel code [γ.reserve.scope] w).map
        fun (r, w) => (r, (d, w)) : Exec σ Evaluation)
      (fun (d, w) => (Coroutine.evaluate env limit fuel code [γ.reserve.scope] w).map
        fun (r, w) => (r, (d, w)))
      fun a b => b = a ∧ Evaluation.Allowed escapes a := by
  rintro ⟨d, w⟩ ⟨d', w'⟩ hst r s' hx
  obtain ⟨⟨r, w₁⟩, hplain, heq⟩ := Option.map_eq_some_iff.1 hx
  cases heq
  have hends : γ.reserve.Ends [γ.reserve.scope] := by simp [Reserve.Ends]
  have hsound' : (w'.without γ.reserve).Sound := hst.world ▸ hst.sound
  have hbinds' : (w'.without γ.reserve).Binds [γ.reserve.scope] γ.setting := hst.world ▸ hst.binds
  obtain ⟨hhidden, hs⟩ := evaluate_overlooks henv limit fuel hst.left hst.sound hcode γ.waits
    γ.handling hst.binds hends
  obtain ⟨hhidden', hs'⟩ := evaluate_overlooks henv limit fuel hst.right hsound' hcode γ.waits
    γ.handling hbinds' hends
  rw [hplain] at hhidden
  obtain ⟨hk, hr⟩ :=
    evaluate_safe henv.tame hst.sound hcode γ.waits γ.handling hst.binds hhidden
  -- without what is hidden, both are the same evaluation
  rw [hst.world, hhidden] at hhidden'
  obtain ⟨⟨r', w₁'⟩, hplain', heq⟩ := Option.map_eq_some_iff.1 hhidden'.symm
  obtain ⟨rfl, hworld⟩ := Prod.mk.inj heq
  refine ⟨r', (d', w₁'), ?_, hst.move (hs _ _ hplain) (hs' _ _ hplain') hworld hk, ?_⟩
  · simp only [hplain']
    rfl
  · cases r' with
    | ok a => exact ⟨rfl, hr⟩
    | error e => rfl

end Couples

end Likeness

/-! ## Expressions -/

/-- What corresponds in two programs. -/
structure Linkage where
  target : Target → Target → Prop
  region : TryRegion → TryRegion → Prop

/-- The same value, or jumps that correspond. -/
def Evaluated.Alike (K : Linkage) : Evaluated → Evaluated → Prop
  | .value u, .value v => v = u
  | .jump t, .jump t' => K.target t t'
  | _, _ => False

/-- An expression can be evaluated, and its jumps correspond. -/
structure CompiledExpr.Suits (γ : Likeness) (K : Linkage) (m m' : CompiledMachine)
    (e : CompiledExpr) : Prop where
  sound : e.code.Sound (· ∈ e.code.escapes) γ.setting
  escapes : ∀ l ∈ e.code.escapes, ∃ slot slot', m.program.labels.lookup l = some slot ∧
    m'.program.labels.lookup l = some slot' ∧ K.target slot.target slot'.target ∧
    slot'.var = slot.var ∧ ∀ x ∈ slot.var, γ.setting.bound x.id

namespace CompiledMachine

variable {env : Env σ} {fuel : Nat} {m m' : CompiledMachine} {γ : Likeness} {K : Linkage}

/-- A constant evaluates to itself. -/
theorem eval_constant (resolve : Expr.Resolver) (v : Value) (s : Durable × World σ) :
    Exec.Ensures (m.eval env fuel (compiled resolve (.constant v))) s fun r _ =>
      ∀ a, r = .ok a → a = .value v := by
  refine .bind (.durably ?_)
  refine .bind fun r s' hr => ?_
  obtain ⟨⟨r', w'⟩, heval, heq⟩ := Option.map_eq_some_iff.1 hr
  cases heq
  cases fuel with
  | zero => cases heval
  | succ fuel =>
    rw [evaluate, start] at heval
    change (Option.map _ (iterate env .sync m.limit (fuel + 1) 0 (Context.push _ v) _)) = _ at heval
    rw [iterate] at heval
    split at heval
    · cases heval
      exact fun a ha => by cases ha
    · cases heval
      exact .pure fun a ha => (Except.ok.inj ha).symm

/-- Evaluations couple, and jumps out of them lead to alike targets. -/
theorem eval_couples (henv : env.Overlooks γ.reserve) (hlimit : m'.limit = m.limit)
    {e : CompiledExpr} (he : e.Suits γ K m m') :
    γ.Couples (m.eval env fuel e) (m'.eval env fuel e) (Evaluated.Alike K) := by
  refine .durably_bind fun d d' hd hd' => ?_
  rw [hd, hd', hlimit]
  refine (Likeness.Couples.evaluate henv he.sound).bind fun a b hab => ?_
  obtain ⟨rfl, hallowed⟩ := hab
  cases b with
  | value v => exact .pure rfl
  | escape l v =>
    obtain ⟨slot, slot', hslot, hslot', htarget, hvar, hbound⟩ := he.escapes l hallowed
    simp only [hslot, hslot', hvar]
    cases hx : slot.var with
    | none => exact .pure htarget
    | some x => exact (Likeness.Couples.write (hbound x hx) v).bind fun _ _ _ => .pure htarget

/-- What follows an evaluation couples if the continuations do. -/
theorem evalThen_couples (henv : env.Overlooks γ.reserve) (hlimit : m'.limit = m.limit)
    {e : CompiledExpr} (he : e.Suits γ K m m') {f g : Value → Exec σ Next} {R : Next → Next → Prop}
    (hR : ∀ t t', K.target t t' → R (.jump t) (.jump t')) (hfg : ∀ v, γ.Couples (f v) (g v) R) :
    γ.Couples (m.evalThen env fuel e f) (m'.evalThen env fuel e g) R := by
  refine (eval_couples henv hlimit he).bind fun a b hab => ?_
  match a, b, hab with
  | .value v, .value _, rfl => exact hfg v
  | .jump t, .jump t', ht => exact .pure (hR t t' ht)

/-- Both or neither, and they correspond. -/
def TargetsAlike (K : Linkage) : Option Target → Option Target → Prop
  | none, none => True
  | some t, some t' => K.target t t'
  | _, _ => False

/-- The tests of an arm couple: by induction on the tests. -/
theorem tryTests_couples (henv : env.Overlooks γ.reserve) (hlimit : m'.limit = m.limit) (v : Value)
    {target target' : Target} (htarget : K.target target target') :
    ∀ {es : List CompiledExpr}, (∀ e ∈ es, e.Suits γ K m m') →
      γ.Couples (m.tryTests env fuel v target es) (m'.tryTests env fuel v target' es)
        (TargetsAlike K)
  | [], _ => .pure trivial
  | e :: es, hes => by
    obtain ⟨he, hes⟩ := List.forall_mem_cons.1 hes
    refine (eval_couples henv hlimit he).bind fun a b hab => ?_
    match a, b, hab with
    | .jump t, .jump t', ht => exact .pure ht
    | .value candidate, .value _, rfl =>
      simp only
      split
      · exact .pure htarget
      · exact tryTests_couples henv hlimit v htarget hes

/-- The arms of a switch have the same tests, and targets that correspond. -/
def ArmsAlike (K : Linkage) (a a' : List CompiledExpr × Target) : Prop :=
  a'.1 = a.1 ∧ K.target a.2 a'.2

/-- The choice of an arm couples: by induction on the arms. -/
theorem selectArm_couples (henv : env.Overlooks γ.reserve) (hlimit : m'.limit = m.limit) (v : Value)
    {arms arms' : List (List CompiledExpr × Target)} (h : List.Forall₂ (ArmsAlike K) arms arms')
    (hes : ∀ a ∈ arms, ∀ e ∈ a.1, e.Suits γ K m m') :
    γ.Couples (m.selectArm env fuel v arms) (m'.selectArm env fuel v arms') (TargetsAlike K) := by
  induction h with
  | nil => exact .pure trivial
  | @cons a a' _ _ ha _ ih =>
    obtain ⟨tests, target⟩ := a
    obtain ⟨_, target'⟩ := a'
    obtain ⟨rfl, htarget⟩ := ha
    obtain ⟨htests, hes⟩ := List.forall_mem_cons.1 hes
    refine (tryTests_couples henv hlimit v htarget htests).bind fun t t' ht => ?_
    match t, t', ht with
    | some t, some t', ht => exact .pure ht
    | none, none, _ => exact ih hes

end CompiledMachine

/-! ## Instructions -/

/-- Two instructions differ in nothing but targets, regions, states to store and codes to go by. -/
inductive Instr.Alike (γ : Likeness) (K : Linkage) : Instr → Instr → Prop
  | label (t t' : Target) : Alike γ K (.label t) (.label t')
  | eval (e : CompiledExpr) : Alike γ K (.eval e) (.eval e)
  | assign {x : Var} (hx : γ.setting.bound x.id) (e : CompiledExpr) :
      Alike γ K (.assign x e) (.assign x e)
  /-- A record is reset. -/
  | reset {x : Var} (hx : γ.reserve.held x.word) (resolve : Expr.Resolver) {v : Value}
      (hv : γ.record x.word v v) :
      Alike γ K (.assign x (compiled resolve (.constant v)))
        (.assign x (compiled resolve (.constant v)))
  | gotoIf (e : CompiledExpr) {t t' : Target} (ht : K.target t t') :
      Alike γ K (.gotoIf e t) (.gotoIf e t')
  | switch (e : CompiledExpr) {arms arms' : List (List CompiledExpr × Target)} {t t' : Target}
      (harms : List.Forall₂ (CompiledMachine.ArmsAlike K) arms arms') (ht : K.target t t') :
      Alike γ K (.switch e arms t) (.switch e arms' t')
  | setState {c c' : Int} (hc : γ.stored c c') : Alike γ K (.setState c) (.setState c')
  | getAwaiter (e : CompiledExpr) {x : Var} (hx : γ.setting.bound x.id) (binder : Binder)
      (configure : Bool) :
      Alike γ K (.getAwaiter e x binder configure) (.getAwaiter e x binder configure)
  | gotoIfCompleted {x : Var} (hx : γ.setting.bound x.id) (binder : Binder) {t t' : Target}
      (ht : K.target t t') : Alike γ K (.gotoIfCompleted x binder t) (.gotoIfCompleted x binder t')
  | register {x : Var} (hx : γ.setting.bound x.id) (binder : Binder) :
      Alike γ K (.register x binder) (.register x binder)
  | suspend (kind : SuspendKind) : Alike γ K (.suspend kind) (.suspend kind)
  | getResult {x : Var} (hx : γ.setting.bound x.id) (binder : Binder) {y : Option Var}
      (hy : ∀ z ∈ y, γ.setting.bound z.id) :
      Alike γ K (.getResult x binder y) (.getResult x binder y)
  | setCurrent (e : CompiledExpr) : Alike γ K (.setCurrent e) (.setCurrent e)
  | yieldBreak : Alike γ K .yieldBreak .yieldBreak
  | finish (e : Option CompiledExpr) : Alike γ K (.finish e) (.finish e)
  | region {r r' : TryRegion} (hr : K.region r r') : Alike γ K (.region r) (.region r')
  /-- Records that mean the same throw again in both, or lead to corresponding targets. -/
  | dispatch {x y : Var} (hx : γ.reserve.held x.word) (hy : γ.setting.bound y.id) {rethrows : Bool}
      {cases cases' : List (Int × Target)} {t t' : Target}
      (h : ∀ u v, γ.record x.word u v →
        (rethrows && v.recorded == unhandled) = (rethrows && u.recorded == unhandled) ∧
          K.target ((cases.lookup u.recorded).getD t) ((cases'.lookup v.recorded).getD t')) :
      Alike γ K (.dispatch x y cases rethrows t) (.dispatch x y cases' rethrows t')

/-- The same comes after two instructions. -/
def Next.Alike (K : Linkage) : Next → Next → Prop
  | .advance, .advance => True
  | .jump t, .jump t' => K.target t t'
  | .stop f, .stop f' => f' = f
  | .enter r, .enter r' => K.region r r'
  | _, _ => False

namespace CompiledMachine

variable {env : Env σ} {fuel : Nat} {m m' : CompiledMachine} {γ : Likeness} {K : Linkage}

/-- Instructions that are alike are coupled. -/
theorem exec_couples (henv : env.Overlooks γ.reserve) (hlimit : m'.limit = m.limit) {i i' : Instr}
    (h : i.Alike γ K i') (hi : ∀ e ∈ i.exprs, e.Suits γ K m m') :
    γ.Couples (m.exec env fuel i) (m'.exec env fuel i') (Next.Alike K) := by
  -- the expressions are the same in both machines, so only what follows has to couple
  have heval : ∀ {e : CompiledExpr}, e ∈ i.exprs → ∀ {f g : Value → Exec σ Next},
      (∀ v, γ.Couples (f v) (g v) (Next.Alike K)) →
      γ.Couples (m.evalThen env fuel e f) (m'.evalThen env fuel e g) (Next.Alike K) :=
    fun he _ _ hfg => evalThen_couples henv hlimit (hi _ he) (fun _ _ ht => ht) hfg
  have hkeep {f : Durable → Durable} {next : Next} (hnext : next.Alike K next)
      (hf : ∀ d state, f { d with state } = { f d with state })
      (hscopes : ∀ d, (f d).scopes = d.scopes) :
      γ.Couples (do modifyDurable f; return next : Exec σ Next) (do modifyDurable f; return next)
        (Next.Alike K) :=
    (Likeness.Couples.modifyDurable_same hf hscopes).bind fun _ _ _ => .pure hnext
  cases h with
  | label => exact .pure trivial
  | suspend => exact .pure rfl
  | region hr => exact .pure hr
  | eval e => exact heval List.mem_cons_self fun _ => .pure trivial
  | assign hx e =>
    exact heval List.mem_cons_self fun v => (Likeness.Couples.write hx v).bind fun _ _ _ =>
      .pure trivial
  | reset hx resolve hv =>
    -- the constants may differ where a record is reset
    refine ((eval_couples henv hlimit (hi _ List.mem_cons_self)).ensures
      (eval_constant resolve _)).bind fun a b hab => ?_
    obtain ⟨rfl, hab⟩ := hab
    match b, hab with
    | .value _, rfl =>
      exact (Likeness.Couples.write_record hx hv).bind fun _ _ _ => .pure trivial
  | gotoIf e ht =>
    refine heval List.mem_cons_self fun v => .pure ?_
    split
    · exact ht
    · trivial
  | switch e harms ht =>
    refine heval List.mem_cons_self fun v => ?_
    refine (selectArm_couples henv hlimit v harms fun a ha e he => hi e ?_).bind fun t t' htt => ?_
    · exact List.mem_cons_of_mem _ (List.mem_flatMap.2 ⟨a, ha, he⟩)
    · match t, t', htt with
      | none, none, _ => exact .pure ht
      | some _, some _, htt => exact .pure htt
  | @setState c c' hc =>
    have hstore := Likeness.Couples.modifyDurable (σ := σ) (γ := γ)
      (f := fun d => { d with state := c }) (g := fun d => { d with state := c' })
      fun d d' hd _ => ⟨rfl, by rw [hd], hc⟩
    exact hstore.bind fun _ _ _ => .pure trivial
  | getAwaiter e hx binder configure =>
    exact heval List.mem_cons_self fun v =>
      (Likeness.Couples.perform ((henv.protocol binder).getAwaiter v configure)).bind
        fun a _ hab => hab ▸ (Likeness.Couples.write hx a).bind fun _ _ _ => .pure trivial
  | gotoIfCompleted hx binder ht =>
    refine (Likeness.Couples.read hx).bind fun _ v hv => ?_
    subst hv
    refine (Likeness.Couples.perform ((henv.protocol binder).isCompleted v)).bind fun _ done hd => ?_
    subst hd
    split
    · exact .pure ht
    · exact .pure trivial
  | register hx binder =>
    refine (Likeness.Couples.read hx).bind fun _ v hv => ?_
    subst hv
    exact hkeep trivial (fun _ _ => rfl) fun _ => rfl
  | getResult hx binder hy =>
    refine (Likeness.Couples.read hx).bind fun _ v hv => ?_
    subst hv
    refine (Likeness.Couples.perform ((henv.protocol binder).getResult v)).bind fun _ result hr => ?_
    subst hr
    refine (Likeness.Couples.write hx .unit).bind fun _ _ _ => ?_
    split
    · exact (Likeness.Couples.write (hy _ rfl) result).bind fun _ _ _ => .pure trivial
    · exact .pure trivial
  | setCurrent e =>
    exact heval List.mem_cons_self fun v => hkeep trivial (fun _ _ => rfl) fun _ => rfl
  | yieldBreak => exact hkeep rfl (fun _ _ => rfl) fun _ => rfl
  | finish e =>
    cases e with
    | none => exact .pure rfl
    | some e => exact heval List.mem_cons_self fun _ => .pure rfl
  | @dispatch x y hx hy rethrows cases cases' t t' h =>
    -- the records say how a region was left; both machines go on to alike targets
    refine (Likeness.Couples.read_record hx).bind fun u v huv => ?_
    obtain ⟨hthrows, htarget⟩ := h u v huv
    change γ.Couples (if (rethrows && u.recorded == unhandled) = true then _ else _)
      (if (rethrows && v.recorded == unhandled) = true then _ else _) _
    rw [hthrows]
    split
    · refine (Likeness.Couples.read hy).bind fun _ stored hs => ?_
      subst hs
      refine (Likeness.Couples.perform ((Effect.Opaque.asException stored).overlooks _)).bind
        fun _ e he => ?_
      subst he
      exact .throw _
    · exact .pure htarget

end CompiledMachine

end Coroutine

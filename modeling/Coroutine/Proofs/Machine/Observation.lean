import Mathlib
import Coroutine.Proofs.Machine.Delivery
import Coroutine.Proofs.Machine.Lockstep

/-!
# Optional passes cannot be observed

The passes that collapse no-ops, remove states and leave out jumps are optional. The programs that a
lambda compiles to with some of them or others are variants of one graph (`Lambda.variant`). Their
machines start alike and are alike after every resumption (`Variant.Paired`).

What can be told of a machine is an `Observation`: what a resumption came to, what the machine waits
for, and the world but for its variables, with the state of the host in it. `Machine.play` resumes a
machine again and again. What the outside does in between, and with which host the machine runs, may
depend on all observations so far. They are the same for all variants: `Lambda.passes_unobservable`.
-/

namespace Coroutine

open Assembly

variable {σ : Type} {args : List Value} {w₁ : World σ}

/-! ## New machines -/

/-- What declaring variables one after the other comes to. -/
theorem Scope.get?_foldl {α : Type} (key : α → Nat) (value : α → Value) (l : List α) (s : Scope)
    (i : Nat) :
    (∃ a ∈ l, key a = i ∧
      (l.foldl (fun s a => s.declare (key a) (value a)) s).get? i = some (value a)) ∨
    i ∉ l.map key ∧ (l.foldl (fun s a => s.declare (key a) (value a)) s).get? i = s.get? i := by
  induction l generalizing s with
  | nil => exact .inr ⟨by simp, rfl⟩
  | cons a l ih =>
    rw [List.foldl_cons]
    rcases ih (s.declare (key a) (value a)) with ⟨b, hb, hkey, hget⟩ | ⟨hnot, hget⟩
    · exact .inl ⟨b, List.mem_cons_of_mem _ hb, hkey, hget⟩
    · rw [get?_declare] at hget
      split at hget
      · rename_i heq
        exact .inl ⟨a, List.mem_cons_self, heq.symm, hget⟩
      · rename_i hne
        refine .inr ⟨?_, hget⟩
        rw [List.map_cons, List.mem_cons]
        exact not_or.2 ⟨hne, hnot⟩

namespace CompiledMachine

/-- The variables of a new machine. -/
def firstScope (params vars : List Var) (args : List Value) : Scope :=
  (params.zip args).foldl (fun s (x, v) => s.declare x.word v) (Scope.ofVars vars)

/-- What it takes to make a machine. -/
theorem new_eq (program : Program) (limit : Option Nat) (args : List Value) (w : World σ) :
    new program limit args w = if args.length ≠ program.params.length then
        .error (.arity program.params.length args.length)
      else .ok (⟨program, limit, { scopes := [w.scopes.size] }⟩,
        (w.newScope (firstScope program.params program.vars args)).2) := rfl

/-- A variable that is no parameter has no value at first. -/
theorem get?_firstScope {params vars : List Var} {i : Nat} (hi : i ∈ vars.map Var.word)
    (hparam : ∀ y ∈ params, y.word ≠ i) :
    (firstScope params vars args).get? i = some .unit := by
  rcases Scope.get?_foldl (fun a : Var × Value => a.1.word) (fun a => a.2) (params.zip args)
    (Scope.ofVars vars) i with ⟨⟨y, u⟩, hy, hword, -⟩ | ⟨-, hget⟩
  · exact absurd hword (hparam y (List.of_mem_zip hy).1)
  · refine hget.trans ?_
    rcases Scope.get?_foldl Var.word (fun _ => .unit) vars {} i with ⟨y, -, -, hget⟩ | ⟨hnot, -⟩
    · exact hget
    · exact absurd hi hnot

end CompiledMachine

/-! ## Observations -/

/-- What of a world others than programs can see: all but the variables. -/
def World.outward (w : World σ) : World σ := { w with scopes := #[] }

/-- What is outside does not show what is hidden in a scope. -/
theorem World.outward_without (w : World σ) (v : Reserve) : (w.without v).outward = w.outward := rfl

/-- What can be told of a machine after a resumption. The numbers of states to resume at are no part of
it. -/
structure Observation (σ : Type) where
  result : Except RunError Status
  suspension : Option Suspension
  current : Value
  completed : Bool
  world : World σ

/-- What the outside does for a resumption. -/
structure Turn (σ : Type) where
  /-- Whether it takes the suspension of the machine. -/
  takes : Bool
  /-- What it does before. -/
  before : Effect σ Unit
  /-- The host that the machine runs with. -/
  env : Env σ

/-- What the outside does overlooks what is hidden. -/
structure Turn.Overlooks (v : Reserve) (t : Turn σ) : Prop where
  before : t.before.Overlooks v
  env : t.env.Overlooks v

/-- The machine that is resumed. -/
def Turn.ready (t : Turn σ) (m : CompiledMachine) : CompiledMachine :=
  if t.takes then m.withDurable { m.durable with suspension := none } else m

namespace Machine

/-- What can be told of a machine after a resumption that came to a result. -/
def observe (res : Except RunError Status) (m : Machine) (w : World σ) : Observation σ :=
  ⟨res, m.suspension, m.current, m.isCompleted, w.outward⟩

/-- Resumes a machine a number of times, and adds what is observed to what was seen before. What the
outside does may depend on all that it has seen. -/
def play (outside : List (Observation σ) → Turn σ) (fuel : Nat) :
    Nat → List (Observation σ) → Machine → World σ → Option (List (Observation σ))
  | 0, seen, _, _ => some seen
  | times + 1, seen, m, w =>
    let t := outside seen
    let m := if t.takes then m.takeSuspension.2 else m
    match m.resume t.env fuel (t.before w).2 with
    | some ((res, m), w) => play outside fuel times (seen ++ [m.observe res w]) m w
    | none => none

variable {outside : List (Observation σ) → Turn σ} {fuel fuel' : Nat}

/-- One resumption of a compiled machine, and the others. -/
theorem play_compiled (times : Nat) (seen : List (Observation σ)) (m : CompiledMachine)
    (w : World σ) : (Machine.compiled m).play outside fuel (times + 1) seen w =
      (((outside seen).ready m).resume (outside seen).env fuel ((outside seen).before w).2).bind
        fun ((res, m), w) => (Machine.compiled m).play outside fuel times
          (seen ++ [observe res (.compiled m) w]) w := by
  have hready : (if (outside seen).takes then (Machine.compiled m).takeSuspension.2
      else .compiled m) = .compiled ((outside seen).ready m) := by
    unfold Turn.ready
    split <;> rfl
  rw [play]
  simp only [hready, resume]
  cases ((outside seen).ready m).resume (outside seen).env fuel ((outside seen).before w).2 <;> rfl

/-- More fuel changes nothing. -/
theorem play_mono (hle : fuel ≤ fuel') {times : Nat} {seen all : List (Observation σ)}
    {m : CompiledMachine} {w : World σ}
    (h : (Machine.compiled m).play outside fuel times seen w = some all) :
    (Machine.compiled m).play outside fuel' times seen w = some all := by
  induction times generalizing seen m w with
  | zero => exact h
  | succ times ih =>
    rw [play_compiled] at h ⊢
    obtain ⟨⟨⟨res, m₁⟩, w₁⟩, hrun, hrest⟩ := Option.bind_eq_some_iff.1 h
    rw [CompiledMachine.resume_mono _ hle _ hrun]
    exact ih hrest

end Machine

/-! ## Resumptions of two variants -/

namespace Variant

open CompiledMachine

variable {g : Graph} {n : Nat} {resolve : Expr.Resolver} {v v' : Variant g n resolve} {k : Nat}
  {env : Env σ} {m m' : CompiledMachine} {w w' : World σ}

/-- Where a resumption starts to run, and how it gets there. -/
structure Wakes (v : Variant g n resolve) (env : Env σ) (m : CompiledMachine) (w : World σ)
    (r c : Nat) (p : Position) (steps : Nat) : Prop where
  stands : v.Stands r p
  label : v.image.AtLabel r p.pc c
  poised : v.image.Poised r p m.awake steps
  /-- The state is the one that was stored, or the first one. -/
  state : m.durable.state = startState ∧ c = v.renames g.entry ∨ m.durable.state = Int.ofNat c
  run : ∃ lead, ∀ fuel, m.resume env (lead + fuel) w =
    (m.runFrom env fuel steps p (m.awake, w)).map fun (res, d, w) => (m.settle d res, w)

/-- A machine at rest that has not completed wakes at the label of a state. -/
theorem wakes (hm : m.program = v.image.program) (h : Rests v.image m)
    (hopen : m.isCompleted = false) (env : Env σ) (w : World σ) :
    ∃ r c p steps, v.Wakes env m w r c p steps := by
  rcases h with hstart | hdone | hparked
  -- a new machine wakes at the label of the entry
  · have hawake : { m.durable with success := false } = m.awake := by rw [awake, ← hstart]
    have hentered := Image.entered_top v.regular' v.faithful
    have hrenders := v.faithful.renders _ hentered.mem
    have hentry : v.image.graph.entry ∈ v.image.graph.regionNodes Graph.top :=
      (v.regular'.mem_regionNodes hentered.lt hentered.isRegion).2 v.regular'.entry
    have hlabel : v.image.AtLabel Graph.top 0 (v.renames g.entry) := by
      rw [← v.reduces.entry]
      exact atLabel_start hentered rfl hentry
    refine ⟨Graph.top, _, ⟨v.image.block Graph.top, 0, []⟩, 0, ⟨hentered.mem, rfl, rfl⟩, hlabel,
      ⟨hentered.mem, rfl, rfl, fun i hi => ?_, fun i hi => ?_⟩, .inl ⟨hstart, rfl⟩, 0,
      fun fuel => ?_⟩
    · obtain ⟨s, rfl⟩ := hrenders.head_label hi
      rfl
    · obtain ⟨s, rfl⟩ := hrenders.head_label hi
      exact le_rfl
    · rw [resume, hopen, hawake, Nat.zero_add, runEntry, Exec.bind_ok (entryPoint_start rfl w), hm]
      rfl
  · simp [isCompleted, hdone] at hopen
  -- a parked machine wakes where its way back ends
  · obtain ⟨c, a, b, is, r, hstate, -, hback, hpoised⟩ :=
      hparked.comesBack v.regular' v.faithful hm env w
    rw [hback.durable] at hpoised
    have hlabel := hback.label
    rw [Point.instr?, hpoised.block] at hlabel
    refine ⟨r, c, b.position, is.length, ⟨hpoised.mem, hpoised.block, hpoised.nested⟩,
      (v.faithful.renders r hpoised.mem).atLabel hlabel, hpoised, .inr hstate, is.length,
      fun fuel => ?_⟩
    rw [hback.run fuel, hback.durable, hback.world]
    rfl

/-- Machines of two variants between resumptions. -/
structure Paired (v v' : Variant g n resolve) (k : Nat) (m : CompiledMachine) (w : World σ)
    (m' : CompiledMachine) (w' : World σ) : Prop where
  program : m.program = v.image.program
  program' : m'.program = v'.image.program
  limit : m.limit = none
  limit' : m'.limit = none
  rests : Rests v.image m
  rests' : Rests v'.image m'
  twins : (v.likeness v' k).Twins (m.durable, w) (m'.durable, w')

/-- New machines with the same arguments are alike. -/
theorem paired_new (hw : w.Sound) (hclosed : w.Closed)
    (h : CompiledMachine.new v.image.program none args w = .ok (m, w₁)) :
    ∃ m', CompiledMachine.new v'.image.program none args w = .ok (m', w₁) ∧
      Paired v v' w.scopes.size m w₁ m' w₁ := by
  have hparams (v : Variant g n resolve) : v.image.program.params = g.params := v.reduces.params
  have hvars (v : Variant g n resolve) : v.image.program.vars = g.ownVars :=
    congrArg Var.apart v.reduces.vars
  obtain ⟨sc, -, hsc, hcontains⟩ := new_eq_ok h
  rw [new_eq, hparams, hvars] at h
  rw [new_eq, hparams, hvars]
  split at h
  · cases h
  · rename_i harity
    rw [if_neg harity]
    cases h
    refine ⟨_, rfl, rfl, rfl, rfl, rfl, .inl rfl, .inl rfl, ?_⟩
    let γ := v.likeness v' w.scopes.size
    have hneg : startState < 0 := by decide
    have hconfines (sc : Scope) : (w.newScope sc).2.Confines γ.reserve := by
      refine ⟨by simp [World.newScope, γ, likeness], fun k hmem => ?_⟩
      exact (hclosed k _ (List.mem_of_mem_dropLast hmem)).ne rfl
    have hhidden (sc : Scope) : (w.newScope sc).2.without γ.reserve =
        (w.newScope (sc.without γ.reserve.held)).2 := World.newScope_without_self rfl
    have hscope (sc : Scope) : (w.newScope sc).2.scope w.scopes.size = sc := by
      rw [World.scope_newScope, if_pos rfl]
    have hfirst := congrArg (·.scope w.scopes.size) hsc
    simp only [hscope] at hfirst
    rw [← hfirst, hparams, hvars] at hcontains
    refine ⟨rfl, rfl, .inl ⟨rfl, hneg⟩, hconfines _, hconfines _, rfl, ?_, fun i hi => ?_, ?_⟩
    · rw [hhidden]
      exact (hw.newScope _).sound
    · refine ⟨w.scopes.size, List.mem_singleton.2 rfl, ?_⟩
      rw [hhidden, hscope, Scope.contains, Scope.get?_without _ (γ.visible i hi)]
      obtain ⟨x, hx, rfl⟩ := hi.declares
      obtain ⟨y, hy, hword⟩ := Graph.exists_listed hx
      rw [show word x.id = y.word from hword.symm]
      exact hcontains y hy
    · rintro i ⟨x, hx, rfl⟩
      have hmem : x.word ∈ g.ownVars.map Var.word := by
        obtain ⟨y, hy, hword⟩ := mem_foldl_unless Var.word g.vars [] (.inr ⟨x, hx.1, rfl⟩)
        exact List.mem_map.2 ⟨y, hy, hword⟩
      have hget : (firstScope g.params g.ownVars args).get? x.word = some .unit := by
        refine get?_firstScope hmem fun y hy heq => ?_
        -- parameters have smaller numbers than temporaries
        have hlt := v.regular.params y hy
        have hle := hx.2.1
        have hid : y.word = y.id := word_of_lt (v.range y (List.mem_append_left _ hy))
        rw [v.word_eq hx] at heq
        omega
      have hget' : ((w.newScope (firstScope g.params g.ownVars args)).2.scope
          w.scopes.size).get? x.word = some .unit := by rw [hscope, hget]
      exact ⟨.unit, .unit, hget', hget', means_notLeft x.word rfl⟩

namespace Paired

variable (h : Paired v v' k m w m' w')
include h

/-- Both machines are done at the same time. -/
theorem isCompleted_eq : m'.isCompleted = m.isCompleted := by
  rw [isCompleted, isCompleted]
  rcases h.twins.stored with ⟨heq, -⟩ | ⟨a, b, ha, hb, -⟩
  · exact congrArg (· == doneState) heq
  · have hdone (c : Nat) : (Int.ofNat c == doneState) = false := rfl
    simp only at ha hb
    rw [ha, hb, hdone, hdone]

/-- Both machines wake up alike. -/
theorem awake : (v.likeness v' k).Twins (m.awake, w) (m'.awake, w') := by
  have hdurable := h.twins.durable
  have hneg : startState < 0 := by decide
  refine { h.twins with scopes := h.twins.scopes, durable := ?_, stored := .inl ⟨rfl, hneg⟩ }
  simp only [CompiledMachine.awake] at hdurable ⊢
  rw [hdurable]

/-- Both machines are of one kind. -/
theorem kind_eq : m'.program.kind = m.program.kind := by
  rw [h.program, h.program']
  exact v'.reduces.kind.trans v.reduces.kind.symm

/-- Runs that end in the same way leave the same status, and machines that are alike. -/
theorem settle {d d' : Durable} {w₁' : World σ} {flow flow' : Except RunError Flow}
    (htwins : (v.likeness v' k).Twins (d, w₁) (d', w₁'))
    (hflow : Likeness.Agree (fun f f' => f' = f) flow flow') :
    (m'.settle d' flow').1 = (m.settle d flow).1 ∧ (v.likeness v' k).Twins
      ((m.settle d flow).2.durable, w₁) ((m'.settle d' flow').2.durable, w₁') := by
  have hdurable : d' = { d with state := d'.state } := htwins.durable
  have hneg : doneState < 0 := by decide
  have hdone : (v.likeness v' k).Twins ({ d with state := doneState }, w₁)
      ({ d' with state := doneState }, w₁') :=
    { htwins with
      scopes := htwins.scopes
      durable := by rw [hdurable]
      stored := .inl ⟨rfl, hneg⟩ }
  match flow, flow', hflow with
  | .error e, .error _, rfl => exact ⟨rfl, hdone⟩
  | .ok (.complete u), .ok _, rfl =>
    refine ⟨?_, hdone⟩
    simp only [CompiledMachine.settle, h.kind_eq]
  | .ok (.suspend .await), .ok _, rfl => exact ⟨rfl, htwins⟩
  | .ok (.suspend .yield), .ok _, rfl =>
    refine ⟨?_, htwins⟩
    simp only [CompiledMachine.settle]
    rw [hdurable]

/-- The states at which both machines wake up correspond. -/
theorem remap_eq {r c r' c' steps steps' : Nat} {p p' : Position}
    (hwakes : v.Wakes env m w r c p steps) (hwakes' : v'.Wakes env m' w' r' c' p' steps') :
    g.remap c = g.remap c' := by
  have hne (a : Nat) : Int.ofNat a ≠ startState := Image.ofNat_ne_startState a
  have hstored : m'.durable.state = m.durable.state ∧ m.durable.state < 0 ∨ ∃ a b : Nat,
      m.durable.state = Int.ofNat a ∧ m'.durable.state = Int.ofNat b ∧ g.remap a = g.remap b :=
    h.twins.stored
  rcases hstored with ⟨heq, hlt⟩ | ⟨a, b, ha, hb, hab⟩
  · rcases hwakes.state with ⟨hstart, rfl⟩ | hc
    · rcases hwakes'.state with ⟨-, rfl⟩ | hc'
      · rw [v.remap_renames, v'.remap_renames]
      · exact absurd (hc'.symm.trans (heq.trans hstart)) (hne c')
    · rw [hc] at hlt
      exact absurd hlt (Int.natCast_nonneg c).not_gt
  · rcases hwakes.state with ⟨hstart, -⟩ | hc
    · exact absurd (ha.symm.trans hstart) (hne a)
    · rcases hwakes'.state with ⟨hstart, -⟩ | hc'
      · exact absurd (hb.symm.trans hstart) (hne b)
      · obtain rfl : a = c := Int.ofNat.inj (ha.symm.trans hc)
        obtain rfl : b = c' := Int.ofNat.inj (hb.symm.trans hc')
        exact hab

/-- The other machine's resumption ends as well, and in the same way. -/
theorem resume (henv : env.Overlooks (v.likeness v' k).reserve) {fuel : Nat}
    {res : Except RunError Status} {m₁ : CompiledMachine}
    (hrun : m.resume env fuel w = some ((res, m₁), w₁)) :
    ∃ fuel' m₁' w₁', m'.resume env fuel' w' = some ((res, m₁'), w₁') ∧
      Paired v v' k m₁ w₁ m₁' w₁' := by
  -- whatever the other resumption comes to, the machines are at rest after it
  have hpaired {fuel' : Nat} {m₁' : CompiledMachine} {w₁' : World σ}
      (hrun' : m'.resume env fuel' w' = some ((res, m₁'), w₁'))
      (htwins : (v.likeness v' k).Twins (m₁.durable, w₁) (m₁'.durable, w₁')) :
      Paired v v' k m₁ w₁ m₁' w₁' := by
    obtain ⟨hprogram, hlimit, hrests, -⟩ := h.rests.resume v.regular' v.faithful h.program hrun
    obtain ⟨hprogram', hlimit', hrests', -⟩ :=
      h.rests'.resume v'.regular' v'.faithful h.program' hrun'
    exact ⟨hprogram.trans h.program, hprogram'.trans h.program', hlimit.trans h.limit,
      hlimit'.trans h.limit', hrests, hrests', htwins⟩
  cases hopen : m.isCompleted with
  | true =>
    rw [CompiledMachine.resume, hopen] at hrun
    cases hrun
    refine ⟨0, m', w', ?_, h⟩
    rw [CompiledMachine.resume, h.isCompleted_eq, hopen]
    rfl
  | false =>
    obtain ⟨r, c, p, steps, hwakes⟩ := wakes h.program h.rests hopen env w
    obtain ⟨r', c', p', steps', hwakes'⟩ :=
      wakes h.program' h.rests' (h.isCompleted_eq.trans hopen) env w'
    have heq := h.remap_eq hwakes hwakes'
    obtain rfl : r = r' := by
      rw [← hwakes.stands.region_of_atLabel hwakes.label,
        ← hwakes'.stands.region_of_atLabel hwakes'.label, Graph.region_eq_of_remap heq]
    obtain ⟨lead, hlead⟩ := hwakes.run
    obtain ⟨lead', hlead'⟩ := hwakes'.run
    have hrun₁ := resume_mono env (Nat.le_add_left fuel lead) m hrun
    rw [hlead] at hrun₁
    obtain ⟨⟨flow, d, w₂⟩, hfrom, hsettle⟩ := Option.map_eq_some_iff.1 hrun₁
    obtain ⟨flow', ⟨d', w₂'⟩, ⟨fuel', hfrom'⟩, htwins, hflow⟩ :=
      run_couples henv h.program h.program' h.limit h.limit' fuel ⟨r, hwakes.poised⟩
        ⟨r, hwakes.stands, hwakes'.stands, .bound (.inr hwakes.label) (.inr hwakes'.label) heq⟩
        h.awake hfrom
    obtain ⟨hstatus, hdurable⟩ := h.settle htwins hflow
    obtain ⟨rfl, rfl⟩ := Prod.mk.inj (Prod.mk.inj hsettle).1
    obtain rfl : w₂ = w₁ := (Prod.mk.inj hsettle).2
    have hrun' : m'.resume env (lead' + fuel') w' =
        some (((m.settle d flow).1, (m'.settle d' flow').2), w₂') := by
      rw [hlead', hfrom', ← hstatus]
      rfl
    exact ⟨_, _, _, hrun', hpaired hrun' hdurable⟩

/-- What happens outside comes to the same for both machines. -/
theorem outside {e : Effect σ Unit} (he : e.Overlooks (v.likeness v' k).reserve) :
    Paired v v' k m (e w).2 m' (e w').2 :=
  { h with twins := (h.twins.perform he).2 }

/-- Taking the suspension comes to the same for both machines. -/
theorem withDurable_suspension (x : Option Suspension) : Paired v v' k
    (m.withDurable { m.durable with suspension := x }) w
    (m'.withDurable { m'.durable with suspension := x }) w' := by
  have hdurable : m'.durable = { m.durable with state := m'.durable.state } := h.twins.durable
  have htwins : (v.likeness v' k).Twins ({ m.durable with suspension := x }, w)
      ({ m'.durable with suspension := x }, w') :=
    { h.twins with
      scopes := h.twins.scopes
      durable := by rw [hdurable] }
  exact ⟨h.program, h.program', h.limit, h.limit', h.rests, h.rests', htwins⟩

/-- The same is observed of both machines. -/
theorem observe_eq (res : Except RunError Status) :
    Machine.observe res (.compiled m') w' = Machine.observe res (.compiled m) w := by
  have hdurable : m'.durable = { m.durable with state := m'.durable.state } := h.twins.durable
  have hworld : w'.outward = w.outward := by
    rw [← w'.outward_without (v.likeness v' k).reserve, h.twins.world, World.outward_without]
  simp only [Machine.observe, Machine.suspension, Machine.current, Machine.isCompleted,
    h.isCompleted_eq, hworld]
  rw [hdurable]

/-- What is observed of the first machine is observed of the other. By induction on the number of
resumptions. -/
theorem play {outside : List (Observation σ) → Turn σ}
    (houtside : ∀ seen, (outside seen).Overlooks (v.likeness v' k).reserve) {fuel : Nat} :
    ∀ {times : Nat} {seen all : List (Observation σ)},
      (Machine.compiled m).play outside fuel times seen w = some all →
        ∃ fuel', (Machine.compiled m').play outside fuel' times seen w' = some all := by
  intro times
  induction times generalizing m w m' w' with
  | zero => exact fun hplay => ⟨0, hplay⟩
  | succ times ih =>
    intro seen all hplay
    rw [Machine.play_compiled] at hplay
    obtain ⟨⟨⟨res, m₁⟩, w₁⟩, hrun, hrest⟩ := Option.bind_eq_some_iff.1 hplay
    have hready : Paired v v' k ((outside seen).ready m) ((outside seen).before w).2
        ((outside seen).ready m') ((outside seen).before w').2 := by
      refine Paired.outside ?_ (houtside seen).before
      unfold Turn.ready
      split
      · exact h.withDurable_suspension none
      · exact h
    obtain ⟨fuel₁, m₁', w₁', hrun', hpaired⟩ := hready.resume (houtside seen).env hrun
    obtain ⟨fuel₂, hrest'⟩ := ih hpaired hrest
    refine ⟨max fuel₁ fuel₂, ?_⟩
    rw [← hpaired.observe_eq] at hrest'
    rw [Machine.play_compiled, CompiledMachine.resume_mono _ (Nat.le_max_left ..) _ hrun']
    exact Machine.play_mono (Nat.le_max_right ..) hrest'

end Paired

end Variant

/-- A program that a lambda compiles to is a variant of its graph. -/
theorem Lambda.variant {l : Lambda} {resolve : Expr.Resolver} {g : Graph}
    (hg : l.lower resolve = .ok g) (hrange : g.InRange) : ∃ n, ∀ {o : Options} {c : Compiled},
      l.compile resolve o = .ok c →
      (∀ region, c.program.Protects region → ∀ x ∈ region.exits, x.code < 2 ^ 63) →
      ∃ v : Variant g n resolve, c.program = v.image.program := by
  obtain ⟨facts, hcheck, -⟩ := bind_eq_ok.1 hg
  obtain ⟨hregular, -⟩ := Lambda.lower_regular_of_check hcheck hg
  refine ⟨facts.maxVar + 1, fun {o c} hc hwords => ?_⟩
  obtain ⟨raw, hraw, hc⟩ := bind_eq_ok.1 hc
  obtain ⟨program, hprogram, hc⟩ := bind_eq_ok.1 hc
  obtain rfl : g = raw := Except.ok.inj (hg.symm.trans hraw)
  cases hc
  obtain ⟨φ, hnear, hreduces⟩ := hregular.reduces_simplify o
  obtain ⟨laid, hlaid, -⟩ := Graph.simplify_eq_layout g o
  obtain ⟨im, hgraph, hresolve, -, -, him, rfl⟩ := assemble_image hprogram
  exact ⟨{
    image := im
    renames := φ
    regular := hregular
    reduces := hgraph ▸ hreduces
    near := hnear
    laid := by rw [hgraph, hlaid, Graph.layout_layout]
    resolved := hresolve
    faithful := him
    words := hwords
    range := hrange }, rfl⟩

/-- The passes leave the variables of a graph alone. -/
theorem Lambda.inRange_of_compile {l : Lambda} {resolve : Expr.Resolver} {o : Options} {c : Compiled}
    (hc : l.compile resolve o = .ok c) (hrange : c.graph.InRange) :
    ∃ g, l.lower resolve = .ok g ∧ g.InRange := by
  obtain ⟨g, hg, hc⟩ := bind_eq_ok.1 hc
  obtain ⟨program, -, hc⟩ := bind_eq_ok.1 hc
  cases hc
  obtain ⟨facts, hcheck, -⟩ := bind_eq_ok.1 hg
  obtain ⟨φ, -, hreduces⟩ := (Lambda.lower_regular_of_check hcheck hg).1.reduces_simplify o
  rw [Graph.InRange, hreduces.params, hreduces.vars] at hrange
  exact ⟨g, hg, hrange⟩

/-- What can be observed of the machines of a lambda: what its resumptions come to, one after the
other. -/
def Lambda.Observes (l : Lambda) (resolve : Expr.Resolver) (o : Options) (args : List Value)
    (w : World σ) (outside : List (Observation σ) → Turn σ) (times : Nat)
    (all : List (Observation σ)) : Prop :=
  ∃ m w₁ fuel, l.launch .compiled resolve o args w = .ok (m, w₁) ∧
    m.play outside fuel times [] w₁ = some all

/-- What is launched is the compiled program. -/
theorem Lambda.launch_compiled {l : Lambda} {resolve : Expr.Resolver} {o : Options} {c : Compiled}
    (ho : o.stepLimit = none) (hc : l.compile resolve o = .ok c) (args : List Value) (w : World σ) :
    l.launch .compiled resolve o args w =
      (CompiledMachine.new c.program none args w).map fun (m, w) => (.compiled m, w) := by
  rw [Lambda.launch, hc, ho]

section

variable {l : Lambda} {resolve : Expr.Resolver} {g : Graph} {o o' : Options} {c c' : Compiled}
  (hg : l.lower resolve = .ok g) (hrange : g.InRange)
  (ho : o.stepLimit = none) (ho' : o'.stepLimit = none)
  (hc : l.compile resolve o = .ok c) (hc' : l.compile resolve o' = .ok c')
  (hwords : ∀ region, c.program.Protects region → ∀ x ∈ region.exits, x.code < 2 ^ 63)
  (hwords' : ∀ region, c'.program.Protects region → ∀ x ∈ region.exits, x.code < 2 ^ 63)
include hg hrange ho ho' hc hc' hwords hwords'

/-- What is observed of the machines of one program is observed of those of the other. -/
theorem Lambda.Observes.transfer {w : World σ} (hw : w.Sound) (hclosed : w.Closed)
    {outside : List (Observation σ) → Turn σ} (houtside : ∀ seen v, (outside seen).Overlooks v)
    {times : Nat} {all : List (Observation σ)} (h : l.Observes resolve o args w outside times all) :
    l.Observes resolve o' args w outside times all := by
  obtain ⟨n, hvariant⟩ := Lambda.variant hg hrange
  obtain ⟨v, hv⟩ := hvariant hc hwords
  obtain ⟨v', hv'⟩ := hvariant hc' hwords'
  obtain ⟨m, w₁, fuel, hlaunch, hplay⟩ := h
  rw [Lambda.launch_compiled ho hc, hv] at hlaunch
  cases hnew : CompiledMachine.new v.image.program none args w with
  | error e =>
    rw [hnew] at hlaunch
    cases hlaunch
  | ok x =>
    obtain ⟨m₀, w₀⟩ := x
    rw [hnew] at hlaunch
    cases hlaunch
    obtain ⟨m', hnew', hpaired⟩ : ∃ m', CompiledMachine.new v'.image.program none args w =
        .ok (m', w₁) ∧ Variant.Paired v v' w.scopes.size m₀ w₁ m' w₁ :=
      Variant.paired_new hw hclosed hnew
    obtain ⟨fuel', hplay'⟩ := hpaired.play (fun seen => houtside seen _) hplay
    refine ⟨.compiled m', w₁, fuel', ?_, hplay'⟩
    rw [Lambda.launch_compiled ho' hc', hv', hnew']
    rfl

/-- If no machine can be made of one program, then none can be made of the other. -/
theorem Lambda.launch_error_transfer {w : World σ} {e : RunError}
    (h : l.launch .compiled resolve o args w = .error e) :
    l.launch .compiled resolve o' args w = .error e := by
  obtain ⟨n, hvariant⟩ := Lambda.variant hg hrange
  obtain ⟨v, hv⟩ := hvariant hc hwords
  obtain ⟨v', hv'⟩ := hvariant hc' hwords'
  have hparams (v : Variant g n resolve) : v.image.program.params = g.params := v.reduces.params
  rw [Lambda.launch_compiled ho hc, hv, CompiledMachine.new_eq, hparams] at h
  rw [Lambda.launch_compiled ho' hc', hv', CompiledMachine.new_eq, hparams]
  split at h
  · rename_i harity
    rw [if_pos harity]
    exact h
  · cases h

end

/-- The optional passes cannot be observed. Of two programs that a lambda compiles to, with some of the
passes or with others, machines can be made with the same arguments, and however often they are
resumed, the same is observed each time.

The host and its state are arbitrary, so the host may keep account of every call made to it, with its
arguments: the calls are the same, in the same order. The outside may depend on all that was observed
before. Both get at the variables of programs only as closures do, and so not at those in which
regions record how they were left. Numbers of variables and codes are kept as machine words, so there
must not be more of them. -/
theorem Lambda.passes_unobservable {l : Lambda} {resolve : Expr.Resolver} {o o' : Options}
    {c c' : Compiled} (ho : o.stepLimit = none) (ho' : o'.stepLimit = none)
    (hc : l.compile resolve o = .ok c) (hc' : l.compile resolve o' = .ok c')
    (hrange : c.graph.InRange) (hwords : ∀ region, c.program.Protects region → ∀ x ∈ region.exits, x.code < 2 ^ 63)
    (hwords' : ∀ region, c'.program.Protects region → ∀ x ∈ region.exits, x.code < 2 ^ 63)
    {w : World σ} (hw : w.Sound) (hclosed : w.Closed) (args : List Value)
    {outside : List (Observation σ) → Turn σ} (houtside : ∀ seen v, (outside seen).Overlooks v) :
    (∀ e, l.launch .compiled resolve o args w = .error e ↔
      l.launch .compiled resolve o' args w = .error e) ∧
    ∀ times all, l.Observes resolve o args w outside times all ↔
      l.Observes resolve o' args w outside times all := by
  obtain ⟨g, hg, hrange⟩ := Lambda.inRange_of_compile hc hrange
  refine ⟨fun e => ⟨fun h => ?_, fun h => ?_⟩, fun times all => ⟨fun h => ?_, fun h => ?_⟩⟩
  · exact Lambda.launch_error_transfer hg hrange ho ho' hc hc' hwords hwords' h
  · exact Lambda.launch_error_transfer hg hrange ho' ho hc' hc hwords' hwords h
  · exact h.transfer hg hrange ho ho' hc hc' hwords hwords' hw hclosed houtside
  · exact h.transfer hg hrange ho' ho hc' hc hwords' hwords hw hclosed houtside

/-! ## A host that keeps account -/

/-- A host that notes the names of the functions that are called. They all give its first task. -/
def Env.noting (names : List String) : Env (List String) where
  functions := ⟨names.map fun name =>
    (name, fun _ => Effect.act fun w => (.task 0, { w with host := w.host ++ [name] }))⟩
  protocols _ := immediateProtocol _
  notify _ _ host := host

/-- The host that takes notes overlooks all variables. -/
theorem Env.noting_overlooks (names : List String) (v : Reserve) : (noting names).Overlooks v where
  call name args := by
    refine Effect.Opaque.overlooks ?_ v
    unfold Functions.call
    split
    · rename_i f hf
      obtain ⟨name', -, heq⟩ := List.mem_map.1 (mem_of_lookup hf)
      cases heq
      exact fun _ => ⟨rfl, fun _ => rfl⟩
    · exact .raise _
  getAwaiter _ a _ := (Effect.Opaque.pure a).overlooks v
  isCompleted _ _ := (Effect.Opaque.pure true).overlooks v
  getResult _ a := (Effect.Opaque.pure a).overlooks v

/-- The first task settles once something was observed. -/
def Turn.settling (seen : List (Observation (List String))) : Turn (List String) where
  takes := true
  before := Effect.act fun w =>
    ((), if seen.isEmpty then w else { w with tasks := #[{ outcome := some (.ok .unit) }] })
  env := .noting ["open", "use", "close"]

/-- The turns that settle tasks overlook all variables. -/
theorem Turn.settling_overlooks (seen : List (Observation (List String))) (v : Reserve) :
    (settling seen).Overlooks v := by
  refine ⟨Effect.Opaque.overlooks (fun w => ?_) v, Env.noting_overlooks _ v⟩
  cases seen <;> exact ⟨rfl, fun _ => rfl⟩

/-- A lambda that waits between two calls, and makes a third one in any case. -/
def Lambda.guardedCalls : Lambda :=
  ⟨none, .async, [], .tryCatch (.call "use" [.await (.call "open" []) "Task" false]) []
    (some (.call "close" []))⟩

/-- A world with a task that has not settled, in which no calls are noted. -/
def World.unnoted : World (List String) := { tasks := #[{}], host := [] }

/-- With all passes or with none, the same calls are made in the same order. -/
theorem Lambda.guardedCalls_unobservable : ∃ c c' all,
    Lambda.guardedCalls.compile .tasks {} = .ok c ∧
    Lambda.guardedCalls.compile .tasks .unoptimized = .ok c' ∧
    c.program.entry.count < c'.program.entry.count ∧
    Lambda.guardedCalls.Observes .tasks {} [] World.unnoted Turn.settling 2 all ∧
    Lambda.guardedCalls.Observes .tasks .unoptimized [] World.unnoted Turn.settling 2 all ∧
    (all.map fun x => (x.result.toOption, x.world.host)) =
      [(some .suspended, ["open"]), (some (.completed (.task 0)), ["open", "use", "close"])] := by
  have hcount : ((Lambda.guardedCalls.compile .tasks {}).toOption.bind fun c =>
      (Lambda.guardedCalls.compile .tasks .unoptimized).toOption.bind fun c' =>
        some (decide (c.program.entry.count < c'.program.entry.count), decide c.graph.InRange,
          c.program.entry.blocks.all fun b => b.instrs.toList.all Instr.fitsWords,
          c'.program.entry.blocks.all fun b => b.instrs.toList.all Instr.fitsWords)) =
      some (true, true, true, true) := by
    cbv
  have hrun : ((Lambda.guardedCalls.launch .compiled .tasks {} []
        World.unnoted).toOption.bind fun x =>
      (x.1.play Turn.settling 64 2 [] x.2).bind fun all =>
        some (all.map fun x => (x.result.toOption, x.world.host))) =
      some [(some .suspended, ["open"]),
        (some (.completed (.task 0)), ["open", "use", "close"])] := by
    cbv
  obtain ⟨c, hc, hcount⟩ := bind_toOption_eq_some hcount
  obtain ⟨c', hc', hcount⟩ := bind_toOption_eq_some hcount
  obtain ⟨⟨m, w⟩, hlaunch, hrun⟩ := bind_toOption_eq_some hrun
  obtain ⟨all, hplay, hall⟩ := Option.bind_eq_some_iff.1 hrun
  simp only [Option.some.injEq, Prod.mk.injEq] at hcount hall
  obtain ⟨hlt, hrange, hwords, hwords'⟩ := hcount
  have hobserves : Lambda.guardedCalls.Observes .tasks {} [] World.unnoted Turn.settling 2
      all := ⟨m, w, 64, hlaunch, hplay⟩
  have hclosed : World.unnoted.Closed := fun _ _ hk => by cases hk
  have hsame := Lambda.passes_unobservable rfl rfl hc hc' (of_decide_eq_true hrange)
    (Program.fitsWords hwords) (Program.fitsWords hwords') (.of_empty rfl) hclosed []
    Turn.settling_overlooks
  exact ⟨c, c', all, hc, hc', of_decide_eq_true hlt, hobserves, (hsame.2 2 all).1 hobserves, hall⟩

end Coroutine

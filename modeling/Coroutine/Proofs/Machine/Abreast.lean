import Mathlib
import Coroutine.Proofs.Machine.Delivery
import Coroutine.Proofs.Program.Variants

/-!
# Machines of two variants, step by step

Machines of two variants of a program run abreast: control stands in the same region of both, before
instructions that are alike, or is bound for states that correspond (`Variant.Abreast`). One step from
there keeps the machines alike and abreast: `Variant.stepAt_couples`.
-/

namespace Coroutine

open Assembly

/-- Instructions that are alike evaluate the same expressions. -/
theorem Instr.Alike.exprs_eq {γ : Likeness} {K : Linkage} {i i' : Instr} (h : i.Alike γ K i') :
    i'.exprs = i.exprs := by
  cases h with
  | @switch e arms arms' t t' harms ht =>
    have htests : arms'.flatMap Prod.fst = arms.flatMap Prod.fst := by
      induction harms with
      | nil => rfl
      | cons ha _ ih => rw [List.flatMap_cons, List.flatMap_cons, ha.1, ih]
    simp only [Instr.exprs, htests]
  | _ => rfl

/-- The instructions before which control stands are in the block. -/
theorem Assembly.Image.Facing.sees {im : Image} {r pc : Nat} {is : List Instr} {o : Option Nat}
    (h : im.Facing r pc is o) (hr : im.Renders r) : im.Sees r is := by
  obtain ⟨post, hafter⟩ := h
  intro i hi t ht
  refine hr.reaches_target (i := i) ?_ ht
  refine List.mem_of_mem_drop (i := pc) ?_
  change i ∈ (im.block r).after pc
  rw [hafter]
  exact List.mem_append_left _ hi

namespace Variant

variable {g : Graph} {n : Nat} {resolve : Expr.Resolver} {v v' : Variant g n resolve}
  {k q r s pc pc' : Nat} {p p' : Position}

/-! ## Positions -/

/-- Control stands in the block of a region. -/
structure Stands (v : Variant g n resolve) (r : Nat) (p : Position) : Prop where
  mem : r ∈ v.image.regions
  block : p.block = v.image.block r
  nested : v.image.Nested r p.enclosing

theorem Stands.entered (h : v.Stands r p) : v.image.Entered r := h.nested.entered v.regular' h.mem

theorem Stands.renders (h : v.Stands r p) : v.image.Renders r := v.faithful.renders r h.mem

variable (v v' k) in
/-- Control stands at corresponding places of a region. -/
inductive Beside (r pc pc' : Nat) : Prop
  | bound {c c' : Nat} (h : v.image.Bound r pc c) (h' : v'.image.Bound r pc' c')
      (heq : g.remap c = g.remap c')
  | facing {i i' : Instr} {is is' : List Instr} {o o' : Option Nat}
      (h : v.image.Facing r pc (i :: is) o) (h' : v'.image.Facing r pc' (i' :: is') o')
      (hi : i.Alike (v.likeness v' k) (v.linkage v' r) i')
      (his : List.Forall₂ (Instr.Alike (v.likeness v' k) (v.linkage v' r)) is is')
      (ho : Option.Rel (fun c c' => g.remap c = g.remap c') o o')
      (hends : o = none → ∃ j, (i :: is).getLast? = some j ∧ j.continues = false)

/-- Without instructions left, control is bound for the states behind them. -/
theorem Beside.of_facing {is is' : List Instr} {o o' : Option Nat} (h : v.image.Facing r pc is o)
    (h' : v'.image.Facing r pc' is' o')
    (his : List.Forall₂ (Instr.Alike (v.likeness v' k) (v.linkage v' r)) is is')
    (ho : Option.Rel (fun c c' => g.remap c = g.remap c') o o')
    (hends : o = none → ∃ j, is.getLast? = some j ∧ j.continues = false) :
    v.Beside v' k r pc pc' := by
  cases his with
  | cons hi his => exact .facing h h' hi his ho hends
  | nil =>
    cases ho with
    | none =>
      obtain ⟨j, hj, -⟩ := hends rfl
      cases hj
    | some heq => exact .bound h.bound h'.bound heq

/-- Both go on behind instructions that do not end a run. -/
theorem Beside.advance {i i' : Instr} {is is' : List Instr} {o o' : Option Nat}
    (h : v.image.Facing r pc (i :: is) o) (h' : v'.image.Facing r pc' (i' :: is') o')
    (his : List.Forall₂ (Instr.Alike (v.likeness v' k) (v.linkage v' r)) is is')
    (ho : Option.Rel (fun c c' => g.remap c = g.remap c') o o')
    (hends : o = none → ∃ j, (i :: is).getLast? = some j ∧ j.continues = false)
    (hi : i.continues = true) : v.Beside v' k r (pc + 1) (pc' + 1) := by
  refine .of_facing h.advance h'.advance his ho fun hnone => ?_
  obtain ⟨j, hj, hcont⟩ := hends hnone
  cases is with
  | nil =>
    obtain rfl : i = j := Option.some.inj hj
    rw [hi] at hcont
    cases hcont
  | cons i₁ is => exact ⟨j, by rwa [List.getLast?_cons_cons] at hj, hcont⟩

variable (v v' k) in
/-- Control stands at corresponding places. -/
def Abreast (p p' : Position) : Prop :=
  ∃ r, v.Stands r p ∧ v'.Stands r p' ∧ v.Beside v' k r p.pc p'.pc

/-! ## Regions around -/

theorem nested_top {enc : List Enclosing} (h : v.image.Nested r enc) :
    enc = [] ↔ r = Graph.top := by
  cases enc with
  | nil => exact ⟨fun _ => h, fun _ => rfl⟩
  | cons e rest =>
    refine ⟨nofun, ?_⟩
    rintro rfl
    obtain ⟨q, s, t, -, hsur, -⟩ := h.surrounds v.regular'
    cases hsur.parent.symm.trans v.regular'.zoned.parentRegion_top

/-- Behind a region that both programs have, they stand abreast again. -/
theorem around {e e' : Enclosing} {rest rest' : List Enclosing}
    (h : v.image.Nested r (e :: rest)) (h' : v'.image.Nested r (e' :: rest')) :
    ∃ q s t, Enters v v' q s t ∧ t.region = r ∧
      e.region = v.image.tryRegion s (t.rename v.renames) ∧
      e'.region = v'.image.tryRegion s (t.rename v'.renames) ∧
      v.Abreast v' k ⟨e.block, e.pc + 1, rest⟩ ⟨e'.block, e'.pc + 1, rest'⟩ := by
  obtain ⟨q, s, t, hq, hsur, hregion, hblock, hi, hrest⟩ := h.surrounds v.regular'
  obtain ⟨q', s', t', hq', hsur', hregion', hblock', hi', hrest'⟩ := h'.surrounds v'.regular'
  -- which state enters the region, and in which one, is for the graph to say
  obtain rfl : q = q' := by
    have hparent := hsur.parent
    have hparent' := hsur'.parent
    rw [v.reduces.parentRegion?_eq] at hparent
    rw [v'.reduces.parentRegion?_eq, hparent] at hparent'
    exact Option.some.inj hparent'
  obtain rfl : s = s' := by
    have howner := hsur.owner
    have howner' := hsur'.owner
    rw [v.reduces.zone_eq] at howner
    rw [v'.reduces.zone_eq, howner] at howner'
    exact Option.some.inj howner'
  obtain ⟨t₀, ht₀, rfl⟩ := v.tryCatch hsur.live hsur.transition
  obtain ⟨t₁, ht₁, rfl⟩ := v'.tryCatch hsur'.live hsur'.transition
  obtain rfl : t₀ = t₁ := by
    rw [ht₀] at ht₁
    cases ht₁
    rfl
  obtain rfl : t₀.region = r := hsur.region
  have hentered : v.image.Entered q := hrest.entered v.regular' hq
  have hentered' : v'.image.Entered q := hrest'.entered v'.regular' hq'
  have henters : Enters v v' q s t₀ := enters hentered hentered' hsur.mem hsur'.mem ht₀
  rw [hregion] at hi
  rw [hregion'] at hi'
  have hfacing {w : Variant g n resolve} {pc : Nat}
      (h : ∃ post, (w.image.block q).after pc =
        w.image.afterRegion post.head? (t₀.rename w.renames) ++ w.image.statesCode post) :
      w.image.Facing q pc (w.image.decision (t₀.rename w.renames))
        (t₀.rename w.renames).cleanup := by
    obtain ⟨post, hafter⟩ := h
    refine ⟨post, ?_⟩
    rw [hafter, Image.afterRegion_eq, List.append_assoc]
  have hface := hfacing (hsur.after v.regular' v.faithful hentered hi)
  have hface' := hfacing (hsur'.after v'.regular' v'.faithful hentered' hi')
  refine ⟨q, s, t₀, henters, rfl, hregion, hregion', q, ⟨hq, hblock, hrest⟩,
    ⟨hq', hblock', hrest'⟩, ?_⟩
  refine .of_facing hface hface' (henters.decision_alike (hface.sees (v.faithful.renders q hq))
    (hface'.sees (v'.faithful.renders q hq'))) ?_ fun ho => ?_
  · simp only [RegionEntry.rename]
    cases t₀.cleanup with
    | none => exact .none
    | some c => exact .some (by rw [v.remap_renames, v'.remap_renames])
  · rw [Image.decision, ho]
    exact ⟨_, rfl, rfl⟩

/-! ## Leaving regions -/

/-- A code that fits into a word is read back. -/
theorem recorded_ofInt {c : Int} (hle : -1 ≤ c) (hlt : c < 2 ^ 63) :
    (Value.int (Int64.ofInt c)).recorded = c := by
  have hword : (Int64.ofInt c).toInt = c := Int64.toInt_ofInt_of_le (by omega) (by omega)
  exact hword

section

variable {σ : Type} {t : RegionEntry}

/-- The code of a caught exception means the same in both programs. -/
theorem Enters.means_caught (h : Enters v v' q s t)
    (hp : v.image.program.Protects (v.image.tryRegion s (t.rename v.renames)))
    (hp' : v'.image.program.Protects (v'.image.tryRegion s (t.rename v'.renames))) {e : Fault}
    {c : Int} (hc : (v.image.tryRegion s (t.rename v.renames)).catchCode? e = some c) :
    v.Means v' t.tryState.word (.int (Int64.ofInt c)) (.int (Int64.ofInt c)) := by
  rw [v.word_eq h.entry.tryState]
  intro r hr hin hin'
  obtain rfl := v.regular.unique _ _ _ h.records hr
  have hcode : c = unhandled ∨ ∃ b ∈ t.handlers, b.code = c := by
    rw [TryRegion.catchCode?] at hc
    split at hc
    · rename_i filter code hfind
      obtain ⟨b, hb, heq⟩ := List.mem_map.1 (List.mem_of_find?_eq_some hfind)
      obtain ⟨b₀, hb₀, rfl⟩ := List.mem_map.1 hb
      refine .inr ⟨b₀, hb₀, ?_⟩
      exact (Prod.mk.inj heq).2.trans (Option.some.inj hc)
    · split at hc
      · exact .inl (Option.some.inj hc).symm
      · cases hc
  -- the codes of exits come after those of the handlers
  have hside {w : Variant g n resolve} (hsur : w.image.Surrounds q t.region s (t.rename w.renames))
      (hin : t.region ∈ w.image.regions)
      (hp : w.image.program.Protects (w.image.tryRegion s (t.rename w.renames))) :
      ∀ x ∈ w.image.exits t.region, x.code ≠ (Value.int (Int64.ofInt c)).recorded := by
    intro x hx
    have hrenders := w.faithful.renders _ hin
    have hpos := hrenders.exit_code_pos hx
    have hword : x.code < 2 ^ 63 := w.words _ hp x hx
    rcases hcode with rfl | ⟨b, hb, rfl⟩
    · rw [recorded_ofInt (by simp [unhandled]) (by simp [unhandled]), unhandled]
      omega
    · have hx' : x.code ∈ (w.image.exits t.region).map RegionExit.code := List.mem_map_of_mem hx
      rw [hrenders.exit_codes, hsur.handlerCount] at hx'
      obtain ⟨i, hi, hxi⟩ := List.mem_map.1 hx'
      have hb' : b.code ∈ t.handlers.map HandlerEntry.code := List.mem_map_of_mem hb
      rw [h.entry.codes] at hb'
      obtain ⟨j, hj, hbj⟩ := List.mem_map.1 hb'
      have hlength : (t.rename w.renames).handlers.length = t.handlers.length := by
        simp [RegionEntry.rename]
      rw [hlength] at hi
      have hi' := (List.mem_range'_1.1 hi).1
      have hj' := List.mem_range'_1.1 hj
      have hlt : b.code < x.code := by
        rw [← hbj, ← hxi]
        exact Int.ofNat_lt.2 (by omega)
      have hnonneg : 0 ≤ b.code := hbj ▸ Int.natCast_nonneg j
      rw [recorded_ofInt (by omega) (by omega)]
      omega
  exact .inl ⟨rfl, hside h.left hin hp, hside h.right hin' hp'⟩

variable (v v') in
theorem catchCode?_rename (t : RegionEntry) (e : Fault) :
    (v'.image.tryRegion s (t.rename v'.renames)).catchCode? e =
      (v.image.tryRegion s (t.rename v.renames)).catchCode? e := by
  simp only [TryRegion.catchCode?, Image.tryRegion, RegionEntry.rename, List.map_map,
    Function.comp_def, Option.isSome_map]

/-- Both machines hand an exception to the same region. -/
theorem catchIn_couples (x : Exception) : ∀ {enc enc' : List Enclosing} {r : Nat},
    v.image.Nested r enc → v'.image.Nested r enc' →
      (v.likeness v' k).Couples (CompiledMachine.catchIn x enc : Exec σ Position)
        (CompiledMachine.catchIn x enc') (v.Abreast v' k)
  | [], [], _, _, _ => .throw _
  | [], e' :: rest', r, h, h' => by
    cases (nested_top h').2 h
  | e :: rest, [], r, h, h' => by
    cases (nested_top h).2 h'
  | e :: rest, e' :: rest', r, h, h' => by
    obtain ⟨q, s, t, henters, rfl, hregion, hregion', habreast⟩ := around (k := k) h h'
    have hp := h.mem_blocks.2 e List.mem_cons_self
    have hp' := h'.mem_blocks.2 e' List.mem_cons_self
    rw [hregion] at hp
    rw [hregion'] at hp'
    rw [CompiledMachine.catchIn, CompiledMachine.catchIn, hregion, hregion',
      catchCode?_rename v v']
    cases hc : (v.image.tryRegion s (t.rename v.renames)).catchCode? x.toFault with
    | none =>
      obtain ⟨q', hstands, hstands', -⟩ := habreast
      exact catchIn_couples x hstands.nested hstands'.nested
    | some c =>
      have hheld : (v.likeness v' k).reserve.held t.tryState.word :=
        ⟨t.tryState, henters.entry.tryState, rfl⟩
      exact (Likeness.Couples.write henters.entry.exception _).bind fun _ _ _ =>
        (Likeness.Couples.write_record hheld (henters.means_caught hp hp' hc)).bind fun _ _ _ =>
          .pure habreast

/-- Both machines leave a region for corresponding targets. -/
theorem leaveTo_couples (hs : v.Stands r p) (hs' : v'.Stands r p') {a a' : Target}
    (hsame : g.SameTarget a a') (ha : a ∈ (v.image.exits r).map RegionExit.target)
    (ha' : a' ∈ (v'.image.exits r).map RegionExit.target) :
    (v.likeness v' k).Couples (CompiledMachine.leaveTo a p.enclosing : Exec σ Position)
      (CompiledMachine.leaveTo a' p'.enclosing) (v.Abreast v' k) := by
  obtain ⟨hn, hn'⟩ : v.image.Nested r p.enclosing ∧ v'.image.Nested r p'.enclosing :=
    ⟨hs.nested, hs'.nested⟩
  have hnottop : r ≠ Graph.top := by
    rintro rfl
    rw [hs.renders.exits_top v.regular'.zoned] at ha
    cases ha
  match henc : p.enclosing, henc' : p'.enclosing with
  | [], _ => exact absurd ((nested_top hn).1 henc) hnottop
  | _ :: _, [] => exact absurd ((nested_top hn').1 henc') hnottop
  | e :: rest, e' :: rest' =>
    rw [henc] at hn
    rw [henc'] at hn'
    obtain ⟨q, s, t, henters, rfl, hregion, hregion', habreast⟩ := around (k := k) hn hn'
    have hp := hn.mem_blocks.2 e List.mem_cons_self
    have hp' := hn'.mem_blocks.2 e' List.mem_cons_self
    -- each program has one code for its target
    have hfind {w : Variant g n resolve} {a : Target}
        (ha : a ∈ (w.image.exits t.region).map RegionExit.target) :
        ∃ x ∈ w.image.exits t.region, x.target = a ∧
          (w.image.tryRegion s (t.rename w.renames)).exitCode? a = some x.code := by
      obtain ⟨x, hx⟩ := Option.isSome_iff_exists.1 (List.find?_isSome.2
        ((List.mem_map.1 ha).imp fun x hx => ⟨hx.1, beq_iff_eq.2 hx.2⟩))
      refine ⟨x, List.mem_of_find?_eq_some hx, by simpa using List.find?_some hx, ?_⟩
      exact congrArg (Option.map RegionExit.code) hx
    obtain ⟨x, hx, rfl, hcode⟩ := hfind ha
    obtain ⟨x', hx', rfl, hcode'⟩ := hfind ha'
    have hheld : (v.likeness v' k).reserve.held t.tryState.word :=
      ⟨t.tryState, henters.entry.tryState, rfl⟩
    have hword {w : Variant g n resolve} {x : RegionExit} (hin : t.region ∈ w.image.regions)
        (hp : w.image.program.Protects (w.image.tryRegion s (t.rename w.renames)))
        (hx : x ∈ w.image.exits t.region) :
        (Value.int (Int64.ofInt x.code)).recorded = x.code := by
      have hpos := (w.faithful.renders _ hin).exit_code_pos hx
      exact recorded_ofInt (by omega) (w.words _ hp x hx)
    have hmeans : v.Means v' t.tryState.word (.int (Int64.ofInt x.code))
        (.int (Int64.ofInt x'.code)) := by
      rw [v.word_eq henters.entry.tryState]
      intro r hr _ _
      obtain rfl := v.regular.unique _ _ _ henters.records hr
      exact .inr ⟨x, hx, x', hx', hword henters.inLeft (hregion ▸ hp) hx,
        hword henters.inRight (hregion' ▸ hp') hx', hsame⟩
    rw [CompiledMachine.leaveTo, CompiledMachine.leaveTo, hregion, hregion', hcode, hcode']
    exact (Likeness.Couples.write_record hheld hmeans).bind fun _ _ _ => .pure habreast

/-! ## Entering regions -/

/-- A block begins with the state that runs first in its region. -/
theorem atLabel_start (hr : v.image.Entered r) {c : Nat}
    (hstart : v.image.graph.regionStart? r = some c) (hc : c ∈ v.image.graph.regionNodes r) :
    v.image.AtLabel r 0 c := by
  have hhead := v.regular'.head?_regionNodes v.laid hr.lt hr.isRegion hstart hc
  obtain ⟨post, hnodes⟩ := List.head?_eq_some_iff.1 hhead
  refine ⟨post, ?_⟩
  rw [Block.after, List.drop_zero, (v.faithful.renders r hr.mem).instrs, hnodes]

/-- Both machines enter the region of a state that both programs have. -/
theorem Enters.beside (h : Enters v v' q s t) : v.Beside v' k t.region 0 0 := by
  have hside {w : Variant g n resolve} (hsur : w.image.Surrounds q t.region s (t.rename w.renames))
      (hin : t.region ∈ w.image.regions) :
      w.image.Bound t.region 0 (w.renames t.body) := by
    obtain ⟨hstart, hbody⟩ := hsur.start w.regular'
    exact .inr (atLabel_start ⟨hin, hsur.lt, hsur.isRegion⟩ hstart hbody)
  exact .bound (hside h.left h.inLeft) (hside h.right h.inRight)
    (by rw [v.remap_renames, v'.remap_renames])

/-- Machines that are alike start a block afresh together. -/
theorem start_iff {a b : Durable × World σ} (h : (v.likeness v' k).Twins a b)
    (hstart : a.1.state = startState) : b.1.state = startState := by
  rcases h.stored with ⟨heq, -⟩ | ⟨c, c', hc, -⟩
  · exact heq.trans hstart
  · rw [hstart] at hc
    cases hc

theorem enter_couples (hs : v.Stands r p) (hs' : v'.Stands r p') {R R' : TryRegion}
    (hi : p.block.instrs[p.pc]? = some (.region R))
    (hi' : p'.block.instrs[p'.pc]? = some (.region R')) (h : (v.linkage v' r).region R R') :
    v.Abreast v' k ⟨R.block, 0, ⟨R, p.block, p.pc⟩ :: p.enclosing⟩
      ⟨R'.block, 0, ⟨R', p'.block, p'.pc⟩ :: p'.enclosing⟩ := by
  obtain ⟨s, t, ht, hmem, hmem', rfl, rfl⟩ := h
  have henters := enters hs.entered hs'.entered hmem hmem' ht
  have hnested {w : Variant g n resolve} {p : Position} (hs : w.Stands r p)
      (hsur : w.image.Surrounds r t.region s (t.rename w.renames))
      (hi : p.block.instrs[p.pc]? = some (.region (w.image.tryRegion s (t.rename w.renames)))) :
      w.image.Nested t.region
        (⟨w.image.tryRegion s (t.rename w.renames), p.block, p.pc⟩ :: p.enclosing) := by
    rw [hs.block] at hi ⊢
    exact ⟨r, s, _, hs.mem, hsur.mem, hsur.transition, rfl, rfl, rfl, hi, hs.nested⟩
  exact ⟨t.region, ⟨henters.inLeft, rfl, hnested hs henters.left hi⟩,
    ⟨henters.inRight, rfl, hnested hs' henters.right hi'⟩, henters.beside⟩

/-! ## Steps -/

/-- What a step comes to in both machines. -/
def StepAlike (v v' : Variant g n resolve) (k : Nat) : Position ⊕ Flow → Position ⊕ Flow → Prop
  | .inl p, .inl p' => v.Abreast v' k p p'
  | .inr f, .inr f' => f' = f
  | _, _ => False

/-- Both machines jump to corresponding targets. -/
theorem jump_couples (hs : v.Stands r p) (hs' : v'.Stands r p') {a a' : Target}
    (h : (v.linkage v' r).target a a') :
    (v.likeness v' k).Couples
      (CompiledMachine.proceed p (.jump a) : Exec σ (Position ⊕ Flow))
      (CompiledMachine.proceed p' (.jump a')) (v.StepAlike v' k) := by
  obtain ⟨⟨c, c', rfl, rfl, heq⟩, hreach, hreach'⟩ := h
  have hiff := v.isSome_position? hs.entered hreach
  have hiff' := v'.isSome_position? hs'.entered hreach'
  rw [Graph.region_eq_of_remap heq, ← hiff] at hiff'
  rw [CompiledMachine.proceed, CompiledMachine.proceed, hs.block, hs'.block]
  cases hpos : (v.image.block r).position? (.state c) with
  | some pc =>
    obtain ⟨pc', hpos'⟩ : ∃ pc', (v'.image.block r).position? (.state c') = some pc' :=
      Option.isSome_iff_exists.1 (hiff'.2 (by rw [hpos]; rfl))
    rw [hpos']
    refine .pure ⟨r, ⟨hs.mem, rfl, hs.nested⟩, ⟨hs'.mem, rfl, hs'.nested⟩, ?_⟩
    exact .bound (.inr (hs.renders.atLabel (Block.getElem?_of_position? hpos)))
      (.inr (hs'.renders.atLabel (Block.getElem?_of_position? hpos'))) heq
  | none =>
    have hpos' : (v'.image.block r).position? (.state c') = none := by
      rw [← Option.not_isSome_iff_eq_none, hiff', hpos]
      simp
    rw [hpos']
    have hexit := hreach.resolve_left (by simp [hpos])
    have hexit' := hreach'.resolve_left (by simp [hpos'])
    exact (leaveTo_couples hs hs' ⟨c, c', rfl, rfl, heq⟩ hexit hexit').bind fun _ _ hp => .pure hp

/-- The expressions of an instruction that both programs have suit both. -/
theorem suits {m m' : CompiledMachine} (hm : m.program = v.image.program)
    (hm' : m'.program = v'.image.program) (hs : v.Stands r p) (hs' : v'.Stands r p') {i i' : Instr}
    (hi : i ∈ (v.image.block r).instrs.toList) (hi' : i' ∈ (v'.image.block r).instrs.toList)
    (hexprs : i'.exprs = i.exprs) {e : CompiledExpr} (he : e ∈ i.exprs) :
    e.Suits (v.likeness v' k) (v.linkage v' r) m m' := by
  have hserves := hs.renders.serves v.regular' (fun c hc => hs.entered.live v.regular' hc) hi
  refine ⟨?_, fun l hl => ?_⟩
  · have hsound := hserves.sound e he
    rw [v.reduces.setting_eq] at hsound
    exact hsound
  · obtain ⟨b, hb, hreach⟩ := hs.renders.reaches_escape hi he hl
    obtain ⟨b', hb', hreach'⟩ := hs'.renders.reaches_escape hi' (hexprs ▸ he) hl
    -- both labels are one of the graph
    have hlabel {w : Variant g n resolve} {b : LabelBinding}
        (hb : w.image.graph.labels.lookup l = some b) : ∃ b₀, g.labels.lookup l = some b₀ ∧
          b = { b₀ with state := w.renames b₀.state } := by
      have hmap := Image.lookup_map_snd
        (fun b : LabelBinding => { b with state := w.renames b.state }) l g.labels
      rw [w.reduces.labels] at hb
      obtain ⟨b₀, hb₀, heq⟩ := Option.map_eq_some_iff.1 (hmap.symm.trans hb)
      exact ⟨b₀, hb₀, heq.symm⟩
    obtain ⟨b₀, hb₀, rfl⟩ := hlabel hb
    obtain ⟨b₁, hb₁, rfl⟩ := hlabel hb'
    obtain rfl := Option.some.inj (hb₀.symm.trans hb₁)
    refine ⟨⟨.state (v.renames b₀.state), b₀.var⟩, ⟨.state (v'.renames b₀.state), b₀.var⟩,
      hm ▸ Image.lookup_labels v.regular' hb, hm' ▸ Image.lookup_labels v'.regular' hb',
      ⟨v.sameTarget v' b₀.state, hreach, hreach'⟩, rfl, fun x hx => ?_⟩
    exact ((v.regular.label l b₀ (mem_of_lookup hb₀)).2 x hx).1

/-- One step before instructions that are alike. -/
theorem stepAt_couples {env : Env σ} (henv : env.Overlooks (v.likeness v' k).reserve) {fuel : Nat}
    {m m' : CompiledMachine} (hm : m.program = v.image.program)
    (hm' : m'.program = v'.image.program) (hlimit : m'.limit = m.limit) (hs : v.Stands r p)
    (hs' : v'.Stands r p') {i i' : Instr} {is is' : List Instr} {o o' : Option Nat}
    (h : v.image.Facing r p.pc (i :: is) o) (h' : v'.image.Facing r p'.pc (i' :: is') o')
    (hi : i.Alike (v.likeness v' k) (v.linkage v' r) i')
    (his : List.Forall₂ (Instr.Alike (v.likeness v' k) (v.linkage v' r)) is is')
    (ho : Option.Rel (fun c c' => g.remap c = g.remap c') o o')
    (hends : o = none → ∃ j, (i :: is).getLast? = some j ∧ j.continues = false)
    {a b : Durable × World σ} (hab : (v.likeness v' k).Twins a b)
    (hstart : ∀ R, i = .region R → a.1.state = startState)
    {res : Except RunError (Position ⊕ Flow)} {a' : Durable × World σ}
    (hstep : m.stepAt env fuel p i a = some (res, a')) :
    ∃ res' b', m'.stepAt env fuel p' i' b = some (res', b') ∧ (v.likeness v' k).Twins a' b' ∧
      Likeness.Agree (v.StepAlike v' k) res res' := by
  have hexec : (v.likeness v' k).Couples (m.exec env fuel i) (m'.exec env fuel i') _ :=
    CompiledMachine.exec_couples henv hlimit hi fun e he =>
      suits hm hm' hs hs' (Block.mem_of_getElem? h.head) (Block.mem_of_getElem? h'.head)
        hi.exprs_eq he
  unfold CompiledMachine.stepAt at hstep ⊢
  rcases hrun : m.exec env fuel i a with _ | ⟨r₁, a₁⟩
  · rw [hrun] at hstep
    cases hstep
  · obtain ⟨r₂, b₁, hrun', hab₁, hagree⟩ := hexec a b hab r₁ a₁ hrun
    rw [hrun] at hstep
    rw [hrun']
    -- the results of the two instructions correspond, so only the like cases are left
    match r₁, r₂, hagree with
    | .error e, .error _, rfl =>
      cases e with
      | thrown x =>
        have hcatch : (v.likeness v' k).Couples
            (Sum.inl <$> CompiledMachine.catchIn x p.enclosing : Exec σ (Position ⊕ Flow))
            (Sum.inl <$> CompiledMachine.catchIn x p'.enclosing) (v.StepAlike v' k) := by
          rw [map_eq_pure_bind, map_eq_pure_bind]
          exact (catchIn_couples x hs.nested hs'.nested).bind fun _ _ hp => .pure hp
        exact hcatch a₁ b₁ hab₁ res a' hstep
      | _ =>
        cases hstep
        exact ⟨_, b₁, rfl, hab₁, rfl⟩
    | .ok next, .ok next', hnext =>
      have hfollows := CompiledMachine.exec_follows env fuel m i a _ _ hrun next rfl
      have hstate := (CompiledMachine.exec_durable env fuel m i a.1 a.2 _ _ hrun).1
      match next, next', hnext with
      | .advance, .advance, _ =>
        cases hfollows with
        | advance hadv =>
          cases hstep
          exact ⟨_, b₁, rfl, hab₁, r, ⟨hs.mem, hs.block, hs.nested⟩,
            ⟨hs'.mem, hs'.block, hs'.nested⟩,
            Beside.advance h h' his ho hends (Instr.continues_of_advances hadv)⟩
      | .jump t, .jump t', htarget => exact jump_couples hs hs' htarget a₁ b₁ hab₁ res a' hstep
      | .stop f, .stop _, rfl =>
        cases hstep
        exact ⟨_, b₁, rfl, hab₁, rfl⟩
      | .enter R, .enter R', hregion =>
        have hfollows' := CompiledMachine.exec_follows env fuel m' i' b _ _ hrun' _ rfl
        cases hfollows
        cases hfollows'
        have hfresh : a₁.1.state = startState := hstate.trans (hstart R rfl)
        have henter {p : Position} {R : TryRegion} {c : Durable × World σ}
            (hc : c.1.state = startState) : CompiledMachine.proceed p (.enter R) c =
              some (.ok (.inl ⟨R.block, 0, ⟨R, p.block, p.pc⟩ :: p.enclosing⟩), c) := by
          rw [CompiledMachine.proceed, Exec.bind_ok (CompiledMachine.entryPoint_start hc c.2)]
          rfl
        simp only [henter hfresh] at hstep
        cases hstep
        simp only [henter (start_iff hab₁ hfresh)]
        refine ⟨_, b₁, rfl, hab₁, enter_couples hs hs' ?_ ?_ hregion⟩
        · rw [hs.block]
          exact h.head
        · rw [hs'.block]
          exact h'.head

end

end Variant

end Coroutine

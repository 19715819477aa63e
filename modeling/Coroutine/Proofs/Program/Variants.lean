import Mathlib
import Coroutine.Proofs.Program.Dispatch
import Coroutine.Proofs.Program.Places
import Coroutine.Proofs.Machine.Twins

/-!
# Variants of a program

A graph is assembled after some of its no-ops were passed by and some of its states removed. Two
programs that come from one graph in this way are `Variant`s of each other: a target of one
corresponds to a target of the other if the no-ops behind both end at the same state. The
instructions of a state that both have are alike (`Variant.code_alike`).
-/

namespace Coroutine

open Assembly

/-- The entry of a region with its states renamed. -/
def RegionEntry.rename (f : Nat → Nat) (t : RegionEntry) : RegionEntry :=
  { t with
    body := f t.body
    handlers := t.handlers.map fun h => { h with body := f h.body }
    cleanup := t.cleanup.map f
    join := f t.join }

/-- Targets behind which the same state comes, once no-ops are passed by. -/
def Graph.SameTarget (g : Graph) (t t' : Target) : Prop :=
  ∃ a b, t = .state a ∧ t' = .state b ∧ g.remap a = g.remap b

/-- States at which no-ops go on to the same state lie in the same region. -/
theorem Graph.region_eq_of_remap {g : Graph} {a b : Nat} (h : g.remap a = g.remap b) :
    (g.state b).region = (g.state a).region := by
  rw [← (passed_remap a).region, ← (passed_remap b).region, h]

/-! ## Exits -/

namespace Assembly.Image

variable {im : Image} {r : Nat}

namespace Renders

variable (h : im.Renders r)
include h

/-- The exits of a region are numbered behind its handlers. -/
theorem exit_codes : (im.exits r).map RegionExit.code =
    (List.range' (handlerCount im.graph r + 1) (im.exits r).length).map Int.ofNat := by
  obtain ⟨labels, -, hexits⟩ := h.exists_exits
  exact exitCodes_codes hexits

/-- No exit has the code of a region that was left normally. -/
theorem exit_code_pos {x : RegionExit} (hx : x ∈ im.exits r) : 0 < x.code := by
  have hmem : x.code ∈ (im.exits r).map RegionExit.code := List.mem_map_of_mem hx
  rw [h.exit_codes] at hmem
  obtain ⟨k, hk, hcode⟩ := List.mem_map.1 hmem
  rw [← hcode]
  have := (List.mem_range'_1.1 hk).1
  exact Int.natCast_pos.2 (by omega)

/-- Each exit has a case of its own. -/
theorem lookup_exitCases {x : RegionExit} (hx : x ∈ im.exits r) :
    (im.exitCases r).lookup x.code = some x.target := by
  refine lookup_of_mem ?_ (List.mem_map_of_mem (f := fun e => (e.code, e.target)) hx)
  have hcodes : (im.exitCases r).map Prod.fst = (im.exits r).map RegionExit.code := by
    simp [exitCases]
  rw [hcodes, h.exit_codes]
  have hrange : (List.range' (handlerCount im.graph r + 1) (im.exits r).length).Nodup :=
    List.nodup_range'
  exact hrange.map fun a b hab => Int.ofNat.inj hab

end Renders

/-- There are no cases but those of the exits. -/
theorem lookup_exitCases_eq_none {c : Int} (h : ∀ x ∈ im.exits r, x.code ≠ c) :
    (im.exitCases r).lookup c = none := by
  rw [List.lookup_eq_none_iff]
  intro p hp
  obtain ⟨x, hx, rfl⟩ := List.mem_map.1 hp
  simpa using (h x hx).symm

/-- The targets that instructions name are in sight of a region. -/
def Sees (im : Image) (r : Nat) (is : List Instr) : Prop :=
  ∀ i ∈ is, ∀ t ∈ i.targets, im.Reaches r t

end Assembly.Image

/-- The targets of handlers by their codes. -/
def handlerCases (f : Nat → Nat) (handlers : List (Int × Nat)) : List (Int × Target) :=
  handlers.map fun (c, b) => (c, .state (f b))

/-! ## Variants -/

/-- A program that comes from a graph whose first temporary has the number `n`. -/
structure Variant (g : Graph) (n : Nat) (resolve : Expr.Resolver) where
  image : Image
  /-- Where a reference to a state leads in this program. -/
  renames : Nat → Nat
  regular : g.Regular n
  reduces : Graph.Reduces renames g image.graph
  /-- Either all no-ops are passed by or none. -/
  near : ∀ s, renames s = s ∨ renames s = g.remap s
  laid : image.graph.layout = image.graph
  resolved : image.resolve = resolve
  faithful : image.Faithful
  /-- The codes of exits fit into a word. -/
  words : ∀ region, image.program.Protects region → ∀ x ∈ region.exits, x.code < 2 ^ 63
  range : g.InRange

namespace Variant

variable {g : Graph} {n : Nat} {resolve : Expr.Resolver} (v v' : Variant g n resolve)
  {k q r s : Nat}

/-- A variant is regular. -/
theorem regular' : v.image.graph.Regular n := v.reduces.regular v.regular

/-- Renaming makes no difference to where a reference leads in the end. -/
theorem remap_renames (s : Nat) : g.remap (v.renames s) = g.remap s := by
  rcases v.near s with h | h
  · rw [h]
  · rw [h, Graph.remap_remap]

/-- The same state is behind both names. -/
theorem sameTarget (s : Nat) : g.SameTarget (.state (v.renames s)) (.state (v'.renames s)) :=
  ⟨_, _, rfl, rfl, by rw [v.remap_renames, v'.remap_renames]⟩

/-- A region that is entered. -/
theorem mem_regionNodes (hr : v.image.Entered r) :
    s ∈ v.image.graph.regionNodes r ↔ v.image.graph.isLive s = true ∧ (g.state s).region = r := by
  rw [v.regular'.mem_regionNodes hr.lt hr.isRegion, v.reduces.region]

/-- A state of the program is one of the graph, with its references renamed. -/
theorem transition (hs : v.image.graph.isLive s = true) : ∃ x, (g.state s).transition = some x ∧
    (v.image.graph.state s).transition = some (x.mapReferences v.renames) := by
  obtain ⟨x, hx, -⟩ := v.regular.leads s (v.reduces.kept s hs).1
  refine ⟨x, hx, ?_⟩
  rw [v.reduces.transition s hs, hx]
  rfl

/-- Where a region is entered in a variant, it is in the graph. -/
theorem tryCatch (hs : v.image.graph.isLive s = true) {t : RegionEntry}
    (ht : (v.image.graph.state s).transition = some (.tryCatch t)) :
    ∃ t₀, (g.state s).transition = some (.tryCatch t₀) ∧ t = t₀.rename v.renames := by
  obtain ⟨x, hx, hx'⟩ := v.transition hs
  rw [ht] at hx'
  cases x with
  | tryCatch t₀ =>
    cases hx'
    exact ⟨t₀, hx, rfl⟩
  | _ => cases hx'

/-- A target in sight of a region stands in the region's block exactly if it lies in the region. -/
theorem isSome_position? (hr : v.image.Entered r) {a : Nat}
    (h : v.image.Reaches r (.state a)) :
    ((v.image.block r).position? (.state a)).isSome = true ↔ (g.state a).region = r := by
  have hrenders := v.faithful.renders r hr.mem
  constructor
  · intro hsome
    obtain ⟨pc, hpc⟩ := Option.isSome_iff_exists.1 hsome
    have hlabel := Block.mem_of_getElem? (Block.getElem?_of_position? hpc)
    exact ((v.mem_regionNodes hr).1 (hrenders.mem_of_label hlabel)).2
  · intro hregion
    refine h.resolve_right fun hexit => ?_
    obtain ⟨x, hx, htarget⟩ := List.mem_map.1 hexit
    obtain ⟨b, hb, -, hne, -⟩ := hrenders.mem_exits hx
    obtain rfl : a = b := by
      rw [htarget] at hb
      exact Target.state.inj hb
    rw [v.reduces.region] at hne
    exact hne hregion

/-! ## Records -/

include v in
/-- Records are in range, so they are their own words. -/
theorem word_eq {x : Var} (hx : g.Recording n x) : x.word = x.id :=
  word_of_lt (v.range x (List.mem_append_right _ hx.1))

/-- Two records mean the same: that the region was not left to another state, or to which one. -/
def Means (i : Nat) (u u' : Value) : Prop :=
  ∀ r, g.Records r i → r ∈ v.image.regions → r ∈ v'.image.regions →
    (u' = u ∧ (∀ x ∈ v.image.exits r, x.code ≠ u.recorded) ∧
      ∀ x ∈ v'.image.exits r, x.code ≠ u.recorded) ∨
    ∃ x ∈ v.image.exits r, ∃ x' ∈ v'.image.exits r, u.recorded = x.code ∧
      u'.recorded = x'.code ∧ g.SameTarget x.target x'.target

/-- What the machines of two variants are alike in. The machines have a scope of their own. -/
def likeness (k : Nat) : Likeness where
  reserve := ⟨k, fun i => ∃ x, g.Recording n x ∧ x.word = i⟩
  setting := g.setting n
  waits := rfl
  handling := rfl
  visible := by
    rintro i ⟨y, hy, rfl, hnot⟩ ⟨x, ⟨hx, hle, hname⟩, hword⟩
    have hid : x.id = y.id := by
      rw [← v.word_eq ⟨hx, hle, hname⟩, hword]
      exact word_of_lt (v.range y hy)
    rcases List.mem_append.1 hy with hy | hy
    · have := v.regular.params y hy
      omega
    · obtain rfl := v.regular.var_eq hx hy hid
      exact hnot ⟨hle, hname⟩
  stored c c' := c' = c ∧ c < 0 ∨
    ∃ a b : Nat, c = Int.ofNat a ∧ c' = Int.ofNat b ∧ g.remap a = g.remap b
  record := v.Means v'

/-- What corresponds in two variants, seen from a region. -/
def linkage (r : Nat) : Linkage where
  target t t' := g.SameTarget t t' ∧ v.image.Reaches r t ∧ v'.image.Reaches r t'
  region R R' := ∃ s t, (g.state s).transition = some (.tryCatch t) ∧
    s ∈ v.image.graph.regionNodes r ∧ s ∈ v'.image.graph.regionNodes r ∧
    R = v.image.tryRegion s (t.rename v.renames) ∧ R' = v'.image.tryRegion s (t.rename v'.renames)

/-! ## Instructions -/

variable {v v'}

/-- Records that mean the same lead to corresponding targets. -/
theorem Means.decide {p i : Nat} {u u' : Value} (h : v.Means v' i u u') (hrec : g.Records p i)
    (hp : p ∈ v.image.regions) (hp' : p ∈ v'.image.regions) {handlers : List (Int × Nat)}
    (hcodes : ∀ h ∈ handlers, ∀ x ∈ v.image.exits p, x.code ≠ h.1)
    (hcodes' : ∀ h ∈ handlers, ∀ x ∈ v'.image.exits p, x.code ≠ h.1) (join : Nat) :
    (u'.recorded = unhandled ↔ u.recorded = unhandled) ∧
    g.SameTarget
      (((handlerCases v.renames handlers ++ v.image.exitCases p).lookup u.recorded).getD
        (.state (v.renames join)))
      (((handlerCases v'.renames handlers ++ v'.image.exitCases p).lookup u'.recorded).getD
        (.state (v'.renames join))) := by
  have hr := v.faithful.renders p hp
  have hr' := v'.faithful.renders p hp'
  rw [List.lookup_append, List.lookup_append, handlerCases, handlerCases,
    Image.lookup_map_snd fun b => Target.state (v.renames b),
    Image.lookup_map_snd fun b => Target.state (v'.renames b)]
  -- the record names no exit in either variant, or it names exits to one target
  rcases h p hrec hp hp' with ⟨rfl, hnone, hnone'⟩ | ⟨x, hx, x', hx', hu, hu', hsame⟩
  · rw [Image.lookup_exitCases_eq_none hnone, Image.lookup_exitCases_eq_none hnone']
    refine ⟨Iff.rfl, ?_⟩
    cases handlers.lookup u'.recorded with
    | none => exact v.sameTarget v' join
    | some b => exact v.sameTarget v' b
  · have hfree : ∀ {c : Int}, (∀ h ∈ handlers, c ≠ h.1) → handlers.lookup c = none := by
      intro c hc
      rw [List.lookup_eq_none_iff]
      exact fun h hh => by simpa using hc h hh
    have hpos := hr.exit_code_pos hx
    have hpos' := hr'.exit_code_pos hx'
    rw [hu, hu', hfree fun h hh => hcodes h hh x hx, hfree fun h hh => hcodes' h hh x' hx',
      hr.lookup_exitCases hx, hr'.lookup_exitCases hx']
    exact ⟨by rw [unhandled]; omega, hsame⟩

/-- Records of regions that were not left mean the same. -/
theorem means_notLeft (i : Nat) {u : Value} (hu : u.recorded = notLeft) : v.Means v' i u u := by
  intro p hp hin hin'
  rw [hu]
  refine .inl ⟨rfl, fun x hx => ?_, fun x hx => ?_⟩
  · exact ((v.faithful.renders p hin).exit_code_pos hx).ne'
  · exact ((v'.faithful.renders p hin').exit_code_pos hx).ne'

/-- Both variants decide alike where to go on. -/
theorem decide_alike {p join : Nat} {x y : Var} (hx : g.Recording n x) (hy : g.Usable n y.id)
    (hrec : g.Records p x.id) (hp : p ∈ v.image.regions) (hp' : p ∈ v'.image.regions)
    (handlers : List (Int × Nat)) (hcodes : ∀ h ∈ handlers, ∀ x ∈ v.image.exits p, x.code ≠ h.1)
    (hcodes' : ∀ h ∈ handlers, ∀ x ∈ v'.image.exits p, x.code ≠ h.1) (rethrows : Bool)
    (hsees : v.image.Sees r [.dispatch x y
      (handlerCases v.renames handlers ++ v.image.exitCases p) rethrows (.state (v.renames join))])
    (hsees' : v'.image.Sees r [.dispatch x y (handlerCases v'.renames handlers ++
      v'.image.exitCases p) rethrows (.state (v'.renames join))]) :
    Instr.Alike (v.likeness v' k) (v.linkage v' r)
      (.dispatch x y (handlerCases v.renames handlers ++ v.image.exitCases p) rethrows
        (.state (v.renames join)))
      (.dispatch x y (handlerCases v'.renames handlers ++ v'.image.exitCases p) rethrows
        (.state (v'.renames join))) := by
  have hheld : (v.likeness v' k).reserve.held x.word := ⟨x, hx, rfl⟩
  refine .dispatch hheld hy fun u u' hu => ?_
  rw [v.word_eq hx] at hu
  obtain ⟨hthrows, hsame⟩ := Means.decide hu hrec hp hp' hcodes hcodes' join
  refine ⟨?_, hsame, ?_, ?_⟩
  · congr 1
    rw [Bool.eq_iff_iff, beq_iff_eq, beq_iff_eq]
    exact hthrows
  · exact hsees _ List.mem_cons_self _ lookup_getD_mem
  · exact hsees' _ List.mem_cons_self _ lookup_getD_mem

/-- The handlers of a renamed entry. -/
theorem handlers_rename (f : Nat → Nat) (t : RegionEntry) :
    ((t.rename f).handlers.map fun h => (h.code, Target.state h.body)) =
      handlerCases f (t.handlers.map fun h => (h.code, h.body)) := by
  simp [RegionEntry.rename, handlerCases]

/-- What a state of both programs enters. -/
structure Enters (v v' : Variant g n resolve) (q s : Nat) (t : RegionEntry) : Prop where
  transition : (g.state s).transition = some (.tryCatch t)
  left : v.image.Surrounds q t.region s (t.rename v.renames)
  right : v'.image.Surrounds q t.region s (t.rename v'.renames)
  inLeft : t.region ∈ v.image.regions
  inRight : t.region ∈ v'.image.regions

namespace Enters

variable {t : RegionEntry} (h : Enters v v' q s t)
include h

/-- The entry of a region is sound. -/
theorem entry : g.EntrySound n s t :=
  (v.regular.sound s (v.reduces.kept s h.left.live).1).transition _ h.transition

/-- The records of an entry belong to its region. -/
theorem records : g.Records t.region t.tryState.id := ⟨s, _, h.transition, rfl⟩

/-- Codes of handlers are no codes of exits. -/
theorem codes {c : HandlerEntry} (hc : c ∈ t.handlers) : ∀ x ∈ v.image.exits t.region,
    x.code ≠ c.code := by
  intro x hx heq
  have hnodup := h.left.nodup_codes v.regular' (v.faithful.renders _ h.inLeft)
  have hmem : c.code ∈ (t.rename v.renames).handlers.map HandlerEntry.code := by
    simp only [RegionEntry.rename, List.map_map]
    exact List.mem_map.2 ⟨c, hc, rfl⟩
  exact (List.nodup_append.1 hnodup).2.2 _ hmem _ (List.mem_map_of_mem hx) heq.symm

/-- The variants may change places. -/
theorem symm : Enters v' v q s t := ⟨h.transition, h.right, h.left, h.inRight, h.inLeft⟩

/-- What follows a region is alike in both variants. -/
theorem decision_alike (hsees : v.image.Sees r (v.image.decision (t.rename v.renames)))
    (hsees' : v'.image.Sees r (v'.image.decision (t.rename v'.renames))) :
    List.Forall₂ (Instr.Alike (v.likeness v' k) (v.linkage v' r))
      (v.image.decision (t.rename v.renames)) (v'.image.decision (t.rename v'.renames)) := by
  cases hclean : t.cleanup with
  -- with a cleanup, nothing is decided here
  | some c =>
    have hnil {w : Variant g n resolve} : w.image.decision (t.rename w.renames) = [] := by
      simp [Image.decision, RegionEntry.rename, hclean]
    rw [hnil, hnil]
    exact .nil
  | none =>
    have hone {w : Variant g n resolve} : w.image.decision (t.rename w.renames) =
        [.dispatch t.tryState t.exception
          (handlerCases w.renames (t.handlers.map fun h => (h.code, h.body)) ++
            w.image.exitCases t.region) false (.state (w.renames t.join))] := by
      rw [Image.decision, handlers_rename]
      simp [RegionEntry.rename, hclean]
    rw [hone] at hsees hsees' ⊢
    rw [hone]
    have hcodes {w w' : Variant g n resolve} (h : Enters w w' q s t) :
        ∀ c ∈ t.handlers.map (fun h => (h.code, h.body)), ∀ x ∈ w.image.exits t.region,
          x.code ≠ c.1 := by
      intro c hc
      obtain ⟨c', hc', rfl⟩ := List.mem_map.1 hc
      exact h.codes hc'
    exact .cons (decide_alike h.entry.tryState h.entry.exception h.records h.inLeft h.inRight
      _ (hcodes h) (hcodes h.symm) false hsees hsees') .nil

end Enters

section

variable (hr : v.image.Entered r) (hr' : v'.image.Entered r) (hs : s ∈ v.image.graph.regionNodes r)
  (hs' : s ∈ v'.image.graph.regionNodes r)
include hr hr' hs hs'

/-- The regions that are entered are the same. -/
theorem enters {t : RegionEntry} (ht : (g.state s).transition = some (.tryCatch t)) :
    Enters v v' r s t := by
  have hside {w : Variant g n resolve} (hr : w.image.Entered r)
      (hs : s ∈ w.image.graph.regionNodes r) :
      w.image.Surrounds r t.region s (t.rename w.renames) ∧ w.image.Entered t.region := by
    obtain ⟨x, hx, hx'⟩ := w.transition ((w.mem_regionNodes hr).1 hs).1
    obtain rfl := Option.some.inj (ht.symm.trans hx)
    exact hr.surrounds w.regular' w.faithful hs hx'
  obtain ⟨hsur, hin⟩ := hside hr hs
  obtain ⟨hsur', hin'⟩ := hside hr' hs'
  exact ⟨ht, hsur, hsur', hin.mem, hin'.mem⟩

/-- The transitions of a state are rendered alike. -/
theorem lead_alike {x : Transition} (hx : (g.state s).transition = some x)
    (hsees : v.image.Sees r (v.image.lead s (x.mapReferences v.renames)))
    (hsees' : v'.image.Sees r (v'.image.lead s (x.mapReferences v'.renames))) :
    List.Forall₂ (Instr.Alike (v.likeness v' k) (v.linkage v' r))
      (v.image.lead s (x.mapReferences v.renames))
      (v'.image.lead s (x.mapReferences v'.renames)) := by
  have hsound := (v.regular.sound s (v.reduces.kept s ((v.mem_regionNodes hr).1 hs).1).1).transition
    x hx
  have hexpr (w : Variant g n resolve) : w.image.expr = compiled resolve := by
    funext e
    rw [Image.expr, w.resolved]
  -- targets that come from one state of the graph correspond
  have hlink {a : Nat} (ha : v.image.Reaches r (.state (v.renames a)))
      (ha' : v'.image.Reaches r (.state (v'.renames a))) :
      (v.linkage v' r).target (.state (v.renames a)) (.state (v'.renames a)) :=
    ⟨v.sameTarget v' a, ha, ha'⟩
  have hstored (a : Nat) : (v.likeness v' k).stored (v.renames a : Nat) (v'.renames a : Nat) :=
    .inr ⟨_, _, rfl, rfl, by rw [v.remap_renames, v'.remap_renames]⟩
  cases x with
  | goto | loop => exact .nil
  | conditional test ifTrue ifFalse =>
    simp only [Transition.mapReferences, Image.lead, hexpr] at hsees hsees' ⊢
    refine .cons (.gotoIf _ (hlink ?_ ?_)) .nil
    · exact hsees _ List.mem_cons_self _ List.mem_cons_self
    · exact hsees' _ List.mem_cons_self _ List.mem_cons_self
  | switch value arms fallback =>
    simp only [Transition.mapReferences, Image.lead, Image.transitionCode, hexpr, List.map_map]
      at hsees hsees' ⊢
    refine .cons (.switch _ ?_ (hlink ?_ ?_)) .nil
    · rw [List.forall₂_map_left_iff, List.forall₂_map_right_iff, List.forall₂_same]
      intro a ha
      refine ⟨rfl, hlink (hsees _ List.mem_cons_self _ ?_) (hsees' _ List.mem_cons_self _ ?_)⟩
      all_goals
        simp only [Instr.targets, List.map_map]
        exact List.mem_append_left _ (List.mem_map.2 ⟨a, ha, rfl⟩)
    · exact hsees _ List.mem_cons_self _ (List.mem_append_right _ List.mem_cons_self)
    · exact hsees' _ List.mem_cons_self _ (List.mem_append_right _ List.mem_cons_self)
  | tryCatch t =>
    have henters := enters hr hr' hs hs' hx
    have hheld : (v.likeness v' k).reserve.held t.tryState.word :=
      ⟨t.tryState, henters.entry.tryState, rfl⟩
    have hregion : (v.linkage v' r).region (v.image.tryRegion s (t.rename v.renames))
        (v'.image.tryRegion s (t.rename v'.renames)) := ⟨s, t, hx, hs, hs', rfl, rfl⟩
    have hdecision := henters.decision_alike (k := k) (r := r)
      (fun i hi => hsees i (List.mem_append_right _ hi))
      (fun i hi => hsees' i (List.mem_append_right _ hi))
    change List.Forall₂ _ (v.image.entryCode s (t.rename v.renames) ++ _)
      (v'.image.entryCode s (t.rename v'.renames) ++ _)
    simp only [Image.entryCode, hexpr, List.cons_append, List.nil_append]
    exact .cons (.reset hheld resolve (means_notLeft _ rfl))
      (.cons (.label _ _) (.cons (.region hregion) hdecision))
  | cleanupExit e =>
    obtain ⟨htry, ⟨hexc, -⟩, -, -⟩ := hsound
    have hrec : g.Records e.region e.tryState.id := ⟨s, _, hx, rfl⟩
    have hin {w : Variant g n resolve} (hr : w.image.Entered r)
        (hs : s ∈ w.image.graph.regionNodes r) : e.region ∈ w.image.regions := by
      obtain ⟨y, hy, hy'⟩ := w.transition ((w.mem_regionNodes hr).1 hs).1
      obtain rfl := Option.some.inj (hx.symm.trans hy)
      exact ((w.faithful.renders r hr.mem).states s hs).inner _ hy' _ _ rfl
    exact .cons (decide_alike htry hexc hrec (hin hr hs) (hin hr' hs') [] (by simp)
      (by simp) true hsees hsees') .nil
  | await a =>
    obtain ⟨-, ⟨hawaiter, -⟩, -⟩ := hsound
    simp only [Transition.mapReferences, Image.lead, Image.transitionCode, hexpr] at hsees hsees' ⊢
    refine .cons (.getAwaiter _ hawaiter _ _) (.cons (.gotoIfCompleted hawaiter _ (hlink ?_ ?_))
      (.cons (.setState (hstored _)) (.cons (.register hawaiter _) (.cons (.suspend _) .nil))))
    · exact hsees _ (List.mem_cons_of_mem _ List.mem_cons_self) _ List.mem_cons_self
    · exact hsees' _ (List.mem_cons_of_mem _ List.mem_cons_self) _ List.mem_cons_self
  | awaitResult a => exact .cons (.getResult hsound.1.1 _ fun x hx => (hsound.2 x hx).1) .nil
  | yieldReturn value resume =>
    simp only [Transition.mapReferences, Image.lead, Image.transitionCode, hexpr]
    exact .cons (.setCurrent _) (.cons (.setState (hstored _)) (.cons (.suspend _) .nil))
  | yieldBreak => exact .cons .yieldBreak .nil
  | finish value =>
    simp only [Transition.mapReferences, Image.lead, Image.transitionCode, hexpr]
    exact .cons (.finish _) .nil

/-- A state that both programs have is rendered alike in both. -/
theorem code_alike {x : Transition} (hx : (g.state s).transition = some x)
    (hsees : v.image.Sees r (v.image.lead s (x.mapReferences v.renames)))
    (hsees' : v'.image.Sees r (v'.image.lead s (x.mapReferences v'.renames))) :
    List.Forall₂ (Instr.Alike (v.likeness v' k) (v.linkage v' r))
      (v.image.bodyCode (v.image.graph.state s) ++ v.image.lead s (x.mapReferences v.renames))
      (v'.image.bodyCode (v'.image.graph.state s) ++
        v'.image.lead s (x.mapReferences v'.renames)) := by
  have hlive := ((v.mem_regionNodes hr).1 hs).1
  have hsound := v.regular.sound s (v.reduces.kept s hlive).1
  have hbody {w : Variant g n resolve} (hlive : w.image.graph.isLive s = true) :
      w.image.bodyCode (w.image.graph.state s) =
        ((g.state s).expressions.map fun e => .eval (compiled resolve e)) ++
          (g.state s).result.toList.map fun x => .assign x.1 (compiled resolve x.2) := by
    rw [Image.bodyCode, w.reduces.expressions s hlive, w.reduces.result s hlive]
    simp only [Image.expr, w.resolved]
  rw [hbody hlive, hbody ((v'.mem_regionNodes hr').1 hs').1]
  refine List.rel_append ?_ (lead_alike hr hr' hs hs' hx hsees hsees')
  rw [List.forall₂_same]
  intro i hi
  rcases List.mem_append.1 hi with hi | hi
  · obtain ⟨e, -, rfl⟩ := List.mem_map.1 hi
    exact .eval _
  · obtain ⟨⟨y, e⟩, hye, rfl⟩ := List.mem_map.1 hi
    exact .assign (hsound.result y e (by simpa using hye)).1.1 _

end

end Variant

end Coroutine

import Mathlib
import Coroutine.Proofs.Lowering.Tree
import Coroutine.Proofs.Tree.Checked
import Coroutine.Proofs.Tree.Rules

/-!
# Lowered graphs are regular

`Graph.Regular n g` is what later passes may rely on: every state is listed once, in its region;
live states are sound, have a transition, and lead to live states only.
`Lambda.lower_regular_of_check`: the state graph of a lambda is regular.
-/

namespace Coroutine

variable {resolve : Expr.Resolver} {l : Lambda} {facts : Facts}

namespace Graph

/-- What later passes may rely on. `n` is the number of the first temporary. -/
structure Regular (n : Nat) (g : Graph) : Prop where
  zoned : g.Zoned
  region : ∀ s < g.states.size, (g.state s).region < g.zones.size ∧
    (g.zone (g.state s).region).kind.isRegion = true
  node : ∀ z < g.zones.size, (g.zone z).kind.isRegion = true →
    ∀ s ∈ (g.zone z).nodes, g.InRegion s z
  listed : ∀ s < g.states.size, s ∈ (g.zone (g.state s).region).nodes
  once : ∀ z < g.zones.size, (g.zone z).kind.isRegion = true → (g.zone z).nodes.Nodup
  params : ∀ x ∈ g.params, x.id < n
  distinct : (g.vars.map Var.id).Nodup
  sound : ∀ s, g.isLive s = true → g.StateSound n s (g.state s)
  leads : ∀ s, g.isLive s = true →
    ∃ t, (g.state s).transition = some t ∧ ∀ r ∈ t.references, g.isLive r = true
  entry : g.isLive g.entry = true ∧ (g.state g.entry).region = top
  label : ∀ l b, (l, b) ∈ g.labels → g.isLive b.state = true ∧ ∀ x ∈ b.var, g.Writable n x.id
  unique : ∀ r r' i, g.Records r i → g.Records r' i → r = r'

end Graph

namespace Lowering

variable {n : Nat} {K : Tally} {d : Draft}

/-! ## The body of a lambda -/

/-- Lowering the body of a lambda decides whether its nodes are supported, and ends every state. -/
theorem lowerBody_decides {kind : LambdaKind} {body : Expr} {s : Setting}
    (hs : Suits n { resolve } s d) (hbody : body.Fits s)
    (hkind : kind ≠ .generator → ∀ x ∈ body.preorder, x.isYieldBreak = false)
    (h : d.Ready n K [] (Expr.costs (body.nodes false)) 0 [(Graph.top, Graph.top)]) :
    Decides resolve (lowerBody resolve kind body) d (∀ x ∈ body.preorder, x.Supported resolve)
      fun _ d' => d'.Books n K [.base d] 0 0 [(Graph.top, Graph.top)] := by
  have hbase : (Mark.base d).Holds n d := Draft.Extends.refl d
  have hsuits : (Mark.suits { resolve } s).Holds n d := hs
  have h := ((h.add hbase).add hsuits).budget (add_zero _).symm
  -- bodies that are no generators end in a state that returns their value
  have hfinish : kind ≠ .generator → Decides resolve
      (do endWith (.finish (some (← lower { resolve } body)))) d
      (∀ x ∈ body.preorder, x.Supported resolve)
      fun _ d' => d'.Books n K [.base d] 0 0 [(Graph.top, Graph.top)] := by
    intro hne
    refine Decides.of_iff ((lower_judges { resolve } body List.mem_cons_self hbody
      (List.Subset.refl _) h).andThen fun value d₁ h₁ => ?_) (forall₂_congr fun x hx => ?_)
    · exact (endWith_books (t := .finish (some value)) h₁ rfl rfl
        (h₁.mark (m := .expr value) (by simp)) nofun rfl).mono fun _ _ h₂ => h₂.sub (by simp)
    · simp [Place.Allows, hkind hne x hx, Guards.yieldRestriction?]
  cases kind with
  | sync => exact hfinish nofun
  | async => exact hfinish nofun
  | generator =>
    -- a generator first gets a state for its breaks, which ends at once
    refine (newState_ready h).after fun exit d₁ h₁ => ?_
    have hcur : (Mark.state d₁.current Graph.top).Holds n d₁ := h₁.stands
    refine (endState_books (t := .yieldBreak) ((h₁.books.add hcur).of_eq (add_left_comm _ _ _)) rfl
      rfl trivial nofun rfl).after fun _ d₂ ⟨h₂, hcur₂⟩ => ?_
    have hs₂ : Suits n { resolve } s d₂ := h₂.marks (.suits { resolve } s) (by simp)
    have hexit : d₂.graph.InRegion exit Graph.top :=
      h₂.marks (.state exit (Nest.here [(Graph.top, Graph.top)])) (by simp)
    have hready : d₂.Ready n K _ _ 0 [(Graph.top, Graph.top)] :=
      ⟨hcur₂ ▸ h₂, hcur₂ ▸ h₂.marks (.state d₁.current Graph.top) (by simp)⟩
    have hsuits₂ : (Mark.suits { resolve, exit := some exit } s).Holds n d₂ :=
      ⟨hs₂.inner, hs₂.bound, hs₂.assigned, hs₂.handling, hs₂.rethrow, by simpa using hexit⟩
    refine Decides.of_iff ((lower_judges { resolve, exit := some exit } body List.mem_cons_self hbody
      (List.Subset.refl _) (hready.add hsuits₂)).andThen fun value d₃ h₃ => ?_)
      (forall₂_congr fun x _ => ?_)
    · refine (emit_ready h₃ (h₃.mark (m := .expr value) (by simp))).after fun _ d₄ h₄ => ?_
      exact (goto_books h₄ (h₄.books.around (s := exit) (by simp))).mono
        fun _ _ h₅ => h₅.sub (by simp)
    · simp [Place.Allows, Guards.yieldRestriction?, Guards.inCleanup]

/-! ## The first draft -/

/-- A graph without states. -/
theorem shape_empty (name : String) (kind : LambdaKind) (params : List Var) :
    Graph.Shape ⟨name, kind, params, #[], #[⟨.top, none, Graph.top, [], none⟩], 0, [], [],
      [Graph.top]⟩ where
  zoned := by
    refine ⟨by simp, rfl, rfl, rfl, fun z hz hne => ?_, fun z p hz hp => ?_⟩
    · simp only [List.size_toArray, List.length_cons, List.length_nil] at hz
      exact absurd (Nat.lt_one_iff.1 hz) hne
    · simp only [List.size_toArray, List.length_cons, List.length_nil] at hz
      obtain rfl := Nat.lt_one_iff.1 hz
      cases hp
  outwards := rfl
  home s hs := absurd hs (Nat.not_lt_zero s)
  node z hz s hs := by
    simp only [List.size_toArray, List.length_cons, List.length_nil] at hz
    obtain rfl := Nat.lt_one_iff.1 hz
    cases hs
  held s hs := absurd hs (Nat.not_lt_zero s)
  once z hz := by
    obtain rfl := Nat.lt_one_iff.1 (show z < 1 from hz.1)
    exact List.nodup_nil
  apart y z hy hz hne := by
    obtain rfl := Nat.lt_one_iff.1 (show z < 1 from hz.1)
    obtain rfl := Nat.lt_one_iff.1 (show y < 1 from hy.1)
    exact absurd rfl hne

theorem shape_new (name : String) (kind : LambdaKind) (params : List Var) :
    (Graph.new name kind params).Shape := (shape_empty name kind params).addState

/-- The first state of a new graph is empty, and there are no others. -/
theorem state_new (name : String) (kind : LambdaKind) (params : List Var) (s : Nat) :
    (Graph.new name kind params).state s = { zone := Graph.top, region := Graph.top } ∨
      (Graph.new name kind params).state s = default := by
  cases s with
  | zero => exact .inl rfl
  | succ s => exact .inr (Graph.state_of_le _ (Nat.succ_le_succ (Nat.zero_le s)))

/-- The draft that lowering starts from. -/
theorem sound_new (name : String) (kind : LambdaKind) {params : List Var}
    (hparams : ∀ x ∈ params, x.id < n) : Draft.Sound n ⟨Graph.new name kind params, 0, n, []⟩ := by
  have hnone : ∀ s, ((Graph.new name kind params).state s).transition = none := fun s => by
    rcases state_new name kind params s with h | h
    · rw [h]
    · rw [h]
      rfl
  have hrecords : ∀ r i, ¬ (Graph.new name kind params).Records r i := by
    rintro r i ⟨s, t, ht, -⟩
    rw [hnone s] at ht
    cases ht
  refine ⟨shape_new name kind params, le_rfl, hparams, nofun, List.nodup_nil, fun s _ => ?_,
    fun s => ?_, nofun, fun r i hr => (hrecords r i hr).elim,
    fun r r' i hr => (hrecords r i hr).elim⟩
  · refine ⟨fun e he => ?_, fun y e he => ?_, fun t ht => ?_, fun t ht => ?_⟩
    · rcases state_new name kind params s with h | h <;> rw [h] at he <;> cases he
    · rcases state_new name kind params s with h | h <;> rw [h] at he <;> cases he
    · rw [hnone s] at ht
      cases ht
    · rw [hnone s] at ht
      cases ht
  · rcases state_new name kind params s with h | h
    · rw [h]
    · rw [h]
      rfl

end Lowering

/-! ## The graph of a lambda -/

namespace Graph

variable {g : Graph}

theorem mem_liveStates {s : Nat} {x : State} :
    (s, x) ∈ g.liveStates ↔ g.isLive s = true ∧ x = g.state s := by
  have hzip : (s, x) ∈ g.states.toList.zipIdx.map (fun y => (y.2, y.1)) ↔
      g.states[s]? = some x := by
    simp [List.mem_zipIdx_iff_getElem?]
  unfold liveStates
  rw [List.mem_filter, hzip, isLive_iff]
  by_cases hs : s < g.states.size
  · have hstate : g.states[s]? = some (g.state s) := by simp [state, Array.getD, hs]
    rw [hstate, Option.some.injEq]
    constructor
    · rintro ⟨rfl, hp⟩
      exact ⟨⟨hs, by simpa using hp⟩, rfl⟩
    · rintro ⟨⟨-, hp⟩, rfl⟩
      exact ⟨rfl, by simpa using hp⟩
  · simp [hs]

/-- The states that a sound state leads to are there. -/
theorem StateSound.reference_lt {n s : Nat} {x : State} (h : g.StateSound n s x) {t : Transition}
    (ht : x.transition = some t) {r : Nat} (hr : r ∈ t.references) : r < g.states.size := by
  cases t with
  | tryCatch entry =>
    rcases List.mem_cons.1 hr with rfl | hr
    · exact (h.transition _ ht).body.1
    · exact (h.routes _ ht r hr).1
  | _ => exact (h.routes _ ht r hr).1

/-- A sound draft whose graph is finished gives a regular graph. -/
theorem regular_of_sound {n : Nat} {d : Lowering.Draft} (hd : d.Sound n)
    (hopen : d.graph.openZones = [top])
    (hends : ∀ s < d.graph.states.size, ∃ t, (d.graph.state s).transition = some t)
    (hentry : d.graph.InRegion d.graph.entry top) : d.graph.Regular n := by
  -- nothing has been pruned yet
  have hlive : ∀ s < d.graph.states.size, d.graph.isLive s = true := fun s hs =>
    d.graph.isLive_iff.2 ⟨hs, hd.live s⟩
  have hholds : ∀ z, d.graph.Holds z ↔
      z < d.graph.zones.size ∧ (d.graph.zone z).kind.isRegion = true := by
    intro z
    refine ⟨fun h => ⟨h.1, h.2.elim id fun hz => ?_⟩, fun h => ⟨h.1, .inl h.2⟩⟩
    rw [hopen, List.mem_singleton] at hz
    rw [hz, hd.shape.zoned.top_kind]
    rfl
  have hnode : ∀ z < d.graph.zones.size, (d.graph.zone z).kind.isRegion = true →
      ∀ s ∈ (d.graph.zone z).nodes, d.graph.InRegion s z := by
    intro z hz hk s hs
    obtain ⟨hlt, hr⟩ := hd.shape.node z hz s hs
    exact ⟨hlt, hr.trans (hd.shape.zoned.region_of_isRegion hz hk)⟩
  refine ⟨hd.shape.zoned, fun s hs => ⟨hd.shape.region_lt hs, hd.shape.region_isRegion hs⟩, hnode,
    fun s hs => ?_, fun z hz hk => hd.shape.once z ((hholds z).2 ⟨hz, hk⟩), hd.params, hd.distinct,
    fun s hs => hd.states s (d.graph.isLive_iff.1 hs).1, fun s hs => ?_,
    ⟨hlive _ hentry.1, hentry.2⟩, fun l b hb => ?_, hd.unique⟩
  · obtain ⟨z, hz, hmem⟩ := hd.shape.held s hs
    obtain ⟨hlt, hk⟩ := (hholds z).1 hz
    rw [(hnode z hlt hk s hmem).2]
    exact hmem
  · obtain ⟨hlt, -⟩ := d.graph.isLive_iff.1 hs
    obtain ⟨t, ht⟩ := hends s hlt
    exact ⟨t, ht, fun r hr => hlive r ((hd.states s hlt).reference_lt ht hr)⟩
  · obtain ⟨hstate, hvar⟩ := hd.labels l b hb
    exact ⟨hlive _ hstate, hvar⟩

end Graph

/-- The draft that the body of a checked lambda is lowered into. -/
def Lambda.first (l : Lambda) (facts : Facts) : Lowering.Draft :=
  ⟨Graph.new l.displayName l.kind l.params, 0, facts.maxVar + 1, []⟩

/-- The draft that lowering starts from has one state, which is open. -/
theorem Lambda.accounts_first (l : Lambda) (facts : Facts) : (l.first facts).Accounts 0 0 {0} := by
  refine ⟨rfl, rfl, fun s => ?_, rfl, List.nodup_nil, nofun⟩
  rcases Lowering.state_new l.displayName l.kind l.params s with h | h
  · exact congrArg State.transition h
  · exact congrArg State.transition h

/-- Only generators have nodes that end one. -/
theorem Lambda.check_isYieldBreak (h : l.check = .ok facts) (hkind : l.kind ≠ .generator) :
    ∀ x ∈ l.body.preorder, x.isYieldBreak = false := by
  intro x hx
  have hobeys := Expr.forall_nodes (P := (·.Obeys (l.kind.rules facts.maxVar)))
    (fun e he => he.children) (Lambda.check_obeys h) x hx
  cases x with
  | yieldBreak => exact absurd hobeys hkind
  | _ => rfl

/-- Lowering the body of a checked lambda decides whether its nodes are supported, and leads to a
sound draft where every state has ended. -/
theorem Lambda.lowerBody_decides (resolve : Expr.Resolver) (hcheck : l.check = .ok facts) :
    Lowering.Decides resolve
      (Lowering.lowerBody resolve l.kind l.body) (l.first facts)
      (∀ x ∈ l.body.preorder, x.Supported resolve) fun _ d =>
        (l.first facts).Leads (facts.maxVar + 1) d ∧
          ∃ c, d.Accounts (0 + Expr.tally (l.body.nodes false)) c 0 := by
  obtain ⟨hparams, hfits⟩ := Lambda.check_fits hcheck
  have hd₀ : (l.first facts).Sound (facts.maxVar + 1) :=
    Lowering.sound_new _ _ fun x hx => Nat.lt_succ_of_le (hparams x hx)
  have hsuits : Lowering.Suits (facts.maxVar + 1) { resolve } (l.setting facts.maxVar)
      (l.first facts) := by
    refine ⟨fun i hi => Nat.lt_succ_of_le hi, fun i hi => ?_, fun i hi => Nat.lt_succ_of_le hi, nofun,
      nofun, nofun⟩
    obtain ⟨x, hx, rfl⟩ := List.mem_map.1 hi
    refine ⟨x, List.mem_append_left _ hx, rfl, fun h => ?_⟩
    exact absurd h.1 (not_le.2 (Nat.lt_succ_of_le (hparams x hx)))
  have hbooks : (l.first facts).Books (facts.maxVar + 1) (Expr.tally (l.body.nodes false)) []
      (Expr.costs (l.body.nodes false)) ({0} + 0) [(Graph.top, Graph.top)] :=
    ⟨hd₀, ⟨0, zero_add _, l.accounts_first facts⟩,
      Multiset.coe_nodup.2 (Lambda.check_labels hcheck).2, rfl, List.forall_mem_singleton.2 rfl, nofun⟩
  refine (Lowering.lowerBody_decides hsuits hfits (Lambda.check_isYieldBreak hcheck)
    ⟨hbooks, Nat.zero_lt_one, rfl⟩).mono fun _ d h => ?_
  obtain ⟨k, hk, hd⟩ := h.accounts
  refine ⟨⟨h.sound, h.marks _ List.mem_cons_self, h.zones⟩, d.current, ?_⟩
  rw [zero_add, ← hk]
  exact hd

/-- Lowering the body of a checked lambda leads to a sound draft and ends every state it makes. -/
theorem Lambda.lowerBody_settles (hcheck : l.check = .ok facts) {d : Lowering.Draft}
    (hrun : (Lowering.lowerBody resolve l.kind l.body).run (l.first facts) = .ok ((), d)) :
    (l.first facts).Leads (facts.maxVar + 1) d ∧
      ∃ c, d.Accounts (0 + Expr.tally (l.body.nodes false)) c 0 :=
  ((Lambda.lowerBody_decides resolve hcheck).of_run hrun).2

/-- Closing the graph of a draft where every state has ended changes nothing. -/
theorem Lowering.Draft.Accounts.close_eq {n : Nat} {d : Lowering.Draft} {k c}
    (hd : d.Accounts k c 0) (hsound : d.Sound n) : d.graph.close = (.ok (), d.graph) := by
  refine Graph.sealZones_of_transitions fun z hz s hs => ?_
  obtain ⟨t, ht⟩ := hd.exists_transition (hsound.shape.node z (List.mem_range.1 hz) s hs).1
  rw [ht]
  rfl

/-- The graph of a checked lambda is that of the draft in which lowering its body ends. -/
theorem Lambda.lower_settles (hcheck : l.check = .ok facts) {g : Graph}
    (h : l.lower resolve = .ok g) :
    ∃ d c, (Lowering.lowerBody resolve l.kind l.body).run (l.first facts) = .ok ((), d) ∧
      (l.first facts).Leads (facts.maxVar + 1) d ∧
      d.Accounts (0 + Expr.tally (l.body.nodes false)) c 0 ∧
      d.graph.close = (.ok (), d.graph) ∧ d.graph = g := by
  obtain ⟨facts', hcheck', h⟩ := bind_eq_ok.1 h
  obtain rfl : facts' = facts := Except.ok.inj (hcheck'.symm.trans hcheck)
  obtain ⟨⟨⟨⟩, d⟩, hrun, h⟩ := bind_eq_ok.1 h
  obtain ⟨hleads, c, hd⟩ := Lambda.lowerBody_settles hcheck hrun
  have hclose := hd.close_eq hleads.sound
  simp only [hclose] at h
  obtain ⟨⟨⟩, -, h⟩ := bind_eq_ok.1 h
  obtain ⟨⟨⟩, -, h⟩ := bind_eq_ok.1 h
  exact ⟨d, c, hrun, hleads, hd, hclose, Except.ok.inj h⟩

/-- The state graph of a checked lambda is regular: its temporaries come after all variables of the
tree. -/
theorem Lambda.lowerBody_regular (hcheck : l.check = .ok facts) {d : Lowering.Draft}
    (hrun : (Lowering.lowerBody resolve l.kind l.body).run (l.first facts) = .ok ((), d)) :
    d.graph.Regular (facts.maxVar + 1) ∧ d.graph.params = l.params := by
  obtain ⟨hleads, c, hd⟩ := Lambda.lowerBody_settles hcheck hrun
  refine ⟨Graph.regular_of_sound hleads.sound hleads.zones (fun s => hd.exists_transition) ?_,
    hleads.grows.params⟩
  have hentry₀ : (l.first facts).graph.InRegion 0 Graph.top := ⟨Nat.zero_lt_one, rfl⟩
  rw [hleads.grows.entry]
  exact hleads.grows.inRegion hentry₀

theorem Lambda.lower_regular_of_check (hcheck : l.check = .ok facts) {g : Graph}
    (h : l.lower resolve = .ok g) : g.Regular (facts.maxVar + 1) ∧ g.params = l.params := by
  obtain ⟨d, -, hrun, -, -, -, rfl⟩ := Lambda.lower_settles hcheck h
  exact Lambda.lowerBody_regular hcheck hrun

end Coroutine

import Mathlib
import Coroutine.Proofs.Lowering.Steps

/-!
# Constructs of lowering

What the combinators of lowering do, given what the computations for their parts do. A computation
*splits* if it goes from a ready draft to a ready one, where its expression can be evaluated: it ends
all other states that it makes, closes the zones that it opens, and spends its budget. It may need
marks, which the combinators hand on to their parts.
-/

namespace Coroutine.Lowering

/-- A computation of an expression that decides a condition and spends a budget. -/
def Splits (resolve : Expr.Resolver) (n : Nat) (K : Tally) (need : List Mark) (m : Lower Expr)
    (a : Budget) (P : Prop) : Prop :=
  ∀ ⦃ms : List Mark⦄ ⦃ρ : Budget⦄ ⦃o : Multiset Nat⦄ ⦃w : Nest⦄ ⦃d : Draft⦄, need ⊆ ms →
    d.Ready n K ms (a + ρ) o w →
      Decides resolve m d P fun e d' => d'.Ready n K (.expr e :: ms) ρ o w

variable {β : Type} {resolve : Expr.Resolver} {n : Nat} {K : Tally} {need ms ms' : List Mark}
  {ρ a b : Budget} {o : Multiset Nat} {w : Nest} {d : Draft} {m m' : Lower Expr} {P Q P' : Prop}
  {join : Nat} {result : Var} {R : β → Draft → Prop} {t : TryParts}

/-- The condition may be put in other words. -/
theorem Splits.of_iff (h : Splits resolve n K need m a P) (hPQ : P ↔ Q) :
    Splits resolve n K need m a Q := by rwa [← propext hPQ]

/-- Marks that follow from others need not be there. -/
theorem Splits.of_need {need' : List Mark} (h : Splits resolve n K need' m a P)
    (hneed : ∀ d, d.Sound n → (∀ m ∈ need, m.Holds n d) → ∀ m ∈ need', m.Holds n d) :
    Splits resolve n K need m a P := by
  intro ms ρ o w d hms hd
  have hholds := hneed d hd.sound fun m hm => hd.mark (hms hm)
  have hboth : d.Ready n K (need' ++ ms) (a + ρ) o w :=
    ⟨{ hd.books with marks := List.forall_mem_append.2 ⟨hholds, hd.books.marks⟩ }, hd.stands⟩
  exact (h (by simp) hboth).mono fun e d' h' => h'.sub (by grind)

/-! ## Labels and branches -/

/-- A landing binds its label around what is lowered in it. -/
theorem landing_splits (target : Label) (hm : Splits resolve n K need m a P) :
    Splits resolve n K need (landing target m) (.ofLabels [target.id] + a) P := by
  intro ms ρ o w d hneed h
  have h := h.budget (r := a + (.ofLabels [target.id] + ρ)) (by abel)
  refine (temporary_ready h (by decide)).after fun result d₁ h₁ => ?_
  refine (hm (by grind) h₁).andThen fun value d₂ h₂ => ?_
  refine (emitResult_ready h₂ (x := result) (by simp) (by simp)).after fun _ d₃ h₃ => ?_
  refine (newState_ready h₃).after fun state d₄ h₄ => ?_
  refine (goto_books h₄ (h₄.books.around (by simp))).after fun _ d₅ h₅ => ?_
  refine (continueAt_ready h₅ (by simp)).after fun _ d₆ h₆ => ?_
  have hstate : d₆.graph.InRegion state w.here := h₆.mark (m := .state state w.here) (by simp)
  refine (bind_ready h₆ (b := ⟨state, some result⟩) hstate.1 (by simp)).after fun _ d₇ h₇ => ?_
  exact .pure trivial (h₇.value (by simp) (by grind))

/-- One branch of a construct, from its first state to where the branches join, and what comes
after it. -/
theorem arm_decides (hm : Splits resolve n K need m a P) {head : Nat} (hneed : need ⊆ ms)
    (h : d.Books n K ms (a + ρ) ({head} + o) w) (hhead : .state head w.here ∈ ms)
    (hresult : .var result ∈ ms)
    (hjoin : ∀ {ρ o} {d' : Draft}, d'.Books n K ms ρ o w → d'.graph.Around join w.here)
    {f : Lower β} (hf : ∀ d', d'.Books n K ms ρ o w → Decides resolve f d' Q R) :
    Decides resolve (do
      continueAt head
      joinAt join result (← m)
      f) d (P ∧ Q) R := by
  refine (continueAt_ready h hhead).after fun _ d₁ h₁ => ?_
  refine (hm hneed h₁).bind fun _ value d₂ h₂ => ?_
  refine (joinAt_books h₂ (by simp [hresult]) (by simp) fun d' h' =>
    hjoin (h'.books.sub (by grind))).after fun _ d₃ h₃ => ?_
  exact hf d₃ (h₃.sub (by grind))

/-- Going on where branches join, with their result. -/
theorem join_ready (h : d.Books n K ms ρ ({join} + o) w) (hjoin : .state join w.here ∈ ms)
    (hresult : .var result ∈ ms) (hms : ms' ⊆ ms) :
    Decides resolve (do
      continueAt join
      return Expr.var result) d True fun e d' => d'.Ready n K (.expr e :: ms') ρ o w :=
  (continueAt_ready h hjoin).after fun _ _ h₁ => .pure trivial (h₁.value hresult hms)

/-- The last branch, and what comes after it. -/
theorem lastArm_decides (hm : Splits resolve n K need m a P) {head : Nat} (hneed : need ⊆ ms)
    (h : d.Books n K ms (a + ρ) ({head} + ({join} + o)) w) (hhead : .state head w.here ∈ ms)
    (hresult : .var result ∈ ms) (hjoin : .state join w.here ∈ ms) (hms : ms' ⊆ ms) :
    Decides resolve (do
      continueAt head
      joinAt join result (← m)
      continueAt join
      return Expr.var result) d P fun e d' => d'.Ready n K (.expr e :: ms') ρ o w :=
  (arm_decides hm hneed h hhead hresult (fun h' => h'.around hjoin) fun _ h₁ =>
    join_ready h₁ hjoin hresult hms).of_iff (iff_of_eq (and_true P))

/-- A branch without an alternative. -/
theorem branch_none_splits {test : Expr} (htest : .expr test ∈ need)
    (hm : Splits resolve n K need m a P) : Splits resolve n K need (branch test m none) a P := by
  intro ms ρ o w d hneed h
  refine (temporary_ready h (by decide)).after fun result d₁ h₁ => ?_
  refine (newState_ready h₁).after fun onTrue d₂ h₂ => (newState_ready h₂).after fun join d₃ h₃ => ?_
  refine (emitUnit_ready h₃ (by simp)).after fun _ d₄ h₄ => ?_
  have htest₄ := h₄.mark (m := .expr test) (by simp [hneed htest])
  refine (endWith_books (t := .conditional test onTrue join) h₄ rfl rfl htest₄
    (by simpa [Transition.exits, Transition.references] using
      ⟨h₄.books.around (by simp), h₄.books.around (by simp)⟩) rfl).after fun _ d₅ h₅ => ?_
  exact lastArm_decides hm (by grind) (h₅.of_eq (add_left_comm _ _ _)) (by simp) (by simp) (by simp)
    (by grind)

/-- A branch with an alternative splits the budget between the two. -/
theorem branch_splits {test : Expr} (htest : .expr test ∈ need)
    (hm : Splits resolve n K need m a P) (hm' : Splits resolve n K need m' b Q) :
    Splits resolve n K need (branch test m (some m')) (a + b) (P ∧ Q) := by
  intro ms ρ o w d hneed h
  have h := h.budget (add_assoc a b ρ)
  refine (temporary_ready h (by decide)).after fun result d₁ h₁ => ?_
  refine (newState_ready h₁).after fun onTrue d₂ h₂ => ?_
  refine (newState_ready h₂).after fun onFalse d₃ h₃ => (newState_ready h₃).after fun join d₄ h₄ => ?_
  have htest₄ := h₄.mark (m := .expr test) (by simp [hneed htest])
  refine (endWith_books (t := .conditional test onTrue onFalse) h₄ rfl rfl htest₄
    (by simpa [Transition.exits, Transition.references] using
      ⟨h₄.books.around (by simp), h₄.books.around (by simp)⟩) rfl).after fun _ d₅ h₅ => ?_
  have h₅ := h₅.of_eq (q := {onTrue} + ({onFalse} + ({join} + o))) (by abel)
  refine arm_decides hm (by grind) h₅ (by simp) (by simp) (fun h' => h'.around (by simp))
    fun d₆ h₆ => ?_
  exact lastArm_decides hm' (by grind) h₆ (by simp) (by simp) (by simp) (by grind)

/-! ## Switches and loops -/

/-- The arms of a switch end their first states, which were open. -/
def ArmsSettle (resolve : Expr.Resolver) (n : Nat) (K : Tally) (need : List Mark) (count : Nat)
    (arms : Var → Nat → List Nat → Lower Unit) (a : Budget) (P : Prop) : Prop :=
  ∀ ⦃ms ρ o w result join heads⦄ ⦃d : Draft⦄, need ⊆ ms → .var result ∈ ms →
    .state join (Nest.here w) ∈ ms → .states heads (Nest.here w) ∈ ms → heads.length = count →
    d.Books n K ms (a + ρ) (heads + o) w →
      Decides resolve (arms result join heads) d P fun _ d' => d'.Books n K ms ρ o w

/-- The transition of a switch. -/
theorem endSwitch_books (h : d.Ready n K ms ρ o w) {value : Expr} (hvalue : .expr value ∈ ms)
    {tests : List (List Expr)} (htests : ∀ l ∈ tests, ∀ e ∈ l, e.Fits (d.graph.setting n))
    {heads : List Nat} (hheads : .states heads w.here ∈ ms) {fallback : Nat}
    (hfallback : .state fallback w.here ∈ ms) :
    Decides resolve (endWith (.switch value ((tests.zip heads).map fun (tests, body) =>
      (⟨tests, body⟩ : SwitchArm)) fallback)) d True fun _ d' => d'.Books n K ms ρ o w := by
  refine endWith_books h rfl rfl ⟨h.mark hvalue, fun a ha e he => ?_⟩ (fun r hr => ?_) rfl
  · obtain ⟨⟨l, s⟩, hl, rfl⟩ := List.mem_map.1 ha
    exact htests l (List.of_mem_zip hl).1 e he
  · rcases List.mem_append.1 hr with hr | hr
    · obtain ⟨a, ha, rfl⟩ := List.mem_map.1 hr
      obtain ⟨⟨l, s⟩, hl, rfl⟩ := List.mem_map.1 ha
      exact (h.mark hheads s (List.of_mem_zip hl).2).around
    · rw [List.mem_singleton.1 hr]
      exact h.books.around hfallback

section Switch

variable {value : Expr} (hvalue : .expr value ∈ need) {tests : List (List Expr)}
  (htests : ∀ d, (∀ m ∈ need, m.Holds n d) → ∀ l ∈ tests, ∀ e ∈ l, e.Fits (d.graph.setting n))
  {arms : Var → Nat → List Nat → Lower Unit}
  (harms : ArmsSettle resolve n K need tests.length arms a P)
include hvalue htests harms

/-- A switch without a default. -/
theorem switchOn_none_splits : Splits resolve n K need (switchOn value tests arms none) a P := by
  intro ms ρ o w d hneed h
  refine (temporary_ready h (by decide)).after fun result d₁ h₁ => ?_
  refine (emitUnit_ready h₁ (by simp)).after fun _ d₂ h₂ => ?_
  refine (newStates_ready tests h₂).after fun heads d₃ ⟨h₃, hlen⟩ => ?_
  refine (newState_ready h₃).after fun join d₄ h₄ => ?_
  refine (endSwitch_books h₄ (by simp [hneed hvalue]) (htests d₄ fun m hm => h₄.mark (by
    simp [hneed hm])) (by simp) (by simp)).after fun _ d₅ h₅ => ?_
  have h₅ := h₅.of_eq (q := heads + ({join} + o)) (by abel)
  refine (harms (by grind) (by simp) (by simp) (by simp) hlen h₅).andThen fun _ d₆ h₆ => ?_
  exact join_ready h₆ (by simp) (by simp) (by grind)

/-- A switch with a default. -/
theorem switchOn_splits (hm : Splits resolve n K need m b Q) :
    Splits resolve n K need (switchOn value tests arms (some m)) (a + b) (P ∧ Q) := by
  intro ms ρ o w d hneed h
  have h := h.budget (add_assoc a b ρ)
  refine (temporary_ready h (by decide)).after fun result d₁ h₁ => ?_
  refine (newStates_ready tests h₁).after fun heads d₂ ⟨h₂, hlen⟩ => ?_
  refine (newState_ready h₂).after fun head d₃ h₃ => (newState_ready h₃).after fun join d₄ h₄ => ?_
  refine (endSwitch_books h₄ (by simp [hneed hvalue]) (htests d₄ fun m hm => h₄.mark (by
    simp [hneed hm])) (by simp) (by simp)).after fun _ d₅ h₅ => ?_
  have h₅ := h₅.of_eq (q := heads + ({head} + ({join} + o))) (by abel)
  refine (harms (by grind) (by simp) (by simp) (by simp) hlen h₅).bind fun _ _ d₆ h₆ => ?_
  exact lastArm_decides hm (by grind) h₆ (by simp) (by simp) (by simp) (by grind)

end Switch

/-- A loop binds its labels around its body. -/
theorem repeated_splits (b c : Option Label) (hm : Splits resolve n K need m a P) :
    Splits resolve n K need (repeated b c m)
      (.ofLabels (b.toList.map Label.id) + (.ofLabels (c.toList.map Label.id) + a)) P := by
  intro ms ρ o w d hneed h
  have h := h.budget (r := .ofLabels (b.toList.map Label.id) +
    (.ofLabels (c.toList.map Label.id) + (a + ρ))) (by abel)
  refine (temporary_ready h (by decide)).after fun result d₁ h₁ => ?_
  refine (emitUnit_ready h₁ (by simp)).after fun _ d₂ h₂ => ?_
  refine (newState_ready h₂).after fun join d₃ h₃ => ?_
  refine (enterZone_ready h₃ .loop nofun rfl).after fun z d₄ h₄ => ?_
  refine (newState_ready h₄).after fun head d₅ h₅ => (newState_ready h₅).after fun start d₆ h₆ => ?_
  have hjoin : d₆.graph.InRegion join w.here := h₆.mark (m := .state join w.here) (by simp)
  refine (bindOptional_ready h₆ (b := ⟨join, some result⟩) hjoin.1 (by simp)).after fun _ d₇ h₇ => ?_
  have hhead : d₇.graph.InRegion head w.here := h₇.mark (m := .state head w.here) (by simp)
  refine (bindOptional_ready h₇ (b := ⟨head, none⟩) hhead.1 (by simp)).after fun _ d₈ h₈ => ?_
  refine (goto_books h₈ (h₈.books.around (s := head) (by simp))).after fun _ d₉ h₉ => ?_
  have h₉ := h₉.of_eq (q := {head} + ({start} + ({join} + o))) (by abel)
  have hhead₉ : d₉.graph.InRegion head w.here := h₉.marks (.state head w.here) (by simp)
  have hstart₉ : d₉.graph.InRegion start w.here := h₉.marks (.state start w.here) (by simp)
  refine (endState_books (t := .loop start) h₉ rfl rfl trivial
    (List.forall_mem_singleton.2 (hhead₉.2.symm ▸ hstart₉.around)) rfl).after fun _ d₁₀ ⟨h₁₀, _⟩ => ?_
  refine (continueAt_ready h₁₀ (by simp)).after fun _ d₁₁ h₁₁ => ?_
  refine (hm (by grind) h₁₁).andThen fun value d₁₂ h₁₂ => ?_
  refine (emit_ready h₁₂ (h₁₂.mark (m := .expr value) (by simp))).after fun _ d₁₃ h₁₃ => ?_
  refine (goto_books h₁₃ (h₁₃.books.around (s := head) (by simp))).after fun _ d₁₄ h₁₄ => ?_
  refine (exitZone_books h₁₄ h.books.nest_ne).after fun _ d₁₅ h₁₅ => ?_
  exact join_ready h₁₅ (by simp) (by simp) (by grind)

/-! ## Suspend points -/

/-- An await adds a transition that waits and one that takes the result. -/
theorem suspendOn_splits (binder : Binder) (configure : Bool) {awaitable : Expr}
    (hawaitable : .expr awaitable ∈ need) :
    Splits resolve n K need (suspendOn binder configure awaitable) ((1, 1, 0), 0) True := by
  intro ms ρ o w d hneed h
  have h := h.budget (r := ((1, 0, 0), 0) + (((0, 1, 0), 0) + ρ)) (by rw [← add_assoc]; rfl)
  refine (temporary_ready h (by decide)).after fun awaiter d₁ h₁ => ?_
  refine (temporary_ready h₁ (by decide)).after fun result d₂ h₂ => ?_
  refine (newState_fresh h₂).after fun completion d₃ ⟨h₃, hended₃, hnew⟩ => ?_
  refine (newState_fresh h₃).after fun next d₄ ⟨h₄, hended₄, _⟩ => ?_
  have hresumes : d₄.resumes = d₂.resumes := by rw [Draft.resumes, Draft.resumes, hended₄, hended₃]
  have hcompletion : d₄.graph.InRegion completion w.here :=
    h₄.mark (m := .state completion w.here) (by simp)
  refine (endWith_spends (t := .await ⟨awaitable, awaiter, binder, configure, completion⟩) h₄ ?_
    ⟨h₄.mark (m := .expr awaitable) (by simp [hneed hawaitable]), h₄.mark (m := .var awaiter) (by simp),
      h₄.stands.2.symm ▸ hcompletion⟩ (List.forall_mem_singleton.2 hcompletion.around) rfl).after
    fun _ d₅ h₅ => ?_
  · rintro r ⟨⟩
    exact ⟨hcompletion.1, hresumes ▸ hnew⟩
  have h₅ := h₅.of_eq (q := {completion} + ({next} + o)) (by abel)
  have hcompletion₅ : d₅.graph.InRegion completion w.here :=
    h₅.marks (.state completion w.here) (by simp)
  have hresult₅ : d₅.graph.Writable n result.id := h₅.marks (.var result) (by simp)
  refine (endState_spends (t := .awaitResult ⟨awaiter, some result, binder, next⟩) h₅
    (by simp [Transition.resumeTarget?]) ⟨h₅.marks (.var awaiter) (by simp), by simpa using hresult₅⟩
    (List.forall_mem_singleton.2 (hcompletion₅.2.symm ▸ h₅.around (by simp))) rfl).after ?_
  rintro _ d₆ ⟨h₆, -⟩
  exact join_ready h₆ (by simp) (by simp) (by grind)

/-- A yield adds a transition that yields. -/
theorem yieldValue_splits {value : Expr} (hvalue : .expr value ∈ need) :
    Splits resolve n K need (yieldValue value) ((0, 0, 1), 0) True := by
  intro ms ρ o w d hneed h
  refine (newState_fresh h).after fun resume d₁ ⟨h₁, hended, hnew⟩ => ?_
  have hresumes : d₁.resumes = d.resumes := by rw [Draft.resumes, Draft.resumes, hended]
  have hresume : d₁.graph.InRegion resume w.here := h₁.mark (m := .state resume w.here) (by simp)
  refine (endWith_spends (t := .yieldReturn value resume) h₁ ?_
    ⟨h₁.mark (m := .expr value) (by simp [hneed hvalue]), h₁.stands.2.symm ▸ hresume⟩
    (List.forall_mem_singleton.2 hresume.around) rfl).after fun _ d₂ h₂ => ?_
  · rintro r ⟨⟩
    exact ⟨hresume.1, hresumes ▸ hnew⟩
  refine (continueAt_ready h₂ (by simp)).after fun _ d₃ h₃ => .pure trivial ?_
  have hunit : (Mark.expr .unit).Holds n d₃ := trivial
  exact (h₃.add hunit).sub (by grind)

/-- The end of an iterator is accepted outside cleanups. -/
theorem endGenerator_splits {p : Place} (node : Expr)
    (hexit : ∀ d, (∀ m ∈ need, m.Holds n d) → ∀ e ∈ p.exit, d.graph.InRegion e Graph.top) :
    Splits resolve n K need (endGenerator p node) 0
      (p.guards.inCleanup = false ∧ p.exit.isSome = true) := by
  intro ms ρ o w d hneed h
  unfold endGenerator
  by_cases hin : p.guards.inCleanup = true
  · simp only [hin, if_true]
    exact .inr ⟨_, rfl, by simp, .inr ⟨_, _, rfl⟩⟩
  · simp only [hin]
    cases hp : p.exit with
    | none => exact .throw (by simp) (.inr ⟨_, _, rfl⟩)
    | some exit =>
      obtain ⟨hlt, htop⟩ := hexit d (fun m hm => h.mark (hneed hm)) exit hp
      have haround : d.graph.Around exit w.here :=
        ⟨hlt, htop ▸ h.sound.shape.zoned.top_mem_regionChain h.books.here_lt⟩
      refine Decides.of_iff ?_ (iff_of_true trivial (by simp))
      refine (goto_books (h.budget (zero_add ρ)) haround).after fun _ d₁ h₁ => ?_
      refine (newState_books h₁).after fun rest d₂ ⟨h₂, _⟩ => ?_
      refine (continueAt_ready h₂ (by simp)).after fun _ d₃ h₃ => .pure trivial ?_
      have hunit : (Mark.expr .unit).Holds n d₃ := trivial
      exact (h₃.add hunit).sub (by grind)

/-! ## Protected regions -/

/-- A handler is lowered in a zone of its own. -/
theorem handle_decides (filter : Filter) {x : Option Var} (hx : ∀ y ∈ x, y.id < n) (index : Nat)
    {exception : Var}
    (hm : Splits resolve n K (x.toList.map Mark.var ++ .read exception :: need) m a P)
    (hneed : need ⊆ ms) (hexception : .read exception ∈ ms) (hresult : .var result ∈ ms)
    (hjoin : .state join w.here ∈ ms) (h : d.Books n K ms (a + ρ) o w) :
    Decides resolve (handle filter x index exception result join m) d P fun entry d' =>
      entry.code = index + 1 ∧ d'.Books n K (.state entry.body w.here :: ms) ρ o w := by
  refine (enterZone_books h .handler nofun).after fun z d₁ ⟨h₁, _⟩ => ?_
  refine (newState_books h₁).after fun head d₂ ⟨h₂, _⟩ => ?_
  refine (continueAt_ready h₂ (by simp)).after fun _ d₃ h₃ => ?_
  -- the rest is the same whether or not the handler names its exception
  suffices hrest : ∀ d₄, d₄.Ready n K (x.toList.map Mark.var ++ .state head w.here :: ms) (a + ρ) o
      ((z, w.here) :: w) → Decides resolve (do
        joinAt join result (← m)
        let _ ← create Graph.exitZone
        return (⟨filter, head, index + 1⟩ : HandlerEntry)) d₄ P fun entry d' =>
          entry.code = index + 1 ∧ d'.Books n K (.state entry.body w.here :: ms) ρ o w by
    cases x with
    | none => exact hrest d₃ h₃
    | some y =>
      refine (declare_ready h₃ (hx y rfl)).after fun _ d₄ h₄ => ?_
      have hassign : (Expr.assign y (.var exception)).Fits (d₄.graph.setting n) :=
        ⟨h₄.mark (m := .var y) (by simp), h₄.mark (m := .read exception) (by simp [hexception])⟩
      exact (emit_ready h₄ hassign).after fun _ d₅ h₅ => hrest d₅ h₅
  intro d₄ h₄
  refine (hm (by grind) h₄).andThen fun value d₅ h₅ => ?_
  refine (joinAt_books h₅ (by simp [hresult]) (by simp) fun d' h' =>
    h'.books.around (by simp [hjoin])).after fun _ d₆ h₆ => ?_
  refine (exitZone_books h₆ h.nest_ne).after fun _ d₇ h₇ => .pure trivial ⟨rfl, ?_⟩
  exact h₇.sub (by grind)

/-- From the body of a protected region its join can be reached. -/
theorem OpenTry.around_join (h : OpenTry n d t) (hd : d.Sound n) :
    d.graph.Around t.join t.region := by
  refine ⟨h.join.1, ?_⟩
  rw [hd.shape.zoned.regionChain_of_parent h.lt h.parent, h.join.2]
  exact List.mem_cons_of_mem _ Graph.Zoned.mem_regionChain_self

/-- What is known of a region where its entry is set. -/
theorem OpenTry.entrySound (h : OpenTry n d t) {entries : List HandlerEntry}
    (hcodes : entries.map HandlerEntry.code = (List.range' 1 entries.length).map Int.ofNat)
    (first : Option Nat) (hfirst : ∀ c ∈ first, d.graph.InRegion c t.around) :
    d.graph.EntrySound n t.owner
      ⟨t.region, t.head, t.tryState, t.exception, entries, first, t.join⟩ :=
  ⟨h.kind, h.lt, h.ownerOf, h.owner.2.symm ▸ h.parent, h.head, h.tryState, h.exception, h.filed, hcodes,
    h.owner.2.symm ▸ hfirst⟩

/-- Handlers, cleanup and join stand beside the owner. -/
theorem OpenTry.routes (h : OpenTry n d t) {entries : List HandlerEntry}
    (hbodies : ∀ s ∈ entries.map HandlerEntry.body, d.graph.InRegion s t.around)
    {first : Option Nat} (hfirst : ∀ c ∈ first, d.graph.InRegion c t.around) :
    ∀ r ∈ (Transition.tryCatch
      ⟨t.region, t.head, t.tryState, t.exception, entries, first, t.join⟩).exits,
      d.graph.Around r (d.graph.state t.owner).region := by
  intro r hr
  rw [h.owner.2]
  simp only [Transition.exits, List.mem_append, Option.mem_toList, List.mem_singleton] at hr
  rcases hr with (hr | hr) | rfl
  · exact (hbodies r hr).around
  · exact (hfirst r hr).around
  · exact h.join.around

/-- Marks that only ask that everything stays in its place. -/
def Mark.Lasting : Mark → Prop
  | .base _ | .guarded _ => False
  | _ => True

/-- Marks that last hold in all later drafts. -/
theorem Mark.Holds.keep {m : Mark} (h : m.Holds n d) (hm : m.Lasting) {d' : Draft}
    (hk : d.Keeps d') : m.Holds n d' := by
  cases m with
  | base | guarded => exact hm.elim
  | read x => exact hk.usable h
  | var x => exact hk.writable h
  | state s region => exact hk.inRegion h
  | states l region => exact fun s hs => hk.inRegion (h s hs)
  | expr e => exact hk.fits h
  | exprs es => exact Expr.FitAll.mono hk.setting h
  | suits p s => exact Suits.mono h hk

/-- Setting a transition with the record of a region that was made since the draft `b`. What was known
of that draft is known again, since its own records are elsewhere. -/
theorem endRecord_books (ks : List Mark) {b : Draft} {s : Nat} {c : Transition} (hb : b.Sound n)
    (hms : ∀ m ∈ ms, m.Holds n b) (hnew : b.nextVar ≤ t.tryState.id)
    (h : d.Books n K ms' ρ ({s} + o) w) (hbase : .base b ∈ ms') (ht : .guarded t ∈ ms')
    (hks : ∀ m ∈ ks, m ∈ ms' ∧ m.Lasting) (hc : d.graph.TransitionSound n s c)
    (hroutes : ∀ r ∈ c.exits, d.graph.Around r (d.graph.state s).region)
    (hrec : c.record? = some (t.region, t.tryState.id)) (hresume : c.resumeTarget? = none)
    (hweight : c.weight = 0) :
    Decides resolve (endState s c) d True fun _ d' =>
      d'.Books n K (ks ++ .base b :: .guarded t :: ms) ρ o w := by
  obtain ⟨k, hk, ha⟩ := h.accounts
  have hs : s < d.graph.states.size := ha.lt_of_mem (by simp)
  have o : OpenTry n d t := h.marks _ ht
  -- the transition assigns the record of this region only
  have hone : ∀ c' r j, some c = some c' → c'.record? = some (r, j) →
      r = t.region ∧ j = t.tryState.id := by
    rintro c' r j ⟨⟩ hj
    rw [hrec] at hj
    cases hj
    exact ⟨rfl, rfl⟩
  have hlocal := local_setTransition c
  have hstate := h.sound.states s hs
  have hkeeps := (d.keeps_edit hlocal s).noting s c
  -- for drafts before the region, the record is a new variable
  have hext : b.Extends ((d.on (d.graph.setTransition s c)).noting s c) := by
    refine ((h.marks _ hbase : b.Extends d).edit hlocal s fun c' r j h hj => ?_).noting s c
    obtain ⟨rfl, rfl⟩ := hone c' r j h hj
    exact .inr hnew
  have hsound : ((d.on (d.graph.setTransition s c)).noting s c).Sound n := by
    refine (h.sound.edit hlocal s ⟨hstate.expressions, hstate.result, ?_, ?_⟩ ?_).noting s c
    · rintro c' ⟨⟩
      exact hc
    · rintro c' ⟨⟩
      exact hroutes
    · intro c' r j h hj
      obtain ⟨rfl, rfl⟩ := hone c' r j h hj
      exact ⟨o.made, o.own⟩
  have haccounts := ha.endState (t := c) (by simp [hresume])
  rw [hweight, add_zero] at haccounts
  refine .step (a := ()) rfl ⟨hsound, ⟨k, hk, haccounts⟩, h.labels, h.zones, fun p hp => ?_, ?_⟩
  · have hlt : p.1 < d.graph.zones.size :=
      h.sound.shape.outwards.mem_lt h.sound.shape.zoned (h.zones ▸ List.mem_map_of_mem hp)
    exact (hkeeps.zoneRegion _ hlt).trans (h.regions p hp)
  · refine List.forall_mem_append.2 ⟨fun m hm => (h.marks m (hks m hm).1).keep (hks m hm).2 hkeeps,
      List.forall_mem_cons.2 ⟨hext, List.forall_mem_cons.2 ⟨?_, fun m hm => (hms m hm).mono hb hext⟩⟩⟩
    refine ⟨o.kind, o.lt, o.ownerOf, o.parent, hkeeps.inRegion o.owner, hkeeps.inRegion o.head,
      hkeeps.inRegion o.join, o.tryState, o.exception, hkeeps.filed o.filed, o.made, fun q hq => ?_⟩
    rcases records_modifyState hq with hq | ⟨c', h, hj⟩
    · exact o.own q hq
    · exact (hone c' q _ h hj).1

/-- A region is given its owner. -/
theorem setOwner_books (h : d.Books n K ms ρ o w) {z : Nat} (hz : (d.graph.zone z).owner = none)
    (s : Nat) : Decides resolve (change (·.setOwner z s)) d True fun _ d' =>
      d'.Books n K ms ρ o w ∧ d' = d.on (d.graph.setOwner z s) := by
  have hre := rearranged_setOwner d.graph s hz
  exact .step (a := ()) rfl ⟨h.steady (h.sound.rearrange (h.sound.shape.setOwner z s) hre) hre.extends
    rfl (.of_states rfl) rfl, rfl⟩

/-- The two variables of a region. -/
theorem records_decides (h : d.Ready n K ms ρ o w) {f : Var → Var → Lower β}
    (hf : ∀ (x y : Var) (d' : Draft), d'.Ready n K ms ρ o w →
      d'.graph.Recording n x → d'.graph.Usable n y.id → d'.graph.Filed n x y → d.nextVar ≤ x.id →
      x.id < d'.nextVar → (∀ r, ¬ d'.graph.Records r x.id) → Decides resolve (f x y) d' P R) :
    Decides resolve (do
      let x ← temporary "try_state"
      let y ← temporary "exception"
      f x y) d P R := by
  refine (temporary_fresh h "try_state").after fun x d₁ ⟨h₁, hx, hd₁⟩ => ?_
  refine (temporary_fresh h₁ "exception").after fun y d₂ ⟨h₂, hy, hd₂⟩ => ?_
  have hxid : x.id = d.nextVar := congrArg Var.id hx
  have hyid : y.id = d.nextVar + 1 := (congrArg Var.id hy).trans (congrArg Draft.nextVar hd₁)
  have hxmem : x ∈ d₁.graph.vars := hd₁ ▸ d.mem_addVar x _
  have hymem : y ∈ d₂.graph.vars := hd₂ ▸ d₁.mem_addVar y _
  have hext : d₁.Extends d₂ := hd₂ ▸ d₁.extends_addVar y (Nat.le_succ _)
  have hyname : y.IsException := by rw [hy]; rfl
  have hle := h.sound.first
  refine hf x y d₂ h₂ ⟨hext.vars x hxmem, by omega, by rw [hx]; rfl⟩
    ⟨y, List.mem_append_right _ hymem, rfl, fun hname => ?_⟩ ⟨hymem, by omega, hyname, by omega⟩
    hxid.ge ?_ fun r hr => ?_
  -- the two variables have different stems, hence different names
  · have hstem : "exception" = "try_state" :=
      stem_eq_of_name (i := y.word) (hyname.symm.trans hname.2)
    exact absurd hstem (by decide)
  · rw [hd₂, hd₁]
    exact Nat.lt_of_lt_of_le (hxid ▸ Nat.lt_succ_self _) (Nat.le_succ _)
  -- a variable that is only now made has not been used as a record
  · obtain ⟨s, t, hst, hrec⟩ := hr
    rw [hd₂, hd₁] at hst
    have := h.sound.records r x.id ⟨s, t, hst, hrec⟩
    omega

/-- The handlers of a try, which are numbered from one. -/
def HandlersSettle (resolve : Expr.Resolver) (n : Nat) (K : Tally) (need : List Mark)
    (handlers : Var → Var → Nat → Lower (List HandlerEntry)) (index : Nat) (a : Budget) (P : Prop) :
    Prop :=
  ∀ ⦃ms ρ o w exception result join⦄ ⦃d : Draft⦄, need ⊆ ms → .read exception ∈ ms →
    .var result ∈ ms → .state join (Nest.here w) ∈ ms → d.Books n K ms (a + ρ) o w →
      Decides resolve (handlers exception result join) d P fun entries d' =>
        entries.map HandlerEntry.code = (List.range' (index + 1) entries.length).map Int.ofNat ∧
        d'.Books n K (.states (entries.map HandlerEntry.body) (Nest.here w) :: ms) ρ o w

section Guards

variable {p : Place} {part : GuardPart} {body cleanup : Place → Lower Expr}
  {handlers : Var → Var → Nat → Lower (List HandlerEntry)}
  (hbody : ∀ x, Splits resolve n K need (body (p.inside part x)) a P)
  (hhandlers : HandlersSettle resolve n K need handlers 0 b Q)
include hbody hhandlers

/-- A try up to its cleanup, and what comes after it. -/
theorem opened_decides
    {f : Var → Var → Var → Nat → Nat → Nat → Nat → List HandlerEntry → Lower β} (hneed : need ⊆ ms)
    (h : d.Ready n K ms (a + (b + ρ)) o w)
    (hf : ∀ (t : TryParts) entries (d' : Draft), t.around = w.here → d.nextVar ≤ t.tryState.id →
      entries.map HandlerEntry.code = (List.range' 1 entries.length).map Int.ofNat →
      d'.Books n K (.states (entries.map HandlerEntry.body) w.here :: .state t.join w.here ::
        .var t.result :: .base d :: .guarded t :: ms) ρ ({t.owner} + ({t.join} + o)) w →
      Decides resolve (f t.result t.tryState t.exception t.owner t.join t.region t.head entries) d'
        P' R) :
    Decides resolve (do
      let result ← temporary "try"
      let tryState ← temporary "try_state"
      let exception ← temporary "exception"
      let owner ← current
      let join ← newState
      let region ← create (·.enterZone .guarded)
      change (·.setOwner region owner)
      let head ← newState
      continueAt head
      joinAt join result (← body (p.inside part exception))
      let _ ← create Graph.exitZone
      let entries ← handlers exception result join
      f result tryState exception owner join region head entries) d (P ∧ Q ∧ P') R := by
  have hbase : (Mark.base d).Holds n d := Draft.Extends.refl d
  refine (temporary_ready (h.add hbase) (by decide)).after fun result d₁ h₁ => ?_
  have hnext₁ : d.nextVar ≤ d₁.nextVar := (h₁.mark (m := .base d) (by simp)).nextVar
  refine records_decides h₁ fun tryState exception d₂ h₂ htry hexc hfiled hle hmade hnone => ?_
  refine .current ?_
  -- what is known of a draft on the way holds of all that come after it
  have hbase₂ : (Mark.base d₂).Holds n d₂ := Draft.Extends.refl d₂
  have hcur₂ : (Mark.state d₂.current w.here).Holds n d₂ := h₂.stands
  refine (newState_books ((h₂.books.add hcur₂).add hbase₂)).after fun join d₃ ⟨h₃, _⟩ => ?_
  have hbase₃ : (Mark.base d₃).Holds n d₃ := Draft.Extends.refl d₃
  refine (enterZone_books (h₃.add hbase₃) .guarded nofun).after
    fun z d₄ ⟨h₄, _, hlt, hzone⟩ => ?_
  have h₄ : d₄.Books n K _ _ _ ((z, z) :: w) := h₄
  refine (setOwner_books h₄ (by rw [hzone]) d₂.current).after fun _ d₅ ⟨h₅, hd₅⟩ => ?_
  have hbase₅ : (Mark.base d₅).Holds n d₅ := Draft.Extends.refl d₅
  refine (newState_books (h₅.add hbase₅)).after fun head d₆ ⟨h₆, _⟩ => ?_
  rw [Nest.here_cons] at h₆
  have hlt₅ : z < d₅.graph.zones.size := by simpa [hd₅, Draft.on, Graph.setOwner] using hlt
  have hzone₅ : d₅.graph.zone z = { d₄.graph.zone z with owner := some d₂.current } := by
    rw [hd₅]
    exact Graph.zone_modifyZone_self d₄.graph _ hlt
  have hparent₅ : d₅.graph.parentRegion? z = some w.here := by
    have hext : d₃.Extends d₅ := h₅.marks (.base d₃) (by simp)
    rw [Graph.parentRegion?, hzone₅, hzone, ← h₃.here_eq]
    exact congrArg some (hext.zoneRegion _ h₃.sound.shape.currentZone_lt)
  have hext₂ : d₂.Extends d₆ := h₆.marks (.base d₂) (by simp)
  have hext₅ : d₅.Extends d₆ := h₆.marks (.base d₅) (by simp)
  let t : TryParts := ⟨w.here, z, d₂.current, head, join, result, tryState, exception⟩
  have ht : (Mark.guarded t).Holds n d₆ := by
    refine ⟨(hext₅.kind _ hlt₅).trans (by rw [hzone₅, hzone]), hlt₅.trans_le hext₅.zones,
      hext₅.owner _ _ (by rw [hzone₅]), (hext₅.parentRegion h₅.sound.shape.zoned hlt₅).trans hparent₅,
      h₆.marks (.state d₂.current w.here) (by simp), h₆.marks (.state head z) (by simp),
      h₆.marks (.state join w.here) (by simp), hext₂.recording htry, hext₂.usable hexc,
      hext₂.filed hfiled, hmade.trans_le hext₂.nextVar, hext₂.own hmade fun q hq => (hnone q hq).elim⟩
  have hexc₆ : (Mark.read exception).Holds n d₆ := hext₂.usable hexc
  have h₆ := (((h₆.add ht).add hexc₆).sub (l := .read exception :: .state head z ::
    .state join w.here :: .var result :: .base d :: .guarded t :: ms)
    fun m hm => by simp only [List.mem_cons] at hm ⊢; tauto).of_eq
    (q := {head} + ({d₂.current} + ({join} + o))) (by abel)
  refine arm_decides (hbody exception) (by grind) h₆ (by simp) (by simp)
    (fun h' => (h'.marks (.guarded t) (by simp)).around_join h'.sound) fun d₇ h₇ => ?_
  refine (exitZone_books h₇ h.books.nest_ne).after fun _ d₈ h₈ => ?_
  refine (hhandlers (by grind) (by simp) (by simp) (by simp) h₈).bind ?_
  rintro _ entries d₉ ⟨hcodes, h₉⟩
  exact hf t entries d₉ rfl (hnext₁.trans hle) (by simpa using hcodes)
    (h₉.sub (by dsimp only [t]; grind))

/-- A guarded expression without a cleanup. -/
theorem guard_splits :
    Splits resolve n K need (guard part p body handlers none) (a + b) (P ∧ Q) := by
  intro ms ρ o w d hneed h
  refine Decides.of_iff (P := P ∧ Q ∧ True) (opened_decides hbody hhandlers hneed
    (h.budget (add_assoc a b ρ)) fun t entries d₁ haround hnew hcodes h₁ => ?_) (by simp)
  have ht : OpenTry n d₁ t := h₁.marks (.guarded t) (by simp)
  have hbodies := h₁.marks (.states (entries.map HandlerEntry.body) w.here) (by simp)
  refine (endRecord_books [.state t.join w.here, .var t.result] h.sound h.books.marks hnew h₁
    (by simp) (by simp) (by simp [Mark.Lasting]) (c := .tryCatch _) (ht.entrySound hcodes none nofun)
    (ht.routes (haround ▸ hbodies) nofun) rfl rfl rfl).after fun _ d₂ h₂ => ?_
  exact join_ready h₂ (by simp) (by simp) (by grind)

/-- A guarded expression with a cleanup. -/
theorem guard_cleanup_splits {c : Budget}
    (hcleanup : ∀ x, Splits resolve n K need (cleanup (p.inside .cleanup x)) c P') :
    Splits resolve n K need (guard part p body handlers (some cleanup)) (a + (b + c))
      (P ∧ Q ∧ P') := by
  intro ms ρ o w d hneed h
  refine opened_decides hbody hhandlers hneed (h.budget (r := a + (b + (c + ρ))) (by abel))
    fun t entries d₁ haround hnew hcodes h₁ => ?_
  refine (enterZone_books h₁ .cleanup nofun).after fun z d₂ ⟨h₂, _⟩ => ?_
  have h₂ : d₂.Books n K _ _ _ ((z, w.here) :: w) := h₂
  refine (newState_books h₂).after fun first d₃ ⟨h₃, _⟩ => ?_
  refine (continueAt_ready h₃ (by simp)).after fun _ d₄ h₄ => ?_
  refine (hcleanup t.exception (by grind) h₄).andThen fun value d₅ h₅ => ?_
  refine (emit_ready h₅ (h₅.mark (m := .expr value) (by simp))).after fun _ d₆ h₆ => ?_
  have ht₆ : OpenTry n d₆ t := h₆.mark (m := .guarded t) (by simp)
  -- a cleanup belongs to the region around the one it is for
  have hcur₆ : (d₆.graph.state d₆.current).region = t.around := h₆.stands.2.trans haround.symm
  refine .after (.current (endRecord_books [.state first w.here, .states
    (entries.map HandlerEntry.body) w.here, .state t.join w.here, .var t.result] h.sound h.books.marks
    hnew h₆.books (by simp) (by simp) (by simp [Mark.Lasting])
    (c := .cleanupExit ⟨t.region, t.tryState, t.exception, t.join⟩)
    ⟨ht₆.tryState, ⟨ht₆.exception, ht₆.filed⟩, ht₆.lt, hcur₆.symm ▸ ht₆.parent⟩
    (List.forall_mem_singleton.2 (hcur₆.symm ▸ ht₆.join.around)) rfl rfl rfl)) fun _ d₇ h₇ => ?_
  refine (exitZone_books h₇ h.books.nest_ne).after fun _ d₈ h₈ => ?_
  have ht₈ : OpenTry n d₈ t := h₈.marks (.guarded t) (by simp)
  have hbodies := h₈.marks (.states (entries.map HandlerEntry.body) w.here) (by simp)
  have hfirst : ∀ c ∈ some first, d₈.graph.InRegion c t.around := by
    rintro c ⟨⟩
    exact haround ▸ h₈.marks (.state first w.here) (by simp)
  refine (endRecord_books [.state t.join w.here, .var t.result] h.sound h.books.marks hnew h₈
    (by simp) (by simp) (by simp [Mark.Lasting]) (c := .tryCatch _)
    (ht₈.entrySound hcodes (some first) hfirst)
    (ht₈.routes (haround ▸ hbodies) hfirst) rfl rfl rfl).after fun _ d₉ h₉ => ?_
  exact join_ready h₉ (by simp) (by simp) (by grind)

end Guards

end Coroutine.Lowering

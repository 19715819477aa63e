import Mathlib
import Coroutine.Proofs.Lowering.Accounts

/-!
# The books of lowering

A part of lowering *decides* a condition if it succeeds where the condition holds and refuses its
input where it does not. What it does to a draft is said by the books that are kept of it,
`Draft.Books n K ms ρ o w d`: the draft is sound, the states `o` are open, the zones `w` are, and the
`marks` hold, which are what is known of the draft and stays so while it grows. The budget `ρ` is what
is still to come: suspend points, which together with those that were made are `K`, and labels, none
of which is bound yet. A part of lowering spends its share of the budget and leaves the rest, so that
what a tree does is the sum over its nodes.

A draft is *ready* if its current state is open and in the region that new states belong to.
-/

namespace Coroutine

/-- Errors that refuse an input: an awaited type without a binder, or a misplaced suspend point. -/
def Expr.Resolver.Refuses (resolve : Expr.Resolver) (e : BuildError) : Prop :=
  (∃ type, resolve type = .error e) ∨ ∃ place node, e = .unsupportedSuspend place node

namespace Lowering

variable {α β : Type} {resolve : Expr.Resolver}

/-! ## Deciding a condition -/

/-- A part of lowering that succeeds if and only if a condition holds, and refuses its input
otherwise. If it succeeds, its result and its draft have a property. -/
def Decides (resolve : Expr.Resolver) (m : Lower α) (d : Draft) (P : Prop)
    (Q : α → Draft → Prop) : Prop :=
  (∃ a d', m d = .ok (a, d') ∧ P ∧ Q a d') ∨ ∃ e, m d = .error e ∧ ¬ P ∧ resolve.Refuses e

namespace Decides

variable {m : Lower α} {f : α → Lower β} {d : Draft} {P P' : Prop} {Q Q' : α → Draft → Prop}
  {R : β → Draft → Prop}

/-- What gives a value accepts. -/
theorem pure {a : α} (hP : P) (hQ : Q a d) : Decides resolve (pure a) d P Q :=
  .inl ⟨a, d, rfl, hP, hQ⟩

/-- What refuses does so with an error of its own. -/
theorem throw {e : BuildError} (hP : ¬ P) (he : resolve.Refuses e) :
    Decides resolve (throw e) d P Q := .inr ⟨e, rfl, hP, he⟩

/-- A part that always succeeds. -/
theorem step {a : α} {b : Draft} (h : m d = .ok (a, b)) (hQ : Q a b) :
    Decides resolve m d True Q := .inl ⟨a, b, h, trivial, hQ⟩

/-- What a run that succeeded shows. -/
theorem of_run (h : Decides resolve m d P Q) {a : α} {d' : Draft} (hrun : m d = .ok (a, d')) :
    P ∧ Q a d' := by
  rcases h with ⟨b, d₁, hb, hP, hQ⟩ | ⟨e, he, -⟩
  · cases hb.symm.trans hrun
    exact ⟨hP, hQ⟩
  · cases he.symm.trans hrun

/-- What is accepted may be described in a weaker way. -/
theorem mono (h : Decides resolve m d P Q) (hQ : ∀ a d', Q a d' → Q' a d') :
    Decides resolve m d P Q' := by
  refine h.imp_left ?_
  rintro ⟨a, d', hrun, hP, h⟩
  exact ⟨a, d', hrun, hP, hQ a d' h⟩

/-- The condition may be put in other words. -/
theorem of_iff (h : Decides resolve m d P Q) (hP : P ↔ P') : Decides resolve m d P' Q := by
  rwa [← propext hP]

/-- Two parts decide both conditions. The second may rely on the first. -/
theorem bind (h : Decides resolve m d P Q)
    (hf : P → ∀ a d', Q a d' → Decides resolve (f a) d' P' R) :
    Decides resolve (m >>= f) d (P ∧ P') R := by
  rcases h with ⟨a, d₁, hrun, hP, hQ⟩ | ⟨e, hrun, hP, he⟩
  · have hstep : (m >>= f) d = f a d₁ := by simp [Bind.bind, StateT.bind, Except.bind, hrun]
    rw [Decides, hstep]
    refine (hf hP a d₁ hQ).imp ?_ ?_
    · rintro ⟨b, d₂, hrun', hP', hR⟩
      exact ⟨b, d₂, hrun', ⟨hP, hP'⟩, hR⟩
    · rintro ⟨e, hrun', hP', he⟩
      exact ⟨e, hrun', fun h => hP' h.2, he⟩
  · exact .inr ⟨e, by simp [Bind.bind, StateT.bind, Except.bind, hrun], fun h => hP h.1, he⟩

/-- After a part that always succeeds. -/
theorem after (h : Decides resolve m d True Q)
    (hf : ∀ a d', Q a d' → Decides resolve (f a) d' P R) : Decides resolve (m >>= f) d P R :=
  (h.bind fun _ => hf).of_iff (iff_of_eq (true_and P))

/-- Before a part that always succeeds. -/
theorem andThen (h : Decides resolve m d P Q)
    (hf : ∀ a d', Q a d' → Decides resolve (f a) d' True R) : Decides resolve (m >>= f) d P R :=
  (h.bind fun _ => hf).of_iff (iff_of_eq (and_true P))

/-- What may follow a look at the draft. -/
theorem get {f : Draft → Lower β} (h : Decides resolve (f d) d P R) :
    Decides resolve (MonadState.get >>= f) d P R := h

/-- What may follow a look at the open state. -/
theorem current {f : Nat → Lower β} (h : Decides resolve (f d.current) d P R) :
    Decides resolve (current >>= f) d P R := h

end Decides

/-! ## Where a draft is -/

/-- The region that new states belong to. -/
def Draft.here (d : Draft) : Nat := (d.graph.zone d.graph.currentZone).region

/-- A part of lowering that leaves the same zones open leads from one draft to another. -/
structure Draft.Leads (n : Nat) (d d' : Draft) : Prop where
  sound : d'.Sound n
  grows : d.Extends d'
  zones : d'.graph.openZones = d.graph.openZones

/-- The open zones, from the innermost one outwards, with the regions that their states belong to. -/
abbrev Nest := List (Nat × Nat)

/-- The region that the states of the innermost zone belong to. -/
def Nest.here (w : Nest) : Nat := (w.headD (Graph.top, Graph.top)).2

/-- Inside a region, this is the region. -/
@[simp]
theorem Nest.here_cons (z r : Nat) (w : Nest) : Nest.here ((z, r) :: w) = r := rfl

/-! ## What is known of a draft -/

/-- Whether a place suits a setting in a draft. -/
structure Suits (n : Nat) (p : Place) (s : Setting) (d : Draft) : Prop where
  inner : ∀ i, s.inner i → i < n
  bound : ∀ i, s.bound i → d.graph.Usable n i
  assigned : ∀ i, s.assigned i → i < n
  handling : s.handling = true → p.rethrow.isSome = true
  rethrow : ∀ x ∈ p.rethrow, d.graph.Usable n x.id
  exit : ∀ e ∈ p.exit, d.graph.InRegion e Graph.top

/-- The parts of a protected region under construction. -/
structure TryParts where
  around : Nat
  region : Nat
  owner : Nat
  head : Nat
  join : Nat
  result : Var
  tryState : Var
  exception : Var

/-- A protected region under construction: its owner and its join stand in the region around it, and
only records about it are in its variable. -/
structure OpenTry (n : Nat) (d : Draft) (t : TryParts) : Prop where
  kind : (d.graph.zone t.region).kind = .guarded
  lt : t.region < d.graph.zones.size
  ownerOf : (d.graph.zone t.region).owner = some t.owner
  parent : d.graph.parentRegion? t.region = some t.around
  owner : d.graph.InRegion t.owner t.around
  head : d.graph.InRegion t.head t.region
  join : d.graph.InRegion t.join t.around
  tryState : d.graph.Recording n t.tryState
  exception : d.graph.Usable n t.exception.id
  filed : d.graph.Filed n t.tryState t.exception
  made : t.tryState.id < d.nextVar
  own : ∀ q, d.graph.Records q t.tryState.id → q = t.region

/-- Something that is known of a draft, and stays so while the draft grows. -/
inductive Mark where
  /-- The draft extends another one. -/
  | base (b : Draft)
  /-- A variable that can be used. -/
  | read (x : Var)
  /-- A variable that can be used and assigned. -/
  | var (x : Var)
  /-- A state of a region. -/
  | state (s region : Nat)
  /-- States of a region. -/
  | states (l : List Nat) (region : Nat)
  /-- An expression that can be evaluated. -/
  | expr (e : Expr)
  /-- Expressions that can be evaluated. -/
  | exprs (es : List Expr)
  /-- A place that suits a setting. -/
  | suits (p : Place) (s : Setting)
  /-- A protected region under construction. -/
  | guarded (t : TryParts)

/-- What a mark says. -/
def Mark.Holds (n : Nat) (d : Draft) : Mark → Prop
  | .base b => b.Extends d
  | .read x => d.graph.Usable n x.id
  | .var x => d.graph.Writable n x.id
  | .state s region => d.graph.InRegion s region
  | .states l region => ∀ s ∈ l, d.graph.InRegion s region
  | .expr e => e.Fits (d.graph.setting n)
  | .exprs es => Expr.FitAll (d.graph.setting n) es
  | .suits p s => Suits n p s d
  | .guarded t => OpenTry n d t

variable {n : Nat} {d d' : Draft}

/-- What suits a place goes on to do so. -/
theorem Suits.mono {p : Place} {s : Setting} (h : Suits n p s d) (hk : d.Keeps d') :
    Suits n p s d' :=
  ⟨h.inner, fun i hi => hk.usable (h.bound i hi), h.assigned, h.handling,
    fun x hx => hk.usable (h.rethrow x hx), fun e he => hk.inRegion (h.exit e he)⟩

/-- A guarded expression that has been opened stays open. -/
theorem OpenTry.mono {t : TryParts} (h : OpenTry n d t) (hd : d.Sound n) (hext : d.Extends d') :
    OpenTry n d' t where
  kind := (hext.kind _ h.lt).trans h.kind
  lt := h.lt.trans_le hext.zones
  ownerOf := hext.owner _ _ h.ownerOf
  parent := (hext.parentRegion hd.shape.zoned h.lt).trans h.parent
  owner := hext.inRegion h.owner
  head := hext.inRegion h.head
  join := hext.inRegion h.join
  tryState := hext.recording h.tryState
  exception := hext.usable h.exception
  filed := hext.filed h.filed
  made := h.made.trans_le hext.nextVar
  own := hext.own h.made h.own

/-- What is known of a draft stays so while it grows. -/
theorem Mark.Holds.mono {m : Mark} (h : m.Holds n d) (hd : d.Sound n) (hext : d.Extends d') :
    m.Holds n d' := by
  cases m with
  | base b => exact Draft.Extends.trans h hext
  | read x => exact hext.usable h
  | var x => exact hext.writable h
  | state s region => exact hext.inRegion h
  | states l region => exact fun s hs => hext.inRegion (h s hs)
  | expr e => exact hext.fits h
  | exprs es => exact Expr.FitAll.mono hext.setting h
  | suits p s => exact Suits.mono h hext.toKeeps
  | guarded t => exact OpenTry.mono h hd hext

/-! ## Books -/

/-- What is still to come: suspend points and labels. -/
abbrev Budget := Tally × Multiset Nat

/-- A budget of labels. -/
def Budget.ofLabels (l : List Nat) : Budget := (0, l)

/-- The labels that are bound in a draft. -/
def Draft.bound (d : Draft) : List Nat := d.graph.labels.map Prod.fst

/-- The books that are kept of a draft. -/
structure Draft.Books (n : Nat) (K : Tally) (ms : List Mark) (ρ : Budget) (o : Multiset Nat)
    (w : Nest) (d : Draft) : Prop where
  sound : d.Sound n
  accounts : ∃ k, k + ρ.1 = K ∧ d.Accounts k d.current o
  labels : ((d.bound : Multiset Nat) + ρ.2).Nodup
  zones : d.graph.openZones = w.map Prod.fst
  regions : ∀ p ∈ w, (d.graph.zone p.1).region = p.2
  marks : ∀ m ∈ ms, m.Holds n d

/-- A draft whose current state is open and where new states are. -/
structure Draft.Ready (n : Nat) (K : Tally) (ms : List Mark) (ρ : Budget) (o : Multiset Nat)
    (w : Nest) (d : Draft) : Prop where
  books : d.Books n K ms ρ ({d.current} + o) w
  stands : d.graph.InRegion d.current w.here

variable {K : Tally} {ms l : List Mark} {ρ r : Budget} {o q : Multiset Nat} {w : Nest}

namespace Draft.Books

variable (h : d.Books n K ms ρ o w)
include h

/-- The zone that is open is the innermost one of the nest. -/
theorem here_eq : d.here = w.here := by
  unfold Draft.here Graph.currentZone Nest.here
  rw [h.zones]
  cases w with
  | nil => exact h.sound.shape.zoned.top_region
  | cons p w => exact h.regions p List.mem_cons_self

/-- The zone that is open is one of the zones of the graph. -/
theorem here_lt : w.here < d.graph.zones.size := by
  rw [← h.here_eq]
  exact h.sound.shape.zoned.region_lt h.sound.shape.currentZone_lt

/-- The books of a draft that grew. -/
theorem grow (hd' : d'.Sound n) (hext : d.Extends d')
    (hzones : d'.graph.openZones = d.graph.openZones)
    (haccounts : ∃ k, k + r.1 = K ∧ d'.Accounts k d'.current q)
    (hlabels : ((d'.bound : Multiset Nat) + r.2).Nodup) : d'.Books n K ms r q w where
  sound := hd'
  accounts := haccounts
  labels := hlabels
  zones := hzones.trans h.zones
  regions p hp := by
    have hlt : p.1 < d.graph.zones.size :=
      h.sound.shape.outwards.mem_lt h.sound.shape.zoned (h.zones ▸ List.mem_map_of_mem hp)
    exact (hext.zoneRegion _ hlt).trans (h.regions p hp)
  marks m hm := (h.marks m hm).mono h.sound hext

/-- A step that ends no state and binds no label. -/
theorem steady (hd' : d'.Sound n) (hext : d.Extends d')
    (hzones : d'.graph.openZones = d.graph.openZones) (hs : d.Steady d')
    (hlabels : d'.graph.labels = d.graph.labels) : d'.Books n K ms ρ o w := by
  obtain ⟨k, hk, ha⟩ := h.accounts
  refine h.grow hd' hext hzones ⟨k, hk, hs.current ▸ ha.steady hs⟩ ?_
  rw [Draft.bound, hlabels]
  exact h.labels

/-- A mark that holds may be added to the books. -/
theorem add {m : Mark} (hm : m.Holds n d) : d.Books n K (m :: ms) ρ o w :=
  { h with marks := List.forall_mem_cons.2 ⟨hm, h.marks⟩ }

/-- Marks may be taken out of the books. -/
theorem sub (hms : l ⊆ ms) : d.Books n K l ρ o w := { h with marks := fun m hm => h.marks m (hms hm) }

/-- The open states may be written in another way. -/
theorem of_eq (ho : o = q) : d.Books n K ms ρ q w := ho ▸ h

/-- The budget may be written in another way. -/
theorem budget (hρ : ρ = r) : d.Books n K ms r o w := hρ ▸ h

/-- A budget of labels that are not needed. -/
theorem drop {a : Budget} (ha : a.1 = 0) (hρ : ρ = a + r) : d.Books n K ms r o w := by
  subst hρ
  obtain ⟨k, hk, haccounts⟩ := h.accounts
  refine { h with accounts := ⟨k, ?_, haccounts⟩, labels := Multiset.nodup_of_le ?_ h.labels }
  · rwa [Prod.fst_add, ha, zero_add] at hk
  · rw [Prod.snd_add]
    exact add_le_add le_rfl (Multiset.le_add_left _ _)

/-- A state of the current region can be reached from it. -/
theorem around {s : Nat} (hs : .state s w.here ∈ ms) : d.graph.Around s w.here :=
  Graph.InRegion.around (h.marks _ hs)

end Draft.Books

namespace Draft.Ready

variable (h : d.Ready n K ms ρ o w)
include h

/-- A draft that is ready is sound. -/
theorem sound : d.Sound n := h.books.sound

/-- A mark of the books holds. -/
theorem mark {m : Mark} (hm : m ∈ ms) : m.Holds n d := h.books.marks m hm

/-- A step that neither opens a zone nor binds a label keeps the books. -/
theorem steady (hd' : d'.Sound n) (hext : d.Extends d')
    (hzones : d'.graph.openZones = d.graph.openZones) (hs : d.Steady d')
    (hlabels : d'.graph.labels = d.graph.labels) : d'.Ready n K ms ρ o w :=
  ⟨hs.current ▸ h.books.steady hd' hext hzones hs hlabels, hs.current ▸ hext.inRegion h.stands⟩

/-- A mark that holds may be added to a ready draft's books. -/
theorem add {m : Mark} (hm : m.Holds n d) : d.Ready n K (m :: ms) ρ o w :=
  ⟨h.books.add hm, h.stands⟩

/-- Marks may be taken out of a ready draft's books. -/
theorem sub (hms : l ⊆ ms) : d.Ready n K l ρ o w := ⟨h.books.sub hms, h.stands⟩

/-- The budget of a ready draft may be written in another way. -/
theorem budget (hρ : ρ = r) : d.Ready n K ms r o w := hρ ▸ h

/-- The value of a variable can be read. -/
theorem value {x : Var} (hx : .var x ∈ ms) (hms : l ⊆ ms) :
    d.Ready n K (.expr (.var x) :: l) ρ o w :=
  (h.sub hms).add (h.mark hx).1

/-- Labels that need not be bound may be dropped from the budget. -/
theorem drop {a : Budget} (ha : a.1 = 0) (hρ : ρ = a + r) : d.Ready n K ms r o w :=
  ⟨h.books.drop ha hρ, h.stands⟩

end Draft.Ready

end Lowering

end Coroutine

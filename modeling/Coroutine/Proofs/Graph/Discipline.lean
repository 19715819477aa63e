import Mathlib
import Coroutine.Proofs.Machine.Resumption

/-!
# The discipline of regions

Control goes from a region into one inside it only where that region is entered, and from a region
to those around it anywhere. `Lambda.lower_disciplined`: the state graph of a lambda keeps this
discipline, as it was lowered and however it is simplified. States are made while zones are opened and
closed, and joins before the zones that go on to them, so the argument is in the invariant of lowering:
`StateSound.routes` says it of every state of a draft, and `Reduces.regular` carries it along the ways
that simplification shortens.
-/

namespace Coroutine

namespace Graph

/-- What holds of the regions of a graph. -/
structure Disciplined (g : Graph) : Prop where
  /-- The states that a live state names are live. -/
  leads : ∀ s, g.isLive s = true →
    ∃ t, (g.state s).transition = some t ∧ ∀ r ∈ t.references, g.isLive r = true
  /-- They lie in its region or in one around it, but for the body of a region that it enters. -/
  outwards : ∀ s t, g.isLive s = true → (g.state s).transition = some t → ∀ r ∈ t.exits,
    g.encloses (g.state r).region (g.state s).region = true
  /-- The body of a region lies in it. The region is that of the state that enters it, and the next
  one inside the state's own. -/
  body : ∀ s e, g.isLive s = true → (g.state s).transition = some (.tryCatch e) →
    (g.state e.body).region = e.region ∧ e.region ∈ g.regions ∧
      (g.zone e.region).owner = some s ∧ g.parentRegion? e.region = some (g.state s).region
  /-- A machine resumes in the region where it was suspended. -/
  resume : ∀ s t r, g.isLive s = true → (g.state s).transition = some t →
    t.resumeTarget? = some r → (g.state r).region = (g.state s).region
  /-- Every state lies in a region. -/
  home : ∀ s < g.states.size, (g.state s).region ∈ g.regions
  /-- A region lists the states that lie in it, each once. -/
  nodes : ∀ q ∈ g.regions, (g.zone q).nodes.Nodup ∧
    ∀ s, s ∈ (g.zone q).nodes ↔ s < g.states.size ∧ (g.state s).region = q

theorem mem_regions {g : Graph} {q : Nat} :
    q ∈ g.regions ↔ q < g.zones.size ∧ (g.zone q).kind.isRegion = true := by
  rw [regions, List.mem_filter, List.mem_range]

theorem Regular.disciplined {n : Nat} {g : Graph} (hg : g.Regular n) : g.Disciplined where
  leads := hg.leads
  outwards s t hs ht r hr := List.contains_iff_mem.2 ((hg.sound s hs).routes t ht r hr).2
  body s e hs ht := by
    have hentry := (hg.sound s hs).transition _ ht
    have hregion : e.region ∈ g.regions := mem_regions.2 ⟨hentry.lt, by rw [hentry.kind]; rfl⟩
    exact ⟨hentry.body.2, hregion, hentry.owner, hentry.around⟩
  resume s t r hs ht hr := (hg.resumeTarget_live hs ht hr).2
  home s hs := mem_regions.2 (hg.region s hs)
  nodes q hq := by
    obtain ⟨hlt, hk⟩ := mem_regions.1 hq
    refine ⟨hg.once q hlt hk, fun s => ⟨hg.node q hlt hk s, ?_⟩⟩
    rintro ⟨hs, rfl⟩
    exact hg.listed s hs

end Graph

/-- The graph of a lambda keeps the discipline of regions, and so does the simplified graph. -/
theorem Lambda.lower_disciplined {resolve : Expr.Resolver} {l : Lambda} {g : Graph}
    (h : l.lower resolve = .ok g) (o : Options) :
    g.Disciplined ∧ (g.simplify o).2.Disciplined := by
  obtain ⟨facts, hcheck, -⟩ := bind_eq_ok.1 h
  obtain ⟨hg, -⟩ := Lambda.lower_regular_of_check hcheck h
  obtain ⟨φ, -, hφ⟩ := hg.reduces_simplify o
  exact ⟨hg.disciplined, (hφ.regular hg).disciplined⟩

/-- Waiting inside two protected bodies makes three regions, one inside the other. -/
theorem Lambda.guardedWait_disciplined : ∃ g, Lambda.guardedWait.lower .tasks = .ok g ∧
    (g.simplify {}).2.regions = [0, 1, 2] ∧ (g.simplify {}).2.regionChain 2 = [2, 1, 0] ∧
    g.Disciplined ∧ (g.simplify {}).2.Disciplined := by
  have hrun : ((Lambda.guardedWait.lower .tasks).toOption.bind fun g =>
      let g' := (g.simplify {}).2
      if g'.regions = [0, 1, 2] ∧ g'.regionChain 2 = [2, 1, 0] then some g else none).isSome
        = true := by cbv
  obtain ⟨g, hg⟩ := Option.isSome_iff_exists.1 hrun
  obtain ⟨g', hg', hg⟩ := Option.bind_eq_some_iff.1 hg
  simp only [Option.ite_none_right_eq_some, Option.some.injEq] at hg
  obtain ⟨⟨hregions, hchain⟩, rfl⟩ := hg
  have hlower := eq_ok_of_toOption hg'
  exact ⟨g', hlower, hregions, hchain, Lambda.lower_disciplined hlower {}⟩

end Coroutine

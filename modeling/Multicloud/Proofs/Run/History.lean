import Multicloud.Proofs.Rules.Shipped
import Multicloud.Proofs.Run.Cache
import Multicloud.Proofs.Run.Plan
import Multicloud.Proofs.Workload.Document

namespace Multicloud

def ResourceGraph.FromDocument (g : ResourceGraph) : Prop :=
  ∃ (document : ByteArray) (spec : WorkloadSpec),
    WorkloadSpec.ofBytes document = .ok spec ∧ ResourceGraph.build spec = .ok g

namespace Pipeline

def shipped (pins : Binding) : Pipeline := { registry := .builtin, pins }

/-- Whether all that a run digests is among some strings. -/
def Feeds (fed : Set ByteArray) (p : Pipeline) (g : ResourceGraph) (targets : List Provider) :
    Prop :=
  ∀ plan, p.plan g targets = .ok plan →
    g.stream ∈ fed ∧ plan.binding.stream plan.graphHash ∈ fed

/-- The outcome of a plan when nothing is taken from a cache. -/
def fresh (g : ResourceGraph) (plan : Plan) : Outcome :=
  assemble g plan (inTurn ((shipped ∅).walk g) none plan.binding.toList)

structure Earns (fed : Set ByteArray) (g : ResourceGraph) (plan : Plan) : Prop where
  graph : g.FromDocument
  planned : ∃ pins targets, Planned (shipped pins) g targets plan
  graph_mem : g.stream ∈ fed
  key_mem : plan.binding.stream plan.graphHash ∈ fed
  complete : (fresh g plan).isComplete = true

/-- What a cache should hold under a key: the outcome of some earlier run that has it. -/
def Earned (fed : Set ByteArray) (key : String) (run : StoredRun) : Prop :=
  ∃ g plan, Earns fed g plan ∧ key = plan.binding.key Digest.blake3 plan.graphHash ∧
    run = (fresh g plan).stored

variable {fed : Set ByteArray} {g g' : ResourceGraph} {plan plan' : Plan} {pins : Binding}
  {targets : List Provider} {c : RunCache} {root : Tree}

theorem Earns.isDigest (h : Earns fed g plan) : Digest.IsDigest plan.graphHash := by
  obtain ⟨pins, targets, hp⟩ := h.planned
  exact hp.isDigest_graphHash rfl

theorem Earns.walked (h : Earns fed g plan) :
    plan.unbound = ∅ ∧ ∃ p v artifacts, walkTarget g .builtin p v = .ok artifacts := by
  obtain ⟨hu, -, hwalk⟩ := (worked_inTurn _ none _).complete h.complete
  obtain ⟨pins, targets, hp⟩ := h.planned
  obtain ⟨t, rest, ht⟩ := List.exists_cons_of_ne_nil (hp.toList_binding_ne hu)
  obtain ⟨artifacts, ha⟩ := hwalk t (ht ▸ .head _)
  exact ⟨hu, t.1, t.2, artifacts, ha⟩

/-- No two runs meet in a key: the earlier one was about the same graph. -/
theorem Earns.eq_of_key_eq (hfed : Set.InjOn Digest.blake3 fed) (h : Earns fed g plan)
    (hg' : g'.FromDocument) (hp' : Planned (shipped pins) g' targets plan')
    (hu' : plan'.unbound = ∅) (hgf' : g'.stream ∈ fed)
    (hkf' : plan'.binding.stream plan'.graphHash ∈ fed)
    (hkey : plan.binding.key Digest.blake3 plan.graphHash =
      plan'.binding.key Digest.blake3 plan'.graphHash) : g = g' ∧ plan = plan' := by
  obtain ⟨pins₀, targets₀, hp⟩ := h.planned
  obtain ⟨hu, p, v, artifacts, hwalk⟩ := h.walked
  have hdigest' : Digest.IsDigest plan'.graphHash := ⟨g'.stream, hp'.graphHash.symm⟩
  rw [Binding.key_eq, Binding.key_eq] at hkey
  obtain ⟨hhash, hbinding⟩ := Binding.stream_inj h.isDigest.zero_not_mem hdigest'.zero_not_mem
    (hfed h.key_mem hkf' hkey)
  have hstream : g.stream = g'.stream := by
    have he := hp.graphHash.symm.trans (hhash.trans hp'.graphHash)
    rw [ResourceGraph.hash_eq, ResourceGraph.hash_eq] at he
    exact hfed h.graph_mem hgf' he
  obtain ⟨document, spec, hd, hb⟩ := h.graph
  obtain ⟨document', spec', hd', hb'⟩ := hg'
  have he := ResourceGraph.eq_of_stream_eq (WorkloadSpec.valid_of_ofBytes hd)
    (WorkloadSpec.valid_of_ofBytes hd') (ResourceGraph.tame_of_walkTarget hb hwalk) hb hb' hstream
  exact ⟨he, hp.ext hp' hu hu' hhash hbinding⟩

/-- A complete outcome is all there again when it is taken from what was kept of it. -/
theorem reused_stored {runs : TargetRuns} (h : (assemble g plan runs).isComplete = true) :
    { reused plan (assemble g plan runs).stored with mode := .full } = assemble g plan runs := by
  obtain ⟨hf, hc⟩ := Outcome.isComplete_iff.1 h
  simp only [reused, Outcome.stored, ← hf, ← hc]
  rfl

section Steps

variable {good : String → StoredRun → Prop} {p : Pipeline} {c' : RunCache} {root' : Tree}

theorem sound_reuse (h : RunCache.Sound good c root) {previous : Option LockEntry}
    (hkey : Digest.IsDigest (plan.binding.key p.digest plan.graphHash)) {o? : Option Outcome}
    (hr : (p.reuse c plan previous).run root = ((o?, c'), root')) :
    root' = root ∧ RunCache.Sound good c' root ∧ ∀ o, o? = some o → plan.unbound = ∅ ∧
      ∃ run, good (plan.binding.key p.digest plan.graphHash) run ∧ o = reused plan run := by
  unfold reuse at hr
  split at hr
  · next e =>
    split at hr
    · cases hr
      exact ⟨rfl, h, fun o ho ↦ by cases ho⟩
    · next hcond =>
      rw [Script.run_bind] at hr
      obtain ⟨⟨⟨run?, c₁⟩, root₁⟩, hget⟩ : ∃ x, (c.get (plan.binding.key p.digest
        plan.graphHash)).run root = x := ⟨_, rfl⟩
      rw [hget] at hr
      obtain ⟨hroot, hsound, hgood⟩ := h.get hkey hget
      cases hr
      refine ⟨hroot, hsound, fun o ho ↦ ?_⟩
      obtain ⟨run, hrun, rfl⟩ := Option.map_eq_some_iff.1 ho
      refine ⟨?_, run, hgood run hrun, rfl⟩
      simpa using fun he : ¬ plan.unbound.isEmpty ↦ hcond (by simp [he])
  · cases hr
    exact ⟨rfl, h, fun o ho ↦ by cases ho⟩

theorem sound_keep (h : RunCache.Sound good c root) {o : Outcome}
    (hkey : Digest.IsDigest (o.binding.key p.digest o.graphHash))
    (hgood : o.isComplete = true → good (o.binding.key p.digest o.graphHash) o.stored) :
    RunCache.Sound good ((p.keep c o).run root).1 ((p.keep c o).run root).2 := by
  unfold keep
  split
  · next hc => exact h.put hkey (hgood hc)
  · exact h

end Steps

/-- A run keeps a cache sound, whatever was asked for and in whatever way the work was done. -/
theorem sound_run (h : RunCache.Sound (Earned fed) c root) (hg : g.FromDocument)
    (hf : Feeds fed (shipped pins) g targets) (previous : Option LockEntry)
    {work : Bound → TargetRuns}
    (hw : ∀ bound : Bound, (bound.map Prod.fst).Nodup →
      Worked ((shipped pins).walk g) bound (work bound)) :
    RunCache.Sound (Earned fed) (((shipped pins).run c g targets previous work).run root).1.2
      (((shipped pins).run c g targets previous work).run root).2 := by
  unfold Pipeline.run
  split
  · exact h
  · next plan hplan =>
    obtain ⟨⟨⟨o?, c₁⟩, root₁⟩, hr⟩ : ∃ x, ((shipped pins).reuse c plan previous).run root = x :=
      ⟨_, rfl⟩
    obtain ⟨rfl, hsound, -⟩ := sound_reuse h (isDigest_key_of_digest rfl _ _) hr
    rw [Script.run_bind, hr]
    cases o? with
    | some o => exact hsound
    | none =>
      dsimp only
      rw [Script.run_bind]
      refine sound_keep hsound (isDigest_key_of_digest rfl _ _) fun hc ↦ ?_
      have hworked := hw plan.binding.toList (nodup_toList plan.binding)
      obtain ⟨-, hruns, -⟩ := hworked.complete hc
      have hfresh : assemble g plan (work plan.binding.toList) = fresh g plan :=
        congrArg (assemble g plan) hruns
      obtain ⟨hgraph, hkey⟩ := hf plan hplan
      refine ⟨g, plan, ⟨hg, ⟨pins, targets, plan_eq_ok hplan⟩, hgraph, hkey, ?_⟩, rfl, ?_⟩
      · rw [← hfresh, hc]
      · rw [← hfresh]

/-- The caches that runs by the shipped rules leave behind, with their disks. -/
inductive Filled (fed : Set ByteArray) : RunCache → Tree → Prop
  | inMemory (root : Tree) : Filled fed .inMemory root
  | inDir (d : Path) {root : Tree}
      (hd : ∀ key bytes, Digest.IsDigest key →
        root.get? (d.names ++ [RunCache.fileName key]) ≠ some (.file bytes)) :
      Filled fed (.inDir d) root
  | synthesize {c : RunCache} {root : Tree} {g : ResourceGraph} (h : Filled fed c root)
      (hg : g.FromDocument) (pins : Binding) (targets : List Provider)
      (hf : Feeds fed (shipped pins) g targets) (previous : Option LockEntry)
      (cancelAfter : Option Nat) :
      Filled fed
        (((shipped pins).synthesize c g targets previous cancelAfter).run root).1.2
        (((shipped pins).synthesize c g targets previous cancelAfter).run root).2
  | synthesizeConcurrently {c : RunCache} {root : Tree} {g : ResourceGraph} (h : Filled fed c root)
      (hg : g.FromDocument) (pins : Binding) (targets : List Provider)
      (hf : Feeds fed (shipped pins) g targets) (previous : Option LockEntry)
      (events : List Event) :
      Filled fed
        (((shipped pins).synthesizeConcurrently c g targets previous events).run root).1.2
        (((shipped pins).synthesizeConcurrently c g targets previous events).run root).2
  | restart {c : RunCache} {root : Tree} {d : Path} (h : Filled fed c root) (hd : c.dir = some d) :
      Filled fed (.inDir d) root
  /-- The disk changes, but no file of the cache is changed or added. -/
  | elsewhere {c : RunCache} {root root' : Tree} (h : Filled fed c root)
      (hroot : ∀ d, c.dir = some d → ∀ key bytes, Digest.IsDigest key →
        root'.get? (d.names ++ [RunCache.fileName key]) = some (.file bytes) →
        root.get? (d.names ++ [RunCache.fileName key]) = some (.file bytes)) :
      Filled fed c root'

theorem Filled.sound (h : Filled fed c root) : RunCache.Sound (Earned fed) c root := by
  induction h with
  | inMemory root => exact .inMemory root
  | inDir d hd =>
    exact RunCache.sound_inDir fun key hkey bytes _ hfile _ ↦ absurd hfile (hd key bytes hkey)
  | synthesize h hg pins targets hf previous cancelAfter ih =>
    exact sound_run ih hg hf previous fun bound _ ↦ worked_inTurn _ cancelAfter bound
  | synthesizeConcurrently h hg pins targets hf previous events ih =>
    exact sound_run ih hg hf previous fun bound hd ↦ worked_sideBySide events hd
  | restart _ hd ih => exact ih.restart hd
  | elsewhere _ hroot ih => exact ih.elsewhere hroot

end Pipeline

end Multicloud

import Multicloud.Proofs.Lock.Log
import Multicloud.Proofs.Run.History
import Multicloud.Proofs.Workload.Lone

namespace Multicloud

namespace LockLog

variable {log : LockLog}

theorem run_history (log : LockLog) (root : Tree) : (log.history.run root).2 = root := by
  rw [run_history_eq]

theorem run_previous (log : LockLog) (workload : String) (root : Tree) :
    ((log.previous workload).run root).2 = root := by
  have hlast : ((log.lastFor workload).run root).2 = root := by
    rw [lastFor, Script.run_bind]
    exact log.run_history root
  rw [previous, Script.run_bind]
  cases ((log.lastFor workload).run root).1 <;> exact hlast

end LockLog

namespace Pipeline

variable {fed : Set ByteArray} {g : ResourceGraph} {plan : Plan} {pins : Binding}
  {targets : List Provider} {c : RunCache} {root : Tree}

theorem reused_eq_fresh (hfed : Set.InjOn Digest.blake3 fed) (hg : g.FromDocument)
    (hplan : (shipped pins).plan g targets = .ok plan) (hu : plan.unbound = ∅)
    (hf : Feeds fed (shipped pins) g targets) {run : StoredRun}
    (hrun : Earned fed (plan.binding.key Digest.blake3 plan.graphHash) run) :
    { reused plan run with mode := .full } = fresh g plan := by
  obtain ⟨g₀, plan₀, h₀, hkey, rfl⟩ := hrun
  obtain ⟨hgraph, hmem⟩ := hf plan hplan
  obtain ⟨rfl, rfl⟩ := h₀.eq_of_key_eq hfed hg (plan_eq_ok hplan) hu hgraph hmem hkey.symm
  exact reused_stored h₀.complete

theorem synthesize_none (c : RunCache) (g : ResourceGraph) (pins : Binding)
    (targets : List Provider) (root : Tree) :
    (((shipped pins).synthesize c g targets none none).run root).1.1 =
      ((shipped pins).plan g targets).map (fresh g) := by
  unfold synthesize Pipeline.run
  cases (shipped pins).plan g targets with
  | error e => rfl
  | ok plan =>
    dsimp only [reuse]
    rw [Script.run_bind, Script.run_pure]
    dsimp only
    rw [Script.run_bind]
    rfl

theorem synthesize_eq_fresh (h : RunCache.Sound (Earned fed) c root)
    (hfed : Set.InjOn Digest.blake3 fed) (hg : g.FromDocument)
    (hf : Feeds fed (shipped pins) g targets) (previous : Option LockEntry) :
    (((shipped pins).synthesize c g targets previous none).run root).1.1.map
        (fun o ↦ { o with mode := .full }) =
      ((shipped pins).plan g targets).map (fresh g) := by
  unfold synthesize Pipeline.run
  split
  · next e hplan =>
    rw [hplan]
    rfl
  · next plan hplan =>
    obtain ⟨⟨⟨o?, c₁⟩, root₁⟩, hr⟩ : ∃ x, ((shipped pins).reuse c plan previous).run root = x :=
      ⟨_, rfl⟩
    obtain ⟨-, -, hgood⟩ := sound_reuse h (isDigest_key_of_digest rfl _ _) hr
    rw [Script.run_bind, hr, hplan]
    cases o? with
    | some o =>
      obtain ⟨hu, run, hrun, rfl⟩ := hgood o rfl
      exact congrArg Except.ok (reused_eq_fresh hfed hg hplan hu hf hrun)
    | none =>
      dsimp only
      rw [Script.run_bind]
      rfl

/-- Whatever the log holds, a run with the entry found in it comes to what a run without one comes
to. Only the mode may tell them apart. -/
theorem synthesize_noninterference (hfed : Set.InjOn Digest.blake3 fed) (hc : Filled fed c root)
    (hg : g.FromDocument) (pins : Binding) (targets : List Provider)
    (hf : Feeds fed (shipped pins) g targets) (log : LockLog) (workload : String) (disk : Tree) :
    ∃ previous : Option LockEntry, (log.previous workload).run disk = (previous, disk) ∧
      (((shipped pins).synthesize c g targets previous none).run root).1.1.map
          (fun o ↦ { o with mode := .full }) =
        (((shipped pins).synthesize c g targets none none).run root).1.1 := by
  refine ⟨_, Prod.ext rfl (log.run_previous workload disk), ?_⟩
  rw [synthesize_eq_fresh hc.sound hfed hg hf, synthesize_none]

section Lone

theorem fromDocument_loneGraph : loneGraph.FromDocument :=
  ⟨loneDocument, lone, ofBytes_loneDocument, build_lone⟩

def lonePins : Binding := .of [(Shipped.aws, Shipped.v1)]

def loneFed : Set ByteArray :=
  {loneGraph.stream, lonePins.stream (loneGraph.hash Digest.blake3)}

theorem hash_loneGraph : loneGraph.hash Digest.blake3 =
    "blake3:0f703a8432f1bf3073f77185986df062fbbe34e8236fa768839198170d5bf3f7" := by
  decide +kernel

theorem key_lonePins : lonePins.key Digest.blake3 (loneGraph.hash Digest.blake3) =
    "blake3:d852108ea75d9f2d37dd8668fa13e23efa781ed20f4300f75b6ada307bd4501c" := by
  rw [hash_loneGraph]
  decide +kernel

theorem injOn_loneFed : Set.InjOn Digest.blake3 loneFed := by
  have h : Digest.blake3 loneGraph.stream ≠
      Digest.blake3 (lonePins.stream (loneGraph.hash Digest.blake3)) := by
    rw [← ResourceGraph.hash_eq Digest.blake3, ← Binding.key_eq Digest.blake3, key_lonePins,
      hash_loneGraph]
    decide
  rintro a (rfl | rfl) b (rfl | rfl) he
  · rfl
  · exact absurd he h
  · exact absurd he.symm h
  · rfl

theorem feeds_loneFed : Feeds loneFed (shipped lonePins) loneGraph [Shipped.aws] := by
  intro plan hplan
  have h := plan_eq_ok hplan
  have hbinding : plan.binding = lonePins := by
    rw [h.binding, h.requested]
    decide +kernel
  refine ⟨.inl rfl, .inr ?_⟩
  rw [hbinding, h.graphHash]
  rfl

def garbled : Tree := .dir [("nebulaforge.lock", .file ⟨#[255]⟩)]

theorem synthesize_noninterference_garbled :
    ∃ (c : RunCache) (root : Tree) (previous : Option LockEntry), Filled loneFed c root ∧
      (LockLog.previous ⟨LockLog.standardPath⟩ "default/w").run garbled = (previous, garbled) ∧
      (((shipped lonePins).synthesize c loneGraph [Shipped.aws] previous none).run root).1.1.map
          (fun o ↦ { o with mode := .full }) =
        (((shipped lonePins).synthesize c loneGraph [Shipped.aws] none none).run root).1.1 := by
  have hc := Filled.synthesize (.inMemory (.dir [])) fromDocument_loneGraph lonePins [Shipped.aws]
    feeds_loneFed none none
  obtain ⟨previous, hp, he⟩ := synthesize_noninterference injOn_loneFed hc fromDocument_loneGraph
    lonePins [Shipped.aws] feeds_loneFed ⟨LockLog.standardPath⟩ "default/w" garbled
  exact ⟨_, _, previous, hc, hp, he⟩

end Lone

end Pipeline

end Multicloud

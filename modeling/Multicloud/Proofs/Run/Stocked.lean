import Multicloud.Proofs.Artifact.Files
import Multicloud.Proofs.Run.Partition

namespace Multicloud

/-- A run whose files can stand side by side, as those of a run by loaded rules do. -/
structure StoredRun.Plain (run : StoredRun) : Prop where
  artifacts : ∀ (t : Provider) artifacts, run.artifacts[t]? = some artifacts →
    Artifact.Plain artifacts
  composition : ∀ d, run.composition = some d → d.fileName = Composition.standardName

structure StoredRun.For (targets : List Provider) (run : StoredRun) : Prop extends run.Plain where
  mem_artifacts : ∀ t, t ∈ run.artifacts ↔ t ∈ targets
  composition_isSome : (∃ t ∈ targets, ∃ t' ∈ targets, t ≠ t') → run.composition.isSome = true

namespace Pipeline

variable {p : Pipeline} {g : ResourceGraph} {targets : List Provider} {x : Call}
  {c c' : RunCache} {root root' : Tree} {o : Outcome} {answer : Except SynthesisError Outcome}

theorem walkTarget_of_verdict {t : Provider} {artifacts : List Artifact}
    (h : p.verdict g t = .done artifacts) :
    ∃ v, p.bind t = .ok v ∧ walkTarget g p.registry t v = .ok artifacts := by
  cases hb : p.bind t with
  | error e =>
    rw [verdict_of_bind_eq_error hb] at h
    cases h
  | ok v =>
    rw [verdict_of_bind_eq_ok hb, Pipeline.walk] at h
    refine ⟨v, rfl, ?_⟩
    cases hw : walkTarget g p.registry t v with
    | error f =>
      rw [hw] at h
      cases h
    | ok as =>
      rw [hw] at h
      cases h
      rfl

theorem Judged.plain (h : Judged p g targets o) (hr : p.registry.Loaded) : o.stored.Plain where
  artifacts t artifacts ha := by
    obtain ⟨-, -, hv⟩ := (h.artifacts t artifacts).1 ha
    obtain ⟨v, -, hw⟩ := walkTarget_of_verdict hv
    exact plain_of_walkTarget hr hw
  composition d hd := by
    obtain ⟨-, -, -, rfl⟩ := (h.composition d).1 hd
    rfl

theorem Planned.targets_ne {plan : Plan} (h : Planned p g targets plan) : targets ≠ [] := by
  obtain ⟨t, ht⟩ := List.exists_mem_of_ne_nil _ h.requested_ne
  exact List.ne_nil_of_mem (h.mem_requested.1 ht)

theorem Judged.stored_for (h : Judged p g targets o) (hr : p.registry.Loaded)
    (hne : targets ≠ []) (hc : o.isComplete = true) : o.stored.For targets where
  toPlain := h.plain hr
  mem_artifacts t := ⟨fun ht ↦ (h.mem_artifacts.1 ht).1, h.isComplete.1 hc t⟩
  composition_isSome htwo := by
    obtain ⟨t, rest, rfl⟩ := List.exists_cons_of_ne_nil hne
    refine h.composition_isSome.2 ⟨htwo, fun hempty ↦ ?_, (Outcome.isComplete_iff.1 hc).2⟩
    have hmem := h.isComplete.1 hc t (.head _)
    rw [hempty] at hmem
    exact Std.ExtTreeMap.not_mem_empty hmem

theorem Came.judged (h : Came p x c root (.ok o) c' root') (hmode : o.mode = .full) :
    Judged p x.graph x.targets o := by
  cases h with
  | reused hplan hu he hcovers hget => cases hmode
  | kept hplan hw hcomplete hput => exact hplan.judged hw
  | dropped hplan hcomplete hw => exact hplan.judged hw

/-- What a call by loaded rules answers has plain files if the runs of its cache have, and then so
have those of the cache that it leaves. -/
theorem Came.plain_of_sound (hr : p.registry.Loaded) (hp : p.digest = Digest.blake3)
    (hc : RunCache.Sound (fun _ run ↦ run.Plain) c root) (h : Came p x c root answer c' root') :
    RunCache.Sound (fun _ run ↦ run.Plain) c' root' ∧ ∀ o, answer = .ok o → o.stored.Plain := by
  cases h with
  | refused ht => exact ⟨hc, fun o ho ↦ by cases ho⟩
  | reused hplan hu he hcovers hget =>
    obtain ⟨-, hsound, hrun⟩ := hc.get (isDigest_key_of_digest hp _ _) hget
    refine ⟨hsound, fun o ho ↦ ?_⟩
    cases ho
    exact hrun _ rfl
  | @kept plan runs c' root' hplan hw hcomplete hput =>
    have hplain := (hplan.judged hw).plain hr
    have hsound := hc.put (isDigest_key_of_digest hp plan.binding plan.graphHash) hplain
    rw [hput] at hsound
    refine ⟨hsound, fun o ho ↦ ?_⟩
    cases ho
    exact hplain
  | dropped hplan hcomplete hw =>
    refine ⟨hc, fun o ho ↦ ?_⟩
    cases ho
    exact (hplan.judged hw).plain hr

/-- The caches that calls by loaded rules leave behind, with their disks. -/
inductive Stocked : RunCache → Tree → Prop
  | inMemory (root : Tree) : Stocked .inMemory root
  | inDir (d : Path) {root : Tree}
      (hd : ∀ key bytes, Digest.IsDigest key →
        root.get? (d.names ++ [RunCache.fileName key]) ≠ some (.file bytes)) :
      Stocked (.inDir d) root
  | call {c c' : RunCache} {root root' : Tree} {p : Pipeline} {x : Call}
      {answer : Except SynthesisError Outcome} (h : Stocked c root) (hr : p.registry.Loaded)
      (hp : p.digest = Digest.blake3) (hx : (p.call c x).run root = ((answer, c'), root')) :
      Stocked c' root'
  | restart {c : RunCache} {root : Tree} {d : Path} (h : Stocked c root) (hd : c.dir = some d) :
      Stocked (.inDir d) root
  | elsewhere {c : RunCache} {root root' : Tree} (h : Stocked c root)
      (hroot : ∀ d, c.dir = some d → ∀ key bytes, Digest.IsDigest key →
        root'.get? (d.names ++ [RunCache.fileName key]) = some (.file bytes) →
        root.get? (d.names ++ [RunCache.fileName key]) = some (.file bytes)) :
      Stocked c root'

theorem Stocked.sound (h : Stocked c root) : RunCache.Sound (fun _ run ↦ run.Plain) c root := by
  induction h with
  | inMemory root => exact .inMemory root
  | inDir d hd =>
    exact RunCache.sound_inDir fun key hkey bytes _ hfile _ ↦ absurd hfile (hd key bytes hkey)
  | call _ hr hp hx ih => exact ((came_of_run hx).plain_of_sound hr hp ih).1
  | restart _ hd ih => exact ih.restart hd
  | elsewhere _ hroot ih => exact ih.elsewhere hroot

/-- An outcome of a call about a graph, by loaded rules. If it was taken from a cache, such calls
have filled that. -/
def Synthesized (g : ResourceGraph) (o : Outcome) : Prop :=
  ∃ (p : Pipeline) (x : Call) (c c' : RunCache) (root root' : Tree),
    p.registry.Loaded ∧ p.digest = Digest.blake3 ∧ x.graph = g ∧
      (o.mode = .full ∨ Stocked c root) ∧ (p.call c x).run root = ((.ok o, c'), root')

theorem Synthesized.plain (h : Synthesized g o) : o.stored.Plain := by
  obtain ⟨p, x, c, c', root, root', hr, hp, -, hmode | hstocked, hx⟩ := h
  · exact ((came_of_run hx).judged hmode).plain hr
  · exact ((came_of_run hx).plain_of_sound hr hp hstocked.sound).2 o rfl

theorem Judged.not_mem_artifacts (h : Judged p g targets o) {t : Provider}
    (ht : t ∈ o.failures ∨ t ∈ o.cancelled) : t ∉ o.artifacts :=
  fun ha ↦ ht.elim (h.not_failed ha) (h.mem_artifacts.1 ha).2.1

theorem Synthesized.not_mem_artifacts (h : Synthesized g o) {t : Provider}
    (ht : t ∈ o.failures ∨ t ∈ o.cancelled) : t ∉ o.artifacts := by
  obtain ⟨p, x, c, c', root, root', -, -, rfl, -, hx⟩ := h
  have hcame := came_of_run hx
  cases hmode : o.mode with
  | full => exact (hcame.judged hmode).not_mem_artifacts ht
  | incremental =>
    cases hcame with
    | reused => exact absurd ht (by simp [reused])
    | kept => cases hmode
    | dropped => cases hmode

end Pipeline

end Multicloud

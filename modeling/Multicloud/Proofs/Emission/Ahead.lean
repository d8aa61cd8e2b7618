import Multicloud.Proofs.Disk.Alike
import Multicloud.Proofs.Emission.Outcome

namespace Multicloud

namespace Emission

open Script

variable {out : Path} {workload : String} {target : Provider} {targets : List Provider}
  {artifacts : List Artifact} {c : Composition} {o : Outcome} {firm : List (List String)}

/-- The way to the output directory goes straight down, and no name there is too long. -/
structure Straight (out : Path) (workload : String) (targets : List Provider) : Prop where
  back : ".." ∉ out.steps
  short : ∀ place ∈ allPlaces out workload targets, ∀ name ∈ place,
    name.utf8ByteSize ≤ Tree.maxName

theorem Straight.descends (h : Straight out workload targets) {s : String}
    (hs : Path.IsName s.toList) (hmem : out.names ++ [s] ∈ allPlaces out workload targets) :
    (out.join s).Descends := by
  have hback : ".." ∉ (out.join s).steps := by
    rw [out.steps_join hs, List.mem_append, List.mem_singleton, not_or]
    exact ⟨h.back, fun he ↦ hs.ne_back he.symm⟩
  refine ⟨hback, ?_⟩
  rw [← Path.names_eq_steps hback, out.names_join hs]
  exact h.short _ hmem

theorem pacedOr_removeIfPresent {way places' : List (List String)} {dir : Path}
    (hdir : dir.Within way places') (hd : dir.Descends) :
    PacedOr way places' firm (removeIfPresent dir) := by
  have hseek : Paced way places' firm (removeTree dir) :=
    .seek rfl rfl (List.forall_mem_singleton.2 hdir) (List.forall_mem_singleton.2 hd) fun _ ↦ .done _
  refine (pacedOr_lift hseek).bind fun answer firm' _ ↦ ?_
  split <;> exact .done _

section Paced

variable (h : Straight out workload targets)

include h

/-- A tree is written in the same manner on a disk that is ahead: before directories are made, only
what is in the way is removed. -/
theorem pacedOr_writeTree (hw : '/' ∉ workload.toList) (ht : target ∈ targets)
    (hfiles : ∀ a ∈ artifacts, Path.IsName a.fileName.toList) :
    PacedOr out.trail (allPlaces out workload targets) firm
      (writeTree out workload target artifacts) := by
  have hplaces : places out workload target ⊆ allPlaces out workload targets :=
    fun _ hmem ↦ .tail _ (List.mem_flatMap.2 ⟨target, ht, hmem⟩)
  have hslash := slash_not_mem_treeName hw target
  have hstaging := (within_staging out target hw).mono (List.Subset.refl _) hplaces
  have hretired := (within_retired out target hw).mono (List.Subset.refl _) hplaces
  have hsubset : out.trail ⊆ (staging out (Artifact.treeName target workload)).trail := by
    rw [staging, out.trail_join (isName_stagingName hslash)]
    exact List.subset_append_left _ _
  have hrest : OnlyOr (TreeOp out (Artifact.treeName target workload) artifacts)
      (writeFiles (staging out (Artifact.treeName target workload)) artifacts >>= fun _ ↦
        vacate out (Artifact.treeName target workload) >>= fun _ ↦
          finish out (Artifact.treeName target workload)) :=
    (onlyOr_writeFiles fun _ ha ↦ .write ha).bind fun _ ↦
      (onlyOr_vacate .find .retire).bind fun _ ↦ onlyOr_treeOp_finish _ _ _
  have hwithin : OnlyOr (DiskOp.Within out.trail (allPlaces out workload targets)) _ :=
    Only.imp hrest fun op hop ↦ (hop.within out target hw hfiles).mono (List.Subset.refl _) hplaces
  rw [writeTree_eq]
  simp only [prepare, makeReady, bind_assoc]
  refine PacedOr.bind (pacedOr_removeIfPresent hstaging
    (h.descends (isName_stagingName hslash) (hplaces (by simp [places])))) fun _ firm _ ↦ ?_
  refine PacedOr.bind (pacedOr_removeIfPresent hretired
    (h.descends (isName_retiredName hslash) (hplaces (by simp [places])))) fun _ firm _ ↦ ?_
  exact pacedOr_makeDirs (fun m hm ↦ (hstaging.trail m hm).imp_right .inr)
    (hwithin.pacedOr (List.Subset.trans hsubset (List.subset_append_left _ _)))

theorem pacedOr_writeTrees (hw : '/' ∉ workload.toList) {l : List (Provider × List Artifact)}
    (hl : ∀ e ∈ l, Artifact.Plain e.2) (hsub : l.map Prod.fst ⊆ targets) :
    PacedOr out.trail (allPlaces out workload targets) firm (writeTrees out workload l) := by
  induction l generalizing firm with
  | nil => exact pacedOr_pure _
  | cons e l ih =>
    obtain ⟨he, hl⟩ := List.forall_mem_cons.1 hl
    rw [List.map_cons, List.cons_subset] at hsub
    exact (pacedOr_writeTree h hw hsub.1 he.isName).bind fun _ _ _ ↦
      (ih hl hsub.2).bind fun _ _ _ ↦ pacedOr_pure _

omit h in
theorem pacedOr_writeComposition (hc : c.fileName = Composition.standardName) (out : Path) :
    PacedOr out.trail [compositionPlace out] firm (writeComposition out c) := by
  have hsubset : out.trail ⊆ (out.join compositionDir).trail := by
    rw [trail_compositionDir]
    exact List.subset_append_left _ _
  rw [writeComposition_eq out hc]
  exact pacedOr_makeDirs (fun m hm ↦ ((within_compositionDir out).trail m hm).imp_right .inr)
    ((onlyOr_settle (within_draft out) (within_composition out) c.body).pacedOr
      (List.Subset.trans hsubset (List.subset_append_left _ _)))

theorem pacedOr_removeComposition :
    PacedOr out.trail [compositionPlace out] firm (removeComposition out) := by
  have hdir : (out.join compositionDir).Descends := h.descends isName_compositionDir (.head _)
  have hseek : Paced out.trail [compositionPlace out] firm
      (removeFile ((out.join compositionDir).join Composition.standardName)) :=
    .seek rfl rfl (List.forall_mem_singleton.2 (within_composition out))
      (List.forall_mem_singleton.2 (hdir.join isName_standardName (by decide))) fun _ ↦ .done _
  refine (pacedOr_lift hseek).bind fun answer firm' _ ↦ ?_
  split <;> exact .done _

theorem pacedOr_writeOutcome (hw : '/' ∉ workload.toList) (ho : o.stored.Plain)
    (ht : ∀ t ∈ o.artifacts, t ∈ targets) :
    PacedOr out.trail (allPlaces out workload targets) firm (writeOutcome out workload o) := by
  have hkeys : o.artifacts.toList.map Prod.fst ⊆ targets := by
    rw [Std.ExtTreeMap.map_fst_toList_eq_keys]
    exact fun t hmem ↦ ht t (Std.ExtTreeMap.mem_keys.1 hmem)
  have hplace {α : Type} {firm : List (List String)} {s : OrFail EmitError α}
      (hs : PacedOr out.trail [compositionPlace out] firm s) :
      PacedOr out.trail (allPlaces out workload targets) firm s :=
    Paced.mono hs (List.Subset.refl _) (by simp [allPlaces])
  refine PacedOr.bind (pacedOr_writeTrees h hw (plain_of_mem_toList ho) hkeys) fun trees _ _ ↦ ?_
  split
  · next c hc =>
    exact (hplace (pacedOr_writeComposition (ho.composition c hc) out)).bind
      fun _ _ _ ↦ pacedOr_pure _
  · split
    · exact (hplace (pacedOr_removeComposition h)).bind fun _ _ _ ↦ pacedOr_pure _
    · exact pacedOr_pure _

end Paced

end Emission

end Multicloud

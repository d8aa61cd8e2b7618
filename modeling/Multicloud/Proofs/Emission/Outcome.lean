import Multicloud.Proofs.Emission.Trees
import Multicloud.Proofs.Run.Stocked

namespace Multicloud

namespace Emission

open Script

variable {out : Path} {workload workload' : String} {target target' : Provider}
  {artifacts : List Artifact} {root root' : Tree} {o : Outcome}

theorem apart_places (h : ¬ (target' = target ∧ workload' = workload)) :
    ∀ place ∈ places out workload' target', Tree.Apart place (treePlace out workload target) := by
  have hname : Artifact.treeName target' workload' ≠ Artifact.treeName target workload :=
    fun he ↦ h (Artifact.treeName_inj.1 he)
  have hdotted (s : String) : "." ++ s ≠ Artifact.treeName target workload :=
    (Artifact.treeName_ne_dotted target workload s).symm
  simp only [places, List.forall_mem_cons]
  refine ⟨Tree.apart_concat hname, Tree.apart_concat ?_, Tree.apart_concat ?_, by simp⟩
  · rw [String.append_assoc]
    exact hdotted _
  · rw [String.append_assoc]
    exact hdotted _

def compositionPlace (out : Path) : List String := out.names ++ [compositionDir]

theorem apart_compositionPlace :
    Tree.Apart (compositionPlace out) (treePlace out workload target) := by
  refine Tree.apart_concat fun he ↦ ?_
  have hmem : '_' ∈ compositionDir.toList := by
    rw [he, Artifact.toList_treeName]
    simp
  exact absurd hmem (by decide)

def compositionFile (out : Path) : List String :=
  compositionPlace out ++ [Composition.standardName]

section Composition

variable {c : Composition}

theorem isName_compositionDir : Path.IsName compositionDir.toList :=
  ⟨by decide, by decide, by decide⟩

theorem isName_standardName : Path.IsName Composition.standardName.toList :=
  ⟨by decide, by decide, by decide⟩

theorem names_composition (out : Path) :
    ((out.join compositionDir).join Composition.standardName).names =
      compositionPlace out ++ [Composition.standardName] := by
  rw [Path.names_join _ isName_standardName, out.names_join isName_compositionDir, compositionPlace]

def draftName : String := "composition.yaml.tmp"

theorem toList_draftName :
    (Path.splitName Composition.standardName.toList).1 ++ '.' :: "yaml.tmp".toList =
      draftName.toList := by decide

theorem isName_draftName : Path.IsName draftName.toList := ⟨by decide, by decide, by decide⟩

theorem draft_eq (out : Path) :
    ((out.join compositionDir).join Composition.standardName).withExtension "yaml.tmp" =
      (out.join compositionDir).join draftName :=
  Path.withExtension_join _ isName_standardName isName_draftName toList_draftName

theorem names_draft (out : Path) :
    (((out.join compositionDir).join Composition.standardName).withExtension "yaml.tmp").names =
      compositionPlace out ++ [draftName] := by
  rw [draft_eq, Path.names_join _ isName_draftName, out.names_join isName_compositionDir,
    compositionPlace]

theorem trail_compositionDir (out : Path) :
    (out.join compositionDir).trail = out.trail ++ [compositionPlace out] :=
  out.trail_join isName_compositionDir

theorem within_compositionDir (out : Path) :
    (out.join compositionDir).Within out.trail [compositionPlace out] :=
  Path.within_join isName_compositionDir (List.Subset.refl _) (List.mem_singleton.2 rfl)

/-- The last steps of writing a composition: a draft comes to its place. -/
def settle (draft target : Path) (body : String) : OrFail EmitError Path := do
  Emission.at' draft (write draft body)
  Emission.at' target (rename draft target)
  return target

theorem writeComposition_eq (out : Path) (hc : c.fileName = Composition.standardName) :
    writeComposition out c = (do
      Emission.at' (out.join compositionDir) (makeDirs (out.join compositionDir))
      settle (((out.join compositionDir).join Composition.standardName).withExtension "yaml.tmp")
        ((out.join compositionDir).join Composition.standardName) c.body) := by
  unfold writeComposition
  rw [hc]
  rfl

section Footprint

variable {way places' : List (List String)}

theorem onlyOr_settle {draft target : Path} (hdraft : draft.Within way places')
    (htarget : target.Within way places') (body : String) :
    OnlyOr (DiskOp.Within way places') (settle draft target body) := by
  refine OnlyOr.bind (onlyOr_orElse (only_step (DiskOp.within_of_path rfl rfl hdraft))) fun _ ↦ ?_
  exact OnlyOr.bind (onlyOr_orElse (only_step (DiskOp.within_rename hdraft htarget)))
    fun _ ↦ onlyOr_pure _

theorem within_draft (out : Path) :
    (((out.join compositionDir).join Composition.standardName).withExtension "yaml.tmp").Within
      out.trail [compositionPlace out] := by
  rw [draft_eq]
  exact (within_compositionDir out).join isName_draftName

theorem within_composition (out : Path) : ((out.join compositionDir).join
    Composition.standardName).Within out.trail [compositionPlace out] :=
  (within_compositionDir out).join isName_standardName

variable (hc : c.fileName = Composition.standardName)

include hc

theorem onlyOr_writeComposition_of
    (hdir : ∀ m ∈ (out.join compositionDir).trail, m ∈ way ∨ ∃ place ∈ places', place <+: m)
    (hdraft : (((out.join compositionDir).join Composition.standardName).withExtension
      "yaml.tmp").Within way places')
    (hfile : ((out.join compositionDir).join Composition.standardName).Within way places') :
    OnlyOr (DiskOp.Within way places') (writeComposition out c) := by
  rw [writeComposition_eq out hc]
  exact OnlyOr.bind (onlyOr_orElse (only_step (.makeDirs hdir))) fun _ ↦
    onlyOr_settle hdraft hfile c.body

theorem onlyOr_writeComposition (out : Path) :
    OnlyOr (DiskOp.Within out.trail [compositionPlace out]) (writeComposition out c) :=
  onlyOr_writeComposition_of hc (within_compositionDir out).trail (within_draft out)
    (within_composition out)

theorem onlyOr_writeComposition_files (out : Path) :
    OnlyOr (DiskOp.Within (out.trail ++ [compositionPlace out])
      [compositionFile out, compositionPlace out ++ [draftName]]) (writeComposition out c) := by
  have htrail := trail_compositionDir out
  have hnames : (out.join compositionDir).names = compositionPlace out :=
    out.names_join isName_compositionDir
  refine onlyOr_writeComposition_of hc (fun m hm ↦ .inl (htrail ▸ hm)) ?_ ?_
  · rw [draft_eq]
    refine Path.within_join isName_draftName (htrail ▸ List.Subset.refl _) ?_
    rw [hnames]
    exact .tail _ (.head _)
  · refine Path.within_join isName_standardName (htrail ▸ List.Subset.refl _) ?_
    rw [hnames]
    exact .head _

end Footprint

theorem onlyOr_removeComposition (out : Path) :
    OnlyOr (DiskOp.Within out.trail [compositionPlace out]) (removeComposition out) := by
  refine (onlyOr_lift (only_step (DiskOp.within_of_path rfl rfl
    (within_composition out)))).bind fun answer ↦ ?_
  split
  · exact onlyOr_pure _
  · exact onlyOr_pure _
  · exact onlyOr_throw _

theorem file_of_settle {draft target : Path} {body : String} {base : List String} {x y : String}
    (hsource : draft.names = base ++ [x]) (htarget : target.names = base ++ [y]) (hne : x ≠ y)
    {p : Path} (hl : Leads (settle draft target body).run root (.ok p) root') :
    root'.get? target.names = some (.file body.toUTF8) ∧ root'.Dirs target.trail.dropLast := by
  obtain ⟨_, root₁, hwrite, hrest⟩ := leads_bindOr_ok.1 hl
  obtain ⟨_, root₂, hrename, hrest⟩ := leads_bindOr_ok.1 hrest
  obtain ⟨-, rfl⟩ := leads_pureOr.1 hrest
  have hmove := move_of_leads_rename (leads_orElse_ok.1 hrename)
  obtain ⟨hplace, rfl⟩ := DiskOp.change_eq_ok (change_of_leads_write (leads_orElse_ok.1 hwrite))
  have hdraft := Tree.get?_set_of_place hplace (.file body.toUTF8)
  obtain ⟨u, hu, hu'⟩ := (DiskOp.moves_of_move hsource htarget hne hmove).moved
  rw [← hsource, hdraft] at hu
  cases hu
  rw [htarget]
  refine ⟨hu', fun place hmem ↦ ?_⟩
  rcases DiskOp.move_eq_ok hmove with ⟨hsame, -⟩ | ⟨hplaced, -⟩
  · rw [hsource, htarget] at hsame
    exact absurd (by simpa using hsame) hne
  · have hkeeps := @DiskOp.keeps_move _ _ [] _ _ _ _ _ _ hsource htarget hne hdraft hmove
      (by simp [hsource]) (by simp [htarget])
    obtain ⟨entries, hdir⟩ := (Tree.place_eq_ok_iff.1 hplaced).2.1 place hmem
    exact hkeeps.dirs place entries hdir

theorem file_of_writeComposition (hc : c.fileName = Composition.standardName) {p : Path}
    (hl : Leads (writeComposition out c).run root (.ok p) root') :
    root'.get? (compositionPlace out ++ [Composition.standardName]) =
        some (.file c.body.toUTF8) ∧
      root'.Dirs out.trail := by
  rw [writeComposition_eq out hc] at hl
  obtain ⟨_, root₁, -, hsettle⟩ := leads_bindOr_ok.1 hl
  obtain ⟨hfile, hdirs⟩ := file_of_settle (names_draft out) (names_composition out) (by decide)
    hsettle
  rw [Tree.dirs_trail_join isName_standardName, trail_compositionDir] at hdirs
  rw [names_composition] at hfile
  exact ⟨hfile, fun place hmem ↦ hdirs place (List.mem_append_left _ hmem)⟩

end Composition

section Trees

variable {l : List (Provider × List Artifact)}

def allPlaces (out : Path) (workload : String) (targets : List Provider) : List (List String) :=
  compositionPlace out :: targets.flatMap (places out workload)

theorem apart_allPlaces {targets : List Provider}
    (h : ¬ (workload' = workload ∧ target ∈ targets)) :
    ∀ place ∈ allPlaces out workload' targets,
      Tree.Apart place (treePlace out workload target) := by
  intro place hmem
  rcases List.mem_cons.1 hmem with rfl | hmem
  · exact apart_compositionPlace
  · obtain ⟨t, ht, hmem⟩ := List.mem_flatMap.1 hmem
    refine apart_places (fun ⟨he, hw⟩ ↦ h ⟨hw, ?_⟩) place hmem
    exact he ▸ ht

theorem exists_of_mem_places {place : List String} (h : place ∈ places out workload target) :
    ∃ x, place = out.names ++ [x] := by
  simp only [places, List.mem_cons, List.not_mem_nil, or_false] at h
  rcases h with rfl | rfl | rfl <;> exact ⟨_, rfl⟩

theorem exists_of_mem_allPlaces {targets : List Provider} {place : List String}
    (h : place ∈ allPlaces out workload targets) : ∃ x, place = out.names ++ [x] := by
  rcases List.mem_cons.1 h with rfl | h
  · exact ⟨_, rfl⟩
  · obtain ⟨t, -, h⟩ := List.mem_flatMap.1 h
    exact exists_of_mem_places h

theorem prefix_of_mem_allPlaces {targets : List Provider} {place : List String}
    (h : place ∈ allPlaces out workload targets) : out.names <+: place := by
  obtain ⟨x, rfl⟩ := exists_of_mem_allPlaces h
  exact List.prefix_append _ _

theorem onlyOr_writeTrees (out : Path) (hw : '/' ∉ workload.toList)
    (hl : ∀ e ∈ l, Artifact.Plain e.2) :
    OnlyOr (DiskOp.Within out.trail ((l.map Prod.fst).flatMap (places out workload)))
      (writeTrees out workload l) := by
  suffices h : ∀ targets : List Provider, l.map Prod.fst ⊆ targets →
      OnlyOr (DiskOp.Within out.trail (targets.flatMap (places out workload)))
        (writeTrees out workload l) from h _ (List.Subset.refl _)
  intro targets hsub
  induction l with
  | nil => exact onlyOr_pure _
  | cons e l ih =>
    obtain ⟨he, hl⟩ := List.forall_mem_cons.1 hl
    rw [List.map_cons, List.cons_subset] at hsub
    have htree := onlyOr_writeTree out e.1 hw he.isName
    refine OnlyOr.bind (Only.imp htree fun op hop ↦ ?_) fun _ ↦
      (ih hl hsub.2).bind fun _ ↦ onlyOr_pure _
    exact hop.mono (List.Subset.refl _) fun _ hmem ↦ List.mem_flatMap.2 ⟨e.1, hsub.1, hmem⟩

theorem written_of_writeTrees (hw : '/' ∉ workload.toList) (hl : ∀ e ∈ l, Artifact.Plain e.2)
    (hd : (l.map Prod.fst).Nodup) {ps : List Path}
    (h : Leads (writeTrees out workload l).run root (.ok ps) root') :
    ∀ e ∈ l, Written out workload e.1 e.2 root' := by
  induction l generalizing root ps with
  | nil => exact nofun
  | cons e l ih =>
    obtain ⟨he, hl⟩ := List.forall_mem_cons.1 hl
    obtain ⟨hfirst, hd⟩ := List.nodup_cons.1 hd
    obtain ⟨_, root₁, htree, hrest⟩ := leads_bindOr_ok.1 h
    obtain ⟨_, root₂, htrees, hdone⟩ := leads_bindOr_ok.1 hrest
    obtain ⟨-, rfl⟩ := leads_pureOr.1 hdone
    obtain ⟨-, hwritten⟩ := written_of_writeTree hw he.isName he.nodup htree
    refine List.forall_mem_cons.2 ⟨hwritten.of_get?_eq ?_, ih hl hd htrees⟩
    refine hwritten.get?_of_reaches (onlyOr_writeTrees out hw hl) (fun place hmem ↦ ?_)
      htrees.reaches
    exact apart_allPlaces (fun h ↦ hfirst h.2) place (.tail _ hmem)

end Trees

theorem plain_of_mem_toList (ho : o.stored.Plain) :
    ∀ e ∈ o.artifacts.toList, Artifact.Plain e.2 := by
  intro e he
  exact ho.artifacts e.1 e.2 (Std.ExtTreeMap.mem_toList_iff_getElem?_eq_some.1 he)

/-- What is done while an outcome is written stays at the places of its trees and of the
composition. -/
theorem onlyOr_writeOutcome (out : Path) (hw : '/' ∉ workload.toList) (ho : o.stored.Plain) :
    OnlyOr (DiskOp.Within out.trail (allPlaces out workload o.artifacts.keys))
      (writeOutcome out workload o) := by
  have htrees := onlyOr_writeTrees out hw (plain_of_mem_toList ho)
  rw [Std.ExtTreeMap.map_fst_toList_eq_keys] at htrees
  have hplace (op : DiskOp) (hop : op.Within out.trail [compositionPlace out]) :
      op.Within out.trail (allPlaces out workload o.artifacts.keys) :=
    hop.mono (List.Subset.refl _) (by simp [allPlaces])
  refine OnlyOr.bind (Only.imp htrees fun op hop ↦ hop.mono (List.Subset.refl _)
    fun _ hmem ↦ .tail _ hmem) fun trees ↦ ?_
  split
  · next c hc =>
    have hname := ho.composition c hc
    exact OnlyOr.bind (Only.imp (onlyOr_writeComposition hname out) hplace) fun _ ↦ onlyOr_pure _
  · split
    · exact OnlyOr.bind (Only.imp (onlyOr_removeComposition out) hplace) fun _ ↦ onlyOr_pure _
    · exact onlyOr_pure _

/-- An outcome that has been written is there with all its trees and its composition. -/
theorem written_of_writeOutcome (hw : '/' ∉ workload.toList) (ho : o.stored.Plain)
    {ps : List Path} (hl : Leads (writeOutcome out workload o).run root (.ok ps) root') :
    (∀ (t : Provider) artifacts, o.artifacts[t]? = some artifacts →
        Written out workload t artifacts root') ∧
      ∀ c, o.composition = some c →
        root'.get? (compositionPlace out ++ [Composition.standardName]) =
            some (.file c.body.toUTF8) ∧
          root'.Dirs out.trail := by
  obtain ⟨trees, root₁, htrees, hrest⟩ := leads_bindOr_ok.1 hl
  have hd : (o.artifacts.toList.map Prod.fst).Nodup := by
    rw [Std.ExtTreeMap.map_fst_toList_eq_keys]
    exact Std.ExtTreeMap.nodup_keys
  have hwritten {s : OrFail EmitError (List Path)}
      (hs : OnlyOr (DiskOp.Within out.trail [compositionPlace out]) s)
      (hl : Leads s.run root₁ (.ok ps) root') : ∀ (t : Provider) artifacts,
        o.artifacts[t]? = some artifacts → Written out workload t artifacts root' := by
    intro t artifacts ha
    have htree := written_of_writeTrees hw (plain_of_mem_toList ho) hd htrees (t, artifacts)
      (Std.ExtTreeMap.mem_toList_iff_getElem?_eq_some.2 ha)
    refine htree.of_get?_eq (htree.get?_of_reaches hs ?_ hl.reaches)
    simpa using apart_compositionPlace
  split at hrest
  · next c hc =>
    have hname := ho.composition c hc
    refine ⟨hwritten ((onlyOr_writeComposition hname out).bind fun _ ↦ onlyOr_pure _) hrest,
      fun c' hc' ↦ ?_⟩
    obtain rfl : c = c' := Option.some.inj (hc.symm.trans hc')
    obtain ⟨_, root₂, hcomposition, hdone⟩ := leads_bindOr_ok.1 hrest
    obtain ⟨-, rfl⟩ := leads_pureOr.1 hdone
    exact file_of_writeComposition hname hcomposition
  · next hnone =>
    refine ⟨?_, fun c hc ↦ by rw [hnone] at hc; cases hc⟩
    refine hwritten ?_ hrest
    split
    · exact (onlyOr_removeComposition out).bind fun _ ↦ onlyOr_pure _
    · exact onlyOr_pure _

theorem Written.textAt (h : Written out workload target artifacts root)
    (hw : '/' ∉ workload.toList) (hdirs : root.Dirs out.trail) {a : Artifact} (ha : a ∈ artifacts)
    (hname : Path.IsName a.fileName.toList) :
    Script.textAt root (out.join (Artifact.treeName target workload ++ "/" ++ a.fileName)) =
      .ok a.body := by
  have hfile := h.file a ha
  rw [← out.join_join (isName_treeName hw) hname]
  have hnames : ((out.join (Artifact.treeName target workload)).join a.fileName).names =
      treePlace out workload target ++ [a.fileName] := by
    rw [Path.names_join _ hname, names_dest hw]
  obtain ⟨entries, hdir⟩ := Tree.get?_dir_of_concat hfile
  have hway : root.Dirs
      ((out.join (Artifact.treeName target workload)).join a.fileName).trail.dropLast := by
    rw [Tree.dirs_trail_join hname, Path.trail_join out (isName_treeName hw)]
    intro place hmem
    rcases List.mem_append.1 hmem with hmem | hmem
    · exact hdirs place hmem
    · rw [List.mem_singleton.1 hmem]
      exact ⟨entries, hdir⟩
  have hread := DiskOp.readFile_eq_ok_iff.2
    ⟨Tree.place_eq_ok_iff.2 ⟨h.fits a ha, hway, rfl⟩, hnames ▸ hfile,
      Path.asksDirectory_join _ hname⟩
  rw [Script.textAt, hread]
  dsimp only
  rw [fromUTF8?_toUTF8]

end Emission

end Multicloud

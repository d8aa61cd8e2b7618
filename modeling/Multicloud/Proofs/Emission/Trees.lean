import Multicloud.Proofs.Disk.Course
import Multicloud.Proofs.Disk.Footprint
import Multicloud.Proofs.Emission.Swap

namespace Multicloud

theorem Provider.not_mem_name {c : Char} (h : Name.isLabelChar c = false) (p : Provider) :
    c ∉ p.name.toList := by
  intro hmem
  rw [p.isLabelChar_of_mem_name c hmem] at h
  cases h

namespace Artifact

variable {t t' : Provider} {w w' : String}

theorem toList_treeName (t : Provider) (w : String) :
    (treeName t w).toList = t.name.toList ++ '_' :: w.toList := by
  simp [treeName]

/-- The name of a tree tells the target and the workload. -/
theorem treeName_inj : treeName t w = treeName t' w' ↔ t = t' ∧ w = w' := by
  refine ⟨fun h ↦ ?_, fun ⟨ht, hw⟩ ↦ by rw [ht, hw]⟩
  have h := congrArg String.toList h
  rw [toList_treeName, toList_treeName] at h
  obtain ⟨ht, hw⟩ :=
    Text.append_cons_inj (t.not_mem_name (by decide)) (t'.not_mem_name (by decide)) h
  refine ⟨?_, String.toList_inj.1 hw⟩
  cases t
  cases t'
  cases String.toList_inj.1 ht
  rfl

theorem treeName_ne_dotted (t : Provider) (w s : String) : treeName t w ≠ "." ++ s := by
  intro h
  have h := congrArg String.toList h
  rw [toList_treeName, String.toList_append] at h
  have hdot : '.' ∉ t.name.toList := t.not_mem_name (by decide)
  cases hname : t.name.toList with
  | nil =>
    rw [hname] at h
    cases h
  | cons c rest =>
    rw [hname] at h hdot
    exact hdot (by rw [(List.cons.inj h).1]; exact .head _)

end Artifact

namespace Emission

open Script

variable {out : Path} {workload : String} {target : Provider} {artifacts before : List Artifact}
  {root root' : Tree}

def treePlace (out : Path) (workload : String) (target : Provider) : List String :=
  out.names ++ [Artifact.treeName target workload]

/-- The place of a tree and the two beside it that are worked at while it is written. -/
def places (out : Path) (workload : String) (target : Provider) : List (List String) :=
  let name := Artifact.treeName target workload
  [treePlace out workload target, out.names ++ ["." ++ name ++ ".staging"],
    out.names ++ ["." ++ name ++ ".old"]]

section Names

variable (hw : '/' ∉ workload.toList)

include hw

theorem slash_not_mem_treeName (target : Provider) :
    '/' ∉ (Artifact.treeName target workload).toList := (isName_treeName hw).slash

theorem names_dest (out : Path) (target : Provider) :
    (out.join (Artifact.treeName target workload)).names = treePlace out workload target :=
  out.names_join (isName_treeName hw)

theorem names_staging (out : Path) (target : Provider) :
    (staging out (Artifact.treeName target workload)).names =
      out.names ++ ["." ++ Artifact.treeName target workload ++ ".staging"] :=
  out.names_join (isName_stagingName (slash_not_mem_treeName hw target))

theorem names_retired (out : Path) (target : Provider) :
    (retired out (Artifact.treeName target workload)).names =
      out.names ++ ["." ++ Artifact.treeName target workload ++ ".old"] :=
  out.names_join (isName_retiredName (slash_not_mem_treeName hw target))

end Names

/-- The last steps of writing a tree: what was made ready comes to its place. -/
def finish (out : Path) (name : String) : OrFail EmitError Path := do
  Emission.at' (out.join name) (rename (staging out name) (out.join name))
  removeIfPresent (retired out name)
  return out.join name

def makeReady (dir : Path) (artifacts : List Artifact) : OrFail EmitError Unit := do
  at' dir (makeDirs dir)
  writeFiles dir artifacts

def vacate (out : Path) (name : String) : OrFail EmitError Unit := do
  if ← isPresent (out.join name) then
    at' (out.join name) (rename (out.join name) (retired out name))

/-- The first steps of writing a tree: it is made ready, and its place is free for it. -/
def prepare (out : Path) (name : String) (artifacts : List Artifact) : OrFail EmitError Unit := do
  removeIfPresent (staging out name)
  removeIfPresent (retired out name)
  makeReady (staging out name) artifacts
  vacate out name

theorem writeTree_eq (out : Path) (workload : String) (target : Provider)
    (artifacts : List Artifact) : writeTree out workload target artifacts =
      prepare out (Artifact.treeName target workload) artifacts >>= fun _ ↦
        finish out (Artifact.treeName target workload) := by
  simp only [writeTree, prepare, makeReady, vacate, finish, bind_assoc]
  refine bind_congr fun _ ↦ bind_congr fun _ ↦ bind_congr fun _ ↦ bind_congr fun _ ↦ ?_
  refine bind_congr fun present ↦ ?_
  cases present <;> simp

section Footprint

variable {way places' : List (List String)} {P : DiskOp → Prop}

theorem onlyOr_removeIfPresent {dir : Path} (h : P (.removeTree dir)) :
    OnlyOr P (removeIfPresent dir) := by
  refine (onlyOr_lift (only_step h)).bind fun answer ↦ ?_
  split
  · exact onlyOr_pure ()
  · exact onlyOr_pure ()
  · exact onlyOr_throw _

theorem onlyOr_writeFiles {dir : Path}
    (hwrite : ∀ a ∈ artifacts, P (.write (dir.join a.fileName) a.body.toUTF8)) :
    OnlyOr P (writeFiles dir artifacts) := by
  induction artifacts with
  | nil => exact onlyOr_pure ()
  | cons a artifacts ih =>
    obtain ⟨ha, hwrite⟩ := List.forall_mem_cons.1 hwrite
    exact (onlyOr_orElse (only_step ha)).bind fun _ ↦ ih hwrite

theorem onlyOr_makeReady {dir : Path} (hmake : P (.makeDirs dir))
    (hwrite : ∀ a ∈ artifacts, P (.write (dir.join a.fileName) a.body.toUTF8)) :
    OnlyOr P (makeReady dir artifacts) :=
  OnlyOr.bind (onlyOr_orElse (only_step hmake)) fun _ ↦ onlyOr_writeFiles hwrite

theorem onlyOr_vacate {out : Path} {name : String} (hfind : P (.find (out.join name)))
    (hretire : P (.rename (out.join name) (retired out name))) : OnlyOr P (vacate out name) := by
  refine OnlyOr.bind (onlyOr_lift (Only.bind (only_step hfind) fun _ ↦ only_pure _))
    fun present ↦ ?_
  split
  · exact onlyOr_orElse (only_step hretire)
  · exact onlyOr_pure ()

inductive TreeOp (out : Path) (name : String) (artifacts : List Artifact) : DiskOp → Prop
  | clearStaging : TreeOp out name artifacts (.removeTree (staging out name))
  | clearRetired : TreeOp out name artifacts (.removeTree (retired out name))
  | make : TreeOp out name artifacts (.makeDirs (staging out name))
  | write {a : Artifact} (ha : a ∈ artifacts) :
    TreeOp out name artifacts (.write ((staging out name).join a.fileName) a.body.toUTF8)
  | find : TreeOp out name artifacts (.find (out.join name))
  | retire : TreeOp out name artifacts (.rename (out.join name) (retired out name))
  | place : TreeOp out name artifacts (.rename (staging out name) (out.join name))

theorem onlyOr_prepare (out : Path) (name : String) (artifacts : List Artifact) :
    OnlyOr (TreeOp out name artifacts) (prepare out name artifacts) :=
  (onlyOr_removeIfPresent .clearStaging).bind fun _ ↦
    (onlyOr_removeIfPresent .clearRetired).bind fun _ ↦
      (onlyOr_makeReady .make fun _ ha ↦ .write ha).bind fun _ ↦ onlyOr_vacate .find .retire

theorem onlyOr_treeOp_finish (out : Path) (name : String) (artifacts : List Artifact) :
    OnlyOr (TreeOp out name artifacts) (finish out name) :=
  OnlyOr.bind (onlyOr_orElse (only_step .place)) fun _ ↦
    (onlyOr_removeIfPresent .clearRetired).bind fun _ ↦ onlyOr_pure _

theorem onlyOr_treeOp_writeTree (out : Path) (workload : String) (target : Provider)
    (artifacts : List Artifact) : OnlyOr (TreeOp out (Artifact.treeName target workload) artifacts)
      (writeTree out workload target artifacts) := by
  rw [writeTree_eq]
  exact (onlyOr_prepare _ _ _).bind fun _ ↦ onlyOr_treeOp_finish _ _ _

section Within

variable (out : Path) (target : Provider) (hw : '/' ∉ workload.toList)

include hw

theorem within_dest : (out.join (Artifact.treeName target workload)).Within out.trail
    (places out workload target) :=
  Path.within_join (isName_treeName hw) (List.Subset.refl _) (by simp [places, treePlace])

theorem within_staging : (staging out (Artifact.treeName target workload)).Within out.trail
    (places out workload target) :=
  Path.within_join (isName_stagingName (slash_not_mem_treeName hw target)) (List.Subset.refl _)
    (by simp [places])

theorem within_retired : (retired out (Artifact.treeName target workload)).Within out.trail
    (places out workload target) :=
  Path.within_join (isName_retiredName (slash_not_mem_treeName hw target)) (List.Subset.refl _)
    (by simp [places])

theorem TreeOp.within {op : DiskOp}
    (h : TreeOp out (Artifact.treeName target workload) artifacts op)
    (hfiles : ∀ a ∈ artifacts, Path.IsName a.fileName.toList) :
    op.Within out.trail (places out workload target) := by
  have hdest := within_dest out target hw
  have hstaging := within_staging out target hw
  have hretired := within_retired out target hw
  cases h with
  | clearStaging => exact DiskOp.within_of_path rfl rfl hstaging
  | clearRetired => exact DiskOp.within_of_path rfl rfl hretired
  | make => exact .makeDirs hstaging.trail
  | write ha => exact DiskOp.within_of_path rfl rfl (hstaging.join (hfiles _ ha))
  | find => exact DiskOp.within_of_path rfl rfl hdest
  | retire => exact DiskOp.within_rename hdest hretired
  | place => exact DiskOp.within_rename hstaging hdest

theorem onlyOr_finish : OnlyOr (DiskOp.Within out.trail (places out workload target))
    (finish out (Artifact.treeName target workload)) :=
  Only.imp (onlyOr_treeOp_finish _ _ []) fun _ h ↦ h.within out target hw nofun

/-- What is done while a tree is written stays at its place and beside it. -/
theorem onlyOr_writeTree (hfiles : ∀ a ∈ artifacts, Path.IsName a.fileName.toList) :
    OnlyOr (DiskOp.Within out.trail (places out workload target))
      (writeTree out workload target artifacts) :=
  Only.imp (onlyOr_treeOp_writeTree _ _ _ _) fun _ h ↦ h.within out target hw hfiles

end Within

end Footprint

structure Staged (dir : Path) (artifacts : List Artifact) (root : Tree) : Prop where
  file : ∀ a ∈ artifacts,
    root.get? (dir.names ++ [a.fileName]) = some (.file a.body.toUTF8)
  fits : ∀ a ∈ artifacts, (dir.join a.fileName).Fits

theorem Staged.edited {dir : Path} {places' : List (List String)} (h : Staged dir artifacts root)
    (he : Tree.Edited places' root root')
    (hplaces : ∀ place ∈ places', Tree.Apart place dir.names) : Staged dir artifacts root' where
  file a ha := by
    rw [he.get?_eq fun place hmem ↦
      Tree.apart_comm.1 ((Tree.apart_comm.1 (hplaces place hmem)).append [a.fileName])]
    exact h.file a ha
  fits := h.fits

theorem staged_of_writeFiles {dir : Path}
    (hfiles : ∀ a ∈ artifacts, Path.IsName a.fileName.toList)
    (hd : ((before ++ artifacts).map Artifact.fileName).Nodup) (h : Staged dir before root)
    (hl : Leads (writeFiles dir artifacts).run root (.ok ()) root') :
    Staged dir (before ++ artifacts) root' := by
  induction artifacts generalizing root before with
  | nil =>
    obtain ⟨-, rfl⟩ := leads_pureOr.1 hl
    rwa [List.append_nil]
  | cons a artifacts ih =>
    obtain ⟨ha, hfiles⟩ := List.forall_mem_cons.1 hfiles
    obtain ⟨_, root₁, hwrite, hl⟩ := leads_bindOr_ok.1 hl
    have hc := change_of_leads_write (leads_orElse_ok.1 hwrite)
    rw [List.append_cons] at hd ⊢
    refine ih hfiles hd ?_ hl
    obtain ⟨hplace, hset⟩ := DiskOp.change_eq_ok hc
    rw [hset]
    have hget := Tree.get?_set_of_place hplace (.file a.body.toUTF8)
    have hfits := (Tree.place_eq_ok_iff.1 hplace).1
    rw [dir.names_join ha] at hget ⊢
    refine ⟨fun b hb ↦ ?_, fun b hb ↦ ?_⟩
    · rcases List.mem_append.1 hb with hb | hb
      · have hne : a.fileName ≠ b.fileName := by
          rw [List.map_append, List.map_append, List.append_assoc, List.nodup_append] at hd
          exact (hd.2.2 _ (List.mem_map_of_mem hb) _ (by simp)).symm
        rw [(Tree.isEdit_set _).get?_of_apart (Tree.apart_concat hne)]
        exact h.file b hb
      · rw [List.mem_singleton.1 hb]
        exact hget
    · rcases List.mem_append.1 hb with hb | hb
      · exact h.fits b hb
      · rw [List.mem_singleton.1 hb]
        exact hfits

/-- A tree at its place: its files are there, and the way to the output directory does not lead
below it. -/
structure Written (out : Path) (workload : String) (target : Provider) (artifacts : List Artifact)
    (root : Tree) : Prop where
  there : root.get? (treePlace out workload target) ≠ none
  clear : ∀ place ∈ out.trail, treePlace out workload target <+: place →
    place = treePlace out workload target
  file : ∀ a ∈ artifacts, root.get? (treePlace out workload target ++ [a.fileName]) =
    some (.file a.body.toUTF8)
  fits : ∀ a ∈ artifacts,
    ((out.join (Artifact.treeName target workload)).join a.fileName).Fits

theorem empty_of_move {source target : Path} (hne : source.names ≠ target.names)
    (h : DiskOp.move root source target = .ok root') {entries : List (String × Tree)}
    (hdir : root.get? target.names = some (.dir entries)) : entries = [] := by
  obtain ⟨⟨names, t⟩, hat, h⟩ := bind_eq_ok.1 h
  obtain ⟨rfl, -⟩ := Tree.at?_eq_ok hat
  obtain ⟨newNames, hplace, h⟩ := bind_eq_ok.1 h
  obtain rfl := Tree.place_eq_ok hplace
  dsimp only at h
  rw [if_neg hne] at h
  split at h
  · cases h
  rw [hdir] at h
  cases t with
  | file bytes => cases h
  | dir entries' =>
    dsimp only at h
    split at h
    · next hempty => simpa using hempty
    · cases h

theorem written_of_place (hw : '/' ∉ workload.toList)
    (hfiles : ∀ a ∈ artifacts, Path.IsName a.fileName.toList)
    (hs : Staged (staging out (Artifact.treeName target workload)) artifacts root)
    (hm : DiskOp.move root (staging out (Artifact.treeName target workload))
      (out.join (Artifact.treeName target workload)) = .ok root') :
    Written out workload target artifacts root' := by
  have hnames := names_dest hw out target
  have hsource := names_staging hw out target
  have hslash := slash_not_mem_treeName hw target
  have hne : (staging out (Artifact.treeName target workload)).names ≠
      (out.join (Artifact.treeName target workload)).names := by
    rw [hnames, hsource]
    intro he
    exact name_ne_stagingName _ (by simpa [treePlace] using he.symm)
  obtain ⟨t, ht, hset⟩ :=
    (DiskOp.moves_of_move hsource hnames (name_ne_stagingName _).symm hm).moved
  obtain ⟨hsame, -⟩ | ⟨hplace, -⟩ := DiskOp.move_eq_ok hm
  · exact absurd hsame hne
  obtain ⟨hfits, hdirs, -⟩ := Tree.place_eq_ok_iff.1 hplace
  have htrail := (Tree.dirs_trail_join (isName_treeName hw)).1 hdirs
  have hset : root'.get? (treePlace out workload target) = some t := hset
  refine ⟨by simp [hset], fun place hmem hp ↦ ?_, fun a ha ↦ ?_, fun a ha ↦ ?_⟩
  · by_contra hbelow
    obtain ⟨entries, hdir⟩ := htrail place hmem
    obtain ⟨entries', hdir'⟩ := Tree.get?_dir_of_prefix hp (fun he ↦ hbelow he.symm) hdir
    obtain rfl := empty_of_move hne hm (hnames ▸ hdir')
    rw [Tree.get?_below_empty hdir' hp hbelow] at hdir
    cases hdir
  · rw [Tree.get?_append, hset, Option.bind_some]
    have hfile := hs.file a ha
    rwa [hsource, Tree.get?_append, ht, Option.bind_some] at hfile
  · refine (hs.fits a ha).shorten hfits (isName_treeName hw) (isName_stagingName hslash)
      (hfiles a ha) ?_
    simp only [String.utf8ByteSize_append]
    omega

theorem Written.of_get?_eq (h : Written out workload target artifacts root)
    (hget : root'.get? (treePlace out workload target) =
      root.get? (treePlace out workload target)) :
    Written out workload target artifacts root' where
  there := hget ▸ h.there
  clear := h.clear
  file a ha := by
    rw [Tree.get?_append, hget, ← Tree.get?_append]
    exact h.file a ha
  fits := h.fits

theorem Written.get?_of_reaches {α : Type} {s s' : Script α} {places' : List (List String)}
    (h : Written out workload target artifacts root)
    (hs : Only (DiskOp.Within out.trail places') s)
    (hplaces : ∀ place ∈ places', Tree.Apart place (treePlace out workload target))
    (hr : Reaches s root s' root') : root'.get? (treePlace out workload target) =
      root.get? (treePlace out workload target) :=
  hs.get?_eq hplaces (fun place hmem hp ↦ ⟨h.clear place hmem hp, h.there⟩) hr

theorem written_of_finish (hw : '/' ∉ workload.toList)
    (hfiles : ∀ a ∈ artifacts, Path.IsName a.fileName.toList)
    (hs : Staged (staging out (Artifact.treeName target workload)) artifacts root) {p : Path}
    (hl : Leads (finish out (Artifact.treeName target workload)).run root (.ok p) root') :
    p = out.join (Artifact.treeName target workload) ∧
      Written out workload target artifacts root' := by
  obtain ⟨_, root₁, hrename, hrest⟩ := leads_bindOr_ok.1 hl
  obtain ⟨_, root₂, hremove, hdone⟩ := leads_bindOr_ok.1 hrest
  obtain ⟨hp, rfl⟩ := leads_pureOr.1 hdone
  have hwritten := written_of_place hw hfiles hs
    (move_of_leads_rename (leads_orElse_ok.1 hrename))
  refine ⟨Except.ok.inj hp, hwritten.of_get?_eq ?_⟩
  refine hwritten.get?_of_reaches (onlyOr_removeIfPresent (P := DiskOp.Within out.trail
    [out.names ++ ["." ++ Artifact.treeName target workload ++ ".old"]]) ?_) ?_ hremove.reaches
  · exact DiskOp.within_of_path rfl rfl
      (Path.within_join (isName_retiredName (slash_not_mem_treeName hw target))
        (List.Subset.refl _) (List.mem_singleton.2 rfl))
  · rintro place hmem
    rw [List.mem_singleton.1 hmem]
    exact Tree.apart_concat (name_ne_retiredName _).symm

/-- A tree that has been written is at its place, whatever failed on the way. -/
theorem written_of_writeTree (hw : '/' ∉ workload.toList)
    (hfiles : ∀ a ∈ artifacts, Path.IsName a.fileName.toList)
    (hd : (artifacts.map Artifact.fileName).Nodup) {p : Path}
    (hl : Leads (writeTree out workload target artifacts).run root (.ok p) root') :
    p = out.join (Artifact.treeName target workload) ∧
      Written out workload target artifacts root' := by
  unfold writeTree at hl
  obtain ⟨_, root₁, -, hrest⟩ := leads_bindOr_ok.1 hl
  obtain ⟨_, root₂, -, hrest⟩ := leads_bindOr_ok.1 hrest
  obtain ⟨_, root₃, -, hrest⟩ := leads_bindOr_ok.1 hrest
  obtain ⟨_, root₄, hwrites, hrest⟩ := leads_bindOr_ok.1 hrest
  obtain ⟨present, root₅, hpresent, hrest⟩ := leads_bindOr_ok.1 hrest
  have hstaged : Staged (staging out (Artifact.treeName target workload)) artifacts root₅ := by
    rw [root_eq_of_isPresent hpresent]
    exact @staged_of_writeFiles _ [] _ _ _ hfiles hd ⟨by simp, by simp⟩ hwrites
  dsimp only at hrest
  split at hrest
  · obtain ⟨_, root₆, hretire, hrest⟩ := leads_bindOr_ok.1 hrest
    refine written_of_finish hw hfiles (hstaged.edited (DiskOp.edited_move
      (move_of_leads_rename (leads_orElse_ok.1 hretire))) ?_) hrest
    rw [names_dest hw, names_retired hw, names_staging hw]
    simp only [List.forall_mem_cons]
    exact ⟨Tree.apart_concat (name_ne_stagingName _),
      Tree.apart_concat (retiredName_ne_stagingName _), by simp⟩
  · exact written_of_finish hw hfiles hstaged hrest

end Emission

end Multicloud

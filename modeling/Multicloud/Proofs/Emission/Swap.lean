import Mathlib.Data.List.Induction
import Multicloud.Emission
import Multicloud.Proofs.Disk.Yields
import Multicloud.Proofs.Run.Binding
import Multicloud.Rules.Shipped

namespace Multicloud

namespace Emission

open Script

/-- A file for each name, with the body that comes last. -/
def entriesOf (artifacts : List Artifact) : List (String × Tree) :=
  artifacts.foldl (fun entries a ↦ Tree.put a.fileName (.file a.body.toUTF8) entries) []

theorem entriesOf_concat (artifacts : List Artifact) (a : Artifact) :
    entriesOf (artifacts ++ [a]) =
      Tree.put a.fileName (.file a.body.toUTF8) (entriesOf artifacts) := by
  rw [entriesOf, List.foldl_append]
  rfl

theorem find_entriesOf {artifacts : List Artifact} (hd : (artifacts.map Artifact.fileName).Nodup)
    {name : String} {t : Tree} : Tree.find name (entriesOf artifacts) = some t ↔
      ∃ a ∈ artifacts, a.fileName = name ∧ t = .file a.body.toUTF8 := by
  induction artifacts using List.reverseRecOn with
  | nil => simp [entriesOf, Tree.find]
  | append_singleton artifacts a ih =>
    rw [List.map_append, List.map_singleton, List.nodup_append] at hd
    obtain ⟨hd, -, hne⟩ := hd
    rw [entriesOf_concat, Tree.find_put]
    split
    · next he =>
      subst he
      have hother : ∀ a' ∈ artifacts, a'.fileName ≠ a.fileName := fun a' ha' ↦
        hne a'.fileName (List.mem_map_of_mem ha') a.fileName (List.mem_singleton.2 rfl)
      constructor
      · intro h
        exact ⟨a, by simp, rfl, (Option.some.inj h).symm⟩
      · rintro ⟨a', hmem, hname, rfl⟩
        rcases List.mem_append.1 hmem with hmem | hmem
        · exact absurd hname (hother a' hmem)
        · rw [List.mem_singleton.1 hmem]
    · next hname =>
      rw [ih hd]
      simp [hname]

theorem isName_treeName {target : Provider} {workload : String} (hw : '/' ∉ workload.toList) :
    Path.IsName (Artifact.treeName target workload).toList := by
  have hp : '/' ∉ target.name.toList := target.clean_name '/' (by decide)
  apply Path.isName_of_mem (c := '_')
  · simp [Artifact.treeName, hp, hw]
  · simp [Artifact.treeName]
  · decide

section Names

variable {name : String}

theorem isName_retiredName (h : '/' ∉ name.toList) :
    Path.IsName ("." ++ name ++ ".old").toList := by
  apply Path.isName_of_mem (c := 'o')
  · simp [h]
  · simp
  · decide

theorem isName_stagingName (h : '/' ∉ name.toList) :
    Path.IsName ("." ++ name ++ ".staging").toList := by
  apply Path.isName_of_mem (c := 's')
  · simp [h]
  · simp
  · decide

theorem name_ne_retiredName (name : String) : name ≠ "." ++ name ++ ".old" := by
  intro h
  have hlength := congrArg (fun s ↦ s.toList.length) h
  simp at hlength
  omega

theorem name_ne_stagingName (name : String) : name ≠ "." ++ name ++ ".staging" := by
  intro h
  have hlength := congrArg (fun s ↦ s.toList.length) h
  simp at hlength
  omega

theorem retiredName_ne_stagingName (name : String) :
    "." ++ name ++ ".old" ≠ "." ++ name ++ ".staging" := by
  intro h
  have hlength := congrArg (fun s ↦ s.toList.length) h
  simp at hlength

end Names

/-- A place below a directory, what is there at first and what is to be there. -/
structure Swap where
  out : Path
  out_back : ".." ∉ out.steps
  name : String
  isName : Path.IsName name.toList
  old : Option Tree
  new : Tree

namespace Swap

variable {w : Swap} {root root' : Tree}

def dest (w : Swap) : Path := w.out.join w.name

def retired (w : Swap) : Path := Emission.retired w.out w.name

def staging (w : Swap) : Path := Emission.staging w.out w.name

def retiredName (w : Swap) : String := "." ++ w.name ++ ".old"

def stagingName (w : Swap) : String := "." ++ w.name ++ ".staging"

theorem isName_retired (w : Swap) : Path.IsName w.retiredName.toList :=
  isName_retiredName w.isName.slash

theorem isName_staging (w : Swap) : Path.IsName w.stagingName.toList :=
  isName_stagingName w.isName.slash

theorem name_ne_retiredName (w : Swap) : w.name ≠ w.retiredName :=
  Emission.name_ne_retiredName w.name

theorem name_ne_stagingName (w : Swap) : w.name ≠ w.stagingName :=
  Emission.name_ne_stagingName w.name

theorem retiredName_ne_stagingName (w : Swap) : w.retiredName ≠ w.stagingName :=
  Emission.retiredName_ne_stagingName w.name

theorem names_dest (w : Swap) : w.dest.names = w.out.names ++ [w.name] :=
  Path.names_join w.out w.isName

theorem names_retired (w : Swap) : w.retired.names = w.out.names ++ [w.retiredName] :=
  Path.names_join w.out w.isName_retired

theorem names_staging (w : Swap) : w.staging.names = w.out.names ++ [w.stagingName] :=
  Path.names_join w.out w.isName_staging

theorem steps_staging (w : Swap) : w.staging.steps = w.out.names ++ [w.stagingName] := by
  rw [Path.names_eq_steps w.out_back]
  exact Path.steps_join w.out w.isName_staging

/-- What a reader finds at the place. For a moment that is nothing, with what was there beside. -/
inductive Shows (w : Swap) (root : Tree) : Prop
  | old (h : root.get? w.dest.names = w.old)
  | between (hold : w.old ≠ none) (h : root.get? w.dest.names = none)
      (hretired : root.get? w.retired.names = w.old)
  | new (h : root.get? w.dest.names = some w.new)

/-- How a swap ends. A failure is one of the work before it, of its second step, or of clearing
away what was there. -/
inductive Ends (w : Swap) : Except EmitError Path → Tree → Prop
  | done {root : Tree} (h : root.get? w.dest.names = some w.new)
      (hretired : root.get? w.retired.names = none) (hstaging : root.get? w.staging.names = none) :
      Ends w (.ok w.dest) root
  | kept {root : Tree} (e : EmitError) (h : root.get? w.dest.names = w.old) : Ends w (.error e) root
  | parted {root : Tree} (cause : DiskError) (hold : w.old ≠ none)
      (h : root.get? w.dest.names = none) (hretired : root.get? w.retired.names = w.old) :
      Ends w (.error (.io w.dest cause)) root
  | uncleared {root : Tree} (cause : DiskError) (h : root.get? w.dest.names = some w.new) :
      Ends w (.error (.io w.retired cause)) root

structure Early (w : Swap) (root : Tree) : Prop where
  dest : root.get? w.dest.names = w.old
  lists : root.Lists w.out.names

theorem Early.shows (h : w.Early root) : w.Shows root := .old h.dest

theorem Early.kept (h : w.Early root) (e : EmitError) : w.Ends (.error e) root := .kept e h.dest

theorem Early.beside (h : w.Early root) {x : String} (hb : root.Beside w.out.names x root')
    (hne : w.name ≠ x) : w.Early root' := by
  refine ⟨?_, hb.lists h.lists⟩
  rw [names_dest, hb.get?_eq w.name hne, ← names_dest]
  exact h.dest

structure Drafted (w : Swap) (artifacts : List Artifact) (root : Tree) : Prop where
  early : w.Early root
  staged : ∀ u, root.get? w.staging.names = some u → u = .dir (entriesOf artifacts)

/-- The new tree is ready, and what was at the place is there still, or beside it. -/
structure Ready (w : Swap) (root : Tree) : Prop where
  dest : root.get? w.dest.names = w.old ∨
    w.old ≠ none ∧ root.get? w.dest.names = none ∧ root.get? w.retired.names = w.old
  lists : root.Lists w.out.names
  staged : ∀ u, root.get? w.staging.names = some u → u = w.new

theorem Ready.shows (h : w.Ready root) : w.Shows root :=
  h.dest.elim .old fun ⟨hold, hd, hr⟩ ↦ .between hold hd hr

theorem Ready.ends (h : w.Ready root) (cause : DiskError) :
    w.Ends (.error (.io w.dest cause)) root :=
  h.dest.elim (.kept _) fun ⟨hold, hd, hr⟩ ↦ .parted cause hold hd hr

theorem Drafted.ready {artifacts : List Artifact} (h : w.Drafted artifacts root)
    (hnew : w.new = .dir (entriesOf artifacts)) : w.Ready root :=
  ⟨.inl h.early.dest, h.early.lists, fun u hu ↦ (h.staged u hu).trans hnew.symm⟩

structure Placed (w : Swap) (root : Tree) : Prop where
  dest : root.get? w.dest.names = some w.new
  staging : root.get? w.staging.names = none
  lists : root.Lists w.out.names

end Swap

section Steps

variable {inv : Tree → Prop} {post : Unit → Tree → Prop} {fail : EmitError → Tree → Prop}
  {root : Tree}

theorem safeOr_removeIfPresent {dir : Path} (hi : inv root)
    (h : ∀ (answer : Except DiskError Unit) root',
      (DiskOp.removeTree dir).Yields root answer root' → inv root' ∧
        (answer = .ok () ∨ answer = .error .notFound → post () root') ∧
        ∀ e, answer = .error e → fail (.io dir e) root') :
    SafeOr inv post fail (removeIfPresent dir) root := by
  have hstep : Safe inv (fun (answer : Except DiskError Unit) root' ↦
      (answer = .ok () ∨ answer = .error .notFound → post () root') ∧
        ∀ e, answer = .error e → fail (.io dir e) root') (removeTree dir) root :=
    safe_step hi h
  refine SafeOr.bind (safeOr_lift hstep) fun answer root' hi' hanswer ↦ ?_
  split
  · exact safeOr_pure hi' (hanswer.1 (.inl rfl))
  · exact safeOr_pure hi' (hanswer.1 (.inr rfl))
  · exact safeOr_throw hi' (hanswer.2 _ rfl)

theorem safeOr_at {p : Path} {s : Script (Except DiskError Unit)}
    (h : Safe inv (fun answer root' ↦ (answer = .ok () → post () root') ∧
      ∀ e, answer = .error e → fail (.io p e) root') s root) :
    SafeOr inv post fail (at' p s) root := by
  refine safeOr_orElse (Safe.imp h fun answer root' hanswer ↦ ?_)
  cases answer with
  | ok a => exact hanswer.1 rfl
  | error e => exact hanswer.2 e rfl

end Steps

namespace Swap

variable {w : Swap} {root : Tree} {before artifacts : List Artifact}

/-- Work in which the place shows what it may, and which ends as it may if it fails. -/
def Work (w : Swap) {α : Type} (s : OrFail EmitError α) (post : α → Tree → Prop) (root : Tree) :
    Prop :=
  SafeOr w.Shows post (fun e ↦ w.Ends (.error e)) s root

theorem back_staging (w : Swap) : ".." ∉ w.staging.steps :=
  Path.not_mem_steps_join w.out_back w.isName_staging

theorem back_retired (w : Swap) : ".." ∉ w.retired.steps :=
  Path.not_mem_steps_join w.out_back w.isName_retired

theorem work_clearStaging (h : w.Early root) :
    w.Work (removeIfPresent w.staging) (fun _ ↦ w.Drafted []) root := by
  refine safeOr_removeIfPresent h.shows fun answer root' hy ↦ ?_
  obtain ⟨hbeside, hgone⟩ := DiskOp.yields_removeTree w.names_staging w.back_staging hy
  have hearly := h.beside hbeside w.name_ne_stagingName
  refine ⟨hearly.shows, fun hanswer ↦ ⟨hearly, fun u hu ↦ ?_⟩, fun e _ ↦ hearly.kept _⟩
  rw [names_staging, hgone h.lists hanswer] at hu
  cases hu

theorem work_clearRetired (h : w.Drafted before root) :
    w.Work (removeIfPresent w.retired) (fun _ ↦ w.Drafted before) root := by
  refine safeOr_removeIfPresent h.early.shows fun answer root' hy ↦ ?_
  obtain ⟨hbeside, -⟩ := DiskOp.yields_removeTree w.names_retired w.back_retired hy
  have hearly := h.early.beside hbeside w.name_ne_retiredName
  refine ⟨hearly.shows, fun _ ↦ ⟨hearly, fun u hu ↦ h.staged u ?_⟩, fun e _ ↦ hearly.kept _⟩
  rwa [names_staging, hbeside.get?_eq _ w.retiredName_ne_stagingName.symm, ← names_staging] at hu

theorem work_makeStaging (h : w.Drafted [] root) :
    w.Work (at' w.staging (makeDirs w.staging)) (fun _ ↦ w.Drafted []) root := by
  refine safeOr_at (safe_step h.early.shows fun answer root' hy ↦ ?_)
  have hbare : DiskOp.IsBare root (w.out.names ++ [w.stagingName]) := w.names_staging ▸ h.staged
  obtain ⟨hbeside, hbare⟩ := DiskOp.yields_makeDirs w.steps_staging w.back_staging hbare hy
  rw [← names_staging] at hbare
  have hearly := h.early.beside hbeside w.name_ne_stagingName
  exact ⟨hearly.shows, fun _ ↦ ⟨hearly, hbare⟩, fun e _ ↦ hearly.kept _⟩

theorem work_writeFile {a : Artifact} (ha : Path.IsName a.fileName.toList)
    (h : w.Drafted before root) :
    w.Work (at' (w.staging.join a.fileName) (write (w.staging.join a.fileName) a.body))
      (fun _ ↦ w.Drafted (before ++ [a])) root := by
  refine safeOr_at (safe_step h.early.shows fun answer root' hy ↦ ?_)
  have hp : (w.staging.join a.fileName).names =
      w.out.names ++ [w.stagingName] ++ [a.fileName] := by
    rw [Path.names_join w.staging ha, names_staging]
  obtain ⟨hbeside, hput⟩ := DiskOp.yields_write hp hy
  have hearly := h.early.beside hbeside w.name_ne_stagingName
  refine ⟨hearly.shows, fun hanswer ↦ ⟨hearly, fun u hu ↦ ?_⟩, fun e _ ↦ hearly.kept _⟩
  obtain ⟨entries, hdir, hput⟩ := hput hanswer
  rw [← names_staging] at hdir hput
  cases h.staged _ hdir
  rw [entriesOf_concat]
  exact Option.some.inj (hu.symm.trans hput)

theorem work_writeFiles (hfiles : ∀ a ∈ artifacts, Path.IsName a.fileName.toList)
    (h : w.Drafted before root) :
    w.Work (writeFiles w.staging artifacts) (fun _ ↦ w.Drafted (before ++ artifacts)) root := by
  induction artifacts generalizing root before with
  | nil =>
    rw [List.append_nil]
    exact safeOr_pure h.early.shows h
  | cons a artifacts ih =>
    obtain ⟨ha, hfiles⟩ := List.forall_mem_cons.1 hfiles
    refine SafeOr.bind (work_writeFile ha h) fun _ root' _ hdrafted ↦ ?_
    have hrest := ih hfiles hdrafted
    rwa [List.append_assoc, List.singleton_append] at hrest

theorem work_isPresent (h : w.Early root) :
    w.Work (liftM (isPresent w.dest)) (fun present root' ↦ root' = root ∧
      (present = true → ∃ t, root.get? w.dest.names = some t)) root := by
  have hfind : Safe w.Shows (fun (answer : Option Bool) root' ↦ root' = root ∧
      (answer.isSome = true → ∃ t, root.get? w.dest.names = some t))
      (step (.find w.dest)) root := by
    refine safe_step h.shows fun answer root' hy ↦ ?_
    obtain ⟨rfl, hanswer⟩ := DiskOp.yields_find hy
    exact ⟨h.shows, rfl, hanswer⟩
  exact safeOr_lift (Safe.bind hfind fun _ _ hi hanswer ↦ ⟨hi, hanswer⟩)

theorem work_retire (h : w.Early root) (hready : w.Ready root)
    (hpresent : ∃ t, root.get? w.dest.names = some t) :
    w.Work (at' w.dest (rename w.dest w.retired)) (fun _ ↦ w.Ready) root := by
  refine safeOr_at (safe_step h.shows fun answer root' hy ↦ ?_)
  rcases DiskOp.yields_rename w.names_dest w.names_retired w.name_ne_retiredName hy with
    ⟨-, rfl⟩ | ⟨-, hmoves⟩
  · exact ⟨h.shows, fun _ ↦ hready, fun e _ ↦ h.kept _⟩
  · obtain ⟨t, ht⟩ := hpresent
    have hold : w.old ≠ none := by simp [← h.dest, ht]
    obtain ⟨u, hu, hu'⟩ := hmoves.moved
    rw [← names_dest, h.dest] at hu
    rw [← names_retired, ← hu] at hu'
    have hgone := hmoves.gone h.lists
    rw [← names_dest] at hgone
    have hstaged := hmoves.get?_eq _ w.name_ne_stagingName.symm w.retiredName_ne_stagingName.symm
    rw [← names_staging] at hstaged
    have hready : w.Ready root' :=
      ⟨.inr ⟨hold, hgone, hu'⟩, hmoves.lists h.lists, fun u hu ↦ hready.staged u (hstaged ▸ hu)⟩
    exact ⟨hready.shows, fun _ ↦ hready, fun e _ ↦ hready.ends e⟩

theorem work_place (h : w.Ready root) :
    w.Work (at' w.dest (rename w.staging w.dest)) (fun _ ↦ w.Placed) root := by
  refine safeOr_at (safe_step h.shows fun answer root' hy ↦ ?_)
  rcases DiskOp.yields_rename w.names_staging w.names_dest w.name_ne_stagingName.symm hy with
    ⟨⟨e, rfl⟩, rfl⟩ | ⟨rfl, hmoves⟩
  · refine ⟨h.shows, fun he ↦ ?_, fun e _ ↦ h.ends e⟩
    cases he
  · obtain ⟨u, hu, hu'⟩ := hmoves.moved
    rw [← names_staging] at hu
    rw [← names_dest, h.staged u hu] at hu'
    have hgone := hmoves.gone h.lists
    rw [← names_staging] at hgone
    refine ⟨.new hu', fun _ ↦ ⟨hu', hgone, hmoves.lists h.lists⟩, fun e he ↦ ?_⟩
    cases he

theorem work_finish (h : w.Placed root) :
    w.Work (removeIfPresent w.retired) (fun _ ↦ w.Ends (.ok w.dest)) root := by
  refine safeOr_removeIfPresent (.new h.dest) fun answer root' hy ↦ ?_
  obtain ⟨hbeside, hgone⟩ := DiskOp.yields_removeTree w.names_retired w.back_retired hy
  have hdest : root'.get? w.dest.names = some w.new := by
    rw [names_dest, hbeside.get?_eq _ w.name_ne_retiredName, ← names_dest, h.dest]
  have hstaging : root'.get? w.staging.names = none := by
    rw [names_staging, hbeside.get?_eq _ w.retiredName_ne_stagingName.symm, ← names_staging,
      h.staging]
  refine ⟨.new hdest, fun hanswer ↦ .done hdest ?_ hstaging, fun e _ ↦ .uncleared e hdest⟩
  rw [names_retired]
  exact hgone h.lists hanswer

theorem work_place_finish (h : w.Ready root) :
    w.Work (do
      at' w.dest (rename w.staging w.dest)
      removeIfPresent w.retired
      return w.dest) (fun p ↦ w.Ends (.ok p)) root :=
  SafeOr.bind (work_place h) fun _ _ _ hplaced ↦
    SafeOr.bind (work_finish hplaced) fun _ _ hi hends ↦ safeOr_pure hi hends

end Swap

section WriteTree

variable {out : Path} {workload : String} {target : Provider} {artifacts : List Artifact}
  {root : Tree}

def swapOf (out : Path) (workload : String) (target : Provider) (artifacts : List Artifact)
    (root : Tree) (hout : ".." ∉ out.steps) (hw : '/' ∉ workload.toList) : Swap where
  out := out
  out_back := hout
  name := Artifact.treeName target workload
  isName := isName_treeName hw
  old := root.get? (out.join (Artifact.treeName target workload)).names
  new := .dir (entriesOf artifacts)

theorem early_swapOf (hout : ".." ∉ out.steps) (hw : '/' ∉ workload.toList)
    (hroot : root.Lists out.names) :
    (swapOf out workload target artifacts root hout hw).Early root where
  dest := by simp only [swapOf, Swap.dest]
  lists := hroot

theorem safe_writeTree (target : Provider) (hout : ".." ∉ out.steps) (hw : '/' ∉ workload.toList)
    (hfiles : ∀ a ∈ artifacts, Path.IsName a.fileName.toList) (hroot : root.Lists out.names) :
    let w := swapOf out workload target artifacts root hout hw
    Safe w.Shows w.Ends (writeTree out workload target artifacts).run root := by
  intro w
  have hearly : w.Early root := early_swapOf hout hw hroot
  refine SafeOr.safe (SafeOr.bind (Swap.work_clearStaging hearly) fun _ _ _ h ↦ ?_)
  refine SafeOr.bind (Swap.work_clearRetired h) fun _ _ _ h ↦ ?_
  refine SafeOr.bind (Swap.work_makeStaging h) fun _ _ _ h ↦ ?_
  refine SafeOr.bind (Swap.work_writeFiles hfiles h) fun _ _ _ h ↦ ?_
  refine SafeOr.bind (Swap.work_isPresent h.early) fun present root' _ hpresent ↦ ?_
  obtain ⟨rfl, hpresent⟩ := hpresent
  have hready : w.Ready _ := h.ready rfl
  split
  · next hp =>
    exact SafeOr.bind (Swap.work_retire h.early hready (hpresent hp)) fun _ _ _ hready ↦
      Swap.work_place_finish hready
  · exact Swap.work_place_finish hready

/-- Between any two steps of writing a tree, of which any can have failed, its place holds what it
held or the new tree. Only between the two steps of the swap it holds nothing, and what it held is
beside it. Work that fails has left the old tree there, unless it failed at the second of these
steps, or when the old tree was cleared away after them. -/
theorem writeTree_old_or_new (hout : ".." ∉ out.steps) (hw : '/' ∉ workload.toList)
    (hfiles : ∀ a ∈ artifacts, Path.IsName a.fileName.toList) (hroot : root.Lists out.names) :
    let w := swapOf out workload target artifacts root hout hw
    (∀ s root', Reaches (writeTree out workload target artifacts).run root s root' →
      w.Shows root' ∧ ∀ result, s = .done result → w.Ends result root') ∧
    ((artifacts.map Artifact.fileName).Nodup → ∀ name t, w.new.get? [name] = some t ↔
      ∃ a ∈ artifacts, a.fileName = name ∧ t = .file a.body.toUTF8) := by
  intro w
  refine ⟨fun s root' hr ↦ ?_, fun hd name t ↦ ?_⟩
  · have hsafe := (safe_writeTree target hout hw hfiles hroot).of_reaches hr
    refine ⟨hsafe.inv_here, ?_⟩
    rintro result rfl
    exact hsafe.2
  · have hget : w.new.get? [name] = Tree.find name (entriesOf artifacts) := by
      change (Tree.dir (entriesOf artifacts)).get? [name] = _
      rw [Tree.get?_dir_cons]
      cases Tree.find name (entriesOf artifacts) <;> rfl
    rw [hget]
    exact find_entriesOf hd

end WriteTree

section Plain

def machineFile : Artifact where
  provider := Shipped.aws
  artifactKind := "aws_instance"
  logicalId := "compute-0"
  logicalKind := .computeNode
  targetId := "compute_0"
  fileName := "compute_0.tf"
  body := "module \"compute_0\" \x7b\n\x7d\n"
  dependsOn := []

def occupied : Tree := .dir [("out", .dir [("aws_web", .file "kept by hand".toUTF8)])]

def writing : Script (Except EmitError Path) :=
  (writeTree ⟨"out"⟩ "web" Shipped.aws [machineFile]).run

theorem run_writing :
    (writing.run occupied).1 = .error (.io ⟨"out/.aws_web.old"⟩ .notDirectory) := by
  decide +kernel

theorem writeTree_old_or_new_occupied :
    let w := swapOf ⟨"out"⟩ "web" Shipped.aws [machineFile] occupied (by decide) (by decide)
    w.old = some (.file "kept by hand".toUTF8) ∧ w.Shows (runFor 6 writing occupied).2 ∧
      w.Ends (.error (.io ⟨"out/.aws_web.old"⟩ .notDirectory)) (writing.run occupied).2 := by
  have hfiles : ∀ a ∈ [machineFile], Path.IsName a.fileName.toList := by
    simp only [List.mem_singleton, forall_eq]
    exact ⟨by decide, by decide, by decide⟩
  have hroot : occupied.Lists (⟨"out"⟩ : Path).names := by
    intro entries he
    obtain rfl : [("aws_web", Tree.file "kept by hand".toUTF8)] = entries :=
      Tree.dir.inj (Option.some.inj he)
    simp
  intro w
  have hstates : ∀ s root', Reaches writing occupied s root' →
      w.Shows root' ∧ ∀ result, s = .done result → w.Ends result root' :=
    (writeTree_old_or_new (by decide) (by decide) hfiles hroot).1
  have hbetween := (hstates (runFor 6 writing occupied).1 (runFor 6 writing occupied).2
    (reaches_runFor 6 writing occupied)).1
  have hlast := (hstates (.done (writing.run occupied).1) (writing.run occupied).2
    (reaches_run writing occupied)).2 _ rfl
  rw [run_writing] at hlast
  exact ⟨rfl, hbetween, hlast⟩

/-- Neither is there something at the place all the time, nor does a failure always leave there what
was there before. -/
theorem writeTree_not_old_or_new :
    occupied.get? ["out", "aws_web"] = some (.file "kept by hand".toUTF8) ∧
      (∃ s root', Reaches writing occupied s root' ∧ root'.get? ["out", "aws_web"] = none) ∧
      ∃ root', Reaches writing occupied
          (.done (.error (.io ⟨"out/.aws_web.old"⟩ .notDirectory))) root' ∧
        root'.get? ["out", "aws_web"] =
          some (.dir [("compute_0.tf", .file machineFile.body.toUTF8)]) :=
  ⟨rfl, ⟨_, _, reaches_runFor 6 writing occupied, rfl⟩, _, reaches_run writing occupied, rfl⟩

end Plain

end Emission

end Multicloud

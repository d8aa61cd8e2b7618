import Multicloud.Proofs.Artifact.Files
import Multicloud.Proofs.Emission.Sound

namespace Multicloud

namespace Emission

open Script

variable {out : Path} {name : String} {t p : Provider} {artifacts : List Artifact}
  {root root' : Tree} {registry : Registry} {g : ResourceGraph} {v : Version}

section Interrupted

theorem perm_put {name : String} {u : Tree} {entries : List (String × Tree)}
    (h : name ∉ entries.map Prod.fst) : (Tree.put name u entries).Perm ((name, u) :: entries) := by
  induction entries with
  | nil => exact .refl _
  | cons e entries ih =>
    obtain ⟨n, w⟩ := e
    obtain ⟨hne, h⟩ := List.ne_and_not_mem_of_not_mem_cons h
    unfold Tree.put
    rw [if_neg hne.symm]
    split
    · exact .refl _
    · exact ((ih h).cons _).trans (.swap _ _ _)

theorem perm_entriesOf (hn : (artifacts.map Artifact.fileName).Nodup) : (entriesOf artifacts).Perm
    (artifacts.map fun a ↦ (a.fileName, .file a.body.toUTF8)) := by
  induction artifacts using List.reverseRecOn with
  | nil => exact .refl _
  | append_singleton artifacts a ih =>
    rw [List.map_append, List.map_singleton, List.nodup_append] at hn
    obtain ⟨hn, -, hne⟩ := hn
    rw [entriesOf_concat, List.map_append, List.map_singleton]
    have hnew : a.fileName ∉ (entriesOf artifacts).map Prod.fst := by
      rw [((ih hn).map Prod.fst).mem_iff, List.map_map]
      exact fun hmem ↦ hne _ hmem _ (.head _) rfl
    exact (perm_put hnew).trans (((ih hn).cons _).trans (List.perm_append_singleton _ _).symm)

/-- What there can be in an output directory that was vacant at first: trees have been written, each
to its end or up to some step, and any step can have failed. -/
inductive Interrupted (out : Path) : Tree → Prop
  | vacant {root : Tree} (h : Vacant out root) (hclear : root.Clear out.trail) :
      Interrupted out root
  | write {registry : Registry} {g : ResourceGraph} {p t : Provider} {v : Version} {name : String}
      {artifacts : List Artifact} {root root' : Tree} {s : Script (Except EmitError Path)}
      (h : Interrupted out root) (hname : Name.isLabel name.toList = true)
      (hregistry : registry.Loaded) (hwalk : walkTarget g registry p v = .ok artifacts)
      (hr : Reaches (writeTree out name t artifacts).run root s root') : Interrupted out root'

theorem interrupted_of_empty (h : root.get? out.names = some (.dir []))
    (hdirs : root.Dirs out.trail) : Interrupted out root :=
  .vacant (vacant_of_empty h hdirs) hdirs.clear

theorem slash_not_mem_of_isLabel (hname : Name.isLabel name.toList = true) : '/' ∉ name.toList :=
  Text.clean_of_isLabel hname '/' (by decide)

theorem Interrupted.direct (h : Interrupted out root) : out.IsDirect := by
  induction h with
  | vacant h _ => exact h.direct
  | write _ _ _ _ _ ih => exact ih

theorem Interrupted.sound (h : Interrupted out root) : Sound out root := by
  induction h with
  | vacant h hclear => exact h.sound hclear
  | @write _ _ _ t _ _ _ _ _ _ h hname hregistry hwalk hr ih =>
    exact ih.of_reaches h.direct (onlyOr_entryOp_writeTree out t (slash_not_mem_of_isLabel hname)
      (plain_of_walkTarget hregistry hwalk).isName) hr

theorem Interrupted.workable (h : Interrupted out root) : Workable out root := by
  refine ⟨h.sound.reached, h.sound.lists, ?_⟩
  induction h with
  | vacant h _ => exact h.workable.composition
  | @write _ _ _ t _ _ _ _ _ _ h hname hregistry hwalk hr ih =>
    refine Only.lists (onlyOr_writeTree out t (slash_not_mem_of_isLabel hname)
      (plain_of_walkTarget hregistry hwalk).isName) hr (fun place hmem ↦ ?_) ih
    exact (apart_places_composition place hmem).1

/-- What a tree that has been written leaves: a file for each artifact at its place, nothing beside
it, and all else as it was. -/
structure Settled (out : Path) (name : String) (t : Provider) (artifacts : List Artifact)
    (root root' : Tree) : Prop where
  tree : root'.get? (treePlace out name t) = some (.dir (entriesOf artifacts))
  files : (entriesOf artifacts).Perm (artifacts.map fun a ↦ (a.fileName, .file a.body.toUTF8))
  staging : root'.get? (staging out (Artifact.treeName t name)).names = none
  retired : root'.get? (retired out (Artifact.treeName t name)).names = none
  others : ∀ x rest, out.names ++ [x] ∉ places out name t →
    root'.get? (out.names ++ x :: rest) = root.get? (out.names ++ x :: rest)

theorem Interrupted.settled (h : Interrupted out root) (hw : '/' ∉ name.toList)
    (hplain : Artifact.Plain artifacts) {place : Path}
    (hl : Leads (writeTree out name t artifacts).run root (.ok place) root') :
    place = out.join (Artifact.treeName t name) ∧ Settled out name t artifacts root root' := by
  obtain ⟨hplace, -⟩ := written_of_writeTree hw hplain.isName hplain.nodup hl
  obtain ⟨hstaging, hretired⟩ := gone_of_writeTree hw h.direct hplain.isName h.sound hl
  obtain ⟨htree, -⟩ := exact_of_writeTree hw h.direct hplain.isName h.workable hl
  refine ⟨hplace, htree, perm_entriesOf hplain.nodup, hstaging, hretired, fun x rest hx ↦ ?_⟩
  have hapart : ∀ place ∈ places out name t, Tree.Apart place (out.names ++ x :: rest) := by
    intro place hmem
    obtain ⟨y, rfl⟩ := exists_of_mem_places hmem
    have hne : x ≠ y := by
      rintro rfl
      exact hx hmem
    rw [List.append_cons _ x]
    exact Tree.apart_comm.1 ((Tree.apart_concat hne).append rest)
  exact get?_of_direct (onlyOr_writeTree out t hw hplain.isName) hl.reaches h.direct hapart

theorem Interrupted.exists_attempt (h : Interrupted out root)
    (hname : Name.isLabel name.toList = true) (hregistry : registry.Loaded)
    (hwalk : walkTarget g registry p v = .ok artifacts)
    (hsmooth : Smooth (writeTree out name t artifacts).run root) : ∃ root',
    attempt (writeTree out name t artifacts) root =
      (.ok (out.join (Artifact.treeName t name)), root') ∧
    Settled out name t artifacts root root' ∧ Interrupted out root' := by
  obtain ⟨place, root', hfinishes⟩ := sincere_writeTree out name t artifacts root hsmooth
  obtain ⟨rfl, hsettled⟩ := h.settled (slash_not_mem_of_isLabel hname)
    (plain_of_walkTarget hregistry hwalk) hfinishes.leads
  exact ⟨root', hfinishes.attempt_eq, hsettled,
    h.write hname hregistry hwalk hfinishes.leads.reaches⟩

theorem Settled.get?_eq {root'' : Tree} (h : Settled out name t artifacts root root')
    (h' : Settled out name t artifacts root' root'') (hw : '/' ∉ name.toList) (x : String)
    (rest : List String) :
    root''.get? (out.names ++ x :: rest) = root'.get? (out.names ++ x :: rest) := by
  by_cases hx : out.names ++ [x] ∈ places out name t
  · have hentry : root''.get? (out.names ++ [x]) = root'.get? (out.names ++ [x]) := by
      have hstaging := h'.staging.trans h.staging.symm
      have hretired := h'.retired.trans h.retired.symm
      rw [names_staging hw] at hstaging
      rw [names_retired hw] at hretired
      simp only [places, List.mem_cons, List.not_mem_nil, or_false] at hx
      rcases hx with hx | hx | hx <;> rw [hx]
      · exact h'.tree.trans h.tree.symm
      · exact hstaging
      · exact hretired
    rw [List.append_cons, Tree.get?_append, hentry, ← Tree.get?_append]
  · exact h'.others x rest hx

theorem fits_of_staging (hw : '/' ∉ name.toList)
    (h : (staging out (Artifact.treeName t name)).Fits) :
    (retired out (Artifact.treeName t name)).Fits ∧ (out.join (Artifact.treeName t name)).Fits := by
  have hslash := slash_not_mem_treeName hw t
  have hs := isName_stagingName hslash
  have hzero := ((Path.fits_join_iff _ hs).1 h).1.2
  constructor
  · refine h.of_join (isName_retiredName hslash) hs ?_ ?_
    · simpa using hzero
    · simp only [String.utf8ByteSize_append]
      exact Nat.add_le_add_left (by decide) _
  · refine h.of_join (isName_treeName hw) hs ?_ ?_
    · simpa using hzero
    · simp [String.utf8ByteSize_append]
      omega

/-- To write a tree to any disk on which work was left undone is no different: no operation fails
if the paths fit, and if none does then the tree is there with its files, nothing is beside it and
all else in the output directory is as it was. To write it again changes nothing. -/
theorem Interrupted.writeTree_settles (h : Interrupted out root)
    (hname : Name.isLabel name.toList = true) (hregistry : registry.Loaded)
    (hwalk : walkTarget g registry p v = .ok artifacts) (t : Provider) :
    ((staging out (Artifact.treeName t name)).Fits →
      (∀ a ∈ artifacts, ((staging out (Artifact.treeName t name)).join a.fileName).Fits) →
      Smooth (writeTree out name t artifacts).run root) ∧
    (Smooth (writeTree out name t artifacts).run root → ∃ root',
      attempt (writeTree out name t artifacts) root =
        (.ok (out.join (Artifact.treeName t name)), root') ∧
      Settled out name t artifacts root root' ∧
      (Smooth (writeTree out name t artifacts).run root' → ∃ root'',
        attempt (writeTree out name t artifacts) root' =
          (.ok (out.join (Artifact.treeName t name)), root'') ∧
        ∀ x rest, root''.get? (out.names ++ x :: rest) = root'.get? (out.names ++ x :: rest))) := by
  have hw := slash_not_mem_of_isLabel hname
  constructor
  · intro hfits hfiles
    obtain ⟨hretired, hdest⟩ := fits_of_staging hw hfits
    obtain ⟨root', hfinishes⟩ := h.sound.exists_finishes_writeTree hw hretired hdest h.direct hfits
      (plain_of_walkTarget hregistry hwalk).isName hfiles
    exact hfinishes.smooth
  · intro hsmooth
    obtain ⟨root', hfirst, hsettled, h'⟩ := h.exists_attempt hname hregistry hwalk hsmooth
    refine ⟨root', hfirst, hsettled, fun hsmooth ↦ ?_⟩
    obtain ⟨root'', hsecond, hagain, -⟩ := h'.exists_attempt hname hregistry hwalk hsmooth
    exact ⟨root'', hsecond, hsettled.get?_eq hagain hw⟩

end Interrupted

section Lone

open Pipeline (loneGraph)
open Shipped (aws v1)

def loneFiles : List Artifact := (walkTarget loneGraph .builtin aws v1).toOption.getD []

theorem walkTarget_loneGraph : walkTarget loneGraph .builtin aws v1 = .ok loneFiles := by
  have h : (walkTarget loneGraph .builtin aws v1).isOk = true := by decide +kernel
  unfold loneFiles
  cases hwalk : walkTarget loneGraph .builtin aws v1 with
  | error e =>
    rw [hwalk] at h
    cases h
  | ok artifacts => rfl

/-- The disk between two renames: the tree was written, and it was moved aside to be written
again. -/
def between : Tree :=
  let writing := (writeTree ⟨"out"⟩ "w" aws loneFiles).run
  (runFor 6 writing (writing.run emptyOut).2).2

theorem interrupted_emptyOut : Interrupted ⟨"out"⟩ emptyOut := by
  have hnames : (⟨"out"⟩ : Path).names = ["out"] := by decide +kernel
  have htrail : (⟨"out"⟩ : Path).trail = [[], ["out"]] := by decide +kernel
  refine interrupted_of_empty (hnames ▸ rfl) ?_
  rw [htrail]
  simp [Tree.Dirs, emptyOut, Tree.get?, Tree.find]

theorem fileName_loneFiles : loneFiles.map Artifact.fileName = ["compute_0.tf"] := by
  decide +kernel

theorem writeTree_settles_between :
    between.get? (treePlace ⟨"out"⟩ "w" aws) = none ∧
    (between.get? (retired ⟨"out"⟩ (Artifact.treeName aws "w")).names).isSome = true ∧
    ∃ root', attempt (writeTree ⟨"out"⟩ "w" aws loneFiles) between = (.ok ⟨"out/aws_w"⟩, root') ∧
      Settled ⟨"out"⟩ "w" aws loneFiles between root' := by
  have hlabel : Name.isLabel "w".toList = true := by decide
  have hfirst : Interrupted ⟨"out"⟩
      ((writeTree ⟨"out"⟩ "w" aws loneFiles).run.run emptyOut).2 :=
    interrupted_emptyOut.write hlabel .builtin walkTarget_loneGraph (reaches_run _ _)
  have hbetween : Interrupted ⟨"out"⟩ between :=
    hfirst.write hlabel .builtin walkTarget_loneGraph (reaches_runFor 6 _ _)
  obtain ⟨hsmooth, hends⟩ :=
    Interrupted.writeTree_settles hbetween hlabel .builtin walkTarget_loneGraph aws
  have hfiles : ∀ a ∈ loneFiles,
      ((staging ⟨"out"⟩ (Artifact.treeName aws "w")).join a.fileName).Fits := by
    intro a ha
    have hmem := List.mem_map_of_mem (f := Artifact.fileName) ha
    rw [fileName_loneFiles, List.mem_singleton] at hmem
    rw [hmem]
    exact ⟨by decide, by decide, by decide, by decide⟩
  obtain ⟨root', hattempt, hsettled, -⟩ :=
    hends (hsmooth ⟨by decide, by decide, by decide, by decide⟩ hfiles)
  exact ⟨by decide +kernel, by decide +kernel, root', hattempt, hsettled⟩

end Lone

end Emission

end Multicloud

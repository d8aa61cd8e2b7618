import Multicloud.Proofs.Emission.Composition
import Multicloud.Proofs.Emission.Exact

namespace Multicloud

namespace Emission

open Script
open Pipeline (Synthesized)

variable {out : Path} {name : String} {os : List Outcome} {o o' : Outcome} {g : ResourceGraph}
  {root root' : Tree} {t : Provider} {ps : List Path}

section Prevails

variable {P : Outcome → Prop}

/-- The outcome came, and none but outcomes of some kind came after it. -/
def Prevails (P : Outcome → Prop) (os : List Outcome) (o : Outcome) : Prop :=
  ∃ before after, os = before ++ o :: after ∧ ∀ o' ∈ after, P o'

theorem prevails_concat : Prevails P (os ++ [o]) o' ↔ o' = o ∨ P o ∧ Prevails P os o' := by
  constructor
  · rintro ⟨before, after, he, hafter⟩
    obtain rfl | ⟨after, last, rfl⟩ := List.eq_nil_or_concat' after
    · obtain ⟨-, ho⟩ := List.append_inj' he rfl
      exact .inl (List.cons.inj ho).1.symm
    · rw [← List.cons_append, ← List.append_assoc] at he
      obtain ⟨hos, ho⟩ := List.append_inj' he rfl
      obtain ⟨rfl, -⟩ := List.cons.inj ho
      exact .inr ⟨hafter o (by simp), before, after, hos,
        fun o' ho' ↦ hafter o' (List.mem_append_left _ ho')⟩
  · rintro (rfl | ⟨ho, before, after, rfl, hafter⟩)
    · exact ⟨os, [], rfl, nofun⟩
    · refine ⟨before, after ++ [o], by simp, fun o' ho' ↦ ?_⟩
      rcases List.mem_append.1 ho' with ho' | ho'
      · exact hafter o' ho'
      · rwa [List.mem_singleton.1 ho']

theorem not_prevails_nil : ¬ Prevails P [] o := by
  rintro ⟨before, after, he, -⟩
  simp at he

end Prevails

/-- An output directory with nothing in it, or with nothing where it is to be. The way there does
not lead through it. -/
structure Vacant (out : Path) (root : Tree) : Prop where
  direct : out.IsDirect
  bare : DiskOp.IsBare root out.names

theorem vacant_of_empty (h : root.get? out.names = some (.dir [])) (hdirs : root.Dirs out.trail) :
    Vacant out root :=
  ⟨hdirs.isDirect h, fun _ hu ↦ Option.some.inj (hu.symm.trans h)⟩

theorem Vacant.get?_eq_none (h : Vacant out root) (x : String) (rest : List String) :
    root.get? (out.names ++ x :: rest) = none := by
  rw [Tree.get?_append]
  cases hroot : root.get? out.names with
  | none => rfl
  | some u =>
    cases h.bare u hroot
    rfl

theorem Vacant.workable (h : Vacant out root) : Workable out root where
  reached x hthere := absurd (h.get?_eq_none x []) hthere
  lists entries he := by
    cases h.bare _ he
    exact .nil
  composition entries he := by
    rw [compositionPlace, h.get?_eq_none] at he
    cases he

/-- Outcomes for graphs of one name, written one after the other to an output directory that was
vacant at first, without a failure. -/
inductive Emitted (out : Path) (name : String) : List Outcome → Tree → Prop
  | vacant {root : Tree} (h : Vacant out root) : Emitted out name [] root
  | write {os : List Outcome} {g : ResourceGraph} {o : Outcome} {ps : List Path} {root root' : Tree}
      (h : Emitted out name os root) (ho : Synthesized g o) (hg : g.name = name)
      (hl : Leads (writeOutcome out g.name o).run root (.ok ps) root') :
      Emitted out name (os ++ [o]) root'
  /-- The disk changes, but neither the output directory nor the way there. -/
  | elsewhere {os : List Outcome} {root root' : Tree} (h : Emitted out name os root)
      (hout : root'.get? out.names = root.get? out.names)
      (hway : root.Dirs out.trail → root'.Dirs out.trail) : Emitted out name os root'

section Step

theorem get?_of_elsewhere (hout : root'.get? out.names = root.get? out.names)
    (rest : List String) : root'.get? (out.names ++ rest) = root.get? (out.names ++ rest) := by
  rw [Tree.get?_append, hout, ← Tree.get?_append]

theorem Workable.elsewhere (h : Workable out root)
    (hout : root'.get? out.names = root.get? out.names)
    (hway : root.Dirs out.trail → root'.Dirs out.trail) : Workable out root' where
  reached x hthere := hway (h.reached x (get?_of_elsewhere hout [x] ▸ hthere))
  lists entries he := h.lists entries (hout ▸ he)
  composition entries he := h.composition entries (get?_of_elsewhere hout [compositionDir] ▸ he)

variable (hw : '/' ∉ name.toList) (hd : out.IsDirect) (ho : o.stored.Plain)

include hw hd ho

theorem get?_of_writing {s : Script (Except EmitError (List Path))} (ht : t ∉ o.artifacts)
    (hr : Reaches (writeOutcome out name o).run root s root') :
    root'.get? (treePlace out name t) = root.get? (treePlace out name t) :=
  get?_of_direct (onlyOr_writeOutcome out hw ho) hr hd
    (apart_allPlaces fun h ↦ ht (Std.ExtTreeMap.mem_keys.1 h.2))

theorem exact_of_outcomeTrees {trees : List Path} (h : Workable out root)
    (hl : Leads (writeTrees out name o.artifacts.toList).run root (.ok trees) root') :
    Workable out root' ∧
      (∀ (t : Provider) artifacts, o.artifacts[t]? = some artifacts →
        root'.get? (treePlace out name t) = some (.dir (entriesOf artifacts))) ∧
      root'.get? (compositionFile out) = root.get? (compositionFile out) := by
  have hplain := plain_of_mem_toList ho
  have hkeys : (o.artifacts.toList.map Prod.fst).Nodup := by
    rw [Std.ExtTreeMap.map_fst_toList_eq_keys]
    exact Std.ExtTreeMap.nodup_keys
  obtain ⟨hexact, hworkable⟩ := exact_of_writeTrees hw hd hplain hkeys h hl
  refine ⟨hworkable, fun t artifacts ha ↦
    hexact (t, artifacts) (Std.ExtTreeMap.mem_toList_iff_getElem?_eq_some.2 ha), ?_⟩
  rw [compositionFile_eq]
  refine get?_of_direct (onlyOr_writeTrees out hw hplain) hl.reaches hd fun place hmem ↦ ?_
  rw [← compositionFile_eq]
  obtain ⟨t, -, hmem⟩ := List.mem_flatMap.1 hmem
  exact Tree.apart_comm.1 ((Tree.apart_comm.1 (apart_places_composition place hmem)).append _)

/-- The trees of an outcome are there with their files and nothing else, and its composition, or
none if the outcome is complete without one. -/
theorem exact_of_writeOutcome (h : Workable out root)
    (hl : Leads (writeOutcome out name o).run root (.ok ps) root') :
    Workable out root' ∧
      (∀ (t : Provider) artifacts, o.artifacts[t]? = some artifacts →
        root'.get? (treePlace out name t) = some (.dir (entriesOf artifacts))) ∧
      (∀ c, o.composition = some c →
        root'.get? (compositionFile out) = some (.file c.body.toUTF8)) ∧
      (o.composition = none → root'.get? (compositionFile out) =
        if o.isComplete then none else root.get? (compositionFile out)) := by
  obtain ⟨trees, root₁, htrees, hrest⟩ := leads_bindOr_ok.1 hl
  obtain ⟨hworkable, hexact, hfile⟩ := exact_of_outcomeTrees hw hd ho h htrees
  split at hrest
  · next c hc =>
    have hname := ho.composition c hc
    obtain ⟨p, root₂, hcomposition, hdone⟩ := leads_bindOr_ok.1 hrest
    obtain ⟨-, rfl⟩ := leads_pureOr.1 hdone
    refine ⟨workable_of_writeComposition hname hworkable hcomposition, fun t artifacts ha ↦ ?_,
      fun c' hc' ↦ ?_, fun hnone ↦ ?_⟩
    · have hsame : root'.get? (treePlace out name t) = root₁.get? (treePlace out name t) :=
        get?_of_direct (onlyOr_writeComposition hname out) hcomposition.reaches hd
          fun place hmem ↦ List.mem_singleton.1 hmem ▸ apart_compositionPlace
      exact hsame.trans (hexact t artifacts ha)
    · cases hc.symm.trans hc'
      exact (file_of_writeComposition hname hcomposition).1
    · rw [hnone] at hc
      cases hc
  · next hnone =>
    split at hrest
    · next hcomplete =>
      obtain ⟨b, root₂, hremove, hdone⟩ := leads_bindOr_ok.1 hrest
      obtain ⟨-, rfl⟩ := leads_pureOr.1 hdone
      refine ⟨workable_of_removeComposition hremove hd hworkable, fun t artifacts ha ↦ ?_,
        fun c hc ↦ ?_, fun _ ↦ ?_⟩
      · rw [(edited_of_removeComposition hremove).get?_eq fun place hmem ↦ ?_]
        · exact hexact t artifacts ha
        · rw [List.mem_singleton.1 hmem]
          exact apart_compositionPlace.append [Composition.standardName]
      · rw [hnone] at hc
        cases hc
      · rw [if_pos hcomplete]
        exact gone_of_removeComposition hremove hworkable
    · next hpartial =>
      obtain ⟨-, rfl⟩ := leads_pureOr.1 hrest
      refine ⟨hworkable, hexact, fun c hc ↦ ?_, fun _ ↦ ?_⟩
      · rw [hnone] at hc
        cases hc
      · rw [if_neg hpartial, hfile]

end Step

section Run

theorem Emitted.direct (h : Emitted out name os root) : out.IsDirect := by
  induction h with
  | vacant h => exact h.direct
  | write _ _ _ _ ih => exact ih
  | elsewhere _ _ _ ih => exact ih

variable (hw : '/' ∉ name.toList)

include hw

theorem Emitted.workable (h : Emitted out name os root) : Workable out root := by
  induction h with
  | vacant h => exact h.workable
  | write h ho hg hl ih => exact (exact_of_writeOutcome hw h.direct ho.plain ih (hg ▸ hl)).1
  | elsewhere _ hout hway ih => exact ih.elsewhere hout hway

theorem Emitted.get?_iff (h : Emitted out name os root) {x : String} {rest : List String}
    {P : Outcome → Prop} {f : Outcome → Option Tree} (hnone : ∀ o, P o → f o = none)
    (hstep : ∀ (o : Outcome) (root root' : Tree) (ps : List Path), o.stored.Plain →
      Workable out root → Leads (writeOutcome out name o).run root (.ok ps) root' →
      (P o → root'.get? (out.names ++ x :: rest) = root.get? (out.names ++ x :: rest)) ∧
        (¬ P o → root'.get? (out.names ++ x :: rest) = f o)) {u : Tree} :
    root.get? (out.names ++ x :: rest) = some u ↔ ∃ o, Prevails P os o ∧ f o = some u := by
  induction h with
  | vacant h =>
    rw [h.get?_eq_none]
    exact ⟨nofun, fun ⟨o, ho, _⟩ ↦ absurd ho not_prevails_nil⟩
  | @write os g o ps root root' h ho hg hl ih =>
    subst hg
    obtain ⟨hkept, hnew⟩ := hstep o root root' ps ho.plain (h.workable hw) hl
    simp only [prevails_concat, or_and_right, exists_or, exists_eq_left, and_assoc]
    by_cases hP : P o
    · rw [hkept hP, ih]
      simp [hP, hnone o hP]
    · rw [hnew hP]
      simp [hP]
  | elsewhere _ hout _ ih => rw [get?_of_elsewhere hout, ih]

theorem Emitted.tree_iff (h : Emitted out name os root) {u : Tree} :
    root.get? (treePlace out name t) = some u ↔ ∃ o, Prevails (t ∉ ·.artifacts) os o ∧
      (o.artifacts[t]?.map fun artifacts ↦ .dir (entriesOf artifacts)) = some u := by
  refine h.get?_iff hw (fun o ht ↦ ?_) fun o root root' ps ho hroot hl ↦ ⟨fun ht ↦ ?_, fun ht ↦ ?_⟩
  · rw [Std.ExtTreeMap.getElem?_eq_none ht, Option.map_none]
  · exact get?_of_writing hw h.direct ho ht hl.reaches
  · obtain ⟨-, htrees, -⟩ := exact_of_writeOutcome hw h.direct ho hroot hl
    obtain ⟨artifacts, ha⟩ : ∃ artifacts, o.artifacts[t]? = some artifacts := by
      rwa [not_not, Std.ExtTreeMap.mem_iff_isSome_getElem?, Option.isSome_iff_exists] at ht
    rw [ha, Option.map_some]
    exact htrees t artifacts ha

theorem Emitted.composition_iff (h : Emitted out name os root) {u : Tree} :
    root.get? (compositionFile out) = some u ↔
      ∃ o, Prevails (fun o ↦ o.composition = none ∧ o.isComplete = false) os o ∧
        (o.composition.map fun c ↦ .file c.body.toUTF8) = some u := by
  rw [compositionFile_eq]
  refine h.get?_iff hw (fun o hnone ↦ ?_) fun o root root' ps ho hroot hl ↦ ?_
  · rw [hnone.1, Option.map_none]
  · obtain ⟨-, -, hsome, hnone⟩ := exact_of_writeOutcome hw h.direct ho hroot hl
    rw [← compositionFile_eq]
    cases hc : o.composition with
    | some c => exact ⟨nofun, fun _ ↦ hsome c hc⟩
    | none =>
      rw [hnone hc]
      refine ⟨fun hpartial ↦ if_neg (by simp [hpartial.2]), fun hcomplete ↦ if_pos ?_⟩
      simpa using hcomplete

/-- Whatever outcomes are emitted one after the other, the tree of a target is that of the latest of
them that has artifacts of it, file by file, and so none is there if none has any. The composition
is that of the latest outcome that has one, unless a complete outcome without one came after it.
While the next outcome is emitted, no tree changes of a target that failed or was not begun. -/
theorem emitted_exactly (h : Emitted out name os root) :
    (∀ (t : Provider) (u : Tree), root.get? (treePlace out name t) = some u ↔
      ∃ o artifacts, Prevails (t ∉ ·.artifacts) os o ∧ o.artifacts[t]? = some artifacts ∧
        .dir (entriesOf artifacts) = u) ∧
    (∀ u : Tree, root.get? (compositionFile out) = some u ↔
      ∃ o c, Prevails (fun o ↦ o.composition = none ∧ o.isComplete = false) os o ∧
        o.composition = some c ∧ .file c.body.toUTF8 = u) ∧
    ∀ (g : ResourceGraph) (o : Outcome) (s : Script (Except EmitError (List Path))) (root' : Tree),
      Synthesized g o → g.name = name → Reaches (writeOutcome out g.name o).run root s root' →
      ∀ t : Provider, (t ∈ o.failures ∨ t ∈ o.cancelled → t ∉ o.artifacts) ∧
        (t ∉ o.artifacts → root'.get? (treePlace out name t) = root.get? (treePlace out name t)) := by
  refine ⟨fun t u ↦ ?_, fun u ↦ ?_, fun g o s root' ho hg hr t ↦ ⟨ho.not_mem_artifacts, fun ht ↦ ?_⟩⟩
  · rw [h.tree_iff hw]
    simp only [Option.map_eq_some_iff, exists_and_left]
  · rw [h.composition_iff hw]
    simp only [Option.map_eq_some_iff, exists_and_left]
  · subst hg
    exact get?_of_writing hw h.direct ho.plain ht hr

end Run

def emptyOut : Tree := .dir [("out", .dir [])]

theorem vacant_emptyOut : Vacant ⟨"out"⟩ emptyOut := by
  have hnames : (⟨"out"⟩ : Path).names = ["out"] := by decide +kernel
  have htrail : (⟨"out"⟩ : Path).trail = [[], ["out"]] := by decide +kernel
  refine vacant_of_empty (hnames ▸ rfl) ?_
  rw [htrail]
  simp [Tree.Dirs, emptyOut, Tree.get?, Tree.find]

section Pair

open Pipeline (fresh shipped lone loneGraph pair pairPins)
open Shipped (aws gcp)

theorem exists_pair_lone : ∃ o c disk root ps ps',
    ((shipped pairPins).call .inMemory pair).run (.dir []) = ((.ok o, c), disk) ∧ o.mode = .full ∧
      gcp ∈ o.artifacts ∧ o.composition.isSome = true ∧
      (writeOutcome ⟨"out"⟩ loneGraph.name o).run.run emptyOut = (.ok ps, root) ∧
      ((writeOutcome ⟨"out"⟩ loneGraph.name loneOutcome).run.run root).1 = .ok ps' := by
  obtain ⟨answer, c, disk, hx, -⟩ := Pipeline.came_call (shipped pairPins) .inMemory pair (.dir [])
  have h : ((((shipped pairPins).call .inMemory pair).run (.dir [])).1.1.toOption.map fun o ↦
      let first := (writeOutcome ⟨"out"⟩ loneGraph.name o).run.run emptyOut
      (o.mode, decide (gcp ∈ o.artifacts), o.composition.isSome, first.1.isOk,
        ((writeOutcome ⟨"out"⟩ loneGraph.name loneOutcome).run.run first.2).1.isOk)) =
      some (.full, true, true, true, true) := by
    decide +kernel
  rw [hx] at h
  obtain ⟨o, ho, htold⟩ := Option.map_eq_some_iff.1 h
  obtain rfl := toOption_eq_some.1 ho
  simp only [Prod.mk.injEq, decide_eq_true_eq] at htold
  obtain ⟨hmode, hgcp, hsome, hfirst, hsecond⟩ := htold
  obtain ⟨ps, hps⟩ := run_of_isOk hfirst
  obtain ⟨ps', hps'⟩ := run_of_isOk hsecond
  exact ⟨o, c, disk, _, ps, ps', hx, hmode, hgcp, hsome, hps, congrArg Prod.fst hps'⟩

/-- The tree on the one target stays, and the composition goes with the run for the other one. -/
theorem emitted_exactly_pair : ∃ o artifacts root, Emitted ⟨"out"⟩ "w" [o, loneOutcome] root ∧
    o.composition.isSome = true ∧ o.artifacts[gcp]? = some artifacts ∧
    root.get? (treePlace ⟨"out"⟩ "w" gcp) = some (.dir (entriesOf artifacts)) ∧
    root.get? (compositionFile ⟨"out"⟩) = none := by
  obtain ⟨o, c, disk, root₁, ps, ps', hx, hmode, hgcp, hsome, hfirst, hsecond⟩ := exists_pair_lone
  obtain ⟨artifacts, ha⟩ : ∃ artifacts, o.artifacts[gcp]? = some artifacts := by
    rwa [Std.ExtTreeMap.mem_iff_isSome_getElem?, Option.isSome_iff_exists] at hgcp
  have ho : Synthesized loneGraph o :=
    ⟨_, _, _, _, _, _, .builtin, rfl, rfl, .inl hmode, hx⟩
  have hname : loneGraph.name = "w" := by decide +kernel
  have hemitted : Emitted ⟨"out"⟩ "w" [o, loneOutcome]
      ((writeOutcome ⟨"out"⟩ loneGraph.name loneOutcome).run.run root₁).2 := by
    have hbefore : Emitted ⟨"out"⟩ "w" ([] ++ [o]) root₁ :=
      .write (.vacant vacant_emptyOut) ho hname (leads_of_run hfirst)
    exact hbefore.write synthesized_loneOutcome hname (leads_of_run (Prod.ext hsecond rfl))
  obtain ⟨htrees, hcomposition, -⟩ := emitted_exactly (by decide) hemitted
  have hlone : gcp ∉ loneOutcome.artifacts := by decide +kernel
  have hcomplete : loneOutcome.composition = none ∧ loneOutcome.isComplete = true := by
    decide +kernel
  refine ⟨o, artifacts, _, hemitted, hsome, ha, (htrees gcp _).2 ⟨o, artifacts, ?_, ha, rfl⟩, ?_⟩
  · exact ⟨[], [loneOutcome], rfl, by simpa using hlone⟩
  · refine Option.eq_none_iff_forall_ne_some.2 fun u hu ↦ ?_
    obtain ⟨o', d, hlast, hd, -⟩ := (hcomposition u).1 hu
    rcases (@prevails_concat [o] loneOutcome o' _).1 hlast with rfl | ⟨⟨-, hpartial⟩, -⟩
    · rw [hcomplete.1] at hd
      cases hd
    · rw [hcomplete.2] at hpartial
      cases hpartial

end Pair

section Slash

open Pipeline (fresh lone)
open Shipped (aws gcp)

def crossGraph : ResourceGraph :=
  ⟨"default/w/../aws_w/../gcp_w/x", [ResourceGraph.computeNode lone 0]⟩

/-- With a slash in the name a tree can come to stand at the place of that of another target. -/
theorem not_emitted_exactly_of_slash : ¬ ∀ (out : Path) (g : ResourceGraph) (o : Outcome)
    (ps : List Path) (root root' : Tree), g.Accepted → Vacant out root → Synthesized g o →
    (writeOutcome out g.name o).run.run root = (.ok ps, root') → ∀ t ∉ o.artifacts,
    DiskOp.findAt root' (out.join (Artifact.treeName t g.name)) = none := by
  intro hall
  let o := fresh crossGraph (planOf crossGraph aws)
  obtain ⟨ps, hrun⟩ := @run_of_isOk _ _ emptyOut (writeOutcome ⟨"out"⟩ crossGraph.name o)
    (by decide +kernel)
  have hnone := hall ⟨"out"⟩ crossGraph o ps emptyOut _ (ResourceGraph.accepted_singleton _ rfl)
    vacant_emptyOut (synthesized_planOf (by decide +kernel) crossGraph) hrun gcp (by decide +kernel)
  have hfound : (DiskOp.findAt ((writeOutcome ⟨"out"⟩ crossGraph.name o).run.run emptyOut).2
      ((⟨"out"⟩ : Path).join (Artifact.treeName gcp crossGraph.name))).isSome = true := by
    decide +kernel
  rw [hnone] at hfound
  cases hfound

end Slash

end Emission

end Multicloud

import Multicloud.Proofs.Command.Stages
import Multicloud.Proofs.Emission.Workloads
import Multicloud.Proofs.Run.Reuse

namespace Multicloud

open Script

/-- What every outcome is, where the cache holds only runs for the same targets. -/
structure Outcome.Fits (targets : List Provider) (o : Outcome) : Prop where
  plain : o.stored.Plain
  mem_targets : ∀ t ∈ o.artifacts, t ∈ targets
  complete : o.isComplete = true → o.stored.For targets

namespace Pipeline

variable {p : Pipeline} {x : Call} {c : RunCache} {root root' : Tree} {o : Outcome}

/-- The runs that a cache offers for a call are runs for its targets. -/
def Trusted (p : Pipeline) (x : Call) (c : RunCache) (root : Tree) : Prop :=
  ∀ plan run, p.plan x.graph x.targets = .ok plan →
    c.Offers root (plan.binding.key p.digest plan.graphHash) run → run.For x.targets

theorem Ran.fits (h : Ran p x c root (.ok o) root') (hr : p.registry.Loaded)
    (htrusted : Trusted p x c root) : o.Fits x.targets := by
  cases h with
  | @reused plan run hplan hu hrun =>
    have hfor := htrusted plan run hplan.plan_eq hrun
    exact ⟨hfor.toPlain, fun t ht ↦ (hfor.mem_artifacts t).1 ht, fun _ ↦ hfor⟩
  | worked hplan hw hdir hkeep =>
    have hj := hplan.judged hw
    exact ⟨hj.plain hr, fun t ht ↦ (hj.mem_artifacts.1 ht).1, hj.stored_for hr hplan.targets_ne⟩

theorem Ran.targets_ne (h : Ran p x c root (.ok o) root') : x.targets ≠ [] := by
  cases h with
  | reused hplan hu hrun => exact hplan.targets_ne
  | worked hplan hw hdir hkeep => exact hplan.targets_ne

end Pipeline

namespace Emission

variable {out : Path} {workload : String} {targets : List Provider} {o : Outcome} {root : Tree}

/-- All that was asked for is on the disk: a tree for each target, and the composition of several
ones. -/
structure Delivered (out : Path) (workload : String) (targets : List Provider) (o : Outcome)
    (root : Tree) : Prop where
  trees : ∀ t ∈ targets, ∃ artifacts, o.artifacts[t]? = some artifacts ∧
    Written out workload t artifacts root
  composition : (∃ t ∈ targets, ∃ t' ∈ targets, t ≠ t') → ∃ d, o.composition = some d ∧
    root.get? (compositionPlace out ++ [Composition.standardName]) = some (.file d.body.toUTF8)

theorem delivered_of_writeOutcome {disk : Tree} (hw : '/' ∉ workload.toList)
    (ho : o.stored.For targets) {ps : List Path}
    (hl : Leads (writeOutcome out workload o).run disk (.ok ps) root) :
    Delivered out workload targets o root := by
  obtain ⟨htrees, hfile⟩ := written_of_writeOutcome hw ho.toPlain hl
  constructor
  · intro t ht
    have hmem := (ho.mem_artifacts t).2 ht
    rw [Std.ExtTreeMap.mem_iff_isSome_getElem?, Option.isSome_iff_exists] at hmem
    obtain ⟨artifacts, ha⟩ := hmem
    exact ⟨artifacts, ha, htrees t artifacts ha⟩
  · intro htwo
    obtain ⟨d, hd⟩ := Option.isSome_iff_exists.1 (ho.composition_isSome htwo)
    exact ⟨d, hd, (hfile d hd).1⟩

end Emission

namespace Command

open Emission (treePlace Written Delivered writeOutcome)

variable {now : Instant} {args : SynthesizeArgs} {i : Inputs} {root root₁ root₂ root' : Tree}
  {o : Outcome} {previous : Option LockEntry}

/-- The log, the cache and the output are apart. -/
structure Inputs.Disjoint (args : SynthesizeArgs) (i : Inputs) : Prop where
  lock_cache : Tree.Apart i.settings.lock.names i.settings.cache.names
  lock_out : Tree.Apart i.settings.lock.names (i.out args).names
  cache_out : Tree.Apart i.settings.cache.names (i.out args).names

/-- The ways to the log, the cache and the output do not lead through the trees either. -/
structure Inputs.Separate (args : SynthesizeArgs) (i : Inputs) : Prop extends
    i.Disjoint args where
  lock_way : ∀ t ∈ i.targets args, ∀ place ∈ i.settings.lock.trail,
    ¬ treePlace (i.out args) i.graph.name t <+: place
  cache_way : ∀ t ∈ i.targets args, ∀ place ∈ i.settings.cache.trail,
    ¬ treePlace (i.out args) i.graph.name t <+: place
  out_way : ∀ t ∈ i.targets args, ∀ place ∈ (i.out args).trail,
    ¬ treePlace (i.out args) i.graph.name t <+: place

namespace Inputs.Separate

variable (hs : i.Separate args)

include hs

theorem apart_lock (t : Provider) :
    Tree.Apart i.settings.lock.names (treePlace (i.out args) i.graph.name t) :=
  Tree.apart_comm.1 ((Tree.apart_comm.1 hs.lock_out).append _)

theorem apart_cache (t : Provider) : ∀ place ∈ (i.cache args).places,
    Tree.Apart place (treePlace (i.out args) i.graph.name t) := by
  unfold Inputs.cache
  split
  · exact nofun
  · intro place hmem
    rw [List.mem_singleton.1 hmem]
    exact Tree.apart_comm.1 ((Tree.apart_comm.1 hs.cache_out).append _)

theorem way_cache {t : Provider} (ht : t ∈ i.targets args) : ∀ place ∈ (i.cache args).way,
    ¬ treePlace (i.out args) i.graph.name t <+: place := by
  unfold Inputs.cache
  split
  · exact nofun
  · exact hs.cache_way t ht

theorem get?_of_ran {result : Except SynthesisError Outcome}
    (h : Pipeline.Ran i.pipeline (i.call args previous) (i.cache args) root result root')
    {t : Provider} (ht : t ∈ i.targets args) :
    root'.get? (treePlace (i.out args) i.graph.name t) =
      root.get? (treePlace (i.out args) i.graph.name t) := by
  obtain ⟨s, s', honly, hr⟩ := h.exists_only rfl
  exact honly.get?_eq (hs.apart_cache t)
    (fun place hmem hp ↦ absurd hp (hs.way_cache ht place hmem)) hr

theorem fileAt?_of_ran {result : Except SynthesisError Outcome}
    (h : Pipeline.Ran i.pipeline (i.call args previous) (i.cache args) root result root') :
    root'.fileAt? i.settings.lock.names = root.fileAt? i.settings.lock.names := by
  obtain ⟨s, s', honly, hr⟩ := h.exists_only rfl
  refine honly.fileAt?_eq (fun place hmem ↦ ?_) hr
  unfold Inputs.cache at hmem
  split at hmem
  · cases hmem
  · rw [List.mem_singleton.1 hmem]
    exact hs.lock_cache.2

theorem get?_of_writeOutcome (hw : '/' ∉ i.graph.name.toList) (ho : o.Fits (i.targets args))
    {s : Script (Except EmitError (List Path))}
    (hr : Reaches (writeOutcome (i.out args) i.graph.name o).run root s root') {t : Provider}
    (ht : t ∈ i.targets args) (hother : t ∉ o.artifacts) :
    root'.get? (treePlace (i.out args) i.graph.name t) =
      root.get? (treePlace (i.out args) i.graph.name t) := by
  refine (Emission.onlyOr_writeOutcome (i.out args) hw ho.plain).get?_eq
    (Emission.apart_allPlaces fun h ↦ hother (Std.ExtTreeMap.mem_keys.1 h.2))
    (fun place hmem hp ↦ absurd hp (hs.out_way t ht place hmem)) hr

theorem fileAt?_of_writeOutcome (hw : '/' ∉ i.graph.name.toList) (ho : o.Fits (i.targets args))
    {s : Script (Except EmitError (List Path))}
    (hr : Reaches (writeOutcome (i.out args) i.graph.name o).run root s root') :
    root'.fileAt? i.settings.lock.names = root.fileAt? i.settings.lock.names := by
  refine (Emission.onlyOr_writeOutcome (i.out args) hw ho.plain).fileAt?_eq
    (fun place hmem hp ↦ ?_) hr
  exact hs.lock_out.2 ((Emission.prefix_of_mem_allPlaces hmem).trans hp)

theorem get?_of_commit {graphHash : String} {b : Binding} {targets : List Provider}
    {answer : Except LockError LockEntry}
    (hl : Leads (i.log.commit now i.graph.workload graphHash b targets) root answer root')
    {t : Provider} (ht : t ∈ i.targets args) :
    root'.get? (treePlace (i.out args) i.graph.name t) =
      root.get? (treePlace (i.out args) i.graph.name t) := by
  refine (i.log.only_commit now i.graph.workload graphHash b targets).get?_eq
    (fun place hmem ↦ ?_) (fun place hmem hp ↦ absurd hp (hs.lock_way t ht place hmem)) hl.reaches
  rw [List.mem_singleton.1 hmem]
  exact hs.apart_lock t

end Inputs.Separate

/-- What an outcome leaves on the disk, whether all of it could be written or not. The log has at
most one line more, and that only when all that was asked for was there before. -/
structure Inputs.Settled (now : Instant) (args : SynthesizeArgs) (i : Inputs) (o : Outcome)
    (root : Tree) (written : Except EmitError (List Path)) (root₂ root' : Tree) : Prop where
  log : root'.fileAt? i.log.path.names = root.fileAt? i.log.path.names ∨
    ∃ line, line =
        (LockLog.entry now i.graph.workload o.graphHash o.binding (i.targets args)).toJson.line ∧
      '\n' ∉ line.toList ∧ i.log.Adds root line root' ∧ written.isOk = true ∧
      o.isComplete = true ∧ Delivered (i.out args) i.graph.name (i.targets args) o root₂
  trees : written.isOk = true → ∀ (t : Provider) artifacts, o.artifacts[t]? = some artifacts →
    Written (i.out args) i.graph.name t artifacts root'
  others : ∀ t ∈ i.targets args, t ∉ o.artifacts →
    root'.get? (treePlace (i.out args) i.graph.name t) =
      root.get? (treePlace (i.out args) i.graph.name t)

/-- What a command has told and left behind when it is over. -/
inductive Disciplined (now : Instant) (args : SynthesizeArgs) (root : Tree) : Report → Tree → Prop
  | unloaded {e : CommandError} (hload : Leads (Inputs.load args).run root (.error e) root) :
      Disciplined now args root { lines := [], failure := some e } root
  | idle {i : Inputs} (hload : Leads (Inputs.load args).run root (.ok i) root)
      (ht : i.targets args = []) :
      Disciplined now args root { lines := [], failure := some (.synthesis .noTargets) } root
  | worked {i : Inputs} {previous : Option LockEntry} {o : Outcome} {root₁ root₂ root' : Tree}
      {written : Except EmitError (List Path)} {report : Report}
      (hload : Leads (Inputs.load args).run root (.ok i) root) (ht : i.targets args ≠ [])
      (hran : Pipeline.Ran i.pipeline (i.call args previous) (i.cache args) root (.ok o) root₁)
      (hwrite : Leads (writeOutcome (i.out args) i.graph.name o).run root₁ written root₂)
      (hreport : report.failure = none ↔ written.isOk = true ∧ o.isComplete = true)
      (hsettled : i.Separate args →
        Pipeline.Trusted i.pipeline (i.call args previous) (i.cache args) root →
        i.Settled now args o root written root₂ root') :
      Disciplined now args root report root'

section Settled

variable {document : ByteArray} {written : Except EmitError (List Path)}
  (hw : '/' ∉ i.graph.name.toList) (hs : i.Separate args) (ho : o.Fits (i.targets args))
  (hran : Pipeline.Ran i.pipeline (i.call args previous) (i.cache args) root (.ok o) root₁)

include hw hs ho hran

theorem settled_of_stopped {e : EmitError}
    (hwrite : Leads (writeOutcome (i.out args) i.graph.name o).run root₁ (.error e) root₂) :
    i.Settled now args o root (.error e) root₂ root₂ where
  log := by
    left
    rw [Inputs.log, hs.fileAt?_of_writeOutcome hw ho hwrite.reaches, hs.fileAt?_of_ran hran]
  trees := nofun
  others t ht hother := by
    rw [hs.get?_of_writeOutcome hw ho hwrite.reaches ht hother, hs.get?_of_ran hran ht]

theorem settled_of_written {ps : List Path} {recorded : List String}
    (hwrite : Leads (writeOutcome (i.out args) i.graph.name o).run root₁ (.ok ps) root₂)
    (hrecord : Leads (recordRun i.log now i.graph o (i.targets args)) root₂ recorded root') :
    i.Settled now args o root (.ok ps) root₂ root' := by
  have hlog : root₂.fileAt? i.log.path.names = root.fileAt? i.log.path.names := by
    rw [Inputs.log, hs.fileAt?_of_writeOutcome hw ho hwrite.reaches, hs.fileAt?_of_ran hran]
  have htrees := (Emission.written_of_writeOutcome hw ho.plain hwrite).1
  have hothers {t : Provider} (ht : t ∈ i.targets args) (hother : t ∉ o.artifacts) :
      root₂.get? (treePlace (i.out args) i.graph.name t) =
        root.get? (treePlace (i.out args) i.graph.name t) := by
    rw [hs.get?_of_writeOutcome hw ho hwrite.reaches ht hother, hs.get?_of_ran hran ht]
  have hmem {t : Provider} {artifacts : List Artifact} (ha : o.artifacts[t]? = some artifacts) :
      t ∈ i.targets args :=
    ho.mem_targets t (Std.ExtTreeMap.mem_iff_isSome_getElem?.2 (by rw [ha]; rfl))
  rcases leads_recordRun hrecord with ⟨hc, answer, hcommit⟩ | rfl
  · refine ⟨?_, fun _ t artifacts ha ↦ ?_, fun t ht hother ↦ ?_⟩
    · rcases LockLog.leads_commit hcommit with hsame | hadds
      · exact .inl (hsame.trans hlog)
      · refine .inr ⟨_, rfl, ?_, ?_, rfl, hc,
          Emission.delivered_of_writeOutcome hw (ho.complete hc) hwrite⟩
        · rw [Json.Value.line, String.toList_ofList]
          exact LockEntry.newline_not_mem_compact _
        · rwa [LockLog.Adds, ← hlog]
    · exact (htrees t artifacts ha).of_get?_eq (hs.get?_of_commit hcommit (hmem ha))
    · rw [hs.get?_of_commit hcommit ht, hothers ht hother]
  · exact ⟨.inl hlog, fun _ ↦ htrees, fun t ht ↦ hothers ht⟩

end Settled

theorem failure_report_eq_none {recorded : List String} :
    (i.report args o recorded).failure = none ↔ o.isComplete = true := by
  rw [← Pipeline.check_eq_ok, Inputs.report]
  cases o.check <;> simp

section Lone

open Pipeline (lone loneDocument loneGraph lonePlan epoch reused shipped ofBytes_loneDocument
  build_lone)

deriving instance DecidableEq for Settings

def pinsText : String := "[registry.pins]\naws = \"1.0.0\"\ngcp = \"9.0.0\"\n"

def absent : Version := ⟨"9.0.0", [9, 0, 0], by decide⟩

def bothPins : Binding := .of [(Shipped.aws, Shipped.v1), (Shipped.gcp, absent)]

/-- The lone document is there, and settings that pin versions. -/
structure IsLone (args : SynthesizeArgs) (root : Tree) : Prop where
  config : args.config = Settings.standardPath
  settings : DiskOp.readFile root args.config = .ok pinsText.toUTF8
  document : DiskOp.readFile root args.file = .ok loneDocument

def loneInputs (pins : Binding) : Inputs := ⟨{ pins }, lone, loneGraph, Registry.builtin⟩

theorem ofText_pinsText :
    Settings.ofText Settings.standardPath pinsText = .ok { pins := bothPins } := by
  decide +kernel

theorem relativeTo_standardPath (s : Settings) :
    s.relativeTo (Settings.standardPath.parent?.getD ⟨""⟩) = s := by
  have hbase : Settings.standardPath.parent?.getD ⟨""⟩ = ⟨""⟩ := by decide +kernel
  have hjoin (p : Path) : (⟨""⟩ : Path).join p.text = p := if_pos (by simp)
  rw [hbase, Settings.relativeTo]
  simp only [hjoin, List.map_id']

theorem IsLone.eq_of_leads_loadSettings (h : IsLone args root) {settings : Settings}
    (hl : Leads (loadSettings args.config).run root (.ok settings) root') :
    root' = root ∧ ∃ pins, settings = { pins } := by
  obtain ⟨read, root₁, hread, hdone⟩ := leads_bindOr_ok.1 hl
  obtain ⟨hsame, rfl⟩ := leads_pureOr.1 hdone
  cases hsame
  obtain ⟨text, root₂, htext, hload⟩ := leads_bind.1 (leads_mapError_ok.1 hread)
  obtain ⟨answer, root₃, hbytes, htext⟩ := leads_bind.1 htext
  obtain ⟨rfl, hanswer⟩ := leads_read hbytes
  obtain ⟨rfl, pins, rfl⟩ : root' = root₃ ∧ ∃ pins, read = { pins } := by
    rcases hanswer with rfl | ⟨e, rfl⟩
    · rw [h.settings] at htext
      dsimp only at htext
      rw [fromUTF8?_toUTF8] at htext
      obtain ⟨rfl, rfl⟩ := leads_pure.1 htext
      obtain ⟨heq, rfl⟩ := leads_pure.1 hload
      rw [h.config, ofText_pinsText] at heq
      exact ⟨rfl, bothPins, Except.ok.inj heq⟩
    · obtain ⟨rfl, rfl⟩ := leads_pure.1 htext
      split at hload
      · next heq => cases heq
      · obtain ⟨heq, rfl⟩ := leads_pure.1 hload
        exact ⟨rfl, ∅, Except.ok.inj heq⟩
      · obtain ⟨heq, -⟩ := leads_pure.1 hload
        cases heq
  rw [h.config]
  exact ⟨rfl, pins, relativeTo_standardPath { pins }⟩

theorem IsLone.eq_of_leads_load (h : IsLone args root)
    (hl : Leads (Inputs.load args).run root (.ok i) root') : ∃ pins, i = loneInputs pins := by
  obtain ⟨settings, root₁, hsettings, hrest⟩ := leads_bindOr_ok.1 hl
  obtain ⟨rfl, pins, rfl⟩ := h.eq_of_leads_loadSettings hsettings
  obtain ⟨spec, root₂, hspec, hrest⟩ := leads_bindOr_ok.1 hrest
  obtain ⟨answer, root₃, hbytes, hload⟩ := leads_bind.1 (leads_mapError_ok.1 hspec)
  obtain ⟨rfl, rfl | ⟨e, rfl⟩⟩ := leads_read hbytes
  · rw [h.document] at hload
    obtain ⟨heq, rfl⟩ := leads_pure.1 hload
    rw [ofBytes_loneDocument] at heq
    cases heq
    obtain ⟨graph, root₃, hgraph, hrest⟩ := leads_bindOr_ok.1 hrest
    obtain ⟨heq, rfl⟩ := leads_pure.1 hgraph
    rw [build_lone] at heq
    cases heq
    obtain ⟨registry, root₄, hregistry, hdone⟩ := leads_bindOr_ok.1 hrest
    obtain ⟨heq, rfl⟩ := leads_pureOr.1 hregistry
    cases heq
    obtain ⟨heq, -⟩ := leads_pureOr.1 hdone
    exact ⟨pins, Except.ok.inj heq⟩
  · obtain ⟨heq, -⟩ := leads_pure.1 hload
    cases heq

theorem attempt_loadSpec (h : DiskOp.readFile root args.file = .ok loneDocument) :
    attempt (loadSpec args.file) root = (.ok lone, root) := by
  rw [loadSpec, attempt_part, WorkloadSpec.run_load h, ofBytes_loneDocument]
  rfl

theorem attempt_loadSettings {text : String} {settings : Settings}
    (hread : DiskOp.readFile root Settings.standardPath = .ok text.toUTF8)
    (htext : Settings.ofText Settings.standardPath text = .ok settings) :
    attempt (loadSettings Settings.standardPath) root = (.ok settings, root) := by
  have hat : textAt root Settings.standardPath = .ok text := textAt_of_readFile hread
  have hload : (Settings.load Settings.standardPath).run root = (.ok settings, root) := by
    rw [Settings.load, run_bind, run_readText, hat]
    dsimp only
    rw [run_pure, htext]
  rw [loadSettings, attempt_bind, attempt_part, hload]
  dsimp only [Except.mapError]
  rw [relativeTo_standardPath]
  rfl

theorem attempt_buildGraph : attempt (buildGraph lone) root = (.ok loneGraph, root) := by
  rw [buildGraph, build_lone]
  rfl

theorem IsLone.attempt_load (h : IsLone args root) :
    attempt (Inputs.load args) root = (.ok (loneInputs bothPins), root) := by
  have hsettings : attempt (loadSettings args.config) root = (.ok { pins := bothPins }, root) := by
    have hread := h.settings
    rw [h.config] at hread ⊢
    exact attempt_loadSettings hread ofText_pinsText
  rw [Inputs.load, attempt_bind_ok hsettings, attempt_bind_ok (attempt_loadSpec h.document),
    attempt_bind_ok attempt_buildGraph]
  rfl

def loneArgs : SynthesizeArgs where
  file := standardWorkload
  targets := [Shipped.aws]
  out := none
  force := false
  sequential := false
  noCache := false
  config := Settings.standardPath

def loneDisk : Tree :=
  .dir [("nebulaforge.toml", .file pinsText.toUTF8), ("workload.yaml", .file loneDocument)]

theorem isLone_loneDisk : IsLone loneArgs loneDisk :=
  ⟨rfl, DiskOp.readFile_eq_ok_iff.2 ⟨rfl, rfl, rfl⟩, DiskOp.readFile_eq_ok_iff.2 ⟨rfl, rfl, rfl⟩⟩

def quickArgs : SynthesizeArgs := { loneArgs with noCache := true }

theorem isLone_quickArgs : IsLone quickArgs loneDisk :=
  ⟨rfl, isLone_loneDisk.settings, isLone_loneDisk.document⟩

theorem disjoint_loneInputs (pins : Binding) {name : String}
    (hout : ((loneInputs pins).out args).names = [name]) (hlock : name ≠ "nebulaforge.lock")
    (hcache : name ≠ ".nebulaforge") : (loneInputs pins).Disjoint args := by
  have hlockNames : LockLog.standardPath.names = ["nebulaforge.lock"] := LockLog.names_standardPath
  have hcacheNames : (⟨".nebulaforge/cache"⟩ : Path).names = [".nebulaforge", "cache"] := rfl
  constructor
  · change Tree.Apart LockLog.standardPath.names (⟨".nebulaforge/cache"⟩ : Path).names
    rw [hlockNames, hcacheNames]
    simp [Tree.Apart]
  · change Tree.Apart LockLog.standardPath.names _
    rw [hlockNames, hout]
    simp [Tree.Apart, hlock, hlock.symm]
  · change Tree.Apart (⟨".nebulaforge/cache"⟩ : Path).names _
    rw [hcacheNames, hout]
    simp [Tree.Apart, hcache, hcache.symm]

theorem names_outputs : (⟨"outputs"⟩ : Path).names = ["outputs"] := by decide +kernel

theorem place_aws : treePlace ⟨"outputs"⟩ loneGraph.name Shipped.aws = ["outputs", "aws_w"] := by
  decide +kernel

theorem separate_quickArgs (pins : Binding) : (loneInputs pins).Separate quickArgs := by
  have hways : ∀ p ∈ [(⟨"nebulaforge.lock"⟩ : Path), ⟨".nebulaforge/cache"⟩, ⟨"outputs"⟩],
      ∀ place ∈ p.trail, ¬ ["outputs", "aws_w"] <+: place := by
    decide +kernel
  rw [← place_aws] at hways
  exact ⟨disjoint_loneInputs pins names_outputs (by decide) (by decide),
    List.forall_mem_singleton.2 (hways ⟨"nebulaforge.lock"⟩ (by simp)),
    List.forall_mem_singleton.2 (hways ⟨".nebulaforge/cache"⟩ (by simp)),
    List.forall_mem_singleton.2 (hways ⟨"outputs"⟩ (by simp))⟩

theorem report_quickArgs :
    ((run epoch (.synthesize quickArgs)).run loneDisk).1.failure = none := by
  have hnone : ((proceed epoch quickArgs (loneInputs bothPins)).report.run
      loneDisk).1.failure.isNone = true := by decide +kernel
  rw [run_synthesize isLone_quickArgs.attempt_load]
  exact Option.isNone_iff_eq_none.1 hnone

/-- A disk with an entry for the run to come and a cache file without anything in it. -/
def forgedDisk : Tree :=
  .dir [(".nebulaforge", .dir [("cache", .dir
      [(RunCache.fileName (lonePlan.binding.key Digest.blake3 lonePlan.graphHash),
        .file (StoredRun.text ⟨∅, none⟩).toUTF8)])]),
    ("nebulaforge.lock", .file ((LockLog.entry epoch loneGraph.workload
      lonePlan.graphHash lonePlan.binding [Shipped.aws]).toJson.line ++ "\n").toUTF8),
    ("nebulaforge.toml", .file pinsText.toUTF8), ("workload.yaml", .file loneDocument)]

theorem isLone_forgedDisk : IsLone loneArgs forgedDisk :=
  ⟨rfl, DiskOp.readFile_eq_ok_iff.2 ⟨rfl, rfl, rfl⟩, DiskOp.readFile_eq_ok_iff.2 ⟨rfl, rfl, rfl⟩⟩

def forgedEntry : LockEntry :=
  LockLog.entry epoch loneGraph.workload lonePlan.graphHash lonePlan.binding [Shipped.aws]

theorem textAt_forged : textAt forgedDisk LockLog.standardPath =
    .ok ("" ++ (forgedEntry.toJson.line ++ "\n")) :=
  textAt_of_readFile (DiskOp.readFile_eq_ok_iff.2 ⟨rfl, by rw [String.empty_append]; rfl, rfl⟩)

theorem before_forged : (loneInputs bothPins).before loneArgs forgedDisk = some forgedEntry := by
  have hhistory := @LockLog.run_history_of_textAt ⟨LockLog.standardPath⟩ _ _ _ textAt_forged
    (@LockLog.entries_append_line [] _ (.inl rfl) rfl forgedEntry)
  have hprevious := ((LockLog.run_of_history hhistory).2 loneGraph.workload).2
  refine Inputs.before_of_run (i := loneInputs bothPins) rfl ?_
  exact hprevious.trans rfl

theorem planned_bothPins :
    Pipeline.Planned (shipped bothPins) loneGraph [Shipped.aws] lonePlan where
  graphHash := rfl
  requested := by decide +kernel
  requested_ne := by decide
  binding := by decide +kernel
  unbound := by decide +kernel

theorem has_forged : RunCache.Has (.inDir ⟨".nebulaforge/cache"⟩) forgedDisk
    (lonePlan.binding.key Digest.blake3 lonePlan.graphHash) ⟨∅, none⟩ where
  memory run he := by simp [RunCache.inDir] at he
  present hd := by cases hd
  file d hd := by
    obtain rfl := Option.some.inj hd
    have hkey : Digest.IsDigest (lonePlan.binding.key Digest.blake3 lonePlan.graphHash) :=
      Pipeline.isDigest_key_of_digest (p := shipped bothPins) rfl _ _
    have hname := RunCache.isName_fileName hkey
    have hcache : forgedDisk.get? [".nebulaforge", "cache"] = some (.dir
        [(RunCache.fileName (lonePlan.binding.key Digest.blake3 lonePlan.graphHash),
          .file (StoredRun.text ⟨∅, none⟩).toUTF8)]) := rfl
    have hd : (⟨".nebulaforge/cache"⟩ : Path).Fits := ⟨by decide, by decide, by decide, by decide⟩
    have hdirs : forgedDisk.Dirs (⟨".nebulaforge/cache"⟩ : Path).trail := by decide
    have hread : DiskOp.readFile forgedDisk ((⟨".nebulaforge/cache"⟩ : Path).join
        (RunCache.fileName (lonePlan.binding.key Digest.blake3 lonePlan.graphHash))) =
          .ok (StoredRun.text ⟨∅, none⟩).toUTF8 := by
      refine DiskOp.readFile_eq_ok_iff.2 ⟨Tree.place_eq_ok_iff.2
        ⟨RunCache.fits_file hkey hd (by decide), (Tree.dirs_trail_join hname).2 hdirs, rfl⟩, ?_,
        Path.asksDirectory_join _ hname⟩
      rw [RunCache.names_file _ hkey]
      have hnames : (⟨".nebulaforge/cache"⟩ : Path).names = [".nebulaforge", "cache"] := rfl
      rw [hnames, Tree.get?_append, hcache, Option.bind_some, Tree.get?_dir_cons, Tree.find,
        if_pos rfl]
      rfl
    rw [RunCache.inFile?, hread, Except.toOption, Option.bind_some, RunCache.decode_toUTF8_text]

theorem call_forged (manner : Pipeline.Manner) : ∃ c, ((shipped bothPins).call
    (.inDir ⟨".nebulaforge/cache"⟩) ⟨loneGraph, [Shipped.aws], some forgedEntry, manner⟩).run
      forgedDisk = ((.ok (reused lonePlan ⟨∅, none⟩), c), forgedDisk) := by
  have hcovers : forgedEntry.covers lonePlan.graphHash lonePlan.binding = true :=
    Pipeline.Planned.covers_entry (x := Pipeline.loneCall) planned_bothPins rfl
      (fun _ ↦ Iff.rfl) epoch loneGraph.workload
  exact Pipeline.run_call_of_has (p := shipped bothPins)
    (x := ⟨loneGraph, [Shipped.aws], some forgedEntry, manner⟩) planned_bothPins.plan_eq rfl rfl
    hcovers has_forged

theorem attempt_writeOutcome_forged : attempt (writeOutcome ⟨"outputs"⟩ loneGraph.name
    (reused lonePlan ⟨∅, none⟩)) forgedDisk = (.ok [], forgedDisk) := by
  rfl

theorem run_forged : ∃ report root' e,
    (run epoch (.synthesize loneArgs)).run forgedDisk = (report, root') ∧
      (LockLog.commit ⟨LockLog.standardPath⟩ epoch loneGraph.workload lonePlan.graphHash
        lonePlan.binding [Shipped.aws]).run forgedDisk = (.ok e, root') := by
  obtain ⟨e, root', hcommit⟩ := @LockLog.commit_of_file ⟨LockLog.standardPath⟩ forgedDisk epoch
    loneGraph.workload lonePlan.graphHash lonePlan.binding [Shipped.aws] rfl rfl rfl _ rfl
  obtain ⟨c, hcall⟩ := call_forged ((loneInputs bothPins).manner loneArgs)
  have hcomplete : (reused lonePlan ⟨∅, none⟩).isComplete = true := rfl
  obtain ⟨recorded, hrecord⟩ : ∃ recorded, (recordRun ⟨LockLog.standardPath⟩ epoch loneGraph
      (reused lonePlan ⟨∅, none⟩) [Shipped.aws]).run forgedDisk = (recorded, root') := by
    refine ⟨_, Prod.ext rfl ?_⟩
    have hrun : (LockLog.commit ⟨LockLog.standardPath⟩ epoch loneGraph.workload
        (reused lonePlan ⟨∅, none⟩).graphHash (reused lonePlan ⟨∅, none⟩).binding
        [Shipped.aws]).run forgedDisk = (.ok e, root') := hcommit
    rw [recordRun, if_pos hcomplete, run_bind, hrun]
    rfl
  have hcalled : ((loneInputs bothPins).pipeline.call ((loneInputs bothPins).cache loneArgs)
      ((loneInputs bothPins).call loneArgs ((loneInputs bothPins).before loneArgs
        forgedDisk))).run forgedDisk = ((.ok (reused lonePlan ⟨∅, none⟩), c), forgedDisk) := by
    rw [before_forged]
    exact hcall
  have hconclude : attempt ((loneInputs bothPins).conclude epoch loneArgs
      (reused lonePlan ⟨∅, none⟩)) forgedDisk =
        (.ok ((loneInputs bothPins).report loneArgs (reused lonePlan ⟨∅, none⟩) recorded),
          root') := by
    have hwrite : attempt (writeOutcome ((loneInputs bothPins).out loneArgs)
        (loneInputs bothPins).graph.name (reused lonePlan ⟨∅, none⟩)) forgedDisk =
          (.ok [], forgedDisk) := attempt_writeOutcome_forged
    have hrecorded : (recordRun (loneInputs bothPins).log epoch (loneInputs bothPins).graph
        (reused lonePlan ⟨∅, none⟩) ((loneInputs bothPins).targets loneArgs)).run forgedDisk =
          (recorded, root') := hrecord
    rw [attempt_conclude, hwrite]
    dsimp only
    rw [hrecorded]
  have hproceed : attempt (proceed epoch loneArgs (loneInputs bothPins)) forgedDisk =
      (.ok ((loneInputs bothPins).report loneArgs (reused lonePlan ⟨∅, none⟩) recorded),
        root') := by
    rw [attempt_proceed, hcalled]
    exact hconclude
  have hrun := @run_synthesize epoch _ _ _ isLone_forgedDisk.attempt_load
  exact ⟨_, root', e, hrun.trans (run_report hproceed), hcommit⟩

/-- A way to the output through the tree of a target that there are no rules for. -/
def roundArgs : SynthesizeArgs :=
  { quickArgs with
    targets := [Shipped.gcp, Shipped.aws], out := some ⟨"o/gcp_w/sub/../.."⟩ }

theorem isLone_roundArgs : IsLone roundArgs loneDisk :=
  ⟨rfl, isLone_loneDisk.settings, isLone_loneDisk.document⟩

end Lone

end Command

end Multicloud

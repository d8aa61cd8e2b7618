import Multicloud.Proofs.Command.Reuse
import Multicloud.Proofs.Command.Synthesize
import Multicloud.Proofs.Registry.Run

namespace Multicloud

open Script

namespace Registry

variable {g g₁ g₂ : Registry} {set set' : RuleSet}

theorem agrees_of_register (h : g.register set = .ok g₁) (h' : g.register set' = .ok g₂)
    (hsame : set.provider = set'.provider → set.version = set'.version → set = set') :
    g₁.Agrees g₂ := by
  intro t v s s' hs hs'
  rcases (ruleSet_of_register_eq_ok h).1 hs with hold | ⟨rfl, rfl, rfl⟩
  · rcases (ruleSet_of_register_eq_ok h').1 hs' with hold' | ⟨rfl, rfl, rfl⟩
    · exact Except.ok.inj (hold.symm.trans hold')
    · exact absurd hold (not_ruleSet_of_register h')
  · rcases (ruleSet_of_register_eq_ok h').1 hs' with hold' | ⟨rfl, hp, hv⟩
    · exact absurd hold' (not_ruleSet_of_register h)
    · exact hsame hp.symm hv.symm

theorem bind_none_of_register (h : g.register set = .ok g₁)
    (hnew : ∀ v s, g.ruleSet set.provider v ≠ .ok s) :
    g₁.bind set.provider none = .ok set.version := by
  refine bind_none_eq_ok.2 ⟨⟨set, ruleSet_of_register h⟩, fun w s hs ↦ ?_⟩
  rcases (ruleSet_of_register_eq_ok h).1 hs with hold | ⟨rfl, -, rfl⟩
  · exact absurd hold (hnew w s)
  · exact .inr ⟨rfl, String.le_refl _⟩

end Registry

/-- The command that neither looks for a run before nor at what was kept. -/
def SynthesizeArgs.anew (args : SynthesizeArgs) : SynthesizeArgs :=
  { args with force := true, noCache := true }

namespace Command

open Emission (writeOutcome allPlaces)
open Pipeline (Kept Regular whole)

variable {fed : Set ByteArray} {now : Instant} {args : SynthesizeArgs} {i : Inputs}
  {root root' root₁ : Tree} {o : Outcome}

/-- What a command can count on: it digests what it is known to, its cache is clear of its other
places, and the disk is one that such commands left. -/
structure Inputs.Ready (fed : Set ByteArray) (args : SynthesizeArgs) (i : Inputs) (root : Tree) :
    Prop where
  feeds : Pipeline.Feeds fed i.pipeline i.graph (i.targets args)
  clear : i.Clear args root
  reached : i.Reached fed root

/-- Two commands end alike: with the same result, with the same told after the first line, and with
the same at some places. -/
structure EndsAlike (places : List (List String)) (r r' : Report × Tree) : Prop where
  failure : r.1.failure = r'.1.failure
  lines : r.1.lines.tail = r'.1.lines.tail
  get? : ∀ place ∈ places, r.2.get? place = r'.2.get? place

theorem EndsAlike.refl (places : List (List String)) (r : Report × Tree) : EndsAlike places r r :=
  ⟨rfl, rfl, fun _ _ ↦ rfl⟩

def ending (w : Work Report) (root : Tree) : Report × Tree :=
  (tell (attempt w root).1, (attempt w root).2)

theorem leads_ending (w : Work Report) (root : Tree) :
    Leads w.run root (attempt w root).1 (ending w root).2 := leads_run w.run root

theorem alike_ending {way places : List (List String)} {w : Work Report}
    (h : OnlyOr (DiskOp.Within way places) w) (hs : Tree.Spread places)
    (ha : Tree.Alike way places root root') :
    Tree.Alike way places (ending w root).2 (ending w root').2 := (h.run_alike hs ha).2

theorem endsAlike_conclude_mode (places : List (List String)) (o : Outcome) (mode : Mode)
    (root : Tree) : EndsAlike places (ending (i.conclude now args { o with mode }) root)
      (ending (i.conclude now args o) root) := by
  have hwrite : writeOutcome (i.out args) i.graph.name { o with mode } =
      writeOutcome (i.out args) i.graph.name o := rfl
  unfold ending
  rw [attempt_conclude, attempt_conclude, hwrite]
  rcases attempt (writeOutcome (i.out args) i.graph.name o) root with ⟨e | ps, root₁⟩
  · exact .refl _ _
  · exact ⟨rfl, rfl, fun _ _ ↦ rfl⟩

theorem Inputs.Clear.endsAlike (h : i.Clear args root) (hw : '/' ∉ i.graph.name.toList)
    (ho : o.stored.Plain) (ht : ∀ t ∈ o.artifacts, t ∈ i.targets args) :
    EndsAlike (i.places args)
      (ending (i.conclude now args o) ((i.pipeline.keep (i.cache args) o).run root).2)
      (ending (i.conclude now args o) root) := by
  obtain ⟨firm, hroot, hout, hahead⟩ := h.ahead o
  obtain ⟨hanswer, hafter⟩ :=
    Paced.run_ahead (@Inputs.pacedOr_conclude now _ _ _ _ hroot hout hw ho ht) h.spread hahead
  have htell : tell (attempt (i.conclude now args o)
      ((i.pipeline.keep (i.cache args) o).run root).2).1 =
        tell (attempt (i.conclude now args o) root).1 := congrArg tell hanswer
  exact ⟨congrArg Report.failure htell, congrArg (fun r ↦ r.lines.tail) htell, hafter.get?_place⟩

theorem run_eq_ending (h : attempt (Inputs.load args) root = (.ok i, root)) :
    (run now (.synthesize args)).run root = ending (proceed now args i) root := by
  rw [run_eq_tell, attempt_bind_ok h]
  rfl

section Plan

variable {plan : Plan} (hplan : Pipeline.Planned i.pipeline i.graph (i.targets args) plan)

include hplan

theorem assemble_manner : Pipeline.assemble i.graph plan
    ((i.manner args).work (i.pipeline.walk i.graph) plan.binding.toList) =
      whole i.pipeline i.graph plan := by
  unfold Inputs.manner
  split
  · refine congrArg (Pipeline.assemble i.graph plan)
      (Pipeline.sideBySide_plainEvents (Pipeline.nodup_toList _) fun b hb ↦ ?_)
    exact (hplan.getElem?_binding.1 (Std.ExtTreeMap.mem_toList_iff_getElem?_eq_some.1 hb)).1
  · rfl

theorem ending_proceed_cases (now : Instant) (root : Tree) :
    (∃ run c, i.before args root ≠ none ∧ plan.unbound = ∅ ∧
      ((i.cache args).get (plan.binding.key i.pipeline.digest plan.graphHash)).run root =
        ((some run, c), root) ∧
      ending (proceed now args i) root =
        ending (i.conclude now args (Pipeline.reused plan run)) root) ∨
    ending (proceed now args i) root = ending (i.conclude now args (whole i.pipeline i.graph plan))
      ((i.pipeline.keep (i.cache args) (whole i.pipeline i.graph plan)).run root).2 := by
  rcases hplan.call_cases (x := i.call args (i.before args root)) (i.cache args) root with
    ⟨run, c, hbefore, hu, hget, hcall⟩ | hcall
  · refine .inl ⟨run, c, hbefore, hu, hget, ?_⟩
    unfold ending
    rw [attempt_proceed, hcall]
  · have hwhole := @assemble_manner args _ _ hplan
    dsimp only at hcall
    right
    unfold ending
    rw [attempt_proceed, hcall]
    dsimp only
    rw [← hwhole]
    rfl

theorem ending_proceed_of_has (hu : plan.unbound = ∅) {e : LockEntry}
    (hbefore : i.before args root = some e) (hcovers : e.covers plan.graphHash plan.binding = true)
    {run : StoredRun} (hhas : RunCache.Has (i.cache args) root
      (plan.binding.key i.pipeline.digest plan.graphHash) run) (now : Instant) :
    ending (proceed now args i) root =
      ending (i.conclude now args (Pipeline.reused plan run)) root := by
  obtain ⟨c, hcall⟩ :=
    Pipeline.run_call_of_has (x := i.call args (some e)) hplan.plan_eq hu rfl hcovers hhas
  unfold ending
  rw [attempt_proceed, hbefore, hcall]

theorem onlyOr_conclude_whole (hload : attempt (Inputs.load args) root = (.ok i, root))
    (now : Instant) : OnlyOr (DiskOp.Within (i.ways args) (i.places args))
      (i.conclude now args (whole i.pipeline i.graph plan)) := by
  have hjudged := hplan.judged
    (Pipeline.worked_inTurn (i.pipeline.walk i.graph) none plan.binding.toList)
  have hloaded := (Inputs.of_leads_load (leads_of_run hload)).2.2
  exact Inputs.onlyOr_conclude (Inputs.slash_not_mem_of_load hload) (hjudged.plain hloaded)
    fun t ht ↦ (hjudged.mem_artifacts.1 ht).1

section First

variable (hload : attempt (Inputs.load args) root = (.ok i, root))
  (hbefore : i.before args root = none)

include hload hbefore

theorem run_first (now : Instant) : (run now (.synthesize args)).run root =
    ending (i.conclude now args (whole i.pipeline i.graph plan))
      ((i.pipeline.keep (i.cache args) (whole i.pipeline i.graph plan)).run root).2 := by
  rw [run_eq_ending hload]
  rcases ending_proceed_cases hplan now root with ⟨run, c, hsome, -⟩ | hending
  · exact absurd hbefore hsome
  · exact hending

theorem Inputs.Clear.alike_run (h : i.Clear args root)
    (hthere : ∀ m ∈ (i.cache args).way, m ∈ i.ways args → root.get? m ≠ none) (now : Instant) :
    Tree.Alike (i.ways args) (i.places args)
      (ending (i.conclude now args (whole i.pipeline i.graph plan)) root).2
      ((run now (.synthesize args)).run root).2 := by
  rw [run_first hplan hload hbefore]
  exact alike_ending (onlyOr_conclude_whole hplan hload now) h.spread (h.alike hthere _)

theorem alike_run_of_apart {way places : List (List String)}
    (happart : ∀ d ∈ (i.cache args).places ++ i.places args, ∀ place ∈ places, Tree.Apart d place)
    (hways : ∀ d ∈ (i.cache args).places ++ i.places args, ∀ m ∈ way, ¬ d <+: m)
    (hway : ∀ m' ∈ (i.cache args).way ++ i.ways args, ∀ place ∈ places, ¬ place <+: m')
    (hpart : ∀ m ∈ (i.cache args).way ++ i.ways args, m ∈ way → m = [])
    (hlists : ∀ base x, base ++ [x] ∈ places → root.Lists base) (now : Instant) :
    Tree.Alike way places root ((run now (.synthesize args)).run root).2 := by
  have hthere (root : Tree) := Tree.get?_ne_none_of_part hpart root
  have hkeep := (Pipeline.only_keep (p := i.pipeline) rfl (i.cache args)
    (whole i.pipeline i.graph plan)).imp fun op hop ↦
      hop.mono (List.subset_append_left _ (i.ways args)) (List.subset_append_left _ (i.places args))
  have hkept := hkeep.alike (leads_run _ root).reaches happart hways hway (hthere root) hlists
  have hconclude : OnlyOr (DiskOp.Within ((i.cache args).way ++ i.ways args)
      ((i.cache args).places ++ i.places args))
      (i.conclude now args (whole i.pipeline i.graph plan)) :=
    Only.imp (onlyOr_conclude_whole hplan hload now) fun op hop ↦
      hop.mono (List.subset_append_right _ _) (List.subset_append_right _ _)
  rw [run_first hplan hload hbefore]
  exact hkept.trans (hconclude.alike (leads_ending _ _).reaches happart hways hway (hthere _)
    fun base x hmem ↦ (hkept.lists base x hmem).2)

end First

theorem ending_anew (root : Tree) : ending (proceed now args.anew i) root =
    ending (i.conclude now args (whole i.pipeline i.graph plan)) root := by
  rcases @ending_proceed_cases args.anew _ _ hplan now root with ⟨run, c, hbefore, -⟩ | hending
  · exact absurd rfl hbefore
  · rw [hending, Pipeline.root_keep rfl]
    rfl

/-- A command that is ready concludes like that as well. -/
theorem Inputs.Ready.endsAlike (h : i.Ready fed args root) (hfed : Set.InjOn Digest.blake3 fed)
    (hload : attempt (Inputs.load args) root = (.ok i, root)) :
    EndsAlike (i.places args) (ending (proceed now args i) root)
      (ending (i.conclude now args (whole i.pipeline i.graph plan)) root) := by
  have hregular := Inputs.regular_of_load hload h.feeds
  rcases @ending_proceed_cases args _ _ hplan now root with
    ⟨run, c, -, hu, hget, hending⟩ | hending
  · have hkept : Kept (i.Past fed) (plan.binding.key i.pipeline.digest plan.graphHash) run := by
      have hsound := Inputs.sound_cache args i (fun _ ↦ Inputs.names_of_cache args i)
        (h.reached.holds hfed)
      exact (hsound.get (Pipeline.isDigest_key_of_digest rfl _ _) hget).2.2 run rfl
    obtain ⟨hcomplete, rfl⟩ := hkept.eq_stored hfed (fun _ _ _ ↦ Inputs.Past.regular) hplan
      hregular (fun _ _ _ ↦ Inputs.Past.steady) hu
    rw [hending, Pipeline.reused_stored_eq hcomplete rfl rfl]
    exact endsAlike_conclude_mode _ _ _ root
  · have hjudged := hplan.judged
      (Pipeline.worked_inTurn (i.pipeline.walk i.graph) none plan.binding.toList)
    rw [hending]
    exact h.clear.endsAlike (Inputs.slash_not_mem_of_load hload) (hjudged.plain hregular.loaded)
      fun t ht ↦ (hjudged.mem_artifacts.1 ht).1

end Plan

theorem ending_of_plan_error {e : SynthesisError}
    (h : i.pipeline.plan i.graph (i.targets args) = .error e) :
    ending (proceed now args i) root = (tell (.error (.synthesis e)), root) := by
  unfold ending
  rw [attempt_proceed, Pipeline.run_call_of_plan_error (x := i.call args (i.before args root)) h]

/-- Where no version has been given to other rules since, no tree is stale: a command ends like the
same one without reuse. -/
theorem synthesize_like_anew (hfed : Set.InjOn Digest.blake3 fed) (now : Instant)
    (args : SynthesizeArgs) (root : Tree) :
    (∀ e, attempt (Inputs.load args) root = (.error e, root) →
      (run now (.synthesize args)).run root = (run now (.synthesize args.anew)).run root) ∧
    ∀ i, attempt (Inputs.load args) root = (.ok i, root) → i.Ready fed args root →
      EndsAlike (i.places args) ((run now (.synthesize args)).run root)
        ((run now (.synthesize args.anew)).run root) := by
  constructor
  · intro e hload
    have hanew : attempt (Inputs.load args.anew) root = (.error e, root) := hload
    rw [run_eq_tell, run_eq_tell, attempt_bind, attempt_bind, hload, hanew]
  · intro i hload hready
    rw [run_eq_ending hload, @run_eq_ending _ args.anew _ _ hload]
    cases hplan : i.pipeline.plan i.graph (i.targets args) with
    | error e =>
      rw [ending_of_plan_error hplan, @ending_of_plan_error _ args.anew _ _ _ hplan]
      exact .refl _ _
    | ok plan =>
      have hplanned := Pipeline.plan_eq_ok hplan
      rw [ending_anew hplanned]
      exact hready.endsAlike hplanned hfed hload

theorem ending_conclude_of_commit (hc : o.isComplete = true) {ps : List Path} {e : LockEntry}
    (hwrite : attempt (writeOutcome (i.out args) i.graph.name o) root = (.ok ps, root₁))
    (hcommit :
      (i.log.commit now i.graph.workload o.graphHash o.binding (i.targets args)).run root₁ =
        (.ok e, root')) : (ending (i.conclude now args o) root).2 = root' := by
  unfold ending
  rw [attempt_conclude, hwrite]
  dsimp only
  rw [recordRun, if_pos hc, run_bind, hcommit]
  rfl

theorem Inputs.before_of_textAt (hforce : args.force = false) {e : LockEntry}
    (htext : textAt root i.log.path = .ok ("" ++ (e.toJson.line ++ "\n")))
    (he : e.workload = i.graph.workload) : i.before args root = some e := by
  have hhistory := LockLog.run_history_of_textAt htext
    (@LockLog.entries_append_line [] "" (.inl rfl) rfl e)
  have hprevious := ((LockLog.run_of_history hhistory).2 i.graph.workload).2
  refine i.before_of_run hforce (hprevious.trans ?_)
  simp [he, LockLog.latest]

section Acme

open Pipeline (lone loneDocument loneGraph epoch reused)

deriving instance DecidableEq for RuleDraft, RuleSetDraft

theorem isProvider_acme : Name.isProvider "acme".toList = true := by decide

theorem segments?_first : Name.segments? "1".toList = some [1] := by decide

theorem segments?_second : Name.segments? "2".toList = some [2] := by decide

def acme : Provider := ⟨"acme", isProvider_acme⟩

def firstVersion : Version := ⟨"1", [1], segments?_first⟩

def secondVersion : Version := ⟨"2", [2], segments?_second⟩

def rulesText (version : Version) (module : String) : String :=
  "provider: acme\nversion: \"" ++ version.text ++ "\"\nrules:\n  compute_node:\n" ++
  "    artifact: vm\n    module: acme/vm\n    module_version: \"" ++ module ++ "\"\n"

def acmeDraft (version : Version) (module : String) : RuleSetDraft where
  provider := acme
  version
  description := ""
  idStart := ""
  rules := [(.computeNode, ⟨"vm", "acme/vm", module, [], []⟩)]
  tables := {}

def settingsText : String := "[registry]\nextra_dirs = [\"rules\"]\n"

def rulesDir (version : Version) (module : String) : Tree :=
  .dir [("acme.yaml", .file (rulesText version module).toUTF8)]

def project (version : Version) (module : String) : Tree :=
  .dir [(".nebulaforge", .dir [("cache", .dir [])]), ("nebulaforge.lock", .file "".toUTF8),
    ("nebulaforge.toml", .file settingsText.toUTF8), ("rules", rulesDir version module),
    ("workload.yaml", .file loneDocument)]

def editions : List (Version × String) :=
  [(firstVersion, "1"), (firstVersion, "2"), (secondVersion, "2")]

def ruled (version : Version) (module : String) : Registry :=
  ⟨Registry.builtin.sets.insert acme
    ((Registry.builtin.versions acme).insert version (acmeDraft version module).finish)⟩

def acmeInputs (version : Version) (module : String) : Inputs :=
  ⟨{ extraDirs := [⟨"rules"⟩] }, lone, loneGraph, ruled version module⟩

def acmeArgs : SynthesizeArgs := { loneArgs with targets := [acme] }

variable {version : Version} {module : String} {root : Tree}

theorem isEmpty_versions_acme : (Registry.builtin.versions acme).isEmpty = true := rfl

theorem register_ruled (version : Version) (module : String) :
    Registry.builtin.register (acmeDraft version module).finish = .ok (ruled version module) := by
  refine Registry.register_eq_ok.2 ⟨?_, rfl⟩
  have hempty : Registry.builtin.versions (acmeDraft version module).finish.provider = ∅ :=
    Std.ExtTreeMap.isEmpty_iff.1 isEmpty_versions_acme
  rw [hempty]
  exact Std.ExtTreeMap.not_mem_empty

theorem read_texts :
    Settings.ofText Settings.standardPath settingsText = .ok { extraDirs := [⟨"rules"⟩] } ∧
      ∀ r ∈ editions, (RuleSetDraft.ofText (rulesText r.1 r.2)).toOption =
        some (acmeDraft r.1 r.2) ∧ (acmeDraft r.1 r.2).fault? = none := by
  have hrules (s t u v : List Char) (x y : String) :
      (String.ofList s ++ x ++ String.ofList t ++ String.ofList u ++ y ++ String.ofList v).toList =
        s ++ x.toList ++ t ++ u ++ y.toList ++ v := by
    simp only [String.toList_append, String.toList_ofList]
  have hsettings : settingsText.toList = _ := String.toList_ofList
  simp only [Settings.ofText, RuleSetDraft.ofText, hsettings,
    show ∀ version module, (rulesText version module).toList = _ from fun _ _ ↦ hrules _ _ _ _ _ _]
  decide +kernel

theorem loadText_ruled (h : (version, module) ∈ editions) :
    Registry.builtin.loadText "rules/acme.yaml" (rulesText version module) =
      .ok (ruled version module) := by
  obtain ⟨hread, hfault⟩ := read_texts.2 _ h
  rw [Registry.loadText, RuleSet.ofText_eq_ok (toOption_eq_some.1 hread) hfault]
  exact register_ruled version module

theorem bind_acme : (acmeInputs version module).pipeline.bind acme = .ok version := by
  refine Registry.bind_none_of_register (register_ruled version module) fun v s hs ↦ ?_
  have hempty : Registry.builtin.versions (acmeDraft version module).finish.provider = ∅ :=
    Std.ExtTreeMap.isEmpty_iff.1 isEmpty_versions_acme
  rw [Registry.ruleSet_eq_ok, hempty, Std.ExtTreeMap.getElem?_empty] at hs
  cases hs

def loneHash : String :=
  "blake3:0f703a8432f1bf3073f77185986df062fbbe34e8236fa768839198170d5bf3f7"

def acmePlan (version : Version) : Plan := ⟨loneHash, [acme], .of [(acme, version)], ∅⟩

def firstKey : String :=
  "blake3:e06341cd2321c0bc080bf262b519400b7102fbd2711a698f0a688e81ab28ab9b"

def secondKey : String :=
  "blake3:bb4d4802c6390adb151fd7d432c6b6db6afc26ef350d7b1db54ea2735081af3a"

theorem digests_acme : loneGraph.hash Digest.blake3 = loneHash ∧
    (acmePlan firstVersion).binding.key Digest.blake3 loneHash = firstKey ∧
    (acmePlan secondVersion).binding.key Digest.blake3 loneHash = secondKey := by
  refine ⟨Pipeline.hash_loneGraph, ?_⟩
  decide +kernel

theorem planned_acme (version : Version) (module : String) :
    Pipeline.Planned (acmeInputs version module).pipeline (acmeInputs version module).graph
      ((acmeInputs version module).targets acmeArgs) (acmePlan version) where
  graphHash := digests_acme.1.symm
  requested := by
    have hone : (Std.ExtTreeSet.ofList [acme] compare).toList = [acme] := rfl
    exact hone.symm
  requested_ne := List.cons_ne_nil _ _
  binding := by
    have hbound : (acmeInputs version module).pipeline.bound? acme = some (acme, version) := by
      rw [Pipeline.bound?, bind_acme]
    rw [acmePlan, List.filterMap_cons_some hbound]
    rfl
  unbound := by
    have hunbound : (acmeInputs version module).pipeline.unbound? acme = none := by
      rw [Pipeline.unbound?, bind_acme]
    rw [acmePlan, List.filterMap_cons_none hunbound]
    rfl

section Load

def sourceWays : List (List String) := [[], ["nebulaforge.toml"], ["workload.yaml"], ["rules"]]

def sources : List (List String) := [["nebulaforge.toml"], ["workload.yaml"], ["rules"]]

theorem within_sources : ∀ p ∈ [Settings.standardPath, standardWorkload, ⟨"rules"⟩,
    ⟨"rules/acme.yaml"⟩], p.Within sourceWays sources := by
  have h : ∀ p ∈ [Settings.standardPath, standardWorkload, ⟨"rules"⟩, ⟨"rules/acme.yaml"⟩],
      (∃ place ∈ sources, place <+: p.names) ∧
        ∀ m ∈ p.trail, m ∈ sourceWays ∨ ∃ place ∈ sources, place <+: m := by
    decide
  exact fun p hp ↦ ⟨(h p hp).1, (h p hp).2⟩

theorem run_loadDir_acme (hr : (version, module) ∈ editions)
    (h : Tree.Alike sourceWays sources (project version module) root) :
    (Registry.builtin.loadDir ⟨"rules"⟩).run root = ((.ok 1, ruled version module), root) := by
  have hlist : DiskOp.listDir root ⟨"rules"⟩ = .ok ["acme.yaml"] := by
    rw [DiskOp.listDir_alike h (within_sources _ (by simp))]
    rfl
  have hjoin : (⟨"rules"⟩ : Path).join "acme.yaml" = ⟨"rules/acme.yaml"⟩ := rfl
  have hfind : DiskOp.findAt root ⟨"rules/acme.yaml"⟩ = some true := by
    rw [DiskOp.findAt_alike h (within_sources _ (by simp))]
    rfl
  have hread : DiskOp.readFile root ⟨"rules/acme.yaml"⟩ =
      .ok (rulesText version module).toUTF8 := by
    rw [DiskOp.readFile_alike h (within_sources _ (by simp))]
    exact DiskOp.readFile_eq_ok_iff.2 ⟨rfl, rfl, rfl⟩
  have hnames : Registry.ruleNames root ⟨"rules"⟩ ["acme.yaml"] = ["acme.yaml"] := by
    have hkind : Registry.isRuleFile ⟨"rules/acme.yaml"⟩ = true := rfl
    simp [Registry.ruleNames, hjoin, hfind, hkind]
  have hfiles : (Registry.builtin.loadFiles [⟨"rules/acme.yaml"⟩]).run root =
      ((.ok (), ruled version module), root) := by
    rw [Registry.loadFiles, run_bind, run_readText, textAt_of_readFile hread]
    dsimp only
    rw [loadText_ruled hr]
    rfl
  rw [Registry.loadDir, run_bind, Registry.run_ruleFiles hlist, hnames]
  dsimp only
  have hsort : (Registry.sortNames ["acme.yaml"]).map (⟨"rules"⟩ : Path).join =
      [⟨"rules/acme.yaml"⟩] := by rw [← hjoin]; rfl
  rw [hsort, run_bind, hfiles]
  rfl

theorem attempt_load_acme (hr : (version, module) ∈ editions)
    (h : Tree.Alike sourceWays sources (project version module) root) :
    attempt (Inputs.load acmeArgs) root = (.ok (acmeInputs version module), root) := by
  have hsettings : attempt (loadSettings acmeArgs.config) root =
      (.ok { extraDirs := [⟨"rules"⟩] }, root) := by
    have hread : DiskOp.readFile root Settings.standardPath = .ok settingsText.toUTF8 := by
      rw [DiskOp.readFile_alike h (within_sources _ (by simp))]
      exact DiskOp.readFile_eq_ok_iff.2 ⟨rfl, rfl, rfl⟩
    exact attempt_loadSettings hread read_texts.1
  have hspec : attempt (loadSpec acmeArgs.file) root = (.ok lone, root) := by
    refine attempt_loadSpec ?_
    change DiskOp.readFile root standardWorkload = _
    rw [DiskOp.readFile_alike h (within_sources standardWorkload (by simp))]
    exact DiskOp.readFile_eq_ok_iff.2 ⟨rfl, rfl, rfl⟩
  have hregistry : attempt (loadRegistry { extraDirs := [⟨"rules"⟩] }) root =
      (.ok (ruled version module), root) := by
    rw [loadRegistry, loadDirs, attempt_bind, attempt_lift, run_loadDir_acme hr h]
    rfl
  rw [Inputs.load, attempt_bind_ok hsettings, attempt_bind_ok hspec,
    attempt_bind_ok attempt_buildGraph, attempt_bind_ok hregistry]
  rfl

end Load

section Edit

def acmeWhole (version : Version) (module : String) : Outcome :=
  whole (acmeInputs version module).pipeline (acmeInputs version module).graph (acmePlan version)

theorem targets_acme (version : Version) (module : String) :
    (acmeInputs version module).targets acmeArgs = [acme] := rfl

def acmePlaces : List (List String) :=
  [["nebulaforge.lock"], ["outputs", "crossplane"], ["outputs", "acme_w"],
    ["outputs", ".acme_w.staging"], ["outputs", ".acme_w.old"]]

def acmeWays : List (List String) := [[], ["outputs"], [], ["nebulaforge.lock"]]

def cachePlaces : List (List String) := [[".nebulaforge", "cache"]]

def cacheWay : List (List String) := [[], [".nebulaforge"], [".nebulaforge", "cache"]]

theorem cache_acme (version : Version) (module : String) :
    (acmeInputs version module).cache acmeArgs = .inDir ⟨".nebulaforge/cache"⟩ := by
  rw [Inputs.cache, if_neg (by simp [acmeArgs, loneArgs])]
  rfl

theorem places_acme (version : Version) (module : String) :
    (acmeInputs version module).places acmeArgs = acmePlaces ∧
      (acmeInputs version module).ways acmeArgs = acmeWays ∧
      ((acmeInputs version module).cache acmeArgs).places = cachePlaces ∧
      ((acmeInputs version module).cache acmeArgs).way = cacheWay := by
  have hall : allPlaces ⟨"outputs"⟩ loneGraph.name [acme] = acmePlaces.tail := rfl
  have hways : (⟨"outputs"⟩ : Path).trail ++ LockLog.standardPath.trail = acmeWays := rfl
  have hcache : (⟨".nebulaforge/cache"⟩ : Path).names = [".nebulaforge", "cache"] := rfl
  have htrail : (⟨".nebulaforge/cache"⟩ : Path).trail = cacheWay := rfl
  refine ⟨congrArg₂ List.cons LockLog.names_standardPath hall, hways, ?_, ?_⟩
  · rw [cache_acme]
    exact congrArg (fun names ↦ [names]) hcache
  · rw [cache_acme]
    exact htrail

theorem lists_project {l : List (List String)}
    (h : ∀ place ∈ l, (project firstVersion "1").Lists place.dropLast) :
    ∀ base x, base ++ [x] ∈ l → (project firstVersion "1").Lists base := by
  intro base x hmem
  have hl := h _ hmem
  rwa [List.dropLast_concat] at hl

theorem straight_acme : Emission.Straight ⟨"outputs"⟩ loneGraph.name [acme] where
  back := by decide
  short := by
    have hall : allPlaces ⟨"outputs"⟩ loneGraph.name [acme] = acmePlaces.tail := rfl
    rw [hall]
    decide

theorem clear_acme (version : Version) (module : String)
    (hl : ∀ base x, base ++ [x] ∈ acmePlaces → root.Lists base) :
    (acmeInputs version module).Clear acmeArgs root := by
  obtain ⟨hplaces, hways, hcache, hway⟩ := places_acme version module
  have hlock : ∀ place ∈ acmePlaces.tail, Tree.Apart ["nebulaforge.lock"] place := by decide
  refine ⟨?_, ?_, ?_, ?_, ?_, hplaces ▸ hl⟩
  · intro place hmem
    have htail : place ∈ ((acmeInputs version module).places acmeArgs).tail := hmem
    have hnames : LockLog.standardPath.names = ["nebulaforge.lock"] := LockLog.names_standardPath
    rw [hplaces] at htail
    exact hnames ▸ hlock place htail
  · rw [hplaces, hcache]
    decide
  · rw [hways, hcache]
    decide
  · rw [hplaces, hway]
    decide
  · exact .inl straight_acme

theorem spread_sources : Tree.Spread sources := by decide

theorem alike_project :
    Tree.Alike sourceWays sources (project firstVersion "1") (project firstVersion "1") := by
  have hl := lists_project (l := sources) (by decide)
  exact ⟨fun _ _ ↦ rfl, fun _ _ ↦ rfl, nofun, fun base x hmem ↦ ⟨hl base x hmem, hl base x hmem⟩⟩

theorem mem_editions_first : (firstVersion, "1") ∈ editions := .head _

theorem load_project : attempt (Inputs.load acmeArgs) (project firstVersion "1") =
    (.ok (acmeInputs firstVersion "1"), project firstVersion "1") :=
  attempt_load_acme mem_editions_first alike_project

theorem before_project :
    (acmeInputs firstVersion "1").before acmeArgs (project firstVersion "1") = none := by
  have htext : textAt (project firstVersion "1") LockLog.standardPath = .ok "" :=
    textAt_of_readFile (DiskOp.readFile_eq_ok_iff.2 ⟨rfl, rfl, rfl⟩)
  have hhistory := @LockLog.run_history_of_textAt ⟨LockLog.standardPath⟩ _ [] _ htext rfl
  exact Inputs.before_of_run rfl ((LockLog.run_of_history hhistory).2 loneGraph.workload).2

def firstRun : Report × Tree :=
  (run epoch (.synthesize acmeArgs)).run (project firstVersion "1")

def unkept : Report × Tree :=
  ending ((acmeInputs firstVersion "1").conclude epoch acmeArgs (acmeWhole firstVersion "1"))
    (project firstVersion "1")

theorem alike_firstRun : Tree.Alike acmeWays acmePlaces unkept.2 firstRun.2 := by
  have hclear := clear_acme firstVersion "1" (lists_project (l := acmePlaces) (by decide))
  obtain ⟨hplaces, hways, -, hway⟩ := places_acme firstVersion "1"
  have hthere := Tree.get?_ne_none_of_part
    (by decide : ∀ m ∈ cacheWay, m ∈ acmeWays → m = []) (project firstVersion "1")
  rw [← hway, ← hways] at hthere
  rw [← hplaces, ← hways, unkept, firstRun, acmeWhole]
  exact hclear.alike_run (planned_acme firstVersion "1") load_project before_project hthere epoch

theorem alike_sources_firstRun :
    Tree.Alike sourceWays sources (project firstVersion "1") firstRun.2 := by
  obtain ⟨hplaces, hways, hcache, hway⟩ := places_acme firstVersion "1"
  rw [firstRun]
  refine alike_run_of_apart (planned_acme firstVersion "1") load_project before_project ?_ ?_ ?_ ?_
    (lists_project (by decide)) epoch
  · rw [hcache, hplaces]
    decide
  · rw [hcache, hplaces]
    decide
  · rw [hway, hways]
    decide
  · rw [hway, hways]
    decide

/-- The project with edited rules after its first run. -/
def edited (version : Version) (module : String) : Tree :=
  firstRun.2.set ["rules"] (rulesDir version module)

theorem load_edited (h : (version, module) ∈ editions) :
    attempt (Inputs.load acmeArgs) (edited version module) =
      (.ok (acmeInputs version module), edited version module) := by
  have halike : Tree.Alike sourceWays sources
      ((project firstVersion "1").set ["rules"] (rulesDir version module))
      (edited version module) := by
    refine alike_sources_firstRun.set spread_sources
      ⟨["rules"], .tail _ (.tail _ (.head _)), List.prefix_rfl⟩ (fun base x he ↦ ?_) _
    obtain ⟨rfl, -⟩ : [] = base ∧ "rules" = x := List.append_singleton_inj.1 he
    exact alike_sources_firstRun.kindAt_firm [] (.head _)
  exact attempt_load_acme h halike

theorem alike_edited (version : Version) (module : String) :
    Tree.Alike acmeWays acmePlaces unkept.2 (edited version module) := by
  have helse : (∀ place ∈ acmePlaces, Tree.Apart ["rules"] place) ∧
      ∀ m ∈ acmeWays, ¬ ["rules"] <+: m := by decide
  exact alike_firstRun.trans ((Tree.isOrderly_set _).alike helse.1 helse.2
    fun base x hmem ↦ (alike_firstRun.lists base x hmem).2)

def acmeFed : List ByteArray :=
  [loneGraph.stream, (acmePlan firstVersion).binding.stream loneHash,
    (acmePlan secondVersion).binding.stream loneHash]

theorem injOn_acmeFed : Set.InjOn Digest.blake3 {bytes | bytes ∈ acmeFed} := by
  obtain ⟨hgraph, hfirst, hsecond⟩ := digests_acme
  have hdigests : acmeFed.map Digest.blake3 = [loneHash, firstKey, secondKey] := by
    rw [ResourceGraph.hash_eq] at hgraph
    rw [Binding.key_eq] at hfirst hsecond
    simp only [acmeFed, List.map_cons, List.map_nil, hgraph, hfirst, hsecond]
  have hdistinct : (acmeFed.map Digest.blake3).Nodup := by
    rw [hdigests]
    simp [loneHash, firstKey, secondKey]
  exact fun bytes hmem bytes' hmem' he ↦ List.inj_on_of_nodup_map hdistinct hmem hmem' he

theorem feeds_acme (h : (version, module) ∈ editions) :
    Pipeline.Feeds {bytes | bytes ∈ acmeFed} (acmeInputs version module).pipeline
      (acmeInputs version module).graph ((acmeInputs version module).targets acmeArgs) := by
  intro plan hplan
  obtain rfl : acmePlan version = plan :=
    Except.ok.inj ((planned_acme version module).plan_eq.symm.trans hplan)
  have hversion : version = firstVersion ∨ version = secondVersion := by
    simp only [editions, List.mem_cons, Prod.mk.injEq, List.not_mem_nil, or_false] at h
    tauto
  refine ⟨.head _, ?_⟩
  rcases hversion with rfl | rfl
  · exact .tail _ (.head _)
  · exact .tail _ (.tail _ (.head _))

theorem unadded_edited (version : Version) (module : String) :
    RunCache.Unadded (acmeInputs version module).settings.cache firstRun.2
      (edited version module) := by
  intro key bytes _ hfile
  have hnames : (⟨".nebulaforge/cache"⟩ : Path).names = [".nebulaforge", "cache"] := rfl
  have happart : Tree.Apart ["rules"] ((⟨".nebulaforge/cache"⟩ : Path).names ++
      [RunCache.fileName key]) := by
    rw [hnames]
    exact Tree.apart_comm.1 ((by decide : Tree.Apart [".nebulaforge", "cache"] ["rules"]).append _)
  have hget := (Tree.isEdit_set (rulesDir version module)).get?_of_apart happart firstRun.2
  exact Tree.fileAt?_eq_some.2 (hget.symm.trans (Tree.fileAt?_eq_some.1 hfile))

theorem precedes_acme : (acmeInputs firstVersion "1").Precedes {bytes | bytes ∈ acmeFed} acmeArgs
    (acmeInputs secondVersion "2") where
  feeds := feeds_acme mem_editions_first
  cache _ hd := Inputs.names_of_cache acmeArgs (acmeInputs firstVersion "1") hd
  apart := by
    have hnames : (⟨".nebulaforge/cache"⟩ : Path).names = [".nebulaforge", "cache"] := rfl
    have happart : ∀ place ∈ acmePlaces, Tree.Apart place [".nebulaforge", "cache"] := by decide
    rw [(places_acme firstVersion "1").1]
    exact fun place hmem ↦ hnames ▸ happart place hmem
  graph _ := rfl
  rules := by
    refine Registry.agrees_of_register (register_ruled firstVersion "1")
      (register_ruled secondVersion "2") fun _ hversion ↦ ?_
    exact absurd hversion (by decide)

theorem vacant_project (key : String) (_ : Digest.IsDigest key) :
    (project firstVersion "1").fileAt?
      ((⟨".nebulaforge/cache"⟩ : Path).names ++ [RunCache.fileName key]) = none := by
  have hnames : (⟨".nebulaforge/cache"⟩ : Path).names = [".nebulaforge", "cache"] := rfl
  rw [hnames]
  rfl

theorem ready_edited : (acmeInputs secondVersion "2").Ready {bytes | bytes ∈ acmeFed} acmeArgs
    (edited secondVersion "2") where
  feeds := feeds_acme (.tail _ (.tail _ (.head _)))
  clear := clear_acme secondVersion "2" fun base x hmem ↦
    ((alike_edited secondVersion "2").lists base x hmem).2
  reached := by
    have hstart : (acmeInputs secondVersion "2").Reached {bytes | bytes ∈ acmeFed}
        (project firstVersion "1") := .start vacant_project
    have hrun : (run epoch (.synthesize acmeArgs)).run (project firstVersion "1") =
        (firstRun.1, firstRun.2) := Prod.mk.eta.symm
    refine .edit (.command hstart (fun i' hload ↦ ?_) hrun) (unadded_edited secondVersion "2")
    obtain rfl : acmeInputs firstVersion "1" = i' :=
      Except.ok.inj (congrArg Prod.fst (load_project.symm.trans hload))
    exact precedes_acme

theorem synthesize_like_anew_edited :
    EndsAlike ((acmeInputs secondVersion "2").places acmeArgs)
      ((run epoch (.synthesize acmeArgs)).run (edited secondVersion "2"))
      ((run epoch (.synthesize acmeArgs.anew)).run (edited secondVersion "2")) :=
  (synthesize_like_anew injOn_acmeFed epoch acmeArgs (edited secondVersion "2")).2
    (acmeInputs secondVersion "2") (load_edited (.tail _ (.tail _ (.head _)))) ready_edited

section Stale

def kept : RunCache × Tree :=
  ((acmeInputs firstVersion "1").pipeline.keep ((acmeInputs firstVersion "1").cache acmeArgs)
    (acmeWhole firstVersion "1")).run (project firstVersion "1")

theorem isComplete_acmeWhole : (acmeWhole firstVersion "1").isComplete = true := by
  decide +kernel

theorem firstRun_eq : firstRun =
    ending ((acmeInputs firstVersion "1").conclude epoch acmeArgs (acmeWhole firstVersion "1"))
      kept.2 := by
  rw [firstRun, kept, acmeWhole]
  exact run_first (planned_acme firstVersion "1") load_project before_project epoch

theorem isDigest_firstKey : Digest.IsDigest firstKey := by
  rw [← digests_acme.2.1]
  exact ⟨(acmePlan firstVersion).binding.stream loneHash, by rw [Binding.key_eq]⟩

theorem stores_project (run : StoredRun) :
    ((RunCache.writeFile ((⟨".nebulaforge/cache"⟩ : Path).join (RunCache.fileName firstKey))
      run).run (project firstVersion "1")).1 = .ok () :=
  RunCache.run_writeFile_eq_ok ⟨".nebulaforge"⟩ "cache" isDigest_firstKey
    ⟨by decide, by decide, by decide⟩ rfl ⟨by decide, by decide, by decide, by decide⟩ (by decide)
    (by decide) nofun nofun

theorem has_kept : RunCache.Has (.inDir ⟨".nebulaforge/cache"⟩) kept.2 firstKey
    (acmeWhole firstVersion "1").stored := by
  have hput : kept = (RunCache.put (.inDir ⟨".nebulaforge/cache"⟩) firstKey
      (acmeWhole firstVersion "1").stored).run (project firstVersion "1") := by
    rw [kept, Pipeline.keep, if_pos isComplete_acmeWhole, ← digests_acme.2.1]
    rfl
  have hhas : RunCache.Has kept.1 kept.2 firstKey (acmeWhole firstVersion "1").stored := by
    rw [hput]
    refine RunCache.has_put _ isDigest_firstKey fun d hd ↦ ?_
    obtain rfl := Option.some.inj hd
    exact stores_project _
  refine hhas.inDir ?_
  rw [hput, RunCache.run_put]
  rfl

theorem has_edited (version : Version) (module : String) :
    RunCache.Has (.inDir ⟨".nebulaforge/cache"⟩) (edited version module) firstKey
      (acmeWhole firstVersion "1").stored := by
  obtain ⟨hplaces, hways, hcache, -⟩ := places_acme firstVersion "1"
  have hlists : kept.2.Lists [".nebulaforge"] := by
    refine (Pipeline.only_keep (p := (acmeInputs firstVersion "1").pipeline) rfl _ _).lists
      (leads_run _ (project firstVersion "1")).reaches ?_ (by decide)
    rw [hcache]
    decide
  have hbases : ∀ base x, base ++ [x] ∈ cachePlaces → kept.2.Lists base := by
    intro base x hmem
    obtain ⟨rfl, -⟩ : base = [".nebulaforge"] ∧ x = "cache" :=
      List.append_singleton_inj.1 (List.mem_singleton.1 hmem)
    exact hlists
  have hrun : Tree.Alike cacheWay cachePlaces kept.2 firstRun.2 := by
    have honly := onlyOr_conclude_whole (planned_acme firstVersion "1") load_project epoch
    rw [firstRun_eq, acmeWhole]
    rw [hplaces, hways] at honly
    exact honly.alike (leads_ending _ kept.2).reaches (by decide) (by decide) (by decide)
      (Tree.get?_ne_none_of_part (by decide) _) hbases
  have hedit := (Tree.isOrderly_set (rulesDir version module)).alike (t := firstRun.2)
    (by decide : ∀ place ∈ cachePlaces, Tree.Apart ["rules"] place)
    (by decide : ∀ m ∈ cacheWay, ¬ ["rules"] <+: m) fun base x hmem ↦ (hrun.lists base x hmem).2
  have hwithin : (⟨".nebulaforge/cache"⟩ : Path).Within cacheWay cachePlaces :=
    Path.within_of_mem (by decide) (by decide)
  refine has_kept.of_disk fun d hd hfile ↦ ?_
  obtain rfl := Option.some.inj hd
  have hread := DiskOp.readFile_alike (hrun.trans hedit)
    (hwithin.join (RunCache.isName_fileName isDigest_firstKey))
  rw [RunCache.inFile?] at hfile ⊢
  rw [edited, hread]
  exact hfile

def firstEntry : LockEntry :=
  LockLog.entry epoch loneGraph.workload loneHash (acmePlan firstVersion).binding [acme]

theorem textAt_unkept : textAt unkept.2 LockLog.standardPath =
    .ok ("" ++ (firstEntry.toJson.line ++ "\n")) := by
  have hwrites : (attempt (writeOutcome ⟨"outputs"⟩ loneGraph.name (acmeWhole firstVersion "1"))
        (project firstVersion "1")).1.toOption.isSome = true ∧
      ((attempt (writeOutcome ⟨"outputs"⟩ loneGraph.name (acmeWhole firstVersion "1"))
        (project firstVersion "1")).2.place LockLog.standardPath).toOption =
          some ["nebulaforge.lock"] ∧
      (attempt (writeOutcome ⟨"outputs"⟩ loneGraph.name (acmeWhole firstVersion "1"))
        (project firstVersion "1")).2.fileAt? ["nebulaforge.lock"] = some "".toUTF8 := by
    decide +kernel
  have hnames := LockLog.names_standardPath
  rcases hw : attempt (writeOutcome ⟨"outputs"⟩ loneGraph.name (acmeWhole firstVersion "1"))
    (project firstVersion "1") with ⟨written, root₁⟩
  rw [hw] at hwrites
  obtain ⟨hwritten, hplace, hfile⟩ := hwrites
  obtain ⟨ps, hps⟩ := Option.isSome_iff_exists.1 hwritten
  obtain rfl := toOption_eq_some.1 hps
  rw [← hnames] at hplace hfile
  have hfile := Tree.fileAt?_eq_some.1 hfile
  obtain ⟨e, root', hcommit⟩ : ∃ e root', (LockLog.commit ⟨LockLog.standardPath⟩ epoch
      loneGraph.workload loneHash (acmePlan firstVersion).binding [acme]).run root₁ =
        (.ok e, root') :=
    LockLog.commit_of_file rfl (toOption_eq_some.1 hplace) rfl hfile
  have hend : unkept.2 = root' :=
    @ending_conclude_of_commit epoch acmeArgs (acmeInputs firstVersion "1") _ _ _ _
      isComplete_acmeWhole _ _ hw hcommit
  obtain rfl : e = firstEntry := (LockLog.commit_eq_ok hcommit).1
  rw [hend]
  exact LockLog.textAt_commit (.inl hfile) hcommit

theorem before_edited (version : Version) (module : String) :
    (acmeInputs version module).before acmeArgs (edited version module) = some firstEntry := by
  have hwithin : LockLog.standardPath.Within acmeWays acmePlaces :=
    Path.within_of_mem (by decide) (by decide)
  refine Inputs.before_of_textAt rfl ?_ rfl
  change textAt (edited version module) LockLog.standardPath = _
  have htext : textAt (edited version module) LockLog.standardPath =
      textAt unkept.2 LockLog.standardPath := by
    rw [textAt, textAt, DiskOp.readFile_alike (alike_edited version module) hwithin]
  exact htext.trans textAt_unkept

def acmeReused : Outcome := { acmeWhole firstVersion "1" with mode := .incremental }

/-- With rules of the same version the command concludes with the first run. -/
theorem run_edited : (run epoch (.synthesize acmeArgs)).run (edited firstVersion "2") =
    ending ((acmeInputs firstVersion "2").conclude epoch acmeArgs acmeReused)
      (edited firstVersion "2") := by
  have hcovers : firstEntry.covers (acmePlan firstVersion).graphHash
      (acmePlan firstVersion).binding = true :=
    (planned_acme firstVersion "2").covers_entry
      (x := (acmeInputs firstVersion "2").call acmeArgs none) rfl (fun _ ↦ .rfl) epoch
      loneGraph.workload
  have hhas : RunCache.Has ((acmeInputs firstVersion "2").cache acmeArgs) (edited firstVersion "2")
      ((acmePlan firstVersion).binding.key (acmeInputs firstVersion "2").pipeline.digest
        (acmePlan firstVersion).graphHash) (acmeWhole firstVersion "1").stored := by
    rw [cache_acme]
    have hkey : (acmePlan firstVersion).binding.key (acmeInputs firstVersion "2").pipeline.digest
        (acmePlan firstVersion).graphHash = firstKey := digests_acme.2.1
    rw [hkey]
    exact has_edited firstVersion "2"
  rw [run_eq_ending (load_edited (.tail _ (.head _))),
    ending_proceed_of_has (planned_acme firstVersion "2") rfl (before_edited firstVersion "2")
      hcovers hhas epoch,
    Pipeline.reused_stored_eq isComplete_acmeWhole rfl rfl, acmeReused]

/-- An edit of rules under the same version leaves a tree that is stale. -/
theorem not_synthesize_like_anew : ¬ ∀ (now : Instant) (args : SynthesizeArgs) (i : Inputs)
    (root edited rules : Tree) (dir : Path),
    (∀ key, Digest.IsDigest key →
      root.fileAt? (i.settings.cache.names ++ [RunCache.fileName key]) = none) →
    dir ∈ i.settings.extraDirs →
    edited = ((run now (.synthesize args)).run root).2.set dir.names rules →
    attempt (Inputs.load args) edited = (.ok i, edited) → i.Clear args edited →
      EndsAlike (i.places args) ((run now (.synthesize args)).run edited)
        ((run now (.synthesize args.anew)).run edited) := by
  intro hall
  have hrules : (⟨"rules"⟩ : Path).names = ["rules"] := rfl
  have hmem : (firstVersion, "2") ∈ editions := .tail _ (.head _)
  have hload := load_edited hmem
  have hclear := clear_acme firstVersion "2" fun base x hmem ↦
    ((alike_edited firstVersion "2").lists base x hmem).2
  have hends := hall epoch acmeArgs (acmeInputs firstVersion "2") (project firstVersion "1")
    (edited firstVersion "2") (rulesDir firstVersion "2") ⟨"rules"⟩
    vacant_project (.head _) (by rw [edited, firstRun, hrules]) hload hclear
  obtain ⟨hplaces, hways, -, -⟩ := places_acme firstVersion "2"
  have hspread := hclear.spread
  rw [hplaces] at hends hspread
  have hmode (o : Outcome) (ho : o.stored.Plain)
      (ht : ∀ t ∈ o.artifacts, t ∈ (acmeInputs firstVersion "2").targets acmeArgs) :=
    @Inputs.onlyOr_conclude epoch acmeArgs (acmeInputs firstVersion "2")
      { o with mode := .incremental } (Inputs.slash_not_mem_of_load hload) ho ht
  have hreused : OnlyOr (DiskOp.Within acmeWays acmePlaces)
      ((acmeInputs firstVersion "2").conclude epoch acmeArgs acmeReused) := by
    have hjudged := (planned_acme firstVersion "1").judged (Pipeline.worked_inTurn
      ((acmeInputs firstVersion "1").pipeline.walk (acmeInputs firstVersion "1").graph) none _)
    have hloaded := (Inputs.of_leads_load (leads_of_run load_project)).2.2
    rw [← hplaces, ← hways, acmeReused]
    refine hmode _ (hjudged.plain hloaded) fun t ht ↦ ?_
    rw [targets_acme, ← targets_acme firstVersion "1"]
    exact (hjudged.mem_artifacts.1 ht).1
  have hwhole := onlyOr_conclude_whole (planned_acme firstVersion "2") hload epoch
  rw [hplaces, hways, ← acmeWhole] at hwhole
  have hanew : (run epoch (.synthesize acmeArgs.anew)).run (edited firstVersion "2") =
      ending ((acmeInputs firstVersion "2").conclude epoch acmeArgs (acmeWhole firstVersion "2"))
        (edited firstVersion "2") := by
    rw [@run_eq_ending _ acmeArgs.anew _ _ hload, ending_anew (planned_acme firstVersion "2"),
      acmeWhole]
  have hget := hends.get? ["outputs", "acme_w"] (by decide)
  have hkept := (alike_ending hreused hspread (alike_edited firstVersion "2")).get?_place
    ["outputs", "acme_w"] (by decide)
  have hnew := (alike_ending hwhole hspread (alike_edited firstVersion "2")).get?_place
    ["outputs", "acme_w"] (by decide)
  have hdiffer :
      (ending ((acmeInputs firstVersion "2").conclude epoch acmeArgs acmeReused)
        unkept.2).2.fileAt? (["outputs", "acme_w"] ++ ["compute_0.tf"]) ≠
      (ending ((acmeInputs firstVersion "2").conclude epoch acmeArgs (acmeWhole firstVersion "2"))
        unkept.2).2.fileAt? (["outputs", "acme_w"] ++ ["compute_0.tf"]) := by
    decide +kernel
  rw [run_edited, hanew] at hget
  refine hdiffer (Tree.fileAt?_congr fun bytes ↦ ?_)
  rw [Tree.get?_append, Tree.get?_append, ← hkept, hget, hnew]

end Stale

end Edit

end Acme

end Command

end Multicloud

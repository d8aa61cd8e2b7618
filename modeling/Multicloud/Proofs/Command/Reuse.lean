import Multicloud.Proofs.Command.Stages
import Multicloud.Proofs.Emission.Ahead
import Multicloud.Proofs.Emission.Workloads
import Multicloud.Proofs.Run.Reuse
import Multicloud.Proofs.Run.Steady

namespace Multicloud

open Script

namespace Emission

variable {out : Path} {workload : String} {targets : List Provider} {place : List String}

theorem spread_allPlaces (out : Path) (workload : String) (targets : List Provider) :
    Tree.Spread (allPlaces out workload targets) := by
  intro place hmem place' hmem' hne
  obtain ⟨x, rfl⟩ := exists_of_mem_allPlaces hmem
  obtain ⟨y, rfl⟩ := exists_of_mem_allPlaces hmem'
  exact Tree.apart_concat fun he ↦ hne (by rw [he])

theorem allPlaces_subset {targets' : List Provider} (h : targets ⊆ targets') :
    allPlaces out workload targets ⊆ allPlaces out workload targets' := by
  intro place hmem
  rcases List.mem_cons.1 hmem with rfl | hmem
  · exact .head _
  · obtain ⟨t, ht, hmem⟩ := List.mem_flatMap.1 hmem
    exact .tail _ (List.mem_flatMap.2 ⟨t, h ht, hmem⟩)

end Emission

namespace RunCache

variable {c : RunCache} {d d' : Path} {good : String → StoredRun → Prop} {root root' : Tree}

def Unadded (d : Path) (root root' : Tree) : Prop :=
  ∀ key bytes, Digest.IsDigest key →
    root'.fileAt? (d.names ++ [fileName key]) = some bytes →
      root.fileAt? (d.names ++ [fileName key]) = some bytes

theorem Holds.unadded (h : Holds good d root) (hu : Unadded d root root') : Holds good d root' :=
  fun key hkey bytes run hfile hrun ↦ h key hkey bytes run
    (Tree.fileAt?_eq_some.1 (hu key bytes hkey (Tree.fileAt?_eq_some.2 hfile))) hrun

theorem Holds.congr (h : Holds good d root) (hd : d'.names = d.names) : Holds good d' root := by
  intro key hkey bytes run hfile hrun
  rw [hd] at hfile
  exact h key hkey bytes run hfile hrun

end RunCache

namespace Command

open Emission (writeOutcome allPlaces)
open Pipeline (Kept Regular whole)

variable {fed : Set ByteArray} {now : Instant} {args : SynthesizeArgs} {i : Inputs}
  {root root' root₁ : Tree} {o : Outcome}

namespace Inputs

/-- The places that a command works at, apart from its cache. -/
def places (args : SynthesizeArgs) (i : Inputs) : List (List String) :=
  i.settings.lock.names :: allPlaces (i.out args) i.graph.name (i.targets args)

def ways (args : SynthesizeArgs) (i : Inputs) : List (List String) :=
  (i.out args).trail ++ i.settings.lock.trail

/-- What follows a synthesis stays at these places. -/
theorem onlyOr_conclude (hw : '/' ∉ i.graph.name.toList) (ho : o.stored.Plain)
    (ht : ∀ t ∈ o.artifacts, t ∈ i.targets args) :
    OnlyOr (DiskOp.Within (i.ways args) (i.places args)) (i.conclude now args o) := by
  have hkeys : o.artifacts.keys ⊆ i.targets args :=
    fun t hmem ↦ ht t (Std.ExtTreeMap.mem_keys.1 hmem)
  have hwrite : OnlyOr (DiskOp.Within (i.ways args) (i.places args))
      (writeOutcome (i.out args) i.graph.name o) :=
    Only.imp (Emission.onlyOr_writeOutcome (i.out args) hw ho) fun op hop ↦
      hop.mono (List.subset_append_left _ _)
        fun _ hmem ↦ .tail _ (Emission.allPlaces_subset hkeys hmem)
  refine OnlyOr.bind (onlyOr_part hwrite) fun _ ↦ OnlyOr.bind (onlyOr_lift ?_) fun _ ↦ onlyOr_pure _
  unfold recordRun
  split
  · refine Only.bind (Only.imp (i.log.only_commit now i.graph.workload o.graphHash o.binding
      (i.targets args)) fun op hop ↦ hop.mono (List.subset_append_right _ _) ?_) fun answer ↦ ?_
    · exact List.cons_subset.2 ⟨.head _, List.nil_subset _⟩
    · cases answer <;> exact only_pure _
  · exact only_pure _

theorem pacedOr_conclude {firm : List (List String)} (hroot : [] ∈ firm)
    (hout : Emission.Straight (i.out args) i.graph.name (i.targets args) ∨
      (i.out args).trail ⊆ firm)
    (hw : '/' ∉ i.graph.name.toList) (ho : o.stored.Plain)
    (ht : ∀ t ∈ o.artifacts, t ∈ i.targets args) :
    PacedOr (i.ways args) (i.places args) firm (i.conclude now args o) := by
  have hwrite : PacedOr (i.out args).trail
      (allPlaces (i.out args) i.graph.name (i.targets args)) firm
      (writeOutcome (i.out args) i.graph.name o) := by
    rcases hout with hstraight | hfirm
    · exact Emission.pacedOr_writeOutcome hstraight hw ho ht
    · have hkeys : o.artifacts.keys ⊆ i.targets args :=
        fun t hmem ↦ ht t (Std.ExtTreeMap.mem_keys.1 hmem)
      exact OnlyOr.pacedOr (Only.imp (Emission.onlyOr_writeOutcome (i.out args) hw ho) fun op hop ↦
        hop.mono (List.Subset.refl _) (Emission.allPlaces_subset hkeys)) hfirm
  refine PacedOr.bind (Paced.bind (Paced.mono hwrite (List.subset_append_left _ _)
    (List.subset_cons_self _ _)) fun _ _ _ ↦ .done _) fun _ firm' hfirm ↦
      (pacedOr_lift ?_).bind fun _ _ _ ↦ pacedOr_pure _
  unfold recordRun
  split
  · refine Paced.bind ((LockLog.paced_commit (hfirm hroot) i.log now i.graph.workload o.graphHash
      o.binding (i.targets args)).mono (List.subset_append_right _ _)
        (List.cons_subset.2 ⟨.head _, List.nil_subset _⟩)) fun answer _ _ ↦ ?_
    cases answer <;> exact .done _
  · exact .done _

/-- The cache of a command is apart from its other places and from the ways there. Where the way to
the output directory does not go straight down, what it shares with the way to the cache is there. -/
structure Clear (args : SynthesizeArgs) (i : Inputs) (root : Tree) : Prop where
  lock : ∀ place ∈ allPlaces (i.out args) i.graph.name (i.targets args),
    Tree.Apart i.settings.lock.names place
  apart : ∀ d ∈ (i.cache args).places, ∀ place ∈ i.places args, Tree.Apart d place
  ways : ∀ d ∈ (i.cache args).places, ∀ m ∈ i.ways args, ¬ d <+: m
  way : ∀ m ∈ (i.cache args).way, ∀ place ∈ i.places args, ¬ place <+: m
  there : Emission.Straight (i.out args) i.graph.name (i.targets args) ∨
    ∀ m ∈ (i.cache args).way, m ∈ (i.out args).trail → root.get? m ≠ none
  lists : ∀ base x, base ++ [x] ∈ i.places args → root.Lists base

theorem Clear.spread (h : i.Clear args root) : Tree.Spread (i.places args) := by
  have hall := Emission.spread_allPlaces (i.out args) i.graph.name (i.targets args)
  intro place hmem place' hmem' hne
  rcases List.mem_cons.1 hmem with rfl | hmem
  · rcases List.mem_cons.1 hmem' with rfl | hmem'
    · exact absurd rfl hne
    · exact h.lock place' hmem'
  · rcases List.mem_cons.1 hmem' with rfl | hmem'
    · exact Tree.apart_comm.1 (h.lock place hmem)
    · exact hall place hmem place' hmem' hne

end Inputs

/-- A run that is kept leaves the disk ahead for what follows. -/
theorem Inputs.Clear.ahead (h : i.Clear args root) (o : Outcome) :
    ∃ firm, [] ∈ firm ∧ (Emission.Straight (i.out args) i.graph.name (i.targets args) ∨
      (i.out args).trail ⊆ firm) ∧ Tree.Ahead firm (i.ways args) (i.places args) root
        ((i.pipeline.keep (i.cache args) o).run root).2 := by
  have honly := Pipeline.only_keep (p := i.pipeline) rfl (i.cache args) o
  have hroot : [] ∈ (i.out args).trail := (i.out args).nil_mem_trail
  have hahead {firm : List (List String)} (hfirm : firm ⊆ (i.out args).trail)
      (hthere : ∀ m ∈ (i.cache args).way, m ∈ firm → root.get? m ≠ none) :
      Tree.Ahead firm (i.ways args) (i.places args) root _ :=
    honly.ahead (leads_run _ root).reaches h.apart
      (fun d hd m hm ↦ h.ways d hd m ((List.mem_append.1 hm).elim
        (fun hm ↦ List.mem_append_left _ (hfirm hm)) id)) h.way hthere h.lists
  rcases h.there with hstraight | hthere
  · refine ⟨[[]], .head _, .inl hstraight, hahead (List.cons_subset.2 ⟨hroot, List.nil_subset _⟩) ?_⟩
    exact Tree.get?_ne_none_of_part (fun m _ hm ↦ List.mem_singleton.1 hm) root
  · exact ⟨_, hroot, .inr (List.Subset.refl _), hahead (List.Subset.refl _) hthere⟩

theorem Inputs.Clear.alike (h : i.Clear args root)
    (hthere : ∀ m ∈ (i.cache args).way, m ∈ i.ways args → root.get? m ≠ none) (o : Outcome) :
    Tree.Alike (i.ways args) (i.places args) root
      ((i.pipeline.keep (i.cache args) o).run root).2 :=
  (Pipeline.only_keep (p := i.pipeline) rfl (i.cache args) o).alike (leads_run _ root).reaches
    h.apart h.ways h.way hthere h.lists

/-- A command of an earlier time does not get in the way of one that loads other things: it shares
its cache or has none, and works elsewhere; no version has been given to other rules since, and
equal digests stand for equal graphs. -/
structure Inputs.Precedes (fed : Set ByteArray) (args' : SynthesizeArgs) (i' i : Inputs) :
    Prop where
  feeds : Pipeline.Feeds fed i'.pipeline i'.graph (i'.targets args')
  cache : ∀ d, (i'.cache args').dir = some d → d.names = i.settings.cache.names
  apart : ∀ place ∈ i'.places args', Tree.Apart place i.settings.cache.names
  graph : i'.graph.stream = i.graph.stream → i'.graph = i.graph
  rules : i'.registry.Agrees i.registry

/-- The disks that commands leave one after the other, where the cache was empty at first. In
between anything may be edited but the files of the cache. -/
inductive Inputs.Reached (fed : Set ByteArray) (i : Inputs) : Tree → Prop
  | start {root : Tree} (h : ∀ key, Digest.IsDigest key →
      root.fileAt? (i.settings.cache.names ++ [RunCache.fileName key]) = none) : Reached fed i root
  | command {root root' : Tree} {now : Instant} {args' : SynthesizeArgs} {report : Report}
      (h : Reached fed i root)
      (hp : ∀ i', attempt (Inputs.load args') root = (.ok i', root) → i'.Precedes fed args' i)
      (hrun : (run now (.synthesize args')).run root = (report, root')) : Reached fed i root'
  | edit {root root' : Tree} (h : Reached fed i root)
      (hsame : RunCache.Unadded i.settings.cache root root') : Reached fed i root'

def Inputs.Past (fed : Set ByteArray) (i : Inputs) (p : Pipeline) (g : ResourceGraph)
    (targets : List Provider) : Prop :=
  ∃ args' i' root, attempt (Inputs.load args') root = (.ok i', root) ∧ i'.Precedes fed args' i ∧
    p = i'.pipeline ∧ g = i'.graph ∧ targets = i'.targets args'

theorem attempt_load_cases (args : SynthesizeArgs) (root : Tree) :
    (∃ e, attempt (Inputs.load args) root = (.error e, root)) ∨
      ∃ i, attempt (Inputs.load args) root = (.ok i, root) := by
  have hroot : (attempt (Inputs.load args) root).2 = root :=
    (Inputs.onlyOr_load args).eq_of_reaches (leads_run _ root).reaches
  rcases h : attempt (Inputs.load args) root with ⟨e | i, root'⟩
  · exact .inl ⟨e, by rw [← hroot, h]⟩
  · exact .inr ⟨i, by rw [← hroot, h]⟩

theorem Inputs.regular_of_load (h : attempt (Inputs.load args) root = (.ok i, root))
    (hf : Pipeline.Feeds fed i.pipeline i.graph (i.targets args)) :
    Regular fed i.pipeline i.graph (i.targets args) :=
  ⟨rfl, (Inputs.of_leads_load (leads_of_run h)).2.2, hf⟩

theorem Inputs.slash_not_mem_of_load (h : attempt (Inputs.load args) root = (.ok i, root)) :
    '/' ∉ i.graph.name.toList := by
  obtain ⟨⟨document, hd⟩, hb, -⟩ := Inputs.of_leads_load (leads_of_run h)
  exact Emission.slash_not_mem_name hd hb

theorem Inputs.Past.regular {p : Pipeline} {g : ResourceGraph} {targets : List Provider}
    (h : i.Past fed p g targets) : Regular fed p g targets := by
  obtain ⟨args', i', root, hload, hp, rfl, rfl, rfl⟩ := h
  exact Inputs.regular_of_load hload hp.feeds

theorem Inputs.Past.steady {p : Pipeline} {g : ResourceGraph} {targets : List Provider}
    (h : i.Past fed p g targets) :
    (g.stream = i.graph.stream → g = i.graph) ∧ p.registry.Agrees i.registry := by
  obtain ⟨args', i', root, -, hp, rfl, rfl, rfl⟩ := h
  exact ⟨hp.graph, hp.rules⟩

def tell : Except CommandError Report → Report
  | .ok report => report
  | .error e => { lines := [], failure := some e }

theorem run_eq_tell (now : Instant) (args : SynthesizeArgs) (root : Tree) :
    (run now (.synthesize args)).run root =
      (tell (attempt (Inputs.load args >>= proceed now args) root).1,
        (attempt (Inputs.load args >>= proceed now args) root).2) := by
  unfold run Work.report
  rw [run_bind]
  dsimp only
  rw [runSynthesize_eq]
  unfold attempt
  rcases (Inputs.load args >>= proceed now args).run.run root with ⟨e | report, root'⟩ <;> rfl

theorem Inputs.sound_cache {good : String → StoredRun → Prop} {d : Path}
    (args : SynthesizeArgs) (i : Inputs)
    (hd : ∀ d', (i.cache args).dir = some d' → d'.names = d.names)
    (h : RunCache.Holds good d root) : RunCache.Sound good (i.cache args) root := by
  unfold Inputs.cache at hd ⊢
  split
  · exact .inMemory root
  · next hno =>
    rw [if_neg hno] at hd
    exact RunCache.sound_inDir (h.congr (hd _ rfl))

theorem Inputs.names_of_cache (args : SynthesizeArgs) (i : Inputs) {d : Path}
    (hd : (i.cache args).dir = some d) :
    d.names = i.settings.cache.names := by
  unfold Inputs.cache at hd
  split at hd
  · cases hd
  · rw [← Option.some.inj hd]

theorem holds_of_proceed (hfed : Set.InjOn Digest.blake3 fed) {args' : SynthesizeArgs}
    {i' : Inputs} (hload : attempt (Inputs.load args') root = (.ok i', root))
    (hp : i'.Precedes fed args' i)
    (h : RunCache.Holds (Kept (i.Past fed)) i.settings.cache root) :
    RunCache.Holds (Kept (i.Past fed)) i.settings.cache
      (attempt (proceed now args' i') root).2 := by
  have hpast : i.Past fed i'.pipeline i'.graph (i'.targets args') :=
    ⟨args', i', root, hload, hp, rfl, rfl, rfl⟩
  have hsound := Inputs.sound_cache args' i' hp.cache h
  rw [attempt_proceed]
  rcases hcall : (i'.pipeline.call (i'.cache args')
    (i'.call args' (i'.before args' root))).run root with ⟨⟨answer, c⟩, root₁⟩
  have hcame := Pipeline.came_of_run hcall
  have hafter := hcame.kept_sound rfl hpast hsound
  have hholds : RunCache.Holds (Kept (i.Past fed)) i.settings.cache root₁ := by
    cases hdir : (i'.cache args').dir with
    | some d =>
      exact (hafter.files d (hcame.dir_eq.trans hdir)).congr (hp.cache d hdir).symm
    | none =>
      obtain ⟨s, s', honly, hr⟩ := (Pipeline.ran_of_leads (leads_of_run hcall)).exists_only rfl
      refine h.unadded fun key bytes hkey hfile ↦ ?_
      rwa [honly.fileAt?_eq (by simp [RunCache.places, hdir]) hr] at hfile
  cases answer with
  | error e => exact hholds
  | ok o =>
    obtain ⟨ho, ht⟩ := hcame.fits hfed (fun _ _ _ ↦ Inputs.Past.regular)
      (Inputs.regular_of_load hload hp.feeds) hsound
    have honly := @Inputs.onlyOr_conclude now _ _ _ (Inputs.slash_not_mem_of_load hload) ho ht
    refine hholds.unadded fun key bytes hkey hfile ↦ ?_
    have hspared := honly.fileAt?_eq (fun place hmem hup ↦
      (Tree.apart_comm.1 ((Tree.apart_comm.1 (hp.apart place hmem)).append
        [RunCache.fileName key])).1 hup) (leads_run _ root₁).reaches
    exact hspared.symm.trans hfile

theorem Inputs.Reached.holds (hfed : Set.InjOn Digest.blake3 fed) (h : i.Reached fed root) :
    RunCache.Holds (Kept (i.Past fed)) i.settings.cache root := by
  induction h with
  | start h =>
    intro key hkey bytes run hfile _
    have hnone := h key hkey
    rw [Tree.fileAt?_eq_some.2 hfile] at hnone
    cases hnone
  | @command root root' now args' report h hp hrun ih =>
    rw [run_eq_tell, attempt_bind] at hrun
    obtain rfl := congrArg Prod.snd hrun
    rcases attempt_load_cases args' root with ⟨e, hload⟩ | ⟨i', hload⟩
    · rw [hload]
      exact ih
    · rw [hload]
      exact holds_of_proceed hfed hload (hp i' hload) ih
  | edit h hsame ih => exact ih.unadded hsame

end Command

end Multicloud

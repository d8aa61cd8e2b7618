import Multicloud.Proofs.Disk.Course
import Multicloud.Proofs.Disk.Footprint
import Multicloud.Proofs.Run.Partition

namespace Multicloud

namespace RunCache

open Script

variable {c c' : RunCache} {root root' : Tree} {p d : Path} {key : String} {run : StoredRun}
  {run? : Option StoredRun}

theorem leads_readFile (h : Leads (readFile p) root run? root') :
    root' = root ∧ ∀ run, run? = some run → inFile? root p = some run := by
  obtain ⟨read, root₁, hread, hdone⟩ := leads_bind.1 h
  obtain ⟨bytes, root₂, hbytes, hread⟩ := leads_bind.1 hread
  obtain ⟨rfl, hanswer⟩ := leads_read hbytes
  cases bytes with
  | error e =>
    obtain ⟨rfl, rfl⟩ := leads_pure.1 hread
    obtain ⟨rfl, rfl⟩ := leads_pure.1 hdone
    exact ⟨rfl, nofun⟩
  | ok bytes =>
    have hfile : DiskOp.readFile root₂ p = .ok bytes := by
      rcases hanswer with hanswer | ⟨e, he⟩
      · exact hanswer.symm
      · cases he
    rw [inFile?, hfile]
    dsimp only at hread
    split at hread
    · next s hs =>
      obtain ⟨rfl, rfl⟩ := leads_pure.1 hread
      obtain ⟨rfl, rfl⟩ := leads_pure.1 hdone
      exact ⟨rfl, fun run hrun ↦ Option.bind_eq_some_iff.2
        ⟨bytes, rfl, Option.bind_eq_some_iff.2 ⟨s, hs, hrun⟩⟩⟩
    · obtain ⟨rfl, rfl⟩ := leads_pure.1 hread
      obtain ⟨rfl, rfl⟩ := leads_pure.1 hdone
      exact ⟨rfl, nofun⟩

/-- A run can be had for a key: it is in memory or can be read from its file. -/
def Offers (c : RunCache) (root : Tree) (key : String) (run : StoredRun) : Prop :=
  c.entries[key]? = some run ∨ ∃ d, c.dir = some d ∧ inFile? root (d.join (fileName key)) = some run

theorem leads_get (h : Leads (c.get key) root (run?, c') root') :
    root' = root ∧ c'.dir = c.dir ∧ ∀ run, run? = some run → c.Offers root key run := by
  unfold get at h
  split at h
  · next run hentry =>
    obtain ⟨heq, rfl⟩ := leads_pure.1 h
    cases heq
    exact ⟨rfl, rfl, fun run' he ↦ .inl (he ▸ hentry)⟩
  · obtain ⟨heq, rfl⟩ := leads_pure.1 h
    cases heq
    exact ⟨rfl, rfl, nofun⟩
  · next p hentry hfile =>
    obtain ⟨d, hd, rfl⟩ := exists_of_file?_eq_some hfile
    obtain ⟨read, root₁, hread, hdone⟩ := leads_bind.1 h
    obtain ⟨rfl, hrun⟩ := leads_readFile hread
    split at hdone
    · next run =>
      obtain ⟨heq, rfl⟩ := leads_pure.1 hdone
      cases heq
      exact ⟨rfl, rfl, fun run' he ↦ .inr ⟨d, hd, hrun run' he⟩⟩
    · obtain ⟨heq, rfl⟩ := leads_pure.1 hdone
      cases heq
      exact ⟨rfl, rfl, nofun⟩

theorem onlyOr_writeFile (hkey : Digest.IsDigest key) (d : Path) (run : StoredRun) :
    Only (DiskOp.Within d.trail [d.names]) (writeFile (d.join (fileName key)) run) := by
  have hd : d.Within d.trail [d.names] :=
    Path.within_of_mem (List.Subset.refl _) (List.mem_singleton.2 rfl)
  have hfile := hd.join (isName_fileName hkey)
  have hdraft : ((d.join (fileName key)).withExtension "json.tmp").Within d.trail [d.names] := by
    rw [draft_eq d hkey]
    exact hd.join (isName_draftName hkey)
  have hfill : OnlyOr (DiskOp.Within d.trail [d.names]) (fill (d.join (fileName key)) run) :=
    OnlyOr.bind (onlyOr_orElse (only_step (DiskOp.within_of_path rfl rfl hdraft)))
      fun _ ↦ onlyOr_orElse (only_step (DiskOp.within_rename hdraft hfile))
  unfold writeFile
  cases hparent : (d.join (fileName key)).parent? with
  | none => exact hfill
  | some dir =>
    exact OnlyOr.bind (onlyOr_orElse (only_step (.makeDirs fun m hm ↦
      hfile.trail m (Path.trail_parent? hparent hm)))) fun _ ↦ hfill

def way (c : RunCache) : List (List String) := (c.dir.map Path.trail).getD []

def places (c : RunCache) : List (List String) := (c.dir.map fun d ↦ [d.names]).getD []

theorem only_put (hkey : Digest.IsDigest key) (c : RunCache) (run : StoredRun) :
    Only (DiskOp.Within c.way c.places) (c.put key run) := by
  have hfile : c.file? key = c.dir.map fun d ↦ d.join (fileName key) := rfl
  unfold put way places
  rw [hfile]
  cases c.dir with
  | none => exact only_pure _
  | some d => exact (onlyOr_writeFile hkey d run).bind fun _ ↦ only_pure _

end RunCache

namespace Pipeline

open Script

variable {p : Pipeline} {g : ResourceGraph} {targets : List Provider} {x : Call}
  {c c' : RunCache} {root root' : Tree} {plan : Plan} {previous : Option LockEntry}
  {o? : Option Outcome} {answer : Except SynthesisError Outcome}

theorem leads_reuse (h : Leads (p.reuse c plan previous) root (o?, c') root') :
    root' = root ∧ c'.dir = c.dir ∧ ∀ o, o? = some o → plan.unbound = ∅ ∧
      ∃ run, o = reused plan run ∧
        c.Offers root (plan.binding.key p.digest plan.graphHash) run := by
  unfold reuse at h
  split at h
  · split at h
    · obtain ⟨heq, rfl⟩ := leads_pure.1 h
      cases heq
      exact ⟨rfl, rfl, nofun⟩
    · next hcond =>
      obtain ⟨⟨run?, c₁⟩, root₁, hget, hdone⟩ := leads_bind.1 h
      obtain ⟨rfl, hdir, hrun⟩ := RunCache.leads_get hget
      obtain ⟨heq, rfl⟩ := leads_pure.1 hdone
      cases heq
      refine ⟨rfl, hdir, fun o ho ↦ ?_⟩
      obtain ⟨run, rfl, rfl⟩ := Option.map_eq_some_iff.1 ho
      rw [Bool.or_eq_true, not_or, Bool.not_eq_true, Bool.not_eq_false',
        Std.ExtTreeMap.isEmpty_iff] at hcond
      exact ⟨hcond.1, run, rfl, hrun run rfl⟩
  · obtain ⟨heq, rfl⟩ := leads_pure.1 h
    cases heq
    exact ⟨rfl, rfl, nofun⟩

/-- What can come of a call when any of its operations can fail. -/
inductive Ran (p : Pipeline) (x : Call) (c : RunCache) (root : Tree) :
    Except SynthesisError Outcome → Tree → Prop
  | refused (h : x.targets = []) : Ran p x c root (.error .noTargets) root
  | reused {plan : Plan} {run : StoredRun} (hplan : Planned p x.graph x.targets plan)
      (hu : plan.unbound = ∅)
      (hrun : c.Offers root (plan.binding.key p.digest plan.graphHash) run) :
      Ran p x c root (.ok (reused plan run)) root
  | worked {plan : Plan} {runs : TargetRuns} {c₁ c₂ : RunCache} {root' : Tree}
      (hplan : Planned p x.graph x.targets plan)
      (hw : Worked (p.walk x.graph) plan.binding.toList runs) (hdir : c₁.dir = c.dir)
      (hkeep : Leads (p.keep c₁ (assemble x.graph plan runs)) root c₂ root') :
      Ran p x c root (.ok (assemble x.graph plan runs)) root'

theorem ran_of_leads (h : Leads (p.call c x) root (answer, c') root') :
    Ran p x c root answer root' := by
  rw [call_eq_run] at h
  unfold Pipeline.run at h
  split at h
  · next e hplan =>
    obtain ⟨heq, rfl⟩ := leads_pure.1 h
    cases heq
    obtain ⟨rfl, ht⟩ := plan_eq_error hplan
    exact .refused ht
  · next plan hplan =>
    have hplan := plan_eq_ok hplan
    obtain ⟨⟨o?, c₁⟩, root₁, hreuse, hrest⟩ := leads_bind.1 h
    obtain ⟨rfl, hdir, hrun⟩ := leads_reuse hreuse
    dsimp only at hrest
    split at hrest
    · next o =>
      obtain ⟨heq, rfl⟩ := leads_pure.1 hrest
      cases heq
      obtain ⟨hu, run, rfl, hoffers⟩ := hrun o rfl
      exact .reused hplan hu hoffers
    · obtain ⟨c₂, root₂, hkeep, hdone⟩ := leads_bind.1 hrest
      obtain ⟨heq, rfl⟩ := leads_pure.1 hdone
      cases heq
      exact .worked hplan (x.manner.worked (p.walk x.graph) plan.binding) hdir hkeep

theorem only_keep (hp : p.digest = Digest.blake3) (c : RunCache) (o : Outcome) :
    Only (DiskOp.Within c.way c.places) (p.keep c o) := by
  unfold keep
  split
  · exact RunCache.only_put (isDigest_key_of_digest hp _ _) c _
  · exact only_pure _

/-- A call does nothing to the disk but in the directory of its cache and on the way there. -/
theorem Ran.exists_only (h : Ran p x c root answer root') (hp : p.digest = Digest.blake3) :
    ∃ s s' : Script RunCache, Only (DiskOp.Within c.way c.places) s ∧
      Reaches s root s' root' := by
  cases h with
  | refused ht => exact ⟨pure c, _, only_pure c, .here _ _⟩
  | reused hplan hu hrun => exact ⟨pure c, _, only_pure c, .here _ _⟩
  | @worked plan runs c₁ c₂ root' hplan hw hdir hkeep =>
    refine ⟨_, _, ?_, hkeep.reaches⟩
    have honly := only_keep hp c₁ (assemble x.graph plan runs)
    rwa [RunCache.way, RunCache.places, hdir] at honly

end Pipeline

end Multicloud

import Mathlib.Logic.Relation
import Multicloud.Proofs.Lock.Log
import Multicloud.Proofs.Run.Call
import Multicloud.Proofs.Run.Noninterference

namespace Multicloud

namespace RunCache

variable {c c' : RunCache} {root root' : Tree} {key : String} {run : StoredRun}

theorem Has.of_disk (h : Has c root key run)
    (hdisk : ∀ d, c.dir = some d → inFile? root (d.join (fileName key)) = some run →
      inFile? root' (d.join (fileName key)) = some run) : Has c root' key run :=
  ⟨h.memory, h.present, fun d hd ↦ hdisk d hd (h.file d hd)⟩

/-- The disk may change, but what could be read from the files of a cache still can. -/
def Spared (c : RunCache) (root root' : Tree) : Prop :=
  ∀ d, c.dir = some d → ∀ key run, Digest.IsDigest key →
    inFile? root (d.join (fileName key)) = some run →
    inFile? root' (d.join (fileName key)) = some run

theorem Backed.spared (h : Backed c root) (hs : c.Spared root root') : Backed c root' :=
  fun d hd key run hkey he ↦ hs d hd key run hkey (h d hd key run hkey he)

theorem Has.spared (h : Has c root key run) (hkey : Digest.IsDigest key)
    (hs : c.Spared root root') : Has c root' key run :=
  h.of_disk fun d hd ↦ hs d hd key run hkey

end RunCache

namespace LockLog

variable {log : LockLog} {now : Instant} {workload graphHash : String} {b : Binding}
  {targets : List Provider} {root root' : Tree} {e : LockEntry} {c : RunCache}

def Apart (log : LockLog) (c : RunCache) : Prop :=
  ∀ d, c.dir = some d → ∀ key, Digest.IsDigest key →
    log.path.names ≠ d.names ++ [RunCache.fileName key]

theorem names_standardPath : standardPath.names = ["nebulaforge.lock"] := by decide +kernel

theorem apart_standardPath (c : RunCache) : Apart ⟨standardPath⟩ c := by
  intro d _ key _ he
  have he : ["nebulaforge.lock"] = d.names ++ [RunCache.fileName key] :=
    names_standardPath.symm.trans he
  have hlast := congrArg (fun names ↦ (names.getLast?.map String.toList).bind List.getLast?) he
  simp [RunCache.fileName] at hlast

theorem spared_commit (ha : log.Apart c)
    (h : (log.commit now workload graphHash b targets).run root = (.ok e, root')) :
    c.Spared root root' := by
  intro d hd key run hkey hfile
  refine RunCache.inFile?_of_keeps ?_ hfile
  rw [RunCache.names_file d hkey]
  exact keeps_commit h (ha d hd key hkey)

end LockLog

namespace Pipeline

variable {fed : Set ByteArray} {p : Pipeline} {x : Call} {c c' : RunCache} {root root' : Tree}
  {answer : Except SynthesisError Outcome} {o : Outcome} {plan : Plan} {run : StoredRun}
  {key graphHash : String}

section Written

def Wrote (p : Pipeline) (c : RunCache) (x : Call) (root : Tree) : Prop :=
  ∀ o c' root', (p.call c x).run root = ((.ok o, c'), root') → o.mode = .full →
    o.isComplete = true → ∀ d, c.dir = some d →
      ((RunCache.writeFile (d.join (RunCache.fileName (o.binding.key p.digest o.graphHash)))
        o.stored).run root).1 = .ok ()

/-- The caches that calls leave behind, with their disks, when nothing fails to be written. -/
inductive Used : RunCache → Tree → Prop
  | inMemory (root : Tree) : Used .inMemory root
  | inDir (d : Path) (root : Tree) : Used (.inDir d) root
  | call {c c' : RunCache} {root root' : Tree} {p : Pipeline} {x : Call}
      {answer : Except SynthesisError Outcome} (h : Used c root) (hp : p.digest = Digest.blake3)
      (hx : (p.call c x).run root = ((answer, c'), root')) (hw : Wrote p c x root) : Used c' root'
  | elsewhere {c : RunCache} {root root' : Tree} (h : Used c root) (hs : c.Spared root root') :
      Used c root'

/-- A call whose run is written keeps memory and files together, and what it answers is there. -/
theorem backed_call (h : RunCache.Backed c root) (hp : p.digest = Digest.blake3)
    (hx : (p.call c x).run root = ((answer, c'), root')) (hw : Wrote p c x root) :
    RunCache.Backed c' root' ∧ ∀ o, answer = .ok o → o.isComplete = true →
      RunCache.Has c' root' (o.binding.key p.digest o.graphHash) o.stored := by
  cases came_of_run hx with
  | refused ht => exact ⟨h, fun o ho ↦ by cases ho⟩
  | dropped hplan hc =>
    refine ⟨h, fun o ho hcomplete ↦ ?_⟩
    obtain rfl := Except.ok.inj ho
    rw [hc] at hcomplete
    cases hcomplete
  | @reused plan e run c' hplan hu he hc hget =>
    obtain ⟨hbacked, hhas⟩ := h.get (isDigest_key_of_digest hp _ _) hget
    refine ⟨hbacked, fun o ho _ ↦ ?_⟩
    obtain rfl := Except.ok.inj ho
    exact hhas
  | @kept plan runs c' root' hplan hruns hc hput =>
    have hkey := isDigest_key_of_digest hp plan.binding plan.graphHash
    have hfile := hw _ _ _ hx rfl hc
    rw [binding_assemble, graphHash_assemble] at hfile
    obtain ⟨hbacked, hhas⟩ := h.put hkey hfile
    rw [hput] at hbacked hhas
    refine ⟨hbacked, fun o ho _ ↦ ?_⟩
    obtain rfl := Except.ok.inj ho
    rwa [binding_assemble, graphHash_assemble]

theorem Used.backed (h : Used c root) : RunCache.Backed c root := by
  induction h with
  | inMemory root => exact fun d hd ↦ by cases hd
  | inDir d root => exact fun _ _ key run _ he ↦ by simp [RunCache.inDir] at he
  | call _ hp hx hw ih => exact (backed_call ih hp hx hw).1
  | elsewhere _ hs ih => exact ih.spared hs

end Written

section Between

/-- What may come between two calls about a graph: calls about graphs with other digests, here or
with another cache on the same disk, another cache in place of this one, and changes elsewhere. -/
inductive Between (fed : Set ByteArray) (graphHash : String) :
    RunCache × Tree → RunCache × Tree → Prop
  | call {c c' : RunCache} {root root' : Tree} {p : Pipeline} {x : Call}
      {answer : Except SynthesisError Outcome} (hp : p.digest = Digest.blake3)
      (hf : Feeds fed p x.graph x.targets) (hne : x.graph.hash p.digest ≠ graphHash)
      (hx : (p.call c x).run root = ((answer, c'), root')) :
      Between fed graphHash (c, root) (c', root')
  | callBeside {c c₁ c₂ : RunCache} {root root' : Tree} {p : Pipeline} {x : Call}
      {answer : Except SynthesisError Outcome} (hp : p.digest = Digest.blake3)
      (hf : Feeds fed p x.graph x.targets) (hne : x.graph.hash p.digest ≠ graphHash)
      (hx : (p.call c₁ x).run root = ((answer, c₂), root')) :
      Between fed graphHash (c, root) (c, root')
  | restart {c : RunCache} {root : Tree} {d : Path} (hd : c.dir = some d) :
      Between fed graphHash (c, root) (.inDir d, root)
  | elsewhere {c : RunCache} {root root' : Tree} (hs : c.Spared root root') :
      Between fed graphHash (c, root) (c, root')

/-- Runs over graphs with different digests have different keys. -/
theorem key_ne_of_hash_ne (hfed : Set.InjOn Digest.blake3 fed) (hp : p.digest = Digest.blake3)
    (hf : Feeds fed p x.graph x.targets) (hplan : Planned p x.graph x.targets plan)
    (hne : x.graph.hash p.digest ≠ graphHash) (hgraph : Digest.IsDigest graphHash) {b : Binding}
    (hb : b.stream graphHash ∈ fed) :
    plan.binding.key p.digest plan.graphHash ≠ b.key Digest.blake3 graphHash := by
  intro he
  rw [hp, Binding.key_eq, Binding.key_eq] at he
  have hdigest : Digest.IsDigest plan.graphHash := hplan.isDigest_graphHash hp
  have hstream := hfed (hf plan hplan.plan_eq).2 hb he
  obtain ⟨hhash, -⟩ := Binding.stream_inj hdigest.zero_not_mem hgraph.zero_not_mem hstream
  exact hne (hplan.graphHash.symm.trans hhash)

theorem Came.dir_eq (h : Came p x c root answer c' root') : c'.dir = c.dir := by
  cases h with
  | refused ht => rfl
  | dropped hplan hc => rfl
  | reused hplan hu he hc hget =>
    rw [RunCache.run_get] at hget
    split at hget
    · obtain ⟨-, rfl⟩ := Prod.mk.inj (Prod.mk.inj hget).1
      rfl
    · cases hget
    · split at hget
      · obtain ⟨-, rfl⟩ := Prod.mk.inj (Prod.mk.inj hget).1
        rfl
      · cases hget
  | kept hplan hruns hc hput =>
    rw [RunCache.run_put] at hput
    obtain ⟨rfl, -⟩ := Prod.mk.inj hput
    rfl

theorem Came.keeps (h : Came p x c root answer c' root') (hp : p.digest = Digest.blake3)
    {names : List String}
    (hdraft : ∀ (d : Path) key, d.names ++ [RunCache.draftName key] ≠ names)
    (hfile : ∀ (d : Path) plan, Planned p x.graph x.targets plan →
      d.names ++ [RunCache.fileName (plan.binding.key p.digest plan.graphHash)] ≠ names) :
    root.Keeps root' names := by
  cases h with
  | refused ht => exact .refl root names
  | dropped hplan hc => exact .refl root names
  | reused hplan hu he hc hget => exact .refl root names
  | @kept plan runs c' root' hplan hruns hc hput =>
    rw [RunCache.run_put] at hput
    obtain ⟨-, rfl⟩ := Prod.mk.inj hput
    cases c.dir with
    | none => exact .refl root names
    | some d =>
      exact RunCache.keeps_writeFile (isDigest_key_of_digest hp _ _) _ root (hdraft d _)
        (hfile d plan hplan)

theorem Came.inFile?_of_key_ne (h : Came p x c root answer c' root')
    (hp : p.digest = Digest.blake3) (hkey : Digest.IsDigest key)
    (hne : ∀ plan, Planned p x.graph x.targets plan →
      plan.binding.key p.digest plan.graphHash ≠ key) (d : Path)
    (hfile : RunCache.inFile? root (d.join (RunCache.fileName key)) = some run) :
    RunCache.inFile? root' (d.join (RunCache.fileName key)) = some run := by
  refine RunCache.inFile?_of_keeps ?_ hfile
  rw [RunCache.names_file d hkey]
  exact h.keeps hp (fun _ _ ↦ RunCache.names_draft_ne) fun _ plan hplan ↦
    RunCache.names_ne_of_key_ne (isDigest_key_of_digest hp _ _) hkey (hne plan hplan)

theorem Came.has_of_key_ne (h : Came p x c root answer c' root') (hp : p.digest = Digest.blake3)
    (hkey : Digest.IsDigest key)
    (hne : ∀ plan, Planned p x.graph x.targets plan →
      plan.binding.key p.digest plan.graphHash ≠ key)
    (hhas : RunCache.Has c root key run) : RunCache.Has c' root' key run := by
  cases h with
  | refused ht => exact hhas
  | dropped hplan hc => exact hhas
  | reused hplan hu he hc hget => exact (hhas.get_of_ne (hne _ hplan) hget).2
  | @kept plan runs c' root' hplan hruns hc hput =>
    have hput' := hhas.put_of_ne hkey (isDigest_key_of_digest hp _ _) (hne plan hplan)
      (assemble x.graph plan runs).stored
    rwa [hput] at hput'

theorem has_between (hfed : Set.InjOn Digest.blake3 fed) (hgraph : Digest.IsDigest graphHash)
    {b : Binding} (hb : b.stream graphHash ∈ fed) {s s' : RunCache × Tree}
    (hs : Between fed graphHash s s')
    (h : RunCache.Has s.1 s.2 (b.key Digest.blake3 graphHash) run) :
    RunCache.Has s'.1 s'.2 (b.key Digest.blake3 graphHash) run := by
  have hkey : Digest.IsDigest (b.key Digest.blake3 graphHash) := ⟨b.stream graphHash, rfl⟩
  cases hs with
  | call hp hf hne hx =>
    exact (came_of_run hx).has_of_key_ne hp hkey
      (fun _ hplan ↦ key_ne_of_hash_ne hfed hp hf hplan hne hgraph hb) h
  | callBeside hp hf hne hx =>
    have hkeys (plan : Plan) (hplan : Planned _ _ _ plan) :=
      key_ne_of_hash_ne hfed hp hf hplan hne hgraph hb
    exact h.of_disk fun d _ ↦ (came_of_run hx).inFile?_of_key_ne hp hkey hkeys d
  | restart hd => exact h.inDir hd
  | elsewhere hs => exact h.spared hkey hs

theorem has_between_star (hfed : Set.InjOn Digest.blake3 fed) (hgraph : Digest.IsDigest graphHash)
    {b : Binding} (hb : b.stream graphHash ∈ fed) {s s' : RunCache × Tree}
    (hs : Relation.ReflTransGen (Between fed graphHash) s s')
    (h : RunCache.Has s.1 s.2 (b.key Digest.blake3 graphHash) run) :
    RunCache.Has s'.1 s'.2 (b.key Digest.blake3 graphHash) run := by
  induction hs with
  | refl => exact h
  | tail _ hs ih => exact has_between hfed hgraph hb hs ih

end Between

theorem Came.exists_plan (h : Came p x c root (.ok o) c' root') (ho : o.isComplete = true) :
    ∃ plan, Planned p x.graph x.targets plan ∧ plan.unbound = ∅ ∧ o.graphHash = plan.graphHash ∧
      o.binding = plan.binding := by
  cases h with
  | reused hplan hu he hc hget => exact ⟨_, hplan, hu, rfl, rfl⟩
  | kept hplan hruns hc hput => exact ⟨_, hplan, (of_isComplete_assemble hc).1, rfl, rfl⟩
  | dropped hplan hc =>
    rw [hc] at ho
    cases ho

theorem reused_stored_eq (ho : o.isComplete = true) (hg : o.graphHash = plan.graphHash)
    (hb : o.binding = plan.binding) : reused plan o.stored = { o with mode := .incremental } := by
  obtain ⟨hf, hc⟩ := Outcome.isComplete_iff.1 ho
  cases o
  cases hg
  cases hb
  cases hf
  cases hc
  rfl

theorem Planned.covers_entry (h : Planned p x.graph x.targets plan) (hu : plan.unbound = ∅)
    {committed : List Provider} (hcommitted : ∀ t, t ∈ committed ↔ t ∈ x.targets) (now : Instant)
    (workload : String) :
    (LockLog.entry now workload plan.graphHash plan.binding committed).covers plan.graphHash
      plan.binding = true := by
  have htargets : (Std.ExtTreeSet.ofList committed compare).toList = plan.binding.keys := by
    rw [h.keys_binding hu, h.requested, ofList_congr hcommitted]
  simp [LockEntry.covers, LockLog.entry, htargets]

/-- With an entry that covers it, a run that is there is taken. -/
theorem run_call_of_has {e : LockEntry} (hplan : p.plan x.graph x.targets = .ok plan)
    (hu : plan.unbound = ∅) (he : x.previous = some e)
    (hc : e.covers plan.graphHash plan.binding = true)
    (h : RunCache.Has c root (plan.binding.key p.digest plan.graphHash) run) :
    ∃ c', (p.call c x).run root = ((.ok (reused plan run), c'), root) := by
  obtain ⟨c', hget⟩ := h.get
  have hrun (work : Bound → TargetRuns) :
      (p.run c x.graph x.targets x.previous work).run root =
        ((.ok (reused plan run), c'), root) := by
    rw [Pipeline.run, hplan, he]
    dsimp only
    rw [Script.run_bind, run_reuse_of_covers hu hc, hget]
    rfl
  refine ⟨c', ?_⟩
  unfold call
  cases x.manner with
  | inTurn cancelAfter => exact hrun _
  | sideBySide events => exact hrun _

/-- Once a complete run is committed, the entry covers it, is read again from the log, where only an
entry with a later time can hide it, and brings the run back for the same graph and targets, from the
cache that it was kept in as from another one over the same files, as long as only other graphs came
in between. -/
theorem reused_of_commit (hfed : Set.InjOn Digest.blake3 fed) (hp : p.digest = Digest.blake3)
    (hc : Used c root) (hf : Feeds fed p x.graph x.targets) (hw : Wrote p c x root)
    {c₁ c₂ c₃ : RunCache} {root₁ root₂ root₃ root₄ : Tree}
    (hx : (p.call c x).run root = ((.ok o, c₁), root₁)) (ho : o.isComplete = true)
    (hbefore : Relation.ReflTransGen (Between fed o.graphHash) (c₁, root₁) (c₂, root₂))
    {log : LockLog} (hlog : log.Apart c₂) {now : Instant} {workload : String}
    {committed : List Provider} (hcommitted : ∀ t, t ∈ committed ↔ t ∈ x.targets) {e : LockEntry}
    (hcommit : (log.commit now workload o.graphHash o.binding committed).run root₂ =
      (.ok e, root₃))
    (hafter : Relation.ReflTransGen (Between fed o.graphHash) (c₂, root₃) (c₃, root₄)) :
    e.covers o.graphHash o.binding = true ∧
      (∀ es, log.Holds root₂ es → log.history.run root₃ = (.ok (es ++ [e]), root₃) ∧
        ∃ last, (log.lastFor workload).run root₃ = (.ok (some last), root₃) ∧
          (last = e ∨ last ∈ es ∧ last.workload = workload ∧
            (compare last.time e.time).isGT = true)) ∧
      ∀ targets manner, (∀ t, t ∈ targets ↔ t ∈ x.targets) →
        (∃ c', (p.call c₃ ⟨x.graph, targets, some e, manner⟩).run root₄ =
          ((.ok { o with mode := .incremental }, c'), root₄)) ∧
        ∀ d, c₃.dir = some d →
          ∃ c', (p.call (.inDir d) ⟨x.graph, targets, some e, manner⟩).run root₄ =
            ((.ok { o with mode := .incremental }, c'), root₄) := by
  obtain ⟨plan, hplan, hu, hgraph, hbinding⟩ := (came_of_run hx).exists_plan ho
  have hcovers : e.covers o.graphHash o.binding = true := by
    rw [(LockLog.commit_eq_ok hcommit).1, hgraph, hbinding]
    exact hplan.covers_entry hu hcommitted now workload
  refine ⟨hcovers, fun es hes ↦ ⟨(hes.commit hcommit).2, hes.lastFor_commit hcommit⟩,
    fun targets manner htargets ↦ ?_⟩
  have hdigest : Digest.IsDigest o.graphHash := by
    rw [hgraph]
    exact hplan.isDigest_graphHash hp
  have hfeeds : o.binding.stream o.graphHash ∈ fed := by
    rw [hgraph, hbinding]
    exact (hf plan hplan.plan_eq).2
  have hhas : RunCache.Has c₃ root₄ (o.binding.key p.digest o.graphHash) o.stored := by
    have hkept := (backed_call hc.backed hp hx hw).2 o rfl ho
    rw [hp] at hkept ⊢
    have hkept := has_between_star hfed hdigest hfeeds hbefore hkept
    have hkept := hkept.spared ⟨_, rfl⟩ (LockLog.spared_commit hlog hcommit)
    exact has_between_star hfed hdigest hfeeds hafter hkept
  have hreuse {c : RunCache}
      (h : RunCache.Has c root₄ (o.binding.key p.digest o.graphHash) o.stored) :
      ∃ c', (p.call c ⟨x.graph, targets, some e, manner⟩).run root₄ =
        ((.ok { o with mode := .incremental }, c'), root₄) := by
    rw [← reused_stored_eq ho hgraph hbinding]
    rw [hgraph, hbinding] at h hcovers
    have hplan' : p.plan x.graph targets = .ok plan :=
      (plan_congr p x.graph htargets).trans hplan.plan_eq
    exact run_call_of_has (x := ⟨x.graph, targets, some e, manner⟩) hplan' hu rfl hcovers h
  exact ⟨hreuse hhas, fun d hd ↦ hreuse (hhas.inDir hd)⟩

section Lone

def bare : Tree := .dir [("cache", .dir []), ("nebulaforge.lock", .file "".toUTF8)]

def loneCall : Call := ⟨loneGraph, [Shipped.aws], none, .inTurn none⟩

def lonePlan : Plan := ⟨loneGraph.hash Digest.blake3, [Shipped.aws], lonePins, ∅⟩

theorem planned_lonePlan : Planned (shipped lonePins) loneGraph [Shipped.aws] lonePlan where
  graphHash := rfl
  requested := by decide +kernel
  requested_ne := by decide
  binding := by decide +kernel
  unbound := by decide +kernel

def epoch : Instant := ⟨0, 0, by decide, by decide⟩

theorem complete_lonePlan : (fresh loneGraph lonePlan).isComplete = true := by decide +kernel

theorem run_loneCall : ∃ c root, ((shipped lonePins).call (.inDir ⟨"cache"⟩) loneCall).run bare =
    ((.ok (fresh loneGraph lonePlan), c), root) := by
  obtain ⟨answer, c, root, hx, -⟩ := came_call (shipped lonePins) (.inDir ⟨"cache"⟩) loneCall bare
  have hanswer := synthesize_none (.inDir ⟨"cache"⟩) loneGraph lonePins [Shipped.aws] bare
  have hcall : (shipped lonePins).call (.inDir ⟨"cache"⟩) loneCall =
      (shipped lonePins).synthesize (.inDir ⟨"cache"⟩) loneGraph [Shipped.aws] none none := by
    simp only [call, loneCall]
  rw [← hcall, hx, planned_lonePlan.plan_eq] at hanswer
  obtain rfl : answer = .ok (fresh loneGraph lonePlan) := hanswer
  exact ⟨c, root, hx⟩

theorem wrote_loneCall : Wrote (shipped lonePins) (.inDir ⟨"cache"⟩) loneCall bare := by
  intro o c root hx _ _ d hd
  obtain ⟨c', root', hx'⟩ := run_loneCall
  obtain rfl : o = fresh loneGraph lonePlan := by
    rw [hx'] at hx
    exact (Except.ok.inj (Prod.mk.inj (Prod.mk.inj hx).1).1).symm
  obtain rfl : ⟨"cache"⟩ = d := Option.some.inj hd
  exact RunCache.run_writeFile_eq_ok ⟨""⟩ "cache" (isDigest_key_of_digest rfl _ _)
    ⟨by decide, by decide, by decide⟩ rfl ⟨by decide, by decide, by decide, by decide⟩ (by decide)
    (by decide) nofun nofun

theorem commit_loneCall {c : RunCache} {root : Tree}
    (hx : ((shipped lonePins).call (.inDir ⟨"cache"⟩) loneCall).run bare =
      ((.ok (fresh loneGraph lonePlan), c), root)) (now : Instant) (targets : List Provider) :
    LockLog.Holds ⟨LockLog.standardPath⟩ root [] ∧
      ∃ e root', (LockLog.commit ⟨LockLog.standardPath⟩ now "default/w"
        (fresh loneGraph lonePlan).graphHash (fresh loneGraph lonePlan).binding targets).run root =
          (.ok e, root') := by
  have hkeeps : bare.Keeps root LockLog.standardPath.names := by
    rw [LockLog.names_standardPath]
    refine (came_of_run hx).keeps rfl (fun d key he ↦ ?_) fun d plan _ he ↦ ?_
    · have hlast := congrArg (fun names ↦ (names.getLast?.map String.toList).bind List.getLast?) he
      simp [RunCache.draftName] at hlast
    · have hlast := congrArg (fun names ↦ (names.getLast?.map String.toList).bind List.getLast?) he
      simp [RunCache.fileName] at hlast
  have hplace : bare.place LockLog.standardPath = .ok LockLog.standardPath.names := rfl
  have hfile : root.get? LockLog.standardPath.names = some (.file "".toUTF8) :=
    hkeeps.file _ rfl
  refine ⟨⟨"", .inl rfl, rfl, .inl hfile⟩, ?_⟩
  exact LockLog.commit_of_file rfl (Tree.place_of_keepsDirs hkeeps.dirs hplace) rfl hfile

theorem reused_of_commit_loneCall : ∃ (o : Outcome) (c : RunCache) (root : Tree) (e : LockEntry)
    (root' : Tree) (c' c'' : RunCache),
    ((shipped lonePins).call (.inDir ⟨"cache"⟩) loneCall).run bare = ((.ok o, c), root) ∧
      (LockLog.commit ⟨LockLog.standardPath⟩ epoch "default/w" o.graphHash
        o.binding [Shipped.aws, Shipped.aws]).run root = (.ok e, root') ∧
      e.covers o.graphHash o.binding = true ∧
      (LockLog.lastFor ⟨LockLog.standardPath⟩ "default/w").run root' = (.ok (some e), root') ∧
      ((shipped lonePins).call c ⟨loneGraph, [Shipped.aws], some e, .sideBySide []⟩).run root' =
        ((.ok { o with mode := .incremental }, c'), root') ∧
      ((shipped lonePins).call (.inDir ⟨"cache"⟩)
        ⟨loneGraph, [Shipped.aws, Shipped.aws], some e, .inTurn none⟩).run root' =
          ((.ok { o with mode := .incremental }, c''), root') := by
  obtain ⟨c, root, hx⟩ := run_loneCall
  obtain ⟨hlog, e, root', hcommit⟩ :=
    commit_loneCall hx epoch [Shipped.aws, Shipped.aws]
  have htwice : ∀ t, t ∈ [Shipped.aws, Shipped.aws] ↔ t ∈ loneCall.targets := by
    simp [loneCall]
  have hdir : c.dir = some ⟨"cache"⟩ := (came_of_run hx).dir_eq
  obtain ⟨hcovers, hlast, hcall⟩ := reused_of_commit (p := shipped lonePins) (x := loneCall)
    injOn_loneFed rfl (.inDir ⟨"cache"⟩ bare) feeds_loneFed wrote_loneCall hx complete_lonePlan
    .refl (LockLog.apart_standardPath c) htwice hcommit .refl
  obtain ⟨-, last, hlastFor, he⟩ := hlast [] hlog
  obtain rfl : last = e := he.resolve_right fun h ↦ by cases h.1
  obtain ⟨⟨c', hsame⟩, -⟩ := hcall [Shipped.aws] (.sideBySide []) fun _ ↦ .rfl
  obtain ⟨-, hother⟩ := hcall [Shipped.aws, Shipped.aws] (.inTurn none) htwice
  obtain ⟨c'', hother⟩ := hother ⟨"cache"⟩ hdir
  exact ⟨_, c, root, last, root', c', c'', hx, hcommit, hcovers, hlastFor, hsame, hother⟩

end Lone

end Pipeline

end Multicloud

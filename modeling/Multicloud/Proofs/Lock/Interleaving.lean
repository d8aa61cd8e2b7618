import Multicloud.Proofs.Disk.Interleaving
import Multicloud.Proofs.Lock.Append

namespace Multicloud.LockLog

open Script (Shared Within)

structure Commit where
  now : Instant
  workload : String
  graphHash : String
  binding : Binding
  targets : List Provider

namespace Commit

variable (c : Commit)

def entry : LockEntry := LockLog.entry c.now c.workload c.graphHash c.binding c.targets

def script (log : LockLog) : Script (Except LockError LockEntry) :=
  log.commit c.now c.workload c.graphHash c.binding c.targets

end Commit

variable {log : LockLog} {root root₁ root' : Tree} {es : List LockEntry} {e : LockEntry}

section Script

def adding (log : LockLog) (e : LockEntry) : Script (Except LockError LockEntry) :=
  .perform (.append log.path (e.toJson.line ++ "\n").toUTF8) fun answer ↦
    .done ((answer.mapError (.io log.path)).map fun _ ↦ e)

/-- A commit that has directories to make. -/
def making (log : LockLog) (dir : Path) (e : LockEntry) : Script (Except LockError LockEntry) :=
  .perform (.makeDirs dir) fun answer ↦
    match answer with
    | .ok _ => log.adding e
    | .error cause => .done (.error (.io dir cause))

theorem run_record (log : LockLog) (e : LockEntry) :
    (log.record e).run = log.adding e := by
  refine congrArg (Script.perform _) (funext fun answer ↦ ?_)
  cases answer <;> rfl

theorem script_eq (c : Commit) (log : LockLog) :
    c.script log =
      match log.above? with
      | none => log.adding c.entry
      | some dir => log.making dir c.entry := by
  rw [Commit.script, commit_eq]
  cases log.above? with
  | none => exact run_record log c.entry
  | some dir =>
    refine congrArg (Script.perform _) (funext fun answer ↦ ?_)
    cases answer with
    | error cause => rfl
    | ok u => exact run_record log c.entry

theorem run_adding (log : LockLog) (e : LockEntry) (root : Tree) :
    (log.adding e).run root =
      match DiskOp.change root log.path
        (fun old ↦ old.getD .empty ++ (e.toJson.line ++ "\n").toUTF8) with
      | .ok root' => (.ok e, root')
      | .error cause => (.error (.io log.path cause), root) := by
  rw [← run_record]
  exact attempt_record log e root

theorem within_script (c : Commit) (log : LockLog) : Within 2 (c.script log) := by
  rw [script_eq]
  split
  · exact fun _ ↦ trivial
  · intro answer
    cases answer with
    | error cause => trivial
    | ok u => exact fun _ ↦ trivial

theorem script_ne_done (c : Commit) (log : LockLog) (a : Except LockError LockEntry) :
    c.script log ≠ .done a := by
  rw [script_eq]
  split <;> exact nofun

end Script

section Grown

structure Vacant (log : LockLog) (root : Tree) : Prop where
  unseen : Script.textAt root log.path = .error .notFound
  absent : root.get? log.path.names = none
  opens : ∃ (c : Commit) (e : LockEntry) (root' : Tree), (c.script log).run root = (.ok e, root')

/-- All directories on the way to the file are there, those of another disk and those made for
it. -/
structure Opened (log : LockLog) (root root₁ : Tree) : Prop where
  isDir : root.isDir = true
  same : log.above? = none → root₁ = root
  made : ∀ dir ∈ log.above?, DiskOp.makeAll root dir = (.ok (), root₁)
  place : root₁.place log.path = .ok log.path.names
  asksDirectory : log.path.asksDirectory = false
  absent : root₁.get? log.path.names = none

theorem isDir_of_place (h : root.place log.path = .ok log.path.names)
    (habsent : root.get? log.path.names = none) : root.isDir = true := by
  cases root with
  | dir entries => rfl
  | file bytes =>
    rcases List.eq_nil_or_concat log.path.names with hn | ⟨base, x, hn⟩
    · rw [hn] at habsent
      cases habsent
    · rw [List.concat_eq_append] at hn
      rw [hn] at h
      obtain ⟨entries, hd⟩ := Tree.get?_dir_of_place h
      cases base <;> cases hd

theorem isDir_of_keeps (h : root.Keeps root₁ []) (hdir : root₁.isDir = true) :
    root.isDir = true := by
  cases root with
  | dir entries => rfl
  | file bytes =>
    have hfile := h.file bytes rfl
    rw [Tree.get?] at hfile
    obtain rfl := Option.some.inj hfile
    cases hdir

theorem Vacant.exists_opened (h : log.Vacant root) : ∃ root₁, log.Opened root root₁ := by
  obtain ⟨c, e, root', hrun⟩ := h.opens
  have hopened {root₁ : Tree} (hkeeps : ∀ names, root.Keeps root₁ names)
      (hwithin : root₁.FilesWithin root) (hsame : log.above? = none → root₁ = root)
      (hmade : ∀ dir ∈ log.above?, DiskOp.makeAll root dir = (.ok (), root₁))
      (hadd : (log.adding c.entry).run root₁ = (.ok e, root')) : log.Opened root root₁ := by
    rw [run_adding] at hadd
    split at hadd
    · next hchange =>
      obtain ⟨hplace, hask, hcases⟩ := DiskOp.change_eq_ok_iff.1 hchange
      have habsent : root₁.get? log.path.names = none := by
        rcases hcases with ⟨old, hold, -⟩ | ⟨hnone, -⟩
        · have hold := hwithin _ _ hold
          rw [h.absent] at hold
          cases hold
        · exact hnone
      have hdir := isDir_of_keeps (hkeeps []) (isDir_of_place hplace habsent)
      exact ⟨hdir, hsame, hmade, hplace, hask, habsent⟩
    · cases hadd
  rw [script_eq] at hrun
  cases habove : log.above? with
  | none =>
    rw [habove] at hrun
    exact ⟨root, hopened (.refl root) (fun _ _ hf ↦ hf) (fun _ ↦ rfl) (by simp [habove]) hrun⟩
  | some dir =>
    rw [habove] at hrun
    dsimp only at hrun
    obtain ⟨answer, root₁, hmake⟩ :
        ∃ answer root₁, (DiskOp.makeDirs dir).run root = (answer, root₁) := ⟨_, _, rfl⟩
    rw [making, Script.run, hmake] at hrun
    cases answer with
    | error cause => cases hrun
    | ok u =>
      obtain rfl : (DiskOp.makeAll root dir).2 = root₁ := congrArg Prod.snd hmake
      refine ⟨_, hopened (DiskOp.keeps_makeAll root dir) (DiskOp.filesWithin_makeAll root dir)
        (by simp [habove]) (fun dir' hdir' ↦ ?_) hrun⟩
      obtain rfl : dir = dir' := by simpa [habove] using hdir'
      exact hmake

structure Grown (log : LockLog) (root₁ : Tree) (es : List LockEntry) (root : Tree) : Prop where
  dirs : root₁.KeepsDirs root
  seen : (es = [] ∧ root.get? log.path.names = none) ∨
    ∃ text, Ended text ∧ entries text = .ok es ∧ Script.textAt root log.path = .ok text

theorem Opened.grown (h : log.Opened root root₁) : log.Grown root₁ [] root₁ :=
  ⟨fun _ entries hd ↦ ⟨entries, hd⟩, .inl ⟨rfl, h.absent⟩⟩

variable (hopened : log.Opened root root₁)

include hopened

theorem Opened.makeAll_eq {root₂ : Tree} (h : log.Grown root₁ es root₂) {dir : Path}
    (hdir : dir ∈ log.above?) : DiskOp.makeAll root₂ dir = (.ok (), root₂) :=
  DiskOp.makeAll_again hopened.isDir (hopened.made dir hdir) h.dirs

theorem Opened.exists_change {root₂ : Tree} (h : log.Grown root₁ es root₂) (e : LockEntry) :
    ∃ root₃, DiskOp.change root₂ log.path
        (fun old ↦ old.getD .empty ++ (e.toJson.line ++ "\n").toUTF8) = .ok root₃ ∧
      log.Grown root₁ (es ++ [e]) root₃ := by
  have hplace := Tree.place_of_keepsDirs h.dirs hopened.place
  obtain ⟨text, hended, hes, htext, hfree⟩ : ∃ text, Ended text ∧ entries text = .ok es ∧
      root₂.HasText log.path text ∧ ((∃ old, root₂.get? log.path.names = some (.file old)) ∨
        root₂.get? log.path.names = none) := by
    rcases h.seen with ⟨rfl, hnone⟩ | ⟨text, hended, hes, hread⟩
    · exact ⟨"", .inl rfl, rfl, .inr ⟨rfl, by simp [hnone]⟩, .inr hnone⟩
    · have hfile := Script.get?_of_textAt hread
      exact ⟨text, hended, hes, .inl hfile, .inl ⟨_, hfile⟩⟩
  obtain ⟨root₃, hchange⟩ : ∃ root₃, DiskOp.change root₂ log.path
      (fun old ↦ old.getD .empty ++ (e.toJson.line ++ "\n").toUTF8) = .ok root₃ := by
    rcases hfree with ⟨old, hold⟩ | hnone
    · exact ⟨_, DiskOp.change_eq_ok_iff.2
        ⟨hplace, hopened.asksDirectory, .inl ⟨old, hold, rfl⟩⟩⟩
    · exact ⟨_, DiskOp.change_eq_ok_iff.2 ⟨hplace, hopened.asksDirectory, .inr ⟨hnone, rfl⟩⟩⟩
  refine ⟨root₃, hchange, fun names entries hd ↦ ?_, .inr ⟨_, ended_append_line text e,
    entries_append_line hended hes e, htext.append hchange⟩⟩
  obtain ⟨entries', hd⟩ := h.dirs names entries hd
  exact DiskOp.keepsDirs_change hchange names entries' hd

theorem Opened.history_eq {root₂ : Tree} (h : log.Grown root₁ es root₂) :
    log.history.run root₂ = (.ok es, root₂) := by
  rcases h.seen with ⟨rfl, hnone⟩ | ⟨text, -, hes, hread⟩
  · have hread : Script.textAt root₂ log.path = .error .notFound := by
      have hplace := Tree.place_of_keepsDirs h.dirs hopened.place
      simp [Script.textAt, DiskOp.readFile, Tree.at?, hplace, hnone, bind, Except.bind, throw,
        throwThe, MonadExceptOf.throw]
    rw [run_history_eq, hread]
  · exact run_history_of_textAt hread hes

end Grown

section Turns

variable {ι : Type} {commits : ι → Commit} {s : Shared ι (Except LockError LockEntry)} {i : ι}

/-- The entries that were returned, in the order in which they were added. -/
def committed (s : Shared ι (Except LockError LockEntry)) : List LockEntry :=
  s.results.filterMap fun r ↦ r.2.toOption

/-- A commit is at its start, or has only its entry left to add, or has returned it. -/
def Commit.Goes (c : Commit) (log : LockLog) (rest : Script (Except LockError LockEntry)) : Prop :=
  rest = c.script log ∨ rest = log.adding c.entry ∨ rest = .done (.ok c.entry)

/-- The directories are there, and what every commit has left is as it should be. -/
structure Growing (log : LockLog) (commits : ι → Commit) (root₁ : Tree)
    (s : Shared ι (Except LockError LockEntry)) : Prop where
  rest : ∀ i, (commits i).Goes log (s.rest i)
  results : ∀ r ∈ s.results, r.2 = .ok (commits r.1).entry
  grown : log.Grown root₁ (committed s) s.root

variable [DecidableEq ι] (hopened : log.Opened root root₁)

include hopened

theorem Growing.advance_adding (h : log.Growing commits root₁ s)
    (hi : s.rest i = log.adding (commits i).entry) : log.Growing commits root₁ (s.advance i) := by
  obtain ⟨root₃, hchange, hgrown⟩ := hopened.exists_change h.grown (commits i).entry
  have hrun : (DiskOp.append log.path ((commits i).entry.toJson.line ++ "\n").toUTF8).run s.root =
      (.ok (), root₃) := by
    rw [DiskOp.run, hchange]
    rfl
  rw [Shared.advance_of_perform hi hrun]
  refine ⟨?_, fun r hr ↦ ?_, ?_⟩
  · rw [Function.forall_update_iff s.rest fun j rest ↦ (commits j).Goes log rest]
    exact ⟨.inr (.inr rfl), fun j _ ↦ h.rest j⟩
  · rcases List.mem_append.1 hr with hr | hr
    · exact h.results r hr
    · rw [List.mem_singleton.1 hr]
      rfl
  · have hcommitted : committed { rest := s.rest, results := s.results ++
        [(i, .ok (commits i).entry)], root := root₃ } = committed s ++ [(commits i).entry] := by
      simp [committed, Except.toOption]
    rw [← hcommitted] at hgrown
    exact hgrown

theorem Growing.advance (h : log.Growing commits root₁ s) (i : ι) :
    log.Growing commits root₁ (s.advance i) := by
  rcases h.rest i with hi | hi | hi
  · rw [script_eq] at hi
    split at hi
    · exact h.advance_adding hopened hi
    · next dir habove =>
      have hrun : (DiskOp.makeDirs dir).run s.root = (.ok (), s.root) :=
        hopened.makeAll_eq h.grown habove
      rw [Shared.advance_of_perform hi hrun]
      refine ⟨?_, by simpa [adding, Script.result?] using h.results, ?_⟩
      · rw [Function.forall_update_iff s.rest fun j rest ↦ (commits j).Goes log rest]
        exact ⟨.inr (.inl rfl), fun j _ ↦ h.rest j⟩
      · simpa [committed, adding, Script.result?] using h.grown
  · exact h.advance_adding hopened hi
  · rw [Shared.advance_of_done hi]
    exact h

theorem growing_of_start (i : ι) :
    log.Growing commits root₁
      ((Shared.start (fun i ↦ (commits i).script log) root).advance i) := by
  cases habove : log.above? with
  | none =>
    obtain rfl := hopened.same habove
    have hgrowing : log.Growing commits root₁
        (Shared.start (fun i ↦ (commits i).script log) root₁) :=
      ⟨fun _ ↦ .inl rfl, by simp [Shared.start], hopened.grown⟩
    exact hgrowing.advance hopened i
  | some dir =>
    have hi : (Shared.start (fun i ↦ (commits i).script log) root).rest i =
        log.making dir (commits i).entry := by
      have heq := script_eq (commits i) log
      rwa [habove] at heq
    have hrun : (DiskOp.makeDirs dir).run root = (.ok (), root₁) := hopened.made dir habove
    rw [Shared.advance_of_perform hi hrun]
    refine ⟨?_, by simp [Shared.start, adding, Script.result?], hopened.grown⟩
    rw [Function.forall_update_iff _ fun j rest ↦ (commits j).Goes log rest]
    exact ⟨.inr (.inl rfl), fun j _ ↦ .inl rfl⟩

theorem start_or_growing (turns : List ι) :
    turns = [] ∨ log.Growing commits root₁
      ((Shared.start (fun i ↦ (commits i).script log) root).run turns) := by
  cases turns with
  | nil => exact .inl rfl
  | cons i turns =>
    exact .inr (Shared.run_induction (growing_of_start hopened i)
      (fun s i h ↦ h.advance hopened i) turns)

omit hopened

section Vacant

variable (h : log.Vacant root) (commits) (turns : List ι)

include h

theorem Vacant.results_eq :
    ∀ r ∈ ((Shared.start (fun i ↦ (commits i).script log) root).run turns).results,
      r.2 = .ok (commits r.1).entry := by
  obtain ⟨root₁, hopened⟩ := h.exists_opened
  rcases start_or_growing hopened turns with rfl | hgrowing
  · simp [Shared.run, Shared.start]
  · exact hgrowing.results

theorem Vacant.history_eq :
    log.history.run ((Shared.start (fun i ↦ (commits i).script log) root).run turns).root =
      (.ok (committed ((Shared.start (fun i ↦ (commits i).script log) root).run turns)),
        ((Shared.start (fun i ↦ (commits i).script log) root).run turns).root) := by
  obtain ⟨root₁, hopened⟩ := h.exists_opened
  rcases start_or_growing hopened turns with rfl | hgrowing
  · have hempty : log.history.run root = (.ok [], root) := by rw [run_history_eq, h.unseen]
    exact hempty
  · exact hopened.history_eq hgrowing.grown

/-- Commits for other workloads leave the entries of a workload as they are. -/
theorem Vacant.filter_committed (w : String) {more : List ι}
    (hmore : ∀ i ∈ more, (commits i).workload ≠ w) :
    let s := (Shared.start (fun i ↦ (commits i).script log) root).run turns
    (committed (s.run more)).filter (fun e ↦ e.workload == w) =
      (committed s).filter fun e ↦ e.workload == w := by
  intro s
  obtain ⟨new, hnew, hturns⟩ := Shared.exists_results_run s more
  have hresults := h.results_eq commits (turns ++ more)
  rw [Shared.run_append, hnew] at hresults
  have hcommitted : committed (s.run more) =
      committed s ++ new.filterMap fun r ↦ r.2.toOption := by
    rw [committed, hnew, List.filterMap_append]
    rfl
  rw [hcommitted, List.filter_append, List.append_right_eq_self, List.filter_eq_nil_iff]
  intro e he
  obtain ⟨r, hr, he⟩ := List.mem_filterMap.1 he
  rw [hresults r (List.mem_append_right _ hr), Except.toOption, Option.some.injEq] at he
  rw [← he, beq_iff_eq]
  exact hmore r.1 (hturns r hr)

end Vacant

/-- Commits to a log that is not there yet, by any number of handles on its path and in any turns.
The log has the entries that have been returned, in the order in which they were added, which is the
end of each commit. The last entry is one with the greatest time, the last of these, and so it is
among the entries of a workload, where commits for others make no difference. -/
theorem interleaved_commits (h : log.Vacant root) (commits : ι → Commit) (handle : ι → LockLog)
    (hhandle : ∀ i, (handle i).path = log.path) (turns : List ι) :
    let s := (Shared.start (fun i ↦ (commits i).script (handle i)) root).run turns
    (∀ i, 2 ≤ turns.count i → (i, .ok (commits i).entry) ∈ s.results) ∧
      (s.results.map Prod.fst).Nodup ∧ (∀ r ∈ s.results, r.2 = .ok (commits r.1).entry) ∧
      log.history.run s.root = (.ok (committed s), s.root) ∧
      (∃ last, IsLatest (committed s) last ∧ log.last.run s.root = (.ok last, s.root)) ∧
      ∀ w, ∃ last, IsLatest ((committed s).filter fun e ↦ e.workload == w) last ∧
        ∀ more, (∀ i ∈ more, (commits i).workload ≠ w) →
          (log.lastFor w).run (s.run more).root = (.ok last, (s.run more).root) ∧
            (log.previous w).run (s.run more).root = (last, (s.run more).root) := by
  obtain rfl : handle = fun _ ↦ log := by
    funext i
    have hi := hhandle i
    cases log
    cases hl : handle i
    rw [hl] at hi
    exact congrArg LockLog.mk hi
  intro s
  have hresults := h.results_eq commits turns
  have hhistory := h.history_eq commits turns
  have htold : s.Told := Shared.told_run (fun i ↦ script_ne_done (commits i) log) root turns
  refine ⟨fun i hi ↦ ?_, htold.nodup, hresults, hhistory,
    ⟨_, isLatest_latest _, (run_of_history hhistory).1⟩, fun w ↦ ⟨_, isLatest_latest _, ?_⟩⟩
  · obtain ⟨r, hr⟩ := Shared.exists_done_of_count
      (s := Shared.start (fun i ↦ (commits i).script log) root)
      (within_script (commits i) log) hi
    have hmem := (htold.done_iff i r).1 hr
    rwa [show r = _ from hresults _ hmem] at hmem
  · intro more hmore
    have hmoreHistory := h.history_eq commits (turns ++ more)
    rw [Shared.run_append] at hmoreHistory
    have hrun := (run_of_history hmoreHistory).2 w
    rwa [h.filter_committed commits turns w hmore] at hrun

end Turns

section Crossed

def below : LockLog := ⟨⟨"state/nebulaforge.lock"⟩⟩

def evening : Instant := ⟨1704135600, 999999999, by decide, by decide⟩

def pair : Bool → Commit
  | false => ⟨noon, "default/web", "blake3:one", ∅, []⟩
  | true => ⟨evening, "two\nlines", "\"\\", ∅, []⟩

/-- The commit that was begun first comes to its end last, with the earlier time. -/
def crossed : Shared Bool (Except LockError LockEntry) :=
  (Shared.start (fun i ↦ (pair i).script below) (.dir [])).run [false, true, true, false]

theorem run_script_below (c : Commit) : ((c.script below).run (.dir [])).1 = .ok c.entry := by
  rw [script_eq]
  rfl

theorem vacant_below : below.Vacant (.dir []) where
  unseen := rfl
  absent := rfl
  opens := ⟨pair false, _, _, Prod.ext (run_script_below (pair false)) rfl⟩

theorem committed_crossed : committed crossed = [(pair true).entry, (pair false).entry] := rfl

theorem interleaved_commits_crossed :
    below.Vacant (.dir []) ∧
      below.history.run crossed.root =
        (.ok [(pair true).entry, (pair false).entry], crossed.root) ∧
      below.last.run crossed.root = (.ok (some (pair true).entry), crossed.root) ∧
      (below.previous "default/web").run crossed.root =
        (some (pair false).entry, crossed.root) := by
  obtain ⟨-, -, -, hhistory, ⟨last, hlast, hrun⟩, hfor⟩ := interleaved_commits vacant_below pair
    (fun _ ↦ below) (fun _ ↦ rfl) [false, true, true, false]
  obtain ⟨web, hweb, hrunWeb⟩ := hfor "default/web"
  change IsLatest (committed crossed) last at hlast
  change IsLatest ((committed crossed).filter fun e ↦ e.workload == "default/web") web at hweb
  change below.history.run crossed.root = (.ok (committed crossed), crossed.root) at hhistory
  rw [committed_crossed] at hlast hweb hhistory
  obtain rfl : last = some (pair true).entry := (isLatest_iff.1 hlast).trans rfl
  obtain rfl : web = some (pair false).entry := (isLatest_iff.1 hweb).trans rfl
  exact ⟨vacant_below, hhistory, hrun, (hrunWeb [] nofun).2⟩

end Crossed

end Multicloud.LockLog

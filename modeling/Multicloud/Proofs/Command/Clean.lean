import Multicloud.Proofs.Command.Synthesize
import Multicloud.Proofs.Disk.Removal

namespace Multicloud

namespace Script

variable {α : Type} {places : List (List String)} {q : Path} {root root' : Tree}

theorem Only.readFile_eq {s s' : Script α}
    (h : Only (fun op ↦ op.made = [] ∧ op.edits ⊆ places) s)
    (hplaces : ∀ place ∈ places, ∀ m ∈ q.trail, ¬ place <+: m) (hr : Reaches s root s' root') :
    DiskOp.readFile root' q = DiskOp.readFile root q := by
  refine @Only.inv_of_reaches _ _ _ _
    (fun r ↦ DiskOp.readFile r q = DiskOp.readFile root q) _ _ h ?_ rfl hr
  intro op root₁ answer root₂ hop hread hy
  refine (DiskOp.readFile_congr (fun m hm ↦ ?_) ?_).trans hread
  · rcases hy.edited with hedited | ⟨p, n, rfl, -⟩
    · exact hedited.kindAt_eq fun e he ↦ hplaces e (hop.2 he) m hm
    · have hnone : p.trail = [] := hop.1
      exact absurd (hnone ▸ p.names_mem_trail) List.not_mem_nil
  · exact DiskOp.fileAt?_eq_of_yields
      (fun e he ↦ hplaces e (hop.2 he) q.names q.names_mem_trail) hy

end Script

namespace Command

open Script

variable {now : Instant} {config : Path} {settings : Settings} {root root' : Tree}

/-- What is left to do once the settings are loaded, with the log to be kept. -/
def clear (settings : Settings) : Work Report := do
  let outputs ← removal settings.output (Script.removeTree settings.output)
  let cache ← removal settings.cache (Script.removeTree settings.cache)
  let removed := outputs ++ cache
  return {
    lines := if removed.isEmpty then ["Nothing to clean."]
      else removed.map fun p ↦ s!"  Removed: {p.text}" }

theorem runClean_eq (config : Path) :
    runClean false config = loadSettings config >>= clear := by
  unfold runClean clear
  simp

theorem onlyOr_removal {places : List (List String)} {p : Path} (hp : p.names ∈ places) :
    OnlyOr (fun op ↦ op.made = [] ∧ op.edits ⊆ places) (removal p (Script.removeTree p)) := by
  have hedits : (DiskOp.removeTree p).edits ⊆ places := List.cons_subset.2 ⟨hp, List.nil_subset _⟩
  refine OnlyOr.bind (onlyOr_lift (only_step ⟨rfl, hedits⟩)) fun answer ↦ ?_
  split
  · exact onlyOr_pure _
  · exact onlyOr_pure _
  · exact onlyOr_throw _

theorem onlyOr_clear (settings : Settings) :
    OnlyOr (fun op ↦ op.made = [] ∧ op.edits ⊆ [settings.output.names, settings.cache.names])
      (clear settings) := by
  refine OnlyOr.bind (onlyOr_removal (.head _)) fun outputs ↦ ?_
  exact OnlyOr.bind (onlyOr_removal (.tail _ (.head _))) fun cache ↦ onlyOr_pure _

theorem onlyOr_loadSettings (config : Path) : OnlyOr DiskOp.IsLook (loadSettings config) :=
  OnlyOr.bind (onlyOr_part (Settings.only_load _)) fun _ ↦ onlyOr_pure _

/-- Whether a removal lets the work go on: there is nothing left to remove. -/
def Passes (answer : Except DiskError Unit) : Prop := answer = .ok () ∨ answer = .error .notFound

/-- The places that are gone after cleaning. What the output takes is not there for the cache to
take, which is not removed unless the output was. -/
inductive Cleans (settings : Settings) (root : Tree) (place : List String) : Prop
  | output (h : root.Clears settings.output place)
  | cache (hpass : Passes (DiskOp.removeAll root settings.output).1)
      (h : (DiskOp.removeAll root settings.output).2.Clears settings.cache place)

def told (p : Path) : Except DiskError Unit → Except CommandError (List Path)
  | .ok () => .ok [p]
  | .error .notFound => .ok []
  | .error e => .error (.emit (.io p e))

theorem exists_told_eq_ok_iff {p : Path} {answer : Except DiskError Unit} :
    (∃ ps, told p answer = .ok ps) ↔ Passes answer := by
  rcases answer with e | ⟨⟩
  · cases e <;> simp [told, Passes]
  · simp [told, Passes]

theorem attempt_removal (p : Path) (root : Tree) :
    attempt (removal p (Script.removeTree p)) root =
      (told p (DiskOp.removeAll root p).1, (DiskOp.removeAll root p).2) := by
  have hrun : (Script.removeTree p).run root = DiskOp.removeAll root p := rfl
  rw [removal, attempt_bind, attempt_lift, hrun]
  dsimp only
  rcases DiskOp.removeAll root p with ⟨e | ⟨⟩, root'⟩
  · cases e <;> rfl
  · rfl

theorem tree_clear_of_passes (h : Passes (DiskOp.removeAll root settings.output).1) :
    (attempt (clear settings) root).2 =
      (DiskOp.removeAll (DiskOp.removeAll root settings.output).2 settings.cache).2 := by
  obtain ⟨outputs, houtputs⟩ := exists_told_eq_ok_iff.2 h
  rw [clear, attempt_bind, attempt_removal, houtputs]
  dsimp only
  rw [attempt_bind, attempt_removal]
  cases told settings.cache
    (DiskOp.removeAll (DiskOp.removeAll root settings.output).2 settings.cache).1 <;> rfl

theorem tree_clear_of_not_passes (h : ¬ Passes (DiskOp.removeAll root settings.output).1) :
    (attempt (clear settings) root).2 = (DiskOp.removeAll root settings.output).2 := by
  rw [clear, attempt_bind, attempt_removal]
  cases htold : told settings.output (DiskOp.removeAll root settings.output).1 with
  | ok outputs => exact absurd (exists_told_eq_ok_iff.1 ⟨outputs, htold⟩) h
  | error e => rfl

theorem Cleans.get?_eq_none {place : List String} (hl : ∀ base, root.Lists base)
    (h : Cleans settings root place) : (attempt (clear settings) root).2.get? place = none := by
  have houtput := DiskOp.removes_removeAll root settings.output
  have hcache := DiskOp.removes_removeAll (DiskOp.removeAll root settings.output).2 settings.cache
  by_cases hpass : Passes (DiskOp.removeAll root settings.output).1
  · rw [tree_clear_of_passes hpass]
    by_cases hc : (DiskOp.removeAll root settings.output).2.Clears settings.cache place
    · exact hcache.get?_eq_none (houtput.lists hl) hc
    · cases h with
      | output h =>
        rw [← Tree.kindAt_eq_none, (hcache.kindAt_eq hc).1, Tree.kindAt_eq_none]
        exact houtput.get?_eq_none hl h
      | cache _ h => exact absurd h hc
  · rw [tree_clear_of_not_passes hpass]
    cases h with
    | output h => exact houtput.get?_eq_none hl h
    | cache h _ => exact absurd h hpass

theorem kindAt_clear {place : List String} (h : ¬ Cleans settings root place) :
    (attempt (clear settings) root).2.kindAt place = root.kindAt place ∧
      (attempt (clear settings) root).2.fileAt? place = root.fileAt? place := by
  obtain ⟨hkind, hfile⟩ := (DiskOp.removes_removeAll root settings.output).kindAt_eq
    fun hc ↦ h (.output hc)
  by_cases hpass : Passes (DiskOp.removeAll root settings.output).1
  · rw [tree_clear_of_passes hpass]
    obtain ⟨hkind', hfile'⟩ := (DiskOp.removes_removeAll (DiskOp.removeAll root settings.output).2
      settings.cache).kindAt_eq fun hc ↦ h (.cache hpass hc)
    exact ⟨hkind'.trans hkind, hfile'.trans hfile⟩
  · rw [tree_clear_of_not_passes hpass]
    exact ⟨hkind, hfile⟩

theorem readFile_clear (settings : Settings) (hl : ∀ base, root.Lists base) (q : Path) :
    ((∀ place ∈ q.trail, ¬ Cleans settings root place) →
      DiskOp.readFile (attempt (clear settings) root).2 q = DiskOp.readFile root q) ∧
    ((∃ place ∈ q.trail, Cleans settings root place) →
      ∃ e, DiskOp.readFile (attempt (clear settings) root).2 q = .error e) := by
  constructor
  · intro h
    exact DiskOp.readFile_congr (fun m hm ↦ (kindAt_clear (h m hm)).1)
      (kindAt_clear (h q.names q.names_mem_trail)).2
  · rintro ⟨place, hmem, hc⟩
    exact DiskOp.readFile_of_missing hmem (hc.get?_eq_none hl)

theorem run_report_snd (w : Work Report) (root : Tree) :
    (w.report.run root).2 = (attempt w root).2 := by
  rw [Work.report, run_bind]
  unfold attempt
  cases (w.run.run root).1 <;> rfl

theorem run_clean (now : Instant) (h : attempt (loadSettings config) root = (.ok settings, root)) :
    ((run now (.clean false config)).run root).2 = (attempt (clear settings) root).2 := by
  unfold run
  rw [run_report_snd]
  dsimp only
  rw [runClean_eq, attempt_bind_ok h]

/-- Whatever fails while cleaning, the log is read as before where neither the output nor the cache
holds it or is on the way there. Where nothing fails by itself, it is read as before unless
something on the way there was in a directory that was emptied, or is one that was removed, and then
it is gone. -/
theorem clean_log_exact (now : Instant) (config : Path) (root : Tree) :
    (∀ report root', Leads (run now (.clean false config)) root report root' → root' = root ∨
      ∃ settings, Leads (loadSettings config).run root (.ok settings) root ∧
        ((∀ place ∈ settings.lock.trail,
          ¬ settings.output.names <+: place ∧ ¬ settings.cache.names <+: place) →
            DiskOp.readFile root' settings.lock = DiskOp.readFile root settings.lock)) ∧
    ∀ settings, attempt (loadSettings config) root = (.ok settings, root) →
      (∀ base, root.Lists base) →
        let root' := ((run now (.clean false config)).run root).2
        ((∀ place ∈ settings.lock.trail, ¬ Cleans settings root place) →
          DiskOp.readFile root' settings.lock = DiskOp.readFile root settings.lock) ∧
        ((∃ place ∈ settings.lock.trail, Cleans settings root place) →
          ∃ e, DiskOp.readFile root' settings.lock = .error e) := by
  constructor
  · intro report root' h
    obtain ⟨result, hrun, -⟩ := leads_report h
    dsimp only at hrun
    rw [runClean_eq] at hrun
    rcases leads_bindOr.1 hrun with ⟨settings, root₁, hload, hclear⟩ | ⟨e, hload, -⟩
    · obtain rfl := (onlyOr_loadSettings config).eq_of_reaches hload.reaches
      refine .inr ⟨settings, hload, fun hplaces ↦ ?_⟩
      refine (onlyOr_clear settings).readFile_eq (fun place hmem m hm ↦ ?_) hclear.reaches
      rcases List.mem_pair.1 hmem with rfl | rfl
      · exact (hplaces m hm).1
      · exact (hplaces m hm).2
    · exact .inl ((onlyOr_loadSettings config).eq_of_reaches hload.reaches)
  · intro settings hload hl
    dsimp only
    rw [run_clean now hload]
    exact readFile_clear settings hl settings.lock

section Housed

open Pipeline (epoch)

/-- Settings, and a log of one line at its standard place or below the output. -/
def housing (settings : String) (inside : Bool) : Tree :=
  let log : String × Tree := ("nebulaforge.lock", .file "\n".toUTF8)
  let config : String × Tree := ("nebulaforge.toml", .file settings.toUTF8)
  .dir (if inside then [config, ("outputs", .dir [log])] else [log, config, ("outputs", .dir [])])

def housedText : String := "[lock]\npath = \"outputs/nebulaforge.lock\"\n"

def housedSettings : Settings := { lock := ⟨"outputs/nebulaforge.lock"⟩ }

theorem attempt_loadSettings_housed :
    attempt (loadSettings Settings.standardPath) (housing housedText true) =
      (.ok housedSettings, housing housedText true) := by
  have hread : DiskOp.readFile (housing housedText true) Settings.standardPath =
      .ok housedText.toUTF8 := DiskOp.readFile_eq_ok_iff.2 ⟨rfl, rfl, rfl⟩
  exact attempt_loadSettings hread (by decide +kernel)

/-- A log below the output goes with it. -/
theorem clean_takes_log : ¬ ∀ now config root settings,
    attempt (loadSettings config) root = (.ok settings, root) →
      DiskOp.readFile ((run now (.clean false config)).run root).2 settings.lock =
        DiskOp.readFile root settings.lock := by
  intro h
  have hread := h epoch Settings.standardPath (housing housedText true) housedSettings
    attempt_loadSettings_housed
  rw [run_clean epoch attempt_loadSettings_housed] at hread
  have hbefore : DiskOp.readFile (housing housedText true) housedSettings.lock =
      .ok "\n".toUTF8 := DiskOp.readFile_eq_ok_iff.2 ⟨rfl, rfl, rfl⟩
  rw [hbefore] at hread
  obtain ⟨-, hget, -⟩ := DiskOp.readFile_eq_ok_iff.1 hread
  cases hget

/-- The output is only emptied here, and the way to the log leads through it still. -/
example : DiskOp.readFile (attempt (clear { output := ⟨"outputs/./"⟩ }) (housing "" false)).2
    ⟨"outputs/../nebulaforge.lock"⟩ = .ok "\n".toUTF8 := rfl

theorem lists_housing (settings : String) (base : List String) :
    (housing settings false).Lists base := by
  have hnames : ["nebulaforge.lock", "nebulaforge.toml", "outputs"].Pairwise (· < ·) := by decide
  have hempty : (([] : List (String × Tree)).map Prod.fst).Pairwise (· < ·) := .nil
  refine Tree.lists_dir (by exact hnames) (fun e he ↦ ?_) base
  rcases (by simpa using he : e = _ ∨ e = _ ∨ e = _) with rfl | rfl | rfl
  · exact Tree.lists_file _
  · exact Tree.lists_file _
  · exact Tree.lists_dir hempty (by simp)

theorem clean_log_exact_housing :
    DiskOp.readFile ((run epoch (.clean false Settings.standardPath)).run (housing "" false)).2
        LockLog.standardPath = .ok "\n".toUTF8 ∧
      ((run epoch (.clean false Settings.standardPath)).run (housing "" false)).2.get?
        ["outputs"] = none := by
  have hload : attempt (loadSettings Settings.standardPath) (housing "" false) =
      (.ok {}, housing "" false) := by
    have hread : DiskOp.readFile (housing "" false) Settings.standardPath = .ok "".toUTF8 :=
      DiskOp.readFile_eq_ok_iff.2 ⟨rfl, rfl, rfl⟩
    exact attempt_loadSettings hread (by decide +kernel)
  have hkept := ((clean_log_exact epoch Settings.standardPath (housing "" false)).2 {} hload
    (lists_housing "")).1 fun place hmem hc ↦ by
      have hapart : ∀ place ∈ ({} : Settings).lock.trail, ¬ ({} : Settings).output.names <+: place ∧
        ¬ ({} : Settings).cache.names <+: place := by decide
      cases hc with
      | output h => exact (hapart place hmem).1 h.below
      | cache _ h => exact (hapart place hmem).2 h.below
  refine ⟨hkept.trans (DiskOp.readFile_eq_ok_iff.2 ⟨rfl, rfl, rfl⟩), ?_⟩
  rw [run_clean epoch hload]
  refine Cleans.get?_eq_none (lists_housing "") (.output ⟨⟨[], rfl⟩, ?_, fun _ ↦ ?_⟩)
  · decide
  · decide

end Housed

end Command

end Multicloud

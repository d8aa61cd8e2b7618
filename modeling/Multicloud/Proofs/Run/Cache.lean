import Multicloud.Proofs.Digest
import Multicloud.Proofs.Disk.Text
import Multicloud.Proofs.Disk.Trail
import Multicloud.Proofs.Run.Stored
import Multicloud.Run.Cache

namespace Multicloud

namespace RunCache

variable {root root' : Tree} {p : Path} {run : StoredRun}

def decode (bytes : ByteArray) : Option StoredRun :=
  (String.fromUTF8? bytes).bind StoredRun.ofText?

theorem decode_toUTF8_text (run : StoredRun) : decode run.text.toUTF8 = some run := by
  rw [decode, fromUTF8?_toUTF8, Option.bind_some, run.ofText?_text]

theorem run_readFile (p : Path) (root : Tree) :
    (readFile p).run root = ((DiskOp.readFile root p).toOption.bind decode, root) := by
  rw [readFile, Script.run_bind, Script.run_readText, Script.textAt]
  cases DiskOp.readFile root p with
  | error e => rfl
  | ok bytes =>
    rw [Except.toOption, Option.bind_some, decode]
    dsimp only
    cases String.fromUTF8? bytes <;> rfl

/-- What may become of the disk when a run is written: nothing, or a draft, or a file. -/
inductive Written (p : Path) (run : StoredRun) (root : Tree) : Tree → Prop
  | dirs {root₁ : Tree} : root₁.FilesWithin root → Written p run root root₁
  | draft {root₁ root₂ : Tree} : root₁.FilesWithin root →
      DiskOp.change root₁ (p.withExtension "json.tmp") (fun _ ↦ run.text.toUTF8) = .ok root₂ →
      Written p run root root₂
  | file {root₁ root₂ root₃ : Tree} : root₁.FilesWithin root →
      DiskOp.change root₁ (p.withExtension "json.tmp") (fun _ ↦ run.text.toUTF8) = .ok root₂ →
      DiskOp.move root₂ (p.withExtension "json.tmp") p = .ok root₃ → Written p run root root₃

def fill (p : Path) (run : StoredRun) : Script.OrFail DiskError Unit := do
  Script.orElse (Script.write (p.withExtension "json.tmp") run.text) id
  Script.orElse (Script.rename (p.withExtension "json.tmp") p) id

theorem written_fill {p : Path} {run : StoredRun} {root root₁ : Tree}
    (h : root₁.FilesWithin root) : Written p run root (Script.attempt (fill p run) root₁).2 := by
  rw [fill, Script.attempt_bind, Script.attempt_write]
  cases hc : DiskOp.change root₁ (p.withExtension "json.tmp") (fun _ ↦ run.text.toUTF8) with
  | error e => exact .dirs h
  | ok root₂ =>
    dsimp only
    rw [Script.attempt_rename]
    cases hm : DiskOp.move root₂ (p.withExtension "json.tmp") p with
    | error e => exact .draft h hc
    | ok root₃ => exact .file h hc hm

theorem run_writeFile (p : Path) (run : StoredRun) (root : Tree) :
    (writeFile p run).run root =
      Script.attempt
        (match p.parent? with
        | none => fill p run
        | some dir => do
          Script.orElse (Script.makeDirs dir) id
          fill p run) root := by
  unfold writeFile
  cases p.parent? <;> rfl

theorem written_writeFile (p : Path) (run : StoredRun) (root : Tree) :
    Written p run root ((writeFile p run).run root).2 := by
  rw [run_writeFile]
  have hroot : root.FilesWithin root := fun _ _ h ↦ h
  cases p.parent? with
  | none => exact written_fill hroot
  | some dir =>
    dsimp only
    rw [Script.attempt_bind, Script.attempt_makeDirs]
    have hw := DiskOp.filesWithin_makeAll root dir
    cases hd : (DiskOp.makeAll root dir).1 with
    | error e => exact .dirs hw
    | ok u => exact written_fill hw

def fileName (key : String) : String := Digest.short key 64 ++ ".json"

def draftName (key : String) : String := Digest.short key 64 ++ ".json.tmp"

section Names

variable {key key' : String}

theorem fileName_inj (h : Digest.IsDigest key) (h' : Digest.IsDigest key')
    (he : fileName key = fileName key') : key = key' :=
  h.eq_of_short_eq h' ((String.append_left_inj _).1 he)

theorem draftName_ne (key key' : String) : draftName key ≠ fileName key' := by
  intro h
  have h := congrArg (fun s : String ↦ s.toList.getLast?) h
  simp [draftName, fileName] at h

theorem isName_fileName (h : Digest.IsDigest key) : Path.IsName (fileName key).toList :=
  Path.isName_of_getLast? (c := 'n') (by simp [fileName, h.slash_not_mem_short])
    (by simp [fileName]) (by decide)

theorem isName_draftName (h : Digest.IsDigest key) : Path.IsName (draftName key).toList :=
  Path.isName_of_getLast? (c := 'p') (by simp [draftName, h.slash_not_mem_short])
    (by simp [draftName]) (by decide)

theorem names_file (d : Path) (h : Digest.IsDigest key) :
    (d.join (fileName key)).names = d.names ++ [fileName key] :=
  d.names_join (isName_fileName h)

theorem toList_draftName (h : Digest.IsDigest key) :
    (Path.splitName (fileName key).toList).1 ++ '.' :: "json.tmp".toList =
      (draftName key).toList := by
  have hfile : (fileName key).toList =
      (Digest.short key 64).toList ++ '.' :: ['j', 's', 'o', 'n'] := String.toList_append
  have hsplit : (Path.splitName (fileName key).toList).1 = (Digest.short key 64).toList := by
    rw [hfile, Path.splitName_append h.short_ne (by decide)]
  rw [hsplit, draftName, String.toList_append]
  rfl

theorem draft_eq (d : Path) (h : Digest.IsDigest key) :
    (d.join (fileName key)).withExtension "json.tmp" = d.join (draftName key) :=
  d.withExtension_join (isName_fileName h) (isName_draftName h) (toList_draftName h)

theorem names_draft (d : Path) (h : Digest.IsDigest key) :
    ((d.join (fileName key)).withExtension "json.tmp").names = d.names ++ [draftName key] := by
  rw [draft_eq d h, d.names_join (isName_draftName h)]

end Names

variable {c : RunCache} {d : Path} {good : String → StoredRun → Prop} {key : String}

/-- Every file of the cache that can be read holds what is good for its key. -/
def Holds (good : String → StoredRun → Prop) (d : Path) (root : Tree) : Prop :=
  ∀ key, Digest.IsDigest key → ∀ bytes run,
    root.get? (d.names ++ [fileName key]) = some (.file bytes) → decode bytes = some run →
    good key run

theorem Holds.within (h : Holds good d root) (hw : root'.FilesWithin root) : Holds good d root' :=
  fun key hkey bytes _ hfile hrun ↦ h key hkey bytes _ (hw _ _ hfile) hrun

theorem eq_of_append_eq {base rest : List String} {x y : String}
    (h : base ++ [y] = base ++ [x] ++ rest) : y = x ∧ rest = [] := by
  have h : [y] = [x] ++ rest := by simpa using h
  cases rest with
  | nil => exact ⟨(List.cons.inj h).1, rfl⟩
  | cons z rest => simp at h

/-- A draft is no file of the cache. -/
theorem Holds.draft (h : Holds good d root) (hkey : Digest.IsDigest key) {bytes : ByteArray}
    (hc : DiskOp.change root ((d.join (fileName key)).withExtension "json.tmp") (fun _ ↦ bytes) =
      .ok root') : Holds good d root' := by
  have hroot := (DiskOp.change_eq_ok hc).2
  rw [names_draft d hkey] at hroot
  intro key' hkey' bytes' run hfile hrun
  rw [hroot] at hfile
  rcases Tree.get?_set_file hfile with ⟨rest, he, -⟩ | hfile
  · exact absurd (eq_of_append_eq he).1.symm (draftName_ne key key')
  · exact h key' hkey' bytes' run hfile hrun

theorem Holds.file (h : Holds good d root) (hkey : Digest.IsDigest key) {root₁ : Tree}
    (hrun : good key run)
    (hc : DiskOp.change root ((d.join (fileName key)).withExtension "json.tmp")
      (fun _ ↦ run.text.toUTF8) = .ok root₁)
    (hm : DiskOp.move root₁ ((d.join (fileName key)).withExtension "json.tmp")
      (d.join (fileName key)) = .ok root') : Holds good d root' := by
  have h₁ := h.draft hkey hc
  obtain ⟨hplace, hroot₁⟩ := DiskOp.change_eq_ok hc
  rcases DiskOp.move_eq_ok hm with ⟨-, hroot⟩ | ⟨-, t, ht, hroot⟩
  · exact hroot ▸ h₁
  rw [names_draft d hkey] at ht hroot hroot₁ hplace
  rw [names_file d hkey] at hroot
  intro key' hkey' bytes run' hfile hrun'
  rw [hroot] at hfile
  rcases Tree.get?_set_file hfile with ⟨rest, he, hput⟩ | hfile
  · -- The file has what its draft had.
    obtain ⟨hname, rfl⟩ := eq_of_append_eq he
    obtain rfl := fileName_inj hkey' hkey hname
    obtain ⟨entries, hdir⟩ := Tree.get?_dir_of_place hplace
    rw [hroot₁, Tree.get?_set_self hdir, Option.some.injEq] at ht
    have hbytes : some (Tree.file run.text.toUTF8) = some (.file bytes) := by
      rw [ht, ← hput]
      exact (Tree.get?.eq_def t []).symm
    rw [Option.some.injEq, Tree.file.injEq] at hbytes
    rw [← hbytes, decode_toUTF8_text, Option.some.injEq] at hrun'
    exact hrun' ▸ hrun
  · rw [Tree.get?_remove_of_ne (draftName_ne key key')] at hfile
    exact h₁ key' hkey' bytes run' hfile hrun'

theorem Holds.written (h : Holds good d root) (hkey : Digest.IsDigest key) (hrun : good key run)
    (hw : Written (d.join (fileName key)) run root root') : Holds good d root' := by
  cases hw with
  | dirs hw => exact h.within hw
  | draft hw hc => exact (h.within hw).draft hkey hc
  | file hw hc hm => exact (h.within hw).file hkey hrun hc hm

/-- All that a cache may give out is good for its key. -/
structure Sound (good : String → StoredRun → Prop) (c : RunCache) (root : Tree) : Prop where
  entries : ∀ key run, c.entries[key]? = some run → good key run
  files : ∀ d, c.dir = some d → Holds good d root

theorem Sound.inMemory (root : Tree) : Sound good .inMemory root :=
  ⟨fun _ _ hentry ↦ by simp [RunCache.inMemory] at hentry, fun _ hd ↦ by cases hd⟩

theorem sound_inDir (h : Holds good d root) : Sound good (.inDir d) root := by
  refine ⟨fun _ _ hentry ↦ by simp [RunCache.inDir] at hentry, fun d' hd' ↦ ?_⟩
  obtain rfl := Option.some.inj hd'
  exact h

theorem Sound.restart (h : Sound good c root) (hd : c.dir = some d) :
    Sound good (.inDir d) root := sound_inDir (h.files d hd)

theorem Sound.elsewhere (h : Sound good c root)
    (hroot : ∀ d, c.dir = some d → ∀ key bytes, Digest.IsDigest key →
      root'.get? (d.names ++ [fileName key]) = some (.file bytes) →
      root.get? (d.names ++ [fileName key]) = some (.file bytes)) : Sound good c root' :=
  ⟨h.entries, fun d hd key hkey bytes run hfile hrun ↦
    h.files d hd key hkey bytes run (hroot d hd key bytes hkey hfile) hrun⟩

theorem exists_of_file?_eq_some (h : c.file? key = some p) :
    ∃ d, c.dir = some d ∧ d.join (fileName key) = p := Option.map_eq_some_iff.1 h

theorem Sound.insert (h : Sound good c root) (hrun : good key run)
    (hfiles : ∀ d, c.dir = some d → Holds good d root') :
    Sound good { c with entries := c.entries.insert key run } root' := by
  refine ⟨fun key' run' hentry ↦ ?_, hfiles⟩
  rw [Std.ExtTreeMap.getElem?_insert] at hentry
  split at hentry
  · next he =>
    cases hentry
    rwa [← Std.LawfulEqOrd.eq_of_compare he]
  · exact h.entries key' run' hentry

theorem Sound.get (h : Sound good c root) (hkey : Digest.IsDigest key) {run? : Option StoredRun}
    {c' : RunCache} {root' : Tree} (hget : (c.get key).run root = ((run?, c'), root')) :
    root' = root ∧ Sound good c' root ∧ ∀ run, run? = some run → good key run := by
  unfold RunCache.get at hget
  split at hget
  · next run hentry =>
    cases hget
    refine ⟨rfl, h, fun run' he ↦ ?_⟩
    cases he
    exact h.entries key run hentry
  · cases hget
    exact ⟨rfl, h, fun run he ↦ by cases he⟩
  · next p hentry hfile =>
    rw [Script.run_bind, run_readFile] at hget
    dsimp only at hget
    split at hget
    · next run hread =>
      cases hget
      obtain ⟨d, hd, rfl⟩ := exists_of_file?_eq_some hfile
      obtain ⟨bytes, hbytes, hrun⟩ := Option.bind_eq_some_iff.1 hread
      have hgood : good key run := by
        refine h.files d hd key hkey bytes run ?_ hrun
        rw [← names_file d hkey]
        refine DiskOp.readFile_eq_ok ?_
        cases hr : DiskOp.readFile root (d.join (fileName key)) with
        | ok bytes' =>
          rw [hr] at hbytes
          rw [Option.some.inj hbytes]
        | error e =>
          rw [hr] at hbytes
          cases hbytes
      refine ⟨rfl, h.insert hgood h.files, fun run' he ↦ ?_⟩
      cases he
      exact hgood
    · cases hget
      exact ⟨rfl, h, fun run he ↦ by cases he⟩

theorem Sound.put (h : Sound good c root) (hkey : Digest.IsDigest key) (hrun : good key run) :
    Sound good ((c.put key run).run root).1 ((c.put key run).run root).2 := by
  unfold RunCache.put
  split
  · next p hfile =>
    obtain ⟨d, hd, rfl⟩ := exists_of_file?_eq_some hfile
    have hw := written_writeFile (d.join (fileName key)) run root
    simp only [Script.run_bind, Script.run_pure]
    refine h.insert hrun fun d' hd' ↦ ?_
    obtain rfl := Option.some.inj (hd.symm.trans hd')
    exact (h.files d hd).written hkey hrun hw
  · exact h.insert hrun h.files

end RunCache

end Multicloud

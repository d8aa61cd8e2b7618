import Multicloud.Proofs.Disk.Frame
import Multicloud.Proofs.Disk.Smooth
import Multicloud.Proofs.Run.Cache

namespace Multicloud.RunCache

variable {c : RunCache} {root root' : Tree} {p d d' : Path} {names : List String}
  {key key' : String} {run run' : StoredRun}

def inFile? (root : Tree) (p : Path) : Option StoredRun :=
  (DiskOp.readFile root p).toOption.bind decode

theorem run_readFile_eq (p : Path) (root : Tree) :
    (readFile p).run root = (inFile? root p, root) := run_readFile p root

theorem inFile?_of_keeps (hk : root.Keeps root' p.names) (h : inFile? root p = some run) :
    inFile? root' p = some run := by
  unfold inFile? at h ⊢
  cases hr : DiskOp.readFile root p with
  | ok bytes =>
    rw [hr] at h
    rw [DiskOp.readFile_of_keeps hk hr]
    exact h
  | error e =>
    rw [hr] at h
    cases h

section Write

theorem keeps_fill (hkey : Digest.IsDigest key) (run : StoredRun) (root : Tree)
    (hdraft : d.names ++ [draftName key] ≠ names) (hfile : d.names ++ [fileName key] ≠ names) :
    root.Keeps (Script.attempt (fill (d.join (fileName key)) run) root).2 names := by
  rw [fill, Script.attempt_bind, Script.attempt_write]
  cases hc : DiskOp.change root ((d.join (fileName key)).withExtension "json.tmp")
      (fun _ ↦ run.text.toUTF8) with
  | error e => exact .refl root names
  | ok root₁ =>
    dsimp only
    have hsource := names_draft d hkey
    have htarget := names_file d hkey
    have hchange : root.Keeps root₁ names := DiskOp.keeps_change hc (hsource ▸ hdraft)
    obtain ⟨-, -, hread⟩ := DiskOp.readFile_of_change hc
    rw [Script.attempt_rename]
    cases hm : DiskOp.move root₁ ((d.join (fileName key)).withExtension "json.tmp")
        (d.join (fileName key)) with
    | error e => exact hchange
    | ok root₂ =>
      exact hchange.trans (DiskOp.keeps_move hsource htarget (draftName_ne key key)
        (DiskOp.readFile_eq_ok hread) hm (hsource ▸ hdraft) (htarget ▸ hfile))

theorem inFile?_of_fill (hkey : Digest.IsDigest key)
    (h : (Script.attempt (fill (d.join (fileName key)) run) root).1 = .ok ()) :
    inFile? (Script.attempt (fill (d.join (fileName key)) run) root).2 (d.join (fileName key)) =
      some run := by
  rw [fill, Script.attempt_bind, Script.attempt_write] at h ⊢
  cases hc : DiskOp.change root ((d.join (fileName key)).withExtension "json.tmp")
      (fun _ ↦ run.text.toUTF8) with
  | error e =>
    rw [hc] at h
    cases h
  | ok root₁ =>
    rw [hc] at h
    dsimp only at h ⊢
    obtain ⟨-, -, hread⟩ := DiskOp.readFile_of_change hc
    rw [Script.attempt_rename] at h ⊢
    cases hm : DiskOp.move root₁ ((d.join (fileName key)).withExtension "json.tmp")
        (d.join (fileName key)) with
    | error e =>
      rw [hm] at h
      cases h
    | ok root₂ =>
      have hread := DiskOp.readFile_of_move (names_draft d hkey) (names_file d hkey)
        (draftName_ne key key) (d.asksDirectory_join (isName_fileName hkey))
        (DiskOp.readFile_eq_ok hread) hm
      rw [inFile?, hread, Except.toOption, Option.bind_some, decode_toUTF8_text]

theorem keeps_writeFile (hkey : Digest.IsDigest key) (run : StoredRun) (root : Tree)
    (hdraft : d.names ++ [draftName key] ≠ names) (hfile : d.names ++ [fileName key] ≠ names) :
    root.Keeps ((writeFile (d.join (fileName key)) run).run root).2 names := by
  rw [run_writeFile]
  cases (d.join (fileName key)).parent? with
  | none => exact keeps_fill hkey run root hdraft hfile
  | some dir =>
    dsimp only
    rw [Script.attempt_bind, Script.attempt_makeDirs]
    have hdirs := DiskOp.keeps_makeAll root dir names
    cases (DiskOp.makeAll root dir).1 with
    | error e => exact hdirs
    | ok u => exact hdirs.trans (keeps_fill hkey run _ hdraft hfile)

theorem inFile?_of_writeFile (hkey : Digest.IsDigest key)
    (h : ((writeFile (d.join (fileName key)) run).run root).1 = .ok ()) :
    inFile? ((writeFile (d.join (fileName key)) run).run root).2 (d.join (fileName key)) =
      some run := by
  rw [run_writeFile] at h ⊢
  cases hp : (d.join (fileName key)).parent? with
  | none =>
    rw [hp] at h
    exact inFile?_of_fill hkey h
  | some dir =>
    rw [hp] at h
    dsimp only at h ⊢
    rw [Script.attempt_bind, Script.attempt_makeDirs] at h ⊢
    cases hm : (DiskOp.makeAll root dir).1 with
    | error e =>
      rw [hm] at h
      cases h
    | ok u =>
      rw [hm] at h
      exact inFile?_of_fill hkey h

theorem names_ne_of_key_ne (hkey : Digest.IsDigest key) (hkey' : Digest.IsDigest key')
    (hne : key ≠ key') : d.names ++ [fileName key] ≠ d'.names ++ [fileName key'] := by
  intro he
  obtain ⟨-, he⟩ := List.append_inj' he (by simp only [List.length_singleton])
  exact hne (fileName_inj hkey hkey' (List.cons.inj he).1)

theorem names_draft_ne : d.names ++ [draftName key] ≠ d'.names ++ [fileName key'] := by
  intro he
  obtain ⟨-, he⟩ := List.append_inj' he (by simp only [List.length_singleton])
  exact draftName_ne key key' (List.cons.inj he).1

theorem inFile?_writeFile_of_ne (hkey : Digest.IsDigest key) (hkey' : Digest.IsDigest key')
    (hne : key ≠ key') (h : inFile? root (d'.join (fileName key')) = some run') :
    inFile? ((writeFile (d.join (fileName key)) run).run root).2 (d'.join (fileName key')) =
      some run' := by
  refine inFile?_of_keeps ?_ h
  rw [names_file d' hkey']
  exact keeps_writeFile hkey run root names_draft_ne (names_ne_of_key_ne hkey hkey' hne)

theorem utf8ByteSize_fileName (h : Digest.IsDigest key) : (fileName key).utf8ByteSize = 69 := by
  rw [fileName, String.utf8ByteSize_append, h.utf8ByteSize_short]
  rfl

theorem utf8ByteSize_draftName (h : Digest.IsDigest key) : (draftName key).utf8ByteSize = 73 := by
  rw [draftName, String.utf8ByteSize_append, h.utf8ByteSize_short]
  rfl

theorem fits_file (h : Digest.IsDigest key) (hd : d.Fits)
    (hshort : d.text.utf8ByteSize + 69 < Tree.maxPath) : (d.join (fileName key)).Fits := by
  have hsize := utf8ByteSize_fileName h
  exact hd.join (isName_fileName h) (by simp [fileName, h.zero_not_mem_short]) (by rwa [hsize])
    (by rw [hsize]; decide)

theorem fits_draft (h : Digest.IsDigest key) (hd : d.Fits)
    (hshort : d.text.utf8ByteSize + 73 < Tree.maxPath) : (d.join (draftName key)).Fits := by
  have hsize := utf8ByteSize_draftName h
  exact hd.join (isName_draftName h) (by simp [draftName, h.zero_not_mem_short]) (by rwa [hsize])
    (by rw [hsize]; decide)

theorem run_writeFile_eq_ok (base : Path) (s : String) (hkey : Digest.IsDigest key)
    (hs : Path.IsName s.toList) (hd : base.join s = d) (hfits : d.Fits)
    (hshort : d.text.utf8ByteSize + 73 < Tree.maxPath) (hdirs : root.Dirs d.trail)
    (hdraft : ∀ entries, root.get? (d.names ++ [draftName key]) ≠ some (.dir entries))
    (hfile : ∀ entries, root.get? (d.names ++ [fileName key]) ≠ some (.dir entries)) :
    ((writeFile (d.join (fileName key)) run).run root).1 = .ok () := by
  have hsource := d.names_join (isName_draftName hkey)
  have htarget := names_file d hkey
  obtain ⟨root₁, hc⟩ : ∃ root₁, DiskOp.change root (d.join (draftName key))
      (fun _ ↦ run.text.toUTF8) = .ok root₁ := by
    refine DiskOp.exists_change_eq_ok (fits_draft hkey hfits hshort)
      ((Tree.dirs_trail_join (isName_draftName hkey)).2 hdirs)
      (d.asksDirectory_join (isName_draftName hkey)) fun hdir ↦ ?_
    obtain ⟨entries, hdir⟩ := Tree.kindAt_eq_true.1 hdir
    exact hdraft entries (hsource ▸ hdir)
  have hplace : root₁.place (d.join (fileName key)) = .ok (d.join (fileName key)).names :=
    Tree.place_of_keepsDirs (DiskOp.keepsDirs_change hc) (Tree.place_eq_ok_iff.2
      ⟨fits_file hkey hfits (by omega), (Tree.dirs_trail_join (isName_fileName hkey)).2 hdirs, rfl⟩)
  have hapart : Tree.Apart (d.names ++ [draftName key]) (d.names ++ [fileName key]) :=
    Tree.apart_concat (draftName_ne key key)
  obtain ⟨root₂, hm⟩ : ∃ root₂, DiskOp.move root₁ (d.join (draftName key))
      (d.join (fileName key)) = .ok root₂ := by
    obtain ⟨-, -, hread⟩ := DiskOp.readFile_of_change hc
    refine DiskOp.exists_move_file_eq_ok hread hplace (d.asksDirectory_join (isName_fileName hkey))
      ?_ ?_
    · rw [htarget, (DiskOp.change_eq_ok hc).2, hsource, (Tree.isEdit_set _).get?_of_apart hapart]
      exact hfile
    · rw [htarget, hsource]
      exact hapart.1
  have hfill : Script.Finishes (fill (d.join (fileName key)) run) root () root₂ := by
    rw [fill, draft_eq d hkey]
    exact (Script.finishes_write hc).bind (Script.finishes_rename hm)
  have hparent : (d.join (fileName key)).parent? = some d := by
    rw [← hd]
    exact base.parent?_join hs (isName_fileName hkey)
  have hmade := DiskOp.makeAll_of_dirs hfits hdirs
  rw [run_writeFile, hparent]
  exact congrArg Prod.fst ((Script.finishes_makeDirs hmade).bind hfill).attempt_eq

end Write

theorem run_get (c : RunCache) (key : String) (root : Tree) :
    (c.get key).run root =
      match c.entries[key]?, c.dir with
      | some run, _ => ((some run, c), root)
      | none, none => ((none, c), root)
      | none, some d =>
        match inFile? root (d.join (fileName key)) with
        | some run => ((some run, { c with entries := c.entries.insert key run }), root)
        | none => ((none, c), root) := by
  have hfile : c.file? key = c.dir.map fun d ↦ d.join (fileName key) := rfl
  rw [get, hfile]
  cases c.entries[key]? with
  | some run => rfl
  | none =>
    cases c.dir with
    | none => rfl
    | some d =>
      rw [Option.map_some]
      dsimp only
      rw [Script.run_bind, run_readFile_eq]
      cases inFile? root (d.join (fileName key)) <;> rfl

theorem run_put (c : RunCache) (key : String) (run : StoredRun) (root : Tree) :
    (c.put key run).run root =
      ({ c with entries := c.entries.insert key run },
        match c.dir with
        | none => root
        | some d => ((writeFile (d.join (fileName key)) run).run root).2) := by
  have hfile : c.file? key = c.dir.map fun d ↦ d.join (fileName key) := rfl
  rw [put, hfile]
  cases c.dir with
  | none => rfl
  | some d =>
    rw [Option.map_some]
    simp only [Script.run_bind, Script.run_pure]

theorem run_get_cases (c : RunCache) (key : String) (root : Tree) :
    (c.get key).run root = ((none, c), root) ∨
      ∃ run c', (c.get key).run root = ((some run, c'), root) := by
  rw [run_get]
  split
  · exact .inr ⟨_, _, rfl⟩
  · exact .inl rfl
  · split
    · exact .inr ⟨_, _, rfl⟩
    · exact .inl rfl

/-- A run is there for a key: memory holds no other, and a directory has it in a file. -/
structure Has (c : RunCache) (root : Tree) (key : String) (run : StoredRun) : Prop where
  memory : ∀ run', c.entries[key]? = some run' → run' = run
  present : c.dir = none → c.entries[key]? = some run
  file : ∀ d, c.dir = some d → inFile? root (d.join (fileName key)) = some run

/-- What a cache with a directory has in memory is in its files as well. -/
def Backed (c : RunCache) (root : Tree) : Prop :=
  ∀ d, c.dir = some d → ∀ key run, Digest.IsDigest key → c.entries[key]? = some run →
    inFile? root (d.join (fileName key)) = some run

theorem Has.get (h : Has c root key run) : ∃ c', (c.get key).run root = ((some run, c'), root) := by
  rw [run_get]
  cases hentry : c.entries[key]? with
  | some run' =>
    obtain rfl := h.memory run' hentry
    exact ⟨c, rfl⟩
  | none =>
    cases hd : c.dir with
    | none =>
      rw [h.present hd] at hentry
      cases hentry
    | some d =>
      dsimp only
      rw [h.file d hd]
      exact ⟨_, rfl⟩

theorem getElem?_insert_of_ne (entries : TextMap StoredRun) (hne : key ≠ key') :
    (entries.insert key run)[key']? = entries[key']? := by
  rw [Std.ExtTreeMap.getElem?_insert, if_neg fun he ↦ hne (Std.LawfulEqOrd.eq_of_compare he)]

theorem Has.get_of_ne (h : Has c root key run) (hne : key' ≠ key) {run? : Option StoredRun}
    {c' : RunCache} (hget : (c.get key').run root = ((run?, c'), root')) :
    root' = root ∧ Has c' root key run := by
  rw [run_get] at hget
  split at hget
  · cases hget
    exact ⟨rfl, h⟩
  · cases hget
    exact ⟨rfl, h⟩
  · next d hentry hd =>
    split at hget
    · cases hget
      refine ⟨rfl, fun run' he ↦ h.memory run' ?_, fun hnone ↦ ?_, h.file⟩
      · rwa [getElem?_insert_of_ne _ hne] at he
      · rw [hd] at hnone
        cases hnone
    · cases hget
      exact ⟨rfl, h⟩

theorem Has.put_of_ne (h : Has c root key run) (hkey : Digest.IsDigest key)
    (hkey' : Digest.IsDigest key') (hne : key' ≠ key) (run' : StoredRun) :
    Has ((c.put key' run').run root).1 ((c.put key' run').run root).2 key run := by
  rw [run_put]
  refine ⟨fun run₁ he ↦ h.memory run₁ ?_, fun hd ↦ ?_, fun d hd ↦ ?_⟩
  · rwa [getElem?_insert_of_ne _ hne] at he
  · rw [getElem?_insert_of_ne _ hne]
    exact h.present hd
  · have hd : c.dir = some d := hd
    rw [hd]
    dsimp only
    exact inFile?_writeFile_of_ne hkey' hkey hne (h.file d hd)

theorem Backed.get (h : Backed c root) (hkey : Digest.IsDigest key) {c' : RunCache}
    (hget : (c.get key).run root = ((some run, c'), root')) :
    Backed c' root ∧ Has c' root key run := by
  rw [run_get] at hget
  split at hget
  · next run₁ hentry =>
    cases hget
    refine ⟨h, fun run' he ↦ ?_, fun _ ↦ hentry, fun d hd ↦ h d hd key run hkey hentry⟩
    exact Option.some.inj (he.symm.trans hentry)
  · cases hget
  · next d hentry hd =>
    split at hget
    · next run₁ hfile =>
      cases hget
      refine ⟨fun d' hd' key' run' hkey' he ↦ ?_, fun run' he ↦ ?_, fun _ ↦ by simp,
        fun d' hd' ↦ ?_⟩
      · rw [Std.ExtTreeMap.getElem?_insert] at he
        split at he
        · next heq =>
          cases he
          obtain rfl := Option.some.inj (hd.symm.trans hd')
          rw [← Std.LawfulEqOrd.eq_of_compare heq]
          exact hfile
        · exact h d' hd' key' run' hkey' he
      · simpa [eq_comm] using he
      · obtain rfl := Option.some.inj (hd.symm.trans hd')
        exact hfile
    · cases hget

theorem Has.inDir (h : Has c root key run) {d : Path} (hd : c.dir = some d) :
    Has (.inDir d) root key run := by
  refine ⟨fun run' he ↦ ?_, fun hnone ↦ ?_, fun d' hd' ↦ ?_⟩
  · simp [RunCache.inDir] at he
  · cases hnone
  · obtain rfl := Option.some.inj hd'
    exact h.file _ hd

theorem has_put (c : RunCache) (hkey : Digest.IsDigest key)
    (hw : ∀ d, c.dir = some d →
      ((writeFile (d.join (fileName key)) run).run root).1 = .ok ()) :
    Has ((c.put key run).run root).1 ((c.put key run).run root).2 key run := by
  rw [run_put]
  refine ⟨fun run' he ↦ by simpa [eq_comm] using he, fun _ ↦ by simp, fun d hd ↦ ?_⟩
  have hd : c.dir = some d := hd
  rw [hd]
  dsimp only
  exact inFile?_of_writeFile hkey (hw d hd)

theorem Backed.put (h : Backed c root) (hkey : Digest.IsDigest key)
    (hw : ∀ d, c.dir = some d →
      ((writeFile (d.join (fileName key)) run).run root).1 = .ok ()) :
    Backed ((c.put key run).run root).1 ((c.put key run).run root).2 ∧
      Has ((c.put key run).run root).1 ((c.put key run).run root).2 key run := by
  have hhas := has_put c hkey hw
  refine ⟨fun d hd key' run' hkey' he ↦ ?_, hhas⟩
  by_cases hne : key = key'
  · subst hne
    rw [hhas.memory run' he]
    exact hhas.file d hd
  · rw [run_put] at hd he ⊢
    have hd : c.dir = some d := hd
    rw [hd]
    dsimp only at he ⊢
    rw [getElem?_insert_of_ne _ hne] at he
    exact inFile?_writeFile_of_ne hkey hkey' hne (h d hd key' run' hkey' he)

end Multicloud.RunCache

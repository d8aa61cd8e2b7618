import Multicloud.Proofs.Disk.Smooth
import Multicloud.Proofs.Emission.Succession

namespace Multicloud

namespace Emission

open Script

variable {out : Path} {workload : String} {target : Provider} {artifacts : List Artifact}
  {root root' : Tree} {op : DiskOp} {answer : op.Answer} {s : String}

section Entries

/-- Work on what is in a directory, or on a file one name further down. -/
inductive EntryOp (out : Path) : DiskOp → Prop
  | find {s : String} (hs : Path.IsName s.toList) : EntryOp out (.find (out.join s))
  | removeTree {s : String} (hs : Path.IsName s.toList) : EntryOp out (.removeTree (out.join s))
  | makeDirs {s : String} (hs : Path.IsName s.toList) : EntryOp out (.makeDirs (out.join s))
  | rename {s s' : String} (hs : Path.IsName s.toList) (hs' : Path.IsName s'.toList)
    (hne : s ≠ s') : EntryOp out (.rename (out.join s) (out.join s'))
  | write {s name : String} {bytes : ByteArray} (hs : Path.IsName s.toList)
    (hname : Path.IsName name.toList) : EntryOp out (.write ((out.join s).join name) bytes)

theorem EntryOp.exists_within (h : EntryOp out op) :
    ∃ places, (∀ place ∈ places, ∃ x, place = out.names ++ [x]) ∧
      op.Within out.trail places := by
  have hjoin {s : String} {places : List (List String)} (hs : Path.IsName s.toList)
      (hmem : out.names ++ [s] ∈ places) : (out.join s).Within out.trail places :=
    Path.within_join hs (List.Subset.refl _) hmem
  cases h with
  | @find s hs =>
    exact ⟨[out.names ++ [s]], by simp, DiskOp.within_of_path rfl rfl (hjoin hs (.head _))⟩
  | @removeTree s hs =>
    exact ⟨[out.names ++ [s]], by simp, DiskOp.within_of_path rfl rfl (hjoin hs (.head _))⟩
  | @makeDirs s hs =>
    exact ⟨[out.names ++ [s]], by simp, .makeDirs (hjoin hs (.head _)).trail⟩
  | @rename s s' hs hs' _ =>
    exact ⟨[out.names ++ [s], out.names ++ [s']], by simp,
      DiskOp.within_rename (hjoin hs (.head _)) (hjoin hs' (.tail _ (.head _)))⟩
  | @write s name bytes hs hname =>
    exact ⟨[out.names ++ [s]], by simp,
      DiskOp.within_of_path rfl rfl ((hjoin hs (.head _)).join hname)⟩

theorem EntryOp.trail_subset (h : EntryOp out op) :
    ∀ p ∈ op.paths, out.trail ⊆ p.trail.dropLast := by
  have hjoin {s : String} (hs : Path.IsName s.toList) :
      out.trail ⊆ (out.join s).trail.dropLast := by
    rw [Path.trail_join out hs, List.dropLast_concat]
    exact List.Subset.refl _
  cases h with
  | find hs => exact List.forall_mem_singleton.2 (hjoin hs)
  | removeTree hs => exact List.forall_mem_singleton.2 (hjoin hs)
  | makeDirs hs => exact List.forall_mem_singleton.2 (hjoin hs)
  | rename hs hs' _ =>
    exact List.forall_mem_cons.2 ⟨hjoin hs, List.forall_mem_singleton.2 (hjoin hs')⟩
  | @write s name bytes hs hname =>
    refine List.forall_mem_singleton.2 fun m hm ↦ ?_
    rw [Path.trail_join _ hname, List.dropLast_concat]
    exact List.dropLast_subset _ (hjoin hs hm)

/-- An output directory in which there are directories only. Nothing is in it before it is reached
through directories by its path, where no file stands in the way. -/
structure Sound (out : Path) (root : Tree) : Prop where
  clear : root.Clear out.trail
  inside : ∀ x, root.fileAt? (out.names ++ [x]) = none
  reached : ∀ x, root.get? (out.names ++ [x]) ≠ none → root.Dirs out.trail
  lists : root.Lists out.names

theorem Vacant.sound (h : Vacant out root) (hclear : root.Clear out.trail) : Sound out root where
  clear := hclear
  inside x := by rw [Tree.fileAt?, h.get?_eq_none]
  reached := h.workable.reached
  lists := h.workable.lists

theorem Sound.inside_step (h : Sound out root) (hop : EntryOp out op)
    (hy : op.Yields root answer root') (x : String) :
    root'.fileAt? (out.names ++ [x]) = none := by
  cases hop with
  | find hs => rw [DiskOp.fileAt?_eq_of_yields (by simp [DiskOp.edits]) hy, h.inside]
  | makeDirs hs => rw [DiskOp.fileAt?_eq_of_yields (by simp [DiskOp.edits]) hy, h.inside]
  | @write s name bytes hs hname =>
    have hnames : ((out.join s).join name).names = out.names ++ [s] ++ [name] := by
      rw [Path.names_join _ hname, Path.names_join _ hs]
    rw [DiskOp.fileAt?_eq_of_yields (by simp [DiskOp.edits, hnames]) hy,
      h.inside]
  | @removeTree s hs =>
    have hnames := out.names_join hs
    by_cases hx : x = s
    · subst hx
      exact DiskOp.fileAt?_of_removeTree hnames h.lists (h.inside x) hy
    · have hkept := (DiskOp.beside_removeTree hnames hy).get?_eq x hx
      rw [Tree.fileAt?_eq_of_get?_eq hkept, h.inside]
  | @rename s s' hs hs' hne =>
    rcases DiskOp.yields_rename (out.names_join hs) (out.names_join hs') hne hy with
      ⟨-, rfl⟩ | ⟨-, hmoves⟩
    · exact h.inside x
    by_cases hx : x = s'
    · subst hx
      obtain ⟨w, hw, hw'⟩ := hmoves.moved
      rw [Tree.fileAt?_eq_of_get?_eq (hw'.trans hw.symm), h.inside]
    by_cases hx' : x = s
    · subst hx'
      rw [Tree.fileAt?, hmoves.gone h.lists]
    · rw [Tree.fileAt?_eq_of_get?_eq (hmoves.get?_eq x hx' hx), h.inside]

/-- Work on entries leaves an output directory sound, whatever fails. -/
theorem Sound.step (hd : out.IsDirect) (h : Sound out root) (hop : EntryOp out op)
    (hy : op.Yields root answer root') : Sound out root' := by
  obtain ⟨places, hplaces, hwithin⟩ := hop.exists_within
  have hreaches : Reaches (Script.step op) root (.done answer) root' := .step hy (.here _ _)
  have hdirs := dirs_of_direct (only_step hwithin) hreaches hd hplaces
  refine ⟨fun m hm ↦ ?_, h.inside_step hop hy, fun x hthere ↦ ?_,
    lists_of_within (only_step hwithin) hreaches hplaces h.lists⟩
  · rw [(only_step hwithin).fileAt?_eq (fun place hmem hp ↦ ?_) hreaches, h.clear m hm]
    obtain ⟨y, rfl⟩ := hplaces place hmem
    exact hd.not_prefix hm y [] hp
  · -- Only to make directories can make the way; anything else has found it before it changes
    -- what is there.
    by_cases hmade : op.made = []
    · rcases DiskOp.eq_or_dirs_of_yields hmade hy with rfl | ⟨p, hp, hway⟩
      · exact h.reached x hthere
      · exact hdirs fun m hm ↦ hway m (hop.trail_subset p hp hm)
    · cases hop with
      | makeDirs hs =>
        have hnot : ∀ m ∈ out.trail, ¬ out.names ++ [x] <+: m :=
          fun m hm ↦ hd.not_prefix hm x []
        exact (DiskOp.there_of_makeDirs hs hnot h.clear hy hthere).elim
          (fun hbefore ↦ hdirs (h.reached x hbefore)) id
      | _ => exact absurd rfl hmade

theorem Sound.of_reaches {α : Type} {s s' : Script α} (hd : out.IsDirect) (h : Sound out root)
    (hs : Only (EntryOp out) s) (hr : Reaches s root s' root') : Sound out root' :=
  hs.inv_of_reaches (fun _ _ _ _ hop hi hy ↦ Sound.step hd hi hop hy) h hr

end Entries

section Names

variable (hw : '/' ∉ workload.toList)

include hw

theorem TreeOp.entryOp (h : TreeOp out (Artifact.treeName target workload) artifacts op)
    (hfiles : ∀ a ∈ artifacts, Path.IsName a.fileName.toList) : EntryOp out op := by
  have hname : Path.IsName (Artifact.treeName target workload).toList := isName_treeName hw
  have hslash := slash_not_mem_treeName hw target
  have hstaging := isName_stagingName hslash
  have hretired := isName_retiredName hslash
  cases h with
  | clearStaging => exact .removeTree hstaging
  | clearRetired => exact .removeTree hretired
  | make => exact .makeDirs hstaging
  | write ha => exact .write hstaging (hfiles _ ha)
  | find => exact .find hname
  | retire => exact .rename hname hretired (name_ne_retiredName _)
  | place => exact .rename hstaging hname (name_ne_stagingName _).symm

variable (out) (target) (hfiles : ∀ a ∈ artifacts, Path.IsName a.fileName.toList)

include hfiles

theorem onlyOr_entryOp_prepare :
    OnlyOr (EntryOp out) (prepare out (Artifact.treeName target workload) artifacts) :=
  Only.imp (onlyOr_prepare _ _ _) fun _ h ↦ h.entryOp hw hfiles

theorem onlyOr_entryOp_writeTree :
    OnlyOr (EntryOp out) (writeTree out workload target artifacts) :=
  Only.imp (onlyOr_treeOp_writeTree _ _ _ _) fun _ h ↦ h.entryOp hw hfiles

end Names

section Sincere

theorem exists_eq_ok {ε α : Type} {x : Except ε α} (h : ¬ ∃ e, x = .error e) :
    ∃ a, x = .ok a := by
  cases x with
  | error e => exact absurd ⟨e, rfl⟩ h
  | ok a => exact ⟨a, rfl⟩

theorem finishes_removeIfPresent {dir : Path} {answer : Except DiskError Unit}
    (hrun : (DiskOp.removeTree dir).run root = (answer, root'))
    (h : (DiskOp.removeTree dir).Succeeds answer) :
    Finishes (removeIfPresent dir) root () root' := by
  have hsmooth : Smooth (Script.removeTree dir) root := by
    refine smooth_step.2 ?_
    rw [hrun]
    exact h
  have hstep : Finishes (liftM (Script.removeTree dir) : OrFail EmitError _) root answer root' :=
    finishes_lift hsmooth hrun
  refine hstep.bind ?_
  cases answer with
  | ok a => exact finishes_pure () _
  | error e =>
    have he : e = .notFound := by
      by_contra hne
      exact h ⟨e, hne, rfl⟩
    rw [he]
    exact finishes_pure () _

theorem sincere_removeIfPresent (dir : Path) : Sincere (removeIfPresent dir) := by
  intro root hsmooth
  have hlift : Smooth (liftM (Script.removeTree dir) : OrFail EmitError _).run root :=
    (smooth_bind.1 hsmooth).1
  have hstep : Smooth (Script.removeTree dir) root := (smooth_bind.1 hlift).1
  exact ⟨(), _, finishes_removeIfPresent rfl (smooth_step.1 hstep)⟩

theorem sincere_at (p : Path) {s : Script (Except DiskError Unit)}
    (h : ∀ root, Smooth s root → ¬ ∃ e, (s.run root).1 = .error e) : Sincere (at' p s) :=
  sincere_orElse _ fun root hs ↦ exists_eq_ok (h root hs)

theorem sincere_makeDirs (p dir : Path) : Sincere (at' p (makeDirs dir)) :=
  sincere_at p fun root ↦ (@smooth_step root (.makeDirs dir)).1

theorem sincere_write (p file : Path) (s : String) : Sincere (at' p (Script.write file s)) :=
  sincere_at p fun root ↦ (@smooth_step root (.write file s.toUTF8)).1

theorem sincere_rename (p source target : Path) : Sincere (at' p (rename source target)) :=
  sincere_at p fun root ↦ (@smooth_step root (.rename source target)).1

theorem sincere_makeReady (dir : Path) (artifacts : List Artifact) :
    Sincere (makeReady dir artifacts) := by
  refine (sincere_makeDirs _ _).bind fun _ ↦ ?_
  induction artifacts with
  | nil => exact sincere_pure ()
  | cons a artifacts ih => exact (sincere_write _ _ _).bind fun _ ↦ ih

theorem sincere_finish (out : Path) (name : String) : Sincere (finish out name) :=
  (sincere_rename _ _ _).bind fun _ ↦ (sincere_removeIfPresent _).bind fun _ ↦ sincere_pure _

theorem sincere_writeTree (out : Path) (workload : String) (target : Provider)
    (artifacts : List Artifact) : Sincere (writeTree out workload target artifacts) := by
  rw [writeTree_eq]
  refine Sincere.bind ?_ fun _ ↦ sincere_finish _ _
  refine (sincere_removeIfPresent _).bind fun _ ↦ (sincere_removeIfPresent _).bind fun _ ↦ ?_
  refine (sincere_makeReady _ _).bind fun _ ↦ (sincere_lift _).bind fun present ↦ ?_
  split
  · exact sincere_rename _ _ _
  · exact sincere_pure ()

end Sincere

section Gone

variable {name : String} {t : Provider}

theorem Sound.of_leads {α : Type} {script : Script α} {a : α} (hd : out.IsDirect)
    (h : Sound out root) (hs : Only (EntryOp out) script) (hl : Leads script root a root') :
    Sound out root' := Sound.of_reaches hd h hs hl.reaches

theorem Sound.gone (h : Sound out root) (hd : out.IsDirect) (hs : Path.IsName s.toList)
    (hl : Leads (removeIfPresent (out.join s)).run root (.ok ()) root') :
    root'.get? (out.names ++ [s]) = none := by
  obtain ⟨answer, hy, hanswer⟩ := yields_of_removeIfPresent hl
  refine DiskOp.gone_removeTree (out.names_join hs) (hd.join hs) (fun hthere ↦ ?_) h.lists hanswer hy
  rw [out.names_join hs] at hthere
  exact (Tree.dirs_trail_join hs).2 (h.reached s hthere)

variable (hw : '/' ∉ name.toList) (hd : out.IsDirect)

include hw hd

theorem gone_of_finish (h : Sound out root) {p : Path}
    (hl : Leads (finish out (Artifact.treeName t name)).run root (.ok p) root') :
    root'.get? (staging out (Artifact.treeName t name)).names = none ∧
      root'.get? (retired out (Artifact.treeName t name)).names = none := by
  have hslash := slash_not_mem_treeName hw t
  have hnames := names_staging hw out t
  have hstep : Only (EntryOp out) (Script.rename (staging out (Artifact.treeName t name))
      (out.join (Artifact.treeName t name))) :=
    only_step (.rename (isName_stagingName hslash) (isName_treeName hw)
      (name_ne_stagingName _).symm)
  obtain ⟨_, root₁, hrename, hrest⟩ := leads_bindOr_ok.1 hl
  obtain ⟨_, root₂, hremove, hdone⟩ := leads_bindOr_ok.1 hrest
  obtain ⟨-, rfl⟩ := leads_pureOr.1 hdone
  have hmoves := DiskOp.moves_of_move hnames (names_dest hw out t) (name_ne_stagingName _).symm
    (move_of_leads_rename (leads_orElse_ok.1 hrename))
  have hsound : Sound out root₁ := h.of_leads hd hstep (leads_orElse_ok.1 hrename)
  have hbeside := beside_of_removeIfPresent (names_retired hw out t) hremove
  rw [hnames, names_retired hw out t]
  refine ⟨?_, hsound.gone hd (isName_retiredName hslash) hremove⟩
  rw [hbeside.get?_eq _ (retiredName_ne_stagingName _).symm]
  exact hmoves.gone h.lists

theorem gone_of_writeTree (hfiles : ∀ a ∈ artifacts, Path.IsName a.fileName.toList)
    (h : Sound out root) {p : Path}
    (hl : Leads (writeTree out name t artifacts).run root (.ok p) root') :
    root'.get? (staging out (Artifact.treeName t name)).names = none ∧
      root'.get? (retired out (Artifact.treeName t name)).names = none := by
  rw [writeTree_eq] at hl
  obtain ⟨_, root₁, hprepare, hfinish⟩ := leads_bindOr_ok.1 hl
  have hsound := h.of_leads hd (onlyOr_entryOp_prepare out t hw hfiles) hprepare
  exact gone_of_finish hw hd hsound hfinish

end Gone

section Finishes

variable {name s' : String} {t : Provider} {entries : List (String × Tree)}

theorem Sound.clear_join (h : Sound out root) (hs : Path.IsName s.toList) :
    root.Clear (out.join s).trail := by
  rw [out.trail_join hs]
  intro place hmem
  rcases List.mem_append.1 hmem with hmem | hmem
  · exact h.clear place hmem
  · rw [List.mem_singleton.1 hmem]
    exact h.inside s

theorem Sound.exists_finishes_clear (h : Sound out root) (hs : Path.IsName s.toList)
    (hfits : (out.join s).Fits) :
    ∃ root', Finishes (removeIfPresent (out.join s)) root () root' :=
  ⟨_, finishes_removeIfPresent rfl (DiskOp.succeeds_removeTree hfits (h.clear_join hs)
    (DiskOp.endFault?_join out hs))⟩

theorem Sound.exists_finishes_makeDirs (h : Sound out root) (hs : Path.IsName s.toList)
    (hfits : (out.join s).Fits) :
    ∃ root', Finishes (at' (out.join s) (makeDirs (out.join s))) root () root' ∧
      root'.Dirs (out.join s).trail := by
  obtain ⟨hok, hdirs⟩ := DiskOp.makeAll_of_clear hfits (h.clear_join hs)
  exact ⟨_, finishes_makeDirs (Prod.ext hok rfl), hdirs⟩

theorem exists_finishes_write {dir p : Path} {name body : String} (hd : dir.IsDirect)
    (hname : Path.IsName name.toList) (hfits : (dir.join name).Fits) (hdirs : root.Dirs dir.trail)
    (hinside : ∀ x, root.kindAt (dir.names ++ [x]) ≠ some true) :
    ∃ root', Finishes (at' p (Script.write (dir.join name) body)) root () root' ∧
      root'.Dirs dir.trail ∧ ∀ x, root'.kindAt (dir.names ++ [x]) ≠ some true := by
  have hnames := dir.names_join hname
  have hway : root.Dirs (dir.join name).trail.dropLast := (Tree.dirs_trail_join hname).2 hdirs
  have hfree : root.kindAt (dir.join name).names ≠ some true := by
    rw [hnames]
    exact hinside name
  obtain ⟨root', hchange⟩ : ∃ root',
      DiskOp.change root (dir.join name) (fun _ ↦ body.toUTF8) = .ok root' :=
    DiskOp.exists_change_eq_ok hfits hway (dir.asksDirectory_join hname) hfree
  have hkind {m : List String} (hm : ¬ (dir.join name).names <+: m) :
      root'.kindAt m = root.kindAt m :=
    (DiskOp.edited_change hchange).kindAt_eq fun place hmem ↦ by rwa [List.mem_singleton.1 hmem]
  refine ⟨root', finishes_write hchange, fun m hm ↦ ?_, fun x ↦ ?_⟩
  · rw [← Tree.kindAt_eq_true, hkind, Tree.kindAt_eq_true]
    · exact hdirs m hm
    · rw [hnames]
      exact hd.not_prefix hm _ []
  · by_cases hx : x = name
    · subst hx
      obtain ⟨hplace, hset⟩ := DiskOp.change_eq_ok hchange
      rw [hset, ← hnames, Tree.kindAt, Tree.get?_set_of_place hplace]
      simp [Tree.isDir]
    · rw [hkind]
      · exact hinside x
      · rw [hnames]
        exact (Tree.apart_concat (Ne.symm hx)).1

theorem exists_finishes_writeFiles {dir : Path} (hd : dir.IsDirect)
    (hfiles : ∀ a ∈ artifacts, Path.IsName a.fileName.toList)
    (hfits : ∀ a ∈ artifacts, (dir.join a.fileName).Fits) (hdirs : root.Dirs dir.trail)
    (hinside : ∀ x, root.kindAt (dir.names ++ [x]) ≠ some true) :
    ∃ root', Finishes (writeFiles dir artifacts) root () root' ∧ root'.Dirs dir.trail := by
  induction artifacts generalizing root with
  | nil => exact ⟨root, finishes_pure () root, hdirs⟩
  | cons a artifacts ih =>
    obtain ⟨ha, hfiles⟩ := List.forall_mem_cons.1 hfiles
    obtain ⟨hafits, hfits⟩ := List.forall_mem_cons.1 hfits
    obtain ⟨root₁, hwrite, hdirs, hinside⟩ := exists_finishes_write hd ha hafits hdirs hinside
    obtain ⟨root', hrest, hdirs⟩ := ih hfiles hfits hdirs hinside
    exact ⟨root', hwrite.bind hrest, hdirs⟩

theorem Sound.exists_finishes_rename (h : Sound out root) (p : Path) (hs : Path.IsName s.toList)
    (hs' : Path.IsName s'.toList) (hne : s ≠ s') (hfits : (out.join s).Fits)
    (hfits' : (out.join s').Fits) (hdir : root.get? (out.names ++ [s]) = some (.dir entries))
    (hnone : root.get? (out.names ++ [s']) = none) :
    ∃ root', Finishes (at' p (rename (out.join s) (out.join s'))) root () root' ∧
      DiskOp.Moves out.names s s' root root' := by
  have hnames := out.names_join hs
  have hnames' := out.names_join hs'
  have hdirs : root.Dirs out.trail := h.reached s (by rw [hdir]; exact Option.some_ne_none _)
  have hbelow : ¬ (out.join s).names <+: (out.join s').names := by
    rw [hnames, hnames']
    exact (Tree.apart_concat hne).1
  rw [← hnames] at hdir
  rw [← hnames'] at hnone
  obtain ⟨root', hmove⟩ := DiskOp.exists_move_eq_ok hfits hfits' ((Tree.dirs_trail_join hs).2 hdirs)
    ((Tree.dirs_trail_join hs').2 hdirs) hdir hnone hbelow
  exact ⟨root', finishes_rename hmove, DiskOp.moves_of_move hnames hnames' hne hmove⟩

theorem Sound.exists_finishes_makeReady (h : Sound out root) (hd : out.IsDirect)
    (hs : Path.IsName s.toList) (hfree : root.get? (out.names ++ [s]) = none)
    (hfiles : ∀ a ∈ artifacts, Path.IsName a.fileName.toList) (hfits : (out.join s).Fits)
    (hafits : ∀ a ∈ artifacts, ((out.join s).join a.fileName).Fits) :
    ∃ root' entries, Finishes (makeReady (out.join s) artifacts) root () root' ∧
      root'.get? (out.names ++ [s]) = some (.dir entries) ∧
      ∀ x, x ≠ s → root'.get? (out.names ++ [x]) = root.get? (out.names ++ [x]) := by
  have hnames := out.names_join hs
  have hdirect := hd.join hs
  obtain ⟨root₁, hmake, hdirs⟩ := h.exists_finishes_makeDirs hs hfits
  have hbare : DiskOp.IsBare root₁ (out.join s).names := by
    refine DiskOp.isBare_makeDirs hdirect (fun u hu ↦ ?_)
      (@yields_of_leads _ _ (.makeDirs _) _ (leads_orElse_ok.1 hmake.leads))
    rw [hnames, hfree] at hu
    cases hu
  have hinside (x : String) : root₁.kindAt ((out.join s).names ++ [x]) ≠ some true := by
    obtain ⟨entries, hdir⟩ := hdirs _ (Path.names_mem_trail _)
    rw [Tree.kindAt, Tree.get?_append, hdir]
    cases hbare _ hdir
    simp [Tree.get?, Tree.find]
  obtain ⟨root', hwrite, hdirs⟩ := exists_finishes_writeFiles hdirect hfiles hafits hdirs hinside
  obtain ⟨entries, hdir⟩ := hdirs _ (Path.names_mem_trail _)
  have hfinishes : Finishes (makeReady (out.join s) artifacts) root () root' := hmake.bind hwrite
  refine ⟨root', entries, hfinishes, hnames ▸ hdir, fun x hx ↦ ?_⟩
  have hwithin : (out.join s).Within out.trail [out.names ++ [s]] :=
    Path.within_join hs (List.Subset.refl _) (.head _)
  have honly : OnlyOr (DiskOp.Within out.trail [out.names ++ [s]])
      (makeReady (out.join s) artifacts) :=
    onlyOr_makeReady (.makeDirs hwithin.trail) fun a ha ↦
      DiskOp.within_of_path rfl rfl (hwithin.join (hfiles a ha))
  refine get?_of_direct honly hfinishes.leads.reaches hd fun place hmem ↦ ?_
  rw [List.mem_singleton.1 hmem]
  exact Tree.apart_concat (Ne.symm hx)

theorem finishes_isPresent (p : Path) (root : Tree) :
    Finishes (liftM (isPresent p) : OrFail EmitError Bool) root (DiskOp.findAt root p).isSome
      root :=
  finishes_lift (smooth_bind.2 ⟨smooth_step.2 trivial, trivial⟩) rfl

theorem Sound.eq_dir (h : Sound out root) {u : Tree} (hu : root.get? (out.names ++ [s]) = some u) :
    ∃ entries, u = .dir entries := by
  cases u with
  | dir entries => exact ⟨entries, rfl⟩
  | file bytes =>
    have hfile := Tree.fileAt?_eq_some.2 hu
    rw [h.inside s] at hfile
    cases hfile

theorem Sound.isSome_findAt (h : Sound out root) (hs : Path.IsName s.toList)
    (hfits : (out.join s).Fits) :
    (DiskOp.findAt root (out.join s)).isSome = (root.get? (out.names ++ [s])).isSome := by
  have hnames := out.names_join hs
  cases hget : root.get? (out.names ++ [s]) with
  | none =>
    unfold DiskOp.findAt
    split
    · next names t hat =>
      obtain ⟨hplace, hthere⟩ := Tree.at?_eq_ok hat
      rw [hplace, hnames, hget] at hthere
      cases hthere
    · rfl
  | some u =>
    obtain ⟨entries, rfl⟩ := h.eq_dir hget
    have hdirs : root.Dirs out.trail := h.reached s (by rw [hget]; exact Option.some_ne_none _)
    rw [← hnames] at hget
    rw [DiskOp.findAt, DiskOp.at?_of_dir hfits ((Tree.dirs_trail_join hs).2 hdirs) hget]
    rfl

section WriteTree

variable (hw : '/' ∉ name.toList) (hretired : (retired out (Artifact.treeName t name)).Fits)
  (hdest : (out.join (Artifact.treeName t name)).Fits)

include hw hretired hdest

theorem Sound.exists_finishes_vacate (h : Sound out root)
    (hready : root.get? (staging out (Artifact.treeName t name)).names = some (.dir entries))
    (hfree : root.get? (retired out (Artifact.treeName t name)).names = none) :
    ∃ root', Finishes (vacate out (Artifact.treeName t name)) root () root' ∧
      root'.get? (staging out (Artifact.treeName t name)).names = some (.dir entries) ∧
      root'.get? (treePlace out name t) = none := by
  have hname : Path.IsName (Artifact.treeName t name).toList := isName_treeName hw
  have hr := isName_retiredName (slash_not_mem_treeName hw t)
  have hne := name_ne_retiredName (Artifact.treeName t name)
  have hpresent := finishes_isPresent (out.join (Artifact.treeName t name)) root
  rw [h.isSome_findAt hname hdest] at hpresent
  rw [names_retired hw out t] at hfree
  cases hthere : root.get? (out.names ++ [Artifact.treeName t name]) with
  | none =>
    rw [hthere] at hpresent
    exact ⟨root, hpresent.bind (finishes_pure () root), hready, hthere⟩
  | some u =>
    rw [hthere] at hpresent
    obtain ⟨old, rfl⟩ := h.eq_dir hthere
    obtain ⟨root', hrename, hmoves⟩ := h.exists_finishes_rename
      (out.join (Artifact.treeName t name)) hname hr hne hdest hretired hthere hfree
    refine ⟨root', hpresent.bind hrename, ?_, hmoves.gone h.lists⟩
    rw [names_staging hw out t] at hready ⊢
    rw [hmoves.get?_eq _ (name_ne_stagingName _).symm (retiredName_ne_stagingName _).symm, hready]

variable (hd : out.IsDirect) (hstaging : (staging out (Artifact.treeName t name)).Fits)

include hd hstaging

theorem Sound.exists_finishes_finish (h : Sound out root)
    (hready : root.get? (staging out (Artifact.treeName t name)).names = some (.dir entries))
    (hfree : root.get? (treePlace out name t) = none) :
    ∃ root', Finishes (finish out (Artifact.treeName t name)) root
      (out.join (Artifact.treeName t name)) root' := by
  have hslash := slash_not_mem_treeName hw t
  have hs := isName_stagingName hslash
  have hname : Path.IsName (Artifact.treeName t name).toList := isName_treeName hw
  have hne := (name_ne_stagingName (Artifact.treeName t name)).symm
  rw [names_staging hw out t] at hready
  obtain ⟨root₁, hrename, -⟩ := h.exists_finishes_rename (out.join (Artifact.treeName t name))
    hs hname hne hstaging hdest hready hfree
  have hsound : Sound out root₁ :=
    h.of_leads hd (onlyOr_orElse (only_step (.rename hs hname hne))) hrename.leads
  obtain ⟨root', hclear⟩ := hsound.exists_finishes_clear (isName_retiredName hslash) hretired
  exact ⟨root', hrename.bind (hclear.bind (finishes_pure _ _))⟩

/-- From a sound directory a tree is written without a failure. -/
theorem Sound.exists_finishes_writeTree (h : Sound out root)
    (hfiles : ∀ a ∈ artifacts, Path.IsName a.fileName.toList)
    (hfits : ∀ a ∈ artifacts, ((staging out (Artifact.treeName t name)).join a.fileName).Fits) :
    ∃ root', Finishes (writeTree out name t artifacts) root
      (out.join (Artifact.treeName t name)) root' := by
  have hslash := slash_not_mem_treeName hw t
  have hs := isName_stagingName hslash
  have hr := isName_retiredName hslash
  obtain ⟨root₁, hclear⟩ := h.exists_finishes_clear hs hstaging
  have hsound₁ := h.of_leads hd (onlyOr_removeIfPresent (.removeTree hs)) hclear.leads
  have hgone := h.gone hd hs hclear.leads
  obtain ⟨root₂, hclear', hfree⟩ : ∃ root₂,
      Finishes (removeIfPresent (retired out (Artifact.treeName t name))) root₁ () root₂ ∧
      root₂.get? (out.names ++ ["." ++ Artifact.treeName t name ++ ".staging"]) = none := by
    obtain ⟨root₂, hclear'⟩ := hsound₁.exists_finishes_clear hr hretired
    refine ⟨root₂, hclear', ?_⟩
    rw [(beside_of_removeIfPresent (names_retired hw out t) hclear'.leads).get?_eq _
      (retiredName_ne_stagingName _).symm, hgone]
  have hsound₂ := hsound₁.of_leads hd (onlyOr_removeIfPresent (.removeTree hr)) hclear'.leads
  obtain ⟨root₃, entries, hmake, hready, hothers⟩ :=
    hsound₂.exists_finishes_makeReady hd hs hfree hfiles hstaging hfits
  have hsound₃ := hsound₂.of_leads hd
    (onlyOr_makeReady (.makeDirs hs) fun a ha ↦ .write hs (hfiles a ha)) hmake.leads
  have hfree' : root₃.get? (retired out (Artifact.treeName t name)).names = none := by
    rw [names_retired hw out t, hothers _ (retiredName_ne_stagingName _)]
    exact hsound₁.gone hd hr hclear'.leads
  rw [← names_staging hw out t] at hready
  obtain ⟨root₄, hvacate, hready, hplace⟩ :=
    hsound₃.exists_finishes_vacate hw hretired hdest hready hfree'
  have hprepare : Finishes (prepare out (Artifact.treeName t name) artifacts) root () root₄ :=
    hclear.bind (hclear'.bind (hmake.bind hvacate))
  have hsound₄ := h.of_leads hd (onlyOr_entryOp_prepare out t hw hfiles) hprepare.leads
  obtain ⟨root', hfinish⟩ :=
    hsound₄.exists_finishes_finish hw hretired hdest hd hstaging hready hplace
  rw [writeTree_eq]
  exact ⟨root', hprepare.bind hfinish⟩

end WriteTree

end Finishes

end Emission

end Multicloud

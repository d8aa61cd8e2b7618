import Multicloud.Proofs.Disk.Alike
import Multicloud.Proofs.Emission.Outcome

namespace Multicloud

namespace DiskOp

variable {root root' : Tree} {p : Path} {names done steps : List String}

theorem isBare_addDirs (h : ∀ m ∈ Path.trailFrom done steps, names <+: m → m = names)
    (hbare : IsBare root names) : IsBare (addDirs root done.reverse steps).2 names := by
  refine @addDirs_induction _ (IsBare · names) _ _ (fun t m hm hnone ht u hu ↦ ?_) hbare
  by_cases hp : names <+: m
  · obtain rfl := h m hm hp
    obtain rfl | ⟨base, x, rfl⟩ := List.eq_nil_or_concat' m
    · cases hnone
    · exact eq_of_get?_set_concat hu
  · rw [Tree.get?_set_bare hnone hp] at hu
    exact ht u hu

theorem isBare_makeDirs (h : ∀ m ∈ p.trail, names <+: m → m = names) (hbare : IsBare root names)
    {answer : Except DiskError Unit} (hy : (makeDirs p).Yields root answer root') :
    IsBare root' names := by
  rcases hy.edited with hedited | ⟨q, n, hq, rfl⟩
  · rwa [hedited.eq_of_nil]
  · cases hq
    exact @isBare_addDirs _ _ [] _ (fun m hm ↦ h m (Path.mem_trailFrom_take hm)) hbare

end DiskOp

namespace Emission

open Script

variable {out : Path} {name : String} {t target : Provider} {artifacts before : List Artifact}
  {root root' : Tree} {o : Outcome} {c : Composition}

theorem compositionFile_eq (out : Path) :
    compositionFile out = out.names ++ [compositionDir, Composition.standardName] := by
  rw [compositionFile, compositionPlace, List.append_assoc]
  rfl

/-- An output directory that work can go on in: what is in it is reached by its path, and it lists
what is in it in order, as does the directory of the composition. -/
structure Workable (out : Path) (root : Tree) : Prop where
  reached : ∀ x, root.get? (out.names ++ [x]) ≠ none → root.Dirs out.trail
  lists : root.Lists out.names
  composition : root.Lists (compositionPlace out)

theorem Workable.way (h : Workable out root) {s : String} (hs : Path.IsName s.toList)
    (hthere : root.get? (out.join s).names ≠ none) : root.Dirs (out.join s).trail.dropLast := by
  rw [out.names_join hs] at hthere
  exact (Tree.dirs_trail_join hs).2 (h.reached s hthere)

section Elsewhere

variable {α : Type} {s s' : Script α} {places' : List (List String)}
  (hs : Only (DiskOp.Within out.trail places') s) (hr : Reaches s root s' root')

include hs hr

theorem get?_of_direct (hd : out.IsDirect) {x : String} {rest : List String}
    (hplaces : ∀ place ∈ places', Tree.Apart place (out.names ++ x :: rest)) :
    root'.get? (out.names ++ x :: rest) = root.get? (out.names ++ x :: rest) :=
  hs.get?_eq hplaces (fun _ hmem hp ↦ absurd hp (hd.not_prefix hmem x rest)) hr

theorem dirs_of_direct (hd : out.IsDirect)
    (hplaces : ∀ place ∈ places', ∃ x, place = out.names ++ [x])
    (hdirs : root.Dirs out.trail) : root'.Dirs out.trail := by
  refine hs.dirs hr (fun place hmem m hm hp ↦ ?_) hdirs
  obtain ⟨x, rfl⟩ := hplaces place hmem
  exact hd.not_prefix hm x [] hp

theorem lists_of_within (hplaces : ∀ place ∈ places', ∃ x, place = out.names ++ [x])
    (hl : root.Lists out.names) : root'.Lists out.names := by
  refine hs.lists hr (fun place hmem hp ↦ ?_) hl
  obtain ⟨x, rfl⟩ := hplaces place hmem
  have hlength := hp.length_le
  rw [List.length_append, List.length_singleton] at hlength
  omega

end Elsewhere

theorem apart_places_composition :
    ∀ place ∈ places out name t, Tree.Apart place (compositionPlace out) := by
  have hdotted (s : String) : "." ++ s ≠ compositionDir := by
    intro he
    have hhead := congrArg (fun s ↦ s.toList.head?) he
    simp [compositionDir] at hhead
  simp only [places, List.forall_mem_cons]
  refine ⟨Tree.apart_comm.1 apart_compositionPlace, Tree.apart_concat ?_, Tree.apart_concat ?_,
    by simp⟩
  · rw [String.append_assoc]
    exact hdotted _
  · rw [String.append_assoc]
    exact hdotted _

section Tree

variable {base : List String} {x : String} {dir : Path}

theorem yields_of_removeIfPresent (h : Leads (removeIfPresent dir).run root (.ok ()) root') :
    ∃ answer, (DiskOp.removeTree dir).Yields root answer root' ∧
      (answer = .ok () ∨ answer = .error .notFound) := by
  obtain ⟨answer, root₁, hlift, hrest⟩ := leads_bindOr_ok.1 h
  obtain ⟨_, hstep, he⟩ := leads_lift.1 hlift
  obtain rfl := Except.ok.inj he
  have hy := @yields_of_leads _ _ (.removeTree dir) _ hstep
  split at hrest
  · obtain ⟨-, rfl⟩ := leads_pureOr.1 hrest
    exact ⟨_, hy, .inl rfl⟩
  · obtain ⟨-, rfl⟩ := leads_pureOr.1 hrest
    exact ⟨_, hy, .inr rfl⟩
  · cases hrest

theorem beside_of_removeIfPresent (hp : dir.names = base ++ [x])
    (h : Leads (removeIfPresent dir).run root (.ok ()) root') : root.Beside base x root' := by
  obtain ⟨answer, hy, -⟩ := yields_of_removeIfPresent h
  exact DiskOp.beside_removeTree hp hy

def Drafts (place : List String) (artifacts : List Artifact) (root : Tree) : Prop :=
  ∀ u, root.get? place = some u → u = .dir (entriesOf artifacts)

theorem drafts_of_writeFiles (hdir : dir.names = base ++ [x])
    (hfiles : ∀ a ∈ artifacts, Path.IsName a.fileName.toList)
    (h : Drafts (base ++ [x]) before root)
    (hl : Leads (writeFiles dir artifacts).run root (.ok ()) root') :
    Drafts (base ++ [x]) (before ++ artifacts) root' := by
  induction artifacts generalizing root before with
  | nil =>
    obtain ⟨-, rfl⟩ := leads_pureOr.1 hl
    rwa [List.append_nil]
  | cons a artifacts ih =>
    obtain ⟨ha, hfiles⟩ := List.forall_mem_cons.1 hfiles
    obtain ⟨_, root₁, hwrite, hl⟩ := leads_bindOr_ok.1 hl
    rw [List.append_cons before]
    refine ih hfiles (fun u hu ↦ ?_) hl
    have hp : (dir.join a.fileName).names = base ++ [x] ++ [a.fileName] := by
      rw [dir.names_join ha, hdir]
    have hy := @yields_of_leads _ _ (.write _ _) _ (leads_orElse_ok.1 hwrite)
    obtain ⟨-, hput⟩ := DiskOp.yields_write hp hy
    obtain ⟨entries, he, hput⟩ := hput rfl
    cases h _ he
    rw [entriesOf_concat]
    exact Option.some.inj (hu.symm.trans hput)

variable (hw : '/' ∉ name.toList) (hd : out.IsDirect)

include hw hd

/-- The last steps bring what was made ready to its place. -/
theorem exact_of_finish
    (hdraft : Drafts (staging out (Artifact.treeName t name)).names artifacts root) {p : Path}
    (hl : Leads (finish out (Artifact.treeName t name)).run root (.ok p) root') :
    root'.get? (treePlace out name t) = some (.dir (entriesOf artifacts)) ∧
      root'.Dirs out.trail := by
  have honly := onlyOr_finish out t hw
  have hreaches := hl.reaches
  have hsource := names_staging hw out t
  have htarget := names_dest hw out t
  have hne := (name_ne_stagingName (Artifact.treeName t name)).symm
  obtain ⟨_, root₁, hrename, hrest⟩ := leads_bindOr_ok.1 hl
  obtain ⟨_, root₂, hremove, hdone⟩ := leads_bindOr_ok.1 hrest
  obtain ⟨-, rfl⟩ := leads_pureOr.1 hdone
  have hmove := move_of_leads_rename (leads_orElse_ok.1 hrename)
  have hplaced : root₁.get? (treePlace out name t) = some (.dir (entriesOf artifacts)) := by
    obtain ⟨u, hu, hu'⟩ := (DiskOp.moves_of_move hsource htarget hne hmove).moved
    rw [← hsource] at hu
    rw [← hdraft u hu]
    exact hu'
  have hdirs : root.Dirs out.trail := by
    obtain ⟨hsame, -⟩ | ⟨hplace, -⟩ := DiskOp.move_eq_ok hmove
    · rw [hsource, htarget] at hsame
      exact absurd (by simpa [treePlace] using hsame) hne
    · exact (Tree.dirs_trail_join (isName_treeName hw)).1 (Tree.place_eq_ok_iff.1 hplace).2.1
  refine ⟨?_, dirs_of_direct honly hreaches hd (fun _ ↦ exists_of_mem_places) hdirs⟩
  have hbeside := beside_of_removeIfPresent (names_retired hw out t) hremove
  exact (hbeside.get?_eq _ (name_ne_retiredName _)).trans hplaced

theorem drafts_of_makeReady {root₁ root₂ : Tree} (h : Workable out root)
    (hclear : Leads (removeIfPresent (staging out (Artifact.treeName t name))).run root (.ok ()) root₁)
    (hretired : Leads (removeIfPresent (retired out (Artifact.treeName t name))).run root₁ (.ok ())
      root₂)
    (hmake : Leads (Script.makeDirs (staging out (Artifact.treeName t name))) root₂ (.ok ()) root') :
    Drafts (staging out (Artifact.treeName t name)).names [] root' := by
  have hnames := names_staging hw out t
  have hname := isName_stagingName (slash_not_mem_treeName hw t)
  obtain ⟨answer, hy, hanswer⟩ := yields_of_removeIfPresent hclear
  have hgone : root₁.get? (staging out (Artifact.treeName t name)).names = none := by
    rw [hnames]
    exact DiskOp.gone_removeTree hnames (hd.join hname) (h.way hname) h.lists hanswer hy
  have hbare : DiskOp.IsBare root₂ (staging out (Artifact.treeName t name)).names := by
    intro u hu
    rw [hnames] at hgone hu
    rw [(beside_of_removeIfPresent (names_retired hw out t) hretired).get?_eq _
      (retiredName_ne_stagingName _).symm, hgone] at hu
    cases hu
  refine DiskOp.isBare_makeDirs (fun m hm hp ↦ ?_) hbare (@yields_of_leads _ _ (.makeDirs _) _ hmake)
  rw [hnames] at hp ⊢
  rw [staging, out.trail_join hname, List.mem_append, List.mem_singleton] at hm
  exact hm.resolve_left fun hm ↦ hd.not_prefix hm _ [] hp

/-- The tree that has been written is there with its files and nothing else. -/
theorem exact_of_writeTree (hfiles : ∀ a ∈ artifacts, Path.IsName a.fileName.toList)
    (h : Workable out root) {p : Path}
    (hl : Leads (writeTree out name t artifacts).run root (.ok p) root') :
    root'.get? (treePlace out name t) = some (.dir (entriesOf artifacts)) ∧
      Workable out root' := by
  have honly := onlyOr_writeTree out t hw hfiles
  have hreaches := hl.reaches
  have hnames := names_staging hw out t
  unfold writeTree at hl
  obtain ⟨_, root₁, hclear, hrest⟩ := leads_bindOr_ok.1 hl
  obtain ⟨_, root₂, hretired, hrest⟩ := leads_bindOr_ok.1 hrest
  obtain ⟨_, root₃, hmake, hrest⟩ := leads_bindOr_ok.1 hrest
  obtain ⟨_, root₄, hwrites, hrest⟩ := leads_bindOr_ok.1 hrest
  obtain ⟨present, root₅, hpresent, hrest⟩ := leads_bindOr_ok.1 hrest
  have hdraft : Drafts (staging out (Artifact.treeName t name)).names artifacts root₅ := by
    have hbare := drafts_of_makeReady hw hd h hclear hretired (leads_orElse_ok.1 hmake)
    rw [root_eq_of_isPresent hpresent]
    rw [hnames] at hbare ⊢
    exact drafts_of_writeFiles hnames hfiles hbare hwrites
  have hend : root'.get? (treePlace out name t) = some (.dir (entriesOf artifacts)) ∧
      root'.Dirs out.trail := by
    dsimp only at hrest
    split at hrest
    · obtain ⟨_, root₆, hretire, hrest⟩ := leads_bindOr_ok.1 hrest
      refine exact_of_finish hw hd (fun u hu ↦ hdraft u ?_) hrest
      have hmoves := DiskOp.moves_of_move (names_dest hw out t) (names_retired hw out t)
        (name_ne_retiredName _) (move_of_leads_rename (leads_orElse_ok.1 hretire))
      rw [hnames] at hu ⊢
      rwa [hmoves.get?_eq _ (name_ne_stagingName _).symm (retiredName_ne_stagingName _).symm] at hu
    · exact exact_of_finish hw hd hdraft hrest
  exact ⟨hend.1, fun _ _ ↦ hend.2,
    lists_of_within honly hreaches (fun _ ↦ exists_of_mem_places) h.lists,
    honly.lists hreaches (fun place hmem hp ↦ (apart_places_composition place hmem).1 hp)
      h.composition⟩

theorem exact_of_writeTrees {l : List (Provider × List Artifact)}
    (hl : ∀ e ∈ l, Artifact.Plain e.2) (hn : (l.map Prod.fst).Nodup) (h : Workable out root)
    {ps : List Path} (hx : Leads (writeTrees out name l).run root (.ok ps) root') :
    (∀ e ∈ l, root'.get? (treePlace out name e.1) = some (.dir (entriesOf e.2))) ∧
      Workable out root' := by
  induction l generalizing root ps with
  | nil =>
    obtain ⟨-, rfl⟩ := leads_pureOr.1 hx
    exact ⟨nofun, h⟩
  | cons e l ih =>
    obtain ⟨he, hl⟩ := List.forall_mem_cons.1 hl
    obtain ⟨hfirst, hn⟩ := List.nodup_cons.1 hn
    obtain ⟨_, root₁, htree, hrest⟩ := leads_bindOr_ok.1 hx
    obtain ⟨_, root₂, htrees, hdone⟩ := leads_bindOr_ok.1 hrest
    obtain ⟨-, rfl⟩ := leads_pureOr.1 hdone
    obtain ⟨hexact, hworkable⟩ := exact_of_writeTree hw hd he.isName h htree
    obtain ⟨hothers, hworkable⟩ := ih hl hn hworkable htrees
    refine ⟨List.forall_mem_cons.2 ⟨?_, hothers⟩, hworkable⟩
    have hsame : root'.get? (treePlace out name e.1) = root₁.get? (treePlace out name e.1) :=
      get?_of_direct (onlyOr_writeTrees out hw hl) htrees.reaches hd fun place hmem ↦
        apart_allPlaces (fun h ↦ hfirst h.2) place (.tail _ hmem)
    exact hsame.trans hexact

end Tree

section Composition

theorem workable_of_writeComposition (hc : c.fileName = Composition.standardName)
    (h : Workable out root) {p : Path}
    (hl : Leads (writeComposition out c).run root (.ok p) root') : Workable out root' where
  reached _ _ := (file_of_writeComposition hc hl).2
  lists := lists_of_within (onlyOr_writeComposition hc out) hl.reaches
    (fun _ hmem ↦ ⟨_, List.mem_singleton.1 hmem⟩) h.lists
  composition := by
    refine (onlyOr_writeComposition_files hc out).lists hl.reaches (fun place hmem hp ↦ ?_)
      h.composition
    obtain ⟨x, rfl⟩ : ∃ x, place = compositionPlace out ++ [x] := by
      rcases List.mem_pair.1 hmem with rfl | rfl <;> exact ⟨_, rfl⟩
    have hlength := hp.length_le
    rw [List.length_append, List.length_singleton] at hlength
    omega

variable {b : Bool} (hl : Leads (removeComposition out).run root (.ok b) root')

include hl

theorem yields_of_removeComposition : ∃ answer,
    (DiskOp.removeFile ((out.join compositionDir).join Composition.standardName)).Yields root
      answer root' ∧ (answer = .ok () ∨ answer = .error .notFound) := by
  obtain ⟨answer, root₁, hlift, hrest⟩ := leads_bindOr_ok.1 hl
  obtain ⟨_, hstep, he⟩ := leads_lift.1 hlift
  obtain rfl := Except.ok.inj he
  have hy := @yields_of_leads _ _ (.removeFile _) _ hstep
  split at hrest
  · obtain ⟨-, rfl⟩ := leads_pureOr.1 hrest
    exact ⟨_, hy, .inl rfl⟩
  · obtain ⟨-, rfl⟩ := leads_pureOr.1 hrest
    exact ⟨_, hy, .inr rfl⟩
  · cases hrest

theorem edited_of_removeComposition : Tree.Edited [compositionFile out] root root' := by
  obtain ⟨answer, hy, -⟩ := yields_of_removeComposition hl
  rcases hy.edited with hedited | ⟨q, n, hq, -⟩
  · rwa [DiskOp.edits, names_composition] at hedited
  · cases hq

theorem gone_of_removeComposition (h : Workable out root) :
    root'.get? (compositionFile out) = none := by
  obtain ⟨answer, hy, hanswer⟩ := yields_of_removeComposition hl
  refine DiskOp.gone_removeFile (names_composition out) (fun hthere ↦ ?_) h.composition hanswer hy
  rw [names_composition] at hthere
  obtain ⟨u, hu⟩ := Option.ne_none_iff_exists'.1 hthere
  obtain ⟨entries, hdir⟩ := Tree.get?_dir_of_concat hu
  rw [Tree.dirs_trail_join isName_standardName, trail_compositionDir]
  intro place hmem
  rcases List.mem_append.1 hmem with hmem | hmem
  · refine h.reached compositionDir ?_ place hmem
    rw [← compositionPlace, hdir]
    exact Option.some_ne_none _
  · rw [List.mem_singleton.1 hmem]
    exact ⟨entries, hdir⟩

theorem workable_of_removeComposition (hd : out.IsDirect) (h : Workable out root) :
    Workable out root' := by
  have hedited := edited_of_removeComposition hl
  have hkind {m : List String} (hm : ¬ compositionFile out <+: m) :
      root'.kindAt m = root.kindAt m :=
    hedited.kindAt_eq fun place hmem ↦ by rwa [List.mem_singleton.1 hmem]
  have hshort {m : List String} (hm : m.length ≤ out.names.length + 1) :
      ¬ compositionFile out <+: m := by
    intro hp
    have hlength := hp.length_le
    simp only [compositionFile, compositionPlace, List.length_append, List.length_singleton]
      at hlength
    omega
  refine ⟨fun x hthere place hmem ↦ ?_, ?_, ?_⟩
  · have hbefore : root.get? (out.names ++ [x]) ≠ none := by
      rwa [Ne, ← Tree.kindAt_eq_none, ← hkind (hshort (by simp)), Tree.kindAt_eq_none]
    rw [← Tree.kindAt_eq_true, hkind, Tree.kindAt_eq_true]
    · exact h.reached x hbefore place hmem
    · rw [compositionFile_eq]
      exact hd.not_prefix hmem _ _
  · exact hedited.lists (by simpa using hshort (Nat.le_succ _)) h.lists
  · exact hedited.lists (by simpa using hshort (by simp [compositionPlace])) h.composition

end Composition

end Emission

end Multicloud

import Multicloud.Proofs.Disk.Course
import Multicloud.Proofs.Disk.Yields

namespace Multicloud

theorem Tree.fileAt?_eq_of_get?_eq {root root' : Tree} {names names' : List String}
    (h : root'.get? names' = root.get? names) : root'.fileAt? names' = root.fileAt? names := by
  rw [fileAt?, fileAt?, h]

namespace DiskOp

variable {root root' : Tree} {p : Path} {done steps : List String}

/-- The answer tells of no failure. Whether something is there can be answered either way. -/
def Succeeds : (op : DiskOp) → op.Answer → Prop
  | .find _, _ => True
  | op, answer => ¬ op.IsFailure answer

theorem succeeds_removeTree (hfits : p.Fits) (h : root.Clear p.trail) (hend : endFault? p = none) :
    (removeTree p).Succeeds ((removeTree p).run root).1 := by
  have hat := Tree.at?_of_clear hfits h
  obtain ⟨⟨answer, root'⟩, hrun⟩ : ∃ r, (removeTree p).run root = r := ⟨_, rfl⟩
  rw [hrun]
  rintro ⟨e, hne, rfl⟩
  cases removes_of_run hrun with
  | missing hmissing =>
    rcases hat with ⟨entries, hat⟩ | hat
    · simp [hmissing] at hat
    · exact hne (by simpa [hmissing] using hat)
  | file hfile => simp [hfile] at hat
  | emptied _ _ hfault => simp [hend] at hfault

theorem addDirs_append (done steps more : List String) :
    (addDirs root done.reverse (steps ++ more)).2 =
      match addDirs root done.reverse steps with
      | (.ok (), root') => (addDirs root' (steps.foldl Path.back done).reverse more).2
      | (.error _, root') => root' := by
  induction steps generalizing root done with
  | nil => rfl
  | cons name steps ih =>
    rw [List.cons_append, addDirs_cons, addDirs_cons, List.foldl_cons, Path.back]
    split
    · exact ih _
    split
    · rfl
    split
    · exact ih _
    · rfl
    · exact ih _

theorem there_of_makeDirs {d : Path} {s x : String} (hs : Path.IsName s.toList)
    (hd : ∀ place ∈ d.trail, ¬ d.names ++ [x] <+: place) (hclear : root.Clear d.trail)
    {answer : Except DiskError Unit} (hy : (makeDirs (d.join s)).Yields root answer root')
    (h : root'.get? (d.names ++ [x]) ≠ none) :
    root.get? (d.names ++ [x]) ≠ none ∨ root'.Dirs d.trail := by
  have hbefore (n : Nat) : (addDirs root [] (d.steps.take n)).2.get? (d.names ++ [x]) =
      root.get? (d.names ++ [x]) :=
    @get?_addDirs_eq root _ [] _ fun place hmem hp ↦
      absurd hp (hd place (Path.mem_trailFrom_take hmem))
  rcases hy.edited with hedited | ⟨p, n, hp, rfl⟩
  · rw [hedited.eq_of_nil] at h
    exact .inl h
  obtain rfl := makeDirs.inj hp
  rw [d.steps_join hs, List.take_append] at h ⊢
  by_cases hn : n ≤ d.steps.length
  · rw [Nat.sub_eq_zero_of_le hn, List.take_zero, List.append_nil, hbefore] at h
    exact .inl h
  rw [List.take_of_length_le (Nat.le_of_not_le hn)] at h ⊢
  have happend := @addDirs_append root [] d.steps ([s].take (n - d.steps.length))
  have hall := hbefore d.steps.length
  rw [List.take_length] at hall
  rw [List.reverse_nil] at happend
  rw [happend] at h ⊢
  split at h
  · next root₁ hmade =>
    obtain ⟨entries, rfl⟩ := hclear.eq_dir
    have hdirs := @dirs_of_addDirs (.dir entries) [] d.steps entries rfl
      (by rw [List.reverse_nil, hmade])
    rw [List.reverse_nil, hmade] at hdirs
    refine .inr fun place hmem ↦ ?_
    obtain ⟨entries', hdir⟩ := hdirs place hmem
    exact (keeps_addDirs root₁ _ _ []).dirs _ _ hdir
  · next e root₁ hfailed =>
    rw [hfailed] at hall
    exact .inl (hall ▸ h)

theorem exists_change_eq_ok {f : Option ByteArray → ByteArray} (hfits : p.Fits)
    (hdirs : root.Dirs p.trail.dropLast) (hask : p.asksDirectory = false)
    (hkind : root.kindAt p.names ≠ some true) : ∃ root', change root p f = .ok root' := by
  have hplace : root.place p = .ok p.names := Tree.place_eq_ok_iff.2 ⟨hfits, hdirs, rfl⟩
  cases hget : root.get? p.names with
  | none => exact ⟨_, change_eq_ok_iff.2 ⟨hplace, hask, .inr ⟨hget, rfl⟩⟩⟩
  | some t =>
    cases t with
    | file bytes => exact ⟨_, change_eq_ok_iff.2 ⟨hplace, hask, .inl ⟨bytes, hget, rfl⟩⟩⟩
    | dir entries => exact absurd (Tree.kindAt_eq_true.2 ⟨entries, hget⟩) hkind

theorem at?_of_dir {entries : List (String × Tree)} (hfits : p.Fits)
    (hdirs : root.Dirs p.trail.dropLast) (h : root.get? p.names = some (.dir entries)) :
    root.at? p = .ok (p.names, .dir entries) := by
  simp [Tree.at?, Tree.place_eq_ok_iff.2 ⟨hfits, hdirs, rfl⟩, h, bind, Except.bind, pure,
    Except.pure]

theorem exists_move_eq_ok {source target : Path} {entries : List (String × Tree)}
    (hsource : source.Fits) (htarget : target.Fits) (hs : root.Dirs source.trail.dropLast)
    (ht : root.Dirs target.trail.dropLast) (hdir : root.get? source.names = some (.dir entries))
    (hnone : root.get? target.names = none) (hbelow : ¬ source.names <+: target.names) :
    ∃ root', move root source target = .ok root' := by
  have hne : source.names ≠ target.names := fun he ↦ hbelow (he ▸ List.prefix_rfl)
  have hplace : root.place target = .ok target.names :=
    Tree.place_eq_ok_iff.2 ⟨htarget, ht, rfl⟩
  simp [move, at?_of_dir hsource hs hdir, hplace, hne, hbelow, hnone, bind, Except.bind, pure,
    Except.pure]

theorem exists_move_file_eq_ok {source target : Path} {bytes : ByteArray}
    (hread : readFile root source = .ok bytes) (hplace : root.place target = .ok target.names)
    (hask : target.asksDirectory = false)
    (hdir : ∀ entries, root.get? target.names ≠ some (.dir entries))
    (hbelow : ¬ source.names <+: target.names) : ∃ root', move root source target = .ok root' := by
  obtain ⟨hsource, hget, hasks⟩ := readFile_eq_ok_iff.1 hread
  have hne : source.names ≠ target.names := fun he ↦ hbelow (he ▸ List.prefix_rfl)
  have hat : root.at? source = .ok (source.names, .file bytes) := by
    simp [Tree.at?, hsource, hget, hasks, bind, Except.bind, pure, Except.pure]
  cases hnew : root.get? target.names with
  | none =>
    simp [move, hat, hplace, hne, hbelow, hnew, hask, bind, Except.bind, pure, Except.pure]
  | some t =>
    cases t with
    | file old =>
      simp [move, hat, hplace, hne, hbelow, hnew, bind, Except.bind, pure, Except.pure]
    | dir entries => exact absurd hnew (hdir entries)

theorem eq_or_eq_ok_of_commit {changed : Except DiskError Tree} {answer : Except DiskError Unit}
    (h : commit root changed = (answer, root')) : root' = root ∨ changed = .ok root' := by
  cases changed with
  | error e =>
    cases h
    exact .inl rfl
  | ok new =>
    cases h
    exact .inr rfl

/-- A directory tree is removed, or something is left of it, only where it is found. -/
theorem exists_at?_of_removeTree {answer : Except DiskError Unit}
    (hy : (removeTree p).Yields root answer root') : root' = root ∨ ∃ entries left,
      root.at? p = .ok (p.names, .dir entries) ∧
        (root' = root.remove p.names ∨ root' = root.set p.names (.dir left)) := by
  rcases hy with hrun | ⟨-, rfl | ⟨names, entries, left, hat, rfl⟩⟩
  · cases removes_of_run hrun with
    | missing _ => exact .inl rfl
    | file _ => exact .inl rfl
    | lost hdir _ => exact .inr ⟨_, [], hdir, .inr rfl⟩
    | emptied hdir _ _ => exact .inr ⟨_, [], hdir, .inr rfl⟩
    | removed hdir _ _ => exact .inr ⟨_, [], hdir, .inl rfl⟩
  · exact .inl rfl
  · obtain ⟨rfl, -⟩ := Tree.at?_eq_ok hat
    exact .inr ⟨entries, left, hat, .inr rfl⟩

theorem eq_or_dirs_of_change {answer : Except DiskError Unit} {f : Option ByteArray → ByteArray}
    (hy : commit root (change root p f) = (answer, root') ∨
      root' = root ∨ ∃ bytes, change root p (fun _ ↦ bytes) = .ok root') :
    root' = root ∨ root.Dirs p.trail.dropLast := by
  have hchange {f : Option ByteArray → ByteArray} (h : change root p f = .ok root') :
      root.Dirs p.trail.dropLast := (Tree.place_eq_ok_iff.1 (change_eq_ok_iff.1 h).1).2.1
  rcases hy with hrun | rfl | ⟨bytes', hc⟩
  · exact (eq_or_eq_ok_of_commit hrun).imp_right hchange
  · exact .inl rfl
  · exact .inr (hchange hc)

theorem dirs_of_at? {names : List String} {t : Tree} (h : root.at? p = .ok (names, t)) :
    root.Dirs p.trail.dropLast := by
  obtain ⟨_, hplace, -⟩ := bind_eq_ok.1 h
  exact (Tree.place_eq_ok_iff.1 hplace).2.1

theorem eq_or_dirs_of_yields {op : DiskOp} {answer : op.Answer} (hmade : op.made = [])
    (hy : op.Yields root answer root') :
    root' = root ∨ ∃ p ∈ op.paths, root.Dirs p.trail.dropLast := by
  cases op with
  | read p => exact .inl (eq_of_yields rfl rfl hy)
  | list p => exact .inl (eq_of_yields rfl rfl hy)
  | find p => exact .inl (eq_of_yields rfl rfl hy)
  | makeDirs p => exact absurd hmade (List.ne_nil_of_mem p.names_mem_trail)
  | write p bytes =>
    exact (eq_or_dirs_of_change (hy.imp_right And.right)).imp_right fun h ↦ ⟨p, .head _, h⟩
  | append p bytes =>
    exact (eq_or_dirs_of_change (hy.imp_right And.right)).imp_right fun h ↦ ⟨p, .head _, h⟩
  | removeTree p =>
    refine (exists_at?_of_removeTree hy).imp_right ?_
    rintro ⟨entries, left, hat, -⟩
    exact ⟨p, .head _, dirs_of_at? hat⟩
  | removeFile p =>
    rcases hy with hrun | ⟨-, rfl⟩
    · refine (eq_or_eq_ok_of_commit hrun).imp_right fun hunlink ↦ ?_
      obtain ⟨_, hfound, -⟩ := bind_eq_ok.1 hunlink
      exact ⟨p, .head _, dirs_of_at? hfound⟩
    · exact .inl rfl
  | rename source target =>
    rcases hy with hrun | ⟨-, rfl⟩
    · refine (eq_or_eq_ok_of_commit hrun).imp_right fun hmove ↦ ?_
      obtain ⟨_, hfound, -⟩ := bind_eq_ok.1 hmove
      exact ⟨source, .head _, dirs_of_at? hfound⟩
    · exact .inl rfl

theorem fileAt?_of_removeTree {base : List String} {x : String} (hp : p.names = base ++ [x])
    (hl : root.Lists base) (h : root.fileAt? (base ++ [x]) = none)
    {answer : Except DiskError Unit} (hy : (removeTree p).Yields root answer root') :
    root'.fileAt? (base ++ [x]) = none := by
  rcases exists_at?_of_removeTree hy with rfl | ⟨entries, left, -, rfl | rfl⟩
  · exact h
  · rw [hp, Tree.fileAt?, Tree.get?_remove_self hl]
  · rw [hp]
    refine Option.eq_none_iff_forall_ne_some.2 fun bytes hbytes ↦ ?_
    cases eq_of_get?_set_concat (Tree.fileAt?_eq_some.1 hbytes)

end DiskOp

namespace Script

variable {α β ε : Type} {root root' root'' : Tree}

/-- None of the operations of a script fails, from its beginning to its end. -/
def Smooth : Script α → Tree → Prop
  | done _, _ => True
  | perform op next, root =>
    op.Succeeds (op.run root).1 ∧ (next (op.run root).1).Smooth (op.run root).2

theorem smooth_step {op : DiskOp} : Smooth (step op) root ↔ op.Succeeds (op.run root).1 :=
  and_iff_left trivial

theorem smooth_bind {s : Script α} {f : α → Script β} :
    Smooth (s >>= f) root ↔ Smooth s root ∧ Smooth (f (s.run root).1) (s.run root).2 := by
  induction s generalizing root with
  | done a => exact (and_iff_right trivial).symm
  | perform op next ih => exact (and_congr_right fun _ ↦ ih _).trans and_assoc.symm

theorem smooth_bindOr {s : OrFail ε α} {f : α → OrFail ε β} {a : α}
    (h : attempt s root = (.ok a, root')) :
    Smooth (s >>= f).run root ↔ Smooth s.run root ∧ Smooth (f a).run root' := by
  have hbind : Smooth (s >>= f).run root ↔ Smooth s.run root ∧
      Smooth (ExceptT.bindCont f (attempt s root).1) (attempt s root).2 := smooth_bind
  rw [hbind, h]
  rfl

/-- Work that comes to its end, and no operation fails on the way. -/
structure Finishes (s : OrFail ε α) (root : Tree) (a : α) (root' : Tree) : Prop where
  smooth : Smooth s.run root
  attempt_eq : attempt s root = (.ok a, root')

theorem Finishes.bind {s : OrFail ε α} {f : α → OrFail ε β} {a : α} {b : β}
    (h : Finishes s root a root') (hf : Finishes (f a) root' b root'') :
    Finishes (s >>= f) root b root'' :=
  ⟨(smooth_bindOr h.attempt_eq).2 ⟨h.smooth, hf.smooth⟩,
    (attempt_bind_ok h.attempt_eq f).trans hf.attempt_eq⟩

theorem Finishes.leads {s : OrFail ε α} {a : α} (h : Finishes s root a root') :
    Leads s.run root (.ok a) root' := leads_of_run h.attempt_eq

theorem finishes_pure (a : α) (root : Tree) : Finishes (pure a : OrFail ε α) root a root :=
  ⟨trivial, rfl⟩

/-- Work that errs only where an operation has failed. -/
def Sincere (s : OrFail ε α) : Prop :=
  ∀ root, Smooth s.run root → ∃ a root', Finishes s root a root'

theorem sincere_pure (a : α) : Sincere (pure a : OrFail ε α) :=
  fun root _ ↦ ⟨a, root, finishes_pure a root⟩

theorem Sincere.bind {s : OrFail ε α} {f : α → OrFail ε β} (h : Sincere s)
    (hf : ∀ a, Sincere (f a)) : Sincere (s >>= f) := by
  intro root hsmooth
  have hs : Smooth s.run root := (smooth_bind (s := s.run) (f := ExceptT.bindCont f)).1 hsmooth |>.1
  obtain ⟨a, root₁, hfirst⟩ := h root hs
  obtain ⟨b, root₂, hrest⟩ := hf a root₁ ((smooth_bindOr hfirst.attempt_eq).1 hsmooth).2
  exact ⟨b, root₂, hfirst.bind hrest⟩

theorem finishes_orElse {s : Script (Except DiskError α)} {f : DiskError → ε} {a : α}
    (hsmooth : Smooth s root) (h : s.run root = (.ok a, root')) :
    Finishes (orElse s f) root a root' :=
  ⟨smooth_bind.2 ⟨hsmooth, trivial⟩, by rw [attempt_orElse, h]; rfl⟩

theorem finishes_makeDirs {p : Path} {f : DiskError → ε}
    (h : DiskOp.makeAll root p = (.ok (), root')) :
    Finishes (orElse (makeDirs p) f) root () root' := by
  have hrun : DiskOp.run root (.makeDirs p) = (.ok (), root') := h
  refine finishes_orElse (smooth_step.2 ?_) ((run_step _ _).trans hrun)
  rw [hrun]
  rintro ⟨_, he⟩
  cases he

theorem finishes_write {p : Path} {s : String} {f : DiskError → ε}
    (h : DiskOp.change root p (fun _ ↦ s.toUTF8) = .ok root') :
    Finishes (orElse (write p s) f) root () root' := by
  have hrun : DiskOp.run root (.write p s.toUTF8) = (.ok (), root') := by
    rw [DiskOp.run, h, DiskOp.commit]
  refine finishes_orElse (smooth_step.2 ?_) ((run_step _ _).trans hrun)
  rw [hrun]
  rintro ⟨_, he⟩
  cases he

theorem finishes_rename {source target : Path} {f : DiskError → ε}
    (h : DiskOp.move root source target = .ok root') :
    Finishes (orElse (rename source target) f) root () root' := by
  have hrun : DiskOp.run root (.rename source target) = (.ok (), root') := by
    rw [DiskOp.run, h, DiskOp.commit]
  refine finishes_orElse (smooth_step.2 ?_) ((run_step _ _).trans hrun)
  rw [hrun]
  rintro ⟨_, he⟩
  cases he

theorem finishes_lift {s : Script α} {a : α} (hsmooth : Smooth s root)
    (h : s.run root = (a, root')) : Finishes (liftM s : OrFail ε α) root a root' := by
  refine ⟨smooth_bind.2 ⟨hsmooth, trivial⟩, ?_⟩
  have hrun : attempt (liftM s : OrFail ε α) root = (.ok (s.run root).1, (s.run root).2) :=
    run_bind s _ root
  rw [hrun, h]

theorem sincere_orElse {s : Script (Except DiskError α)} (f : DiskError → ε)
    (h : ∀ root, Smooth s root → ∃ a, (s.run root).1 = .ok a) : Sincere (orElse s f) := by
  intro root hsmooth
  have hs : Smooth s root := (smooth_bind.1 hsmooth).1
  obtain ⟨a, ha⟩ := h root hs
  exact ⟨a, _, finishes_orElse hs (Prod.ext ha rfl)⟩

theorem sincere_lift (s : Script α) : Sincere (liftM s : OrFail ε α) :=
  fun _ hsmooth ↦ ⟨_, _, finishes_lift (smooth_bind.1 hsmooth).1 rfl⟩

end Script

end Multicloud

import Multicloud.Proofs.Disk.Path

namespace Multicloud

namespace Tree

variable {t u v new root root' root'' : Tree} {names names' place : List String}
  {bytes : ByteArray} {p : Path}

/-- A file stays as it is, a directory stays a directory. -/
def Like : Tree → Tree → Prop
  | file bytes, u => u = file bytes
  | dir _, u => u.isDir = true

theorem Like.refl (t : Tree) : t.Like t := by cases t <;> rfl

theorem like_dir_iff {entries : List (String × Tree)} :
    (dir entries).Like u ↔ ∃ entries', u = dir entries' := by
  cases u <;> simp [Like, isDir]

/-- Changes one entry of a directory, and on the way there only what is entered. -/
structure IsEdit (f : Tree → List String → Tree) : Prop where
  file (bytes : ByteArray) (name : String) (names : List String) :
    f (file bytes) (name :: names) = file bytes
  last (entries : List (String × Tree)) (name : String) :
    ∃ entries', f (dir entries) [name] = dir entries' ∧
      ∀ name', name ≠ name' → find name' entries' = find name' entries
  absent {entries : List (String × Tree)} {name : String} (h : find name entries = none)
    (n : String) (names : List String) : f (dir entries) (name :: n :: names) = dir entries
  below {entries : List (String × Tree)} {name : String} {t : Tree}
    (h : find name entries = some t) (n : String) (names : List String) :
    f (dir entries) (name :: n :: names) = dir (put name (f t (n :: names)) entries)

theorem isEdit_set (new : Tree) : IsEdit fun t names ↦ t.set names new where
  file bytes name names := by rw [set]
  last entries name := by
    refine ⟨put name new entries, by rw [set], fun name' h ↦ ?_⟩
    rw [find_put, if_neg h]
  absent h n names := by simp [set, h]
  below h n names := set_below h (List.cons_ne_nil n names) new

theorem isEdit_remove : IsEdit remove where
  file bytes name names := by rw [remove]
  last entries name := ⟨erase name entries, by rw [remove], fun _ h ↦ find_erase_of_ne h entries⟩
  absent h n names := by simp [remove, h]
  below h n names := remove_below h (List.cons_ne_nil n names)

section Edit

variable {f : Tree → List String → Tree}

theorem IsEdit.isDir (hf : IsEdit f) (entries : List (String × Tree)) (name : String)
    (names : List String) : (f (dir entries) (name :: names)).isDir = true := by
  cases names with
  | nil =>
    obtain ⟨entries', he, -⟩ := hf.last entries name
    rw [he]
    rfl
  | cons n names =>
    cases h : find name entries with
    | none => rw [hf.absent h]; rfl
    | some t => rw [hf.below h]; rfl

theorem IsEdit.get?_of_not_prefix (hf : IsEdit f) (h : ¬ names <+: names')
    (hu : t.get? names' = some u) : ∃ u', (f t names).get? names' = some u' ∧ u.Like u' := by
  induction names generalizing t names' with
  | nil => exact absurd List.nil_prefix h
  | cons name names ih =>
    cases t with
    | file bytes => exact ⟨u, by rw [hf.file, hu], Like.refl u⟩
    | dir entries =>
      cases names' with
      | nil =>
        obtain rfl : dir entries = u := Option.some.inj hu
        exact ⟨_, by rw [get?], hf.isDir entries name names⟩
      | cons name' names' =>
        cases names with
        | nil =>
          obtain ⟨entries', he, hfind⟩ := hf.last entries name
          have hne : name ≠ name' := fun heq ↦ h ⟨names', by rw [heq]; rfl⟩
          refine ⟨u, ?_, Like.refl u⟩
          rw [he, get?_dir_cons, hfind name' hne, ← get?_dir_cons, hu]
        | cons n names =>
          cases hw : find name entries with
          | none => exact ⟨u, by rw [hf.absent hw, hu], Like.refl u⟩
          | some w =>
            rw [hf.below hw, get?_dir_cons, find_put]
            rw [get?_dir_cons] at hu
            split
            · next he =>
              rw [← he, hw, Option.bind_some] at hu
              exact ih (fun hp ↦ h (List.cons_prefix_cons.2 ⟨he, hp⟩)) hu
            · exact ⟨u, hu, Like.refl u⟩

end Edit

theorem get?_dir_of_prefix (h : names <+: names') (hne : names ≠ names')
    (hu : t.get? names' = some u) : ∃ entries, t.get? names = some (dir entries) := by
  obtain ⟨rest, rfl⟩ := h
  induction names generalizing t with
  | nil =>
    cases t with
    | dir entries => exact ⟨entries, by rw [get?]⟩
    | file bytes =>
      cases rest with
      | nil => exact absurd rfl hne
      | cons n rest => cases hu
  | cons name names ih =>
    cases t with
    | file bytes => cases hu
    | dir entries =>
      rw [List.cons_append, get?_dir_cons] at hu
      obtain ⟨w, hw, hu⟩ := Option.bind_eq_some_iff.1 hu
      obtain ⟨entries', he⟩ := ih (fun he ↦ hne (by rw [List.cons_append, ← he])) hu
      exact ⟨entries', by rw [get?_dir_cons, hw, Option.bind_some, he]⟩

def KeepsDirs (root root' : Tree) : Prop :=
  ∀ names entries, root.get? names = some (dir entries) →
    ∃ entries', root'.get? names = some (dir entries')

/-- The directories are still there, and so is the file of a place. -/
structure Keeps (root root' : Tree) (names : List String) : Prop where
  dirs : root.KeepsDirs root'
  file : ∀ bytes, root.get? names = some (file bytes) → root'.get? names = some (file bytes)

theorem Keeps.refl (root : Tree) (names : List String) : root.Keeps root names :=
  ⟨fun _ entries h ↦ ⟨entries, h⟩, fun _ h ↦ h⟩

theorem Keeps.trans (h : root.Keeps root' names) (h' : root'.Keeps root'' names) :
    root.Keeps root'' names := by
  refine ⟨fun place entries he ↦ ?_, fun bytes hb ↦ h'.file bytes (h.file bytes hb)⟩
  obtain ⟨entries', he⟩ := h.dirs place entries he
  exact h'.dirs place entries' he

section Edit

variable {f : Tree → List String → Tree}

theorem not_prefix_of_get? (hplace : ∀ entries, root.get? place ≠ some (dir entries))
    (hu : root.get? names = some u) (hne : place ≠ names) : ¬ place <+: names := by
  intro hp
  obtain ⟨entries, he⟩ := get?_dir_of_prefix hp hne hu
  exact hplace entries he

theorem IsEdit.keepsDirs (hf : IsEdit f)
    (hplace : ∀ entries, root.get? place ≠ some (dir entries)) :
    root.KeepsDirs (f root place) := by
  intro names entries he
  have hne : place ≠ names := by
    rintro rfl
    exact hplace entries he
  obtain ⟨u', hu', hlike⟩ := hf.get?_of_not_prefix (not_prefix_of_get? hplace he hne) he
  obtain ⟨entries', rfl⟩ := like_dir_iff.1 hlike
  exact ⟨entries', hu'⟩

theorem IsEdit.keeps (hf : IsEdit f) (hplace : ∀ entries, root.get? place ≠ some (dir entries))
    (hne : place = names → root.get? place = none) : root.Keeps (f root place) names := by
  refine ⟨hf.keepsDirs hplace, fun bytes hb ↦ ?_⟩
  have hother : place ≠ names := by
    rintro rfl
    rw [hne rfl] at hb
    cases hb
  obtain ⟨u', hu', hlike⟩ := hf.get?_of_not_prefix (not_prefix_of_get? hplace hb hother) hb
  obtain rfl : u' = .file bytes := hlike
  exact hu'

end Edit

section Paths

theorem enter_of_keepsDirs (h : root.KeepsDirs root') {done steps : List String}
    (he : root.enter done steps = .ok names) : root'.enter done steps = .ok names := by
  induction steps generalizing done with
  | nil => exact he
  | cons name steps ih =>
    obtain ⟨⟨entries, hd⟩, -⟩ := enter_cons_eq_ok he
    obtain ⟨entries', hd'⟩ := h _ _ hd
    rw [enter, hd] at he
    rw [enter, hd']
    dsimp only at he ⊢
    split at he
    · cases he
    · next hlong =>
      rw [if_neg hlong]
      split at he
      · next hback =>
        rw [if_pos hback]
        exact ih he
      · next hback =>
        rw [if_neg hback]
        exact ih he

theorem place_of_keepsDirs (h : root.KeepsDirs root') (hp : root.place p = .ok names) :
    root'.place p = .ok names := by
  unfold place at hp ⊢
  split at hp
  · cases hp
  next hzero =>
  split at hp
  · cases hp
  next hempty =>
  split at hp
  · cases hp
  next hlong =>
  rw [if_neg hzero, if_neg hempty, if_neg hlong]
  exact enter_of_keepsDirs h hp

theorem get?_set_of_place (h : root.place p = .ok p.names) (new : Tree) :
    (root.set p.names new).get? p.names = some new := by
  rcases List.eq_nil_or_concat p.names with hn | ⟨base, x, hn⟩
  · rw [hn, set, get?]
  · rw [List.concat_eq_append] at hn
    rw [hn] at h ⊢
    obtain ⟨entries, hd⟩ := get?_dir_of_place h
    exact get?_set_self hd x new

end Paths

end Tree

namespace DiskOp

variable {root root' : Tree} {p : Path} {names : List String} {bytes : ByteArray}

theorem readFile_eq_ok_iff : readFile root p = .ok bytes ↔
    root.place p = .ok p.names ∧ root.get? p.names = some (.file bytes) ∧
      p.asksDirectory = false := by
  constructor
  · intro h
    obtain ⟨⟨names, t⟩, hat, h⟩ := bind_eq_ok.1 h
    obtain ⟨rfl, hget⟩ := Tree.at?_eq_ok hat
    obtain ⟨names, hplace, hat⟩ := bind_eq_ok.1 hat
    obtain rfl := Tree.place_eq_ok hplace
    split at h
    · next he =>
      cases h
      obtain ⟨-, rfl⟩ := Prod.mk.inj he
      rw [hget] at hat
      dsimp only at hat
      split at hat
      · cases hat
      · next hask => exact ⟨hplace, hget, by simpa using hask⟩
    · cases h
  · rintro ⟨hplace, hget, hask⟩
    simp [readFile, Tree.at?, hplace, hget, hask, bind, Except.bind, pure, Except.pure]

theorem readFile_of_keeps (h : root.Keeps root' p.names) (hr : readFile root p = .ok bytes) :
    readFile root' p = .ok bytes := by
  obtain ⟨hplace, hget, hask⟩ := readFile_eq_ok_iff.1 hr
  exact readFile_eq_ok_iff.2 ⟨Tree.place_of_keepsDirs h.dirs hplace, h.file bytes hget, hask⟩

theorem keeps_addDirs (root : Tree) (done steps names : List String) :
    root.Keeps (addDirs root done steps).2 names := by
  induction steps generalizing root done with
  | nil => exact .refl root names
  | cons name steps ih =>
    rw [addDirs]
    split
    · exact ih root _
    split
    · exact .refl root names
    dsimp only
    split
    · exact ih root _
    · exact .refl root names
    · next hnone =>
      refine .trans ?_ (ih _ _)
      exact (Tree.isEdit_set (.dir [])).keeps (by simp [hnone]) fun _ ↦ hnone

theorem keeps_makeAll (root : Tree) (p : Path) (names : List String) :
    root.Keeps (makeAll root p).2 names := by
  unfold makeAll
  split
  · exact .refl root names
  split
  · exact .refl root names
  · exact keeps_addDirs root [] p.steps names

section Again

variable {root₁ : Tree}

theorem addDirs_again {done steps : List String} {entries : List (String × Tree)}
    (hdone : root.get? done = some (.dir entries)) (h : addDirs root done steps = (.ok (), root₁))
    (hkeeps : root₁.KeepsDirs root') : addDirs root' done steps = (.ok (), root') := by
  induction steps generalizing root done entries with
  | nil => rfl
  | cons name steps ih =>
    rw [addDirs] at h ⊢
    by_cases hback : name = ".."
    · rw [if_pos hback] at h ⊢
      by_cases hshort : done.take (done.length - 1) = done
      · rw [hshort] at h ⊢
        exact ih hdone h
      · obtain ⟨entries', habove⟩ := Tree.get?_dir_of_prefix (List.take_prefix _ _) hshort hdone
        exact ih habove h
    rw [if_neg hback] at h ⊢
    by_cases hlong : Tree.maxName < name.utf8ByteSize
    · rw [if_pos hlong] at h
      cases h
    rw [if_neg hlong] at h ⊢
    dsimp only at h ⊢
    have hthere {t : Tree} {entries : List (String × Tree)}
        (ht : t.get? (done ++ [name]) = some (.dir entries))
        (hmade : addDirs t (done ++ [name]) steps = (.ok (), root₁)) :
        ∃ entries', root'.get? (done ++ [name]) = some (.dir entries') := by
      obtain ⟨entries₁, h₁⟩ := (keeps_addDirs t (done ++ [name]) steps []).dirs _ _ ht
      rw [hmade] at h₁
      exact hkeeps _ _ h₁
    split at h
    · next hget =>
      obtain ⟨entries', hget'⟩ := hthere hget h
      rw [hget']
      exact ih hget h
    · cases h
    · have hset := Tree.get?_set_self hdone name (.dir [])
      obtain ⟨entries', hget'⟩ := hthere hset h
      rw [hget']
      exact ih hset h

theorem makeAll_again (hroot : root.isDir = true) (h : makeAll root p = (.ok (), root₁))
    (hkeeps : root₁.KeepsDirs root') : makeAll root' p = (.ok (), root') := by
  unfold makeAll at h ⊢
  split at h
  · cases h
  next hzero =>
  split at h
  · cases h
  next hlong =>
  rw [if_neg hzero, if_neg hlong]
  cases root with
  | file bytes => cases hroot
  | dir entries => exact addDirs_again (by rw [Tree.get?]) h hkeeps

end Again

theorem change_eq_ok_iff {f : Option ByteArray → ByteArray} :
    change root p f = .ok root' ↔ root.place p = .ok p.names ∧ p.asksDirectory = false ∧
      ((∃ old, root.get? p.names = some (.file old) ∧
          root' = root.set p.names (.file (f (some old)))) ∨
        (root.get? p.names = none ∧ root' = root.set p.names (.file (f none)))) := by
  constructor
  · intro h
    obtain ⟨names, hplace, h⟩ := bind_eq_ok.1 h
    obtain rfl := Tree.place_eq_ok hplace
    refine ⟨hplace, ?_⟩
    split at h
    · cases h
    · next old hget =>
      split at h
      · cases h
      · next hask => exact ⟨by simpa using hask, .inl ⟨old, hget, (Except.ok.inj h).symm⟩⟩
    · next hget =>
      split at h
      · cases h
      · next hask => exact ⟨by simpa using hask, .inr ⟨hget, (Except.ok.inj h).symm⟩⟩
  · rintro ⟨hplace, hask, ⟨old, hget, rfl⟩ | ⟨hget, rfl⟩⟩ <;>
      simp [change, hplace, hask, hget, bind, Except.bind, pure, Except.pure]

theorem keepsDirs_change {f : Option ByteArray → ByteArray} (h : change root p f = .ok root') :
    root.KeepsDirs root' := by
  obtain ⟨-, -, ⟨old, hget, rfl⟩ | ⟨hget, rfl⟩⟩ := change_eq_ok_iff.1 h
  · exact (Tree.isEdit_set _).keepsDirs (by simp [hget])
  · exact (Tree.isEdit_set _).keepsDirs (by simp [hget])

theorem keeps_change {f : Option ByteArray → ByteArray} (h : change root p f = .ok root')
    (hne : p.names ≠ names) : root.Keeps root' names := by
  obtain ⟨-, -, ⟨old, hget, rfl⟩ | ⟨hget, rfl⟩⟩ := change_eq_ok_iff.1 h
  · exact (Tree.isEdit_set _).keeps (by simp [hget]) fun he ↦ absurd he hne
  · exact (Tree.isEdit_set _).keeps (by simp [hget]) fun he ↦ absurd he hne

theorem readFile_of_change {f : Option ByteArray → ByteArray} (h : change root p f = .ok root') :
    ∃ old, root.get? p.names = old.map .file ∧ readFile root' p = .ok (f old) := by
  obtain ⟨hplace, hask, hcases⟩ := change_eq_ok_iff.1 h
  have hread {b : ByteArray} (hdir : ∀ entries, root.get? p.names ≠ some (.dir entries)) :
      readFile (root.set p.names (.file b)) p = .ok b := by
    have hkeeps : root.KeepsDirs (root.set p.names (.file b)) :=
      (Tree.isEdit_set _).keepsDirs hdir
    exact readFile_eq_ok_iff.2
      ⟨Tree.place_of_keepsDirs hkeeps hplace, Tree.get?_set_of_place hplace _, hask⟩
  rcases hcases with ⟨old, hget, rfl⟩ | ⟨hget, rfl⟩
  · exact ⟨some old, hget, hread (by simp [hget])⟩
  · exact ⟨none, hget, hread (by simp [hget])⟩

theorem move_file_eq_ok {source target : Path} (hfile : root.get? source.names = some (.file bytes))
    (hne : source.names ≠ target.names) (h : move root source target = .ok root') :
    root.place target = .ok target.names ∧
      (∀ entries, root.get? target.names ≠ some (.dir entries)) ∧
      root' = (root.remove source.names).set target.names (.file bytes) := by
  obtain ⟨⟨names, t⟩, hat, h⟩ := bind_eq_ok.1 h
  obtain ⟨rfl, hget⟩ := Tree.at?_eq_ok hat
  obtain ⟨newNames, hplace, h⟩ := bind_eq_ok.1 h
  obtain rfl := Tree.place_eq_ok hplace
  obtain rfl : t = .file bytes := Option.some.inj (hget.symm.trans hfile)
  dsimp only at h
  rw [if_neg hne] at h
  split at h
  · cases h
  refine ⟨hplace, ?_⟩
  cases hnew : root.get? target.names with
  | none =>
    rw [hnew] at h
    dsimp only at h
    split at h
    · cases h
    · exact ⟨by simp, (Except.ok.inj h).symm⟩
  | some u =>
    rw [hnew] at h
    cases u with
    | file old => exact ⟨by simp, (Except.ok.inj h).symm⟩
    | dir entries => cases h

section Move

variable {source target : Path} {base : List String} {x y : String}

theorem remove_of_move (hs : source.names = base ++ [x]) (ht : target.names = base ++ [y])
    (hne : x ≠ y) (hfile : root.get? source.names = some (.file bytes))
    (h : move root source target = .ok root') :
    root.KeepsDirs (root.remove source.names) ∧
      (∀ entries, (root.remove source.names).get? target.names ≠ some (.dir entries)) ∧
      root.place target = .ok target.names ∧
      root' = (root.remove source.names).set target.names (.file bytes) := by
  have hnames : source.names ≠ target.names := by
    rw [hs, ht]
    simpa using hne
  obtain ⟨hplace, hdir, hroot'⟩ := move_file_eq_ok hfile hnames h
  refine ⟨Tree.isEdit_remove.keepsDirs (by simp [hfile]), ?_, hplace, hroot'⟩
  rw [hs, ht, Tree.get?_remove_of_ne hne, ← ht]
  exact hdir

theorem keeps_move (hs : source.names = base ++ [x]) (ht : target.names = base ++ [y])
    (hne : x ≠ y) (hfile : root.get? source.names = some (.file bytes))
    (h : move root source target = .ok root') (hsource : source.names ≠ names)
    (htarget : target.names ≠ names) : root.Keeps root' names := by
  obtain ⟨-, hdir, -, rfl⟩ := remove_of_move hs ht hne hfile h
  have hremove : root.Keeps (root.remove source.names) names :=
    Tree.isEdit_remove.keeps (by simp [hfile]) fun he ↦ absurd he hsource
  exact hremove.trans ((Tree.isEdit_set _).keeps hdir fun he ↦ absurd he htarget)

theorem readFile_of_move (hs : source.names = base ++ [x]) (ht : target.names = base ++ [y])
    (hne : x ≠ y) (hask : target.asksDirectory = false)
    (hfile : root.get? source.names = some (.file bytes))
    (h : move root source target = .ok root') : readFile root' target = .ok bytes := by
  obtain ⟨hdirs, hdir, hplace, rfl⟩ := remove_of_move hs ht hne hfile h
  have hplace := Tree.place_of_keepsDirs hdirs hplace
  have hset := (Tree.isEdit_set (.file bytes)).keepsDirs hdir
  exact readFile_eq_ok_iff.2
    ⟨Tree.place_of_keepsDirs hset hplace, Tree.get?_set_of_place hplace _, hask⟩

end Move

end DiskOp

end Multicloud

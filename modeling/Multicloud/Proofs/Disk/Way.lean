import Multicloud.Proofs.Disk.Footprint

namespace Multicloud

namespace Path

variable {p d : Path} {place : List String} {s : String}

/-- The way to a directory does not lead through anything in it. -/
def IsDirect (p : Path) : Prop := ∀ place ∈ p.trail, p.names <+: place → place = p.names

instance (p : Path) : Decidable p.IsDirect :=
  inferInstanceAs (Decidable (∀ place ∈ p.trail, p.names <+: place → place = p.names))

theorem IsDirect.not_prefix (h : p.IsDirect) (hmem : place ∈ p.trail) (x : String)
    (rest : List String) : ¬ p.names ++ x :: rest <+: place := by
  intro hp
  obtain rfl := h place hmem ((List.prefix_append _ _).trans hp)
  have hlength := hp.length_le
  rw [List.length_append, List.length_cons] at hlength
  omega

theorem IsDirect.join (hd : d.IsDirect) (hs : IsName s.toList) : (d.join s).IsDirect := by
  intro place hmem hp
  rw [d.trail_join hs, List.mem_append, List.mem_singleton] at hmem
  rw [d.names_join hs] at hp ⊢
  exact hmem.resolve_left fun hmem ↦ hd.not_prefix hmem s [] hp

theorem isDirect_of_not_back (hback : ".." ∉ p.steps) : p.IsDirect := by
  intro place hmem hp
  have hway : place <+: p.names := by
    rw [names_eq_steps hback]
    exact prefix_of_mem_trailFrom hback hmem
  exact hway.eq_of_length_le hp.length_le

theorem mem_trail_iff : place ∈ p.trail ↔ place ∈ p.trail.dropLast ∨ place = p.names := by
  obtain hnil | ⟨steps, name, hsteps⟩ := List.eq_nil_or_concat' p.steps
  · simp [trail, names, hnil, trailFrom]
  · rw [trail, names, hsteps, trailFrom_concat, List.dropLast_concat, List.mem_append,
      List.mem_singleton, List.foldl_append]
    rfl

theorem nil_mem_trail (p : Path) : [] ∈ p.trail := by
  rw [trail]
  cases p.steps <;> simp [trailFrom]

/-- The path goes straight down, by names that are none too long. -/
structure Descends (p : Path) : Prop where
  back : ".." ∉ p.steps
  short : ∀ name ∈ p.steps, name.utf8ByteSize ≤ Tree.maxName

instance (p : Path) : Decidable p.Descends :=
  decidable_of_iff (".." ∉ p.steps ∧ ∀ name ∈ p.steps, name.utf8ByteSize ≤ Tree.maxName)
    ⟨fun h ↦ ⟨h.1, h.2⟩, fun h ↦ ⟨h.1, h.2⟩⟩

theorem Descends.prefix_of_mem_trail (h : p.Descends) (hmem : place ∈ p.trail) :
    place <+: p.names := by
  rw [names_eq_steps h.back]
  exact prefix_of_mem_trailFrom h.back hmem

theorem Descends.join (h : d.Descends) (hs : IsName s.toList)
    (hshort : s.utf8ByteSize ≤ Tree.maxName) : (d.join s).Descends := by
  constructor
  · rw [steps_join d hs, List.mem_append, List.mem_singleton, not_or]
    exact ⟨h.back, fun he ↦ hs.ne_back he.symm⟩
  · rw [steps_join d hs, List.forall_mem_append, List.forall_mem_singleton]
    exact ⟨h.short, hshort⟩

end Path

namespace Tree

variable {t root root' new : Tree} {names place base done steps : List String} {x : String}
  {p : Path} {places : List (List String)} {entries : List (String × Tree)}

def kindAt (t : Tree) (names : List String) : Option Bool := (t.get? names).map isDir

theorem kindAt_eq_true :
    t.kindAt names = some true ↔ ∃ entries, t.get? names = some (dir entries) := by
  unfold kindAt
  cases t.get? names with
  | none => simp
  | some u => cases u <;> simp [isDir]

instance (t : Tree) (places : List (List String)) : Decidable (t.Dirs places) :=
  decidable_of_iff (∀ place ∈ places, t.kindAt place = some true)
    (forall₂_congr fun _ _ ↦ kindAt_eq_true)

theorem kindAt_eq_none : t.kindAt names = none ↔ t.get? names = none := by simp [kindAt]

section Edit

variable {f : Tree → List String → Tree}

theorem IsEdit.isDir_cons (hf : IsEdit f) (u : Tree) (x : String) (rest : List String) :
    (f u (x :: rest)).isDir = u.isDir := by
  cases u with
  | file bytes => rw [hf.file]
  | dir entries => exact hf.isDir entries x rest

theorem IsEdit.kindAt_eq (hf : IsEdit f) (h : ¬ place <+: names) (t : Tree) :
    (f t place).kindAt names = t.kindAt names := by
  by_cases hbelow : names <+: place
  · obtain ⟨rest, rfl⟩ := hbelow
    cases rest with
    | nil => exact absurd (by simp) h
    | cons x rest =>
      rw [kindAt, hf.get?_above, Option.map_map, kindAt]
      congr 1
      funext u
      exact hf.isDir_cons u x rest
  · rw [kindAt, hf.get?_of_apart ⟨h, hbelow⟩, kindAt]

end Edit

theorem Edited.kindAt_eq {places : List (List String)} (h : Edited places t new)
    (hp : ∀ place ∈ places, ¬ place <+: names) : new.kindAt names = t.kindAt names := by
  induction h with
  | refl => rfl
  | edit h hf hmem ih => rw [hf.kindAt_eq (hp _ hmem), ih]

theorem get?_set_concat (t : Tree) (base : List String) (x : String) (new : Tree) :
    (t.set (base ++ [x]) new).get? (base ++ [x]) =
      if t.kindAt base = some true then some new else none := by
  by_cases hdir : t.kindAt base = some true
  · obtain ⟨entries, he⟩ := kindAt_eq_true.1 hdir
    rw [if_pos hdir, get?_set_self he]
  · rw [if_neg hdir, get?_append, (isEdit_set new).get?_above]
    cases hu : t.get? base with
    | none => rfl
    | some u =>
      cases u with
      | file bytes => rfl
      | dir entries => exact absurd (kindAt_eq_true.2 ⟨entries, hu⟩) hdir

theorem kindAt_set_bare {m : List String} (hnone : t.get? (base ++ [x]) = none) :
    (t.set (base ++ [x]) (dir [])).kindAt m =
      if m = base ++ [x] ∧ t.kindAt base = some true then some true else t.kindAt m := by
  by_cases hm : m = base ++ [x]
  · subst hm
    rw [kindAt, get?_set_concat]
    by_cases hdir : t.kindAt base = some true
    · rw [if_pos hdir, if_pos ⟨rfl, hdir⟩]
      rfl
    · rw [if_neg hdir, if_neg (fun h ↦ hdir h.2), kindAt_eq_none.2 hnone]
      rfl
  · rw [if_neg (fun h ↦ hm h.1)]
    by_cases hp : m <+: base ++ [x]
    · have hnot : ¬ base ++ [x] <+: m := fun hp' ↦ hm (hp.eq_of_length_le hp'.length_le)
      rw [(isEdit_set _).kindAt_eq hnot]
    · rw [kindAt, get?_set_bare hnone hp, kindAt]

theorem get?_ne_none_of_part {way way' : List (List String)}
    (h : ∀ m ∈ way', m ∈ way → m = []) (root : Tree) :
    ∀ m ∈ way', m ∈ way → root.get? m ≠ none := by
  intro m hm' hm
  rw [h m hm' hm, get?]
  exact Option.some_ne_none _

theorem enter_cons (root : Tree) (done : List String) (name : String) (steps : List String) :
    root.enter done (name :: steps) = match root.kindAt done.reverse with
      | none => .error .notFound
      | some false => .error .notDirectory
      | some true => if maxName < name.utf8ByteSize then .error .nameTooLong
        else root.enter (Path.back done name) steps := by
  rw [enter, kindAt, Path.back]
  cases root.get? done.reverse with
  | none => rfl
  | some u =>
    cases u with
    | file bytes => rfl
    | dir entries =>
      simp only [Option.map_some, isDir]
      split
      · rfl
      split <;> rfl

/-- Ways are gone in the same manner where the same places are directories. -/
theorem enter_congr {done steps : List String}
    (h : ∀ m ∈ Path.trailFrom done steps, root'.kindAt m = root.kindAt m) :
    root'.enter done steps = root.enter done steps := by
  induction steps generalizing done with
  | nil => rfl
  | cons name steps ih =>
    rw [enter_cons, enter_cons, h _ (.head _), ih fun m hm ↦ h m (.tail _ hm)]

theorem place_congr (h : ∀ m ∈ p.trail, root'.kindAt m = root.kindAt m) :
    root'.place p = root.place p := by
  unfold place
  rw [enter_congr h]

theorem get?_below_empty {names : List String} (h : root.get? names = some (dir []))
    (hp : names <+: place) (hne : place ≠ names) : root.get? place = none := by
  obtain ⟨rest, rfl⟩ := hp
  rw [get?_append, h, Option.bind_some]
  cases rest with
  | nil => exact absurd (List.append_nil _) hne
  | cons name rest => simp [get?, find]

theorem Dirs.isDirect (h : root.Dirs p.trail) (hempty : root.get? p.names = some (.dir [])) :
    p.IsDirect := by
  intro place hmem hp
  by_contra hne
  obtain ⟨entries, hdir⟩ := h place hmem
  rw [get?_below_empty hempty hp hne] at hdir
  cases hdir

section Clear

/-- At none of the places there is a file. -/
def Clear (root : Tree) (places : List (List String)) : Prop :=
  ∀ place ∈ places, root.fileAt? place = none

theorem kindAt_ne_false {names : List String} :
    root.kindAt names ≠ some false ↔ root.fileAt? names = none := by
  unfold kindAt fileAt?
  cases root.get? names with
  | none => simp
  | some t => cases t <;> simp [isDir]

theorem Dirs.clear (h : root.Dirs places) : root.Clear places := by
  intro place hmem
  obtain ⟨entries, hdir⟩ := h place hmem
  rw [fileAt?, hdir]

theorem Clear.eq_dir (h : root.Clear p.trail) : ∃ entries, root = .dir entries := by
  have hclear : root.fileAt? [] = none := h [] p.nil_mem_trail
  cases root with
  | file bytes => cases hclear
  | dir entries => exact ⟨entries, rfl⟩

theorem Clear.set_dir (h : root.Clear places) (names : List String) :
    (root.set names (dir [])).Clear places := by
  intro place hmem
  refine Option.eq_none_iff_forall_ne_some.2 fun bytes hbytes ↦ ?_
  have hold := fileAt?_eq_some.2 (DiskOp.get?_set_dir (fileAt?_eq_some.1 hbytes))
  rw [h place hmem] at hold
  cases hold

/-- A way without files is gone to its end, or something on it is missing. -/
theorem enter_of_clear (h : root.Clear (Path.trailFrom done steps))
    (hshort : ∀ name ∈ steps, name.utf8ByteSize ≤ maxName) :
    (∃ names, root.enter done steps = .ok names) ∨ root.enter done steps = .error .notFound := by
  induction steps generalizing done with
  | nil => exact .inl ⟨_, rfl⟩
  | cons name steps ih =>
    obtain ⟨hclear, hrest⟩ := List.forall_mem_cons.1 h
    obtain ⟨hname, hshort⟩ := List.forall_mem_cons.1 hshort
    rw [enter_cons]
    split
    · exact .inr rfl
    · next hfile => exact absurd hfile (kindAt_ne_false.2 hclear)
    · rw [if_neg (Nat.not_lt.2 hname)]
      exact ih hrest hshort

theorem place_cases (p : Path) : (∃ e, ∀ root : Tree, root.place p = .error e) ∨
    ∀ root : Tree, root.place p = root.enter [] p.steps := by
  unfold place
  split_ifs
  · exact .inl ⟨_, fun _ ↦ rfl⟩
  · exact .inl ⟨_, fun _ ↦ rfl⟩
  · exact .inl ⟨_, fun _ ↦ rfl⟩
  · exact .inr fun _ ↦ rfl

theorem place_of_clear (hfits : p.Fits) (h : root.Clear p.trail) :
    root.place p = .ok p.names ∨ root.place p = .error .notFound := by
  have hplace : root.place p = root.enter [] p.steps := by
    unfold place
    rw [if_neg (by simpa using hfits.zero), if_neg (by simpa using hfits.nonempty),
      if_neg (Nat.not_lt.2 hfits.short)]
  rw [hplace]
  rcases enter_of_clear h hfits.names with ⟨names, henter⟩ | henter
  · rw [← hplace] at henter ⊢
    exact .inl (place_eq_ok henter ▸ henter)
  · exact .inr henter

theorem at?_eq_of_missing (hshort : ∀ name ∈ p.steps, name.utf8ByteSize ≤ maxName)
    (h : root.Clear p.trail) (hnone : root.get? p.names = none) (h' : root'.Clear p.trail)
    (hnone' : root'.get? p.names = none) : root'.at? p = root.at? p := by
  rcases place_cases p with ⟨e, he⟩ | henter
  · rw [at?, at?, he, he]
    rfl
  have hmissing {root : Tree} (h : root.Clear p.trail) (hnone : root.get? p.names = none) :
      root.at? p = .error .notFound := by
    rcases enter_of_clear h hshort with ⟨names, hplace⟩ | hplace
    · rw [← henter root] at hplace
      obtain rfl := place_eq_ok hplace
      simp only [at?, hplace, bind, Except.bind, hnone]
      rfl
    · rw [at?, henter root, hplace]
      rfl
  rw [hmissing h hnone, hmissing h' hnone']

theorem at?_of_clear (hfits : p.Fits) (h : root.Clear p.trail) :
    (∃ entries, root.at? p = .ok (p.names, .dir entries)) ∨ root.at? p = .error .notFound := by
  rcases place_of_clear hfits h with hplace | hplace
  · have hclear := h p.names p.names_mem_trail
    unfold fileAt? at hclear
    simp only [at?, hplace, bind, Except.bind]
    cases hget : root.get? p.names with
    | none => exact .inr rfl
    | some t =>
      cases t with
      | file bytes => simp [hget] at hclear
      | dir entries => exact .inl ⟨entries, rfl⟩
  · right
    rw [at?, hplace]
    rfl

end Clear

section Emptied

variable (h : root.at? p = .ok (p.names, .dir entries))

include h

theorem place_of_dir : root.place p = .ok p.names := by
  obtain ⟨names, hplace, -⟩ := bind_eq_ok.1 h
  exact place_eq_ok hplace ▸ hplace

theorem dirs_of_dir : root.Dirs p.trail := by
  intro place hmem
  rcases Path.mem_trail_iff.1 hmem with hmem | rfl
  · exact (place_eq_ok_iff.1 (place_of_dir h)).2.1 place hmem
  · exact ⟨entries, (at?_eq_ok h).2⟩

theorem get?_emptied : (root.set p.names (dir [])).get? p.names = some (dir []) :=
  get?_set_of_place (place_of_dir h) _

/-- A directory that has been emptied is found again by its path, unless the way led through what
was in it. -/
theorem place_emptied :
    (root.set p.names (dir [])).place p = if p.IsDirect then .ok p.names else .error .notFound := by
  have hfits : p.Fits := (place_eq_ok_iff.1 (place_of_dir h)).1
  split
  · next hd =>
    refine place_eq_ok_iff.2 ⟨hfits, fun place hmem ↦ ?_, rfl⟩
    have hmem := Path.mem_trail_iff.2 (.inl hmem)
    by_cases hp : p.names <+: place
    · exact ⟨[], hd place hmem hp ▸ get?_emptied h⟩
    · rw [← kindAt_eq_true, (isEdit_set (dir [])).kindAt_eq hp, kindAt_eq_true]
      exact dirs_of_dir h place hmem
  · next hd =>
    refine (place_of_clear hfits ((dirs_of_dir h).clear.set_dir _)).resolve_left fun hplace ↦ hd ?_
    refine Dirs.isDirect (fun place hmem ↦ ?_) (get?_emptied h)
    rcases Path.mem_trail_iff.1 hmem with hmem | rfl
    · exact (place_eq_ok_iff.1 hplace).2.1 place hmem
    · exact ⟨[], get?_emptied h⟩

end Emptied

end Tree

namespace DiskOp

variable {root root' : Tree} {p : Path} {done steps : List String}

theorem addDirs_cons (root : Tree) (done : List String) (name : String) (steps : List String) :
    addDirs root done.reverse (name :: steps) =
      if name = ".." then addDirs root (done.drop 1).reverse steps
      else if Tree.maxName < name.utf8ByteSize then (.error .nameTooLong, root)
      else match root.kindAt (name :: done).reverse with
        | some true => addDirs root (name :: done).reverse steps
        | some false => (.error (if steps.isEmpty then .present else .notDirectory), root)
        | none => addDirs (root.set (name :: done).reverse (.dir [])) (name :: done).reverse steps := by
  have hdone : done.reverse.take (done.reverse.length - 1) = (done.drop 1).reverse := by
    rw [List.length_reverse, List.reverse_drop]
  rw [addDirs, hdone, List.reverse_cons, Tree.kindAt]
  split
  · rfl
  split
  · rfl
  dsimp only
  cases root.get? (done.reverse ++ [name]) with
  | none => rfl
  | some u => cases u <;> rfl

/-- What a directory made where nothing is keeps is kept on the whole way. -/
theorem addDirs_induction {inv : Tree → Prop} {done steps : List String}
    (hstep : ∀ t, ∀ m ∈ Path.trailFrom done steps, t.get? m = none → inv t →
      inv (t.set m (.dir []))) (hi : inv root) : inv (addDirs root done.reverse steps).2 := by
  induction steps generalizing root done with
  | nil => exact hi
  | cons name steps ih =>
    have hrest : ∀ t, ∀ m ∈ Path.trailFrom (Path.back done name) steps, t.get? m = none →
        inv t → inv (t.set m (.dir [])) := fun t m hm ↦ hstep t m (.tail _ hm)
    unfold Path.back at hrest
    rw [addDirs_cons]
    split
    · next hback =>
      rw [if_pos hback] at hrest
      exact ih hrest hi
    next hback =>
    rw [if_neg hback] at hrest
    split
    · exact hi
    split
    · exact ih hrest hi
    · exact hi
    · next hnone =>
      refine ih hrest (hrest root _ ?_ (Tree.kindAt_eq_none.1 hnone) hi)
      cases steps <;> simp [Path.trailFrom]

theorem addDirs_of_clear (h : root.Clear (Path.trailFrom done steps))
    (hshort : ∀ name ∈ steps, name.utf8ByteSize ≤ Tree.maxName) :
    (addDirs root done.reverse steps).1 = .ok () := by
  induction steps generalizing root done with
  | nil => rfl
  | cons name steps ih =>
    obtain ⟨-, hrest⟩ := List.forall_mem_cons.1 h
    obtain ⟨hname, hshort⟩ := List.forall_mem_cons.1 hshort
    unfold Path.back at hrest
    rw [addDirs_cons]
    split
    · next hback =>
      rw [if_pos hback] at hrest
      exact ih hrest hshort
    next hback =>
    rw [if_neg hback] at hrest
    rw [if_neg (Nat.not_lt.2 hname)]
    split
    · exact ih hrest hshort
    · next hfile =>
      have hmem : (name :: done).reverse ∈ Path.trailFrom (name :: done) steps := by
        cases steps <;> simp [Path.trailFrom]
      exact absurd hfile (Tree.kindAt_ne_false.2 (hrest _ hmem))
    · exact ih (Tree.Clear.set_dir hrest _) hshort

theorem dirs_of_addDirs {entries : List (String × Tree)}
    (hdone : root.get? done.reverse = some (.dir entries))
    (h : (addDirs root done.reverse steps).1 = .ok ()) :
    (addDirs root done.reverse steps).2.Dirs (Path.trailFrom done steps) := by
  induction steps generalizing root done entries with
  | nil => exact List.forall_mem_singleton.2 ⟨entries, hdone⟩
  | cons name steps ih =>
    have hhead := (keeps_addDirs root done.reverse (name :: steps) []).dirs _ _ hdone
    refine List.forall_mem_cons.2 ⟨hhead, ?_⟩
    rw [addDirs_cons] at h ⊢
    unfold Path.back
    split at h
    · next hback =>
      rw [if_pos hback, if_pos hback]
      by_cases hshort : (done.drop 1).reverse = done.reverse
      · exact ih (hshort ▸ hdone) h
      · have hprefix : (done.drop 1).reverse <+: done.reverse :=
          List.reverse_prefix.2 (List.drop_suffix 1 done)
        obtain ⟨entries', habove⟩ := Tree.get?_dir_of_prefix hprefix hshort hdone
        exact ih habove h
    next hback =>
    rw [if_neg hback, if_neg hback]
    split at h
    · cases h
    next hname =>
    rw [if_neg hname]
    split at h
    · next hdir =>
      obtain ⟨entries', hdir'⟩ := Tree.kindAt_eq_true.1 hdir
      exact ih hdir' h
    · cases h
    · have hset := Tree.get?_set_self hdone name (.dir [])
      rw [← List.reverse_cons] at hset
      exact ih hset h

theorem makeAll_of_clear (hfits : p.Fits) (h : root.Clear p.trail) :
    (makeAll root p).1 = .ok () ∧ (makeAll root p).2.Dirs p.trail := by
  have hmake : makeAll root p = addDirs root [] p.steps := by
    unfold makeAll
    rw [if_neg (by simpa using hfits.zero), if_neg (Nat.not_lt.2 hfits.short)]
  obtain ⟨entries, rfl⟩ := h.eq_dir
  have hok := @addDirs_of_clear (.dir entries) [] p.steps h hfits.names
  rw [hmake]
  exact ⟨hok, @dirs_of_addDirs (.dir entries) [] p.steps entries rfl hok⟩

theorem addDirs_of_dirs (h : root.Dirs (Path.trailFrom done steps))
    (hshort : ∀ name ∈ steps, name.utf8ByteSize ≤ Tree.maxName) :
    addDirs root done.reverse steps = (.ok (), root) := by
  have hsame : (addDirs root done.reverse steps).2 = root := by
    refine @addDirs_induction _ (· = root) _ _ (fun t m hm hnone ht ↦ ?_) rfl
    obtain ⟨entries, hdir⟩ := h m hm
    rw [ht, hdir] at hnone
    cases hnone
  exact Prod.ext (addDirs_of_clear h.clear hshort) hsame

theorem makeAll_of_dirs (hfits : p.Fits) (h : root.Dirs p.trail) :
    makeAll root p = (.ok (), root) := by
  unfold makeAll
  rw [if_neg (by simpa using hfits.zero), if_neg (Nat.not_lt.2 hfits.short)]
  exact @addDirs_of_dirs root [] p.steps h hfits.names

end DiskOp

end Multicloud

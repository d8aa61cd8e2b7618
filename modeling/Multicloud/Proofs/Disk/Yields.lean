import Multicloud.Proofs.Disk.Removal

namespace Multicloud

namespace Tree

variable {root : Tree} {p : Path} {base : List String} {x : String}

theorem dirs_of_get? (hback : ".." ∉ p.steps) {t : Tree} (h : root.get? p.names = some t) :
    root.Dirs p.trail.dropLast := by
  intro place hmem
  obtain hnil | ⟨steps, name, hsteps⟩ := List.eq_nil_or_concat' p.steps
  · simp [Path.trail, hnil, Path.trailFrom] at hmem
  · rw [Path.names_eq_steps hback, hsteps] at h
    rw [Path.trail, hsteps, Path.trailFrom_concat, List.dropLast_concat] at hmem
    rw [hsteps, List.mem_append, not_or] at hback
    have hp : place <+: steps := Path.prefix_of_mem_trailFrom hback.1 hmem
    refine get?_dir_of_prefix (hp.trans (List.prefix_append _ _)) ?_ h
    rintro rfl
    have hlength := hp.length_le
    rw [List.length_append, List.length_singleton] at hlength
    omega

theorem enter_ne_notFound {done steps : List String}
    (h : root.Dirs (Path.trailFrom done steps).dropLast) :
    root.enter done steps ≠ .error .notFound := by
  induction steps generalizing done with
  | nil =>
    intro h
    cases h
  | cons name steps ih =>
    have hne : Path.trailFrom (Path.back done name) steps ≠ [] :=
      List.ne_nil_of_mem (Path.reverse_mem_trailFrom _ _)
    rw [Path.trailFrom, List.dropLast_cons_of_ne_nil hne] at h
    obtain ⟨⟨entries, hd⟩, hrest⟩ := List.forall_mem_cons.1 h
    have ih := ih hrest
    rw [enter, hd]
    dsimp only
    unfold Path.back at ih
    split
    · intro h
      cases h
    split
    · next hback => rwa [if_pos hback] at ih
    · next hback => rwa [if_neg hback] at ih

theorem get?_of_at?_notFound (h : root.at? p = .error .notFound)
    (hway : root.get? p.names ≠ none → root.Dirs p.trail.dropLast) (hne : p.names ≠ []) :
    root.get? p.names = none := by
  by_contra hthere
  unfold at? at h
  cases hplace : root.place p with
  | ok names =>
    obtain rfl := place_eq_ok hplace
    obtain ⟨t, ht⟩ := Option.ne_none_iff_exists'.1 hthere
    rw [hplace] at h
    simp only [bind, Except.bind, ht] at h
    cases t with
    | dir entries => cases h
    | file bytes =>
      dsimp only at h
      split at h
      · cases h
      · cases h
  | error e =>
    rw [hplace] at h
    obtain rfl : e = .notFound := Except.error.inj h
    unfold place at hplace
    split at hplace
    · cases hplace
    split at hplace
    · next hempty =>
      have htext : p.text = "" := by simpa using hempty
      refine absurd ?_ hne
      rw [Path.names, Path.steps, Path.pieces, htext]
      rfl
    split at hplace
    · cases hplace
    · exact enter_ne_notFound (hway hthere) hplace

end Tree

namespace DiskOp

variable {root root' : Tree} {p source target : Path} {base : List String} {x y : String}
  {entries : List (String × Tree)}

theorem beside_removeTree (hp : p.names = base ++ [x]) {answer : Except DiskError Unit}
    (hy : (removeTree p).Yields root answer root') : Tree.Beside base x root root' := by
  have hset (new : Tree) : Tree.Beside base x root (root.set p.names new) := by
    rw [hp]
    exact Tree.beside_set root base [] x new
  rcases hy with hrun | ⟨-, hleft⟩
  · cases removes_of_run hrun with
    | missing _ => exact .refl base x root
    | file _ => exact .refl base x root
    | lost _ _ => exact hset _
    | emptied _ _ _ => exact hset _
    | removed _ _ _ =>
      rw [hp]
      exact Tree.beside_remove root base [] x
  · rcases hleft with rfl | ⟨names, entries, entries', hat, rfl⟩
    · exact .refl base x root'
    · obtain ⟨rfl, -⟩ := Tree.at?_eq_ok hat
      exact hset _

theorem gone_removeTree (hp : p.names = base ++ [x]) (hd : p.IsDirect)
    (hway : root.get? p.names ≠ none → root.Dirs p.trail.dropLast) (hl : root.Lists base)
    {answer : Except DiskError Unit} (h : answer = .ok () ∨ answer = .error .notFound)
    (hy : (removeTree p).Yields root answer root') : root'.get? (base ++ [x]) = none := by
  rcases hy with hrun | ⟨⟨e, he, rfl⟩, -⟩
  · cases removes_of_run hrun with
    | @missing e hat =>
      obtain rfl : e = .notFound := by simpa using h
      rw [← hp]
      exact Tree.get?_of_at?_notFound hat hway (by simp [hp])
    | file _ => simp at h
    | lost _ hlost => exact absurd hd hlost
    | @emptied _ e _ _ hend =>
      obtain rfl : e = .notFound := by simpa using h
      exact absurd hend (endFault?_ne_notFound p)
    | removed _ _ _ =>
      rw [hp]
      exact Tree.get?_remove_self hl x
  · simp [he] at h

theorem gone_removeFile (hp : p.names = base ++ [x])
    (hway : root.get? p.names ≠ none → root.Dirs p.trail.dropLast) (hl : root.Lists base)
    {answer : Except DiskError Unit} (h : answer = .ok () ∨ answer = .error .notFound)
    (hy : (removeFile p).Yields root answer root') : root'.get? (base ++ [x]) = none := by
  rcases hy with hrun | ⟨⟨e, he, rfl⟩, -⟩
  · change commit root (unlink root p) = (answer, root') at hrun
    unfold unlink at hrun
    cases hat : root.at? p with
    | error e =>
      rw [hat] at hrun
      cases hrun
      obtain rfl : e = .notFound := by simpa using h
      rw [← hp]
      exact Tree.get?_of_at?_notFound hat hway (by simp [hp])
    | ok found =>
      obtain ⟨names, t⟩ := found
      obtain ⟨rfl, -⟩ := Tree.at?_eq_ok hat
      rw [hat] at hrun
      cases t with
      | dir entries =>
        cases hrun
        simp at h
      | file bytes =>
        cases hrun
        rw [hp]
        exact Tree.get?_remove_self hl x
  · simp [he] at h

theorem yields_removeTree (hp : p.names = base ++ [x]) (hback : ".." ∉ p.steps)
    {answer : Except DiskError Unit} (hy : (removeTree p).Yields root answer root') :
    Tree.Beside base x root root' ∧
      (root.Lists base → answer = .ok () ∨ answer = .error .notFound →
        root'.get? (base ++ [x]) = none) := by
  refine ⟨beside_removeTree hp hy, fun hl h ↦
    gone_removeTree hp (Path.isDirect_of_not_back hback) (fun hthere ↦ ?_) hl h hy⟩
  obtain ⟨t, ht⟩ := Option.ne_none_iff_exists'.1 hthere
  exact Tree.dirs_of_get? hback ht

/-- There is nothing at the place, or a directory with nothing in it. -/
def IsBare (t : Tree) (names : List String) : Prop :=
  ∀ u, t.get? names = some u → u = .dir []

theorem eq_of_get?_set_concat {new w : Tree}
    (h : (root.set (base ++ [x]) new).get? (base ++ [x]) = some w) : w = new := by
  rw [Tree.get?_append, (Tree.isEdit_set new).get?_above] at h
  obtain ⟨v, hv, h⟩ := Option.bind_eq_some_iff.1 h
  obtain ⟨u, -, rfl⟩ := Option.map_eq_some_iff.1 hv
  cases u with
  | file bytes => simp [Tree.set, Tree.get?] at h
  | dir entries =>
    simpa [Tree.set, Tree.get?_dir_cons, Tree.find_put, Tree.get?, eq_comm] using h

theorem beside_set_bare {names : List String} (hpre : names <+: base ++ [x])
    (hnone : root.get? names = none) :
    Tree.Beside base x root (root.set names (.dir [])) ∧
      IsBare (root.set names (.dir [])) (base ++ [x]) := by
  have hne : names ≠ [] := by
    rintro rfl
    cases hnone
  obtain ⟨above, last, rfl⟩ := List.eq_nil_or_concat' names |>.resolve_left hne
  rcases List.prefix_concat_iff.1 hpre with heq | hpre
  · obtain ⟨rfl, hx⟩ := List.append_inj' heq rfl
    obtain rfl : last = x := by simpa using hx
    exact ⟨Tree.beside_set root above [] last _, fun u hu ↦ eq_of_get?_set_concat hu⟩
  · obtain ⟨rest, rfl⟩ := hpre
    have hbelow {names : List String} {u : Tree}
        (hu : (root.set (above ++ [last]) (.dir [])).get? (above ++ [last] ++ names) = some u) :
        names = [] ∧ u = .dir [] := by
      rw [Tree.get?_append] at hu
      obtain ⟨w, hw, hu⟩ := Option.bind_eq_some_iff.1 hu
      obtain rfl := eq_of_get?_set_concat hw
      cases names with
      | nil => exact ⟨rfl, (Option.some.inj hu).symm⟩
      | cons n names => simp [Tree.get?, Tree.find] at hu
    refine ⟨⟨fun y _ ↦ ?_, fun _ entries he ↦ ?_⟩, fun u hu ↦ ?_⟩
    · rw [List.append_assoc _ rest, Tree.get?_eq_none_of_append hnone]
      refine Option.eq_none_iff_forall_ne_some.2 fun u hu ↦ ?_
      simpa using (hbelow hu).1
    · obtain ⟨-, he⟩ := hbelow he
      cases he
      exact .nil
    · rw [List.append_assoc _ rest] at hu
      exact (hbelow hu).2

theorem beside_addDirs {done steps : List String} (hpre : done ++ steps <+: base ++ [x])
    (hback : ".." ∉ steps) (hbare : IsBare root (base ++ [x])) :
    Tree.Beside base x root (addDirs root done steps).2 ∧
      IsBare (addDirs root done steps).2 (base ++ [x]) := by
  induction steps generalizing root done with
  | nil => exact ⟨.refl base x root, hbare⟩
  | cons name steps ih =>
    obtain ⟨hne, hback⟩ := List.ne_and_not_mem_of_not_mem_cons hback
    have hrest : done ++ [name] ++ steps <+: base ++ [x] := by simpa using hpre
    rw [addDirs, if_neg hne.symm]
    split
    · exact ⟨.refl base x root, hbare⟩
    dsimp only
    split
    · exact ih hrest hback hbare
    · exact ⟨.refl base x root, hbare⟩
    · next hnone =>
      obtain ⟨hbeside, hbare⟩ :=
        beside_set_bare ((List.prefix_append _ steps).trans hrest) hnone
      obtain ⟨hbeside', hbare⟩ := ih hrest hback hbare
      exact ⟨hbeside.trans hbeside', hbare⟩

theorem yields_makeDirs (hp : p.steps = base ++ [x]) (hback : ".." ∉ p.steps)
    (hbare : IsBare root (base ++ [x])) {answer : Except DiskError Unit}
    (hy : (makeDirs p).Yields root answer root') :
    Tree.Beside base x root root' ∧ IsBare root' (base ++ [x]) := by
  rcases hy with hrun | ⟨-, n, rfl⟩
  · change makeAll root p = (answer, root') at hrun
    unfold makeAll at hrun
    split at hrun
    · cases hrun
      exact ⟨.refl base x root, hbare⟩
    split at hrun
    · cases hrun
      exact ⟨.refl base x root, hbare⟩
    · obtain rfl := congrArg Prod.snd hrun
      exact beside_addDirs (hp ▸ List.prefix_rfl) hback hbare
  · exact beside_addDirs (hp ▸ List.take_prefix n p.steps)
      (fun h ↦ hback (List.mem_of_mem_take h)) hbare

theorem beside_change {f : Option ByteArray → ByteArray} {rest : List String}
    (hp : p.names = base ++ x :: rest) (h : change root p f = .ok root') :
    Tree.Beside base x root root' := by
  obtain ⟨-, -, ⟨old, -, rfl⟩ | ⟨-, rfl⟩⟩ := change_eq_ok_iff.1 h
  · exact hp ▸ Tree.beside_set root base rest x _
  · exact hp ▸ Tree.beside_set root base rest x _

theorem yields_write {name : String} {bytes : ByteArray} (hp : p.names = base ++ [x] ++ [name])
    {answer : Except DiskError Unit} (hy : (write p bytes).Yields root answer root') :
    Tree.Beside base x root root' ∧
      (answer = .ok () → ∃ entries, root.get? (base ++ [x]) = some (.dir entries) ∧
        root'.get? (base ++ [x]) = some (.dir (Tree.put name (.file bytes) entries))) := by
  have hp' : p.names = base ++ x :: [name] := by simpa using hp
  rcases hy with hrun | ⟨⟨e, rfl⟩, hleft⟩
  · change commit root (change root p fun _ ↦ bytes) = (answer, root') at hrun
    cases hc : change root p fun _ ↦ bytes with
    | error e =>
      rw [hc] at hrun
      cases hrun
      exact ⟨.refl base x root, fun h ↦ by cases h⟩
    | ok new =>
      rw [hc] at hrun
      cases hrun
      refine ⟨beside_change hp' hc, fun _ ↦ ?_⟩
      obtain ⟨hplace, rfl⟩ := change_eq_ok hc
      rw [hp] at hplace ⊢
      obtain ⟨entries, hdir⟩ := Tree.get?_dir_of_place hplace
      refine ⟨entries, hdir, ?_⟩
      rw [(Tree.isEdit_set _).get?_above, hdir, Option.map_some, Tree.set]
  · refine ⟨?_, fun h ↦ by cases h⟩
    rcases hleft with rfl | ⟨bytes', hc⟩
    · exact .refl base x root'
    · exact beside_change hp' hc

theorem yields_find {answer : Option Bool} (hy : (find p).Yields root answer root') :
    root' = root ∧ (answer.isSome = true → ∃ t, root.get? p.names = some t) := by
  rcases hy with hrun | ⟨rfl, rfl⟩
  · change (findAt root p, root) = (answer, root') at hrun
    cases hrun
    refine ⟨rfl, fun h ↦ ?_⟩
    unfold findAt at h
    split at h
    · next names t hat =>
      obtain ⟨rfl, hget⟩ := Tree.at?_eq_ok hat
      exact ⟨t, hget⟩
    · cases h
  · exact ⟨rfl, fun h ↦ by cases h⟩

structure Moves (base : List String) (x y : String) (t u : Tree) : Prop where
  moved : ∃ w, t.get? (base ++ [x]) = some w ∧ u.get? (base ++ [y]) = some w
  gone : t.Lists base → u.get? (base ++ [x]) = none
  get?_eq : ∀ z, z ≠ x → z ≠ y → u.get? (base ++ [z]) = t.get? (base ++ [z])
  lists : t.Lists base → u.Lists base

theorem moves_of_move (hs : source.names = base ++ [x]) (ht : target.names = base ++ [y])
    (hne : x ≠ y) (h : move root source target = .ok root') : Moves base x y root root' := by
  rcases move_eq_ok h with ⟨hsame, -⟩ | ⟨hplace, t, hget, rfl⟩
  · rw [hs, ht] at hsame
    exact absurd (by simpa using hsame) hne
  · rw [hs] at hget ⊢
    rw [ht] at hplace ⊢
    have hremove := Tree.beside_remove root base [] x
    have hset := Tree.beside_set (root.remove (base ++ [x])) base [] y t
    obtain ⟨entries, hdir⟩ := Tree.get?_dir_of_place hplace
    have hdir' : (root.remove (base ++ [x])).get? base = some (.dir (Tree.erase x entries)) := by
      rw [Tree.isEdit_remove.get?_above, hdir, Option.map_some, Tree.remove]
    constructor
    · exact ⟨t, hget, Tree.get?_set_self hdir' y t⟩
    · intro hl
      exact (hset.get?_eq x hne).trans (Tree.get?_remove_self hl x)
    · intro z hx hy
      exact (hset.get?_eq z hy).trans (hremove.get?_eq z hx)
    · intro hl
      exact hset.lists (hremove.lists hl)

theorem yields_rename (hs : source.names = base ++ [x]) (ht : target.names = base ++ [y])
    (hne : x ≠ y) {answer : Except DiskError Unit}
    (hy : (rename source target).Yields root answer root') :
    (∃ e, answer = .error e) ∧ root' = root ∨ answer = .ok () ∧ Moves base x y root root' := by
  rcases hy with hrun | ⟨he, rfl⟩
  · change commit root (move root source target) = (answer, root') at hrun
    cases hm : move root source target with
    | error e =>
      rw [hm] at hrun
      cases hrun
      exact .inl ⟨⟨e, rfl⟩, rfl⟩
    | ok new =>
      rw [hm] at hrun
      cases hrun
      exact .inr ⟨rfl, moves_of_move hs ht hne hm⟩
  · exact .inl ⟨he, rfl⟩

end DiskOp

end Multicloud

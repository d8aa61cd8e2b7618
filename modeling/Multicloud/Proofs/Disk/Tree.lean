import Multicloud.Disk.Script
import Multicloud.Proofs.Fallible

namespace Multicloud

namespace Tree

variable {name name' x y : String} {t new : Tree} {entries : List (String × Tree)}
  {names names' base : List String} {bytes : ByteArray}

theorem find_put (name name' : String) (t : Tree) (entries : List (String × Tree)) :
    find name' (put name t entries) = if name = name' then some t else find name' entries := by
  induction entries with
  | nil => rfl
  | cons e entries ih =>
    obtain ⟨n, u⟩ := e
    unfold put
    split
    · next hn =>
      subst hn
      by_cases h : n = name' <;> simp [find, h]
    split
    · simp [find]
    · next hn _ =>
      by_cases h : n = name'
      · simp [find, h, Ne.symm (h ▸ hn)]
      · simp [find, h, ih]

theorem find_erase_of_ne (h : name ≠ name') (entries : List (String × Tree)) :
    find name' (erase name entries) = find name' entries := by
  induction entries with
  | nil => rfl
  | cons e entries ih =>
    obtain ⟨n, u⟩ := e
    unfold erase
    split
    · next hn => simp [find, hn, h]
    · simp [find, ih]

theorem get?_dir_cons (entries : List (String × Tree)) (name : String) (names : List String) :
    (dir entries).get? (name :: names) = (find name entries).bind fun t ↦ t.get? names := by
  rw [get?]
  cases find name entries <;> rfl

theorem set_below (h : find name entries = some t) (hne : names ≠ []) (new : Tree) :
    (dir entries).set (name :: names) new = dir (put name (t.set names new) entries) := by
  cases names with
  | nil => exact absurd rfl hne
  | cons n names => simp [set, h]

theorem remove_below (h : find name entries = some t) (hne : names ≠ []) :
    (dir entries).remove (name :: names) = dir (put name (t.remove names) entries) := by
  cases names with
  | nil => exact absurd rfl hne
  | cons n names => simp [remove, h]

theorem get?_set_file (h : (t.set names new).get? names' = some (file bytes)) :
    (∃ rest, names' = names ++ rest ∧ new.get? rest = some (file bytes)) ∨
      t.get? names' = some (file bytes) := by
  induction names generalizing t names' with
  | nil => exact .inl ⟨names', rfl, by simpa [set] using h⟩
  | cons name names ih =>
    cases t with
    | file _ => exact .inr h
    | dir entries =>
      cases names' with
      | nil =>
        cases names with
        | nil => simp [set, get?] at h
        | cons n names => cases hf : find name entries <;> simp [set, hf, get?] at h
      | cons name' names' =>
        cases names with
        | nil =>
          rw [set, get?_dir_cons, find_put] at h
          split at h
          · next he => exact .inl ⟨names', by rw [he]; rfl, h⟩
          · exact .inr (by rw [get?_dir_cons, h])
        | cons n names =>
          cases hf : find name entries with
          | none => exact .inr (by simpa [set, hf] using h)
          | some u =>
            rw [set_below hf (List.cons_ne_nil _ _), get?_dir_cons, find_put] at h
            split at h
            · next he =>
              subst he
              rcases ih h with ⟨rest, rfl, hrest⟩ | h
              · exact .inl ⟨rest, rfl, hrest⟩
              · exact .inr (by rw [get?_dir_cons, hf, Option.bind_some, h])
            · exact .inr (by rw [get?_dir_cons, h])

theorem get?_set_self (h : t.get? base = some (dir entries)) (x : String) (new : Tree) :
    (t.set (base ++ [x]) new).get? (base ++ [x]) = some new := by
  induction base generalizing t with
  | nil =>
    cases h
    rw [List.nil_append, set, get?_dir_cons, find_put, if_pos rfl]
    rfl
  | cons name base ih =>
    cases t with
    | file _ => cases h
    | dir entries' =>
      rw [get?_dir_cons] at h
      obtain ⟨u, hu, h⟩ := Option.bind_eq_some_iff.1 h
      rw [List.cons_append, set_below hu (by simp), get?_dir_cons, find_put, if_pos rfl,
        Option.bind_some, ih h]

theorem get?_remove_of_ne (hne : x ≠ y) (t : Tree) (base : List String) :
    (t.remove (base ++ [x])).get? (base ++ [y]) = t.get? (base ++ [y]) := by
  induction base generalizing t with
  | nil =>
    cases t with
    | file _ => rfl
    | dir entries =>
      rw [List.nil_append, List.nil_append, remove, get?_dir_cons, get?_dir_cons,
        find_erase_of_ne hne]
  | cons name base ih =>
    cases t with
    | file _ => rfl
    | dir entries =>
      cases hf : find name entries with
      | none =>
        rw [List.cons_append, List.cons_append]
        cases hb : base ++ [x] with
        | nil => simp at hb
        | cons n names => simp [remove, hf]
      | some u =>
        rw [List.cons_append, List.cons_append, remove_below hf (by simp), get?_dir_cons, find_put,
          if_pos rfl, get?_dir_cons, hf, Option.bind_some, Option.bind_some, ih]

end Tree

namespace Path

def back (done : List String) (name : String) : List String :=
  if name = ".." then done.drop 1 else name :: done

/-- Where a path leads, if all on the way are directories. -/
def names (p : Path) : List String := (p.steps.foldl back []).reverse

end Path

namespace Tree

variable {root : Tree} {p : Path} {names : List String}

theorem enter_cons_eq_ok {done steps : List String} {name : String}
    (h : root.enter done (name :: steps) = .ok names) :
    (∃ entries, root.get? done.reverse = some (dir entries)) ∧
      root.enter (Path.back done name) steps = .ok names := by
  rw [enter] at h
  split at h
  · cases h
  · cases h
  · next entries hd =>
    split at h
    · cases h
    · refine ⟨⟨entries, hd⟩, ?_⟩
      rw [Path.back]
      split at h <;> simp_all

theorem enter_eq_ok {done steps : List String} (h : root.enter done steps = .ok names) :
    names = (steps.foldl Path.back done).reverse := by
  induction steps generalizing done with
  | nil =>
    cases h
    rfl
  | cons name steps ih => exact ih (enter_cons_eq_ok h).2

theorem get?_dir_of_concat {base : List String} {x : String} {t : Tree}
    (h : root.get? (base ++ [x]) = some t) : ∃ entries, root.get? base = some (dir entries) := by
  induction base generalizing root with
  | nil =>
    cases root with
    | file _ => cases h
    | dir entries => exact ⟨entries, rfl⟩
  | cons name base ih =>
    cases root with
    | file _ => cases h
    | dir entries =>
      rw [List.cons_append, get?_dir_cons] at h
      obtain ⟨u, hu, h⟩ := Option.bind_eq_some_iff.1 h
      obtain ⟨entries', hbase⟩ := ih h
      exact ⟨entries', by rw [get?_dir_cons, hu, Option.bind_some, hbase]⟩

theorem get?_dir_of_enter {done steps base : List String} {x : String}
    (h : root.enter done steps = .ok (base ++ [x]))
    (hdone : ∀ base x, done.reverse = base ++ [x] →
      ∃ entries, root.get? base = some (dir entries)) :
    ∃ entries, root.get? base = some (dir entries) := by
  induction steps generalizing done with
  | nil => exact hdone _ _ (Except.ok.inj h)
  | cons name steps ih =>
    obtain ⟨⟨entries, hd⟩, h⟩ := enter_cons_eq_ok h
    refine ih h ?_
    intro base x hb
    unfold Path.back at hb
    split at hb
    · cases done with
      | nil => simp at hb
      | cons last done =>
        rw [List.reverse_cons] at hd
        obtain ⟨entries', hdone⟩ := get?_dir_of_concat hd
        rw [List.drop_one, List.tail_cons] at hb
        rw [hb] at hdone
        exact get?_dir_of_concat hdone
    · rw [List.reverse_cons] at hb
      rw [(List.append_inj' hb rfl).1] at hd
      exact ⟨entries, hd⟩

theorem enter_of_place (h : root.place p = .ok names) : root.enter [] p.steps = .ok names := by
  unfold place at h
  split at h
  · cases h
  split at h
  · cases h
  split at h
  · cases h
  · exact h

theorem get?_dir_of_place {base : List String} {x : String}
    (h : root.place p = .ok (base ++ [x])) : ∃ entries, root.get? base = some (dir entries) :=
  get?_dir_of_enter (enter_of_place h) fun _ _ he ↦ absurd he.symm (by simp)

theorem place_eq_ok (h : root.place p = .ok names) : names = p.names :=
  enter_eq_ok (enter_of_place h)

theorem at?_eq_ok {t : Tree} (h : root.at? p = .ok (names, t)) :
    names = p.names ∧ root.get? names = some t := by
  obtain ⟨names', hplace, h⟩ := bind_eq_ok.1 h
  split at h
  · cases h
  · next bytes hget =>
    split at h
    · cases h
    · cases h
      exact ⟨place_eq_ok hplace, hget⟩
  · next entries hget =>
    cases h
    exact ⟨place_eq_ok hplace, hget⟩

end Tree

namespace DiskOp

variable {root root' : Tree} {p : Path} {bytes : ByteArray}

theorem readFile_eq_ok (h : readFile root p = .ok bytes) :
    root.get? p.names = some (.file bytes) := by
  obtain ⟨⟨names, t⟩, hat, h⟩ := bind_eq_ok.1 h
  obtain ⟨rfl, hget⟩ := Tree.at?_eq_ok hat
  split at h
  · next he =>
    cases h
    obtain ⟨-, rfl⟩ := Prod.mk.inj he
    exact hget
  · cases h

theorem change_eq_ok (h : change root p (fun _ ↦ bytes) = .ok root') :
    root.place p = .ok p.names ∧ root' = root.set p.names (.file bytes) := by
  obtain ⟨names, hplace, h⟩ := bind_eq_ok.1 h
  obtain rfl := Tree.place_eq_ok hplace
  refine ⟨hplace, ?_⟩
  split at h
  · cases h
  all_goals
    split at h
    · cases h
    · cases h
      rfl

end DiskOp

def Tree.FilesWithin (root₁ root : Tree) : Prop :=
  ∀ names bytes, root₁.get? names = some (.file bytes) → root.get? names = some (.file bytes)

namespace DiskOp

variable {root root' : Tree} {p : Path} {bytes : ByteArray}

theorem get?_set_dir {names names' : List String}
    (h : (root.set names (.dir [])).get? names' = some (.file bytes)) :
    root.get? names' = some (.file bytes) := by
  rcases Tree.get?_set_file h with ⟨rest, -, hrest⟩ | h
  · cases rest with
    | nil => cases hrest
    | cons name rest => simp [Tree.get?, Tree.find] at hrest
  · exact h

theorem get?_addDirs {done steps names : List String}
    (h : (addDirs root done steps).2.get? names = some (.file bytes)) :
    root.get? names = some (.file bytes) := by
  induction steps generalizing root done with
  | nil => exact h
  | cons name steps ih =>
    rw [addDirs] at h
    split at h
    · exact ih h
    split at h
    · exact h
    dsimp only at h
    split at h
    · exact ih h
    · exact h
    · exact get?_set_dir (ih h)

theorem filesWithin_makeAll (root : Tree) (p : Path) : (makeAll root p).2.FilesWithin root := by
  intro names bytes h
  unfold makeAll at h
  split at h
  · exact h
  split at h
  · exact h
  · exact get?_addDirs h

theorem move_eq_ok {source target : Path} (h : move root source target = .ok root') :
    source.names = target.names ∧ root' = root ∨
      root.place target = .ok target.names ∧ ∃ t, root.get? source.names = some t ∧
        root' = (root.remove source.names).set target.names t := by
  obtain ⟨⟨names, t⟩, hat, h⟩ := bind_eq_ok.1 h
  obtain ⟨rfl, hget⟩ := Tree.at?_eq_ok hat
  obtain ⟨newNames, hplace, h⟩ := bind_eq_ok.1 h
  obtain rfl := Tree.place_eq_ok hplace
  dsimp only at h
  split at h
  · next he =>
    cases h
    exact .inl ⟨he, rfl⟩
  split at h
  · cases h
  refine .inr ⟨hplace, t, hget, ?_⟩
  split at h
  · split at h
    · cases h
    · cases h
      rfl
  · cases h
    rfl
  · cases h
    rfl
  · cases h
  · cases h
  · split at h
    · cases h
      rfl
    · cases h

end DiskOp

end Multicloud

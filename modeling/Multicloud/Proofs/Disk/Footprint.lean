import Multicloud.Proofs.Disk.Beside
import Multicloud.Proofs.Disk.Trail

namespace Multicloud

namespace Tree

variable {t u root : Tree} {names place rest : List String} {bytes : ByteArray}

def Apart (place names : List String) : Prop := ¬ place <+: names ∧ ¬ names <+: place

instance (place names : List String) : Decidable (Apart place names) :=
  inferInstanceAs (Decidable (¬ place <+: names ∧ ¬ names <+: place))

theorem apart_comm : Apart place names ↔ Apart names place := and_comm

theorem Apart.exists_branch (h : Apart place names) : ∃ base x y rest rest',
    x ≠ y ∧ place = base ++ x :: rest ∧ names = base ++ y :: rest' := by
  induction place generalizing names with
  | nil => exact absurd List.nil_prefix h.1
  | cons x place ih =>
    cases names with
    | nil => exact absurd List.nil_prefix h.2
    | cons y names =>
      by_cases hxy : x = y
      · subst hxy
        obtain ⟨base, x', y', rest, rest', hne, rfl, rfl⟩ :=
          ih ⟨fun hp ↦ h.1 (List.cons_prefix_cons.2 ⟨rfl, hp⟩),
            fun hp ↦ h.2 (List.cons_prefix_cons.2 ⟨rfl, hp⟩)⟩
        exact ⟨x :: base, x', y', rest, rest', hne, rfl, rfl⟩
      · exact ⟨[], x, y, place, names, hxy, rfl, rfl⟩

theorem Apart.append (h : Apart place names) (rest : List String) :
    Apart (place ++ rest) names := by
  obtain ⟨base, x, y, place, names, hne, rfl, rfl⟩ := h.exists_branch
  constructor
  · intro hp
    rw [List.append_assoc, List.prefix_append_right_inj, List.cons_append,
      List.cons_prefix_cons] at hp
    exact hne hp.1
  · intro hp
    rw [List.append_assoc, List.prefix_append_right_inj, List.cons_append,
      List.cons_prefix_cons] at hp
    exact hne hp.1.symm

theorem apart_concat {base : List String} {x y : String} (h : x ≠ y) :
    Apart (base ++ [x]) (base ++ [y]) := by
  constructor
  · intro hp
    rw [List.prefix_append_right_inj, List.cons_prefix_cons] at hp
    exact h hp.1
  · intro hp
    rw [List.prefix_append_right_inj, List.cons_prefix_cons] at hp
    exact h hp.1.symm

section Edit

variable {f : Tree → List String → Tree}

theorem IsEdit.get?_of_apart (hf : IsEdit f) (h : Apart place names) (t : Tree) :
    (f t place).get? names = t.get? names := by
  obtain ⟨base, x, y, rest, rest', hne, rfl, rfl⟩ := h.exists_branch
  rw [List.append_cons base y rest', get?_append, hf.get?_beside hne.symm, ← get?_append]

theorem IsEdit.get?_file_iff (hf : IsEdit f) (h : ¬ place <+: names) :
    (f t place).get? names = some (.file bytes) ↔ t.get? names = some (.file bytes) := by
  by_cases hbelow : names <+: place
  · obtain ⟨rest, rfl⟩ := hbelow
    cases rest with
    | nil => exact absurd (by simp) h
    | cons x rest =>
      rw [hf.get?_above]
      cases t.get? names with
      | none => simp
      | some u =>
        cases u with
        | file bytes' => simp [hf.file]
        | dir entries =>
          obtain ⟨entries', he⟩ : ∃ entries', f (dir entries) (x :: rest) = dir entries' := by
            have hdir := hf.isDir entries x rest
            cases hu : f (dir entries) (x :: rest) with
            | file bytes' =>
              rw [hu] at hdir
              cases hdir
            | dir entries' => exact ⟨entries', rfl⟩
          simp [he]
  · rw [hf.get?_of_apart ⟨h, hbelow⟩]

structure IsOrderly (f : Tree → List String → Tree) : Prop extends IsEdit f where
  beside (t : Tree) (base rest : List String) (x : String) :
    Beside base x t (f t (base ++ x :: rest))

theorem isOrderly_set (new : Tree) : IsOrderly fun t names ↦ t.set names new :=
  ⟨isEdit_set new, fun t base rest x ↦ beside_set t base rest x new⟩

theorem isOrderly_remove : IsOrderly remove := ⟨isEdit_remove, beside_remove⟩

theorem IsOrderly.lists {base : List String} (hf : IsOrderly f) (h : ¬ place <+: base)
    (hl : t.Lists base) : (f t place).Lists base := by
  by_cases hbelow : base <+: place
  · obtain ⟨rest, rfl⟩ := hbelow
    cases rest with
    | nil => exact absurd (by simp) h
    | cons x rest => exact (hf.beside t base rest x).lists hl
  · intro entries he
    rw [hf.get?_of_apart ⟨h, hbelow⟩] at he
    exact hl entries he

inductive Edited (places : List (List String)) (t : Tree) : Tree → Prop
  | refl : Edited places t t
  | edit {u : Tree} {f : Tree → List String → Tree} {place : List String} (h : Edited places t u)
      (hf : IsOrderly f) (hmem : place ∈ places) : Edited places t (f u place)

variable {places : List (List String)}

theorem Edited.set {place : List String} (h : Edited places t u) (hmem : place ∈ places)
    (new : Tree) : Edited places t (u.set place new) := h.edit (isOrderly_set new) hmem

theorem Edited.remove {place : List String} (h : Edited places t u) (hmem : place ∈ places) :
    Edited places t (u.remove place) := h.edit isOrderly_remove hmem

theorem Edited.get?_eq (h : Edited places t u) (hp : ∀ place ∈ places, Apart place names) :
    u.get? names = t.get? names := by
  induction h with
  | refl => rfl
  | edit h hf hmem ih => rw [hf.get?_of_apart (hp _ hmem), ih]

theorem Edited.get?_file_iff (h : Edited places t u) (hp : ∀ place ∈ places, ¬ place <+: names) :
    u.get? names = some (file bytes) ↔ t.get? names = some (file bytes) := by
  induction h with
  | refl => rfl
  | edit h hf hmem ih => rw [hf.get?_file_iff (hp _ hmem), ih]

theorem Edited.lists {base : List String} (h : Edited places t u)
    (hp : ∀ place ∈ places, ¬ place <+: base) (hl : t.Lists base) : u.Lists base := by
  induction h with
  | refl => exact hl
  | edit h hf hmem ih => exact hf.lists (hp _ hmem) ih

theorem Edited.eq_of_nil (h : Edited [] t u) : u = t := by
  cases h with
  | refl => rfl
  | edit h hf hmem => cases hmem

end Edit

def fileAt? (t : Tree) (names : List String) : Option ByteArray :=
  match t.get? names with
  | some (file bytes) => some bytes
  | _ => none

theorem fileAt?_eq_some : t.fileAt? names = some bytes ↔ t.get? names = some (file bytes) := by
  unfold fileAt?
  cases t.get? names with
  | none => simp
  | some u => cases u <;> simp

theorem fileAt?_congr
    (h : ∀ bytes, u.get? names = some (file bytes) ↔ t.get? names = some (file bytes)) :
    u.fileAt? names = t.fileAt? names :=
  Option.ext fun bytes ↦ by rw [fileAt?_eq_some, fileAt?_eq_some, h]

theorem get?_set_bare (hnone : root.get? place = none) (h : ¬ names <+: place) :
    (root.set place (dir [])).get? names = root.get? names := by
  by_cases hbelow : place <+: names
  · obtain ⟨rest, rfl⟩ := hbelow
    rw [get?_eq_none_of_append hnone, get?_append]
    cases rest with
    | nil => exact absurd (by simp) h
    | cons name rest =>
      refine Option.bind_eq_none_iff.2 fun u hu ↦ ?_
      rcases List.eq_nil_or_concat' place with rfl | ⟨base, x, rfl⟩
      · cases hnone
      · rw [get?_append, (isEdit_set _).get?_above] at hu
        obtain ⟨v, hv, hu⟩ := Option.bind_eq_some_iff.1 hu
        obtain ⟨w, -, rfl⟩ := Option.map_eq_some_iff.1 hv
        cases w with
        | file bytes => simp [set, get?] at hu
        | dir entries =>
          rw [set, get?_dir_cons, find_put, if_pos rfl] at hu
          obtain rfl : dir [] = u := by simpa [get?] using hu
          simp [get?, find]
  · exact (isEdit_set _).get?_of_apart ⟨hbelow, h⟩ root

end Tree

namespace Path

/-- The path leads to some place or below it, and to get there it leads through another way. -/
structure Within (way places : List (List String)) (p : Path) : Prop where
  below : ∃ place ∈ places, place <+: p.names
  trail : ∀ m ∈ p.trail, m ∈ way ∨ ∃ place ∈ places, place <+: m

variable {way places : List (List String)} {p d : Path} {s : String}

theorem within_of_mem (hway : p.trail ⊆ way) (hmem : p.names ∈ places) : p.Within way places :=
  ⟨⟨_, hmem, List.prefix_rfl⟩, fun _ hm ↦ .inl (hway hm)⟩

theorem within_join (hs : IsName s.toList) (hway : d.trail ⊆ way)
    (hmem : d.names ++ [s] ∈ places) : (d.join s).Within way places := by
  refine ⟨⟨_, hmem, d.names_join hs ▸ List.prefix_rfl⟩, fun m hm ↦ ?_⟩
  rw [trail_join d hs, List.mem_append, List.mem_singleton] at hm
  refine hm.imp (hway ·) ?_
  rintro rfl
  exact ⟨_, hmem, List.prefix_rfl⟩

theorem Within.join (h : d.Within way places) (hs : IsName s.toList) :
    (d.join s).Within way places := by
  obtain ⟨place, hmem, hp⟩ := h.below
  have hbelow : place <+: d.names ++ [s] := hp.trans (List.prefix_append _ _)
  refine ⟨⟨place, hmem, d.names_join hs ▸ hbelow⟩, fun m hm ↦ ?_⟩
  rw [trail_join d hs, List.mem_append, List.mem_singleton] at hm
  refine hm.elim (h.trail m) ?_
  rintro rfl
  exact .inr ⟨place, hmem, hbelow⟩

theorem Within.mono {way' places' : List (List String)} (h : p.Within way places)
    (hway : way ⊆ way') (hplaces : places ⊆ places') : p.Within way' places' where
  below := by
    obtain ⟨place, hmem, hp⟩ := h.below
    exact ⟨place, hplaces hmem, hp⟩
  trail m hm := by
    refine (h.trail m hm).imp (hway ·) ?_
    rintro ⟨place, hmem, hp⟩
    exact ⟨place, hplaces hmem, hp⟩

end Path

namespace DiskOp

variable {root root' : Tree} {op : DiskOp} {answer : op.Answer} {names : List String}
  {t : Option Tree}

/-- The places where an operation can put or remove something, apart from making directories. -/
def edits : DiskOp → List (List String)
  | .write p _ => [p.names]
  | .append p _ => [p.names]
  | .removeTree p => [p.names]
  | .removeFile p => [p.names]
  | .rename source target => [source.names, target.names]
  | _ => []

def made : DiskOp → List (List String)
  | .makeDirs p => p.trail
  | _ => []

theorem edited_change {p : Path} {f : Option ByteArray → ByteArray}
    (h : change root p f = .ok root') : Tree.Edited [p.names] root root' := by
  obtain ⟨-, -, ⟨old, -, rfl⟩ | ⟨-, rfl⟩⟩ := change_eq_ok_iff.1 h
  · exact .set .refl (List.mem_singleton.2 rfl) _
  · exact .set .refl (List.mem_singleton.2 rfl) _

theorem edited_move {source target : Path} (h : move root source target = .ok root') :
    Tree.Edited [source.names, target.names] root root' := by
  rcases move_eq_ok h with ⟨-, rfl⟩ | ⟨-, t, -, rfl⟩
  · exact .refl
  · exact .set (.remove .refl (by simp)) (by simp) t

theorem edited_removeAll (root : Tree) (p : Path) :
    Tree.Edited [p.names] root (removeAll root p).2 := by
  unfold removeAll
  split
  · exact .refl
  · exact .refl
  · next names entries hat =>
    obtain ⟨rfl, -⟩ := Tree.at?_eq_ok hat
    have hemptied : Tree.Edited [p.names] root (root.set p.names (.dir [])) :=
      .set .refl (List.mem_singleton.2 rfl) _
    dsimp only
    split
    · exact .remove .refl (List.mem_singleton.2 rfl)
    · exact hemptied
    · exact hemptied
    · exact hemptied

theorem edited_unlink {p : Path} (h : unlink root p = .ok root') :
    Tree.Edited [p.names] root root' := by
  obtain ⟨⟨names, t⟩, hat, h⟩ := bind_eq_ok.1 h
  obtain ⟨rfl, -⟩ := Tree.at?_eq_ok hat
  cases t with
  | dir entries => cases h
  | file bytes =>
    cases h
    exact .remove .refl (List.mem_singleton.2 rfl)

theorem edited_commit {places : List (List String)} {changed : Except DiskError Tree}
    {answer : Except DiskError Unit} (h : commit root changed = (answer, root'))
    (hchanged : ∀ new, changed = .ok new → Tree.Edited places root new) :
    Tree.Edited places root root' := by
  cases changed with
  | error e =>
    cases h
    exact .refl
  | ok new =>
    cases h
    exact hchanged _ rfl

/-- What was done when an operation has answered, whether it failed or not. -/
theorem Yields.edited (hy : op.Yields root answer root') :
    Tree.Edited op.edits root root' ∨
      ∃ (p : Path) (n : Nat), op = .makeDirs p ∧
        root' = (addDirs root [] (p.steps.take n)).2 := by
  cases op with
  | read p =>
    rcases hy with hrun | ⟨-, rfl⟩
    · obtain ⟨-, rfl⟩ := Prod.mk.inj hrun
      exact .inl .refl
    · exact .inl .refl
  | list p =>
    rcases hy with hrun | ⟨-, rfl⟩
    · obtain ⟨-, rfl⟩ := Prod.mk.inj hrun
      exact .inl .refl
    · exact .inl .refl
  | find p =>
    rcases hy with hrun | ⟨-, rfl⟩
    · obtain ⟨-, rfl⟩ := Prod.mk.inj hrun
      exact .inl .refl
    · exact .inl .refl
  | write p bytes =>
    rcases hy with hrun | ⟨-, rfl | ⟨bytes', hc⟩⟩
    · exact .inl (edited_commit hrun fun _ hc ↦ edited_change hc)
    · exact .inl .refl
    · exact .inl (edited_change hc)
  | append p bytes =>
    rcases hy with hrun | ⟨-, rfl | ⟨bytes', hc⟩⟩
    · exact .inl (edited_commit hrun fun _ hc ↦ edited_change hc)
    · exact .inl .refl
    · exact .inl (edited_change hc)
  | makeDirs p =>
    right
    rcases hy with hrun | ⟨-, n, rfl⟩
    · have hroot : (makeAll root p).2 = root' := congrArg Prod.snd hrun
      unfold makeAll at hroot
      split at hroot
      · exact ⟨p, 0, rfl, by rw [← hroot, List.take_zero, addDirs]⟩
      split at hroot
      · exact ⟨p, 0, rfl, by rw [← hroot, List.take_zero, addDirs]⟩
      · exact ⟨p, p.steps.length, rfl, by rw [List.take_length, hroot]⟩
    · exact ⟨p, n, rfl, rfl⟩
  | removeTree p =>
    left
    rcases hy with hrun | ⟨-, rfl | ⟨names, entries, entries', hat, rfl⟩⟩
    · obtain rfl : (removeAll root p).2 = root' := congrArg Prod.snd hrun
      exact edited_removeAll root p
    · exact .refl
    · obtain ⟨rfl, -⟩ := Tree.at?_eq_ok hat
      exact .set .refl (List.mem_singleton.2 rfl) _
  | removeFile p =>
    rcases hy with hrun | ⟨-, rfl⟩
    · exact .inl (edited_commit hrun fun _ hc ↦ edited_unlink hc)
    · exact .inl .refl
  | rename source target =>
    rcases hy with hrun | ⟨-, rfl⟩
    · exact .inl (edited_commit hrun fun _ hc ↦ edited_move hc)
    · exact .inl .refl

/-- Making directories on the way through some steps changes no place that the way does not lead to,
nor one that is there already and that it does not lead below. -/
theorem get?_addDirs_eq {done steps : List String}
    (h : ∀ place ∈ Path.trailFrom done steps, names <+: place →
      place = names ∧ root.get? names ≠ none) :
    (addDirs root done.reverse steps).2.get? names = root.get? names := by
  induction steps generalizing root done with
  | nil => rfl
  | cons name steps ih =>
    have hrest : ∀ place ∈ Path.trailFrom (Path.back done name) steps, names <+: place →
        place = names ∧ root.get? names ≠ none := fun place hmem ↦ h place (.tail _ hmem)
    rw [addDirs]
    unfold Path.back at hrest
    split
    · next hback =>
      rw [if_pos hback] at hrest
      have hdone : done.reverse.take (done.reverse.length - 1) = (done.drop 1).reverse := by
        rw [List.length_reverse, List.reverse_drop]
      rw [hdone]
      exact ih hrest
    · next hback =>
      rw [if_neg hback] at hrest
      rw [← List.reverse_cons]
      split
      · rfl
      dsimp only
      split
      · exact ih hrest
      · rfl
      · next hnone =>
        have hmem : (name :: done).reverse ∈ Path.trailFrom (name :: done) steps := by
          cases steps <;> simp [Path.trailFrom]
        have hplace : ¬ names <+: (name :: done).reverse := by
          intro hp
          obtain ⟨he, hthere⟩ := hrest _ hmem hp
          exact hthere (he ▸ hnone)
        have hset := Tree.get?_set_bare hnone hplace
        rw [← hset]
        exact ih (by rwa [hset])

structure Spares (names : List String) (t : Option Tree) (op : DiskOp) : Prop where
  edits : ∀ place ∈ op.edits, Tree.Apart place names
  made : ∀ place ∈ op.made, names <+: place → place = names ∧ t ≠ none

theorem Spares.get?_eq (h : Spares names t op) (ht : root.get? names = t)
    (hy : op.Yields root answer root') : root'.get? names = t := by
  subst ht
  rcases hy.edited with hedited | ⟨p, n, rfl, rfl⟩
  · exact hedited.get?_eq h.edits
  · exact @get?_addDirs_eq _ _ [] _ fun place hmem ↦ h.made place (Path.mem_trailFrom_take hmem)

theorem fileAt?_eq_of_yields (h : ∀ place ∈ op.edits, ¬ place <+: names)
    (hy : op.Yields root answer root') : root'.fileAt? names = root.fileAt? names := by
  refine Tree.fileAt?_congr fun bytes ↦ ?_
  rcases hy.edited with hedited | ⟨p, n, rfl, rfl⟩
  · exact hedited.get?_file_iff h
  · exact ⟨get?_addDirs, (keeps_addDirs root [] _ names).file bytes⟩

def paths : DiskOp → List Path
  | .rename source target => [source, target]
  | .read p | .list p | .find p | .write p _ | .append p _ | .makeDirs p | .removeTree p
  | .removeFile p => [p]

theorem exists_path_of_mem_edits (h : names ∈ op.edits) :
    op.made = [] ∧ ∃ p ∈ op.paths, p.names = names := by
  cases op <;> simp_all [edits, made, paths, eq_comm]

/-- The operation is about what is at some places or below them. The way there leads through some
other places, where it may make directories. -/
inductive Within (way places : List (List String)) : DiskOp → Prop
  | work {op : DiskOp} (hmade : op.made = []) (h : ∀ p ∈ op.paths, p.Within way places) :
      Within way places op
  | makeDirs {p : Path} (h : ∀ m ∈ p.trail, m ∈ way ∨ ∃ place ∈ places, place <+: m) :
      Within way places (.makeDirs p)

section Within

variable {way places : List (List String)} {p q : Path}

theorem within_of_path (hmade : op.made = []) (hpaths : op.paths = [p])
    (h : p.Within way places) : op.Within way places :=
  .work hmade (by simpa [hpaths] using h)

theorem within_rename (hp : p.Within way places) (hq : q.Within way places) :
    (rename p q).Within way places :=
  .work rfl (by simpa [paths] using ⟨hp, hq⟩)

theorem Within.edits (h : op.Within way places) :
    ∀ e ∈ op.edits, ∃ place ∈ places, place <+: e := by
  intro e he
  obtain ⟨hmade, p, hp, rfl⟩ := exists_path_of_mem_edits he
  cases h with
  | work _ h => exact (h p hp).below
  | makeDirs h => cases he

theorem Within.made (h : op.Within way places) :
    ∀ m ∈ op.made, m ∈ way ∨ ∃ place ∈ places, place <+: m := by
  cases h with
  | work hmade h => simp [hmade]
  | makeDirs h => exact h

theorem Within.spares (h : op.Within way places)
    (hplaces : ∀ place ∈ places, Tree.Apart place names)
    (hway : ∀ place ∈ way, names <+: place → place = names ∧ t ≠ none) : op.Spares names t where
  edits e he := by
    obtain ⟨place, hmem, rest, rfl⟩ := h.edits e he
    exact (hplaces place hmem).append rest
  made m hm hp := by
    rcases h.made m hm with hmem | ⟨place, hmem, rest, rfl⟩
    · exact hway m hmem hp
    · exact absurd hp ((hplaces place hmem).append rest).2

theorem Within.not_prefix (h : op.Within way places)
    (hplaces : ∀ place ∈ places, ¬ place <+: names) : ∀ e ∈ op.edits, ¬ e <+: names := by
  intro e he hp
  obtain ⟨place, hmem, hplace⟩ := h.edits e he
  exact hplaces place hmem (hplace.trans hp)

theorem Within.mono {way' places' : List (List String)} (h : op.Within way places)
    (hway : way ⊆ way') (hplaces : places ⊆ places') : op.Within way' places' := by
  cases h with
  | work hmade h => exact .work hmade fun p hp ↦ (h p hp).mono hway hplaces
  | makeDirs h =>
    refine .makeDirs fun m hm ↦ (h m hm).imp (hway ·) ?_
    rintro ⟨place, hmem, hp⟩
    exact ⟨place, hplaces hmem, hp⟩

end Within

def IsLook (op : DiskOp) : Prop := op.edits = [] ∧ op.made = []

theorem eq_of_yields (hedits : op.edits = []) (hmade : op.made = [])
    (hy : op.Yields root answer root') : root' = root := by
  rcases hy.edited with hedited | ⟨p, n, rfl, rfl⟩
  · rw [hedits] at hedited
    exact hedited.eq_of_nil
  · exact absurd (p.names_mem_trail) (by rw [show p.trail = [] from hmade]; exact List.not_mem_nil)

end DiskOp

namespace Script

variable {α β ε : Type} {P : DiskOp → Prop} {root root' : Tree}

/-- All the operations of a script are of some kind, whatever is answered to them. -/
inductive Only (P : DiskOp → Prop) : Script α → Prop
  | done (a : α) : Only P (.done a)
  | perform {op : DiskOp} {next : op.Answer → Script α} (hop : P op)
      (h : ∀ answer, Only P (next answer)) : Only P (.perform op next)

theorem only_pure (a : α) : Only P (pure a) := .done a

theorem only_step {op : DiskOp} (h : P op) : Only P (step op) := .perform h fun _ ↦ .done _

theorem Only.bind {s : Script α} {f : α → Script β} (h : Only P s) (hf : ∀ a, Only P (f a)) :
    Only P (s >>= f) := by
  induction h with
  | done a => exact hf a
  | perform hop _ ih => exact .perform hop ih

theorem Only.imp {Q : DiskOp → Prop} {s : Script α} (h : Only P s) (himp : ∀ op, P op → Q op) :
    Only Q s := by
  induction h with
  | done a => exact .done a
  | perform hop _ ih => exact .perform (himp _ hop) ih

/-- What every operation keeps is kept all the way. -/
theorem Only.inv_of_reaches {inv : Tree → Prop} {s s' : Script α} (h : Only P s)
    (hstep : ∀ (op : DiskOp) root (answer : op.Answer) root', P op → inv root →
      op.Yields root answer root' → inv root') (hi : inv root) (hr : Reaches s root s' root') :
    inv root' := by
  induction hr with
  | here s root => exact hi
  | step hy _ ih =>
    cases h with
    | perform hop h => exact ih (h _) (hstep _ _ _ _ hop hi hy)

/-- Work at some places leaves alone what is apart from them. -/
theorem Only.get?_eq {way places : List (List String)} {names : List String} {s s' : Script α}
    (h : Only (DiskOp.Within way places) s) (hplaces : ∀ place ∈ places, Tree.Apart place names)
    (hway : ∀ place ∈ way, names <+: place → place = names ∧ root.get? names ≠ none)
    (hr : Reaches s root s' root') : root'.get? names = root.get? names := by
  refine @Only.inv_of_reaches _ _ _ _ (fun r ↦ r.get? names = root.get? names) _ _ h ?_ rfl hr
  intro op root₁ answer root₂ hop hget hy
  exact (hop.spares hplaces hway).get?_eq hget hy

/-- Work at some places leaves a file alone that is neither at them nor below. -/
theorem Only.fileAt?_eq {way places : List (List String)} {names : List String} {s s' : Script α}
    (h : Only (DiskOp.Within way places) s) (hplaces : ∀ place ∈ places, ¬ place <+: names)
    (hr : Reaches s root s' root') : root'.fileAt? names = root.fileAt? names := by
  refine @Only.inv_of_reaches _ _ _ _ (fun r ↦ r.fileAt? names = root.fileAt? names) _ _ h ?_ rfl hr
  intro op root₁ answer root₂ hop hget hy
  rw [DiskOp.fileAt?_eq_of_yields (hop.not_prefix hplaces) hy, hget]

theorem Only.eq_of_reaches {s s' : Script α} (h : Only DiskOp.IsLook s)
    (hr : Reaches s root s' root') : root' = root := by
  refine @Only.inv_of_reaches _ _ _ _ (fun r ↦ r = root) _ _ h
    (fun op root₁ answer root₂ hop hi hy ↦ ?_)
    rfl hr
  rw [DiskOp.eq_of_yields hop.1 hop.2 hy, hi]

theorem only_readText (p : Path) : Only DiskOp.IsLook (readText p) := by
  refine Only.bind (only_step ⟨rfl, rfl⟩) fun answer ↦ ?_
  cases answer with
  | error e => exact only_pure _
  | ok bytes =>
    dsimp only
    cases String.fromUTF8? bytes <;> exact only_pure _

def OnlyOr (P : DiskOp → Prop) (s : OrFail ε α) : Prop := Only P s.run

theorem onlyOr_pure (a : α) : OnlyOr P (pure a : OrFail ε α) := .done _

theorem onlyOr_throw (e : ε) : OnlyOr P (throw e : OrFail ε α) := .done _

theorem OnlyOr.bind {s : OrFail ε α} {f : α → OrFail ε β} (h : OnlyOr P s)
    (hf : ∀ a, OnlyOr P (f a)) : OnlyOr P (s >>= f) := by
  refine Only.bind h fun result ↦ ?_
  cases result with
  | ok a => exact hf a
  | error e => exact .done _

theorem onlyOr_lift {s : Script α} (h : Only P s) : OnlyOr P (liftM s : OrFail ε α) :=
  Only.bind h fun _ ↦ .done _

theorem onlyOr_orElse {s : Script (Except DiskError α)} {f : DiskError → ε} (h : Only P s) :
    OnlyOr P (orElse s f) :=
  Only.bind h fun _ ↦ .done _

end Script

end Multicloud

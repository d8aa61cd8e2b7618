import Multicloud.Proofs.Disk.Fault
import Multicloud.Proofs.Disk.Frame

namespace Multicloud

namespace Tree

variable {t u new root root' root'' : Tree} {entries : List (String × Tree)}
  {base names names' rest : List String} {name x y : String} {bytes : ByteArray} {p : Path}

theorem get?_append (t : Tree) (names names' : List String) :
    t.get? (names ++ names') = (t.get? names).bind fun u ↦ u.get? names' := by
  induction names generalizing t with
  | nil => rfl
  | cons name names ih =>
    cases t with
    | file bytes => rfl
    | dir entries =>
      rw [List.cons_append, get?_dir_cons, get?_dir_cons]
      cases find name entries with
      | none => rfl
      | some u => exact ih u

theorem get?_eq_none_of_append (h : t.get? names = none) (rest : List String) :
    t.get? (names ++ rest) = none := by
  rw [get?_append, h, Option.bind_none]

section Edit

variable {f : Tree → List String → Tree}

theorem IsEdit.get?_above (hf : IsEdit f) (t : Tree) (base : List String) (x : String)
    (rest : List String) :
    (f t (base ++ x :: rest)).get? base = (t.get? base).map fun u ↦ f u (x :: rest) := by
  induction base generalizing t with
  | nil => rfl
  | cons name base ih =>
    obtain ⟨n, names, hn⟩ := List.exists_cons_of_ne_nil (l := base ++ x :: rest) (by simp)
    rw [List.cons_append, hn]
    cases t with
    | file bytes =>
      rw [hf.file]
      rfl
    | dir entries =>
      cases hfind : find name entries with
      | none =>
        rw [hf.absent hfind, get?_dir_cons, hfind]
        rfl
      | some u =>
        rw [hf.below hfind, get?_dir_cons, get?_dir_cons, find_put, if_pos rfl, hfind,
          Option.bind_some, Option.bind_some, ← hn, ih u]

theorem IsEdit.get?_singleton_of_ne (hf : IsEdit f) (h : y ≠ x) (u : Tree) (rest : List String) :
    (f u (x :: rest)).get? [y] = u.get? [y] := by
  cases u with
  | file bytes => rw [hf.file]
  | dir entries =>
    cases rest with
    | nil =>
      obtain ⟨entries', he, hfind⟩ := hf.last entries x
      rw [he, get?_dir_cons, get?_dir_cons, hfind y h.symm]
    | cons n rest =>
      cases hfind : find x entries with
      | none => rw [hf.absent hfind]
      | some u => rw [hf.below hfind, get?_dir_cons, get?_dir_cons, find_put, if_neg h.symm]

/-- An edit of one entry of a directory, or below it, changes no other entry. -/
theorem IsEdit.get?_beside (hf : IsEdit f) (h : y ≠ x) (t : Tree) (base rest : List String) :
    (f t (base ++ x :: rest)).get? (base ++ [y]) = t.get? (base ++ [y]) := by
  rw [get?_append, hf.get?_above, get?_append]
  cases t.get? base with
  | none => rfl
  | some u => exact hf.get?_singleton_of_ne h u rest

end Edit

/-- The directory, if it is one, lists its names in order, each of them once. -/
def Lists (t : Tree) (base : List String) : Prop :=
  ∀ entries, t.get? base = some (dir entries) → (entries.map Prod.fst).Pairwise (· < ·)

instance (t : Tree) (base : List String) : Decidable (t.Lists base) :=
  match h : t.get? base with
  | some (dir entries) =>
    decidable_of_iff ((entries.map Prod.fst).Pairwise (· < ·)) (by simp [Lists, h])
  | some (file bytes) => isTrue (by simp [Lists, h])
  | none => isTrue (by simp [Lists, h])

theorem mem_map_fst_put (entries : List (String × Tree)) :
    x ∈ (put name t entries).map Prod.fst ↔ x = name ∨ x ∈ entries.map Prod.fst := by
  induction entries with
  | nil => simp [put]
  | cons e entries ih =>
    obtain ⟨n, u⟩ := e
    unfold put
    split
    · next hn => simp [hn]
    split
    · simp
    · simp only [List.map_cons, List.mem_cons, ih]
      tauto

theorem pairwise_put (h : (entries.map Prod.fst).Pairwise (· < ·)) (name : String) (t : Tree) :
    ((put name t entries).map Prod.fst).Pairwise (· < ·) := by
  induction entries with
  | nil => simp [put]
  | cons e entries ih =>
    obtain ⟨n, u⟩ := e
    obtain ⟨hn, htail⟩ := List.pairwise_cons.1 h
    unfold put
    split
    · next he => exact he ▸ h
    split
    · next hlt =>
      refine List.pairwise_cons.2 ⟨fun x hx ↦ ?_, h⟩
      rcases List.mem_cons.1 hx with rfl | hx
      · exact hlt
      · exact String.lt_trans hlt (hn x hx)
    · next hne hnlt =>
      refine List.pairwise_cons.2 ⟨fun x hx ↦ ?_, ih htail⟩
      rcases (mem_map_fst_put entries).1 hx with rfl | hx
      · exact Std.lt_of_le_of_ne (String.not_lt.1 hnlt) hne
      · exact hn x hx

theorem erase_sublist (name : String) (entries : List (String × Tree)) :
    (erase name entries).Sublist entries := by
  induction entries with
  | nil => exact .slnil
  | cons e entries ih =>
    obtain ⟨n, u⟩ := e
    unfold erase
    split
    · exact List.sublist_cons_self _ _
    · exact ih.cons_cons _

theorem find_eq_none_of_not_mem (h : x ∉ entries.map Prod.fst) : find x entries = none := by
  induction entries with
  | nil => rfl
  | cons e entries ih =>
    obtain ⟨n, u⟩ := e
    obtain ⟨hne, h⟩ := List.ne_and_not_mem_of_not_mem_cons h
    rw [find, if_neg hne.symm, ih h]

theorem find_erase_self (h : (entries.map Prod.fst).Pairwise (· < ·)) (x : String) :
    find x (erase x entries) = none := by
  induction entries with
  | nil => rfl
  | cons e entries ih =>
    obtain ⟨n, u⟩ := e
    obtain ⟨hn, htail⟩ := List.pairwise_cons.1 h
    unfold erase
    split
    · next he =>
      refine find_eq_none_of_not_mem fun hx ↦ ?_
      exact String.lt_irrefl n (hn n (he ▸ hx))
    · next hne => rw [find, if_neg hne, ih htail]

/-- In a directory, only this entry differs. -/
structure Beside (base : List String) (x : String) (t u : Tree) : Prop where
  get?_eq : ∀ y, y ≠ x → u.get? (base ++ [y]) = t.get? (base ++ [y])
  lists : t.Lists base → u.Lists base

theorem Beside.refl (base : List String) (x : String) (t : Tree) : Beside base x t t :=
  ⟨fun _ _ ↦ rfl, id⟩

theorem Beside.trans {v : Tree} (h : Beside base x t u) (h' : Beside base x u v) :
    Beside base x t v :=
  ⟨fun y hy ↦ (h'.get?_eq y hy).trans (h.get?_eq y hy), fun hl ↦ h'.lists (h.lists hl)⟩

theorem lists_of_above {f : Tree → List String → Tree} (hf : IsEdit f)
    (hlast : ∀ entries entries', (entries.map Prod.fst).Pairwise (· < ·) →
      f (dir entries) [x] = dir entries' → (entries'.map Prod.fst).Pairwise (· < ·))
    (hl : t.Lists base) (rest : List String) : (f t (base ++ x :: rest)).Lists base := by
  intro entries' he
  rw [hf.get?_above] at he
  obtain ⟨u, hu, he⟩ := Option.map_eq_some_iff.1 he
  cases u with
  | file bytes =>
    rw [hf.file] at he
    cases he
  | dir entries =>
    have hsorted := hl entries hu
    cases rest with
    | nil => exact hlast entries entries' hsorted he
    | cons n rest =>
      cases hfind : find x entries with
      | none =>
        rw [hf.absent hfind] at he
        cases he
        exact hsorted
      | some w =>
        rw [hf.below hfind] at he
        cases he
        exact pairwise_put hsorted x _

theorem beside_set (t : Tree) (base rest : List String) (x : String) (new : Tree) :
    Beside base x t (t.set (base ++ x :: rest) new) := by
  refine ⟨fun y hy ↦ (isEdit_set new).get?_beside hy t base rest, fun hl ↦ ?_⟩
  refine lists_of_above (isEdit_set new) (fun entries entries' h he ↦ ?_) hl rest
  rw [set] at he
  cases he
  exact pairwise_put h x new

theorem beside_remove (t : Tree) (base rest : List String) (x : String) :
    Beside base x t (t.remove (base ++ x :: rest)) := by
  refine ⟨fun y hy ↦ isEdit_remove.get?_beside hy t base rest, fun hl ↦ ?_⟩
  refine lists_of_above isEdit_remove (fun entries entries' h he ↦ ?_) hl rest
  rw [remove] at he
  cases he
  exact h.sublist ((erase_sublist x entries).map Prod.fst)

theorem get?_remove_self (hl : t.Lists base) (x : String) :
    (t.remove (base ++ [x])).get? (base ++ [x]) = none := by
  rw [get?_append, isEdit_remove.get?_above]
  cases hu : t.get? base with
  | none => rfl
  | some u =>
    cases u with
    | file bytes => rfl
    | dir entries =>
      rw [Option.map_some, Option.bind_some, remove, get?_dir_cons, find_erase_self (hl entries hu)]
      rfl

end Tree

end Multicloud

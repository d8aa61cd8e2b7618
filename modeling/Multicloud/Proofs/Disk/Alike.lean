import Multicloud.Proofs.Disk.Way

namespace Multicloud

namespace Tree

variable {t root root' new : Tree} {names place base : List String} {x : String} {p : Path}
  {firm firm' way places : List (List String)}

/-- A directory may be there already. -/
def Grown (root root' : Tree) (m : List String) : Prop :=
  root'.kindAt m = root.kindAt m ∨ root.kindAt m = none ∧ root'.kindAt m = some true

theorem Grown.nil (h : Grown root root' []) : root'.kindAt [] = root.kindAt [] := by
  refine h.resolve_right fun ⟨hnone, _⟩ ↦ ?_
  cases kindAt_eq_none.1 hnone

/-- A disk is ahead of another one for some work: it has the same at the places of the work, and
what is firm on the way there is a directory on both or on none. At the rest of the way directories
may be there already. -/
structure Ahead (firm way places : List (List String)) (root root' : Tree) : Prop where
  get?_place : ∀ place ∈ places, root'.get? place = root.get? place
  kindAt_firm : ∀ m ∈ firm, root'.kindAt m = root.kindAt m
  grown_way : ∀ m ∈ way, Grown root root' m
  lists : ∀ base x, base ++ [x] ∈ places → root.Lists base ∧ root'.Lists base

/-- Two disks are alike for some work: they have the same at its places, and on the way there the
same places are directories. -/
abbrev Alike (way places : List (List String)) (root root' : Tree) : Prop :=
  Ahead way [] places root root'

theorem Alike.trans {root'' : Tree} (h : Alike way places root root')
    (h' : Alike way places root' root'') : Alike way places root root'' where
  get?_place place hmem := (h'.get?_place place hmem).trans (h.get?_place place hmem)
  kindAt_firm m hm := (h'.kindAt_firm m hm).trans (h.kindAt_firm m hm)
  grown_way := nofun
  lists base x hmem := ⟨(h.lists base x hmem).1, (h'.lists base x hmem).2⟩

theorem IsOrderly.alike {f : Tree → List String → Tree} (hf : IsOrderly f)
    (happart : ∀ place ∈ places, Apart names place) (hway : ∀ m ∈ way, ¬ names <+: m)
    (hlists : ∀ base x, base ++ [x] ∈ places → t.Lists base) :
    Alike way places t (f t names) where
  get?_place place hmem := hf.get?_of_apart (happart place hmem) t
  kindAt_firm m hm := hf.kindAt_eq (hway m hm) t
  grown_way := nofun
  lists base x hmem := ⟨hlists base x hmem, hf.lists
    (fun hp ↦ (happart _ hmem).1 (hp.trans (List.prefix_append _ _))) (hlists base x hmem)⟩

def Spread (places : List (List String)) : Prop :=
  ∀ place ∈ places, ∀ place' ∈ places, place ≠ place' → Apart place place'

instance (places : List (List String)) : Decidable (Spread places) :=
  inferInstanceAs (Decidable (∀ place ∈ places, ∀ place' ∈ places,
    place ≠ place' → Apart place place'))

/-- A directory made where nothing was leaves lists in order. -/
theorem lists_set_bare (hnone : t.get? names = none) (hl : t.Lists base) :
    (t.set names (dir [])).Lists base := by
  by_cases hbelow : base <+: names
  · obtain ⟨rest, rfl⟩ := hbelow
    cases rest with
    | nil =>
      intro entries he
      rw [List.append_nil] at he
      rcases List.eq_nil_or_concat' base with rfl | ⟨base, x, rfl⟩
      · cases he
        exact .nil
      · rw [get?_set_concat] at he
        split at he
        · cases he
          exact .nil
        · cases he
    | cons x rest => exact (beside_set t base rest x (dir [])).lists hl
  · intro entries he
    rw [get?_set_bare hnone hbelow] at he
    exact hl entries he

theorem clear_of_grown (hg : ∀ m ∈ p.trail, Grown root root' m) (hclear : root'.Clear p.trail) :
    root.Clear p.trail := by
  refine fun m hmem ↦ kindAt_ne_false.1 fun hfile ↦ ?_
  rcases hg m hmem with heq | ⟨hnone, -⟩
  · exact kindAt_ne_false.2 (hclear m hmem) (heq.trans hfile)
  · rw [hfile] at hnone
    cases hnone

theorem clear_of_descends (hd : p.Descends) (hg : ∀ m ∈ p.trail, Grown root root' m)
    (hmem : names ∈ p.trail) (hnone : root.get? names = none)
    (hdir : root'.kindAt names = some true) : root'.Clear p.trail := by
  refine fun m hm ↦ kindAt_ne_false.1 fun hfile ↦ ?_
  rcases List.prefix_or_prefix_of_prefix (hd.prefix_of_mem_trail hmem)
    (hd.prefix_of_mem_trail hm) with hp | hp
  · obtain ⟨rest, rfl⟩ := hp
    rcases hg _ hm with heq | ⟨-, hdir'⟩
    · rw [hfile, kindAt_eq_none.2 (get?_eq_none_of_append hnone rest)] at heq
      cases heq
    · rw [hfile] at hdir'
      cases hdir'
  · obtain ⟨entries, hget⟩ := kindAt_eq_true.1 hdir
    have hne : m ≠ names := fun he ↦ by rw [← he, hfile] at hdir; cases hdir
    obtain ⟨entries', hdir'⟩ := get?_dir_of_prefix hp hne hget
    rw [kindAt_eq_true.2 ⟨entries', hdir'⟩] at hfile
    cases hfile

namespace Ahead

variable (h : Ahead firm way places root root')

include h

theorem mono (hfirm : firm' ⊆ firm) : Ahead firm' way places root root' :=
  ⟨h.get?_place, fun m hm ↦ h.kindAt_firm m (hfirm hm), h.grown_way, h.lists⟩

theorem cons {m : List String} (hm : root'.kindAt m = root.kindAt m) :
    Ahead (m :: firm) way places root root' :=
  ⟨h.get?_place, List.forall_mem_cons.2 ⟨hm, h.kindAt_firm⟩, h.grown_way, h.lists⟩

theorem get?_eq (hp : ∃ place ∈ places, place <+: names) : root'.get? names = root.get? names := by
  obtain ⟨place, hmem, rest, rfl⟩ := hp
  rw [get?_append, h.get?_place place hmem, ← get?_append]

theorem kindAt_eq (hm : names ∈ firm ∨ ∃ place ∈ places, place <+: names) :
    root'.kindAt names = root.kindAt names := by
  rcases hm with hm | hp
  · exact h.kindAt_firm names hm
  · rw [kindAt, h.get?_eq hp, kindAt]

theorem grown (hm : names ∈ way ∨ names ∈ firm ∨ ∃ place ∈ places, place <+: names) :
    Grown root root' names :=
  hm.elim (h.grown_way names) fun hm ↦ .inl (h.kindAt_eq hm)

theorem place_eq (hp : ∀ m ∈ p.trail, m ∈ firm ∨ ∃ place ∈ places, place <+: m) :
    root'.place p = root.place p :=
  place_congr fun m hm ↦ h.kindAt_eq (hp m hm)

theorem at?_of_place (hp : ∃ place ∈ places, place <+: p.names)
    (hplace : root'.place p = root.place p) : root'.at? p = root.at? p := by
  unfold at?
  rw [hplace]
  cases hplaced : root.place p with
  | error e => rfl
  | ok names =>
    obtain rfl := place_eq_ok hplaced
    simp only [bind, Except.bind, h.get?_eq hp]

/-- What is found by a path that goes straight down is the same, also where only one disk has the
directories on the way: then nothing is at its end. -/
theorem at?_of_descends (hd : p.Descends) (hp : ∃ place ∈ places, place <+: p.names)
    (hm : ∀ m ∈ p.trail, m ∈ way ∨ m ∈ firm ∨ ∃ place ∈ places, place <+: m) :
    root'.at? p = root.at? p := by
  by_cases hsame : ∀ m ∈ p.trail, root'.kindAt m = root.kindAt m
  · exact h.at?_of_place hp (place_congr hsame)
  simp only [not_forall] at hsame
  obtain ⟨m, hmem, hne⟩ := hsame
  have hg (m) (hmem : m ∈ p.trail) : Grown root root' m := h.grown (hm m hmem)
  obtain ⟨hnone, hdir⟩ := (hg m hmem).resolve_left hne
  have hnone : root.get? m = none := kindAt_eq_none.1 hnone
  have hmissing : root.get? p.names = none := by
    obtain ⟨rest, hrest⟩ := hd.prefix_of_mem_trail hmem
    rw [← hrest]
    exact get?_eq_none_of_append hnone rest
  have hclear := clear_of_descends hd hg hmem hnone hdir
  exact at?_eq_of_missing hd.short (clear_of_grown hg hclear) hmissing hclear
    ((h.get?_eq hp).trans hmissing)

variable (hs : Spread places)

include hs

theorem edit {f : Tree → List String → Tree} (hf : IsOrderly f)
    (hp : ∃ place ∈ places, place <+: names)
    (hself : names ∈ places → (f root' names).get? names = (f root names).get? names) :
    Ahead firm way places (f root names) (f root' names) := by
  obtain ⟨place, hmem, hplace⟩ := hp
  have habove {q : List String} (hq : q ∈ places) (hqn : q <+: names) :
      (f root' names).get? q = (f root names).get? q := by
    obtain ⟨rest, rfl⟩ := hqn
    cases rest with
    | nil =>
      rw [List.append_nil] at hself ⊢
      exact hself hq
    | cons x rest => rw [hf.get?_above, hf.get?_above, h.get?_place q hq]
  have hbelow {q : List String} (hq : names <+: q) :
      (f root' names).get? q = (f root names).get? q := by
    obtain ⟨rest, rfl⟩ := hplace.trans hq
    rw [get?_append, habove hmem hplace, ← get?_append]
  refine ⟨fun q hq ↦ ?_, fun m hm ↦ ?_, fun m hm ↦ ?_, fun base x hbase ↦ ?_⟩
  · by_cases hqn : q <+: names
    · exact habove hq hqn
    by_cases hnq : names <+: q
    · exact hbelow hnq
    · rw [hf.get?_of_apart ⟨hnq, hqn⟩, hf.get?_of_apart ⟨hnq, hqn⟩, h.get?_place q hq]
  · by_cases hnm : names <+: m
    · rw [kindAt, hbelow hnm, kindAt]
    · rw [hf.kindAt_eq hnm, hf.kindAt_eq hnm, h.kindAt_firm m hm]
  · by_cases hnm : names <+: m
    · exact .inl (congrArg (Option.map isDir) (hbelow hnm))
    · rw [Grown, hf.kindAt_eq hnm, hf.kindAt_eq hnm]
      exact h.grown_way m hm
  · have hnot : ¬ names <+: base := by
      intro hn
      have hup : place <+: base ++ [x] := (hplace.trans hn).trans (List.prefix_append _ _)
      by_cases he : place = base ++ [x]
      · have hle := (hplace.trans hn).length_le
        rw [he, List.length_append, List.length_singleton] at hle
        omega
      · exact (hs place hmem _ hbase he).1 hup
    obtain ⟨hl, hl'⟩ := h.lists base x hbase
    exact ⟨hf.lists hnot hl, hf.lists hnot hl'⟩

theorem set (hp : ∃ place ∈ places, place <+: names)
    (hparent : ∀ base x, names = base ++ [x] → root'.kindAt base = root.kindAt base)
    (new : Tree) : Ahead firm way places (root.set names new) (root'.set names new) := by
  refine h.edit hs (isOrderly_set new) hp fun _ ↦ ?_
  rcases List.eq_nil_or_concat' names with rfl | ⟨base, x, rfl⟩
  · rfl
  · rw [get?_set_concat, get?_set_concat, hparent base x rfl]

theorem remove (hp : ∃ place ∈ places, place <+: names) :
    Ahead firm way places (root.remove names) (root'.remove names) := by
  refine h.edit hs isOrderly_remove hp fun hmem ↦ ?_
  rcases List.eq_nil_or_concat' names with rfl | ⟨base, x, rfl⟩
  · exact h.get?_place _ hmem
  · obtain ⟨hl, hl'⟩ := h.lists base x hmem
    rw [get?_remove_self hl, get?_remove_self hl']

theorem mkdir (hnone : root.get? (base ++ [x]) = none) (hnone' : root'.get? (base ++ [x]) = none)
    (hparent : root'.kindAt base = root.kindAt base) :
    Ahead ((base ++ [x]) :: firm) way places (root.set (base ++ [x]) (dir []))
      (root'.set (base ++ [x]) (dir [])) := by
  by_cases hp : ∃ place ∈ places, place <+: base ++ [x]
  · have hset := h.set hs hp (fun base' x' he ↦ by
      obtain ⟨rfl, -⟩ := List.append_singleton_inj.1 he
      exact hparent) (dir [])
    exact hset.cons (hset.kindAt_eq (.inr hp))
  have hplace (q) (hq : q ∈ places) : ¬ q <+: base ++ [x] := fun hqp ↦ hp ⟨q, hq, hqp⟩
  refine ⟨fun q hq ↦ ?_, List.forall_mem_cons.2 ⟨?_, fun m hm ↦ ?_⟩, fun m hm ↦ ?_,
    fun base' x' hmem ↦ ?_⟩
  · rw [get?_set_bare hnone (hplace q hq), get?_set_bare hnone' (hplace q hq), h.get?_place q hq]
  · rw [kindAt_set_bare hnone, kindAt_set_bare hnone', hparent, kindAt_eq_none.2 hnone,
      kindAt_eq_none.2 hnone']
  · rw [kindAt_set_bare hnone, kindAt_set_bare hnone', hparent, h.kindAt_firm m hm]
  · rw [Grown, kindAt_set_bare hnone, kindAt_set_bare hnone', hparent]
    split
    · exact .inl rfl
    · exact h.grown_way m hm
  · obtain ⟨hl, hl'⟩ := h.lists base' x' hmem
    exact ⟨lists_set_bare hnone hl, lists_set_bare hnone' hl'⟩

omit hs in
theorem catchUp (hnone : root.get? (base ++ [x]) = none)
    (hdir : root'.kindAt (base ++ [x]) = some true)
    (hparent : root'.kindAt base = root.kindAt base) :
    Ahead ((base ++ [x]) :: firm) way places (root.set (base ++ [x]) (dir [])) root' := by
  have hplace (q) (hq : q ∈ places) : ¬ q <+: base ++ [x] := by
    intro hp
    have hkind := h.kindAt_eq (.inr ⟨q, hq, hp⟩)
    rw [hdir, kindAt_eq_none.2 hnone] at hkind
    cases hkind
  have hbase : root.kindAt base = some true := by
    obtain ⟨entries, hget⟩ := kindAt_eq_true.1 hdir
    rw [← hparent, kindAt_eq_true]
    exact get?_dir_of_concat hget
  have hkind (m : List String) : (root.set (base ++ [x]) (dir [])).kindAt m =
      if m = base ++ [x] then root'.kindAt m else root.kindAt m := by
    rw [kindAt_set_bare hnone]
    by_cases hm : m = base ++ [x]
    · rw [if_pos ⟨hm, hbase⟩, if_pos hm, hm, hdir]
    · rw [if_neg (fun h ↦ hm h.1), if_neg hm]
  refine ⟨fun q hq ↦ ?_, List.forall_mem_cons.2 ⟨?_, fun m hm ↦ ?_⟩, fun m hm ↦ ?_,
    fun base' x' hmem ↦ ?_⟩
  · rw [get?_set_bare hnone (hplace q hq), h.get?_place q hq]
  · rw [hkind, if_pos rfl]
  · rw [hkind]
    split
    · rfl
    · exact h.kindAt_firm m hm
  · rw [Grown, hkind]
    split
    · exact .inl rfl
    · exact h.grown_way m hm
  · obtain ⟨hl, hl'⟩ := h.lists base' x' hmem
    exact ⟨lists_set_bare hnone hl, hl'⟩

end Ahead

end Tree

namespace DiskOp

open Multicloud.Tree (Ahead Alike Spread)

variable {root root' : Tree} {firm way places : List (List String)}

/-- Directories are made on two disks: with the same answer, and what has been made is firm from then
on. -/
structure Makes (firm way places trail : List (List String))
    (r r' : Except DiskError Unit × Tree) : Prop where
  answer : r'.1 = r.1
  ahead : Ahead firm way places r.2 r'.2
  made : r.1 = .ok () → Ahead (trail ++ firm) way places r.2 r'.2

theorem makes_error (h : Ahead firm way places root root') (trail : List (List String))
    (e : DiskError) : Makes firm way places trail (.error e, root) (.error e, root') :=
  ⟨rfl, h, nofun⟩

theorem Makes.cons {firm' trail : List (List String)} {m : List String}
    {r r' : Except DiskError Unit × Tree} (h : Makes firm' way places trail r r')
    (hfirm : firm ⊆ firm') (hm : m ∈ firm) : Makes firm way places (m :: trail) r r' where
  answer := h.answer
  ahead := h.ahead.mono hfirm
  made hok := (h.made hok).mono (List.cons_subset.2 ⟨List.mem_append_right _ (hfirm hm),
    List.append_subset.2 ⟨List.subset_append_left _ _,
      List.Subset.trans hfirm (List.subset_append_right _ _)⟩⟩)

theorem makes_addDirs (h : Ahead firm way places root root') (hs : Spread places)
    {done steps : List String} (hdone : ∀ m, m <+: done.reverse → m ∈ firm)
    (hm : ∀ m ∈ Path.trailFrom done steps,
      m ∈ way ∨ m ∈ firm ∨ ∃ place ∈ places, place <+: m) :
    Makes firm way places (Path.trailFrom done steps) (addDirs root done.reverse steps)
      (addDirs root' done.reverse steps) := by
  induction steps generalizing root root' firm done with
  | nil => exact ⟨rfl, h, fun _ ↦ h.cons (h.kindAt_firm _ (hdone _ List.prefix_rfl))⟩
  | cons name steps ih =>
    have hhere : done.reverse ∈ firm := hdone _ List.prefix_rfl
    have hparent := h.kindAt_firm _ hhere
    have hrest : ∀ m ∈ Path.trailFrom (Path.back done name) steps,
        m ∈ way ∨ m ∈ firm ∨ ∃ place ∈ places, place <+: m := fun m hmem ↦ hm m (.tail _ hmem)
    rw [addDirs_cons, addDirs_cons, Path.trailFrom]
    unfold Path.back at hrest ⊢
    split
    · next hback =>
      rw [if_pos hback] at hrest
      have hprefix : (done.drop 1).reverse <+: done.reverse :=
        List.reverse_prefix.2 (List.drop_suffix 1 done)
      exact (ih h (fun m hp ↦ hdone m (hp.trans hprefix)) hrest).cons (List.Subset.refl _) hhere
    next hback =>
    rw [if_neg hback] at hrest
    split
    · exact makes_error h _ _
    have hnext := hrest (name :: done).reverse (by cases steps <;> simp [Path.trailFrom])
    -- The rest of the way, once the next place is firm.
    have hgo {t t' : Tree} (ht : Ahead ((name :: done).reverse :: firm) way places t t') :
        Makes firm way places (done.reverse :: Path.trailFrom (name :: done) steps)
          (addDirs t (name :: done).reverse steps) (addDirs t' (name :: done).reverse steps) := by
      refine (ih ht (fun m hp ↦ ?_) fun m hmem ↦ (hrest m hmem).imp_right fun hm ↦
        hm.imp_left (.tail _)).cons (List.subset_cons_self _ _) hhere
      rw [List.reverse_cons] at hp ⊢
      rcases List.prefix_concat_iff.1 hp with rfl | hp
      · exact .head _
      · exact .tail _ (hdone m hp)
    rw [List.reverse_cons] at hnext hgo ⊢
    rcases h.grown hnext with hkind | ⟨hnone, hdir⟩
    · rw [hkind]
      split
      · exact hgo (h.cons hkind)
      · exact makes_error h _ _
      · next hnone =>
        rw [hnone] at hkind
        exact hgo (h.mkdir hs (Tree.kindAt_eq_none.1 hnone) (Tree.kindAt_eq_none.1 hkind) hparent)
    · rw [hnone, hdir]
      exact hgo (h.catchUp (Tree.kindAt_eq_none.1 hnone) hdir hparent)

theorem makes_makeAll (h : Ahead firm way places root root') (hs : Spread places) {p : Path}
    (hm : ∀ m ∈ p.trail, m ∈ way ∨ m ∈ firm ∨ ∃ place ∈ places, place <+: m) :
    Makes firm way places p.trail (makeAll root p) (makeAll root' p) := by
  unfold makeAll
  split
  · exact makes_error h _ _
  split
  · exact makes_error h _ _
  have hroot := h.cons (h.grown (hm [] p.nil_mem_trail)).nil
  obtain ⟨hanswer, hahead, hmade⟩ := @makes_addDirs _ _ _ _ _ hroot hs [] p.steps
    (fun m hp ↦ List.prefix_nil.1 hp ▸ .head _)
    fun m hmem ↦ (hm m hmem).imp_right fun hm ↦ hm.imp_left (.tail _)
  have hfirm : firm ⊆ [] :: firm := List.subset_cons_self _ _
  refine ⟨hanswer, hahead.mono hfirm, fun hok ↦ (hmade hok).mono ?_⟩
  exact List.append_subset.2
    ⟨List.subset_append_left _ _, List.Subset.trans hfirm (List.subset_append_right _ _)⟩

section Work

variable {p source target : Path} {c c' : Except DiskError Tree}

/-- Changes of the two disks: the same error, or one is ahead of the other again. -/
inductive Changed (firm way places : List (List String)) :
    Except DiskError Tree → Except DiskError Tree → Prop
  | error (e : DiskError) : Changed firm way places (.error e) (.error e)
  | ok {t t' : Tree} (h : Ahead firm way places t t') : Changed firm way places (.ok t) (.ok t')

variable (h : Ahead firm way places root root')

include h

theorem commit_ahead (hc : Changed firm way places c c') :
    (commit root' c').1 = (commit root c).1 ∧
      Ahead firm way places (commit root c).2 (commit root' c').2 := by
  cases hc with
  | error e => exact ⟨rfl, h⟩
  | ok hnew => exact ⟨rfl, hnew⟩

variable (hs : Spread places) (hp : ∃ place ∈ places, place <+: p.names)

include hs hp

theorem set_ahead (hplace : root.place p = .ok p.names) (hplace' : root'.place p = .ok p.names)
    (new : Tree) : Ahead firm way places (root.set p.names new) (root'.set p.names new) := by
  refine h.set hs hp (fun base x he ↦ ?_) new
  rw [he] at hplace hplace'
  rw [Tree.kindAt_eq_true.2 (Tree.get?_dir_of_place hplace),
    Tree.kindAt_eq_true.2 (Tree.get?_dir_of_place hplace')]

theorem change_ahead (hplace : root'.place p = root.place p)
    (f : Option ByteArray → ByteArray) :
    Changed firm way places (change root p f) (change root' p f) := by
  unfold change
  rw [hplace]
  cases hplaced : root.place p with
  | error e => exact .error e
  | ok names =>
    obtain rfl := Tree.place_eq_ok hplaced
    have hset := set_ahead h hs hp hplaced (hplace.trans hplaced)
    simp only [bind, Except.bind, h.get?_eq hp]
    split
    · exact .error _
    · split
      · exact .error _
      · exact .ok (hset _)
    · split
      · exact .error _
      · exact .ok (hset _)

theorem unlink_ahead (hat : root'.at? p = root.at? p) :
    Changed firm way places (unlink root p) (unlink root' p) := by
  unfold unlink
  rw [hat]
  cases hfound : root.at? p with
  | error e => exact .error e
  | ok r =>
    obtain ⟨names, t⟩ := r
    obtain ⟨rfl, -⟩ := Tree.at?_eq_ok hfound
    cases t with
    | file bytes => exact .ok (h.remove hs hp)
    | dir entries => exact .error _

theorem removeAll_ahead (hat : root'.at? p = root.at? p) :
    (removeAll root' p).1 = (removeAll root p).1 ∧
      Ahead firm way places (removeAll root p).2 (removeAll root' p).2 := by
  unfold removeAll
  rw [hat]
  cases hfound : root.at? p with
  | error e => exact ⟨rfl, h⟩
  | ok r =>
    obtain ⟨names, t⟩ := r
    obtain ⟨rfl, -⟩ := Tree.at?_eq_ok hfound
    cases t with
    | file bytes => exact ⟨rfl, h⟩
    | dir entries =>
      have hfound' := hat.trans hfound
      have hset := set_ahead h hs hp (Tree.place_of_dir hfound) (Tree.place_of_dir hfound')
        (.dir [])
      dsimp only
      rw [Tree.place_emptied hfound, Tree.place_emptied hfound']
      split
      · exact ⟨rfl, h.remove hs hp⟩
      · exact ⟨rfl, hset⟩
      · exact ⟨rfl, hset⟩
      · exact ⟨rfl, hset⟩

omit hp in
theorem moved_ahead (hsource : ∃ place ∈ places, place <+: source.names)
    (htarget : ∃ place ∈ places, place <+: target.names)
    (hplace : root.place target = .ok target.names)
    (hplace' : root'.place target = .ok target.names)
    (hbelow : ¬ source.names <+: target.names) (t : Tree) :
    Ahead firm way places ((root.remove source.names).set target.names t)
      ((root'.remove source.names).set target.names t) := by
  refine (h.remove hs hsource).set hs htarget (fun base x he ↦ ?_) t
  have hnot : ¬ source.names <+: base := by
    intro hp
    rw [he] at hbelow
    exact hbelow (hp.trans (List.prefix_append _ _))
  rw [he] at hplace hplace'
  rw [Tree.isEdit_remove.kindAt_eq hnot, Tree.isEdit_remove.kindAt_eq hnot,
    Tree.kindAt_eq_true.2 (Tree.get?_dir_of_place hplace),
    Tree.kindAt_eq_true.2 (Tree.get?_dir_of_place hplace')]

omit hp in
theorem move_ahead (hsource : ∃ place ∈ places, place <+: source.names)
    (hat : root'.at? source = root.at? source)
    (htarget : ∃ place ∈ places, place <+: target.names)
    (hplace : root'.place target = root.place target) :
    Changed firm way places (move root source target) (move root' source target) := by
  unfold move
  rw [hat, hplace]
  cases hfound : root.at? source with
  | error e => exact .error e
  | ok r =>
    obtain ⟨names, t⟩ := r
    obtain ⟨rfl, -⟩ := Tree.at?_eq_ok hfound
    cases hplaced : root.place target with
    | error e => exact .error e
    | ok newNames =>
      obtain rfl := Tree.place_eq_ok hplaced
      simp only [bind, Except.bind]
      split
      · exact .ok h
      split
      · exact .error _
      next hne hbelow =>
      have hmoved := moved_ahead h hs hsource htarget hplaced (hplace.trans hplaced)
        (fun hp ↦ hbelow (List.isPrefixOf_iff_prefix.2 hp)) t
      rw [h.get?_eq htarget]
      split
      · split
        · exact .error _
        · exact .ok hmoved
      · exact .ok hmoved
      · exact .ok hmoved
      · exact .error _
      · exact .error _
      · split
        · exact .ok hmoved
        · exact .error _

end Work

section Look

variable {p : Path} (h : Alike way places root root') (hp : p.Within way places)

include h hp

theorem at?_alike : root'.at? p = root.at? p := h.at?_of_place hp.below (h.place_eq hp.trail)

theorem readFile_alike : readFile root' p = readFile root p := by
  rw [readFile, at?_alike h hp, readFile]

theorem listDir_alike : listDir root' p = listDir root p := by
  rw [listDir, at?_alike h hp, listDir]

theorem findAt_alike : findAt root' p = findAt root p := by
  rw [findAt, at?_alike h hp, findAt]

end Look

/-- Whether an operation only goes by what is found at its path. -/
def isSeek : DiskOp → Bool
  | .write .. | .append .. | .makeDirs _ | .rename .. => false
  | _ => true

theorem run_ahead (h : Ahead firm way places root root') (hs : Spread places) {op : DiskOp}
    (hmade : op.made = []) (hp : ∀ p ∈ op.paths, ∃ place ∈ places, place <+: p.names)
    (hat : ∀ p ∈ op.paths, root'.at? p = root.at? p)
    (hplace : op.isSeek = false → ∀ p ∈ op.paths, root'.place p = root.place p) :
    (op.run root').1 = (op.run root).1 ∧
      Ahead firm way places (op.run root).2 (op.run root').2 := by
  cases op with
  | read p => exact ⟨by rw [run, readFile, hat p (.head _)]; rfl, h⟩
  | list p => exact ⟨by rw [run, listDir, hat p (.head _)]; rfl, h⟩
  | find p => exact ⟨by rw [run, findAt, hat p (.head _)]; rfl, h⟩
  | write p bytes =>
    exact commit_ahead h (change_ahead h hs (hp p (.head _)) (hplace rfl p (.head _)) _)
  | append p bytes =>
    exact commit_ahead h (change_ahead h hs (hp p (.head _)) (hplace rfl p (.head _)) _)
  | makeDirs p => exact absurd p.names_mem_trail (by rw [show p.trail = [] from hmade]; simp)
  | removeTree p => exact removeAll_ahead h hs (hp p (.head _)) (hat p (.head _))
  | removeFile p => exact commit_ahead h (unlink_ahead h hs (hp p (.head _)) (hat p (.head _)))
  | rename source target =>
    exact commit_ahead h (move_ahead h hs (hp source (.head _)) (hat source (.head _))
      (hp target (.tail _ (.head _))) (hplace rfl target (.tail _ (.head _))))

end DiskOp

namespace Script

open Multicloud.Tree (Ahead Alike Spread)

variable {α β ε : Type} {root root' : Tree} {firm firm' way places : List (List String)}

/-- Work that comes to the same on a disk that is ahead: on the way to what it puts down all is
firm, for it is work of another disk or directories have been made there before. -/
inductive Paced (way places : List (List String)) : List (List String) → Script α → Prop
  | done {firm : List (List String)} (a : α) : Paced way places firm (.done a)
  | work {firm : List (List String)} {op : DiskOp} {next : op.Answer → Script α}
      (hmade : op.made = []) (hop : ∀ p ∈ op.paths, p.Within firm places)
      (h : ∀ answer, Paced way places firm (next answer)) : Paced way places firm (.perform op next)
  | seek {firm : List (List String)} {op : DiskOp} {next : op.Answer → Script α}
      (hmade : op.made = []) (hseek : op.isSeek = true) (hop : ∀ p ∈ op.paths, p.Within way places)
      (hd : ∀ p ∈ op.paths, p.Descends) (h : ∀ answer, Paced way places firm (next answer)) :
      Paced way places firm (.perform op next)
  | make {firm : List (List String)} {p : Path} {next : Except DiskError Unit → Script α}
      (hm : ∀ m ∈ p.trail, m ∈ way ∨ m ∈ firm ∨ ∃ place ∈ places, place <+: m)
      (hfailed : ∀ e, Paced way places firm (next (.error e)))
      (hmade : Paced way places (p.trail ++ firm) (next (.ok ()))) :
      Paced way places firm (.perform (.makeDirs p) next)

theorem Paced.run_ahead {s : Script α} (hs : Paced way places firm s) (hspread : Spread places)
    (h : Ahead firm way places root root') :
    (s.run root').1 = (s.run root).1 ∧ Ahead firm way places (s.run root).2 (s.run root').2 := by
  induction hs generalizing root root' with
  | done a => exact ⟨rfl, h⟩
  | work hmade hop _ ih =>
    have hplace (p) (hp : p ∈ DiskOp.paths _) := h.place_eq (hop p hp).trail
    obtain ⟨hanswer, hnext⟩ := DiskOp.run_ahead h hspread hmade (fun p hp ↦ (hop p hp).below)
      (fun p hp ↦ h.at?_of_place (hop p hp).below (hplace p hp)) fun _ ↦ hplace
    rw [run, run, hanswer]
    exact ih _ hnext
  | seek hmade hseek hop hd _ ih =>
    obtain ⟨hanswer, hnext⟩ := DiskOp.run_ahead h hspread hmade (fun p hp ↦ (hop p hp).below)
      (fun p hp ↦ h.at?_of_descends (hd p hp) (hop p hp).below fun m hm ↦
        ((hop p hp).trail m hm).imp_right .inr) fun hno ↦ by rw [hseek] at hno; cases hno
    rw [run, run, hanswer]
    exact ih _ hnext
  | @make firm p next hm _ _ ihfailed ihmade =>
    obtain ⟨hanswer, hahead, hmade⟩ := DiskOp.makes_makeAll h hspread hm
    rw [run, run]
    dsimp only [DiskOp.run]
    rw [hanswer]
    cases hok : (DiskOp.makeAll root p).1 with
    | error e => exact ihfailed e hahead
    | ok u =>
      obtain ⟨hsame, hdone⟩ := ihmade (hmade hok)
      exact ⟨hsame, hdone.mono (List.subset_append_right _ _)⟩

theorem Only.paced {s : Script α} (h : Only (DiskOp.Within firm places) s) (hfirm : firm ⊆ firm') :
    Paced way places firm' s := by
  induction h generalizing firm' with
  | done a => exact .done a
  | perform hop _ ih =>
    cases hop with
    | work hmade hop =>
      exact .work hmade (fun p hp ↦ (hop p hp).mono hfirm (List.Subset.refl _)) fun a ↦ ih a hfirm
    | makeDirs hm =>
      exact .make (fun m hmem ↦ .inr ((hm m hmem).imp_left (hfirm ·))) (fun e ↦ ih _ hfirm)
        (ih _ (List.Subset.trans hfirm (List.subset_append_right _ _)))

theorem Paced.mono {way' places' : List (List String)} {s : Script α}
    (h : Paced way places firm s) (hway : way ⊆ way') (hplaces : places ⊆ places') :
    Paced way' places' firm s := by
  induction h with
  | done a => exact .done a
  | work hmade hop _ ih =>
    exact .work hmade (fun p hp ↦ (hop p hp).mono (List.Subset.refl _) hplaces) ih
  | seek hmade hseek hop hd _ ih =>
    exact .seek hmade hseek (fun p hp ↦ (hop p hp).mono hway hplaces) hd ih
  | make hm _ _ ihfailed ihmade =>
    refine .make (fun m hmem ↦ (hm m hmem).imp (hway ·) fun hm ↦ hm.imp_right ?_) ihfailed ihmade
    rintro ⟨place, hmem, hp⟩
    exact ⟨place, hplaces hmem, hp⟩

theorem Paced.bind {s : Script α} {f : α → Script β} (h : Paced way places firm s)
    (hf : ∀ a firm', firm ⊆ firm' → Paced way places firm' (f a)) :
    Paced way places firm (s >>= f) := by
  induction h with
  | done a => exact hf a _ (List.Subset.refl _)
  | work hmade hop _ ih => exact .work hmade hop fun answer ↦ ih answer hf
  | seek hmade hseek hop hd _ ih => exact .seek hmade hseek hop hd fun answer ↦ ih answer hf
  | make hm _ _ ihfailed ihmade =>
    exact .make hm (fun e ↦ ihfailed e hf) (ihmade fun a firm' hfirm ↦
      hf a firm' (List.Subset.trans (List.subset_append_right _ _) hfirm))

def PacedOr (way places firm : List (List String)) (s : OrFail ε α) : Prop :=
  Paced way places firm s.run

theorem pacedOr_pure (a : α) : PacedOr way places firm (pure a : OrFail ε α) := .done _

theorem OnlyOr.pacedOr {s : OrFail ε α} (h : OnlyOr (DiskOp.Within firm places) s)
    (hfirm : firm ⊆ firm') : PacedOr way places firm' s := Only.paced h hfirm

theorem PacedOr.bind {s : OrFail ε α} {f : α → OrFail ε β} (h : PacedOr way places firm s)
    (hf : ∀ a firm', firm ⊆ firm' → PacedOr way places firm' (f a)) :
    PacedOr way places firm (s >>= f) := by
  refine Paced.bind h fun result firm' hfirm ↦ ?_
  cases result with
  | ok a => exact hf a firm' hfirm
  | error e => exact .done _

theorem pacedOr_lift {s : Script α} (h : Paced way places firm s) :
    PacedOr way places firm (liftM s : OrFail ε α) :=
  Paced.bind h fun _ _ _ ↦ .done _

theorem pacedOr_makeDirs {p : Path} {g : DiskError → ε} {f : Unit → OrFail ε α}
    (hm : ∀ m ∈ p.trail, m ∈ way ∨ m ∈ firm ∨ ∃ place ∈ places, place <+: m)
    (hf : PacedOr way places (p.trail ++ firm) (f ())) :
    PacedOr way places firm (orElse (makeDirs p) g >>= f) :=
  .make hm (fun _ ↦ .done _) hf

theorem Only.run_alike {s : Script α} (hs : Only (DiskOp.Within way places) s)
    (hspread : Spread places) (h : Alike way places root root') :
    (s.run root').1 = (s.run root).1 ∧ Alike way places (s.run root).2 (s.run root').2 :=
  (Only.paced hs (List.Subset.refl _)).run_ahead hspread h

section Elsewhere

variable {way' places' : List (List String)} {s s' : Script α}
  (hs : Only (DiskOp.Within way' places') s) (hr : Reaches s root s' root')

include hs hr

theorem Only.kindAt_cases {m : List String} (hplaces : ∀ place ∈ places', ¬ place <+: m) :
    root'.kindAt m = root.kindAt m ∨
      root.kindAt m = none ∧ root'.kindAt m = some true ∧ m ∈ way' := by
  refine @Only.inv_of_reaches _ _ _ _ (fun r ↦ r.kindAt m = root.kindAt m ∨
    root.kindAt m = none ∧ r.kindAt m = some true ∧ m ∈ way') _ _ hs ?_ (.inl rfl) hr
  intro op root₁ answer root₂ hop hkind hy
  rcases hy.edited with hedited | ⟨p, n, rfl, rfl⟩
  · rwa [hedited.kindAt_eq (hop.not_prefix hplaces)]
  refine @DiskOp.addDirs_induction _ (fun r ↦ r.kindAt m = root.kindAt m ∨
    root.kindAt m = none ∧ r.kindAt m = some true ∧ m ∈ way') [] _ (fun t m' hm' hnone hk ↦ ?_) hkind
  rcases List.eq_nil_or_concat' m' with rfl | ⟨base, x, rfl⟩
  · cases hnone
  rw [Tree.kindAt_set_bare hnone]
  split
  · next hself =>
    obtain ⟨rfl, -⟩ := hself
    rw [Tree.kindAt_eq_none.2 hnone] at hk
    rcases hk with hk | ⟨-, hk, -⟩
    · refine .inr ⟨hk.symm, rfl, ?_⟩
      rcases hop.made _ (Path.mem_trailFrom_take hm') with hway | ⟨place, hmem, hp⟩
      · exact hway
      · exact absurd hp (hplaces place hmem)
    · cases hk
  · exact hk

theorem Only.kindAt_eq {m : List String} (hplaces : ∀ place ∈ places', ¬ place <+: m)
    (hthere : m ∈ way' → root.get? m ≠ none) : root'.kindAt m = root.kindAt m :=
  (hs.kindAt_cases hr hplaces).resolve_right fun ⟨hnone, _, hway⟩ ↦
    hthere hway (Tree.kindAt_eq_none.1 hnone)

theorem Only.dirs {l : List (List String)} (hplaces : ∀ place ∈ places', ∀ m ∈ l, ¬ place <+: m)
    (hd : root.Dirs l) : root'.Dirs l := by
  intro m hm
  obtain ⟨entries, hdir⟩ := hd m hm
  have hkind := hs.kindAt_eq hr (fun place hmem ↦ hplaces place hmem m hm)
    fun _ hnone ↦ by rw [hdir] at hnone; cases hnone
  rw [← Tree.kindAt_eq_true, hkind]
  exact Tree.kindAt_eq_true.2 ⟨entries, hdir⟩

theorem Only.lists {base : List String} (hplaces : ∀ place ∈ places', ¬ place <+: base)
    (hl : root.Lists base) : root'.Lists base := by
  refine @Only.inv_of_reaches _ _ _ _ (fun r ↦ r.Lists base) _ _ hs ?_ hl hr
  intro op root₁ answer root₂ hop hl hy
  rcases hy.edited with hedited | ⟨p, n, rfl, rfl⟩
  · exact hedited.lists (hop.not_prefix hplaces) hl
  · exact @DiskOp.addDirs_induction _ _ [] _ (fun t m _ hnone ↦ Tree.lists_set_bare hnone) hl

/-- Work elsewhere only brings a disk ahead. -/
theorem Only.ahead (happart : ∀ place' ∈ places', ∀ place ∈ places, Tree.Apart place' place)
    (hways : ∀ place' ∈ places', ∀ m ∈ firm ++ way, ¬ place' <+: m)
    (hway : ∀ m' ∈ way', ∀ place ∈ places, ¬ place <+: m')
    (hthere : ∀ m ∈ way', m ∈ firm → root.get? m ≠ none)
    (hlists : ∀ base x, base ++ [x] ∈ places → root.Lists base) :
    Ahead firm way places root root' where
  get?_place place hmem := hs.get?_eq (fun place' hmem' ↦ happart place' hmem' place hmem)
    (fun m' hm' hp ↦ absurd hp (hway m' hm' place hmem)) hr
  kindAt_firm m hm := hs.kindAt_eq hr
    (fun place' hmem' ↦ hways place' hmem' m (List.mem_append_left _ hm)) fun hway ↦ hthere m hway hm
  grown_way m hm := (hs.kindAt_cases hr fun place' hmem' ↦
    hways place' hmem' m (List.mem_append_right _ hm)).imp_right fun h ↦ ⟨h.1, h.2.1⟩
  lists base x hmem := by
    refine ⟨hlists base x hmem, hs.lists hr (fun place' hmem' hp ↦ ?_) (hlists base x hmem)⟩
    exact (happart place' hmem' _ hmem).1 (hp.trans (List.prefix_append _ _))

theorem Only.alike (happart : ∀ place' ∈ places', ∀ place ∈ places, Tree.Apart place' place)
    (hways : ∀ place' ∈ places', ∀ m ∈ way, ¬ place' <+: m)
    (hway : ∀ m' ∈ way', ∀ place ∈ places, ¬ place <+: m')
    (hthere : ∀ m ∈ way', m ∈ way → root.get? m ≠ none)
    (hlists : ∀ base x, base ++ [x] ∈ places → root.Lists base) :
    Alike way places root root' :=
  hs.ahead hr happart (by simpa using hways) hway hthere hlists

end Elsewhere

end Script

end Multicloud

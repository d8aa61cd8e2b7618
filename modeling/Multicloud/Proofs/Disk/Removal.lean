import Multicloud.Proofs.Disk.Way

namespace Multicloud

namespace DiskOp

variable {root root' : Tree} {p q d : Path} {place : List String} {answer : Except DiskError Unit}

theorem endFault?_eq_none_iff : endFault? p = none ↔
    ∃ init piece, p.pieces.filter (fun piece ↦ !piece.isEmpty) = init ++ [piece] ∧
      piece ≠ ['.'] ∧ piece ≠ ['.', '.'] := by
  unfold endFault?
  constructor
  · intro h
    split at h
    · cases h
    · cases h
    · cases h
    · next piece hdot hback hlast =>
      obtain ⟨init, hinit⟩ := List.getLast?_eq_some_iff.1 hlast
      exact ⟨init, piece, hinit, hdot, hback⟩
  · rintro ⟨init, piece, hpieces, hdot, hback⟩
    rw [hpieces, List.getLast?_concat]
    split <;> simp_all

theorem endFault?_join (d : Path) {s : String} (hs : Path.IsName s.toList) :
    endFault? (d.join s) = none := by
  obtain ⟨init, hpieces, -⟩ := Path.pieces_join d hs.slash
  refine endFault?_eq_none_iff.2
    ⟨init.filter fun piece ↦ !piece.isEmpty, s.toList, ?_, fun he ↦ ?_, fun he ↦ ?_⟩
  · simp [hpieces, List.filter_append, Path.toList_ne_nil hs]
  · have hidle := hs.idle
    rw [he] at hidle
    cases hidle
  · exact hs.ne_back (String.toList_inj.1 he)

theorem endFault?_ne_notFound (p : Path) : endFault? p ≠ some .notFound := by
  unfold endFault?
  split <;> simp

theorem names_ne_nil (h : endFault? p = none) : p.names ≠ [] := by
  obtain ⟨init, piece, hpieces, hdot, hback⟩ := endFault?_eq_none_iff.1 h
  have hidle : (fun piece ↦ !Path.isIdle piece) = fun piece ↦
      (decide (piece ≠ ['.']) && !piece.isEmpty) := by
    funext piece
    simp [Path.isIdle, Bool.and_comm]
  have hsteps : p.steps = (init.filter fun piece ↦ decide (piece ≠ ['.'])).map String.ofList ++
      [String.ofList piece] := by
    rw [Path.steps, hidle, ← List.filter_filter, hpieces, List.filter_append, List.map_append,
      List.filter_cons_of_pos (by simpa using hdot), List.filter_nil, List.map_singleton]
  have hname : String.ofList piece ≠ ".." :=
    fun he ↦ hback (by simpa using congrArg String.toList he)
  rw [Path.names, hsteps, List.foldl_append, List.foldl_cons, List.foldl_nil, Path.back,
    if_neg hname]
  simp

/-- What can come of the removal of a directory. -/
inductive Removes (root : Tree) (p : Path) : Except DiskError Unit → Tree → Prop
  | missing {e : DiskError} (h : root.at? p = .error e) : Removes root p (.error e) root
  | file {bytes : ByteArray} (h : root.at? p = .ok (p.names, .file bytes)) :
      Removes root p (.error .notDirectory) root
  | lost {entries : List (String × Tree)} (h : root.at? p = .ok (p.names, .dir entries))
      (hd : ¬ p.IsDirect) : Removes root p (.ok ()) (root.set p.names (.dir []))
  | emptied {entries : List (String × Tree)} {e : DiskError}
      (h : root.at? p = .ok (p.names, .dir entries)) (hd : p.IsDirect)
      (hend : endFault? p = some e) : Removes root p (.error e) (root.set p.names (.dir []))
  | removed {entries : List (String × Tree)} (h : root.at? p = .ok (p.names, .dir entries))
      (hd : p.IsDirect) (hend : endFault? p = none) :
      Removes root p (.ok ()) (root.remove p.names)

theorem removes_removeAll (root : Tree) (p : Path) :
    Removes root p (removeAll root p).1 (removeAll root p).2 := by
  unfold removeAll
  split
  · next e he => exact .missing he
  · next names bytes he =>
    obtain ⟨rfl, -⟩ := Tree.at?_eq_ok he
    exact .file he
  · next names entries he =>
    obtain ⟨rfl, -⟩ := Tree.at?_eq_ok he
    dsimp only
    rw [Tree.place_emptied he]
    by_cases hd : p.IsDirect
    · rw [if_pos hd]
      cases hend : endFault? p with
      | none => exact .removed he hd hend
      | some e => exact .emptied he hd hend
    · rw [if_neg hd]
      exact .lost he hd

example : removeAll (.dir [("x", .dir [("a", .dir [])])]) ⟨"x/a/.."⟩ =
    (.ok (), .dir [("x", .dir [])]) := rfl

example : removeAll (.dir [("x", .dir [("a", .dir [])])]) ⟨"x/./"⟩ =
    (.error .invalid, .dir [("x", .dir [])]) := rfl

theorem removes_of_run (h : (removeTree p).run root = (answer, root')) :
    Removes root p answer root' := by
  have hrun : removeAll root p = (answer, root') := h
  have hremoves := removes_removeAll root p
  rwa [hrun] at hremoves

end DiskOp

namespace Tree

variable {root : Tree} {p : Path} {place : List String}

/-- What is gone once the directory of a path has been removed: all that was below it. It is gone
itself if the way there does not lead through it and the path ends with its name. -/
structure Clears (root : Tree) (p : Path) (place : List String) : Prop where
  dir : ∃ entries, root.at? p = .ok (p.names, .dir entries)
  below : p.names <+: place
  self : place = p.names → p.IsDirect ∧ DiskOp.endFault? p = none

theorem eq_of_not_clears {entries : List (String × Tree)} (hc : ¬ root.Clears p place)
    (hdir : root.at? p = .ok (p.names, .dir entries)) (hp : p.names <+: place) :
    place = p.names := by
  by_contra hne
  exact hc ⟨⟨entries, hdir⟩, hp, fun he ↦ absurd he hne⟩

theorem lists_file (bytes : ByteArray) (base : List String) : (file bytes).Lists base := by
  intro entries h
  cases base <;> cases h

theorem mem_of_find {name : String} {t : Tree} {entries : List (String × Tree)}
    (h : find name entries = some t) : (name, t) ∈ entries := by
  induction entries with
  | nil => cases h
  | cons e entries ih =>
    obtain ⟨n, u⟩ := e
    rw [find] at h
    split at h
    · next hn =>
      cases h
      exact hn ▸ .head _
    · exact .tail _ (ih h)

theorem lists_dir {entries : List (String × Tree)}
    (h : (entries.map Prod.fst).Pairwise (· < ·)) (hbelow : ∀ e ∈ entries, ∀ base, e.2.Lists base)
    (base : List String) : (dir entries).Lists base := by
  cases base with
  | nil =>
    intro entries' he
    cases he
    exact h
  | cons name base =>
    intro entries' he
    rw [get?_dir_cons] at he
    obtain ⟨t, ht, he⟩ := Option.bind_eq_some_iff.1 he
    exact hbelow _ (mem_of_find ht) base entries' he

end Tree

namespace DiskOp

variable {root root' : Tree} {p q : Path} {place : List String} {answer : Except DiskError Unit}

theorem Removes.get?_eq_none (h : Removes root p answer root') (hl : ∀ base, root.Lists base)
    (hc : root.Clears p place) : root'.get? place = none := by
  obtain ⟨entries, hdir⟩ := hc.dir
  have hbelow (hself : ¬ (p.IsDirect ∧ endFault? p = none)) :
      (root.set p.names (.dir [])).get? place = none :=
    Tree.get?_below_empty (Tree.get?_emptied hdir) hc.below fun he ↦ hself (hc.self he)
  cases h with
  | missing hmissing => simp [hdir] at hmissing
  | file hfile => simp [hdir] at hfile
  | lost _ hd => exact hbelow fun hself ↦ hd hself.1
  | emptied _ _ hend => exact hbelow fun hself ↦ by simp [hend] at hself
  | removed _ _ hend =>
    obtain ⟨base, x, hx⟩ := (List.eq_nil_or_concat' p.names).resolve_left (names_ne_nil hend)
    obtain ⟨rest, hrest⟩ := hc.below
    rw [← hrest, hx]
    exact Tree.get?_eq_none_of_append (Tree.get?_remove_self (hl base) x) rest

/-- Everything else is what it was: a file with its bytes, or a directory. -/
theorem Removes.kindAt_eq (h : Removes root p answer root') (hc : ¬ root.Clears p place) :
    root'.kindAt place = root.kindAt place ∧ root'.fileAt? place = root.fileAt? place := by
  have hedit {f : Tree → List String → Tree} (hf : Tree.IsEdit f) (hp : ¬ p.names <+: place) :
      (f root p.names).kindAt place = root.kindAt place ∧
        (f root p.names).fileAt? place = root.fileAt? place :=
    ⟨hf.kindAt_eq hp root, Tree.fileAt?_congr fun bytes ↦ hf.get?_file_iff hp⟩
  have hset {entries : List (String × Tree)} (hdir : root.at? p = .ok (p.names, .dir entries)) :
      (root.set p.names (.dir [])).kindAt place = root.kindAt place ∧
        (root.set p.names (.dir [])).fileAt? place = root.fileAt? place := by
    by_cases hp : p.names <+: place
    · obtain rfl := Tree.eq_of_not_clears hc hdir hp
      simp [Tree.kindAt, Tree.fileAt?, Tree.get?_emptied hdir, (Tree.at?_eq_ok hdir).2, Tree.isDir]
    · exact hedit (Tree.isEdit_set (.dir [])) hp
  cases h with
  | missing _ => exact ⟨rfl, rfl⟩
  | file _ => exact ⟨rfl, rfl⟩
  | lost hdir _ => exact hset hdir
  | emptied hdir _ _ => exact hset hdir
  | removed hdir hd hend =>
    exact hedit Tree.isEdit_remove fun hp ↦ hc ⟨⟨_, hdir⟩, hp, fun _ ↦ ⟨hd, hend⟩⟩

theorem Removes.lists (h : Removes root p answer root') (hl : ∀ base, root.Lists base)
    (base : List String) : root'.Lists base := by
  by_cases hc : root.Clears p base
  · intro entries he
    rw [h.get?_eq_none hl hc] at he
    cases he
  have hset {entries : List (String × Tree)} (hdir : root.at? p = .ok (p.names, .dir entries)) :
      (root.set p.names (.dir [])).Lists base := by
    by_cases hp : p.names <+: base
    · obtain rfl := Tree.eq_of_not_clears hc hdir hp
      intro entries' he
      rw [Tree.get?_emptied hdir] at he
      cases he
      exact .nil
    · exact (Tree.isOrderly_set _).lists hp (hl base)
  cases h with
  | missing _ => exact hl base
  | file _ => exact hl base
  | lost hdir _ => exact hset hdir
  | emptied hdir _ _ => exact hset hdir
  | removed hdir hd hend =>
    exact Tree.isOrderly_remove.lists (fun hp ↦ hc ⟨⟨_, hdir⟩, hp, fun _ ↦ ⟨hd, hend⟩⟩) (hl base)

theorem readFile_congr (hway : ∀ m ∈ q.trail, root'.kindAt m = root.kindAt m)
    (hfile : root'.fileAt? q.names = root.fileAt? q.names) :
    readFile root' q = readFile root q := by
  have hkind := hway q.names q.names_mem_trail
  unfold readFile Tree.at?
  rw [Tree.place_congr hway]
  cases hplace : root.place q with
  | error e => rfl
  | ok names =>
    obtain rfl := Tree.place_eq_ok hplace
    simp only [bind, Except.bind]
    unfold Tree.kindAt at hkind
    unfold Tree.fileAt? at hfile
    cases hget : root.get? q.names with
    | none =>
      rw [hget] at hkind
      have hget' : root'.get? q.names = none := by simpa using hkind
      rw [hget']
    | some t =>
      rw [hget] at hkind hfile
      obtain ⟨t', hget', hdir⟩ := Option.map_eq_some_iff.1 hkind
      rw [hget'] at hfile ⊢
      cases t with
      | file bytes =>
        cases t' with
        | file bytes' =>
          obtain rfl := Option.some.inj hfile
          rfl
        | dir entries' => cases hdir
      | dir entries =>
        cases t' with
        | file bytes' => cases hdir
        | dir entries' => rfl

theorem readFile_of_missing (hmem : place ∈ q.trail) (h : root.get? place = none) :
    ∃ e, readFile root q = .error e := by
  cases hread : readFile root q with
  | error e => exact ⟨e, rfl⟩
  | ok bytes =>
    obtain ⟨hplace, hget, -⟩ := readFile_eq_ok_iff.1 hread
    obtain ⟨-, hdirs, -⟩ := Tree.place_eq_ok_iff.1 hplace
    rcases Path.mem_trail_iff.1 hmem with hmem | rfl
    · obtain ⟨entries, hdir⟩ := hdirs place hmem
      rw [h] at hdir
      cases hdir
    · rw [h] at hget
      cases hget

end DiskOp

end Multicloud

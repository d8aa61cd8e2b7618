import Multicloud.Proofs.Disk.Path

namespace Multicloud

namespace Path

variable {p q d : Path} {done steps names place : List String} {name s : String}
  {pieces : List (List Char)}

def trailFrom : List String → List String → List (List String)
  | done, [] => [done.reverse]
  | done, name :: steps => done.reverse :: trailFrom (back done name) steps

/-- The places that a path leads through. With steps back these can be more than those above its
own. -/
def trail (p : Path) : List (List String) := trailFrom [] p.steps

theorem trailFrom_concat (done steps : List String) (name : String) :
    trailFrom done (steps ++ [name]) =
      trailFrom done steps ++ [(back (steps.foldl back done) name).reverse] := by
  induction steps generalizing done with
  | nil => rfl
  | cons n steps ih => simp [trailFrom, ih]

theorem mem_trailFrom_take {n : Nat} (h : place ∈ trailFrom done (steps.take n)) :
    place ∈ trailFrom done steps := by
  induction steps generalizing done n with
  | nil => rwa [List.take_nil] at h
  | cons name steps ih =>
    cases n with
    | zero =>
      rw [List.take_zero, trailFrom, List.mem_singleton] at h
      exact h ▸ .head _
    | succ n =>
      rw [List.take_succ_cons, trailFrom, List.mem_cons] at h
      exact h.elim (fun he ↦ he ▸ .head _) fun h ↦ .tail _ (ih h)

theorem reverse_mem_trailFrom (done steps : List String) :
    (steps.foldl back done).reverse ∈ trailFrom done steps := by
  induction steps generalizing done with
  | nil => exact .head _
  | cons name steps ih => exact .tail _ (ih _)

theorem names_mem_trail (p : Path) : p.names ∈ p.trail := reverse_mem_trailFrom [] p.steps

theorem trail_join (d : Path) (hs : IsName s.toList) :
    (d.join s).trail = d.trail ++ [d.names ++ [s]] := by
  rw [trail, steps_join d hs, trailFrom_concat, back, if_neg hs.ne_back, List.reverse_cons]
  rfl

/-- The trail of a path that never leads back goes straight down. -/
theorem prefix_of_mem_trailFrom (hback : ".." ∉ steps) (h : place ∈ trailFrom done steps) :
    place <+: done.reverse ++ steps := by
  induction steps generalizing done with
  | nil =>
    rw [trailFrom, List.mem_singleton] at h
    rw [h]
    exact List.prefix_append _ _
  | cons name steps ih =>
    obtain ⟨hne, hback⟩ := List.ne_and_not_mem_of_not_mem_cons hback
    rw [trailFrom, List.mem_cons, back, if_neg hne.symm] at h
    rcases h with rfl | h
    · exact List.prefix_append _ _
    · simpa using ih hback h

def joint (d : Path) : String :=
  if d.text.isEmpty then "" else if d.text.toList.getLast? = some '/' then d.text else d.text ++ "/"

theorem text_join (d : Path) (h : s.toList.head? ≠ some '/') : (d.join s).text = d.joint ++ s := by
  have habsolute : isAbsolute ⟨s⟩ = false := beq_eq_false_iff_ne.2 h
  rw [join, joint, habsolute, Bool.false_or]
  by_cases hempty : d.text.isEmpty
  · simp [hempty]
  · by_cases hslash : d.text.toList.getLast? = some '/' <;> simp [hempty, hslash]

theorem toList_ne_nil (hs : IsName s.toList) : s.toList ≠ [] := by
  intro he
  have hidle := hs.idle
  rw [he] at hidle
  cases hidle

theorem head?_ne_slash (hs : IsName s.toList) (rest : List Char) :
    (s.toList ++ rest).head? ≠ some '/' := by
  rw [List.head?_append_of_ne_nil _ (toList_ne_nil hs)]
  exact fun h ↦ hs.slash (List.mem_of_mem_head? h)

theorem text_join_name (d : Path) (hs : IsName s.toList) : (d.join s).text = d.joint ++ s :=
  text_join d (by simpa using head?_ne_slash hs [])

theorem text_join_ne (d : Path) (hs : IsName s.toList) : (d.join s).text ≠ "" := by
  rw [text_join_name d hs]
  intro he
  have htext := congrArg String.toList he
  rw [String.toList_append] at htext
  exact toList_ne_nil hs (List.append_eq_nil_iff.1 htext).2

theorem joint_join (d : Path) (hs : IsName s.toList) :
    (d.join s).joint = (d.join s).text ++ "/" := by
  have hempty : (d.join s).text.isEmpty = false := by
    simpa using text_join_ne d hs
  have hlast : (d.join s).text.toList.getLast? ≠ some '/' := by
    rw [text_join_name d hs, String.toList_append,
      List.getLast?_append_of_ne_nil _ (toList_ne_nil hs)]
    exact fun h ↦ hs.slash (List.mem_of_mem_getLast? h)
  rw [joint, hempty, if_neg (by simp), if_neg hlast]

theorem join_join (d : Path) (hs : IsName s.toList) (hname : IsName name.toList) :
    (d.join s).join name = d.join (s ++ "/" ++ name) := by
  have hhead : (s ++ "/" ++ name).toList.head? ≠ some '/' := by
    rw [String.toList_append, String.toList_append, List.append_assoc]
    exact head?_ne_slash hs _
  have htext : ((d.join s).join name).text = (d.join (s ++ "/" ++ name)).text := by
    rw [text_join_name _ hname, joint_join d hs, text_join_name d hs, text_join d hhead,
      String.append_assoc, String.append_assoc, String.append_assoc]
  cases hp : (d.join s).join name
  cases hq : d.join (s ++ "/" ++ name)
  rw [hp, hq] at htext
  exact congrArg Path.mk htext

section Extension

variable {s' : String}

theorem ofPieces_pieces_join (d : Path) (hs : IsName s.toList) :
    ofPieces (d.join s).pieces = d.join s := by
  obtain ⟨init, hpieces, -⟩ := pieces_join d hs.slash
  unfold ofPieces
  split
  · next he =>
    rw [hpieces] at he
    obtain ⟨-, he⟩ := List.append_eq_singleton_iff.1 he |>.resolve_right (by simp)
    exact absurd (List.cons.inj he).1 (toList_ne_nil hs)
  · rw [pieces, Text.intercalate_splitAt, String.ofList_toList]

theorem pieces_join_pair (d : Path) (hs : IsName s.toList) (hs' : IsName s'.toList) :
    ∃ init, (d.join s).pieces = init ++ [s.toList] ∧ (d.join s').pieces = init ++ [s'.toList] := by
  obtain ⟨init, last, hsplit, hjoin⟩ :=
    Text.splitAt_append_of_not_mem (c := '/') d.joint.toList hs.slash
  obtain ⟨init', last', hsplit', hjoin'⟩ :=
    Text.splitAt_append_of_not_mem (c := '/') d.joint.toList hs'.slash
  obtain ⟨rfl, he⟩ := List.append_inj' (hsplit.symm.trans hsplit') rfl
  obtain rfl := (List.cons.inj he).1
  obtain ⟨before, hpieces, -⟩ := pieces_join d hs.slash
  rw [← String.toList_append, ← text_join_name d hs] at hjoin
  rw [← String.toList_append, ← text_join_name d hs'] at hjoin'
  obtain ⟨-, he⟩ := List.append_inj' (hpieces.symm.trans hjoin) rfl
  obtain rfl : last = [] := List.append_left_eq_self.1 (List.cons.inj he).1.symm
  exact ⟨init, hjoin, hjoin'⟩

theorem withExtension_join (d : Path) (hs : IsName s.toList) (hs' : IsName s'.toList)
    {extension : String} (h : (splitName s.toList).1 ++ '.' :: extension.toList = s'.toList) :
    (d.join s).withExtension extension = d.join s' := by
  obtain ⟨init, hpieces, hpieces'⟩ := pieces_join_pair d hs hs'
  rw [withExtension, fileName?_join d hs, hpieces, dropIdleEnd_concat hs.idle, List.dropLast_concat]
  dsimp only
  rw [h, ← hpieces', ofPieces_pieces_join d hs']

theorem parent?_join (d : Path) (hs : IsName s.toList) (hs' : IsName s'.toList) :
    ((d.join s).join s').parent? = some (d.join s) := by
  obtain ⟨init, hpieces, -⟩ := pieces_join d hs.slash
  have hjoin : ((d.join s).join s').pieces = init ++ [s.toList] ++ [s'.toList] := by
    rw [pieces, text_join_name _ hs', joint_join d hs, String.toList_append, String.toList_append,
      List.append_assoc, ← hpieces, ← Text.splitAt_of_not_mem hs'.slash]
    exact Text.splitAt_append '/' _ _
  have hlong : 1 < (init ++ [s.toList] ++ [s'.toList]).length := by simp
  rw [parent?, hjoin, dropIdleEnd_concat hs'.idle]
  split
  · next he => simp [he] at hlong
  · next he => simp [he] at hlong
  · next he => simp [he] at hlong
  · rw [List.dropLast_concat, dropIdleEnd_concat hs.idle, ← hpieces, ofPieces_pieces_join d hs]

end Extension

/-- What a path has to be for the system to look for its place. -/
structure Fits (p : Path) : Prop where
  zero : '\x00' ∉ p.text.toList
  nonempty : p.text ≠ ""
  short : p.text.utf8ByteSize ≤ Tree.maxPath
  names : ∀ name ∈ p.steps, name.utf8ByteSize ≤ Tree.maxName

section Fits

variable {s' : String}

theorem fits_join_iff (d : Path) (hs : IsName s.toList) : (d.join s).Fits ↔
    ('\x00' ∉ d.joint.toList ∧ '\x00' ∉ s.toList) ∧
      d.joint.utf8ByteSize + s.utf8ByteSize ≤ Tree.maxPath ∧
      (∀ name ∈ d.steps, name.utf8ByteSize ≤ Tree.maxName) ∧ s.utf8ByteSize ≤ Tree.maxName := by
  have hzero : '\x00' ∉ (d.join s).text.toList ↔ '\x00' ∉ d.joint.toList ∧ '\x00' ∉ s.toList := by
    rw [text_join_name d hs, String.toList_append, List.mem_append, not_or]
  have hnames : (∀ name ∈ (d.join s).steps, name.utf8ByteSize ≤ Tree.maxName) ↔
      (∀ name ∈ d.steps, name.utf8ByteSize ≤ Tree.maxName) ∧ s.utf8ByteSize ≤ Tree.maxName := by
    rw [steps_join d hs, List.forall_mem_append, List.forall_mem_singleton]
  rw [← hzero, ← hnames, ← String.utf8ByteSize_append, ← text_join_name d hs]
  exact ⟨fun h ↦ ⟨h.zero, h.short, h.names⟩,
    fun ⟨hzero, hshort, hnames⟩ ↦ ⟨hzero, text_join_ne d hs, hshort, hnames⟩⟩

theorem Fits.join (hd : d.Fits) (hs : IsName s.toList) (hzero : '\x00' ∉ s.toList)
    (hshort : d.text.utf8ByteSize + s.utf8ByteSize < Tree.maxPath)
    (hname : s.utf8ByteSize ≤ Tree.maxName) : (d.join s).Fits := by
  rw [fits_join_iff d hs, joint, if_neg (by simpa using hd.nonempty)]
  split
  · exact ⟨⟨hd.zero, hzero⟩, Nat.le_of_lt hshort, hd.names, hname⟩
  · refine ⟨⟨?_, hzero⟩, ?_, hd.names, hname⟩
    · simp [hd.zero]
    · have hslash : ("/" : String).utf8ByteSize = 1 := rfl
      rw [String.utf8ByteSize_append, hslash]
      omega

theorem Fits.of_join (h : (d.join s').Fits) (hs : IsName s.toList) (hs' : IsName s'.toList)
    (hzero : '\x00' ∉ s.toList) (hle : s.utf8ByteSize ≤ s'.utf8ByteSize) : (d.join s).Fits := by
  obtain ⟨⟨hjoint, -⟩, hshort, hnames, hname⟩ := (fits_join_iff d hs').1 h
  exact (fits_join_iff d hs).2 ⟨⟨hjoint, hzero⟩, by omega, hnames, Nat.le_trans hle hname⟩

theorem Fits.shorten (h : ((d.join s').join name).Fits) (hd : (d.join s).Fits)
    (hs : IsName s.toList) (hs' : IsName s'.toList) (hname : IsName name.toList)
    (hle : s.utf8ByteSize ≤ s'.utf8ByteSize) : ((d.join s).join name).Fits := by
  obtain ⟨⟨-, hzero⟩, hshort, -, hlast⟩ := (fits_join_iff _ hname).1 h
  rw [joint_join d hs', text_join_name d hs'] at hshort
  refine (fits_join_iff _ hname).2 ⟨⟨?_, hzero⟩, ?_, hd.names, hlast⟩
  · rw [joint_join d hs, String.toList_append, List.mem_append, not_or]
    exact ⟨hd.zero, by decide⟩
  · rw [joint_join d hs, text_join_name d hs]
    simp only [String.utf8ByteSize_append] at hshort ⊢
    omega

end Fits

section Parent

theorem filter_dropIdleEnd (pieces : List (List Char)) :
    (dropIdleEnd pieces).filter (fun piece ↦ !isIdle piece) =
      pieces.filter fun piece ↦ !isIdle piece := by
  cases pieces with
  | nil => rfl
  | cons first rest =>
    have hrest : (rest.reverse.dropWhile isIdle).filter (fun piece ↦ !isIdle piece) =
        rest.reverse.filter fun piece ↦ !isIdle piece := by
      induction rest.reverse with
      | nil => rfl
      | cons piece pieces ih =>
        rw [List.dropWhile_cons]
        split
        · next h => simp [ih, h]
        · rfl
    rw [dropIdleEnd, List.filter_cons, List.filter_cons, List.filter_reverse, hrest,
      List.filter_reverse, List.reverse_reverse]

theorem mem_dropIdleEnd {piece : List Char} (h : piece ∈ dropIdleEnd pieces) : piece ∈ pieces := by
  cases pieces with
  | nil => exact h
  | cons first rest =>
    rw [dropIdleEnd, List.mem_cons, List.mem_reverse] at h
    refine h.elim (fun he ↦ he ▸ .head _) fun h ↦ .tail _ ?_
    exact List.mem_reverse.1 ((List.dropWhile_sublist _).subset h)

theorem steps_ofPieces (h : ∀ piece ∈ pieces, '/' ∉ piece) :
    (ofPieces pieces).steps = (pieces.filter fun piece ↦ !isIdle piece).map String.ofList := by
  unfold ofPieces
  split
  · rfl
  · rw [steps]
    cases pieces with
    | nil => rfl
    | cons first rest =>
      rw [Path.pieces, String.toList_ofList, Text.splitAt_intercalate (by simp) h]

theorem dropIdleEnd_cases (first : List Char) (rest : List (List Char)) :
    dropIdleEnd (first :: rest) = [first] ∨ ∃ init last,
      dropIdleEnd (first :: rest) = first :: init ++ [last] ∧ isIdle last = false := by
  rw [dropIdleEnd]
  cases hrest : rest.reverse.dropWhile isIdle with
  | nil => exact .inl rfl
  | cons last init =>
    have hlast := List.head?_dropWhile_not isIdle rest.reverse
    rw [hrest, List.head?_cons] at hlast
    exact .inr ⟨init.reverse, last, by rw [List.reverse_cons, List.cons_append], by simpa using hlast⟩

theorem steps_eq_dropIdleEnd (p : Path) :
    p.steps = ((dropIdleEnd p.pieces).filter fun piece ↦ !isIdle piece).map String.ofList := by
  rw [steps, filter_dropIdleEnd]

theorem steps_parent? (h : p.parent? = some q) : q.steps = p.steps.dropLast := by
  have hslash : ∀ piece ∈ p.pieces, '/' ∉ piece := Text.not_mem_splitAt '/' _
  rw [steps_eq_dropIdleEnd p]
  unfold parent? at h
  split at h
  · cases h
  · cases h
  · next first _ hone =>
    obtain rfl := Option.some.inj h
    rw [hone, List.filter_singleton]
    cases isIdle first <;> rfl
  · next _ hnil _ hmany =>
    obtain rfl := Option.some.inj h
    cases hpieces : p.pieces with
    | nil => exact absurd (by rw [hpieces]; rfl) hnil
    | cons first rest =>
      rw [hpieces] at hmany hslash
      rcases dropIdleEnd_cases first rest with hone | ⟨init, last, hmore, hlast⟩
      · exact absurd hone (hmany first)
      · have hinit : ∀ piece ∈ dropIdleEnd (first :: init), '/' ∉ piece := fun piece hmem ↦
          hslash piece (mem_dropIdleEnd (hmore ▸ List.mem_append_left _ (mem_dropIdleEnd hmem)))
        have hfilter : [last].filter (fun piece ↦ !isIdle piece) = [last] := by simp [hlast]
        rw [hmore, List.dropLast_concat, steps_ofPieces hinit, filter_dropIdleEnd,
          List.filter_append, hfilter, List.map_append, List.map_singleton, List.dropLast_concat]

theorem steps_of_parent?_eq_none (h : p.parent? = none) : p.steps = [] := by
  rw [steps_eq_dropIdleEnd]
  unfold parent? at h
  split at h
  · next hnil => rw [hnil]; rfl
  · next hnil => rw [hnil]; rfl
  · cases h
  · cases h

theorem mem_trail_of_steps (h : q.steps = p.steps.dropLast) :
    place ∈ p.trail → place ∈ q.trail ∨ place = p.names := by
  rcases List.eq_nil_or_concat' p.steps with hnil | ⟨init, name, hsteps⟩
  · rw [trail, names, hnil]
    exact fun hmem ↦ .inr (List.mem_singleton.1 hmem)
  · rw [hsteps, List.dropLast_concat] at h
    rw [trail, names, hsteps, trailFrom_concat, List.mem_append, List.mem_singleton, trail, h,
      List.foldl_append]
    exact id

theorem trail_parent? (h : p.parent? = some q) : q.trail ⊆ p.trail := by
  intro place hmem
  rw [trail, steps_parent? h, List.dropLast_eq_take] at hmem
  exact mem_trailFrom_take hmem

end Parent

end Path

namespace Tree

variable {root : Tree} {p d : Path} {done steps names place : List String} {s : String}

def Dirs (root : Tree) (places : List (List String)) : Prop :=
  ∀ place ∈ places, ∃ entries, root.get? place = some (dir entries)

/-- A way can be gone if all on it but its end are directories and no name is too long. -/
theorem enter_eq_ok_iff : root.enter done steps = .ok names ↔
    names = (steps.foldl Path.back done).reverse ∧
      root.Dirs (Path.trailFrom done steps).dropLast ∧
      ∀ name ∈ steps, name.utf8ByteSize ≤ maxName := by
  induction steps generalizing done with
  | nil => simp [enter, Path.trailFrom, Dirs, eq_comm]
  | cons name steps ih =>
    have hne : Path.trailFrom (Path.back done name) steps ≠ [] :=
      List.ne_nil_of_mem (Path.reverse_mem_trailFrom _ _)
    rw [Path.trailFrom, List.dropLast_cons_of_ne_nil hne, List.foldl_cons]
    simp only [Dirs, List.forall_mem_cons]
    constructor
    · intro h
      obtain ⟨⟨entries, hd⟩, hrest⟩ := enter_cons_eq_ok h
      obtain ⟨hnames, hdirs, hshort⟩ := ih.1 hrest
      rw [enter, hd] at h
      dsimp only at h
      split at h
      · cases h
      · next hle => exact ⟨hnames, ⟨⟨entries, hd⟩, hdirs⟩, Nat.not_lt.1 hle, hshort⟩
    · rintro ⟨hnames, ⟨⟨entries, hd⟩, hdirs⟩, hle, hshort⟩
      have hrest := ih.2 ⟨hnames, hdirs, hshort⟩
      rw [enter, hd]
      dsimp only
      rw [if_neg (Nat.not_lt.2 hle)]
      unfold Path.back at hrest
      split
      · next hback => rwa [if_pos hback] at hrest
      · next hback => rwa [if_neg hback] at hrest

/-- A path has a place where its text and its names are of a kind that the system takes, and all on
the way there are directories. -/
theorem place_eq_ok_iff : root.place p = .ok names ↔
    p.Fits ∧ root.Dirs p.trail.dropLast ∧ names = p.names := by
  have henter : root.enter [] p.steps = .ok names ↔ names = p.names ∧
      root.Dirs p.trail.dropLast ∧ ∀ name ∈ p.steps, name.utf8ByteSize ≤ maxName :=
    enter_eq_ok_iff
  unfold place
  constructor
  · intro h
    split at h
    · cases h
    next hzero =>
    split at h
    · cases h
    next hempty =>
    split at h
    · cases h
    next hlong =>
    obtain ⟨hnames, hdirs, hshort⟩ := henter.1 h
    exact ⟨⟨by simpa using hzero, by simpa using hempty, Nat.not_lt.1 hlong, hshort⟩, hdirs, hnames⟩
  · rintro ⟨hfits, hdirs, hnames⟩
    rw [if_neg (by simpa using hfits.zero), if_neg (by simpa using hfits.nonempty),
      if_neg (Nat.not_lt.2 hfits.short)]
    exact henter.2 ⟨hnames, hdirs, hfits.names⟩

theorem dirs_trail_join (hs : Path.IsName s.toList) :
    root.Dirs (d.join s).trail.dropLast ↔ root.Dirs d.trail := by
  rw [Path.trail_join d hs, List.dropLast_concat]

end Tree

end Multicloud

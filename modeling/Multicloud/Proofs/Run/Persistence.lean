import Mathlib.Data.List.Induction
import Mathlib.Data.Set.Card
import Multicloud.Proofs.Run.Files

namespace Multicloud.RunCache

variable {α : Type} {c : RunCache} {root : Tree} {d : Path} {dir? : Option Path}
  {key key' : String} {run run' : StoredRun} {good good' : String → StoredRun → Prop}

section Uses

inductive Use where
  | put (key : String) (run : StoredRun)
  | get (key : String)
  /-- Another cache takes the place of this one, over the same directory if there is one. -/
  | restart

def Use.Keyed : Use → Prop
  | put key _ | get key => ∃ graphHash b, Binding.key Digest.blake3 graphHash b = key
  | restart => True

def step : RunCache × Tree → Use → RunCache × Tree
  | (c, root), .put key run => (c.put key run).run root
  | (c, root), .get key => (((c.get key).run root).1.2, ((c.get key).run root).2)
  | (c, root), .restart => ({ dir := c.dir }, root)

def after (dir? : Option Path) (root : Tree) (uses : List Use) : RunCache × Tree :=
  uses.foldl step ({ dir := dir? }, root)

def answer (dir? : Option Path) (root : Tree) (uses : List Use) (key : String) :
    Option StoredRun :=
  (((after dir? root uses).1.get key).run (after dir? root uses).2).1.1

/-- No file of the cache in a directory holds a run. -/
def Vacant (d : Path) (root : Tree) : Prop := Holds (fun _ _ ↦ False) d root

/-- Every run that was put is written. -/
def Unfailing (dir? : Option Path) (root : Tree) (uses : List Use) : Prop :=
  ∀ before key run later, uses = before ++ .put key run :: later → ∀ d, dir? = some d →
    ((writeFile (d.join (fileName key)) run).run (after dir? root before).2).1 = .ok ()

/-- The run is that of the last `put` for the key; without a directory, a restart forgets it. -/
def Latest (dir? : Option Path) (uses : List Use) (key : String) (run : StoredRun) : Prop :=
  ∃ before later, uses = before ++ .put key run :: later ∧ (∀ run', .put key run' ∉ later) ∧
    (dir? = none → .restart ∉ later)

/-- Since the last restart, the key was put, or was found by a `get`. -/
def Held (dir? : Option Path) (uses : List Use) (key : String) : Prop :=
  ∃ before use later, uses = before ++ use :: later ∧ .restart ∉ later ∧
    ∃ run, use = .put key run ∨ use = .get key ∧ Latest dir? before key run

variable {uses : List Use} {u : Use}

theorem after_concat (dir? : Option Path) (root : Tree) (uses : List Use) (u : Use) :
    after dir? root (uses ++ [u]) = step (after dir? root uses) u := by
  rw [after, List.foldl_append]
  rfl

theorem Use.Keyed.isDigest_put (h : (Use.put key run).Keyed) : Digest.IsDigest key := by
  obtain ⟨graphHash, b, rfl⟩ := h
  exact ⟨_, rfl⟩

theorem Use.Keyed.isDigest_get (h : (Use.get key).Keyed) : Digest.IsDigest key := by
  obtain ⟨graphHash, b, rfl⟩ := h
  exact ⟨_, rfl⟩

theorem exists_split_concat {l : List α} {x : α} {P : List α → α → List α → Prop} :
    (∃ before y later, l ++ [x] = before ++ y :: later ∧ P before y later) ↔
      P l x [] ∨ ∃ before y later, l = before ++ y :: later ∧ P before y (later ++ [x]) := by
  constructor
  · rintro ⟨before, y, later, he, h⟩
    rcases List.eq_nil_or_concat later with rfl | ⟨later, z, rfl⟩
    · obtain ⟨rfl, hx⟩ := List.append_inj' he rfl
      obtain rfl := (List.cons.inj hx).1
      exact .inl h
    · rw [List.concat_eq_append, ← List.cons_append, ← List.append_assoc] at he
      obtain ⟨rfl, hx⟩ := List.append_inj' he rfl
      obtain rfl := (List.cons.inj hx).1
      exact .inr ⟨before, y, later, rfl, by rwa [List.concat_eq_append] at h⟩
  · rintro (h | ⟨before, y, later, rfl, h⟩)
    · exact ⟨l, x, [], rfl, h⟩
    · exact ⟨before, y, later ++ [x], by simp, h⟩

theorem latest_concat : Latest dir? (uses ++ [u]) key run ↔
    u = .put key run ∨
      Latest dir? uses key run ∧ (∀ run', u ≠ .put key run') ∧ (dir? = none → u ≠ .restart) := by
  have hform (uses : List Use) : Latest dir? uses key run ↔
      ∃ before use later, uses = before ++ use :: later ∧ use = .put key run ∧
        (∀ run', .put key run' ∉ later) ∧ (dir? = none → .restart ∉ later) := by
    constructor
    · rintro ⟨before, later, rfl, h⟩
      exact ⟨before, _, later, rfl, rfl, h⟩
    · rintro ⟨before, _, later, rfl, rfl, h⟩
      exact ⟨before, later, rfl, h⟩
  rw [hform, exists_split_concat, hform]
  refine or_congr (by simp) ⟨?_, ?_⟩
  · rintro ⟨before, use, later, he, hput, hlast, hrestart⟩
    simp only [List.mem_append, List.mem_singleton, not_or] at hlast hrestart
    exact ⟨⟨before, use, later, he, hput, fun run' ↦ (hlast run').1, fun hd ↦ (hrestart hd).1⟩,
      fun run' ↦ Ne.symm (hlast run').2, fun hd ↦ Ne.symm (hrestart hd).2⟩
  · rintro ⟨⟨before, use, later, he, hput, hlast, hrestart⟩, hu, hd⟩
    simp only [List.mem_append, List.mem_singleton, not_or]
    exact ⟨before, use, later, he, hput, fun run' ↦ ⟨hlast run', Ne.symm (hu run')⟩,
      fun hnone ↦ ⟨hrestart hnone, Ne.symm (hd hnone)⟩⟩

theorem held_concat : Held dir? (uses ++ [u]) key ↔
    (∃ run, u = .put key run ∨ u = .get key ∧ Latest dir? uses key run) ∨
      Held dir? uses key ∧ u ≠ .restart := by
  unfold Held
  rw [exists_split_concat]
  refine or_congr (by simp) ⟨?_, ?_⟩
  · rintro ⟨before, use, later, he, hrestart, h⟩
    simp only [List.mem_append, List.mem_singleton, not_or] at hrestart
    exact ⟨⟨before, use, later, he, hrestart.1, h⟩, Ne.symm hrestart.2⟩
  · rintro ⟨⟨before, use, later, he, hrestart, h⟩, hu⟩
    refine ⟨before, use, later, he, ?_, h⟩
    simpa using ⟨hrestart, Ne.symm hu⟩

theorem latest_get : Latest dir? (uses ++ [.get key']) key run ↔ Latest dir? uses key run := by
  simp [latest_concat]

theorem Latest.eq (h : Latest dir? uses key run) (h' : Latest dir? uses key run') :
    run = run' := by
  induction uses using List.reverseRecOn with
  | nil =>
    obtain ⟨before, later, he, -⟩ := h
    simp at he
  | append_singleton uses u ih =>
    rcases latest_concat.1 h with rfl | ⟨h, hu, -⟩
    · rcases latest_concat.1 h' with he | ⟨-, hu, -⟩
      · exact (Use.put.inj he).2
      · exact absurd rfl (hu run)
    · rcases latest_concat.1 h' with rfl | ⟨h', -⟩
      · exact absurd rfl (hu run')
      · exact ih h h'

theorem Latest.isDigest (h : Latest dir? uses key run) (hkeys : ∀ u ∈ uses, u.Keyed) :
    Digest.IsDigest key := by
  obtain ⟨before, later, rfl, -⟩ := h
  exact (hkeys (.put key run) (by simp)).isDigest_put

end Uses

section Cache

theorem Sound.congr (h : Sound good c root) (he : ∀ key run, good key run ↔ good' key run) :
    Sound good' c root := by
  obtain rfl : good = good' := funext₂ fun key run ↦ propext (he key run)
  exact h

/-- A run that was written takes the place of the one before, and of no other. -/
theorem Holds.overwritten (h : Holds good d root) (hkey : Digest.IsDigest key)
    (hw : ((writeFile (d.join (fileName key)) run).run root).1 = .ok ())
    (hgood : ∀ key' run', key' ≠ key → good key' run' → good' key' run')
    (hrun : good' key run) :
    Holds good' d ((writeFile (d.join (fileName key)) run).run root).2 := by
  have hall : Holds (fun key' run' ↦ key' = key ∨ good key' run') d root :=
    fun key' hkey' bytes run' hfile hdecode ↦ .inr (h key' hkey' bytes run' hfile hdecode)
  have hafter := hall.written hkey (.inl rfl) (written_writeFile (d.join (fileName key)) run root)
  intro key' hkey' bytes run' hfile hdecode
  by_cases hne : key' = key
  · subst hne
    obtain ⟨bytes', hread, hdecode'⟩ := Option.bind_eq_some_iff.1 (inFile?_of_writeFile hkey hw)
    have hfile' := DiskOp.readFile_eq_ok (toOption_eq_some.1 hread)
    rw [names_file d hkey, hfile, Option.some.injEq, Tree.file.injEq] at hfile'
    rw [hfile', hdecode', Option.some.injEq] at hdecode
    exact hdecode ▸ hrun
  · exact hgood key' run' hne ((hafter key' hkey' bytes run' hfile hdecode).resolve_left hne)

theorem insert_eq_self {entries : TextMap StoredRun} (h : entries[key]? = some run) :
    entries.insert key run = entries := by
  apply Std.ExtTreeMap.ext_getElem?
  intro key'
  rw [Std.ExtTreeMap.getElem?_insert]
  split
  · next he => rw [← Std.LawfulEqOrd.eq_of_compare he, h]
  · rfl

theorem Has.run_get (h : Has c root key run) :
    (c.get key).run root = ((some run, { c with entries := c.entries.insert key run }), root) := by
  rw [RunCache.run_get]
  cases hentry : c.entries[key]? with
  | some run' =>
    obtain rfl := h.memory run' hentry
    rw [insert_eq_self hentry]
  | none =>
    cases hd : c.dir with
    | none =>
      rw [h.present hd] at hentry
      cases hentry
    | some d =>
      dsimp only
      rw [h.file d hd]

theorem Has.insert (h : Has c root key run) (he : key' = key → run' = run) :
    Has { c with entries := c.entries.insert key' run' } root key run := by
  by_cases hne : key' = key
  · subst hne
    obtain rfl := he rfl
    exact ⟨fun run₁ he ↦ by simpa [eq_comm] using he, fun _ ↦ by simp, h.file⟩
  · refine ⟨fun run₁ he ↦ h.memory run₁ ?_, fun hd ↦ ?_, h.file⟩
    · rwa [getElem?_insert_of_ne _ hne] at he
    · rw [getElem?_insert_of_ne _ hne]
      exact h.present hd

theorem Sound.run_get_of_not (h : Sound good c root) (hkey : Digest.IsDigest key)
    (hnone : ∀ run, ¬ good key run) : (c.get key).run root = ((none, c), root) := by
  rcases run_get_cases c key root with hget | ⟨run, c', hget⟩
  · exact hget
  · exact absurd ((h.get hkey hget).2.2 run rfl) (hnone run)

end Cache

/-- How a cache and the disk stand after some uses. -/
structure Recalls (dir? : Option Path) (uses : List Use) (c : RunCache) (root : Tree) : Prop where
  dir : c.dir = dir?
  sound : Sound (Latest dir? uses) c root
  has : ∀ key run, Latest dir? uses key run → Has c root key run
  held : ∀ key, key ∈ c.entries ↔ Held dir? uses key

namespace Recalls

variable {uses : List Use} {u : Use}

theorem start (hroot : ∀ d, dir? = some d → Vacant d root) :
    Recalls dir? [] { dir := dir? } root where
  dir := rfl
  sound := ⟨fun _ _ he ↦ by simp at he, fun d hd key hkey bytes run hfile hdecode ↦
    (hroot d hd key hkey bytes run hfile hdecode).elim⟩
  has key run h := by
    obtain ⟨before, later, he, -⟩ := h
    simp at he
  held key := by
    refine iff_of_false (by simp) ?_
    rintro ⟨before, use, later, he, -⟩
    simp at he

theorem put (h : Recalls dir? uses c root) (hkeys : ∀ u ∈ uses, u.Keyed)
    (hkey : Digest.IsDigest key)
    (hw : ∀ d, dir? = some d → ((writeFile (d.join (fileName key)) run).run root).1 = .ok ()) :
    Recalls dir? (uses ++ [.put key run]) ((c.put key run).run root).1
      ((c.put key run).run root).2 := by
  have hnew : Latest dir? (uses ++ [.put key run]) key run := latest_concat.2 (.inl rfl)
  have hother (key' : String) (run' : StoredRun) (hne : key' ≠ key)
      (hlatest : Latest dir? uses key' run') : Latest dir? (uses ++ [.put key run]) key' run' :=
    latest_concat.2 (.inr ⟨hlatest, fun _ he ↦ hne (Use.put.inj he).1.symm, by simp⟩)
  refine ⟨by rw [run_put]; exact h.dir, ?_, fun key' run' hlatest ↦ ?_, fun key' ↦ ?_⟩
  · rw [run_put]
    refine ⟨fun key' run' hentry ↦ ?_, fun d hd ↦ ?_⟩
    · by_cases hne : key = key'
      · subst hne
        obtain rfl : run = run' := by simpa using hentry
        exact hnew
      · rw [getElem?_insert_of_ne _ hne] at hentry
        exact hother key' run' (Ne.symm hne) (h.sound.entries key' run' hentry)
    · have hd : c.dir = some d := hd
      rw [hd]
      dsimp only
      exact (h.sound.files d hd).overwritten hkey (hw d (h.dir ▸ hd)) hother hnew
  · have hhas : Has ((c.put key run).run root).1 ((c.put key run).run root).2 key run :=
      has_put c hkey fun d hd ↦ hw d (h.dir ▸ hd)
    rcases latest_concat.1 hlatest with he | ⟨hlatest, hne, -⟩
    · obtain ⟨rfl, rfl⟩ := Use.put.inj he
      exact hhas
    · have hne : key ≠ key' := fun he ↦ hne run (he ▸ rfl)
      exact (h.has key' run' hlatest).put_of_ne (hlatest.isDigest hkeys) hkey hne run
  · rw [run_put, held_concat]
    simp [Std.ExtTreeMap.mem_insert, h.held]

theorem run_get (h : Recalls dir? uses c root) (hkey : Digest.IsDigest key) :
    (∃ run, Latest dir? uses key run ∧
      (c.get key).run root = ((some run, { c with entries := c.entries.insert key run }), root)) ∨
    (∀ run, ¬ Latest dir? uses key run) ∧ (c.get key).run root = ((none, c), root) := by
  by_cases hsome : ∃ run, Latest dir? uses key run
  · obtain ⟨run, hlatest⟩ := hsome
    exact .inl ⟨run, hlatest, (h.has key run hlatest).run_get⟩
  · have hnone := not_exists.1 hsome
    exact .inr ⟨hnone, h.sound.run_get_of_not hkey hnone⟩

theorem get (h : Recalls dir? uses c root) (hkey : Digest.IsDigest key) :
    Recalls dir? (uses ++ [.get key]) ((c.get key).run root).1.2 ((c.get key).run root).2 := by
  have hsame (key' : String) (run' : StoredRun) :
      Latest dir? uses key' run' ↔ Latest dir? (uses ++ [.get key]) key' run' := latest_get.symm
  rcases h.run_get hkey with ⟨run, hlatest, hget⟩ | ⟨hnone, hget⟩
  · rw [hget]
    refine ⟨h.dir, (h.sound.insert hlatest h.sound.files).congr hsame, fun key' run' hlatest' ↦ ?_,
      fun key' ↦ ?_⟩
    · have hlatest' := latest_get.1 hlatest'
      exact (h.has key' run' hlatest').insert fun he ↦ hlatest.eq (he ▸ hlatest')
    · rw [held_concat]
      simp only [Std.ExtTreeMap.mem_insert, Std.LawfulEqOrd.compare_eq_iff_eq, h.held,
        reduceCtorEq, false_or, Use.get.injEq, ne_eq, not_false_eq_true, and_true]
      refine or_congr_left ⟨?_, fun ⟨_, he, _⟩ ↦ he⟩
      rintro rfl
      exact ⟨run, rfl, hlatest⟩
  · rw [hget]
    refine ⟨h.dir, h.sound.congr hsame,
      fun key' run' hlatest ↦ h.has key' run' (latest_get.1 hlatest), fun key' ↦ ?_⟩
    rw [held_concat, h.held]
    simp only [reduceCtorEq, false_or, Use.get.injEq, ne_eq, not_false_eq_true, and_true]
    refine (or_iff_right ?_).symm
    rintro ⟨run, rfl, hlatest⟩
    exact hnone run hlatest

theorem restart (h : Recalls dir? uses c root) :
    Recalls dir? (uses ++ [.restart]) { dir := c.dir } root := by
  refine ⟨h.dir, ⟨fun _ _ he ↦ by simp at he, fun d hd key hkey bytes run hfile hdecode ↦ ?_⟩,
    fun key run hlatest ↦ ?_, fun key ↦ ?_⟩
  · have hd : c.dir = some d := hd
    have hlatest := h.sound.files d hd key hkey bytes run hfile hdecode
    exact latest_concat.2 (.inr ⟨hlatest, by simp, by simp [← h.dir, hd]⟩)
  · obtain ⟨hlatest, -, hdir⟩ := (latest_concat.1 hlatest).resolve_left (by simp)
    cases hd : c.dir with
    | none => exact absurd rfl (hdir (h.dir ▸ hd))
    | some d => exact (h.has key run hlatest).inDir hd
  · rw [held_concat]
    simp

theorem answer_iff (h : Recalls dir? uses c root) (hkey : Digest.IsDigest key) :
    ((c.get key).run root).1.1 = some run ↔ Latest dir? uses key run := by
  rcases h.run_get hkey with ⟨run', hlatest, hget⟩ | ⟨hnone, hget⟩
  · rw [hget, Option.some.injEq]
    exact ⟨fun he ↦ he ▸ hlatest, fun h ↦ hlatest.eq h⟩
  · rw [hget]
    exact iff_of_false (by simp) (hnone run)

theorem size (h : Recalls dir? uses c root) :
    c.size = {key | Held dir? uses key}.ncard := by
  have hset : {key | Held dir? uses key} = (c.entries.keys.toFinset : Set String) := by
    ext key
    simp [← h.held]
  rw [hset, Set.ncard_coe_finset, List.toFinset_card_of_nodup c.entries.nodup_keys,
    Std.ExtTreeMap.length_keys]
  rfl

end Recalls

theorem recalls_after {uses : List Use}
    (hroot : ∀ d, dir? = some d → Vacant d root)
    (hkeys : ∀ u ∈ uses, u.Keyed) (hw : Unfailing dir? root uses) :
    Recalls dir? uses (after dir? root uses).1 (after dir? root uses).2 := by
  induction uses using List.reverseRecOn with
  | nil => exact .start hroot
  | append_singleton uses u ih =>
    have hearlier : ∀ u ∈ uses, u.Keyed := fun u hu ↦ hkeys u (List.mem_append_left _ hu)
    have hu := hkeys u (by simp)
    have h := ih hearlier fun before key run later he ↦
      hw before key run (later ++ [u]) (by simp [he])
    rw [after_concat]
    cases u with
    | put key run =>
      exact h.put hearlier hu.isDigest_put (hw uses key run [] rfl)
    | get key => exact h.get hu.isDigest_get
    | restart => exact h.restart

theorem run_get_of_garbled {p : Path} (hp : c.file? key = some p) (hentry : c.entries[key]? = none)
    (hread : ∀ bytes, DiskOp.readFile root p = .ok bytes → decode bytes = none) :
    (c.get key).run root = ((none, c), root) := by
  obtain ⟨d, hd, rfl⟩ := exists_of_file?_eq_some hp
  have hfile : inFile? root (d.join (fileName key)) = none := by
    unfold inFile?
    cases hr : DiskOp.readFile root (d.join (fileName key)) with
    | ok bytes => exact hread bytes hr
    | error e => rfl
  rw [run_get, hentry, hd]
  dsimp only
  rw [hfile]

/-- A `get` finds the run of the last `put` for its key and nothing else, whatever was looked for in
between, and the keys that were put or found since the last restart are counted. What stands in a
file and is no run is not there. -/
theorem answer_exact {uses : List Use}
    (hroot : ∀ d, dir? = some d → Vacant d root)
    (hkeys : ∀ u ∈ uses, u.Keyed) (hw : Unfailing dir? root uses) :
    (∀ key, (Use.get key).Keyed → ∀ run,
      answer dir? root uses key = some run ↔ Latest dir? uses key run) ∧
    (∀ key key', (Use.get key).Keyed → (Use.get key').Keyed →
      answer dir? root (uses ++ [.get key']) key = answer dir? root uses key) ∧
    (after dir? root uses).1.size = {key | Held dir? uses key}.ncard ∧
    ∀ (c : RunCache) (disk : Tree) (key : String) (p : Path), c.file? key = some p →
      c.entries[key]? = none →
      (∀ bytes, DiskOp.readFile disk p = .ok bytes → decode bytes = none) →
      (c.get key).run disk = ((none, c), disk) := by
  have h := recalls_after hroot hkeys hw
  refine ⟨fun key hkey run ↦ h.answer_iff hkey.isDigest_get, fun key key' hkey hkey' ↦ ?_, h.size,
    fun c disk key p hp hentry hread ↦ run_get_of_garbled hp hentry hread⟩
  have h' := h.get hkey'.isDigest_get
  apply Option.ext
  intro run
  unfold answer
  rw [h.answer_iff hkey.isDigest_get, after_concat]
  exact (h'.answer_iff hkey.isDigest_get).trans latest_get

def vacantDisk : Tree := .dir [("cache", .dir [])]

def quotedKey : String := Binding.key Digest.blake3 "blake3:aa" ∅

def quotedRun : StoredRun where
  artifacts := ∅
  composition := some ⟨"composition.yaml", "\"kind\":\n", ["compute-0"], []⟩

def restarted : List Use := [.put quotedKey quotedRun, .restart, .get quotedKey]

theorem answer_exact_restarted :
    answer (some ⟨"cache"⟩) vacantDisk restarted quotedKey = some quotedRun ∧
      (after (some ⟨"cache"⟩) vacantDisk restarted).1.size =
        {key | Held (some ⟨"cache"⟩) restarted key}.ncard := by
  have hkey : (Use.get quotedKey).Keyed := ⟨_, _, rfl⟩
  have hvacant : ∀ d, some (⟨"cache"⟩ : Path) = some d → Vacant d vacantDisk := by
    intro d hd key _ bytes run hfile
    obtain rfl := Option.some.inj hd
    have hnames : (⟨"cache"⟩ : Path).names = ["cache"] := by decide +kernel
    rw [hnames] at hfile
    cases hfile
  have hkeys : ∀ u ∈ restarted, u.Keyed := by
    simp only [restarted, List.forall_mem_cons]
    exact ⟨hkey, trivial, hkey, by simp⟩
  have hwritten : ((writeFile ((⟨"cache"⟩ : Path).join (fileName quotedKey)) quotedRun).run
      vacantDisk).1 = .ok () :=
    run_writeFile_eq_ok ⟨""⟩ "cache" hkey.isDigest_get
      ⟨by decide, by decide, by decide⟩ rfl ⟨by decide, by decide, by decide, by decide⟩
      (by decide) (by decide) nofun nofun
  have hunfailing : Unfailing (some ⟨"cache"⟩) vacantDisk restarted := by
    intro before key run later he d hd
    obtain rfl := Option.some.inj hd
    obtain _ | ⟨_, _ | ⟨_, _ | ⟨_, before⟩⟩⟩ := before
    · obtain ⟨rfl, rfl⟩ := Use.put.inj (List.cons.inj he).1
      exact hwritten
    all_goals simp [restarted] at he
  obtain ⟨hanswer, -, hsize, -⟩ := answer_exact hvacant hkeys hunfailing
  refine ⟨(hanswer quotedKey hkey quotedRun).2 ?_, hsize⟩
  exact ⟨[], [.restart, .get quotedKey], rfl, by simp, by simp⟩

end Multicloud.RunCache

import Mathlib.Data.List.Forall2
import Multicloud.Proofs.Command.Loading
import Multicloud.Proofs.Disk.Text
import Multicloud.Proofs.Registry.Log

namespace Multicloud

namespace Script

variable {root root' : Tree}

theorem readFile_of_leads_readText {p : Path} {text : String}
    (h : Leads (readText p) root (.ok text) root') :
    DiskOp.readFile root p = .ok text.toUTF8 := by
  obtain ⟨answer, root₁, hread, hrest⟩ := leads_bind.1 h
  obtain ⟨-, rfl | ⟨e, rfl⟩⟩ := leads_read hread
  · split at hrest
    · cases (leads_pure.1 hrest).1
    · next bytes hbytes =>
      split at hrest
      · next s hs =>
        cases (leads_pure.1 hrest).1
        rw [hbytes, eq_toUTF8_of_fromUTF8? hs]
      · cases (leads_pure.1 hrest).1
  · cases (leads_pure.1 hrest).1

theorem leads_isFile {p : Path} {b : Bool} (h : Leads (isFile p) root b root') :
    root' = root ∧ (b = true → (DiskOp.findAt root p == some true) = true) := by
  obtain ⟨answer, root₁, hfind, hrest⟩ := leads_bind.1 h
  obtain ⟨rfl, rfl⟩ := leads_pure.1 hrest
  rcases @yields_of_leads _ _ (.find p) _ hfind with hrun | ⟨rfl, hsame⟩
  · obtain rfl : DiskOp.findAt root p = answer := congrArg Prod.fst hrun
    exact ⟨(congrArg Prod.snd hrun).symm, id⟩
  · exact ⟨hsame, by simp⟩

section Filter

variable {f : String → Path} {names found : List String}

theorem leads_filterAuxM {acc seen : List String}
    (h : Leads (names.filterAuxM (fun n ↦ isFile (f n)) acc) root seen root') : root' = root ∧
      ∃ found : List String, seen = found.reverse ++ acc ∧
        found.Sublist (names.filter fun n ↦ DiskOp.findAt root (f n) == some true) := by
  induction names generalizing acc with
  | nil =>
    obtain ⟨rfl, rfl⟩ := leads_pure.1 h
    exact ⟨rfl, [], rfl, .refl _⟩
  | cons n names ih =>
    obtain ⟨b, root₁, hn, hrest⟩ := leads_bind.1 h
    obtain ⟨rfl, hfile⟩ := leads_isFile hn
    obtain ⟨hroot, found, rfl, hfound⟩ := ih hrest
    refine ⟨hroot, ?_⟩
    cases b with
    | false =>
      refine ⟨found, rfl, hfound.trans ?_⟩
      exact List.Sublist.filter _ (List.sublist_cons_self n names)
    | true =>
      refine ⟨n :: found, by simp, ?_⟩
      rw [List.filter_cons, if_pos (hfile rfl)]
      exact hfound.cons_cons n

theorem leads_filterM (h : Leads (names.filterM fun n ↦ isFile (f n)) root found root') :
    root' = root ∧ found.Sublist (names.filter fun n ↦ DiskOp.findAt root (f n) == some true) := by
  obtain ⟨seen, root₁, hseen, hrest⟩ := leads_bind.1 h
  obtain ⟨rfl, rfl⟩ := leads_pure.1 hrest
  obtain ⟨hroot, found, rfl, hfound⟩ := leads_filterAuxM hseen
  exact ⟨hroot, by simpa using hfound⟩

theorem run_filterM (f : String → Path) (names : List String) (root : Tree) :
    (names.filterM fun n ↦ isFile (f n)).run root =
      (names.filter fun n ↦ DiskOp.findAt root (f n) == some true, root) := by
  have haux (acc : List String) : (names.filterAuxM (fun n ↦ isFile (f n)) acc).run root =
      ((names.filter fun n ↦ DiskOp.findAt root (f n) == some true).reverse ++ acc, root) := by
    induction names generalizing acc with
    | nil => rfl
    | cons n names ih =>
      have hn : (isFile (f n)).run root = (DiskOp.findAt root (f n) == some true, root) := rfl
      rw [List.filterAuxM, run_bind, hn, ih]
      cases h : DiskOp.findAt root (f n) == some true <;> simp [h]
  rw [List.filterM, run_bind, haux]
  simp [run_pure]

end Filter

end Script

namespace Registry

variable {g g' : Registry} {set : RuleSet} {p : Provider} {v : Version} {sets : List RuleSet}
  {root root' : Tree} {dir : Path}

section Names

theorem insertName_perm (x : String) (names : List String) :
    (insertName x names).Perm (x :: names) := by
  induction names with
  | nil => exact .refl _
  | cons y rest ih =>
    rw [insertName]
    split
    · exact (ih.cons y).trans (.swap x y rest)
    · exact .refl _

theorem sortNames_perm (names : List String) : (sortNames names).Perm names := by
  induction names with
  | nil => exact .refl _
  | cons x names ih => exact (insertName_perm x _).trans (ih.cons x)

theorem sorted_insertName (x : String) {names : List String} (h : names.Pairwise (· ≤ ·)) :
    (insertName x names).Pairwise (· ≤ ·) := by
  induction h with
  | nil => simp [insertName]
  | @cons y rest hy h ih =>
    rw [insertName]
    split
    · next hlt =>
      refine .cons (fun z hz ↦ ?_) ih
      rcases List.mem_cons.1 ((insertName_perm x rest).mem_iff.1 hz) with rfl | hz
      · exact Std.le_of_lt hlt
      · exact hy z hz
    · next hle =>
      have hxy : x ≤ y := String.not_lt.1 hle
      refine .cons (List.forall_mem_cons.2 ⟨hxy, fun z hz ↦ String.le_trans hxy (hy z hz)⟩) ?_
      exact .cons hy h

theorem sorted_sortNames (names : List String) : (sortNames names).Pairwise (· ≤ ·) := by
  induction names with
  | nil => exact .nil
  | cons x names ih => exact sorted_insertName x ih

end Names

section Files

def ruleNames (disk : Tree) (dir : Path) (names : List String) : List String :=
  names.filter fun n ↦ DiskOp.findAt disk (dir.join n) == some true && isRuleFile (dir.join n)

/-- Names of rule files of a directory, from the least on. One is passed over where the look at it
fails. -/
def AreRuleFiles (disk : Tree) (dir : Path) (names : List String) : Prop :=
  ∃ all seen, DiskOp.listDir disk dir = .ok all ∧ seen.Sublist (ruleNames disk dir all) ∧
    names.Perm seen ∧ names.Pairwise (· ≤ ·)

def FileHolds (disk : Tree) (p : Path) (set : RuleSet) : Prop :=
  ∃ text, (DiskOp.readFile disk p) = .ok (String.toUTF8 text) ∧ RuleSet.ofText text = .ok set

inductive TextFails (g : Registry) (origin text : String) : RegistryError → Prop
  | invalid {fault : RuleSetFault} (h : RuleSet.ofText text = .error fault) :
      TextFails g origin text (.invalid origin fault)
  | taken {set there : RuleSet} (h : RuleSet.ofText text = .ok set)
      (hthere : g.ruleSet set.provider set.version = .ok there) :
      TextFails g origin text (.duplicateRuleSet set.provider set.version)

/-- Why a file is refused: it cannot be read, or its text is refused. -/
inductive FileFails (g : Registry) (disk : Tree) (p : Path) : RegistryError → Prop
  | unread (cause : DiskError) : FileFails g disk p (.io p cause)
  | text {text : String} {e : RegistryError} (hread : DiskOp.readFile disk p = .ok text.toUTF8)
      (h : TextFails g p.text text e) : FileFails g disk p e

end Files

section Calls

/-- With an entry for the provider, which is there before its versions are looked at. -/
def opened (g : Registry) (p : Provider) : Registry := ⟨g.sets.insert p (g.versions p)⟩

/-- A call on a registry. A directory is read on the disk as it then is. -/
inductive Call where
  | register (set : RuleSet)
  | loadText (origin text : String)
  | loadDir (dir : Path) (disk : Tree)

/-- What a call answers and what it leaves. Any look at the disk can fail. -/
inductive Call.Leads (g : Registry) : Call → Except RegistryError Unit → Registry → Prop
  | registered {set : RuleSet} {g' : Registry} (h : g.register set = .ok g') :
      Leads g (.register set) (.ok ()) g'
  | refused {set : RuleSet} {e : RegistryError} (h : g.register set = .error e) :
      Leads g (.register set) (.error e) (g.opened set.provider)
  | loaded {origin text : String} {g' : Registry} (h : g.loadText origin text = .ok g') :
      Leads g (.loadText origin text) (.ok ()) g'
  | invalid {origin text : String} {fault : RuleSetFault} (h : RuleSet.ofText text = .error fault) :
      Leads g (.loadText origin text) (.error (.invalid origin fault)) g
  | unloaded {origin text : String} {set : RuleSet} {e : RegistryError}
      (hset : RuleSet.ofText text = .ok set) (h : g.loadText origin text = .error e) :
      Leads g (.loadText origin text) (.error e) (g.opened set.provider)
  | dir {dir : Path} {disk disk' : Tree} {result : Except RegistryError Nat} {g' : Registry}
      (h : (g.loadDir dir).Leads disk (result, g') disk') :
      Leads g (.loadDir dir disk) (result.map fun _ ↦ ()) g'

theorem opened_eq (h : g.ruleSet p v = .ok set) : g.opened p = g := by
  have hsome : g.sets[p]? = some (g.versions p) := by
    unfold ruleSet at h
    rw [versions, Std.ExtTreeMap.getD_eq_getD_getElem?]
    cases hp : g.sets[p]? with
    | none => simp [hp] at h
    | some vs => rfl
  refine congrArg Registry.mk (Std.ExtTreeMap.ext_getElem? fun q ↦ ?_)
  rw [Std.ExtTreeMap.getElem?_insert]
  split
  · next hq => rw [← Std.LawfulEqOrd.eq_of_compare hq, hsome]
  · rfl

theorem exists_ruleSet_of_register_eq_error {e : RegistryError} (h : g.register set = .error e) :
    e = .duplicateRuleSet set.provider set.version ∧
      ∃ there, g.ruleSet set.provider set.version = .ok there := by
  unfold register at h
  dsimp only at h
  split at h
  · next hmem =>
    cases h
    exact ⟨rfl, mem_versions_iff.1 (Std.ExtTreeMap.mem_iff_contains.2 hmem)⟩
  · cases h

/-- A call that names one rule set and fails leaves everything as it was. -/
theorem Call.Leads.eq_of_error {call : Call} {e : RegistryError}
    (h : call.Leads g (.error e) g') (hdir : ∀ dir disk, call ≠ .loadDir dir disk) : g' = g := by
  generalize hresult : (Except.error e : Except RegistryError Unit) = result at h
  cases h with
  | registered => cases hresult
  | refused h =>
    obtain ⟨-, there, hthere⟩ := exists_ruleSet_of_register_eq_error h
    exact opened_eq hthere
  | loaded => cases hresult
  | invalid => rfl
  | unloaded hset h =>
    simp only [Registry.loadText, hset] at h
    obtain ⟨-, there, hthere⟩ := exists_ruleSet_of_register_eq_error h
    exact opened_eq hthere
  | dir => exact absurd rfl (hdir _ _)

theorem textFails_of_loadText {origin text : String} {e : RegistryError}
    (h : g.loadText origin text = .error e) : TextFails g origin text e := by
  unfold loadText at h
  split at h
  · next fault hfault =>
    cases h
    exact .invalid hfault
  · next set hset =>
    obtain ⟨rfl, there, hthere⟩ := exists_ruleSet_of_register_eq_error h
    exact .taken hset hthere

/-- The files before the one that fails are loaded, and it is the first that fails. -/
theorem registers_of_leads_loadFiles {ps : List Path} {result : Except RegistryError Unit}
    (h : (g.loadFiles ps).Leads root (result, g') root') :
    ∃ sets, Registers g sets g' ∧
      ((result = .ok () ∧ List.Forall₂ (FileHolds root) ps sets) ∨
        ∃ before q after e, ps = before ++ q :: after ∧ result = .error e ∧
          List.Forall₂ (FileHolds root) before sets ∧ FileFails g' root q e) := by
  induction ps generalizing g with
  | nil =>
    obtain ⟨heq, -⟩ := Script.leads_pure.1 h
    cases heq
    exact ⟨[], .nil _, .inl ⟨rfl, .nil⟩⟩
  | cons q ps ih =>
    obtain ⟨answer, root₁, hread, hrest⟩ := Script.leads_bind.1 h
    obtain rfl : root = root₁ := ((Script.only_readText q).eq_of_reaches hread.reaches).symm
    split at hrest
    · next e =>
      obtain ⟨heq, -⟩ := Script.leads_pure.1 hrest
      cases heq
      exact ⟨[], .nil _, .inr ⟨[], q, ps, _, rfl, rfl, .nil, .unread e⟩⟩
    · next text =>
      have htext := Script.readFile_of_leads_readText hread
      split at hrest
      · next e hload =>
        obtain ⟨heq, -⟩ := Script.leads_pure.1 hrest
        cases heq
        exact ⟨[], .nil _, .inr ⟨[], q, ps, _, rfl, rfl, .nil,
          .text htext (textFails_of_loadText hload)⟩⟩
      · next g₁ hload =>
        obtain ⟨set, hset, hr⟩ := loadText_eq_ok hload
        obtain ⟨sets, hsets, hfiles⟩ := ih hrest
        have hq : FileHolds root q set := ⟨text, htext, hset⟩
        refine ⟨set :: sets, .cons hr hsets, ?_⟩
        rcases hfiles with ⟨hok, hall⟩ | ⟨before, q', after, e, rfl, he, hall, hfails⟩
        · exact .inl ⟨hok, .cons hq hall⟩
        · exact .inr ⟨q :: before, q', after, e, rfl, he, .cons hq hall, hfails⟩

theorem areRuleFiles_of_leads_ruleFiles {answer : Except DiskError (List Path)}
    (h : (ruleFiles dir).Leads root answer root') : root' = root ∧
      ((∃ e, answer = .error e) ∨
        ∃ names, answer = .ok (names.map dir.join) ∧ AreRuleFiles root dir names) := by
  obtain ⟨listing, root₁, hlist, hrest⟩ := Script.leads_bind.1 h
  have hlisting : root₁ = root ∧ (listing = DiskOp.listDir root dir ∨ ∃ e, listing = .error e) := by
    rcases @Script.yields_of_leads _ _ (.list dir) _ hlist with hrun | ⟨herror, hsame⟩
    · exact ⟨(congrArg Prod.snd hrun).symm, .inl (congrArg Prod.fst hrun).symm⟩
    · exact ⟨hsame, .inr herror⟩
  obtain ⟨rfl, hlisting⟩ := hlisting
  split at hrest
  · obtain ⟨rfl, rfl⟩ := Script.leads_pure.1 hrest
    exact ⟨rfl, .inl ⟨_, rfl⟩⟩
  · next all =>
    obtain ⟨seen, root₂, hseen, hdone⟩ := Script.leads_bind.1 hrest
    obtain ⟨rfl, hseen⟩ := Script.leads_filterM hseen
    obtain ⟨rfl, rfl⟩ := Script.leads_pure.1 hdone
    refine ⟨rfl, .inr ⟨sortNames seen, rfl, all, seen, ?_, ?_, sortNames_perm seen,
      sorted_sortNames seen⟩⟩
    · rcases hlisting with h | ⟨e, h⟩
      · exact h.symm
      · cases h
    · rwa [ruleNames, ← List.filter_filter]

theorem run_ruleFiles {all : List String} (h : DiskOp.listDir root dir = .ok all) :
    (ruleFiles dir).run root = (.ok ((sortNames (ruleNames root dir all)).map dir.join), root) := by
  have hlist : (Script.list dir).run root = (.ok all, root) := by rw [← h]; rfl
  rw [ruleFiles, Script.run_bind, hlist]
  dsimp only
  rw [Script.run_bind, Script.run_filterM, List.filter_filter]
  rfl

structure Step where
  call : Call
  result : Except RegistryError Unit
  left : Registry

/-- The rule sets that a call adds, in their order. A directory is loaded up to its first file that
fails. -/
inductive Step.Adds : Step → List RuleSet → Prop
  | registered {set : RuleSet} {left : Registry} : Adds ⟨.register set, .ok (), left⟩ [set]
  | refused {set there : RuleSet} {left : Registry}
      (hthere : left.ruleSet set.provider set.version = .ok there) :
      Adds ⟨.register set, .error (.duplicateRuleSet set.provider set.version), left⟩ []
  | loaded {origin text : String} {set : RuleSet} {left : Registry}
      (hset : RuleSet.ofText text = .ok set) : Adds ⟨.loadText origin text, .ok (), left⟩ [set]
  | unloaded {origin text : String} {e : RegistryError} {left : Registry}
      (h : left.TextFails origin text e) : Adds ⟨.loadText origin text, .error e, left⟩ []
  | unlisted {dir : Path} {disk : Tree} {left : Registry} (cause : DiskError) :
      Adds ⟨.loadDir dir disk, .error (.io dir cause), left⟩ []
  | whole {dir : Path} {disk : Tree} {left : Registry} {names : List String} {sets : List RuleSet}
      (hnames : AreRuleFiles disk dir names)
      (hsets : List.Forall₂ (fun n set ↦ FileHolds disk (dir.join n) set) names sets) :
      Adds ⟨.loadDir dir disk, .ok (), left⟩ sets
  | stopped {dir : Path} {disk : Tree} {left : Registry} {before after : List String} {n : String}
      {sets : List RuleSet} {e : RegistryError}
      (hnames : AreRuleFiles disk dir (before ++ n :: after))
      (hsets : List.Forall₂ (fun n set ↦ FileHolds disk (dir.join n) set) before sets)
      (hn : left.FileFails disk (dir.join n) e) : Adds ⟨.loadDir dir disk, .error e, left⟩ sets

def Call.IsRead (call : Call) : Prop := ∀ set, call = .register set → Registry.IsRead set

theorem Step.Adds.isRead {step : Step} (h : step.Adds sets) (hcall : step.call.IsRead) :
    ∀ set ∈ sets, IsRead set := by
  have hfiles {disk : Tree} {dir : Path} {names : List String} {sets : List RuleSet}
      (hsets : List.Forall₂ (fun n set ↦ FileHolds disk (dir.join n) set) names sets) :
      ∀ set ∈ sets, IsRead set := by
    intro set hset
    obtain ⟨n, -, text, -, hread⟩ := exists_of_forall₂_right hsets hset
    exact ⟨text, hread⟩
  cases h with
  | registered => simpa using hcall _ rfl
  | refused => simp
  | loaded hset => simpa using ⟨_, hset⟩
  | unloaded => simp
  | unlisted => simp
  | whole _ hsets => exact hfiles hsets
  | stopped _ hsets => exact hfiles hsets

theorem adds_of_leads_loadDir {disk disk' : Tree} {result : Except RegistryError Nat}
    (h : (g.loadDir dir).Leads disk (result, g') disk') :
    ∃ sets, Registers g sets g' ∧
      Step.Adds ⟨.loadDir dir disk, result.map fun _ ↦ (), g'⟩ sets := by
  obtain ⟨answer, disk₁, hfiles, hrest⟩ := Script.leads_bind.1 h
  obtain ⟨rfl, ⟨cause, rfl⟩ | ⟨names, rfl, hnames⟩⟩ := areRuleFiles_of_leads_ruleFiles hfiles
  · obtain ⟨heq, -⟩ := Script.leads_pure.1 hrest
    cases heq
    exact ⟨[], .nil _, .unlisted cause⟩
  · obtain ⟨⟨loaded, g₁⟩, disk₂, hload, hdone⟩ := Script.leads_bind.1 hrest
    obtain ⟨heq, -⟩ := Script.leads_pure.1 hdone
    cases heq
    obtain ⟨sets, hsets, ⟨rfl, hall⟩ | ⟨before, q, after, e, hsplit, rfl, hall, hfails⟩⟩ :=
      registers_of_leads_loadFiles hload
    · exact ⟨sets, hsets, .whole hnames (List.forall₂_map_left_iff.1 hall)⟩
    · obtain ⟨before, rest, rfl, rfl, hrest⟩ := List.map_eq_append_iff.1 hsplit
      obtain ⟨n, after, rfl, rfl, rfl⟩ := List.map_eq_cons_iff.1 hrest
      exact ⟨sets, hsets, .stopped hnames (List.forall₂_map_left_iff.1 hall) hfails⟩

theorem Call.Leads.exists_registers {call : Call} {result : Except RegistryError Unit}
    (h : call.Leads g result g') :
    ∃ sets, Registers g sets g' ∧ Step.Adds ⟨call, result, g'⟩ sets := by
  cases h with
  | registered h => exact ⟨_, .cons h (.nil _), .registered⟩
  | refused h =>
    obtain ⟨rfl, there, hthere⟩ := exists_ruleSet_of_register_eq_error h
    rw [opened_eq hthere]
    exact ⟨[], .nil g, .refused hthere⟩
  | loaded h =>
    obtain ⟨set, hset, hr⟩ := loadText_eq_ok h
    exact ⟨_, .cons hr (.nil _), .loaded hset⟩
  | invalid h => exact ⟨[], .nil g, .unloaded (.invalid h)⟩
  | unloaded hset h =>
    simp only [Registry.loadText, hset] at h
    obtain ⟨rfl, there, hthere⟩ := exists_ruleSet_of_register_eq_error h
    rw [opened_eq hthere]
    exact ⟨[], .nil g, .unloaded (.taken hset hthere)⟩
  | dir h => exact adds_of_leads_loadDir h

inductive Runs : Registry → List Step → Registry → Prop
  | nil (g : Registry) : Runs g [] g
  | cons {g g' left : Registry} {call : Call} {result : Except RegistryError Unit}
      {steps : List Step} (h : call.Leads g result left) (hrest : Runs left steps g') :
      Runs g (⟨call, result, left⟩ :: steps) g'

theorem Runs.exists_registers {steps : List Step} (h : Runs g steps g') :
    ∃ parts, List.Forall₂ Step.Adds steps parts ∧ Registers g parts.flatten g' := by
  induction h with
  | nil g => exact ⟨[], .nil, .nil g⟩
  | cons h _ ih =>
    obtain ⟨sets, hsets, hadds⟩ := h.exists_registers
    obtain ⟨parts, hparts, hrest⟩ := ih
    exact ⟨sets :: parts, .cons hadds hparts, hsets.append hrest⟩

def smallText : String :=
  "provider: acme\nversion: \"1\"\nrules:\n  compute_node:\n    artifact: vm\n    module: acme/vm\n" ++
  "    module_version: \"1\"\n"

theorem exists_ofText_smallText : ∃ set, RuleSet.ofText smallText = .ok set := by
  have h : (RuleSet.ofText smallText).toOption.isSome = true := by
    rw [RuleSet.ofText, show smallText.toList = _ from RuleSet.toList_ofList_append _ _]
    decide +kernel
  obtain ⟨set, hset⟩ := Option.isSome_iff_exists.1 h
  exact ⟨set, toOption_eq_some.1 hset⟩

theorem register_again (h : g.register set = .ok g') :
    g'.register set = .error (.duplicateRuleSet set.provider set.version) := by
  have hmem : set.version ∈ g'.versions set.provider :=
    mem_versions_iff.2 ⟨set, ruleSet_of_register h⟩
  rw [register, if_pos (Std.ExtTreeMap.mem_iff_contains.1 hmem)]

end Calls

end Registry

end Multicloud

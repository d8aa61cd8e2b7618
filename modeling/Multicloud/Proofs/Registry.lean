import Mathlib.Data.List.Pairwise
import Multicloud.Proofs.Disk.Script
import Multicloud.Proofs.Fallible
import Multicloud.Rules.Shipped

namespace Multicloud

namespace Registry

variable {g g' : Registry} {set : RuleSet} {p : Provider} {v : Version}

/-- The registries that come of registering rule sets one after the other. -/
inductive Filled : Registry → Prop
  | empty : Filled .empty
  | register {g g' : Registry} {set : RuleSet} (h : Filled g) (hr : g.register set = .ok g') :
      Filled g'

theorem register_eq_ok : g.register set = .ok g' ↔
    set.version ∉ g.versions set.provider ∧
      g' = ⟨g.sets.insert set.provider
        ((g.versions set.provider).insert set.version set)⟩ := by
  simp only [Registry.register]
  split
  · next hmem => simp [Std.ExtTreeMap.mem_iff_contains.2 hmem]
  · next hmem => simp [Std.ExtTreeMap.mem_iff_contains.not.2 hmem, eq_comm]

theorem ruleSet_eq_ok : g.ruleSet p v = .ok set ↔ (g.versions p)[v]? = some set := by
  unfold ruleSet versions
  rw [Std.ExtTreeMap.getD_eq_getD_getElem?]
  cases g.sets[p]? with
  | none => simp
  | some vs =>
    dsimp only [Option.getD_some]
    cases vs[v]? <;> simp

theorem versions_of_register (h : g.register set = .ok g') (p : Provider) :
    g'.versions p =
      if p = set.provider then (g.versions p).insert set.version set else g.versions p := by
  obtain ⟨-, rfl⟩ := register_eq_ok.1 h
  by_cases hp : p = set.provider
  · subst hp
    rw [if_pos rfl, versions, Std.ExtTreeMap.getD_insert_self]
  · have hne : ¬ compare set.provider p = .eq := fun he ↦
      hp (Std.LawfulEqOrd.eq_of_compare he).symm
    rw [if_neg hp, versions, Std.ExtTreeMap.getD_insert, if_neg hne, ← versions]

theorem ruleSet_of_register (h : g.register set = .ok g') :
    g'.ruleSet set.provider set.version = .ok set := by
  rw [ruleSet_eq_ok, versions_of_register h, if_pos rfl, Std.ExtTreeMap.getElem?_insert_self]

theorem Filled.of_ruleSet_eq_ok (h : Filled g) (hs : g.ruleSet p v = .ok set) :
    set.provider = p ∧ set.version = v := by
  rw [ruleSet_eq_ok] at hs
  induction h with
  | empty => simp [versions, Registry.empty] at hs
  | register h hr ih =>
    rw [versions_of_register hr] at hs
    split at hs
    · next hp =>
      rw [Std.ExtTreeMap.getElem?_insert] at hs
      split at hs
      · next hv =>
        cases hs
        exact ⟨hp.symm, Std.LawfulEqOrd.eq_of_compare hv⟩
      · exact ih hs
    · exact ih hs

theorem Filled.exists_ruleSet (h : Filled g) {pin : Option Version} (hb : g.bind p pin = .ok v) :
    ∃ set, g.ruleSet p v = .ok set := by
  unfold Registry.bind at hb
  cases pin with
  | none =>
    dsimp only at hb
    split at hb
    · next v' hlatest =>
      cases hb
      have hmem : v ∈ g.versions p := Std.ExtTreeMap.maxKey?_mem hlatest
      rw [Std.ExtTreeMap.mem_iff_isSome_getElem?, Option.isSome_iff_exists] at hmem
      exact hmem.imp fun set hset ↦ ruleSet_eq_ok.2 hset
    · cases hb
  | some pinned =>
    obtain ⟨set, hset, rfl⟩ := map_eq_ok.1 hb
    obtain ⟨-, rfl⟩ := h.of_ruleSet_eq_ok hset
    exact ⟨set, hset⟩

theorem Filled.loadText (h : Filled g) {origin text : String}
    (hl : g.loadText origin text = .ok g') : Filled g' := by
  unfold Registry.loadText at hl
  split at hl
  · cases hl
  · exact .register h hl

theorem Filled.loadFiles (h : Filled g) (ps : List Path) (root : Tree) :
    Filled ((g.loadFiles ps).run root).1.2 := by
  induction ps generalizing g with
  | nil => exact h
  | cons p ps ih =>
    rw [Registry.loadFiles, Script.run_bind, Script.run_readText]
    dsimp only
    split
    · exact h
    · split
      · exact h
      · next hl => exact ih (h.loadText hl)

theorem Filled.loadDir (h : Filled g) (dir : Path) (root : Tree) :
    Filled ((g.loadDir dir).run root).1.2 := by
  rw [Registry.loadDir, Script.run_bind]
  split
  · exact h
  · rw [Script.run_bind]
    exact h.loadFiles _ _

theorem filled_foldl_drafts (ds : List RuleSetDraft)
    (hd : ds.Pairwise fun d d' ↦ d.provider = d'.provider → d.version ≠ d'.version)
    {sets : Std.ExtTreeMap Provider (Std.ExtTreeMap Version RuleSet)} (h : Filled ⟨sets⟩)
    (hnew : ∀ d ∈ ds, d.version ∉ sets.getD d.provider ∅) :
    Filled ⟨ds.foldl (fun sets d ↦
      sets.insert d.provider ((sets.getD d.provider ∅).insert d.version d.finish)) sets⟩ := by
  induction ds generalizing sets with
  | nil => exact h
  | cons d ds ih =>
    obtain ⟨hfirst, hd⟩ := List.pairwise_cons.1 hd
    have hr : Registry.register ⟨sets⟩ d.finish = .ok ⟨sets.insert d.provider
        ((sets.getD d.provider ∅).insert d.version d.finish)⟩ :=
      register_eq_ok.2 ⟨hnew d (.head _), rfl⟩
    refine ih hd (.register h hr) fun d' hmem hv ↦ ?_
    have hversions := versions_of_register hr d'.provider
    unfold versions at hversions
    rw [hversions] at hv
    split at hv
    · next hp =>
      rw [Std.ExtTreeMap.mem_insert] at hv
      rcases hv with hv | hv
      · exact hfirst d' hmem hp.symm (Std.LawfulEqOrd.eq_of_compare hv)
      · exact hnew d' (.tail _ hmem) hv
    · exact hnew d' (.tail _ hmem) hv

theorem filled_builtin : Filled .builtin := by
  apply filled_foldl_drafts
  · decide
  · exact .empty
  · simp

end Registry

end Multicloud

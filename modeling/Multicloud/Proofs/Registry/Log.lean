import Multicloud.Proofs.Name.Version
import Multicloud.Proofs.Registry
import Multicloud.Proofs.Rules.Document
import Multicloud.Proofs.Run.Binding

namespace Multicloud

namespace Registry

variable {g g₁ g' : Registry} {set set' : RuleSet} {p : Provider} {v : Version}
  {sets log : List RuleSet}

section Registers

/-- Rule sets registered one after the other. -/
inductive Registers : Registry → List RuleSet → Registry → Prop
  | nil (g : Registry) : Registers g [] g
  | cons {g g₁ g' : Registry} {set : RuleSet} {sets : List RuleSet} (hr : g.register set = .ok g₁)
      (h : Registers g₁ sets g') : Registers g (set :: sets) g'

theorem Registers.append (h : Registers g sets g₁) (h' : Registers g₁ log g') :
    Registers g (sets ++ log) g' := by
  induction h with
  | nil => exact h'
  | cons hr _ ih => exact .cons hr (ih h')

theorem not_ruleSet_of_register (h : g.register set = .ok g') :
    g.ruleSet set.provider set.version ≠ .ok set' := by
  obtain ⟨hnew, -⟩ := register_eq_ok.1 h
  rw [Ne, ruleSet_eq_ok, Std.ExtTreeMap.getElem?_eq_none hnew]
  nofun

theorem ruleSet_of_register_eq_ok (h : g.register set = .ok g') :
    g'.ruleSet p v = .ok set' ↔
      g.ruleSet p v = .ok set' ∨ set' = set ∧ set'.provider = p ∧ set'.version = v := by
  by_cases hkey : set.provider = p ∧ set.version = v
  · obtain ⟨rfl, rfl⟩ := hkey
    rw [ruleSet_of_register h, Except.ok.injEq, or_iff_right (not_ruleSet_of_register h)]
    exact ⟨fun he ↦ he ▸ ⟨rfl, rfl, rfl⟩, fun he ↦ he.1.symm⟩
  · rw [or_iff_left (by rintro ⟨rfl, he⟩; exact hkey he), ruleSet_eq_ok, ruleSet_eq_ok,
      versions_of_register h]
    split
    · next hp =>
      have hv : ¬ compare set.version v = .eq := fun he ↦
        hkey ⟨hp.symm, Std.LawfulEqOrd.eq_of_compare he⟩
      rw [Std.ExtTreeMap.getElem?_insert, if_neg hv]
    · rfl

theorem Registers.ruleSet_eq_ok_iff (h : Registers g log g') :
    g'.ruleSet p v = .ok set ↔
      g.ruleSet p v = .ok set ∨ set ∈ log ∧ set.provider = p ∧ set.version = v := by
  induction h with
  | nil => simp
  | cons hr _ ih =>
    rw [ih, ruleSet_of_register_eq_ok hr, List.mem_cons, or_and_right, or_assoc]

theorem Registers.mem_sets_iff (h : Registers g log g') :
    p ∈ g'.sets ↔ p ∈ g.sets ∨ ∃ set ∈ log, set.provider = p := by
  induction h with
  | nil => simp
  | @cons g g₁ g' set sets hr _ ih =>
    obtain ⟨-, rfl⟩ := register_eq_ok.1 hr
    have hp : compare set.provider p = .eq ↔ set.provider = p :=
      ⟨Std.LawfulEqOrd.eq_of_compare, fun he ↦ he ▸ Std.ReflOrd.compare_self⟩
    rw [ih, Std.ExtTreeMap.mem_insert, hp]
    simp only [List.mem_cons, or_and_right, exists_or, exists_eq_left]
    rw [or_comm (a := set.provider = p), or_assoc]

theorem Registers.new (h : Registers g log g') (hset : set ∈ log) :
    g.ruleSet set.provider set.version ≠ .ok set' := by
  induction h with
  | nil => cases hset
  | cons hr _ ih =>
    rcases List.mem_cons.1 hset with rfl | hset
    · exact not_ruleSet_of_register hr
    · exact fun hs ↦ ih hset ((ruleSet_of_register_eq_ok hr).2 (.inl hs))

/-- One rule set at most for each version of a provider. -/
def Distinct (log : List RuleSet) : Prop :=
  log.Pairwise fun s t ↦ ¬ (s.provider = t.provider ∧ s.version.text = t.version.text)

theorem Registers.distinct (h : Registers g log g') : Distinct log := by
  induction h with
  | nil => exact .nil
  | @cons g g₁ g' set sets hr hrest ih =>
    refine .cons (fun t ht he ↦ ?_) ih
    have hset : g₁.ruleSet t.provider t.version = .ok set := by
      rw [← he.1, ← Version.eq_of_text_eq he.2]
      exact ruleSet_of_register hr
    exact hrest.new ht hset

theorem Registers.filled (h : Registers g log g') (hg : Filled g) : Filled g' := by
  induction h with
  | nil => exact hg
  | cons hr _ ih => exact ih (.register hg hr)

end Registers

section Follows

def IsFor (p : Provider) (v : Version) (set : RuleSet) : Prop :=
  set.provider = p ∧ set.version.text = v.text

instance : DecidablePred (IsFor p v) := fun _ ↦ inferInstanceAs (Decidable (_ ∧ _))

/-- A registry that holds what has been registered, as the log of it says, and nothing else. -/
structure Follows (g : Registry) (log : List RuleSet) : Prop where
  distinct : Distinct log
  ruleSet : ∀ p v set, g.ruleSet p v = .ok set ↔ log.find? (IsFor p v) = some set
  providers : ∀ p, p ∈ g.providers ↔ ∃ set ∈ log, set.provider = p
  exists_version : ∀ p ∈ g.providers, ∃ v set, g.ruleSet p v = .ok set
  exists_latest : ∀ p ∈ g.providers, ∃ v, g.bind p none = .ok v
  latest : ∀ p v, g.bind p none = .ok v ↔
    (∃ set ∈ log, IsFor p v set) ∧ ∀ set ∈ log, set.provider = p → set.version.NotAbove v
  pinned : ∀ p pin v, g.bind p (some pin) = .ok v ↔ v = pin ∧ ∃ set ∈ log, IsFor p pin set
  resolve : ∀ k p v rule, g.resolve k p v = .ok rule ↔
    ∃ set ∈ log, IsFor p v set ∧ set.rule? k = some rule
  carries : ∀ k p v rule, g.resolve k p v = .ok rule →
    rule.kind = k ∧ rule.provider = p ∧ rule.version = v

theorem isFor_iff : IsFor p v set ↔ set.provider = p ∧ set.version = v :=
  and_congr_right fun _ ↦ ⟨Version.eq_of_text_eq, congrArg Version.text⟩

/-- A rule set that was read from a text. -/
def IsRead (set : RuleSet) : Prop := ∃ text, RuleSet.ofText text = .ok set

theorem IsRead.rule {k : Kind} {rule : Rule} (h : IsRead set) (hrule : set.rule? k = some rule) :
    rule.kind = k ∧ rule.provider = set.provider ∧ rule.version = set.version := by
  obtain ⟨text, h⟩ := h
  obtain ⟨d, -, -, rfl⟩ := RuleSet.of_ofText_eq_ok h
  obtain ⟨r, -, rfl⟩ := Option.map_eq_some_iff.1 hrule
  exact ⟨rfl, rfl, rfl⟩

theorem mem_versions_iff : v ∈ g.versions p ↔ ∃ set, g.ruleSet p v = .ok set := by
  simp only [Std.ExtTreeMap.mem_iff_isSome_getElem?, Option.isSome_iff_exists, ruleSet_eq_ok]

theorem bind_none_eq_ok_iff : g.bind p none = .ok v ↔ (g.versions p).maxKey? = some v := by
  rw [bind, latest?]
  cases (g.versions p).maxKey? <;> simp

theorem bind_none_eq_ok : g.bind p none = .ok v ↔
    (∃ set, g.ruleSet p v = .ok set) ∧ ∀ w set, g.ruleSet p w = .ok set → w.NotAbove v := by
  rw [bind_none_eq_ok_iff, Std.ExtTreeMap.maxKey?_eq_some_iff_mem_and_forall, mem_versions_iff]
  refine and_congr_right fun _ ↦ forall_congr' fun w ↦ ?_
  rw [mem_versions_iff, Version.isLE_compare_iff, forall_exists_index]

theorem exists_bind_none (h : g.ruleSet p v = .ok set) : ∃ w, g.bind p none = .ok w := by
  simp only [bind_none_eq_ok_iff, ← Option.isSome_iff_exists]
  exact Std.ExtTreeMap.isSome_maxKey?_of_mem (mem_versions_iff.2 ⟨set, h⟩)

theorem bind_some_eq_ok (hg : Filled g) {pin : Version} :
    g.bind p (some pin) = .ok v ↔ v = pin ∧ ∃ set, g.ruleSet p pin = .ok set := by
  rw [bind, map_eq_ok]
  constructor
  · rintro ⟨set, hset, rfl⟩
    exact ⟨(hg.of_ruleSet_eq_ok hset).2, set, hset⟩
  · rintro ⟨rfl, set, hset⟩
    exact ⟨set, hset, (hg.of_ruleSet_eq_ok hset).2⟩

theorem resolve_eq_ok {k : Kind} {rule : Rule} : g.resolve k p v = .ok rule ↔
    ∃ set, g.ruleSet p v = .ok set ∧ set.rule? k = some rule := by
  rw [resolve, bind_eq_ok]
  refine exists_congr fun set ↦ and_congr_right fun _ ↦ ?_
  cases set.rule? k <;> simp [pure, Except.pure, throw, throwThe, MonadExceptOf.throw]

theorem find?_isFor (h : Distinct log) :
    log.find? (IsFor p v) = some set ↔ set ∈ log ∧ IsFor p v set := by
  constructor
  · exact fun hf ↦ ⟨List.mem_of_find?_eq_some hf, by simpa using List.find?_some hf⟩
  · rintro ⟨hmem, hset⟩
    induction h with
    | nil => cases hmem
    | @cons s log hs _ ih =>
      rw [List.find?_cons]
      rcases List.mem_cons.1 hmem with rfl | hmem
      · simp [hset]
      · have hne : ¬ IsFor p v s := fun he ↦
          hs set hmem ⟨he.1.trans hset.1.symm, he.2.trans hset.2.symm⟩
        simpa [hne] using ih hmem

theorem Registers.follows (h : Registers .empty log g) (hread : ∀ set ∈ log, IsRead set) :
    g.Follows log := by
  have hnone : ∀ (p : Provider) (v : Version) set, Registry.empty.ruleSet p v ≠ .ok set := by
    simp [ruleSet_eq_ok, versions, Registry.empty]
  have hruleSet : ∀ p v set, g.ruleSet p v = .ok set ↔ set ∈ log ∧ IsFor p v set := by
    intro p v set
    rw [h.ruleSet_eq_ok_iff, or_iff_right (hnone p v set), isFor_iff]
  have hproviders : ∀ p, p ∈ g.providers ↔ ∃ set ∈ log, set.provider = p := by
    intro p
    rw [providers, Std.ExtTreeMap.mem_keys, h.mem_sets_iff, or_iff_right (by simp [Registry.empty])]
  have hversion : ∀ p ∈ g.providers, ∃ v set, g.ruleSet p v = .ok set := by
    intro p hp
    obtain ⟨set, hset, rfl⟩ := (hproviders p).1 hp
    exact ⟨set.version, set, (hruleSet _ _ _).2 ⟨hset, rfl, rfl⟩⟩
  have hresolve : ∀ k p v rule, g.resolve k p v = .ok rule ↔
      ∃ set ∈ log, IsFor p v set ∧ set.rule? k = some rule := by
    intro k p v rule
    simp only [resolve_eq_ok, hruleSet, and_assoc]
  constructor
  · exact h.distinct
  · exact fun p v set ↦ (hruleSet p v set).trans (find?_isFor h.distinct).symm
  · exact hproviders
  · exact hversion
  · intro p hp
    obtain ⟨v, set, hset⟩ := hversion p hp
    exact exists_bind_none hset
  · intro p v
    rw [bind_none_eq_ok]
    simp only [hruleSet, isFor_iff, and_imp]
    refine and_congr_right fun _ ↦ ⟨fun hall set hset hp ↦ hall _ set hset hp rfl, ?_⟩
    rintro hall w set hset hp rfl
    exact hall set hset hp
  · intro p pin v
    rw [bind_some_eq_ok (h.filled .empty)]
    simp only [hruleSet]
  · exact hresolve
  · intro k p v rule hrule
    obtain ⟨set, hset, hfor, hkind⟩ := (hresolve k p v rule).1 hrule
    obtain ⟨rfl, rfl⟩ := isFor_iff.1 hfor
    exact (hread set hset).rule hkind

end Follows

end Registry

end Multicloud

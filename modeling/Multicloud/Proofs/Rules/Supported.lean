import Multicloud.Proofs.Artifact.Progress
import Multicloud.Proofs.Graph.Totality
import Multicloud.Proofs.Rules.Shipped

namespace Multicloud

namespace Name

theorem identifier_inj {start id id' : String} :
    identifier start id = identifier start id' ↔
      id.toList.map identifierChar = id'.toList.map identifierChar := by
  rw [identifier, identifier, String.append_right_inj, String.ofList_inj]

theorem identifierChar_of_isDigit {c : Char} (h : c.isDigit = true) : identifierChar c = c := by
  simp only [Char.isDigit, Bool.and_eq_true, decide_eq_true_eq] at h
  have hlower : c.toLower = c := by
    have hupper : ¬ (c.val ≥ 65 ∧ c.val ≤ 90) := fun hc ↦
      absurd (UInt32.le_trans hc.1 h.2) (by decide)
    exact dif_neg hupper
  have hchar : isIdentifierChar c = true := by
    have hlow : '0' ≤ c := h.1
    have hhigh : c ≤ '9' := h.2
    simp [isIdentifierChar, hlow, hhigh]
  rw [identifierChar, hlower]
  exact if_pos hchar

theorem map_identifierChar_repr (n : Nat) :
    (Nat.repr n).toList.map identifierChar = (Nat.repr n).toList := by
  have hdigit : ∀ c ∈ (Nat.repr n).toList, identifierChar c = id c := fun c hc ↦
    identifierChar_of_isDigit (Text.isDigit_of_mem_repr hc)
  rw [List.map_congr_left hdigit, List.map_id]

end Name

namespace ResourceGraph

variable {spec : WorkloadSpec} {g : ResourceGraph} {r r' : Resource} {start : String}

section Identifiers

theorem Made.kind_eq_of_identifier_eq (h : Made spec r) (h' : Made spec r')
    (he : Name.identifier start r.id = Name.identifier start r'.id) : r.kind = r'.kind := by
  have hhead := congrArg List.head? (Name.identifier_inj.1 he)
  rw [List.head?_map, List.head?_map, h.head_id, h'.head_id] at hhead
  revert hhead
  cases r.kind <;> cases r'.kind <;> decide

/-- Identifiers of different kinds or numbers are different, so only domains can collide. -/
theorem Made.id_eq_of_identifier_eq (h : Made spec r) (h' : Made spec r')
    (hd : (spec.networking.domains.map (Name.identifier "")).Nodup)
    (he : Name.identifier start r.id = Name.identifier start r'.id) : r.id = r'.id := by
  have hk := h.kind_eq_of_identifier_eq h' he
  have he := Name.identifier_inj.1 he
  have hrepr {m n : Nat} (h : (Nat.repr m).toList = (Nat.repr n).toList) :
      Nat.repr m = Nat.repr n := String.toList_inj.1 h
  have hdomain {d d' : String} (hmem : d ∈ spec.networking.domains)
      (hmem' : d' ∈ spec.networking.domains)
      (h : d.toList.map Name.identifierChar = d'.toList.map Name.identifierChar) : d = d' :=
    List.inj_on_of_nodup_map hd hmem hmem' (Name.identifier_inj.2 h)
  cases h with
  | computeNode i =>
    cases h' with
    | computeNode j =>
      simp only [ResourceGraph.computeNode, computeId, String.toList_append, List.map_append,
        Name.map_identifierChar_repr] at he ⊢
      rw [hrepr (List.append_cancel_left he)]
    | _ => cases hk
  | link a b =>
    cases h' with
    | link a' b' =>
      have hlow (n : Nat) : '_' ∉ (Nat.repr n).toList := fun hmem ↦
        absurd (Text.isDigit_of_mem_repr hmem) (by decide)
      simp only [ResourceGraph.link, linkId, String.toList_append, List.map_append,
        Name.map_identifierChar_repr, List.append_assoc] at he ⊢
      obtain ⟨ha, hb⟩ := Text.append_cons_inj (hlow _) (hlow _) (List.append_cancel_left he)
      rw [hrepr ha, hrepr hb]
    | _ => cases hk
  | @route _ d hmem _ _ =>
    cases h' with
    | @route _ d' hmem' _ _ =>
      simp only [ResourceGraph.route, ingressId, String.toList_append, List.map_append] at he ⊢
      rw [hdomain hmem hmem' (List.append_cancel_left he)]
    | _ => cases hk
  | @record d hmem =>
    cases h' with
    | @record d' hmem' =>
      simp only [ResourceGraph.record, dnsId, String.toList_append, List.map_append] at he ⊢
      rw [hdomain hmem hmem' (List.append_cancel_left he)]
    | _ => cases hk
  | volume i _ =>
    cases h' with
    | volume j _ =>
      simp only [ResourceGraph.volume, volumeId, String.toList_append, List.map_append,
        Name.map_identifierChar_repr] at he ⊢
      rw [hrepr (List.append_cancel_left he)]
    | _ => cases hk

theorem perm_resourcesOf_of_build_eq_ok (hb : build spec = .ok g) :
    repeatedDomain? ∅ spec.networking.domains = none ∧
      ∃ edges, g.resources.Perm (resourcesOf spec edges) := by
  rw [build_eq] at hb
  split at hb
  · cases hb
  · split at hb
    · cases hb
    · next hd =>
      split at hb
      · cases hb
      · next edges he =>
        obtain ⟨-, -, -, -, hperm, -⟩ := of_ofResources_eq_ok hb
        exact ⟨hd, edges, hperm⟩

theorem nodup_identifier_ids (hb : build spec = .ok g) (start : String) :
    (g.ids.map (Name.identifier start)).Nodup ↔
      (spec.networking.domains.map (Name.identifier "")).Nodup := by
  obtain ⟨hg, -, hmade, -, -⟩ := of_build_eq_ok hb
  obtain ⟨hdomains, edges, hperm⟩ := perm_resourcesOf_of_build_eq_ok hb
  rw [List.nodup_map_iff_inj_on hg.nodup_ids]
  constructor
  · intro h
    have hid {d : String} (hmem : d ∈ spec.networking.domains) : ingressId d ∈ g.ids := by
      have hr : route spec (ingressDependencies spec.networking.topology edges) d ∈
          resourcesOf spec edges := mem_resourcesOf.2 (.inr (.inr (.inl ⟨d, hmem, .inl rfl⟩)))
      exact List.mem_map.2 ⟨_, hperm.mem_iff.2 hr, rfl⟩
    rw [List.nodup_map_iff_inj_on (nodup_domains hdomains)]
    intro d hmem d' hmem' he
    refine ingressId_inj.1 (h _ (hid hmem) _ (hid hmem') ?_)
    rw [Name.identifier_inj] at he ⊢
    simp only [ingressId, String.toList_append, List.map_append, he]
  · intro hd id hid id' hid' he
    obtain ⟨r, hr, rfl⟩ := List.mem_map.1 hid
    obtain ⟨r', hr', rfl⟩ := List.mem_map.1 hid'
    exact (hmade r hr).id_eq_of_identifier_eq (hmade r' hr') hd he

end Identifiers

section Properties

def propertyNames : Kind → List String
  | .computeNode => ["index", "instance_class", "name", "namespace", "workload"]
  | .networkLink => ["from", "to", "topology"]
  | .ingressRoute => ["backend", "domain", "name"]
  | .volume => ["attached_to", "index", "name", "performance_class"]
  | .dnsRecord => ["domain", "record_type", "route"]

def referenceNames : Kind → List String
  | .computeNode => []
  | .networkLink => ["from", "to"]
  | .ingressRoute => ["backend"]
  | .volume => ["attached_to"]
  | .dnsRecord => ["route"]

theorem Made.exists_property (h : Made spec r) {name : String}
    (hname : name ∈ propertyNames r.kind) : ∃ p, r.properties[name]? = some p := by
  have hkeys : r.properties.keys = propertyNames r.kind := by cases h <;> rfl
  rw [← hkeys, Std.ExtTreeMap.mem_keys] at hname
  exact ⟨_, Std.ExtTreeMap.getElem?_eq_some_getElem hname⟩

theorem Made.exists_reference (h : Made spec r) {name : String}
    (hname : name ∈ referenceNames r.kind) :
    ∃ dep ∈ r.dependsOn, r.properties[name]? = some (.text dep) := by
  cases h with
  | computeNode i => cases hname
  | link a b =>
    rcases List.mem_pair.1 hname with rfl | rfl
    · exact ⟨computeId a, mem_textSet_of.2 (.head _), rfl⟩
    · exact ⟨computeId b, mem_textSet_of.2 (.tail _ (.head _)), rfl⟩
  | route _ hbackend _ =>
    obtain rfl := List.mem_singleton.1 hname
    exact ⟨_, hbackend, rfl⟩
  | @record d _ =>
    obtain rfl := List.mem_singleton.1 hname
    exact ⟨ingressId d, mem_textSet_of.2 (.head _), rfl⟩
  | volume i _ =>
    obtain rfl := List.mem_singleton.1 hname
    exact ⟨computeId i, mem_textSet_of.2 (.head _), rfl⟩

end Properties

end ResourceGraph

namespace Rule

/-- The rule asks for no more than what the builder gives the resources of its kind. -/
structure Fits (rule : Rule) : Prop where
  property : ∀ s ∈ rule.substitutions, s.property ∈ ResourceGraph.propertyNames rule.kind
  instanceClass : ∀ s ∈ rule.substitutions, s.conversion = .instanceClass →
    rule.kind = .computeNode ∧ s.property = "instance_class"
  performanceClass : ∀ s ∈ rule.substitutions, s.conversion = .performanceClass →
    rule.kind = .volume ∧ s.property = "performance_class"
  reference : ∀ s ∈ rule.substitutions, s.conversion = .reference →
    s.property ∈ ResourceGraph.referenceNames rule.kind

instance (rule : Rule) : Decidable rule.Fits :=
  decidable_of_iff
    ((∀ s ∈ rule.substitutions, s.property ∈ ResourceGraph.propertyNames rule.kind) ∧
      (∀ s ∈ rule.substitutions, s.conversion = .instanceClass →
        rule.kind = .computeNode ∧ s.property = "instance_class") ∧
      (∀ s ∈ rule.substitutions, s.conversion = .performanceClass →
        rule.kind = .volume ∧ s.property = "performance_class") ∧
      ∀ s ∈ rule.substitutions, s.conversion = .reference →
        s.property ∈ ResourceGraph.referenceNames rule.kind)
    ⟨fun ⟨h₁, h₂, h₃, h₄⟩ ↦ ⟨h₁, h₂, h₃, h₄⟩, fun ⟨h₁, h₂, h₃, h₄⟩ ↦ ⟨h₁, h₂, h₃, h₄⟩⟩

variable {rule : Rule} {spec : WorkloadSpec} {r : Resource} {before : List String}

/-- Such a rule can fail on a built resource only by the class of a machine or of a volume. -/
theorem Fits.admits_iff (hf : rule.Fits) (hg : rule.Guards) (h : ResourceGraph.Made spec r)
    (hk : rule.kind = r.kind) (hbefore : ∀ dep ∈ r.dependsOn, dep ∈ before) :
    (∀ s ∈ rule.substitutions, rule.Admits before r s) ↔
      (r.kind = .computeNode → spec.compute.instanceClass ∈ rule.tables.instanceClass) ∧
      (r.kind = .volume → spec.storage.performanceClass ∈ rule.tables.performanceClass) := by
  constructor
  · intro hs
    refine ⟨fun hmachine ↦ ?_, fun hstorage ↦ ?_⟩
    · obtain ⟨s, hmem, hproperty, hconversion⟩ := hg.machine (hk.trans hmachine)
      obtain ⟨p, hp, hclass⟩ := hs s hmem
      rw [hproperty, h.instanceClass hmachine] at hp
      obtain rfl := Option.some.inj hp
      rw [hconversion] at hclass
      exact hclass
    · obtain ⟨s, hmem, hproperty, hconversion⟩ := hg.storage (hk.trans hstorage)
      obtain ⟨p, hp, hclass⟩ := hs s hmem
      rw [hproperty, h.performanceClass hstorage] at hp
      obtain rfl := Option.some.inj hp
      rw [hconversion] at hclass
      exact hclass
  · rintro ⟨hmachine, hstorage⟩ s hmem
    cases hc : s.conversion with
    | verbatim =>
      obtain ⟨p, hp⟩ := h.exists_property (hk ▸ hf.property s hmem)
      exact ⟨p, hp, by simp [hc]⟩
    | instanceClass =>
      obtain ⟨hkind, hproperty⟩ := hf.instanceClass s hmem hc
      have hkind := hk.symm.trans hkind
      refine ⟨_, hproperty ▸ h.instanceClass hkind, ?_⟩
      rw [hc]
      exact hmachine hkind
    | performanceClass =>
      obtain ⟨hkind, hproperty⟩ := hf.performanceClass s hmem hc
      have hkind := hk.symm.trans hkind
      refine ⟨_, hproperty ▸ h.performanceClass hkind, ?_⟩
      rw [hc]
      exact hstorage hkind
    | reference =>
      obtain ⟨dep, hdep, hp⟩ := h.exists_reference (hk ▸ hf.reference s hmem hc)
      refine ⟨_, hp, ?_⟩
      rw [hc]
      exact hbefore dep hdep

end Rule

namespace Shipped

def full : List RuleSetDraft := [aws1, aws1_1, gcp1, azure1]

theorem fits_full : ∀ d ∈ full, ∀ k ∈ Kind.all,
    (d.finish.rule? k).any fun rule ↦ rule.kind = k ∧ rule.tables = d.tables ∧ rule.Fits ∧
      rule.Guards := by decide +kernel

theorem exists_rule_of_mem_full {d : RuleSetDraft} (hd : d ∈ full) (k : Kind) :
    ∃ rule, d.finish.rule? k = some rule ∧ rule.kind = k ∧ rule.tables = d.tables ∧ rule.Fits ∧
      rule.Guards := by
  have h := fits_full d hd k k.mem_all
  cases hr : d.finish.rule? k with
  | none =>
    rw [hr] at h
    cases h
  | some rule =>
    rw [hr] at h
    exact ⟨rule, rfl, by simpa using h⟩

theorem ruleSet_builtin : ∀ d ∈ drafts,
    Registry.builtin.ruleSet d.provider d.version = .ok d.finish := by
  simp only [drafts, List.forall_mem_cons]
  exact ⟨rfl, rfl, rfl, rfl, rfl, by simp⟩

end Shipped

namespace ResourceGraph

variable {spec : WorkloadSpec} {g : ResourceGraph}

theorem exists_walkTarget_full (hb : build spec = .ok g) {d : RuleSetDraft}
    (hd : d ∈ Shipped.full) :
    (∃ artifacts, walkTarget g .builtin d.provider d.version = .ok artifacts) ↔
      spec.compute.instanceClass ∈ d.tables.instanceClass ∧
        (spec.storage.persistent = true →
          spec.storage.performanceClass ∈ d.tables.performanceClass) ∧
        (spec.networking.domains.map (Name.identifier "")).Nodup := by
  obtain ⟨hg, -, hmade, hmachine, hvolume⟩ := of_build_eq_ok hb
  have hset : Registry.builtin.ruleSet d.provider d.version = .ok d.finish :=
    Shipped.ruleSet_builtin d (List.mem_append_left [Shipped.cloudflare1] hd)
  have hrule {early late : List Resource} {r : Resource}
      (he : g.resources = early ++ r :: late) :
      (∃ rule, d.finish.rule? r.kind = some rule ∧
        ∀ s ∈ rule.substitutions, rule.Admits (early.map Resource.id) r s) ↔
      (r.kind = .computeNode → spec.compute.instanceClass ∈ d.tables.instanceClass) ∧
        (r.kind = .volume → spec.storage.performanceClass ∈ d.tables.performanceClass) := by
    obtain ⟨rule, hrule, hk, htables, hfits, hguards⟩ := Shipped.exists_rule_of_mem_full hd r.kind
    have hr : r ∈ g.resources := by simp [he]
    rw [← htables, ← hfits.admits_iff hguards (hmade r hr) hk (hg.ordered he).1]
    simp only [hrule, Option.some.injEq, exists_eq_left']
  have hids : (g.ids.map d.finish.identifier).Nodup ↔
      (spec.networking.domains.map (Name.identifier "")).Nodup :=
    nodup_identifier_ids hb d.idStart
  simp only [exists_walkTarget_eq_ok hg, hset, Except.ok.injEq, exists_eq_left', hids]
  constructor
  · rintro ⟨hdomains, hrules⟩
    refine ⟨?_, fun hp ↦ ?_, hdomains⟩
    · obtain ⟨early, late, he⟩ := List.append_of_mem hmachine
      exact ((hrule he).1 (hrules _ _ _ he)).1 rfl
    · obtain ⟨early, late, he⟩ := List.append_of_mem (hvolume hp)
      exact ((hrule he).1 (hrules _ _ _ he)).2 rfl
  · rintro ⟨hinstance, hperformance, hdomains⟩
    refine ⟨hdomains, fun early r late he ↦ (hrule he).2 ⟨fun _ ↦ hinstance, fun hk ↦ ?_⟩⟩
    obtain ⟨i, -, hp⟩ := (hmade r (by simp [he])).eq_volume hk
    exact hperformance hp

theorem append_lt_append_iff {s t u : List Char} : s ++ t < s ++ u ↔ t < u := by
  induction s with
  | nil => rfl
  | cons c s ih => simp [ih]

theorem not_computeId_lt_zero (i : UInt64) : ¬ computeId i < computeId 0 := by
  rw [String.lt_iff, computeId, computeId, String.toList_append,
    String.toList_append, append_lt_append_iff]
  have hzero : (Nat.repr (0 : UInt64).toNat).toList = ['0'] := rfl
  rw [hzero]
  cases hd : (Nat.repr i.toNat).toList with
  | nil => exact absurd (String.toList_eq_nil_iff.1 hd) Nat.repr_ne_empty
  | cons c cs =>
    have hmem : c ∈ (Nat.repr i.toNat).toList := hd ▸ List.mem_cons_self
    have hdigit := Text.isDigit_of_mem_repr hmem
    simp only [Char.isDigit, Bool.and_eq_true, decide_eq_true_eq] at hdigit
    rw [List.cons_lt_cons_iff]
    rintro (hlt | ⟨-, h⟩)
    · exact absurd hdigit.1 (UInt32.not_le.2 hlt)
    · cases h

theorem head_of_build_eq_ok (hb : build spec = .ok g) :
    ∃ rest, g.resources = computeNode spec 0 :: rest := by
  obtain ⟨hg, -, hmade, hmachine, -⟩ := of_build_eq_ok hb
  cases he : g.resources with
  | nil => simp [he] at hmachine
  | cons r rest =>
    have hsplit : g.resources = [] ++ r :: rest := he
    obtain ⟨hready, hleast⟩ := hg.ordered hsplit
    have hempty : r.dependsOn = ∅ := Std.ExtTreeSet.eq_empty_iff_forall_not_mem.2 fun dep hdep ↦
      List.not_mem_nil (hready dep hdep)
    obtain ⟨i, rfl⟩ := (hmade r (by simp [he])).eq_computeNode_of_dependsOn hempty
    rw [he] at hmachine
    rcases List.mem_cons.1 hmachine with heq | hmem
    · exact ⟨rest, by rw [heq]⟩
    · rcases lt_or_eq_of_compare (hleast _ hmem (by simp [computeNode])) with hlt | heq
      · exact absurd hlt (not_computeId_lt_zero i)
      · exact ⟨rest, by rw [computeId_inj.1 heq]⟩

theorem walkTarget_cloudflare (hb : build spec = .ok g) :
    walkTarget g .builtin Shipped.cloudflare Shipped.v1 =
      .error ⟨Shipped.cloudflare, some (computeId 0), some .computeNode,
        .noRuleForKind .computeNode Shipped.cloudflare⟩ := by
  obtain ⟨rest, he⟩ := head_of_build_eq_ok hb
  have hset : Registry.builtin.ruleSet Shipped.cloudflare Shipped.v1 =
      .ok Shipped.cloudflare1.finish := rfl
  rw [walkTarget, hset, he]
  rfl

/-- Each of the four rule sets with a rule for every kind translates a built graph when its tables
have the classes and no two domains become one identifier. Managed DNS alone has no machines. -/
theorem walkTarget_shipped (hb : build spec = .ok g) :
    (∀ d ∈ [Shipped.aws1, Shipped.aws1_1, Shipped.gcp1, Shipped.azure1],
      (∃ artifacts, walkTarget g .builtin d.provider d.version = .ok artifacts) ↔
        spec.compute.instanceClass ∈ d.tables.instanceClass ∧
          (spec.storage.persistent = true →
            spec.storage.performanceClass ∈ d.tables.performanceClass) ∧
          (spec.networking.domains.map (Name.identifier "")).Nodup) ∧
    walkTarget g .builtin Shipped.cloudflare Shipped.v1 =
      .error ⟨Shipped.cloudflare, some (computeId 0), some .computeNode,
        .noRuleForKind .computeNode Shipped.cloudflare⟩ :=
  ⟨fun _ hd ↦ exists_walkTarget_full hb hd, walkTarget_cloudflare hb⟩

/-- Two domains that are one identifier, and nothing else that a rule set lacks. -/
def colliding : WorkloadSpec where
  name := "w"
  space := "default"
  compute := { nodes := 3, instanceClass := "small" }
  networking := { topology := .ring, domains := ["a-b.example", "a.b.example"] }
  storage := { persistent := true, performanceClass := "standard" }
  targets := [Shipped.gcp]

theorem walkTarget_shipped_colliding :
    ∃ g, build colliding = .ok g ∧
      ¬ ∃ artifacts, walkTarget g .builtin Shipped.gcp Shipped.v1 = .ok artifacts := by
  have hdomains : repeatedDomain? ∅ colliding.networking.domains = none := by decide +kernel
  obtain ⟨g, hg, -⟩ := exists_of_edges_eq_ok (by decide) hdomains rfl
  refine ⟨g, hg, fun h ↦ ?_⟩
  obtain ⟨-, -, hd⟩ := ((walkTarget_shipped hg).1 Shipped.gcp1 (by simp)).1 h
  exact absurd hd (by decide +kernel)

end ResourceGraph

end Multicloud

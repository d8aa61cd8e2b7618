import Multicloud.Proofs.Workload.Schema

namespace Multicloud

namespace WorkloadSpec

open Yaml (Value)

variable {α : Type} {m : Fields} {parent key path : String} {e : SpecError}

/-- The field is there, and is not null, but of another form. -/
inductive Mistypes (form : α → Value) (expected : String) (m : Fields) (key path : String) :
    SpecError → Prop
  | mk {v : Value} (h : Value.lookup key m = some v) (hnull : v ≠ .null)
      (hform : ∀ a, v ≠ form a) :
      Mistypes form expected m key path (.invalidType path expected v.describe)

/-- A field that has to be there cannot be read. -/
inductive Misses (form : α → Value) (expected : String) (m : Fields) (key path : String) :
    SpecError → Prop
  | absent (h : Lacks m key) : Misses form expected m key path (.missingField path)
  | mistyped {e : SpecError} (h : Mistypes form expected m key path e) :
      Misses form expected m key path e

inductive Differs (m : Fields) (key allowed : String) : SpecError → Prop
  | mistyped {e : SpecError} (h : Mistypes Value.text "a string" m key key e) :
      Differs m key allowed e
  | other {s : String} (h : Value.lookup key m = some (.text s)) (hne : s ≠ allowed) :
      Differs m key allowed (.unknownValue key s allowed)

inductive Unlabels (path s : String) : SpecError → Prop
  | mk (h : ¬ Name.Label s.toList) :
      Unlabels path s (.invalidValue path s!"'{s}' is not a DNS-1123 label")

inductive RefusesList (R : String → α → Prop) (refuse : String → String → SpecError → Prop)
    (m : Fields) (key path : String) : SpecError → Prop
  | mistyped {e : SpecError} (h : Mistypes Value.list "a list" m key path e) :
      RefusesList R refuse m key path e
  | item {early late : List Value} {v : Value}
      (h : Value.lookup key m = some (.list (early ++ v :: late)))
      (hearly : ∀ u ∈ early, ∃ s a, u.text? = some s ∧ R s a) (hv : v.text? = none) :
      RefusesList R refuse m key path
        (.invalidType s!"{path}[{early.length}]" "a string" v.describe)
  | text {early late : List Value} {v : Value} {s : String} {e : SpecError}
      (h : Value.lookup key m = some (.list (early ++ v :: late)))
      (hearly : ∀ u ∈ early, ∃ s a, u.text? = some s ∧ R s a) (hv : v.text? = some s)
      (hs : refuse s!"{path}[{early.length}]" s e) : RefusesList R refuse m key path e

inductive RefusesDomain (path s : String) : SpecError → Prop
  | mk {t : List Char} {domain : String} (ht : Text.Trims s.toList t)
      (hdomain : domain.toList = t.map Char.toLower) (h : ¬ Name.Domain domain.toList) :
      RefusesDomain path s
        (.invalidValue path s!"'{domain}' is not a fully-qualified domain name")

inductive RefusesTarget (path s : String) : SpecError → Prop
  | mk (h : ¬ Name.ProviderId s.toList) : RefusesTarget path s (.invalidValue path
      s!"invalid provider id '{s}' (expected lowercase letters, digits, '-')")

inductive RefusesMetadata (m : Fields) : SpecError → Prop
  | name {e : SpecError} (h : Misses Value.text "a string" m "name" "metadata.name" e) :
      RefusesMetadata m e
  | label {s : String} {e : SpecError} (hname : Value.lookup "name" m = some (.text s))
      (h : Unlabels "metadata.name" s e) : RefusesMetadata m e
  | space {s : String} {e : SpecError} (hname : Value.lookup "name" m = some (.text s))
      (hlabel : Name.Label s.toList)
      (h : Mistypes Value.text "a string" m "namespace" "metadata.namespace" e) :
      RefusesMetadata m e
  | spaceLabel {s space : String} {e : SpecError} (hname : Value.lookup "name" m = some (.text s))
      (hlabel : Name.Label s.toList) (hspace : HasText m "namespace" "default" space)
      (h : Unlabels "metadata.namespace" space e) : RefusesMetadata m e

inductive RefusesCompute (m : Fields) : SpecError → Prop
  | nodes {e : SpecError} (h : Misses (fun n : Nat ↦ Value.int n) "a non-negative integer" m "nodes"
      "spec.compute.nodes" e) : RefusesCompute m e
  | most {n : Nat} (hnodes : Value.lookup "nodes" m = some (.int n)) (h : 1024 < n) :
      RefusesCompute m (.invalidValue "spec.compute.nodes" s!"{n} exceeds the limit of 1024 nodes")
  | instanceClass {n : Nat} {e : SpecError} (hnodes : Value.lookup "nodes" m = some (.int n))
      (hmost : n ≤ 1024)
      (h : Mistypes Value.text "a string" m "instanceType" "spec.compute.instanceType" e) :
      RefusesCompute m e

inductive RefusesNetworking (m : Fields) : SpecError → Prop
  | topology {e : SpecError}
      (h : Misses Value.text "a string" m "topology" "spec.networking.topology" e) :
      RefusesNetworking m e
  | unknown {s : String} (htopology : Value.lookup "topology" m = some (.text s))
      (h : s ∉ ["mesh", "star", "ring"]) :
      RefusesNetworking m (.unknownValue "spec.networking.topology" s "mesh, star, ring")
  | ingress {s : String} {e : SpecError} (htopology : Value.lookup "topology" m = some (.text s))
      (hs : s ∈ ["mesh", "star", "ring"])
      (h : Mistypes Value.mapping "a mapping" m "ingress" "spec.networking.ingress" e) :
      RefusesNetworking m e
  | domains {s : String} {ingress : Fields} {e : SpecError}
      (htopology : Value.lookup "topology" m = some (.text s)) (hs : s ∈ ["mesh", "star", "ring"])
      (hingress : Value.lookup "ingress" m = some (.mapping ingress))
      (h : RefusesList IsDomain RefusesDomain ingress "domains" "spec.networking.ingress.domains" e) :
      RefusesNetworking m e

inductive RefusesStorage (m : Fields) : SpecError → Prop
  | persistent {e : SpecError}
      (h : Misses Value.bool "a boolean" m "persistent" "spec.storage.persistent" e) :
      RefusesStorage m e
  | performanceClass {b : Bool} {e : SpecError}
      (hpersistent : Value.lookup "persistent" m = some (.bool b))
      (h : Mistypes Value.text "a string" m "iopsClass" "spec.storage.iopsClass" e) :
      RefusesStorage m e

/-- A mapping that has to be there is not, or is refused itself. -/
inductive RefusesPart (m : Fields) (key path : String) (refuses : Fields → SpecError → Prop) :
    SpecError → Prop
  | absent {e : SpecError} (h : Misses Value.mapping "a mapping" m key path e) :
      RefusesPart m key path refuses e
  | refused {fields : Fields} {e : SpecError} (h : Value.lookup key m = some (.mapping fields))
      (hrefused : refuses fields e) : RefusesPart m key path refuses e

def HasPart (m : Fields) (key : String) (reads : Fields → α → Prop) : Prop :=
  ∃ fields a, Value.lookup key m = some (.mapping fields) ∧ reads fields a

/-- The parts of the specification are read in this order. -/
inductive RefusesSpec (m : Fields) : SpecError → Prop
  | compute {e : SpecError} (h : RefusesPart m "compute" "spec.compute" RefusesCompute e) :
      RefusesSpec m e
  | networking {e : SpecError} (hcompute : HasPart m "compute" IsCompute)
      (h : RefusesPart m "networking" "spec.networking" RefusesNetworking e) : RefusesSpec m e
  | storage {e : SpecError} (hcompute : HasPart m "compute" IsCompute)
      (hnetworking : HasPart m "networking" IsNetworking)
      (h : RefusesPart m "storage" "spec.storage" RefusesStorage e) : RefusesSpec m e
  | targets {e : SpecError} (hcompute : HasPart m "compute" IsCompute)
      (hnetworking : HasPart m "networking" IsNetworking) (hstorage : HasPart m "storage" IsStorage)
      (h : RefusesList IsTarget RefusesTarget m "targets" "spec.targets" e) : RefusesSpec m e

/-- What a document is refused for. Its sections are read one after the other, and it is refused at
the first fault. -/
inductive Refuses (m : Fields) : SpecError → Prop
  | apiVersion {e : SpecError}
      (h : Differs m "apiVersion" "infrastructure.nebulaforge.io/v1" e) : Refuses m e
  | kind {e : SpecError} (hversion : IsFixed m "apiVersion" "infrastructure.nebulaforge.io/v1")
      (h : Differs m "kind" "WorkloadCluster" e) : Refuses m e
  | metadata {e : SpecError} (hversion : IsFixed m "apiVersion" "infrastructure.nebulaforge.io/v1")
      (hkind : IsFixed m "kind" "WorkloadCluster")
      (h : RefusesPart m "metadata" "metadata" RefusesMetadata e) : Refuses m e
  | spec {e : SpecError} (hversion : IsFixed m "apiVersion" "infrastructure.nebulaforge.io/v1")
      (hkind : IsFixed m "kind" "WorkloadCluster") (hmetadata : HasPart m "metadata" IsMetadata)
      (h : RefusesPart m "spec" "spec" RefusesSpec e) : Refuses m e

section Fields

variable {expected : String} {read : Value → Option α} {form : α → Value}

theorem optional_eq_error_iff (hread : ∀ v a, read v = some a ↔ v = form a)
    (hpath : join parent key = path) : optional expected read m parent key = .error e ↔
      Mistypes form expected m key path e := by
  subst hpath
  constructor
  · intro h
    unfold optional at h
    split at h
    · cases h
    · next v hv =>
      obtain ⟨hlookup, hnull⟩ := field?_eq_some.1 hv
      split at h
      · cases h
      · next hnone =>
        cases h
        exact .mk hlookup hnull fun a ha ↦ by rw [(hread v a).2 ha] at hnone; cases hnone
  · rintro ⟨hlookup, hnull, hform⟩
    rename_i v
    have hnone : read v = none :=
      Option.eq_none_iff_forall_ne_some.2 fun a ha ↦ hform a ((hread v a).1 ha)
    rw [optional, field?_eq_some.2 ⟨hlookup, hnull⟩]
    dsimp only
    rw [hnone]

theorem required_eq_error_iff (hread : ∀ v a, read v = some a ↔ v = form a)
    (hpath : join parent key = path) : required expected read m parent key = .error e ↔
      Misses form expected m key path e := by
  rw [required, bind_eq_error, optional_eq_error_iff hread hpath]
  constructor
  · rintro (h | ⟨a, ha, h⟩)
    · exact .mistyped h
    · cases a with
      | some a => cases h
      | none =>
        cases h
        rw [hpath]
        exact .absent (optional_eq_none.1 ha)
  · rintro (h | h)
    · exact .inr ⟨none, optional_eq_none.2 h, by rw [← hpath]; rfl⟩
    · exact .inl h

theorem optionalText_eq_error_iff (hpath : join parent key = path) :
    optionalText m parent key = .error e ↔ Mistypes Value.text "a string" m key path e :=
  optional_eq_error_iff asText_eq_some hpath

theorem requiredText_eq_error_iff (hpath : join parent key = path) :
    requiredText m parent key = .error e ↔ Misses Value.text "a string" m key path e :=
  required_eq_error_iff asText_eq_some hpath

theorem requiredMapping_eq_error_iff (hpath : join parent key = path) :
    requiredMapping m parent key = .error e ↔ Misses Value.mapping "a mapping" m key path e :=
  required_eq_error_iff asMapping_eq_some hpath

def fixedOf (m : Fields) (key allowed : String) : Except SpecError Unit := do
  expectValue key allowed (← optionalText m "" key)

theorem fixedOf_eq_ok {allowed : String} {u : Unit} :
    fixedOf m key allowed = .ok u ↔ IsFixed m key allowed :=
  bind_eq_ok.trans isFixed_iff

theorem fixedOf_eq_error_iff {allowed : String} :
    fixedOf m key allowed = .error e ↔ Differs m key allowed e := by
  rw [fixedOf, bind_eq_error, optionalText_eq_error_iff rfl]
  constructor
  · rintro (h | ⟨v, hv, h⟩)
    · exact .mistyped h
    · cases v with
      | none => cases h
      | some s =>
        dsimp only [expectValue] at h
        split at h
        · cases h
        · next hne =>
          cases h
          exact .other (optionalText_eq_some.1 hv) hne
  · rintro (h | ⟨h, hne⟩)
    · exact .inl h
    · refine .inr ⟨_, optionalText_eq_some.2 h, ?_⟩
      rw [expectValue, if_neg hne]

theorem expectForm_eq_error_iff {form : List Char → Bool} {what s : String} :
    expectForm path form what s = .error e ↔
      form s.toList = false ∧ e = .invalidValue path s!"'{s}' is not {what}" := by
  unfold expectForm
  split
  · next h => simp [h]
  · next h => simp only [h, true_and, Except.error.injEq, eq_comm]

theorem expectLabel_eq_error_iff {s : String} :
    expectLabel path s = .error e ↔ Unlabels path s e := by
  have htext (what : String) (hwhat : what = "a DNS-1123 label") :
      s!"'{s}' is not {what}" = s!"'{s}' is not a DNS-1123 label" := by
    rw [hwhat]
    exact String.append_assoc ..
  rw [expectLabel, expectForm_eq_error_iff, htext _ rfl, ← Bool.not_eq_true, Name.isLabel_iff]
  constructor
  · rintro ⟨h, rfl⟩
    exact .mk h
  · rintro ⟨h⟩
    exact ⟨h, rfl⟩

end Fields

section Items

theorem mapM_zipIdx_eq_error_iff {f : Value × Nat → Except SpecError α} {P : Value → Prop}
    (hf : ∀ v i, (∃ a, f (v, i) = .ok a) ↔ P v) {values : List Value} :
    values.zipIdx.mapM f = .error e ↔ ∃ early v late, values = early ++ v :: late ∧
      (∀ u ∈ early, P u) ∧ f (v, early.length) = .error e := by
  have hall (early : List Value) :
      (∀ u ∈ early.zipIdx, ∃ a, f u = .ok a) ↔ ∀ u ∈ early, P u := by
    constructor
    · intro h u hu
      rw [← List.zipIdx_map_fst 0 early] at hu
      obtain ⟨⟨u, i⟩, hmem, rfl⟩ := List.mem_map.1 hu
      exact (hf u i).1 (h _ hmem)
    · exact fun h u hu ↦ (hf u.1 u.2).2 (h _ (List.fst_mem_of_mem_zipIdx hu))
  rw [mapM_eq_error_iff]
  constructor
  · rintro ⟨early, ⟨v, i⟩, late, hsplit, hearly, he⟩
    obtain ⟨before, after, rfl, rfl, hafter⟩ := List.zipIdx_eq_append_iff.1 hsplit
    obtain ⟨v', after, rfl, hv, -⟩ := List.zipIdx_eq_cons_iff.1 hafter.symm
    obtain ⟨rfl, rfl⟩ := Prod.mk.inj hv
    rw [Nat.zero_add] at he
    exact ⟨before, v, after, rfl, (hall before).1 hearly, he⟩
  · rintro ⟨early, v, late, rfl, hearly, he⟩
    refine ⟨early.zipIdx, (v, early.length), late.zipIdx (early.length + 1), ?_,
      (hall early).2 hearly, he⟩
    rw [List.zipIdx_append, List.zipIdx_cons, Nat.zero_add]

theorem items_eq_error_iff {R : String → α → Prop} {refuse : String → String → SpecError → Prop}
    {read : String → String → Except SpecError α}
    (hread : ∀ path s a, read path s = .ok a ↔ R s a)
    (hrefuse : ∀ path s e, read path s = .error e ↔ refuse path s e)
    (hpath : join parent key = path) :
    items m parent key read = .error e ↔ RefusesList R refuse m key path e := by
  rw [items, bind_eq_error, optional_eq_error_iff asList_eq_some hpath, hpath]
  refine (or_congr_right (exists_congr fun values ↦ and_congr_right' (mapM_zipIdx_eq_error_iff
    (P := fun v ↦ ∃ s a, v.text? = some s ∧ R s a) fun v i ↦ ?_))).trans ?_
  · dsimp only
    cases v.text? <;> simp [hread]
  constructor
  · rintro (h | ⟨values, hvalues, early, v, late, hsplit, hearly, he⟩)
    · exact .mistyped h
    · cases values with
      | none => cases early <;> cases hsplit
      | some values =>
        obtain rfl : values = early ++ v :: late := hsplit
        have hlookup := optionalList_eq_some.1 hvalues
        dsimp only at he
        split at he
        · next s hs => exact .text hlookup hearly hs ((hrefuse _ _ _).1 he)
        · next hnone =>
          cases he
          exact .item hlookup hearly hnone
  · rintro (h | ⟨h, hearly, hv⟩ | ⟨h, hearly, hv, hs⟩)
    · exact .inl h
    · refine .inr ⟨_, optionalList_eq_some.2 h, _, _, _, rfl, hearly, ?_⟩
      dsimp only
      rw [hv]
    · refine .inr ⟨_, optionalList_eq_some.2 h, _, _, _, rfl, hearly, ?_⟩
      dsimp only
      rw [hv]
      exact (hrefuse _ _ _).2 hs

theorem domainOf_eq_error_iff {s : String} :
    domainOf path s = .error e ↔ RefusesDomain path s e := by
  have htext (domain what : String) (hwhat : what = "a fully-qualified domain name") :
      s!"'{domain}' is not {what}" = s!"'{domain}' is not a fully-qualified domain name" := by
    rw [hwhat]
    exact String.append_assoc ..
  have hlower : (String.ofList (Text.trim s.toList)).toLower.toList =
      (Text.trim s.toList).map Char.toLower := by
    have hmap : (String.ofList (Text.trim s.toList)).toLower =
        (String.ofList (Text.trim s.toList)).map Char.toLower := rfl
    rw [hmap, String.toList_map, String.toList_ofList]
  simp only [domainOf, bind_eq_error, expectForm_eq_error_iff, htext, ← Bool.not_eq_true,
    Name.isDomain_iff]
  constructor
  · rintro (⟨h, rfl⟩ | ⟨_, _, h⟩)
    · exact .mk (Text.trims_trim _) hlower h
    · cases h
  · rintro ⟨ht, hdomain, h⟩
    rename_i t domain
    obtain rfl := Text.trims_iff.1 ht
    obtain rfl : domain = (String.ofList (Text.trim s.toList)).toLower :=
      String.toList_inj.1 (hdomain.trans hlower.symm)
    exact .inl ⟨h, rfl⟩

theorem targetOf_eq_error_iff {s : String} :
    targetOf path s = .error e ↔ RefusesTarget path s e := by
  unfold targetOf Provider.ofName Provider.ofName?
  constructor
  · intro h
    by_cases hs : Name.isProvider s.toList = true
    · simp [hs] at h
    · simp only [hs] at h
      cases h
      exact .mk fun hid ↦ hs (Name.isProvider_iff.2 hid)
  · rintro ⟨h⟩
    rw [dif_neg fun hs ↦ h (Name.isProvider_iff.1 hs)]
    rfl

example : items [(Value.text "targets", .list [.text "aws", .int 3, .null])] "spec" "targets"
    targetOf = .error (.invalidType "spec.targets[1]" "a string" "number 3") := by rfl

end Items

section Parts

variable {β : Type} {read : Fields → Except SpecError β}

def partOf (m : Fields) (parent key : String) (read : Fields → Except SpecError β) :
    Except SpecError β := do
  read (← requiredMapping m parent key)

theorem partOf_eq_error_iff {refuses : Fields → SpecError → Prop}
    (hread : ∀ fields, read fields = .error e ↔ refuses fields e) (hpath : join parent key = path) :
    partOf m parent key read = .error e ↔ RefusesPart m key path refuses e := by
  rw [partOf, bind_eq_error, requiredMapping_eq_error_iff hpath]
  simp only [requiredMapping_eq_ok, hread]
  constructor
  · rintro (h | ⟨fields, h, hrefused⟩)
    · exact .absent h
    · exact .refused h hrefused
  · rintro (h | ⟨h, hrefused⟩)
    · exact .inl h
    · exact .inr ⟨_, h, hrefused⟩

theorem hasPart_iff {reads : Fields → α → Prop}
    (hread : ∀ fields, (∃ a, reads fields a) ↔ ∃ b, read fields = .ok b) :
    HasPart m key reads ↔ ∃ b, partOf m parent key read = .ok b := by
  simp only [partOf, bind_eq_ok, requiredMapping_eq_ok, HasPart, exists_and_left, hread]
  exact ⟨fun ⟨fields, h, b, hb⟩ ↦ ⟨b, fields, h, hb⟩, fun ⟨b, fields, h, hb⟩ ↦ ⟨fields, h, b, hb⟩⟩

def metadataOf (m : Fields) : Except SpecError (String × String) := do
  let name ← requiredText m "metadata" "name"
  expectLabel "metadata.name" name
  let space := (← optionalText m "metadata" "namespace").getD "default"
  expectLabel "metadata.namespace" space
  return (name, space)

/-- What is asked for, in the order in which it is read. -/
def specOf (m : Fields) : Except SpecError (Compute × Networking × Storage × List Provider) := do
  let compute ← partOf m "spec" "compute" computeOf
  let networking ← partOf m "spec" "networking" networkingOf
  let storage ← partOf m "spec" "storage" storageOf
  return (compute, networking, storage, ← items m "spec" "targets" targetOf)

theorem ofFields_eq (m : Fields) : ofFields m = (do
    fixedOf m "apiVersion" apiVersion
    fixedOf m "kind" documentKind
    let (name, space) ← partOf m "" "metadata" metadataOf
    let (compute, networking, storage, targets) ← partOf m "" "spec" specOf
    return { name, space, compute, networking, storage, targets := firsts targets }) := by
  simp only [ofFields, fixedOf, partOf, metadataOf, specOf, bind_assoc, pure_bind]

end Parts

section Sections

theorem storageOf_eq_error_iff : storageOf m = .error e ↔ RefusesStorage m e := by
  have hpersistent : required "a boolean" asBool m "spec.storage" "persistent" = .error e ↔
      Misses Value.bool "a boolean" m "persistent" "spec.storage.persistent" e :=
    required_eq_error_iff asBool_eq_some rfl
  have hclass : optionalText m "spec.storage" "iopsClass" = .error e ↔
      Mistypes Value.text "a string" m "iopsClass" "spec.storage.iopsClass" e :=
    optionalText_eq_error_iff rfl
  rw [storageOf]
  simp only [bind_eq_error, requiredBool_eq_ok, hpersistent, hclass]
  constructor
  · rintro (h | ⟨b, hb, h | ⟨_, _, h⟩⟩)
    · exact .persistent h
    · exact .performanceClass hb h
    · cases h
  · rintro (h | ⟨hb, h⟩)
    · exact .inl h
    · exact .inr ⟨_, hb, .inl h⟩

theorem computeOf_eq_error_iff : computeOf m = .error e ↔ RefusesCompute m e := by
  have hnodes : required "a non-negative integer" asCount m "spec.compute" "nodes" = .error e ↔
      Misses (fun n : Nat ↦ Value.int n) "a non-negative integer" m "nodes" "spec.compute.nodes" e :=
    required_eq_error_iff asCount_eq_some rfl
  have hclass : optionalText m "spec.compute" "instanceType" = .error e ↔
      Mistypes Value.text "a string" m "instanceType" "spec.compute.instanceType" e :=
    optionalText_eq_error_iff rfl
  have htext (n : Nat) : s!"{n} exceeds the limit of {maxNodes} nodes" =
      s!"{n} exceeds the limit of 1024 nodes" := by
    rw [String.append_assoc, String.append_assoc]
    rfl
  rw [computeOf]
  simp only [bind_eq_error, requiredCount_eq_ok, hnodes, htext]
  constructor
  · rintro (h | ⟨n, hn, h⟩)
    · exact .nodes h
    · split at h
      · next hmost =>
        rcases bind_eq_error.1 h with h | ⟨_, h, -⟩
        · cases h
          exact .most hn hmost
        · cases h
      · next hmost =>
        rcases bind_eq_error.1 h with h | ⟨_, _, h⟩
        · exact .instanceClass hn (Nat.le_of_not_lt hmost) (hclass.1 h)
        · cases h
  · rintro (h | ⟨hn, hmost⟩ | ⟨hn, hmost, h⟩)
    · exact .inl h
    · refine .inr ⟨_, hn, ?_⟩
      rw [if_pos (c := maxNodes < _) hmost]
      exact bind_eq_error.2 (.inl rfl)
    · refine .inr ⟨_, hn, ?_⟩
      rw [if_neg (c := maxNodes < _) (Nat.not_lt.2 hmost)]
      exact bind_eq_error.2 (.inl (hclass.2 h))

theorem ofName?_eq_none {s : String} :
    Topology.ofName? s = none ↔ s ∉ ["mesh", "star", "ring"] := by
  constructor
  · intro hnone hs
    rcases (by simpa using hs : s = "mesh" ∨ s = "star" ∨ s = "ring") with rfl | rfl | rfl
    · exact absurd hnone (by decide)
    · exact absurd hnone (by decide)
    · exact absurd hnone (by decide)
  · intro hs
    refine Option.eq_none_iff_forall_ne_some.2 fun t ht ↦ hs ?_
    exact List.mem_map_of_mem (f := Prod.fst) (ofName?_eq_some.1 ht)

theorem exists_ofName?_eq_some {s : String} (hs : s ∈ ["mesh", "star", "ring"]) :
    ∃ t, Topology.ofName? s = some t :=
  Option.ne_none_iff_exists'.1 fun hnone ↦ ofName?_eq_none.1 hnone hs

theorem networkingOf_eq_error_iff : networkingOf m = .error e ↔ RefusesNetworking m e := by
  have htopology : requiredText m "spec.networking" "topology" = .error e ↔
      Misses Value.text "a string" m "topology" "spec.networking.topology" e :=
    requiredText_eq_error_iff rfl
  have hingress : optional "a mapping" asMapping m "spec.networking" "ingress" = .error e ↔
      Mistypes Value.mapping "a mapping" m "ingress" "spec.networking.ingress" e :=
    optional_eq_error_iff asMapping_eq_some rfl
  have hdomains (ingress : Fields) :
      items ingress (join "spec.networking" "ingress") "domains" domainOf = .error e ↔
        RefusesList IsDomain RefusesDomain ingress "domains" "spec.networking.ingress.domains" e :=
    items_eq_error_iff (@domainOf_eq_ok_iff) (fun _ _ _ ↦ domainOf_eq_error_iff) rfl
  rw [networkingOf]
  simp only [bind_eq_error, requiredText_eq_ok, htopology]
  constructor
  · rintro (h | ⟨s, hs, h⟩)
    · exact .topology h
    · split at h
      · next hnone =>
        cases h
        exact .unknown hs (ofName?_eq_none.1 hnone)
      · next t ht =>
        have hmem : s ∈ ["mesh", "star", "ring"] := by
          by_contra hno
          rw [ofName?_eq_none.2 hno] at ht
          cases ht
        rcases bind_eq_error.1 h with h | ⟨ingress, hok, h⟩
        · exact .ingress hs hmem (hingress.1 h)
        · cases ingress with
          | none => cases h
          | some ingress =>
            rcases bind_eq_error.1 h with h | ⟨_, _, h⟩
            · exact .domains hs hmem (optionalMapping_eq_some.1 hok) ((hdomains ingress).1 h)
            · cases h
  · rintro (h | ⟨hs, hno⟩ | ⟨hs, hmem, h⟩ | ⟨hs, hmem, hmapping, h⟩)
    · exact .inl h
    · refine .inr ⟨_, hs, ?_⟩
      rw [ofName?_eq_none.2 hno]
      rfl
    · obtain ⟨t, ht⟩ := exists_ofName?_eq_some hmem
      refine .inr ⟨_, hs, ?_⟩
      rw [ht]
      exact bind_eq_error.2 (.inl (hingress.2 h))
    · obtain ⟨t, ht⟩ := exists_ofName?_eq_some hmem
      refine .inr ⟨_, hs, ?_⟩
      rw [ht]
      exact bind_eq_error.2 (.inr ⟨_, optionalMapping_eq_some.2 hmapping,
        bind_eq_error.2 (.inl ((hdomains _).2 h))⟩)

theorem metadataOf_eq_error_iff : metadataOf m = .error e ↔ RefusesMetadata m e := by
  have hname : requiredText m "metadata" "name" = .error e ↔
      Misses Value.text "a string" m "name" "metadata.name" e := requiredText_eq_error_iff rfl
  have hspace : optionalText m "metadata" "namespace" = .error e ↔
      Mistypes Value.text "a string" m "namespace" "metadata.namespace" e :=
    optionalText_eq_error_iff rfl
  simp only [metadataOf, bind_eq_error, requiredText_eq_ok, expectLabel_eq_ok,
    expectLabel_eq_error_iff, hname, hspace]
  constructor
  · rintro (h | ⟨s, hs, h | ⟨_, hlabel, h | ⟨v, hv, h | ⟨_, _, h⟩⟩⟩⟩)
    · exact .name h
    · exact .label hs h
    · exact .space hs hlabel h
    · exact .spaceLabel hs hlabel (hasText_iff.1 ⟨v, hv, rfl⟩) h
    · cases h
  · rintro (h | ⟨hs, h⟩ | ⟨hs, hlabel, h⟩ | ⟨hs, hlabel, hspace, h⟩)
    · exact .inl h
    · exact .inr ⟨_, hs, .inl h⟩
    · exact .inr ⟨_, hs, .inr ⟨(), hlabel, .inl h⟩⟩
    · obtain ⟨v, hv, rfl⟩ := (@hasText_iff _ "metadata" _ _ _).2 hspace
      exact .inr ⟨_, hs, .inr ⟨(), hlabel, .inr ⟨v, hv, .inl h⟩⟩⟩

theorem exists_isMetadata_iff :
    (∃ spec, IsMetadata m spec) ↔ ∃ names, metadataOf m = .ok names := by
  simp only [metadataOf, bind_eq_ok, requiredText_eq_ok, expectLabel_eq_ok]
  constructor
  · rintro ⟨spec, hname, hlabel, hspace, hspaceLabel⟩
    obtain ⟨v, hv, hv'⟩ := (@hasText_iff _ "metadata" _ _ _).2 hspace
    exact ⟨_, _, hname, (), hlabel, v, hv, (), hv' ▸ hspaceLabel, rfl⟩
  · rintro ⟨_, name, hname, _, hlabel, v, hv, _, hspaceLabel, h⟩
    exact ⟨⟨name, v.getD "default", ⟨0, ""⟩, ⟨.mesh, []⟩, ⟨false, ""⟩, []⟩, hname, hlabel,
      hasText_iff.1 ⟨v, hv, rfl⟩, hspaceLabel⟩

theorem specOf_eq_error_iff : specOf m = .error e ↔ RefusesSpec m e := by
  have hcompute : partOf m "spec" "compute" computeOf = .error e ↔
      RefusesPart m "compute" "spec.compute" RefusesCompute e :=
    partOf_eq_error_iff (fun _ ↦ computeOf_eq_error_iff) rfl
  have hnetworking : partOf m "spec" "networking" networkingOf = .error e ↔
      RefusesPart m "networking" "spec.networking" RefusesNetworking e :=
    partOf_eq_error_iff (fun _ ↦ networkingOf_eq_error_iff) rfl
  have hstorage : partOf m "spec" "storage" storageOf = .error e ↔
      RefusesPart m "storage" "spec.storage" RefusesStorage e :=
    partOf_eq_error_iff (fun _ ↦ storageOf_eq_error_iff) rfl
  have htargets : items m "spec" "targets" targetOf = .error e ↔
      RefusesList IsTarget RefusesTarget m "targets" "spec.targets" e :=
    items_eq_error_iff (@targetOf_eq_ok_iff) (fun _ _ _ ↦ targetOf_eq_error_iff) rfl
  have hascompute : HasPart m "compute" IsCompute ↔
      ∃ compute, partOf m "spec" "compute" computeOf = .ok compute :=
    hasPart_iff fun fields ↦ by simp only [computeOf_eq_ok_iff]
  have hasnetworking : HasPart m "networking" IsNetworking ↔
      ∃ networking, partOf m "spec" "networking" networkingOf = .ok networking :=
    hasPart_iff fun fields ↦ by simp only [networkingOf_eq_ok_iff]
  have hasstorage : HasPart m "storage" IsStorage ↔
      ∃ storage, partOf m "spec" "storage" storageOf = .ok storage :=
    hasPart_iff fun fields ↦ by simp only [storageOf_eq_ok_iff]
  simp only [specOf, bind_eq_error, hcompute, hnetworking, hstorage, htargets]
  constructor
  · rintro (h | ⟨c, hc, h | ⟨n, hn, h | ⟨s, hs, h | ⟨_, _, h⟩⟩⟩⟩)
    · exact .compute h
    · exact .networking (hascompute.2 ⟨c, hc⟩) h
    · exact .storage (hascompute.2 ⟨c, hc⟩) (hasnetworking.2 ⟨n, hn⟩) h
    · exact .targets (hascompute.2 ⟨c, hc⟩) (hasnetworking.2 ⟨n, hn⟩) (hasstorage.2 ⟨s, hs⟩) h
    · cases h
  · rintro (h | ⟨hc, h⟩ | ⟨hc, hn, h⟩ | ⟨hc, hn, hs, h⟩)
    · exact .inl h
    · obtain ⟨c, hc⟩ := hascompute.1 hc
      exact .inr ⟨c, hc, .inl h⟩
    · obtain ⟨c, hc⟩ := hascompute.1 hc
      obtain ⟨n, hn⟩ := hasnetworking.1 hn
      exact .inr ⟨c, hc, .inr ⟨n, hn, .inl h⟩⟩
    · obtain ⟨c, hc⟩ := hascompute.1 hc
      obtain ⟨n, hn⟩ := hasnetworking.1 hn
      obtain ⟨s, hs⟩ := hasstorage.1 hs
      exact .inr ⟨c, hc, .inr ⟨n, hn, .inr ⟨s, hs, .inl h⟩⟩⟩

/-- A mapping is refused exactly for its first fault. -/
theorem ofFields_eq_error_iff : ofFields m = .error e ↔ Refuses m e := by
  have hmetadata : partOf m "" "metadata" metadataOf = .error e ↔
      RefusesPart m "metadata" "metadata" RefusesMetadata e :=
    partOf_eq_error_iff (fun _ ↦ metadataOf_eq_error_iff) rfl
  have hspec : partOf m "" "spec" specOf = .error e ↔
      RefusesPart m "spec" "spec" RefusesSpec e :=
    partOf_eq_error_iff (fun _ ↦ specOf_eq_error_iff) rfl
  have hasmetadata : HasPart m "metadata" IsMetadata ↔
      ∃ names, partOf m "" "metadata" metadataOf = .ok names :=
    hasPart_iff fun fields ↦ exists_isMetadata_iff
  rw [ofFields_eq]
  simp only [bind_eq_error, fixedOf_eq_ok, fixedOf_eq_error_iff, hmetadata, hspec]
  constructor
  · rintro (h | ⟨_, hversion, h | ⟨_, hkind, h | ⟨names, hnames, h | ⟨_, _, h⟩⟩⟩⟩)
    · exact .apiVersion h
    · exact .kind hversion h
    · exact .metadata hversion hkind h
    · exact .spec hversion hkind (hasmetadata.2 ⟨names, hnames⟩) h
    · cases h
  · rintro (h | ⟨hversion, h⟩ | ⟨hversion, hkind, h⟩ | ⟨hversion, hkind, hnames, h⟩)
    · exact .inl h
    · exact .inr ⟨(), hversion, .inl h⟩
    · exact .inr ⟨(), hversion, .inr ⟨(), hkind, .inl h⟩⟩
    · obtain ⟨names, hnames⟩ := hasmetadata.1 hnames
      exact .inr ⟨(), hversion, .inr ⟨(), hkind, .inr ⟨names, hnames, .inl h⟩⟩⟩

end Sections

def fieldPaths : List String :=
  ["apiVersion", "kind", "metadata", "metadata.name", "metadata.namespace", "spec",
    "spec.compute", "spec.compute.nodes", "spec.compute.instanceType", "spec.networking",
    "spec.networking.topology", "spec.networking.ingress", "spec.networking.ingress.domains",
    "spec.storage", "spec.storage.persistent", "spec.storage.iopsClass", "spec.targets"]

/-- A field of the schema, or an item of one of its two lists. -/
inductive Names : String → Prop
  | field {path : String} (h : path ∈ fieldPaths) : Names path
  | domain (i : Nat) : Names s!"spec.networking.ingress.domains[{i}]"
  | target (i : Nat) : Names s!"spec.targets[{i}]"

section Paths

variable {form : α → Value} {expected : String}

theorem Mistypes.fieldPath (h : Mistypes form expected m key path e) : e.fieldPath? = some path := by
  cases h
  rfl

theorem Misses.fieldPath (h : Misses form expected m key path e) : e.fieldPath? = some path := by
  cases h with
  | absent h => rfl
  | mistyped h => exact h.fieldPath

theorem Differs.fieldPath {allowed : String} (h : Differs m key allowed e) :
    e.fieldPath? = some key := by
  cases h with
  | mistyped h => exact h.fieldPath
  | other h hne => rfl

theorem RefusesList.fieldPath {R : String → α → Prop} {refuse : String → String → SpecError → Prop}
    (h : RefusesList R refuse m key path e)
    (hrefuse : ∀ path s e, refuse path s e → e.fieldPath? = some path) :
    e.fieldPath? = some path ∨ ∃ i : Nat, e.fieldPath? = some s!"{path}[{i}]" := by
  cases h with
  | mistyped h => exact .inl h.fieldPath
  | item h hearly hv => exact .inr ⟨_, rfl⟩
  | text h hearly hv hs => exact .inr ⟨_, hrefuse _ _ _ hs⟩

theorem RefusesPart.names {refuses : Fields → SpecError → Prop}
    (h : RefusesPart m key path refuses e) (hpath : path ∈ fieldPaths)
    (hrefuses : ∀ fields, refuses fields e → ∃ path, e.fieldPath? = some path ∧ Names path) :
    ∃ path, e.fieldPath? = some path ∧ Names path := by
  cases h with
  | absent h => exact ⟨path, h.fieldPath, .field hpath⟩
  | refused h hrefused => exact hrefuses _ hrefused

theorem RefusesMetadata.names (h : RefusesMetadata m e) :
    ∃ path, e.fieldPath? = some path ∧ Names path := by
  cases h with
  | name h => exact ⟨_, h.fieldPath, .field (by decide)⟩
  | label hname h => cases h; exact ⟨_, rfl, .field (by decide)⟩
  | space hname hlabel h => exact ⟨_, h.fieldPath, .field (by decide)⟩
  | spaceLabel hname hlabel hspace h => cases h; exact ⟨_, rfl, .field (by decide)⟩

theorem RefusesCompute.names (h : RefusesCompute m e) :
    ∃ path, e.fieldPath? = some path ∧ Names path := by
  cases h with
  | nodes h => exact ⟨_, h.fieldPath, .field (by decide)⟩
  | most hnodes h => exact ⟨_, rfl, .field (by decide)⟩
  | instanceClass hnodes hmost h => exact ⟨_, h.fieldPath, .field (by decide)⟩

theorem RefusesNetworking.names (h : RefusesNetworking m e) :
    ∃ path, e.fieldPath? = some path ∧ Names path := by
  cases h with
  | topology h => exact ⟨_, h.fieldPath, .field (by decide)⟩
  | unknown htopology h => exact ⟨_, rfl, .field (by decide)⟩
  | ingress htopology hs h => exact ⟨_, h.fieldPath, .field (by decide)⟩
  | domains htopology hs hingress h =>
    rcases h.fieldPath fun _ _ _ h ↦ by cases h; rfl with h | ⟨i, h⟩
    · exact ⟨_, h, .field (by decide)⟩
    · exact ⟨_, h, .domain i⟩

theorem RefusesStorage.names (h : RefusesStorage m e) :
    ∃ path, e.fieldPath? = some path ∧ Names path := by
  cases h with
  | persistent h => exact ⟨_, h.fieldPath, .field (by decide)⟩
  | performanceClass hpersistent h => exact ⟨_, h.fieldPath, .field (by decide)⟩

theorem RefusesSpec.names (h : RefusesSpec m e) :
    ∃ path, e.fieldPath? = some path ∧ Names path := by
  cases h with
  | compute h => exact h.names (by decide) fun _ ↦ RefusesCompute.names
  | networking hcompute h => exact h.names (by decide) fun _ ↦ RefusesNetworking.names
  | storage hcompute hnetworking h => exact h.names (by decide) fun _ ↦ RefusesStorage.names
  | targets hcompute hnetworking hstorage h =>
    rcases h.fieldPath fun _ _ _ h ↦ by cases h; rfl with h | ⟨i, h⟩
    · exact ⟨_, h, .field (by decide)⟩
    · exact ⟨_, h, .target i⟩

/-- Whatever a mapping is refused for, a field is named. -/
theorem Refuses.names (h : Refuses m e) : ∃ path, e.fieldPath? = some path ∧ Names path := by
  cases h with
  | apiVersion h => exact ⟨_, h.fieldPath, .field (by decide)⟩
  | kind hversion h => exact ⟨_, h.fieldPath, .field (by decide)⟩
  | metadata hversion hkind h => exact h.names (by decide) fun _ ↦ RefusesMetadata.names
  | spec hversion hkind hmetadata h => exact h.names (by decide) fun _ ↦ RefusesSpec.names

end Paths

inductive RefusesValue : Value → SpecError → Prop
  | notMapping {v : Value} (h : ∀ m, v ≠ .mapping m) : RefusesValue v (.notMapping v.typeName)
  | mapping {m : Fields} {e : SpecError} (h : Refuses m e) : RefusesValue (.mapping m) e

theorem ofValue_eq_error_iff {v : Value} : ofValue v = .error e ↔ RefusesValue v e := by
  constructor
  · intro h
    unfold ofValue at h
    split at h
    · exact .mapping (ofFields_eq_error_iff.1 h)
    · next hno =>
      cases h
      exact .notMapping fun m hm ↦ hno m hm
  · rintro (h | h)
    · cases v with
      | mapping m => exact absurd rfl (h m)
      | _ => rfl
    · exact ofFields_eq_error_iff.2 h

/-- A document is refused where it is no document at all, and else for what it says. -/
theorem ofBytes_eq_error_iff {bytes : ByteArray} : ofBytes bytes = .error e ↔
    (∃ fault, Value.ofBytes? bytes = .error fault ∧ e = .notYaml fault) ∨
      ∃ v, Value.ofBytes? bytes = .ok v ∧ RefusesValue v e := by
  unfold ofBytes
  cases Value.ofBytes? bytes with
  | error fault => simp [eq_comm]
  | ok v => simp [ofValue_eq_error_iff]

end WorkloadSpec

end Multicloud

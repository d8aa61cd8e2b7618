import Mathlib.Data.List.Forall2
import Mathlib.Data.List.TakeWhile
import Multicloud.Proofs.Fallible
import Multicloud.Proofs.Name.Pattern
import Multicloud.Workload.Document

namespace Multicloud

namespace Text

structure Trims (s t : List Char) : Prop where
  around : ∃ before after, s = before ++ (t ++ after) ∧ (∀ c ∈ before, isBlank c = true) ∧
    ∀ c ∈ after, isBlank c = true
  first : ∀ c ∈ t.head?, isBlank c = false
  last : ∀ c ∈ t.getLast?, isBlank c = false

variable {s t : List Char}

theorem trimStart_append {before : List Char} (hbefore : ∀ c ∈ before, isBlank c = true)
    (hfirst : ∀ c ∈ t.head?, isBlank c = false) : trimStart (before ++ t) = t := by
  rw [trimStart, List.dropWhile_append_of_pos hbefore]
  cases t with
  | nil => rfl
  | cons c t => rw [List.dropWhile_cons_of_neg (by simp [hfirst c rfl])]

theorem trim_append {before after : List Char} (hbefore : ∀ c ∈ before, isBlank c = true)
    (hafter : ∀ c ∈ after, isBlank c = true) (hfirst : ∀ c ∈ t.head?, isBlank c = false)
    (hlast : ∀ c ∈ t.getLast?, isBlank c = false) : trim (before ++ (t ++ after)) = t := by
  rcases eq_or_ne t [] with rfl | hne
  · have hall : ∀ c ∈ before ++ ([] ++ after), isBlank c = true := by
      simpa [or_imp, forall_and] using ⟨hbefore, hafter⟩
    rw [trim, trimStart, List.dropWhile_eq_nil_iff.2 hall]
    rfl
  · have hhead : (t ++ after).head? = t.head? := List.head?_append_of_ne_nil t hne
    rw [trim, trimStart_append hbefore (by rwa [hhead]), trimEnd, List.reverse_append,
      trimStart_append (by simpa using hafter) (by simpa using hlast), List.reverse_reverse]

theorem isBlank_of_head?_trimStart (s : List Char) : ∀ c ∈ (trimStart s).head?, isBlank c = false := by
  intro c hc
  have h := List.head?_dropWhile_not isBlank s
  rw [trimStart] at hc
  rw [hc] at h
  simpa using h

theorem trims_trim (s : List Char) : Trims s (trim s) := by
  have hstart : s.takeWhile isBlank ++ trimStart s = s := List.takeWhile_append_dropWhile
  have hend : trimStart s = trim s ++ ((trimStart s).reverse.takeWhile isBlank).reverse := by
    rw [trim, trimEnd, trimStart, trimStart, ← List.reverse_append, List.takeWhile_append_dropWhile,
      List.reverse_reverse]
  constructor
  · refine ⟨s.takeWhile isBlank, ((trimStart s).reverse.takeWhile isBlank).reverse, ?_, ?_, ?_⟩
    · rw [← hend, hstart]
    · exact fun c hc ↦ List.mem_takeWhile_imp hc
    · exact fun c hc ↦ List.mem_takeWhile_imp (List.mem_reverse.1 hc)
  · intro c hc
    refine isBlank_of_head?_trimStart s c ?_
    rw [hend, List.head?_append]
    exact Option.mem_def.2 (by rw [Option.mem_def.1 hc]; rfl)
  · intro c hc
    refine isBlank_of_head?_trimStart (trimStart s).reverse c ?_
    rwa [trim, trimEnd, List.getLast?_reverse] at hc

theorem trims_iff : Trims s t ↔ trim s = t := by
  constructor
  · rintro ⟨⟨before, after, rfl, hbefore, hafter⟩, hfirst, hlast⟩
    exact trim_append hbefore hafter hfirst hlast
  · rintro rfl
    exact trims_trim s

end Text

namespace WorkloadSpec

open Yaml (Value)

/-- The field is not there, or null. -/
def Lacks (m : Fields) (key : String) : Prop :=
  Value.lookup key m = none ∨ Value.lookup key m = some .null

/-- The field is the one text it may be, if it is there. -/
def IsFixed (m : Fields) (key allowed : String) : Prop :=
  Lacks m key ∨ Value.lookup key m = some (.text allowed)

/-- The field is a text, with a standard one where it is left out. -/
def HasText (m : Fields) (key standard s : String) : Prop :=
  (Lacks m key ∧ s = standard) ∨ Value.lookup key m = some (.text s)

inductive HasList {α : Type} (R : String → α → Prop) (m : Fields) (key : String) : List α → Prop
  | absent (h : Lacks m key) : HasList R m key []
  | items {values : List Value} {as : List α} (h : Value.lookup key m = some (.list values))
      (hitems : List.Forall₂ (fun v a ↦ ∃ s, v.text? = some s ∧ R s a) values as) :
      HasList R m key as

/-- A domain is written with blanks around it, and in letters of either case. -/
def IsDomain (s domain : String) : Prop :=
  (∃ t, Text.Trims s.toList t ∧ domain.toList = t.map Char.toLower) ∧ Name.Domain domain.toList

def IsTarget (s : String) (p : Provider) : Prop := Name.ProviderId s.toList ∧ p.name = s

structure IsCompute (m : Fields) (compute : Compute) : Prop where
  nodes : Value.lookup "nodes" m = some (.int compute.nodes.toNat)
  most : compute.nodes.toNat ≤ 1024
  instanceClass : HasText m "instanceType" "medium" compute.instanceClass

inductive IsIngress (m : Fields) : List String → Prop
  | absent (h : Lacks m "ingress") : IsIngress m []
  | mapping {ingress : Fields} {domains : List String}
      (h : Value.lookup "ingress" m = some (.mapping ingress))
      (hdomains : HasList IsDomain ingress "domains" domains) : IsIngress m domains

structure IsNetworking (m : Fields) (networking : Networking) : Prop where
  topology : ∃ name, Value.lookup "topology" m = some (.text name) ∧
    (name, networking.topology) ∈ [("mesh", .mesh), ("star", .star), ("ring", .ring)]
  domains : IsIngress m networking.domains

structure IsStorage (m : Fields) (storage : Storage) : Prop where
  persistent : Value.lookup "persistent" m = some (.bool storage.persistent)
  performanceClass : HasText m "iopsClass" "standard" storage.performanceClass

structure IsMetadata (m : Fields) (spec : WorkloadSpec) : Prop where
  name : Value.lookup "name" m = some (.text spec.name)
  label : Name.Label spec.name.toList
  space : HasText m "namespace" "default" spec.space
  spaceLabel : Name.Label spec.space.toList

structure IsSpec (m : Fields) (spec : WorkloadSpec) : Prop where
  compute : ∃ fields, Value.lookup "compute" m = some (.mapping fields) ∧
    IsCompute fields spec.compute
  networking : ∃ fields, Value.lookup "networking" m = some (.mapping fields) ∧
    IsNetworking fields spec.networking
  storage : ∃ fields, Value.lookup "storage" m = some (.mapping fields) ∧
    IsStorage fields spec.storage
  targets : ∃ named, HasList IsTarget m "targets" named ∧ spec.targets = named.eraseDups

/-- A document that meets the schema, and what it says. -/
structure Describes (m : Fields) (spec : WorkloadSpec) : Prop where
  apiVersion : IsFixed m "apiVersion" "infrastructure.nebulaforge.io/v1"
  kind : IsFixed m "kind" "WorkloadCluster"
  metadata : ∃ fields, Value.lookup "metadata" m = some (.mapping fields) ∧
    IsMetadata fields spec
  spec : ∃ fields, Value.lookup "spec" m = some (.mapping fields) ∧ IsSpec fields spec

section Fields

variable {α : Type} {m : Fields} {parent key expected : String} {read : Value → Option α}
  {form : α → Value}

theorem field?_eq_none : field? m key = none ↔ Lacks m key := by
  unfold field? Lacks
  split <;> simp_all

theorem field?_eq_some {v : Value} :
    field? m key = some v ↔ Value.lookup key m = some v ∧ v ≠ .null := by
  unfold field?
  split
  · next h =>
    rw [h]
    simp only [reduceCtorEq, Option.some.injEq, false_iff, not_and, not_not]
    exact Eq.symm
  · next h => exact ⟨fun h' ↦ ⟨h', fun hv ↦ h (hv ▸ h')⟩, And.left⟩

theorem optional_eq_none : optional expected read m parent key = .ok none ↔ Lacks m key := by
  rw [← field?_eq_none, optional]
  cases field? m key with
  | none => simp
  | some v =>
    dsimp only
    cases read v <;> simp

theorem optional_eq_some (hread : ∀ v a, read v = some a ↔ v = form a) (hnull : ∀ a, form a ≠ .null)
    {a : α} : optional expected read m parent key = .ok (some a) ↔
      Value.lookup key m = some (form a) := by
  have hfield : Value.lookup key m = some (form a) ↔ field? m key = some (form a) := by
    rw [field?_eq_some, and_iff_left (hnull a)]
  rw [hfield, optional]
  cases field? m key with
  | none => simp
  | some v =>
    rw [Option.some.injEq, ← hread]
    dsimp only
    cases read v <;> simp

theorem required_eq_ok (hread : ∀ v a, read v = some a ↔ v = form a) (hnull : ∀ a, form a ≠ .null)
    {a : α} : required expected read m parent key = .ok a ↔ Value.lookup key m = some (form a) := by
  rw [← optional_eq_some hread hnull, required, bind_eq_ok]
  constructor
  · rintro ⟨o, ho, h⟩
    cases o with
    | none => cases h
    | some a' =>
      cases h
      exact ho
  · exact fun h ↦ ⟨_, h, rfl⟩

theorem asText_eq_some (v : Value) (s : String) : asText v = some s ↔ v = .text s := by
  cases v <;> simp [asText]

theorem asBool_eq_some (v : Value) (b : Bool) : asBool v = some b ↔ v = .bool b := by
  cases v <;> simp [asBool]

theorem asList_eq_some (v : Value) (items : List Value) : asList v = some items ↔ v = .list items := by
  cases v <;> simp [asList]

theorem asMapping_eq_some (v : Value) (entries : Fields) :
    asMapping v = some entries ↔ v = .mapping entries := by
  cases v <;> simp [asMapping]

theorem asCount_eq_some (v : Value) (n : Nat) : asCount v = some n ↔ v = .int n := by
  cases v with
  | int i =>
    simp only [asCount, Option.ite_none_right_eq_some, Option.some.injEq, Value.int.injEq]
    omega
  | _ => simp [asCount]

end Fields

section Reading

variable {α : Type} {m : Fields} {path parent key : String}

theorem optionalText_eq_none : optionalText m parent key = .ok none ↔ Lacks m key :=
  optional_eq_none

theorem optionalText_eq_some {s : String} :
    optionalText m parent key = .ok (some s) ↔ Value.lookup key m = some (.text s) :=
  optional_eq_some asText_eq_some nofun

theorem requiredText_eq_ok {s : String} :
    requiredText m parent key = .ok s ↔ Value.lookup key m = some (.text s) :=
  required_eq_ok asText_eq_some nofun

theorem requiredMapping_eq_ok {fields : Fields} :
    requiredMapping m parent key = .ok fields ↔ Value.lookup key m = some (.mapping fields) :=
  required_eq_ok asMapping_eq_some nofun

theorem optionalMapping_eq_some {expected : String} {fields : Fields} :
    optional expected asMapping m parent key = .ok (some fields) ↔
      Value.lookup key m = some (.mapping fields) :=
  optional_eq_some asMapping_eq_some nofun

theorem optionalList_eq_some {expected : String} {values : List Value} :
    optional expected asList m parent key = .ok (some values) ↔
      Value.lookup key m = some (.list values) :=
  optional_eq_some asList_eq_some nofun

theorem requiredCount_eq_ok {expected : String} {n : Nat} :
    required expected asCount m parent key = .ok n ↔ Value.lookup key m = some (.int n) :=
  required_eq_ok asCount_eq_some nofun

theorem requiredBool_eq_ok {expected : String} {b : Bool} :
    required expected asBool m parent key = .ok b ↔ Value.lookup key m = some (.bool b) :=
  required_eq_ok asBool_eq_some nofun

theorem expectValue_eq_ok {allowed : String} {v : Option String} {u : Unit} :
    expectValue path allowed v = .ok u ↔ v = none ∨ v = some allowed := by
  cases v with
  | none => simp [expectValue]
  | some v =>
    dsimp only [expectValue]
    split <;> simp_all

theorem expectForm_eq_ok_iff {form : List Char → Bool} {what value : String} {u : Unit} :
    expectForm path form what value = .ok u ↔ form value.toList = true := by
  unfold expectForm
  split <;> simp_all

theorem expectLabel_eq_ok {value : String} {u : Unit} :
    expectLabel path value = .ok u ↔ Name.Label value.toList :=
  expectForm_eq_ok_iff.trans Name.isLabel_iff

theorem isFixed_iff {allowed : String} {u : Unit} :
    (∃ v, optionalText m parent key = .ok v ∧ expectValue path allowed v = .ok u) ↔
      IsFixed m key allowed := by
  simp only [expectValue_eq_ok, and_or_left, exists_or, exists_eq_right, IsFixed,
    optionalText_eq_none, optionalText_eq_some]

theorem hasText_iff {standard s : String} :
    (∃ v, optionalText m parent key = .ok v ∧ v.getD standard = s) ↔ HasText m key standard s := by
  constructor
  · rintro ⟨v, hv, rfl⟩
    cases v with
    | none => exact .inl ⟨optionalText_eq_none.1 hv, rfl⟩
    | some s => exact .inr (optionalText_eq_some.1 hv)
  · rintro (⟨h, rfl⟩ | h)
    · exact ⟨none, optionalText_eq_none.2 h, rfl⟩
    · exact ⟨some s, optionalText_eq_some.2 h, rfl⟩

theorem forall₂_zipIdx {β γ : Type} {R : β → γ → Prop} {values : List β} {as : List γ} (k : Nat) :
    List.Forall₂ (fun v a ↦ R v.1 a) (values.zipIdx k) as ↔ List.Forall₂ R values as := by
  rw [← List.forall₂_map_left_iff (f := Prod.fst), List.zipIdx_map_fst]

theorem mapM_zipIdx_eq_ok_iff {ε : Type} {f : Value × Nat → Except ε α} {R : Value → α → Prop}
    (hf : ∀ v i a, f (v, i) = .ok a ↔ R v a) {values : List Value} {as : List α} :
    values.zipIdx.mapM f = .ok as ↔ List.Forall₂ R values as := by
  refine mapM_eq_ok_iff.trans (Iff.trans ?_ (forall₂_zipIdx 0))
  refine iff_of_eq (congrArg (List.Forall₂ · values.zipIdx as) ?_)
  funext v a
  exact propext (hf v.1 v.2 a)

theorem items_eq_ok_iff {R : String → α → Prop} {read : String → String → Except SpecError α}
    (hread : ∀ path s a, read path s = .ok a ↔ R s a) {as : List α} :
    items m parent key read = .ok as ↔ HasList R m key as := by
  rw [items, bind_eq_ok]
  refine (exists_congr fun values ↦ and_congr_right'
    (mapM_zipIdx_eq_ok_iff (R := fun v a ↦ ∃ s, v.text? = some s ∧ R s a) fun v i a ↦ ?_)).trans ?_
  · dsimp only
    cases v.text? <;> simp [hread]
  constructor
  · rintro ⟨values, hvalues, h⟩
    cases values with
    | none =>
      cases h
      exact .absent (optional_eq_none.1 hvalues)
    | some values => exact .items (optionalList_eq_some.1 hvalues) h
  · rintro (h | ⟨h, hvalues⟩)
    · exact ⟨none, optional_eq_none.2 h, .nil⟩
    · exact ⟨_, optionalList_eq_some.2 h, hvalues⟩

theorem domainOf_eq_ok_iff {s domain : String} :
    domainOf path s = .ok domain ↔ IsDomain s domain := by
  have hlower : (∃ t, Text.trim s.toList = t ∧ domain.toList = t.map Char.toLower) ↔
      (String.ofList (Text.trim s.toList)).toLower = domain := by
    have hmap : (String.ofList (Text.trim s.toList)).toLower =
        (String.ofList (Text.trim s.toList)).map Char.toLower := rfl
    rw [exists_eq_left', ← String.toList_inj, hmap, String.toList_map, String.toList_ofList, eq_comm]
  simp only [domainOf, bind_eq_ok, expectForm_eq_ok_iff, Name.isDomain_iff, IsDomain, Text.trims_iff]
  rw [hlower]
  constructor
  · rintro ⟨_, hform, h⟩
    cases h
    exact ⟨rfl, hform⟩
  · rintro ⟨rfl, hform⟩
    exact ⟨(), hform, rfl⟩

theorem targetOf_eq_ok_iff {s : String} {p : Provider} :
    targetOf path s = .ok p ↔ IsTarget s p := by
  rw [IsTarget, ← Name.isProvider_iff]
  unfold targetOf Provider.ofName Provider.ofName?
  by_cases h : Name.isProvider s.toList = true
  · simp only [h, dif_pos, true_and]
    constructor
    · rintro ⟨⟩
      rfl
    · rintro rfl
      rfl
  · simp [h]

theorem toNat_toUInt64 {n : Nat} (h : n ≤ 1024) : n.toUInt64.toNat = n :=
  UInt64.toNat_ofNat_of_lt' (Nat.lt_of_le_of_lt h (by decide))

theorem computeOf_eq_ok_iff {compute : Compute} :
    computeOf m = .ok compute ↔ IsCompute m compute := by
  rw [computeOf]
  simp only [bind_eq_ok, requiredCount_eq_ok]
  constructor
  · rintro ⟨n, hnodes, h⟩
    split at h
    · cases h
    · next hmost =>
      obtain ⟨v, hv, h⟩ := bind_eq_ok.1 h
      cases h
      have hmost : n ≤ 1024 := Nat.le_of_not_lt hmost
      constructor
      · rw [toNat_toUInt64 hmost, hnodes]
      · rwa [toNat_toUInt64 hmost]
      · exact hasText_iff.1 ⟨v, hv, rfl⟩
  · rintro ⟨hnodes, hmost, hclass⟩
    obtain ⟨v, hv, hclass⟩ := (@hasText_iff _ "spec.compute" _ _ _).2 hclass
    refine ⟨_, hnodes, ?_⟩
    rw [if_neg (c := maxNodes < _) (Nat.not_lt.2 hmost)]
    refine bind_eq_ok.2 ⟨v, hv, ?_⟩
    rw [hclass]
    simp [pure, Except.pure]

theorem ofName?_eq_some {name : String} {t : Topology} :
    Topology.ofName? name = some t ↔
      (name, t) ∈ [("mesh", .mesh), ("star", .star), ("ring", .ring)] := by
  constructor
  · intro h
    have hname : t.name = name := by simpa using List.find?_some h
    subst hname
    cases t <;> simp [Topology.name]
  · intro h
    simp only [List.mem_cons, Prod.mk.injEq, List.not_mem_nil, or_false] at h
    rcases h with ⟨rfl, rfl⟩ | ⟨rfl, rfl⟩ | ⟨rfl, rfl⟩ <;> decide

theorem domains_eq_ok_iff {domains : List String} :
    items m parent key domainOf = .ok domains ↔ HasList IsDomain m key domains :=
  items_eq_ok_iff (R := IsDomain) (@domainOf_eq_ok_iff)

theorem networkingOf_eq_ok_iff {networking : Networking} :
    networkingOf m = .ok networking ↔ IsNetworking m networking := by
  rw [networkingOf]
  simp only [bind_eq_ok, requiredText_eq_ok]
  constructor
  · rintro ⟨name, hname, h⟩
    split at h
    · cases h
    · next topology htopology =>
      obtain ⟨ingress, hingress, h⟩ := bind_eq_ok.1 h
      cases ingress with
      | none =>
        cases h
        exact ⟨⟨name, hname, ofName?_eq_some.1 htopology⟩, .absent (optional_eq_none.1 hingress)⟩
      | some ingress =>
        obtain ⟨domains, hdomains, h⟩ := bind_eq_ok.1 h
        cases h
        exact ⟨⟨name, hname, ofName?_eq_some.1 htopology⟩,
          .mapping (optionalMapping_eq_some.1 hingress) (domains_eq_ok_iff.1 hdomains)⟩
  · rcases networking with ⟨topology, domains⟩
    rintro ⟨⟨name, hname, htopology⟩, hingress⟩
    refine ⟨name, hname, ?_⟩
    rw [ofName?_eq_some.2 htopology]
    rcases hingress with h | ⟨h, hdomains⟩
    · exact bind_eq_ok.2 ⟨none, optional_eq_none.2 h, rfl⟩
    · exact bind_eq_ok.2 ⟨_, optionalMapping_eq_some.2 h,
        bind_eq_ok.2 ⟨_, domains_eq_ok_iff.2 hdomains, rfl⟩⟩

theorem storageOf_eq_ok_iff {storage : Storage} :
    storageOf m = .ok storage ↔ IsStorage m storage := by
  rw [storageOf]
  simp only [bind_eq_ok, requiredBool_eq_ok]
  constructor
  · rintro ⟨persistent, hpersistent, v, hv, h⟩
    cases h
    exact ⟨hpersistent, hasText_iff.1 ⟨v, hv, rfl⟩⟩
  · rintro ⟨hpersistent, hclass⟩
    obtain ⟨v, hv, hclass⟩ := (@hasText_iff _ "spec.storage" _ _ _).2 hclass
    refine ⟨_, hpersistent, v, hv, ?_⟩
    rw [hclass]
    rfl

theorem targets_eq_ok_iff {targets : List Provider} :
    items m parent key targetOf = .ok targets ↔ HasList IsTarget m key targets :=
  items_eq_ok_iff (R := IsTarget) (@targetOf_eq_ok_iff)

theorem firsts_eq_eraseDups {β : Type} [DecidableEq β] (xs : List β) :
    firsts xs = xs.eraseDups := by
  have hloop (seen : List β) : List.eraseDupsBy.loop (· == ·) xs seen =
      (xs.foldl (fun seen x ↦ if x ∈ seen then seen else x :: seen) seen).reverse := by
    induction xs generalizing seen with
    | nil => rfl
    | cons x xs ih =>
      have hany : seen.any (x == ·) = decide (x ∈ seen) := by
        rw [Bool.eq_iff_iff]
        simp
      rw [List.eraseDupsBy.loop, List.foldl_cons, hany]
      by_cases hx : x ∈ seen <;> simp [hx, ih]
  exact (hloop []).symm

theorem ofFields_eq_ok_iff {spec : WorkloadSpec} : ofFields m = .ok spec ↔ Describes m spec := by
  constructor
  · intro h
    obtain ⟨_, hversion, h⟩ := bind_eq_ok.1 h
    obtain ⟨_, hversionValue, h⟩ := bind_eq_ok.1 h
    obtain ⟨_, hkind, h⟩ := bind_eq_ok.1 h
    obtain ⟨_, hkindValue, h⟩ := bind_eq_ok.1 h
    obtain ⟨metadata, hmetadata, h⟩ := bind_eq_ok.1 h
    obtain ⟨name, hname, h⟩ := bind_eq_ok.1 h
    obtain ⟨_, hlabel, h⟩ := bind_eq_ok.1 h
    obtain ⟨space, hspace, h⟩ := bind_eq_ok.1 h
    obtain ⟨_, hspaceLabel, h⟩ := bind_eq_ok.1 h
    obtain ⟨fields, hfields, h⟩ := bind_eq_ok.1 h
    obtain ⟨computeFields, hcomputeFields, h⟩ := bind_eq_ok.1 h
    obtain ⟨compute, hcompute, h⟩ := bind_eq_ok.1 h
    obtain ⟨networkingFields, hnetworkingFields, h⟩ := bind_eq_ok.1 h
    obtain ⟨networking, hnetworking, h⟩ := bind_eq_ok.1 h
    obtain ⟨storageFields, hstorageFields, h⟩ := bind_eq_ok.1 h
    obtain ⟨storage, hstorage, h⟩ := bind_eq_ok.1 h
    obtain ⟨targets, htargets, h⟩ := bind_eq_ok.1 h
    cases h
    have hmetadataOf : IsMetadata metadata
        ⟨name, space.getD "default", compute, networking, storage, firsts targets⟩ :=
      ⟨requiredText_eq_ok.1 hname, expectLabel_eq_ok.1 hlabel, hasText_iff.1 ⟨_, hspace, rfl⟩,
        expectLabel_eq_ok.1 hspaceLabel⟩
    have hspecOf : IsSpec fields
        ⟨name, space.getD "default", compute, networking, storage, firsts targets⟩ :=
      ⟨⟨_, requiredMapping_eq_ok.1 hcomputeFields, computeOf_eq_ok_iff.1 hcompute⟩,
        ⟨_, requiredMapping_eq_ok.1 hnetworkingFields, networkingOf_eq_ok_iff.1 hnetworking⟩,
        ⟨_, requiredMapping_eq_ok.1 hstorageFields, storageOf_eq_ok_iff.1 hstorage⟩,
        ⟨_, targets_eq_ok_iff.1 htargets, firsts_eq_eraseDups targets⟩⟩
    exact ⟨isFixed_iff.1 ⟨_, hversion, hversionValue⟩, isFixed_iff.1 ⟨_, hkind, hkindValue⟩,
      ⟨_, requiredMapping_eq_ok.1 hmetadata, hmetadataOf⟩,
      ⟨_, requiredMapping_eq_ok.1 hfields, hspecOf⟩⟩
  · rcases spec with ⟨name, space, compute, networking, storage, targets⟩
    rintro ⟨hversion, hkind, ⟨metadata, hmetadata, hname, hlabel, hspace, hspaceLabel⟩,
      fields, hfields, ⟨_, hcomputeFields, hcompute⟩, ⟨_, hnetworkingFields, hnetworking⟩,
      ⟨_, hstorageFields, hstorage⟩, named, hnamed, htargets⟩
    obtain ⟨_, hversion, hversionValue⟩ := (@isFixed_iff _ "apiVersion" "" _ _ ()).2 hversion
    obtain ⟨_, hkind, hkindValue⟩ := (@isFixed_iff _ "kind" "" _ _ ()).2 hkind
    obtain ⟨_, hspaceText, rfl⟩ := (@hasText_iff _ "metadata" _ _ _).2 hspace
    refine bind_eq_ok.2 ⟨_, hversion, bind_eq_ok.2 ⟨_, hversionValue, ?_⟩⟩
    refine bind_eq_ok.2 ⟨_, hkind, bind_eq_ok.2 ⟨_, hkindValue, ?_⟩⟩
    refine bind_eq_ok.2 ⟨_, requiredMapping_eq_ok.2 hmetadata, ?_⟩
    refine bind_eq_ok.2 ⟨_, requiredText_eq_ok.2 hname, ?_⟩
    refine bind_eq_ok.2 ⟨(), expectLabel_eq_ok.2 hlabel, ?_⟩
    refine bind_eq_ok.2 ⟨_, hspaceText, bind_eq_ok.2 ⟨(), expectLabel_eq_ok.2 hspaceLabel, ?_⟩⟩
    refine bind_eq_ok.2 ⟨_, requiredMapping_eq_ok.2 hfields, ?_⟩
    refine bind_eq_ok.2 ⟨_, requiredMapping_eq_ok.2 hcomputeFields, ?_⟩
    refine bind_eq_ok.2 ⟨_, computeOf_eq_ok_iff.2 hcompute, ?_⟩
    refine bind_eq_ok.2 ⟨_, requiredMapping_eq_ok.2 hnetworkingFields, ?_⟩
    refine bind_eq_ok.2 ⟨_, networkingOf_eq_ok_iff.2 hnetworking, ?_⟩
    refine bind_eq_ok.2 ⟨_, requiredMapping_eq_ok.2 hstorageFields, ?_⟩
    refine bind_eq_ok.2 ⟨_, storageOf_eq_ok_iff.2 hstorage, ?_⟩
    refine bind_eq_ok.2 ⟨_, targets_eq_ok_iff.2 hnamed, ?_⟩
    obtain rfl : targets = firsts named := htargets.trans (firsts_eq_eraseDups named).symm
    rfl

end Reading

theorem ofValue_eq_ok_iff {v : Value} {spec : WorkloadSpec} :
    ofValue v = .ok spec ↔ ∃ m, v = .mapping m ∧ Describes m spec := by
  cases v <;> simp [ofValue, ofFields_eq_ok_iff]

/-- The loader takes the documents that meet the schema, with what they say, and no others. -/
theorem loads_exactly_schema :
    (∀ v spec, ofValue v = .ok spec ↔ ∃ m, v = .mapping m ∧ Describes m spec) ∧
      ∀ bytes spec, ofBytes bytes = .ok spec ↔
        ∃ m, Value.ofBytes? bytes = .ok (.mapping m) ∧ Describes m spec := by
  refine ⟨fun v spec ↦ ofValue_eq_ok_iff, fun bytes spec ↦ ?_⟩
  unfold ofBytes
  cases Value.ofBytes? bytes with
  | error fault => simp
  | ok v => simp [ofValue_eq_ok_iff]

end WorkloadSpec

end Multicloud

import Multicloud.Proofs.Fallible
import Multicloud.Proofs.Text.Clean
import Multicloud.Workload.Document

namespace Multicloud.WorkloadSpec

/-- What the loader sees to. The classes of machines and of storage may be any text. -/
structure Valid (spec : WorkloadSpec) : Prop where
  name : Name.isLabel spec.name.toList = true
  space : Name.isLabel spec.space.toList = true
  domain : ∀ d ∈ spec.networking.domains, Name.isDomain d.toList = true

theorem expectForm_eq_ok {path what value : String} {form : List Char → Bool} {u : Unit}
    (h : expectForm path form what value = .ok u) : form value.toList = true := by
  unfold expectForm at h
  split at h
  · assumption
  · cases h

theorem domainOf_eq_ok {path s d : String} (h : domainOf path s = .ok d) :
    Name.isDomain d.toList = true := by
  obtain ⟨u, hform, h⟩ := bind_eq_ok.1 h
  cases h
  exact expectForm_eq_ok hform

theorem items_eq_ok {α : Type} {P : α → Prop} {m : Fields} {parent key : String}
    {read : String → String → Except SpecError α} (hread : ∀ path s a, read path s = .ok a → P a)
    {as : List α} (h : items m parent key read = .ok as) : ∀ a ∈ as, P a := by
  obtain ⟨values, -, h⟩ := bind_eq_ok.1 h
  intro a ha
  obtain ⟨⟨v, i⟩, -, h⟩ := exists_of_forall₂_right (mapM_eq_ok h) ha
  dsimp only at h
  split at h
  · exact hread _ _ _ h
  · cases h

theorem networkingOf_eq_ok {m : Fields} {networking : Networking}
    (h : networkingOf m = .ok networking) :
    ∀ d ∈ networking.domains, Name.isDomain d.toList = true := by
  obtain ⟨name, -, h⟩ := bind_eq_ok.1 h
  split at h
  · cases h
  · obtain ⟨ingress, -, h⟩ := bind_eq_ok.1 h
    split at h
    · obtain ⟨domains, hdomains, h⟩ := bind_eq_ok.1 h
      cases h
      exact items_eq_ok (P := fun d ↦ Name.isDomain d.toList = true) (fun _ _ _ ↦ domainOf_eq_ok)
        hdomains
    · cases h
      simp

theorem ofFields_eq_ok {m : Fields} {spec : WorkloadSpec} (h : ofFields m = .ok spec) :
    spec.Valid := by
  obtain ⟨_, -, h⟩ := bind_eq_ok.1 h
  obtain ⟨_, -, h⟩ := bind_eq_ok.1 h
  obtain ⟨_, -, h⟩ := bind_eq_ok.1 h
  obtain ⟨_, -, h⟩ := bind_eq_ok.1 h
  obtain ⟨metadata, -, h⟩ := bind_eq_ok.1 h
  obtain ⟨name, -, h⟩ := bind_eq_ok.1 h
  obtain ⟨_, hname, h⟩ := bind_eq_ok.1 h
  obtain ⟨space, -, h⟩ := bind_eq_ok.1 h
  obtain ⟨_, hspace, h⟩ := bind_eq_ok.1 h
  obtain ⟨fields, -, h⟩ := bind_eq_ok.1 h
  obtain ⟨_, -, h⟩ := bind_eq_ok.1 h
  obtain ⟨compute, -, h⟩ := bind_eq_ok.1 h
  obtain ⟨_, -, h⟩ := bind_eq_ok.1 h
  obtain ⟨networking, hnetworking, h⟩ := bind_eq_ok.1 h
  obtain ⟨_, -, h⟩ := bind_eq_ok.1 h
  obtain ⟨storage, -, h⟩ := bind_eq_ok.1 h
  obtain ⟨targets, -, h⟩ := bind_eq_ok.1 h
  cases h
  exact ⟨expectForm_eq_ok hname, expectForm_eq_ok hspace, networkingOf_eq_ok hnetworking⟩

theorem valid_of_ofBytes {bytes : ByteArray} {spec : WorkloadSpec}
    (h : ofBytes bytes = .ok spec) : spec.Valid := by
  unfold ofBytes at h
  split at h
  · next v _ =>
    unfold ofValue at h
    split at h
    · exact ofFields_eq_ok h
    · cases h
  · cases h

end Multicloud.WorkloadSpec

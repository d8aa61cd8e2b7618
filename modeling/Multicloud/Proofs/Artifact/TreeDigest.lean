import Mathlib.Data.Set.Function
import Multicloud.Proofs.Artifact.Files
import Multicloud.Proofs.Run.Binding
import Multicloud.Rules.Shipped

namespace Multicloud

namespace Artifact

variable {artifacts artifacts' : List Artifact} {fed : Set ByteArray}

def file (a : Artifact) : String × String := (a.fileName, a.body)

def treeStream (artifacts : List Artifact) : ByteArray :=
  (Digest.joined (artifacts.map (encoded Digest.blake3))).toUTF8

theorem treeDigest_eq (artifacts : List Artifact) :
    treeDigest Digest.blake3 artifacts = Digest.blake3 (treeStream artifacts) := rfl

/-- What is digested for a tree is the list of its files, after each body. -/
structure TreeFed (fed : Set ByteArray) (artifacts : List Artifact) : Prop where
  stream : treeStream artifacts ∈ fed
  body : ∀ a ∈ artifacts, a.body.toUTF8 ∈ fed

theorem zero_not_mem_encoded {a : Artifact} (h : Text.Simple a.fileName.toList) :
    '\x00' ∉ (a.encoded Digest.blake3).toList := by
  have hbody : Digest.IsDigest (Digest.ofText Digest.blake3 a.body) := ⟨_, rfl⟩
  have hname : '\x00' ∉ a.fileName.toList := h.not_mem rfl
  simp [encoded, hname, hbody.zero_not_mem]

theorem encoded_inj {a a' : Artifact} (h : Text.Simple a.fileName.toList)
    (h' : Text.Simple a'.fileName.toList)
    (he : a.encoded Digest.blake3 = a'.encoded Digest.blake3) :
    a.fileName = a'.fileName ∧
      Digest.blake3 a.body.toUTF8 = Digest.blake3 a'.body.toUTF8 := by
  have he := congrArg String.toList he
  simp only [encoded, String.toList_append, List.append_assoc] at he
  obtain ⟨hname, hbody⟩ := Text.append_cons_inj (h.not_mem rfl) (h'.not_mem rfl) he
  exact ⟨String.toList_inj.1 hname, String.toList_inj.1 hbody⟩

/-- The files of a tree can be told from the list of them that is digested. -/
theorem file_eq_of_treeStream_eq (hfed : Set.InjOn Digest.blake3 fed)
    (h : ∀ a ∈ artifacts, Text.Simple a.fileName.toList)
    (h' : ∀ a ∈ artifacts', Text.Simple a.fileName.toList) (hbody : TreeFed fed artifacts)
    (hbody' : TreeFed fed artifacts') (he : treeStream artifacts = treeStream artifacts') :
    artifacts.map file = artifacts'.map file := by
  have hencoded : artifacts.map (encoded Digest.blake3) = artifacts'.map (encoded Digest.blake3) :=
    Digest.eq_of_toUTF8_joined_eq
      (List.forall_mem_map.2 fun a ha ↦ zero_not_mem_encoded (h a ha))
      (List.forall_mem_map.2 fun a ha ↦ zero_not_mem_encoded (h' a ha)) he
  apply Text.map_congr_of_map_eq _ hencoded
  intro a ha a' ha' he
  obtain ⟨hname, hdigest⟩ := encoded_inj (h a ha) (h' a' ha') he
  have htext := hfed (hbody.body a ha) (hbody'.body a' ha') hdigest
  exact Prod.ext hname (Digest.toUTF8_inj.1 htext)

theorem encoded_of_file_eq {a a' : Artifact} (h : a.file = a'.file) :
    a.encoded Digest.blake3 = a'.encoded Digest.blake3 := by
  obtain ⟨hname, hbody⟩ := Prod.mk.inj h
  rw [encoded, encoded, hname, hbody]

theorem treeDigest_eq_iff (hfed : Set.InjOn Digest.blake3 fed)
    (h : ∀ a ∈ artifacts, Text.Simple a.fileName.toList)
    (h' : ∀ a ∈ artifacts', Text.Simple a.fileName.toList) (hf : TreeFed fed artifacts)
    (hf' : TreeFed fed artifacts') :
    treeDigest Digest.blake3 artifacts = treeDigest Digest.blake3 artifacts' ↔
      artifacts.map file = artifacts'.map file := by
  constructor
  · intro he
    rw [treeDigest_eq, treeDigest_eq] at he
    exact file_eq_of_treeStream_eq hfed h h' hf hf' (hfed hf.stream hf'.stream he)
  · intro he
    have hencoded := Text.map_congr_of_map_eq (fun a _ a' _ ↦ encoded_of_file_eq) he
    rw [treeDigest, treeDigest, hencoded]

def Walked (artifacts : List Artifact) : Prop :=
  ∃ registry : Registry, registry.Loaded ∧
    ∃ g p v, walkTarget g registry p v = .ok artifacts

theorem Walked.simple_fileName (h : Walked artifacts) :
    ∀ a ∈ artifacts, Text.Simple a.fileName.toList := by
  obtain ⟨registry, hr, g, p, v, h⟩ := h
  exact simple_fileName_of_walkTarget hr h

end Artifact

theorem Binding.key_eq_iff {fed : Set ByteArray} (hfed : Set.InjOn Digest.blake3 fed)
    {h h' : String} {b b' : Binding} (hh : '\x00' ∉ h.toList) (hh' : '\x00' ∉ h'.toList)
    (hf : b.stream h ∈ fed) (hf' : b'.stream h' ∈ fed) :
    b.key Digest.blake3 h = b'.key Digest.blake3 h' ↔ h = h' ∧ b = b' := by
  constructor
  · intro he
    rw [key_eq, key_eq] at he
    exact stream_inj hh hh' (hfed hf hf' he)
  · rintro ⟨rfl, rfl⟩
    rfl

open Artifact in
/-- As long as the content that is digested has digests of its own, runs have one key if they have
one graph and one binding, and trees have one digest if they have the same files in one order. -/
theorem digests_separate {fed : Set ByteArray} (hfed : Set.InjOn Digest.blake3 fed) :
    (∀ (h h' : String) (b b' : Binding), '\x00' ∉ h.toList → '\x00' ∉ h'.toList →
      b.stream h ∈ fed → b'.stream h' ∈ fed →
        (b.key Digest.blake3 h = b'.key Digest.blake3 h' ↔ h = h' ∧ b = b')) ∧
    ∀ artifacts artifacts' : List Artifact, Walked artifacts → Walked artifacts' →
      TreeFed fed artifacts → TreeFed fed artifacts' →
        (treeDigest Digest.blake3 artifacts = treeDigest Digest.blake3 artifacts' ↔
          artifacts.map file = artifacts'.map file) := by
  constructor
  · intro h h' b b' hh hh' hf hf'
    exact Binding.key_eq_iff hfed hh hh' hf hf'
  · intro artifacts artifacts' h h' hf hf'
    exact treeDigest_eq_iff hfed h.simple_fileName h'.simple_fileName hf hf'

section Routing

def ResourceGraph.upTo (g : ResourceGraph) (n : Nat) : ResourceGraph :=
  { g with resources := g.resources.take n }

def routingBinding : Binding := .of [(routing.provider, routing.version)]

def routingFed (a : Artifact) : List ByteArray :=
  [Artifact.treeStream [], Artifact.treeStream [a], a.body.toUTF8, Binding.stream "" ∅,
    Binding.stream "" routingBinding]

def routed : Except TargetFailure (List Artifact) :=
  match Registry.empty.register routing with
  | .ok registry => walkTarget (reached.upTo 1) registry routing.provider routing.version
  | .error _ => .ok []

theorem nodup_routingFed : ∃ a, routed = .ok [a] ∧
    ((routingFed a).map Digest.blake3).Nodup := by
  have hlength : (routed.toOption.getD []).length = 1 := by decide +kernel
  have hnodup : ∀ a ∈ routed.toOption.getD [], ((routingFed a).map Digest.blake3).Nodup := by
    decide +kernel
  cases hrouted : routed with
  | error e =>
    rw [hrouted] at hlength
    cases hlength
  | ok artifacts =>
    rw [hrouted] at hlength hnodup
    obtain ⟨a, rfl⟩ := List.length_eq_one_iff.1 hlength
    exact ⟨a, rfl, hnodup a (.head _)⟩

theorem digests_separate_reached : ∃ a, routed = .ok [a] ∧
    Artifact.treeDigest Digest.blake3 [] ≠ Artifact.treeDigest Digest.blake3 [a] ∧
    Binding.key Digest.blake3 "" ∅ ≠ Binding.key Digest.blake3 "" routingBinding := by
  obtain ⟨a, ha, hnodup⟩ := nodup_routingFed
  have hfed : Set.InjOn Digest.blake3 {bytes | bytes ∈ routingFed a} :=
    fun bytes hmem bytes' hmem' he ↦ List.inj_on_of_nodup_map hnodup hmem hmem' he
  obtain ⟨hkeys, htrees⟩ := digests_separate hfed
  have hnone : Artifact.Walked [] :=
    ⟨.builtin, .builtin, ⟨"default/w", []⟩, Shipped.aws, Shipped.v1, by decide +kernel⟩
  have hone : Artifact.Walked [a] := by
    unfold routed at ha
    split at ha
    · next registry hr =>
      exact ⟨registry, .register .empty (by decide) hr, _, _, _, ha⟩
    · cases ha
  refine ⟨a, ha, ?_, ?_⟩
  · intro he
    have hfiles := (htrees [] [a] hnone hone ⟨by simp [routingFed], by simp⟩
      ⟨by simp [routingFed], by simp [routingFed]⟩).1 he
    cases hfiles
  · intro he
    obtain ⟨-, hbinding⟩ := (hkeys "" "" ∅ routingBinding (by decide) (by decide)
      (by simp [routingFed]) (by simp [routingFed])).1 he
    have hmem : routing.provider ∈ routingBinding := by decide +kernel
    rw [← hbinding] at hmem
    exact Std.ExtTreeMap.not_mem_empty hmem

end Routing

end Multicloud

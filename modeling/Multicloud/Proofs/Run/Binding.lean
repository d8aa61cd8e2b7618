import Multicloud.Proofs.Digest
import Multicloud.Proofs.Fallible
import Multicloud.Proofs.Text.Clean
import Multicloud.Run.Binding

namespace Multicloud

open Text (Clean Simple)

theorem Provider.isLabelChar_of_mem_name (p : Provider) :
    ∀ c ∈ p.name.toList, Name.isLabelChar c = true := by
  have h := p.valid
  generalize p.name.toList = s at h
  cases s with
  | nil => cases h
  | cons c rest =>
    simp only [Name.isProvider, Bool.and_eq_true] at h
    refine List.forall_mem_cons.2 ⟨?_, List.all_eq_true.1 h.2⟩
    simp [Name.isLabelChar, h.1.1]

theorem Provider.simple_name (p : Provider) : Simple p.name.toList :=
  Text.simple_of_all_isLabelChar p.isLabelChar_of_mem_name

theorem Provider.clean_name (p : Provider) : Clean p.name.toList := p.simple_name.clean

section Numerals

variable {c : Char} (hdigit : Text.digit? 10 c = none)

include hdigit

theorem Text.not_mem_of_readNat {s : List Char} {n : Nat} (h : readNat 10 s = some n) :
    c ∉ s := by
  unfold readNat at h
  split at h
  · cases h
  · obtain ⟨ds, hds, -⟩ := Option.map_eq_some_iff.1 h
    intro hmem
    obtain ⟨d, hd⟩ := exists_of_mapM_eq_some hds hmem
    rw [hdigit] at hd
    cases hd

theorem Text.not_mem_of_readWord (hplus : c ≠ '+') {s : List Char} {n : Nat}
    (h : readWord s = some n) : c ∉ s := by
  unfold readWord at h
  dsimp only at h
  obtain ⟨h, -⟩ := Option.filter_eq_some_iff.1 h
  have h := Text.not_mem_of_readNat hdigit h
  split at h
  · rw [List.mem_cons, not_or]
    exact ⟨hplus, h⟩
  · exact h

theorem Version.not_mem_text (hplus : c ≠ '+') (hdot : c ≠ '.') (v : Version) :
    c ∉ v.text.toList := by
  intro hmem
  rcases Text.mem_splitAt '.' hmem with h | ⟨part, hpart, hc⟩
  · exact hdot h
  · obtain ⟨n, hn⟩ := exists_of_mapM_eq_some v.read hpart
    exact Text.not_mem_of_readWord hdigit hplus hn hc

end Numerals

theorem Version.eq_of_text_eq {v v' : Version} (h : v.text = v'.text) : v = v' := by
  have hread := v.read
  rw [h, v'.read] at hread
  cases v
  cases v'
  cases h
  cases hread
  rfl

theorem Provider.eq_of_name_eq {p p' : Provider} (h : p.name = p'.name) : p = p' := by
  cases p
  cases p'
  cases h
  rfl

namespace Binding

def stream (graphHash : String) (b : Binding) : ByteArray :=
  (Digest.joined (graphHash :: b.encoded)).toUTF8

theorem key_eq (digest : Digester) (graphHash : String) (b : Binding) :
    b.key digest graphHash = digest (b.stream graphHash) := rfl

theorem not_mem_encoded (b : Binding) : ∀ s ∈ b.encoded, '\x00' ∉ s.toList := by
  simp only [encoded, List.mem_map]
  rintro _ ⟨⟨p, v⟩, -, rfl⟩
  simp [p.clean_name '\x00' (by decide),
    v.not_mem_text (show Text.digit? 10 '\x00' = none from rfl) (by decide) (by decide)]

theorem encoded_inj {b b' : Binding} (h : b.encoded = b'.encoded) : b = b' := by
  refine Std.ExtTreeMap.toList_inj.1 (Text.eq_of_map_eq ?_ h)
  rintro ⟨p, v⟩ - ⟨p', v'⟩ - he
  have he := congrArg String.toList he
  simp only [String.toList_append, List.append_assoc] at he
  obtain ⟨hp, hv⟩ := Text.append_cons_inj (p.clean_name '@' (by decide))
    (p'.clean_name '@' (by decide)) he
  rw [Provider.eq_of_name_eq (String.toList_inj.1 hp),
    Version.eq_of_text_eq (String.toList_inj.1 hv)]

/-- The versions of a run and the digest of its graph can be told from what its key is made of. -/
theorem stream_inj {h h' : String} {b b' : Binding} (hh : '\x00' ∉ h.toList)
    (hh' : '\x00' ∉ h'.toList) (he : b.stream h = b'.stream h') : h = h' ∧ b = b' := by
  have he := Digest.eq_of_toUTF8_joined_eq (List.forall_mem_cons.2 ⟨hh, b.not_mem_encoded⟩)
    (List.forall_mem_cons.2 ⟨hh', b'.not_mem_encoded⟩) he
  obtain ⟨hh, hb⟩ := List.cons.inj he
  exact ⟨hh, encoded_inj hb⟩

end Binding

end Multicloud

import Multicloud.Digest
import Multicloud.Proofs.Text.Separated

namespace Multicloud

namespace Text

variable {bytes : List UInt8}

theorem length_hexOfWidth (width n : Nat) : (hexOfWidth width n).length = width := by
  induction width generalizing n with
  | zero => rfl
  | succ width ih => rw [hexOfWidth, List.length_append, ih, List.length_singleton]

theorem length_hexOfBytes (bytes : List UInt8) : (hexOfBytes bytes).length = 2 * bytes.length := by
  induction bytes with
  | nil => rfl
  | cons b bytes ih =>
    rw [hexOfBytes, List.flatMap_cons, List.length_append, length_hexOfWidth]
    rw [hexOfBytes] at ih
    rw [ih, List.length_cons]
    omega

theorem mem_hexOfWidth {width n : Nat} {c : Char} (h : c ∈ hexOfWidth width n) :
    ∃ k < 16, c = Nat.digitChar k := by
  induction width generalizing n with
  | zero => cases h
  | succ width ih =>
    rcases List.mem_append.1 h with h | h
    · exact ih h
    · exact ⟨n % 16, Nat.mod_lt _ (by decide), List.mem_singleton.1 h⟩

theorem not_mem_hexOfBytes {c : Char} (hc : ∀ k < 16, c ≠ Nat.digitChar k) :
    c ∉ hexOfBytes bytes := by
  intro h
  obtain ⟨b, -, h⟩ := List.mem_flatMap.1 h
  obtain ⟨k, hk, he⟩ := mem_hexOfWidth h
  exact hc k hk he

end Text

namespace Digest

variable {parts parts' : List String}

theorem toList_joined (parts : List String) :
    (joined parts).toList = (parts.map String.toList).flatMap (· ++ ['\x00']) := by
  simp [joined, List.flatMap_map]

theorem toUTF8_inj {s t : String} : s.toUTF8 = t.toUTF8 ↔ s = t := by
  rw [String.toUTF8_eq_toByteArray, String.toUTF8_eq_toByteArray, String.toByteArray_inj]

theorem toUTF8_joined_inj : (joined parts).toUTF8 = (joined parts').toUTF8 ↔
    (parts.map String.toList).flatMap (· ++ ['\x00']) =
      (parts'.map String.toList).flatMap (· ++ ['\x00']) := by
  rw [toUTF8_inj, ← String.toList_inj, toList_joined, toList_joined]

/-- Texts without NUL can be told from what is digested for them. -/
theorem eq_of_toUTF8_joined_eq (h : ∀ s ∈ parts, '\x00' ∉ s.toList)
    (h' : ∀ s ∈ parts', '\x00' ∉ s.toList) (he : (joined parts).toUTF8 = (joined parts').toUTF8) :
    parts = parts' := by
  have he := Text.flatMap_terminated_inj (List.forall_mem_map.2 h) (List.forall_mem_map.2 h')
    (toUTF8_joined_inj.1 he)
  exact Text.eq_of_map_eq (fun _ _ _ _ ↦ String.toList_inj.1) he

theorem length_hash (data : ByteArray) : (Blake3.hash data).length = 32 := by
  have h (ws : List UInt32) : (ws.flatMap Blake3.littleEndian).length = 4 * ws.length := by
    induction ws with
    | nil => rfl
    | cons w ws ih =>
      rw [List.flatMap_cons, List.length_append, ih, List.length_cons]
      simp only [Blake3.littleEndian, List.length_cons, List.length_nil]
      omega
  rw [Blake3.hash, h, Vector.length_toList]

def IsDigest (s : String) : Prop := ∃ data, blake3 data = s

namespace IsDigest

variable {s s' : String}

theorem exists_hex (h : IsDigest s) :
    ∃ bytes : List UInt8, bytes.length = 32 ∧ s.toList = "blake3:".toList ++ Text.hexOfBytes bytes ∧
      (short s 64).toList = Text.hexOfBytes bytes := by
  obtain ⟨data, rfl⟩ := h
  have hlength : (Text.hexOfBytes (Blake3.hash data)).length = 64 := by
    rw [Text.length_hexOfBytes, length_hash]
  have hs : (blake3 data).toList = "blake3:".toList ++ Text.hexOfBytes (Blake3.hash data) := by
    simp [blake3]
  refine ⟨_, length_hash data, hs, ?_⟩
  simp only [short, hs]
  rw [if_pos (List.isPrefixOf_iff_prefix.2 (List.prefix_append _ _))]
  rw [show "blake3:".length = "blake3:".toList.length from rfl, List.drop_left,
    List.take_of_length_le (Nat.le_of_eq hlength), String.toList_ofList]

theorem eq_of_short_eq (h : IsDigest s) (h' : IsDigest s') (he : short s 64 = short s' 64) :
    s = s' := by
  obtain ⟨bytes, -, hs, hshort⟩ := h.exists_hex
  obtain ⟨bytes', -, hs', hshort'⟩ := h'.exists_hex
  rw [← String.toList_inj, hshort, hshort'] at he
  rw [← String.toList_inj, hs, hs', he]

theorem zero_not_mem (h : IsDigest s) : '\x00' ∉ s.toList := by
  obtain ⟨bytes, -, hs, -⟩ := h.exists_hex
  rw [hs]
  simp [Text.not_mem_hexOfBytes (c := '\x00') (by decide)]

theorem slash_not_mem_short (h : IsDigest s) : '/' ∉ (short s 64).toList := by
  obtain ⟨bytes, -, -, hshort⟩ := h.exists_hex
  rw [hshort]
  exact Text.not_mem_hexOfBytes (by decide)

theorem short_ne (h : IsDigest s) : (short s 64).toList ≠ [] := by
  obtain ⟨bytes, hlength, -, hshort⟩ := h.exists_hex
  rw [hshort, ← List.length_pos_iff, Text.length_hexOfBytes, hlength]
  decide

theorem zero_not_mem_short (h : IsDigest s) : '\x00' ∉ (short s 64).toList := by
  obtain ⟨bytes, -, -, hshort⟩ := h.exists_hex
  rw [hshort]
  exact Text.not_mem_hexOfBytes (by decide)

theorem utf8ByteSize_short (h : IsDigest s) : (short s 64).utf8ByteSize = 64 := by
  obtain ⟨bytes, hlength, -, hshort⟩ := h.exists_hex
  have hsize (cs : List Char) (hcs : ∀ c ∈ cs, c.utf8Size = 1) :
      (String.ofList cs).utf8ByteSize = cs.length := by
    induction cs with
    | nil => rfl
    | cons c cs ih =>
      obtain ⟨hc, hcs⟩ := List.forall_mem_cons.1 hcs
      rw [String.ofList_cons, String.utf8ByteSize_append, String.utf8ByteSize_singleton, hc, ih hcs,
        List.length_cons, Nat.add_comm]
  have hdigit : ∀ k < 16, (Nat.digitChar k).utf8Size = 1 := by decide
  rw [← String.ofList_toList (s := short s 64), hshort, hsize, Text.length_hexOfBytes, hlength]
  intro c hc
  obtain ⟨b, -, hc⟩ := List.mem_flatMap.1 hc
  obtain ⟨k, hk, rfl⟩ := Text.mem_hexOfWidth hc
  exact hdigit k hk

end IsDigest

end Digest

end Multicloud

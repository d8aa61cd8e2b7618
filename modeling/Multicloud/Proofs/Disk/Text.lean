import Multicloud.Proofs.Disk.Frame
import Multicloud.Proofs.Disk.Script

namespace Multicloud

theorem fromUTF8?_toUTF8 (s : String) : String.fromUTF8? s.toUTF8 = some s := by
  simp [String.fromUTF8?, s.isValidUTF8]
  rfl

theorem eq_toUTF8_of_fromUTF8? {bytes : ByteArray} {s : String}
    (h : String.fromUTF8? bytes = some s) : bytes = s.toUTF8 := by
  unfold String.fromUTF8? at h
  split at h
  · cases h
    rfl
  · cases h

variable {root root' : Tree} {p : Path} {s text : String}

theorem Script.textAt_of_readFile (h : DiskOp.readFile root p = .ok text.toUTF8) :
    textAt root p = .ok text := by
  rw [textAt, h]
  dsimp only
  rw [fromUTF8?_toUTF8]

theorem Script.get?_of_textAt (h : textAt root p = .ok text) :
    root.get? p.names = some (.file text.toUTF8) := by
  unfold textAt at h
  split at h
  · cases h
  · next bytes hread =>
    split at h
    · next s hs =>
      cases h
      rw [eq_toUTF8_of_fromUTF8? hs] at hread
      exact DiskOp.readFile_eq_ok hread
    · cases h

/-- The text of the file at the place of a path. Where there is no file there is no text. -/
def Tree.HasText (root : Tree) (p : Path) (text : String) : Prop :=
  root.get? p.names = some (.file text.toUTF8) ∨
    text = "" ∧ ∀ bytes, root.get? p.names ≠ some (.file bytes)

namespace Tree.HasText

theorem of_keeps (h : root.HasText p text) (hkeeps : root.Keeps root' p.names)
    (hwithin : root'.FilesWithin root) : root'.HasText p text := by
  rcases h with h | ⟨rfl, h⟩
  · exact .inl (hkeeps.file _ h)
  · exact .inr ⟨rfl, fun bytes hfile ↦ h bytes (hwithin _ _ hfile)⟩

theorem append (h : root.HasText p text)
    (hc : DiskOp.change root p (fun old ↦ old.getD .empty ++ s.toUTF8) = .ok root') :
    Script.textAt root' p = .ok (text ++ s) := by
  obtain ⟨old, hold, hread⟩ := DiskOp.readFile_of_change hc
  have hbytes : old.getD .empty = text.toUTF8 := by
    rcases h with h | ⟨rfl, h⟩
    · rw [h] at hold
      cases old with
      | none => cases hold
      | some bytes => simpa using hold.symm
    · cases old with
      | none => rfl
      | some bytes => exact absurd hold (h bytes)
  have htext : old.getD .empty ++ s.toUTF8 = (text ++ s).toUTF8 := by
    rw [hbytes]
    simp [String.toUTF8_eq_toByteArray]
  rw [htext] at hread
  exact Script.textAt_of_readFile hread

end Tree.HasText

end Multicloud

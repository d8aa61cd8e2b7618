import Multicloud.Proofs.Disk.Text
import Multicloud.Proofs.Fallible
import Multicloud.Yaml.Decode

namespace Multicloud.Yaml

theorem Document.ofBytes?_ofList (s : List Char) :
    ofBytes? (String.ofList s).toUTF8 = ofText? s := by
  rw [ofBytes?, fromUTF8?_toUTF8]
  simp only [String.toList_ofList]

variable {α β : Type} {P : α → Prop} {Q : β → Prop}

/-- What can be read of a document is as it has to be, however many aliases were followed before. -/
def Gives (P : α → Prop) (x : Reading α) : Prop := ∀ n a m, x.run n = .ok (a, m) → P a

theorem Gives.bind {x : Reading β} {f : β → Reading α} (h : Gives Q x)
    (hf : ∀ b, Q b → Gives P (f b)) : Gives P (x >>= f) := by
  intro n a m hrun
  rw [StateT.run_bind] at hrun
  obtain ⟨⟨b, k⟩, hb, hrun⟩ := bind_eq_ok.1 hrun
  exact hf b (h n b k hb) k a m hrun

theorem gives_true (x : Reading α) : Gives (fun _ ↦ True) x := fun _ _ _ _ ↦ trivial

theorem gives_bind_of {x : Reading β} {f : β → Reading α} (hf : ∀ b, Gives P (f b)) :
    Gives P (x >>= f) :=
  (gives_true x).bind fun b _ ↦ hf b

theorem gives_pure {a : α} (h : P a) : Gives P (pure a) := by
  intro n b m hrun
  cases hrun
  exact h

theorem gives_foldlM {f : α → β → Reading α} (hf : ∀ a b, P a → Gives P (f a b)) {a : α}
    (h : P a) (l : List β) : Gives P (l.foldlM f a) := by
  induction l generalizing a with
  | nil => exact gives_pure h
  | cons b l ih =>
    rw [List.foldlM_cons]
    exact (hf a b h).bind fun a' ha' ↦ ih ha'

theorem gives_mapM {f : β → Reading α} (hf : ∀ b, Gives P (f b)) (l : List β) :
    Gives (fun as ↦ ∀ a ∈ as, P a) (l.mapM f) := by
  induction l with
  | nil => exact gives_pure (by simp)
  | cons b l ih =>
    rw [List.mapM_cons]
    refine (hf b).bind fun a ha ↦ ih.bind fun as has ↦ gives_pure ?_
    exact List.forall_mem_cons.2 ⟨ha, has⟩

section Fields

variable {fields : Document.Fields} {name : String} {read : Node → Reading α}

theorem gives_required (h : ∀ n, Gives P (read n)) : Gives P (Document.required fields name read) := by
  unfold Document.required
  cases fields.lookup name with
  | none => exact nofun
  | some n => exact h n

theorem gives_optional {default : α} (hdefault : P default) (h : ∀ n, Gives P (read n)) :
    Gives P (Document.optional fields name default read) := by
  unfold Document.optional
  cases fields.lookup name with
  | none => exact gives_pure hdefault
  | some n => exact h n

end Fields

end Multicloud.Yaml

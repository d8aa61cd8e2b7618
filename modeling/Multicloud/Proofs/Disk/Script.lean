import Multicloud.Disk.Script

namespace Multicloud.Script

variable {α β ε : Type}

protected theorem bind_assoc {γ : Type} (s : Script α) (f : α → Script β) (g : β → Script γ) :
    s >>= f >>= g = s >>= fun a ↦ f a >>= g := by
  induction s with
  | done a => rfl
  | perform op next ih => exact congrArg (perform op) (funext ih)

protected theorem bind_pure (s : Script α) : s >>= pure = s := by
  induction s with
  | done a => rfl
  | perform op next ih => exact congrArg (perform op) (funext ih)

instance : LawfulMonad Script :=
  .mk' Script Script.bind_pure (fun _ _ ↦ rfl) Script.bind_assoc

theorem run_bind (s : Script α) (f : α → Script β) (root : Tree) :
    (s >>= f).run root = (f (s.run root).1).run (s.run root).2 := by
  induction s generalizing root with
  | done a => rfl
  | perform op next ih => exact ih _ _

theorem run_pure (a : α) (root : Tree) : (pure a : Script α).run root = (a, root) := rfl

theorem run_step (op : DiskOp) (root : Tree) : (step op).run root = op.run root := rfl

def attempt (s : OrFail ε α) (root : Tree) : Except ε α × Tree := Script.run s.run root

theorem attempt_bind (s : OrFail ε α) (f : α → OrFail ε β) (root : Tree) :
    attempt (s >>= f) root =
      match attempt s root with
      | (.ok a, root) => attempt (f a) root
      | (.error e, root) => (.error e, root) := by
  have h : attempt (s >>= f) root =
      Script.run (ExceptT.bindCont f (attempt s root).1) (attempt s root).2 :=
    run_bind s.run (ExceptT.bindCont f) root
  rw [h]
  split
  · next he =>
    rw [he]
    rfl
  · next he =>
    rw [he]
    rfl

theorem attempt_bind_ok {s : OrFail ε α} {a : α} {root root' : Tree}
    (h : attempt s root = (.ok a, root')) (f : α → OrFail ε β) :
    attempt (s >>= f) root = attempt (f a) root' := by
  rw [attempt_bind, h]

theorem attempt_orElse (s : Script (Except DiskError α)) (f : DiskError → ε) (root : Tree) :
    attempt (orElse s f) root = ((s.run root).1.mapError f, (s.run root).2) := run_bind s _ root

theorem attempt_write (p : Path) (s : String) (f : DiskError → ε) (root : Tree) :
    attempt (orElse (write p s) f) root =
      match DiskOp.change root p fun _ ↦ s.toUTF8 with
      | .ok new => (.ok (), new)
      | .error e => (.error (f e), root) := by
  rw [attempt_orElse, write, run_step, DiskOp.run]
  cases DiskOp.change root p fun _ ↦ s.toUTF8 <;> rfl

theorem attempt_append (p : Path) (s : String) (f : DiskError → ε) (root : Tree) :
    attempt (orElse (append p s) f) root =
      match DiskOp.change root p fun old ↦ old.getD .empty ++ s.toUTF8 with
      | .ok new => (.ok (), new)
      | .error e => (.error (f e), root) := by
  rw [attempt_orElse, append, run_step, DiskOp.run]
  cases DiskOp.change root p fun old ↦ old.getD .empty ++ s.toUTF8 <;> rfl

theorem attempt_rename (source target : Path) (f : DiskError → ε) (root : Tree) :
    attempt (orElse (rename source target) f) root =
      match DiskOp.move root source target with
      | .ok new => (.ok (), new)
      | .error e => (.error (f e), root) := by
  rw [attempt_orElse, rename, run_step, DiskOp.run]
  cases DiskOp.move root source target <;> rfl

theorem attempt_makeDirs (p : Path) (f : DiskError → ε) (root : Tree) :
    attempt (orElse (makeDirs p) f) root =
      ((DiskOp.makeAll root p).1.mapError f, (DiskOp.makeAll root p).2) :=
  attempt_orElse (makeDirs p) f root

def textAt (root : Tree) (p : Path) : Except DiskError String :=
  match DiskOp.readFile root p with
  | .error e => .error e
  | .ok bytes =>
    match String.fromUTF8? bytes with
    | some s => .ok s
    | none => .error .notText

theorem run_readText (p : Path) (root : Tree) : (readText p).run root = (textAt root p, root) := by
  rw [readText, run_bind, read, run_step, textAt]
  dsimp only [DiskOp.run]
  cases DiskOp.readFile root p with
  | error e => rfl
  | ok bytes =>
    dsimp only
    cases String.fromUTF8? bytes <;> rfl

end Multicloud.Script

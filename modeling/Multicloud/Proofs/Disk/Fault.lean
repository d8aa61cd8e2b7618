import Multicloud.Proofs.Disk.Script

namespace Multicloud

namespace DiskOp

/-- That there is nothing to remove is told only where it is so. -/
def IsFailure : (op : DiskOp) → op.Answer → Prop
  | .read _, answer => ∃ e, answer = .error e
  | .list _, answer => ∃ e, answer = .error e
  | .find _, answer => answer = none
  | .write _ _, answer => ∃ e, answer = .error e
  | .append _ _, answer => ∃ e, answer = .error e
  | .makeDirs _, answer => ∃ e, answer = .error e
  | .removeTree _, answer => ∃ e, e ≠ .notFound ∧ answer = .error e
  | .removeFile _, answer => ∃ e, e ≠ .notFound ∧ answer = .error e
  | .rename _ _, answer => ∃ e, answer = .error e

/-- What an operation that fails can have done by then: a file can be there with any bytes, some of
the directories with anything left in the one to be removed. A rename is done as a whole. -/
def Leaves (root : Tree) : DiskOp → Tree → Prop
  | .write p _, left => left = root ∨ ∃ bytes, change root p (fun _ ↦ bytes) = .ok left
  | .append p _, left => left = root ∨ ∃ bytes, change root p (fun _ ↦ bytes) = .ok left
  | .makeDirs p, left => ∃ n, left = (addDirs root [] (p.steps.take n)).2
  | .removeTree p, left => left = root ∨ ∃ names entries entries',
      root.at? p = .ok (names, .dir entries) ∧ left = root.set names (.dir entries')
  | _, left => left = root

/-- What can come of an operation where every operation can fail. -/
def Yields (op : DiskOp) (root : Tree) (answer : op.Answer) (root' : Tree) : Prop :=
  op.run root = (answer, root') ∨ op.IsFailure answer ∧ op.Leaves root root'

end DiskOp

namespace Script

variable {α β ε : Type} {inv : Tree → Prop} {root root' : Tree}

/-- Between two steps, what is left to do and the disk as it is then. Any step can have failed. -/
inductive Reaches : Script α → Tree → Script α → Tree → Prop
  | here (s : Script α) (root : Tree) : Reaches s root s root
  | step {op : DiskOp} {next : op.Answer → Script α} {s : Script α} {root root' root'' : Tree}
      {answer : op.Answer} (hy : op.Yields root answer root')
      (h : Reaches (next answer) root' s root'') : Reaches (.perform op next) root s root''

def runFor : Nat → Script α → Tree → Script α × Tree
  | 0, s, root => (s, root)
  | _ + 1, .done a, root => (.done a, root)
  | n + 1, .perform op next, root => runFor n (next (op.run root).1) (op.run root).2

theorem reaches_runFor (n : Nat) (s : Script α) (root : Tree) :
    Reaches s root (runFor n s root).1 (runFor n s root).2 := by
  induction n generalizing s root with
  | zero => exact .here s root
  | succ n ih =>
    cases s with
    | done a => exact .here (.done a) root
    | perform op next => exact .step (.inl rfl) (ih _ _)

theorem reaches_run (s : Script α) (root : Tree) :
    Reaches s root (.done (s.run root).1) (s.run root).2 := by
  induction s generalizing root with
  | done a => exact .here _ root
  | perform op next ih => exact .step (.inl rfl) (ih _ _)

/-- Whatever fails, the disk is as it has to be all the way, and so are the result and the disk at
the end. -/
def Safe (inv : Tree → Prop) (post : α → Tree → Prop) : Script α → Tree → Prop
  | .done a, root => inv root ∧ post a root
  | .perform op next, root => inv root ∧
      ∀ answer root', op.Yields root answer root' → Safe inv post (next answer) root'

theorem Safe.inv_here {post : α → Tree → Prop} {s : Script α} (h : Safe inv post s root) :
    inv root := by
  cases s with
  | done a => exact h.1
  | perform op next => exact h.1

theorem Safe.of_reaches {post : α → Tree → Prop} {s s' : Script α} (h : Safe inv post s root)
    (hr : Reaches s root s' root') : Safe inv post s' root' := by
  induction hr with
  | here s root => exact h
  | step hy _ ih => exact ih (h.2 _ _ hy)

theorem Safe.bind {mid : α → Tree → Prop} {post : β → Tree → Prop} {s : Script α}
    {f : α → Script β} (h : Safe inv mid s root)
    (hf : ∀ a root, inv root → mid a root → Safe inv post (f a) root) :
    Safe inv post (s >>= f) root := by
  induction s generalizing root with
  | done a => exact hf a root h.1 h.2
  | perform op next ih => exact ⟨h.1, fun answer root' hy ↦ ih answer (h.2 answer root' hy)⟩

theorem Safe.imp {post post' : α → Tree → Prop} {s : Script α} (h : Safe inv post s root)
    (himp : ∀ a root, post a root → post' a root) : Safe inv post' s root := by
  induction s generalizing root with
  | done a => exact ⟨h.1, himp a root h.2⟩
  | perform op next ih => exact ⟨h.1, fun answer root' hy ↦ ih answer (h.2 answer root' hy)⟩

theorem safe_step {op : DiskOp} {post : op.Answer → Tree → Prop} (hi : inv root)
    (h : ∀ answer root', op.Yields root answer root' → inv root' ∧ post answer root') :
    Safe inv post (step op) root :=
  ⟨hi, h⟩

def SafeOr (inv : Tree → Prop) (post : α → Tree → Prop) (fail : ε → Tree → Prop)
    (s : OrFail ε α) (root : Tree) : Prop :=
  Safe inv (fun result root ↦
    match result with
    | .ok a => post a root
    | .error e => fail e root) s.run root

variable {fail : ε → Tree → Prop}

theorem SafeOr.safe {ends : Except ε α → Tree → Prop} {s : OrFail ε α}
    (h : SafeOr inv (fun a ↦ ends (.ok a)) (fun e ↦ ends (.error e)) s root) :
    Safe inv ends s.run root := by
  refine Safe.imp h fun result root hresult ↦ ?_
  cases result with
  | ok a => exact hresult
  | error e => exact hresult

theorem safeOr_pure {post : α → Tree → Prop} {a : α} (hi : inv root) (h : post a root) :
    SafeOr inv post fail (pure a : OrFail ε α) root :=
  ⟨hi, h⟩

theorem safeOr_throw {post : α → Tree → Prop} {e : ε} (hi : inv root) (h : fail e root) :
    SafeOr inv post fail (throw e : OrFail ε α) root :=
  ⟨hi, h⟩

theorem SafeOr.bind {mid : α → Tree → Prop} {post : β → Tree → Prop} {s : OrFail ε α}
    {f : α → OrFail ε β} (h : SafeOr inv mid fail s root)
    (hf : ∀ a root, inv root → mid a root → SafeOr inv post fail (f a) root) :
    SafeOr inv post fail (s >>= f) root := by
  refine Safe.bind h fun result root hi hresult ↦ ?_
  cases result with
  | ok a => exact hf a root hi hresult
  | error e => exact ⟨hi, hresult⟩

theorem safeOr_lift {s : Script α} {post : α → Tree → Prop} (h : Safe inv post s root) :
    SafeOr inv post fail (liftM s : OrFail ε α) root :=
  Safe.bind h fun _ _ hi ha ↦ ⟨hi, ha⟩

theorem safeOr_orElse {s : Script (Except DiskError α)} {f : DiskError → ε}
    {post : α → Tree → Prop}
    (h : Safe inv (fun answer root ↦
      match answer with
      | .ok a => post a root
      | .error e => fail (f e) root) s root) : SafeOr inv post fail (orElse s f) root := by
  refine Safe.bind h fun answer root hi hanswer ↦ ?_
  cases answer with
  | ok a => exact ⟨hi, hanswer⟩
  | error e => exact ⟨hi, hanswer⟩

end Script

end Multicloud

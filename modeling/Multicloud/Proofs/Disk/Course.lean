import Multicloud.Proofs.Disk.Fault

namespace Multicloud

namespace DiskOp

/-- What is added to a file is there as a whole or not at all. -/
def Whole (root root' : Tree) : DiskOp → Prop
  | .append p bytes => root' = root ∨ root' = ((append p bytes).run root).2
  | _ => True

theorem whole_run (op : DiskOp) (root : Tree) : op.Whole root (op.run root).2 := by
  cases op with
  | append p bytes => exact .inr rfl
  | _ => trivial

end DiskOp

namespace Script

variable {α β ε : Type} {root root' root'' : Tree}

/-- A course of a script to its end. Any of its operations can fail on the way, but none adds a part
of something to a file. -/
inductive Leads : Script α → Tree → α → Tree → Prop
  | done (a : α) (root : Tree) : Leads (.done a) root a root
  | step {op : DiskOp} {next : op.Answer → Script α} {a : α} {root root' root'' : Tree}
      {answer : op.Answer} (hy : op.Yields root answer root') (hw : op.Whole root root')
      (h : Leads (next answer) root' a root'') : Leads (.perform op next) root a root''

/-- One of the courses is that on which nothing fails by itself. -/
theorem leads_run (s : Script α) (root : Tree) : Leads s root (s.run root).1 (s.run root).2 := by
  induction s generalizing root with
  | done a => exact .done a root
  | perform op next ih => exact .step (.inl rfl) (op.whole_run root) (ih _ _)

theorem leads_of_run {s : Script α} {a : α} (h : s.run root = (a, root')) :
    Leads s root a root' := by
  have hl := leads_run s root
  rwa [h] at hl

theorem Leads.reaches {s : Script α} {a : α} (h : Leads s root a root') :
    Reaches s root (.done a) root' := by
  induction h with
  | done a root => exact .here _ root
  | step hy _ _ ih => exact .step hy ih

theorem leads_pure {a b : α} : Leads (pure a) root b root' ↔ b = a ∧ root' = root := by
  constructor
  · intro h
    cases h
    exact ⟨rfl, rfl⟩
  · rintro ⟨rfl, rfl⟩
    exact .done _ _

theorem leads_bind {s : Script α} {f : α → Script β} {b : β} :
    Leads (s >>= f) root b root'' ↔
      ∃ a root', Leads s root a root' ∧ Leads (f a) root' b root'' := by
  constructor
  · intro h
    induction s generalizing root with
    | done a => exact ⟨a, root, .done a root, h⟩
    | perform op next ih =>
      cases h with
      | step hy hw h =>
        obtain ⟨a, root', hs, hf⟩ := ih _ h
        exact ⟨a, root', .step hy hw hs, hf⟩
  · rintro ⟨a, root', hs, hf⟩
    induction hs with
    | done a root => exact hf
    | step hy hw _ ih => exact .step hy hw (ih hf)

theorem leads_bindOr {s : OrFail ε α} {f : α → OrFail ε β} {result : Except ε β} :
    Leads (s >>= f).run root result root'' ↔
      (∃ a root', Leads s.run root (.ok a) root' ∧ Leads (f a).run root' result root'') ∨
        ∃ e, Leads s.run root (.error e) root'' ∧ result = .error e := by
  refine (leads_bind (s := s.run) (f := ExceptT.bindCont f)).trans ⟨?_, ?_⟩
  · rintro ⟨a | a, root', hs, hf⟩
    · obtain ⟨rfl, rfl⟩ := leads_pure.1 hf
      exact .inr ⟨a, hs, rfl⟩
    · exact .inl ⟨a, root', hs, hf⟩
  · rintro (⟨a, root', hs, hf⟩ | ⟨e, hs, rfl⟩)
    · exact ⟨.ok a, root', hs, hf⟩
    · exact ⟨.error e, root'', hs, .done _ _⟩

theorem leads_bindOr_ok {s : OrFail ε α} {f : α → OrFail ε β} {b : β} :
    Leads (s >>= f).run root (.ok b) root'' ↔
      ∃ a root', Leads s.run root (.ok a) root' ∧ Leads (f a).run root' (.ok b) root'' := by
  rw [leads_bindOr]
  simp only [reduceCtorEq, and_false, exists_false, or_false]

theorem leads_pureOr {a : α} {result : Except ε α} :
    Leads (pure a : OrFail ε α).run root result root' ↔ result = .ok a ∧ root' = root := leads_pure

theorem leads_mapError {s : Script (Except β α)} {f : β → ε} {result : Except ε α} :
    Leads (ExceptT.mk (do return (← s).mapError f) : OrFail ε α).run root result root' ↔
      ∃ answer, Leads s root answer root' ∧ result = answer.mapError f := by
  refine (leads_bind (s := s)
    (f := fun answer ↦ (pure (answer.mapError f) : Script (Except ε α)))).trans ⟨?_, ?_⟩
  · rintro ⟨answer, root₁, hs, hf⟩
    obtain ⟨rfl, rfl⟩ := leads_pure.1 hf
    exact ⟨answer, hs, rfl⟩
  · rintro ⟨answer, hs, rfl⟩
    exact ⟨answer, root', hs, .done _ _⟩

theorem ok_eq_mapError {f : β → ε} {result : Except β α} {a : α} :
    .ok a = result.mapError f ↔ result = .ok a := by
  cases result with
  | error e => exact ⟨nofun, nofun⟩
  | ok b =>
    constructor
    · intro h
      rw [Except.ok.inj h]
    · intro h
      rw [Except.ok.inj h]
      rfl

theorem leads_mapError_ok {s : Script (Except β α)} {f : β → ε} {a : α} :
    Leads (ExceptT.mk (do return (← s).mapError f) : OrFail ε α).run root (.ok a) root' ↔
      Leads s root (.ok a) root' := by
  refine leads_mapError.trans ⟨?_, fun hs ↦ ⟨_, hs, rfl⟩⟩
  rintro ⟨answer, hs, hanswer⟩
  rwa [ok_eq_mapError.1 hanswer] at hs

theorem leads_orElse_ok {s : Script (Except DiskError α)} {f : DiskError → ε} {a : α} :
    Leads (orElse s f).run root (.ok a) root' ↔ Leads s root (.ok a) root' := leads_mapError_ok

theorem run_of_isOk {s : OrFail ε α} (h : (s.run.run root).1.isOk = true) :
    ∃ a, s.run.run root = (.ok a, (s.run.run root).2) := by
  cases hr : (s.run.run root).1 with
  | ok a => exact ⟨a, Prod.ext hr rfl⟩
  | error e =>
    rw [hr] at h
    cases h

theorem yields_of_leads {op : DiskOp} {answer : op.Answer} (h : Leads (step op) root answer root') :
    op.Yields root answer root' := by
  cases h with
  | step hy hw h =>
    cases h
    exact hy

theorem whole_of_leads {op : DiskOp} {answer : op.Answer} (h : Leads (step op) root answer root') :
    op.Whole root root' := by
  cases h with
  | step hy hw h =>
    cases h
    exact hw

theorem leads_read {p : Path} {answer : Except DiskError ByteArray}
    (h : Leads (read p) root answer root') :
    root' = root ∧ (answer = DiskOp.readFile root p ∨ ∃ e, answer = .error e) := by
  rcases @yields_of_leads _ _ (.read p) _ h with hrun | ⟨⟨e, he⟩, hsame⟩
  · exact ⟨(congrArg Prod.snd hrun).symm, .inl (congrArg Prod.fst hrun).symm⟩
  · exact ⟨hsame, .inr ⟨e, he⟩⟩

theorem change_of_leads_write {p : Path} {s : String} (h : Leads (write p s) root (.ok ()) root') :
    DiskOp.change root p (fun _ ↦ s.toUTF8) = .ok root' := by
  rcases @yields_of_leads _ _ (.write p s.toUTF8) _ h with hrun | ⟨⟨e, he⟩, -⟩
  · change DiskOp.commit root (DiskOp.change root p fun _ ↦ s.toUTF8) = (.ok (), root') at hrun
    cases hc : DiskOp.change root p fun _ ↦ s.toUTF8 with
    | error e =>
      rw [hc] at hrun
      cases hrun
    | ok new =>
      rw [hc] at hrun
      cases hrun
      rfl
  · cases he

theorem move_of_leads_rename {source target : Path}
    (h : Leads (rename source target) root (.ok ()) root') :
    DiskOp.move root source target = .ok root' := by
  rcases @yields_of_leads _ _ (.rename source target) _ h with hrun | ⟨⟨e, he⟩, -⟩
  · change DiskOp.commit root (DiskOp.move root source target) = (.ok (), root') at hrun
    cases hm : DiskOp.move root source target with
    | error e =>
      rw [hm] at hrun
      cases hrun
    | ok new =>
      rw [hm] at hrun
      cases hrun
      rfl
  · cases he

theorem leads_lift {s : Script α} {result : Except ε α} :
    Leads (liftM s : OrFail ε α).run root result root' ↔
      ∃ a, Leads s root a root' ∧ result = .ok a := by
  refine (leads_bind (s := s) (f := fun a ↦ (pure (.ok a) : Script (Except ε α)))).trans ⟨?_, ?_⟩
  · rintro ⟨a, root₁, hs, hf⟩
    obtain ⟨rfl, rfl⟩ := leads_pure.1 hf
    exact ⟨a, hs, rfl⟩
  · rintro ⟨a, hs, rfl⟩
    exact ⟨a, root', hs, .done _ _⟩

theorem root_eq_of_isPresent {p : Path} {present : Bool}
    (hl : Leads (liftM (isPresent p) : OrFail ε Bool).run root (.ok present) root') :
    root' = root := by
  obtain ⟨_, hl, -⟩ := leads_lift.1 hl
  obtain ⟨_, root₁, hfind, hdone⟩ := leads_bind.1 hl
  obtain ⟨-, rfl⟩ := leads_pure.1 hdone
  rcases @yields_of_leads _ _ (.find p) _ hfind with hrun | ⟨-, hsame⟩
  · exact (congrArg Prod.snd hrun).symm
  · exact hsame

end Script

end Multicloud

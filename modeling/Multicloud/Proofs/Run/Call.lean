import Multicloud.Proofs.Run.Files
import Multicloud.Proofs.Run.Plan

namespace Multicloud.Pipeline

inductive Manner where
  | inTurn (cancelAfter : Option Nat)
  | sideBySide (events : List Event)

structure Call where
  graph : ResourceGraph
  targets : List Provider
  previous : Option LockEntry
  manner : Manner

def call (p : Pipeline) (c : RunCache) (x : Call) :
    Script (Except SynthesisError Outcome × RunCache) :=
  match x.manner with
  | .inTurn cancelAfter => p.synthesize c x.graph x.targets x.previous cancelAfter
  | .sideBySide events => p.synthesizeConcurrently c x.graph x.targets x.previous events

def Manner.work (walk : Provider × Version → TargetRun) : Manner → Bound → TargetRuns
  | .inTurn cancelAfter => Pipeline.inTurn walk cancelAfter
  | .sideBySide events => Pipeline.sideBySide walk events

theorem Manner.worked (m : Manner) (walk : Provider × Version → TargetRun) (b : Binding) :
    Worked walk b.toList (m.work walk b.toList) := by
  cases m with
  | inTurn cancelAfter => exact worked_inTurn walk cancelAfter b.toList
  | sideBySide events => exact worked_sideBySide events (nodup_toList b)

theorem call_eq_run (p : Pipeline) (c : RunCache) (x : Call) :
    p.call c x = p.run c x.graph x.targets x.previous (x.manner.work (p.walk x.graph)) := by
  unfold call
  cases x.manner <;> rfl

variable {p : Pipeline} {c : RunCache} {x : Call} {root : Tree} {plan : Plan}

inductive Came (p : Pipeline) (x : Call) (c : RunCache) (root : Tree) :
    Except SynthesisError Outcome → RunCache → Tree → Prop
  | refused (h : x.targets = []) : Came p x c root (.error .noTargets) c root
  | reused {plan : Plan} {e : LockEntry} {run : StoredRun} {c' : RunCache}
      (hplan : Planned p x.graph x.targets plan) (hu : plan.unbound = ∅)
      (he : x.previous = some e) (hc : e.covers plan.graphHash plan.binding = true)
      (hget : (c.get (plan.binding.key p.digest plan.graphHash)).run root =
        ((some run, c'), root)) :
      Came p x c root (.ok (reused plan run)) c' root
  | kept {plan : Plan} {runs : TargetRuns} {c' : RunCache} {root' : Tree}
      (hplan : Planned p x.graph x.targets plan)
      (hw : Worked (p.walk x.graph) plan.binding.toList runs)
      (hc : (assemble x.graph plan runs).isComplete = true)
      (hput : (c.put (plan.binding.key p.digest plan.graphHash)
        (assemble x.graph plan runs).stored).run root = (c', root')) :
      Came p x c root (.ok (assemble x.graph plan runs)) c' root'
  | dropped {plan : Plan} {runs : TargetRuns} (hplan : Planned p x.graph x.targets plan)
      (hc : (assemble x.graph plan runs).isComplete = false)
      (hw : Worked (p.walk x.graph) plan.binding.toList runs) :
      Came p x c root (.ok (assemble x.graph plan runs)) c root

theorem plan_eq_error {g : ResourceGraph} {targets : List Provider} {e : SynthesisError}
    (h : p.plan g targets = .error e) : e = .noTargets ∧ targets = [] := by
  unfold Pipeline.plan at h
  dsimp only at h
  split at h
  · next hempty =>
    refine ⟨(Except.error.inj h).symm, List.eq_nil_iff_forall_not_mem.2 fun t ht ↦ ?_⟩
    have hmem : t ∈ (Std.ExtTreeSet.ofList targets compare).toList := by
      rw [Std.ExtTreeSet.mem_toList, Std.ExtTreeSet.mem_ofList, List.contains_iff_mem]
      exact ht
    rw [List.isEmpty_iff.1 hempty] at hmem
    cases hmem
  · cases h

theorem run_reuse_of_covers {e : LockEntry} (hu : plan.unbound = ∅)
    (hc : e.covers plan.graphHash plan.binding = true) (c : RunCache) (root : Tree) :
    (p.reuse c plan (some e)).run root =
      let r := (c.get (plan.binding.key p.digest plan.graphHash)).run root
      ((r.1.1.map (reused plan), r.1.2), r.2) := by
  rw [reuse, hu, hc, if_neg (by simp), Script.run_bind]
  rfl

theorem run_reuse_cases (p : Pipeline) (c : RunCache) (plan : Plan) (previous : Option LockEntry)
    (root : Tree) :
    (p.reuse c plan previous).run root = ((none, c), root) ∨
      ∃ e run c', previous = some e ∧ plan.unbound = ∅ ∧
        e.covers plan.graphHash plan.binding = true ∧
        (c.get (plan.binding.key p.digest plan.graphHash)).run root = ((some run, c'), root) ∧
        (p.reuse c plan previous).run root = ((some (reused plan run), c'), root) := by
  cases previous with
  | none => exact .inl rfl
  | some e =>
    by_cases h : plan.unbound = ∅ ∧ e.covers plan.graphHash plan.binding = true
    · obtain ⟨hu, hc⟩ := h
      have hreuse := run_reuse_of_covers (p := p) hu hc c root
      rcases c.run_get_cases (plan.binding.key p.digest plan.graphHash) root with
        hget | ⟨run, c', hget⟩
      · left
        rw [hreuse, hget]
        rfl
      · refine .inr ⟨e, run, c', rfl, hu, hc, hget, ?_⟩
        rw [hreuse, hget]
        rfl
    · have hcond : (!plan.unbound.isEmpty || !e.covers plan.graphHash plan.binding) = true := by
        rw [Bool.or_eq_true, Bool.not_eq_true', Bool.not_eq_true', Bool.eq_false_iff,
          Bool.eq_false_iff, Ne, Std.ExtTreeMap.isEmpty_iff]
        exact not_and_or.1 h
      left
      rw [reuse, if_pos hcond]
      rfl

theorem exists_planned {g : ResourceGraph} {targets : List Provider} (hne : targets ≠ []) :
    ∃ plan, Planned p g targets plan := by
  cases h : p.plan g targets with
  | error e => exact absurd (plan_eq_error h).2 hne
  | ok plan => exact ⟨plan, plan_eq_ok h⟩

/-- A run is either the same for all ways to work, or it is what its work comes to. -/
theorem Planned.run_cases {g : ResourceGraph} {targets : List Provider}
    (h : Planned p g targets plan) (c : RunCache) (previous : Option LockEntry) (root : Tree) :
    (∃ run c', previous ≠ none ∧ ∀ work,
      (p.run c g targets previous work).run root = ((.ok (reused plan run), c'), root)) ∨
    ∀ work, (p.run c g targets previous work).run root =
      let o := assemble g plan (work plan.binding.toList)
      let r := (p.keep c o).run root
      ((.ok o, r.1), r.2) := by
  rcases p.run_reuse_cases c plan previous root with
    hr | ⟨e, run, c', he, -, -, -, hr⟩
  · refine .inr fun work ↦ ?_
    rw [Pipeline.run, h.plan_eq]
    dsimp only
    rw [Script.run_bind, hr]
    dsimp only
    rw [Script.run_bind]
    rfl
  · refine .inl ⟨run, c', by simp [he], fun work ↦ ?_⟩
    rw [Pipeline.run, h.plan_eq]
    dsimp only
    rw [Script.run_bind, hr]
    rfl

theorem came_run (c : RunCache) (x : Call) (root : Tree) {work : Bound → TargetRuns}
    (hw : ∀ b : Binding, Worked (p.walk x.graph) b.toList (work b.toList)) :
    ∃ answer c' root', (p.run c x.graph x.targets x.previous work).run root =
      ((answer, c'), root') ∧ Came p x c root answer c' root' := by
  unfold Pipeline.run
  cases hplan : p.plan x.graph x.targets with
  | error e =>
    obtain ⟨rfl, ht⟩ := plan_eq_error hplan
    exact ⟨.error .noTargets, c, root, rfl, .refused ht⟩
  | ok plan =>
    have hplan := plan_eq_ok hplan
    dsimp only
    rcases p.run_reuse_cases c plan x.previous root with
      hr | ⟨e, run, c', he, hu, hc, hget, hr⟩
    · rw [Script.run_bind, hr]
      dsimp only
      rw [Script.run_bind, keep]
      cases hc : (assemble x.graph plan (work plan.binding.toList)).isComplete with
      | false => exact ⟨_, _, _, rfl, .dropped hplan hc (hw plan.binding)⟩
      | true =>
        rw [if_pos rfl]
        exact ⟨_, _, _, rfl, .kept hplan (hw plan.binding) hc rfl⟩
    · rw [Script.run_bind, hr]
      exact ⟨_, _, _, rfl, .reused hplan hu he hc hget⟩

theorem came_call (p : Pipeline) (c : RunCache) (x : Call) (root : Tree) :
    ∃ answer c' root', (p.call c x).run root = ((answer, c'), root') ∧
      Came p x c root answer c' root' := by
  rw [call_eq_run]
  exact came_run c x root (x.manner.worked (p.walk x.graph))

theorem came_of_run {answer : Except SynthesisError Outcome} {c' : RunCache} {root' : Tree}
    (hx : (p.call c x).run root = ((answer, c'), root')) : Came p x c root answer c' root' := by
  obtain ⟨answer', c₁, root₁, hx', hcame⟩ := came_call p c x root
  rw [hx] at hx'
  cases hx'
  exact hcame

end Multicloud.Pipeline

import Mathlib.Data.List.Nodup
import Mathlib.Logic.Function.Basic
import Multicloud.Disk.Script

namespace Multicloud.Script

variable {ι α : Type}

def result? : Script α → Option α
  | done a => some a
  | perform _ _ => none

/-- A script with no more than so many operations, whatever they answer. -/
def Within : Nat → Script α → Prop
  | _, done _ => True
  | 0, perform _ _ => False
  | n + 1, perform _ next => ∀ answer, Within n (next answer)

/-- Scripts that work on one disk by turns, and the results of those that have come to their end, in
the order in which they did. -/
structure Shared (ι α : Type) where
  rest : ι → Script α
  results : List (ι × α)
  root : Tree

namespace Shared

def start (work : ι → Script α) (root : Tree) : Shared ι α := ⟨work, [], root⟩

/-- The results are those of the scripts that have none of their work left, one for each. -/
structure Told (s : Shared ι α) : Prop where
  done_iff : ∀ i a, s.rest i = .done a ↔ (i, a) ∈ s.results
  nodup : (s.results.map Prod.fst).Nodup

theorem told_start {work : ι → Script α} (h : ∀ i a, work i ≠ .done a) (root : Tree) :
    Told (start work root) where
  done_iff i a := by simp [start, h i a]
  nodup := .nil

section Turns

variable [DecidableEq ι] {s : Shared ι α}

def advance (s : Shared ι α) (i : ι) : Shared ι α :=
  match s.rest i with
  | .done _ => s
  | .perform op next =>
    let (answer, root) := op.run s.root
    { rest := Function.update s.rest i (next answer)
      results := s.results ++ ((next answer).result?.map (i, ·)).toList
      root := root }

def run (s : Shared ι α) (turns : List ι) : Shared ι α := turns.foldl advance s

theorem advance_of_done {i : ι} {a : α} (h : s.rest i = .done a) : s.advance i = s := by
  rw [advance, h]

theorem advance_of_perform {i : ι} {op : DiskOp} {next : op.Answer → Script α} {answer : op.Answer}
    {root : Tree} (h : s.rest i = .perform op next) (hrun : op.run s.root = (answer, root)) :
    s.advance i =
      { rest := Function.update s.rest i (next answer)
        results := s.results ++ ((next answer).result?.map (i, ·)).toList
        root := root } := by
  rw [advance, h]
  dsimp only
  rw [hrun]

theorem run_append (s : Shared ι α) (turns more : List ι) :
    s.run (turns ++ more) = (s.run turns).run more := List.foldl_append

theorem within_advance {n : Nat} {i : ι} (h : Within n (s.rest i)) (j : ι) :
    Within (n - if j = i then 1 else 0) ((s.advance j).rest i) := by
  unfold advance
  by_cases hj : j = i
  · subst hj
    rw [if_pos rfl]
    split
    · next hrest => simp [hrest, Within]
    · next op next hrest =>
      rw [hrest] at h
      dsimp only
      rw [Function.update_self]
      cases n with
      | zero => exact h.elim
      | succ n => exact h _
  · rw [if_neg hj, Nat.sub_zero]
    split
    · exact h
    · dsimp only
      rwa [Function.update_of_ne (Ne.symm hj)]

/-- A script comes to its end once it has had a turn for each of its operations. -/
theorem within_run {n : Nat} {i : ι} (h : Within n (s.rest i)) (turns : List ι) :
    Within (n - turns.count i) ((s.run turns).rest i) := by
  induction turns generalizing s n with
  | nil => exact h
  | cons j turns ih =>
    have hcount : (j :: turns).count i = (if j = i then 1 else 0) + turns.count i := by
      rw [List.count_cons, Nat.add_comm]
      simp only [beq_iff_eq]
    rw [hcount, ← Nat.sub_sub]
    exact ih (within_advance h j)

theorem exists_done_of_count {n : Nat} {i : ι} (h : Within n (s.rest i)) {turns : List ι}
    (hn : n ≤ turns.count i) : ∃ a, (s.run turns).rest i = .done a := by
  have hrest := within_run h turns
  rw [Nat.sub_eq_zero_of_le hn] at hrest
  cases hi : (s.run turns).rest i with
  | done a => exact ⟨a, rfl⟩
  | perform op next =>
    rw [hi] at hrest
    exact hrest.elim

theorem run_induction {P : Shared ι α → Prop} (h : P s) (hstep : ∀ s i, P s → P (s.advance i))
    (turns : List ι) : P (s.run turns) := by
  induction turns generalizing s with
  | nil => exact h
  | cons i turns ih => exact ih (hstep s i h)

theorem exists_results_advance (s : Shared ι α) (i : ι) :
    ∃ new, (s.advance i).results = s.results ++ new ∧ ∀ r ∈ new, r.1 = i := by
  unfold advance
  split
  · exact ⟨[], by simp, by simp⟩
  · next op next _ =>
    refine ⟨((next (op.run s.root).1).result?.map (i, ·)).toList, rfl, fun r hr ↦ ?_⟩
    obtain ⟨a, -, rfl⟩ := Option.map_eq_some_iff.1 (Option.mem_toList.1 hr)
    rfl

theorem exists_results_run (s : Shared ι α) (turns : List ι) :
    ∃ new, (s.run turns).results = s.results ++ new ∧ ∀ r ∈ new, r.1 ∈ turns := by
  induction turns generalizing s with
  | nil => exact ⟨[], by simp [run], by simp⟩
  | cons i turns ih =>
    obtain ⟨first, hfirst, hi⟩ := exists_results_advance s i
    obtain ⟨new, hnew, hturns⟩ := ih (s.advance i)
    refine ⟨first ++ new, ?_, fun r hr ↦ ?_⟩
    · change ((s.advance i).run turns).results = _
      rw [hnew, hfirst, List.append_assoc]
    · rcases List.mem_append.1 hr with hr | hr
      · rw [hi r hr]
        exact .head _
      · exact .tail _ (hturns r hr)

theorem Told.advance (h : Told s) (i : ι) : Told (s.advance i) := by
  unfold Shared.advance
  split
  · exact h
  · next op next hrest =>
    have hnew (a : α) : (i, a) ∉ s.results := by
      intro hmem
      rw [(h.done_iff i a).2 hmem] at hrest
      cases hrest
    constructor
    · intro j a
      dsimp only
      by_cases hj : j = i
      · subst hj
        rw [Function.update_self]
        cases next (op.run s.root).1 <;> simp [result?, hnew, eq_comm]
      · rw [Function.update_of_ne hj, h.done_iff]
        cases next (op.run s.root).1 <;> simp [result?, hj]
    · dsimp only
      cases next (op.run s.root).1 with
      | perform op next => simpa [result?] using h.nodup
      | done a =>
        change ((s.results ++ [(i, a)]).map Prod.fst).Nodup
        rw [List.map_append, List.map_singleton, ← List.concat_eq_append]
        refine h.nodup.concat fun hi ↦ ?_
        obtain ⟨⟨j, b⟩, hmem, rfl⟩ := List.mem_map.1 hi
        exact hnew b hmem

theorem told_run {work : ι → Script α} (h : ∀ i a, work i ≠ .done a) (root : Tree)
    (turns : List ι) : Told ((start work root).run turns) :=
  run_induction (told_start h root) (fun _ i hs ↦ hs.advance i) turns

end Turns

end Shared

end Multicloud.Script

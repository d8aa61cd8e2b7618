import Mathlib.Data.List.Induction
import Multicloud.Lock.Log

namespace Multicloud

instance : Std.TransOrd Instant :=
  inferInstanceAs (Std.TransCmp (compareLex (compareOn Instant.seconds) (compareOn Instant.nanos)))

namespace LockLog

variable {es : List LockEntry} {e last : LockEntry}

structure LatestOf (before : List LockEntry) (e : LockEntry) (after : List LockEntry) : Prop where
  before_le : ∀ x ∈ before, (compare x.time e.time).isLE = true
  after_lt : ∀ x ∈ after, compare x.time e.time = .lt

/-- The entry with the greatest time, of several the last one. -/
def IsLatest (es : List LockEntry) : Option LockEntry → Prop
  | none => es = []
  | some e => ∃ before after, es = before ++ e :: after ∧ LatestOf before e after

theorem IsLatest.concat_of_gt (h : IsLatest es (some last))
    (hgt : (compare last.time e.time).isGT = true) : IsLatest (es ++ [e]) (some last) := by
  obtain ⟨before, after, rfl, hle, hlt⟩ := h
  refine ⟨before, after ++ [e], by simp, hle, fun x hx ↦ ?_⟩
  rcases List.mem_append.1 hx with hx | hx
  · exact hlt x hx
  · rw [List.mem_singleton.1 hx]
    exact Std.OrientedCmp.lt_of_gt (by simpa using hgt)

theorem IsLatest.concat_of_le (h : IsLatest es (some last))
    (hle : (compare last.time e.time).isLE = true) : IsLatest (es ++ [e]) (some e) := by
  obtain ⟨before, after, rfl, hbefore, hafter⟩ := h
  refine ⟨before ++ last :: after, [], rfl, fun x hx ↦ ?_, by simp⟩
  rcases List.mem_append.1 hx with hx | hx
  · exact Std.TransCmp.isLE_trans (hbefore x hx) hle
  · rcases List.mem_cons.1 hx with rfl | hx
    · exact hle
    · have hx : (compare x.time last.time).isLE = true := by rw [hafter x hx]; rfl
      exact Std.TransCmp.isLE_trans hx hle

theorem latest_append (es : List LockEntry) (e : LockEntry) :
    latest (es ++ [e]) = some ((latest es).elim e (later · e)) := by
  cases es with
  | nil => rfl
  | cons e₀ es =>
    rw [List.cons_append, latest, List.foldl_append]
    rfl

theorem isLatest_latest (es : List LockEntry) : IsLatest es (latest es) := by
  induction es using List.reverseRecOn with
  | nil => rfl
  | append_singleton es e ih =>
    rw [latest_append]
    cases hl : latest es with
    | none =>
      rw [hl] at ih
      obtain rfl : es = [] := ih
      exact ⟨[], [], rfl, by simp, by simp⟩
    | some last =>
      rw [hl] at ih
      rw [Option.elim_some, later]
      split
      · next hgt => exact ih.concat_of_gt hgt
      · next hgt => exact ih.concat_of_le (by simpa [Ordering.isLE_iff_ne_gt] using hgt)

theorem LatestOf.not_append {before between after : List LockEntry} {e e' : LockEntry}
    (h : LatestOf before e (between ++ e' :: after)) :
    ¬ LatestOf (before ++ e :: between) e' after := by
  intro h'
  have hlt := h.after_lt e' (by simp)
  have hle := h'.before_le e (by simp)
  rw [Std.OrientedCmp.gt_of_lt hlt] at hle
  cases hle

theorem IsLatest.eq {a b : LockEntry} (ha : IsLatest es (some a)) (hb : IsLatest es (some b)) :
    a = b := by
  obtain ⟨before, after, rfl, ha⟩ := ha
  obtain ⟨before', after', heq, hb⟩ := hb
  rcases List.append_eq_append_iff.1 heq with ⟨w, hbefore, hafter⟩ | ⟨w, hbefore, hafter⟩
  · cases w with
    | nil => exact (List.cons.inj hafter).1
    | cons x w =>
      obtain ⟨rfl, rfl⟩ := List.cons.inj hafter
      rw [hbefore] at hb
      exact absurd hb ha.not_append
  · cases w with
    | nil => exact (List.cons.inj hafter).1.symm
    | cons x w =>
      obtain ⟨rfl, rfl⟩ := List.cons.inj hafter
      rw [hbefore] at ha
      exact absurd ha hb.not_append

theorem isLatest_iff {last : Option LockEntry} : IsLatest es last ↔ last = latest es := by
  constructor
  · intro h
    have hlatest := isLatest_latest es
    cases last with
    | none =>
      obtain rfl : es = [] := h
      rfl
    | some e =>
      cases hl : latest es with
      | none =>
        rw [hl] at hlatest
        obtain rfl : es = [] := hlatest
        obtain ⟨before, after, hnil, -⟩ := h
        simp at hnil
      | some e' =>
        rw [hl] at hlatest
        rw [h.eq hlatest]
  · rintro rfl
    exact isLatest_latest es

theorem latest_concat (es : List LockEntry) (e : LockEntry) :
    ∃ last, latest (es ++ [e]) = some last ∧
      (last = e ∨ last ∈ es ∧ (compare last.time e.time).isGT = true) := by
  have h := isLatest_latest (es ++ [e])
  cases hl : latest (es ++ [e]) with
  | none =>
    rw [hl] at h
    exact absurd h (List.append_ne_nil_of_right_ne_nil es (List.cons_ne_nil e []))
  | some last =>
    rw [hl] at h
    obtain ⟨before, after, heq, -, hlt⟩ := h
    refine ⟨last, rfl, ?_⟩
    rcases List.eq_nil_or_concat after with rfl | ⟨init, x, rfl⟩
    · exact .inl (List.cons.inj (List.append_inj' heq rfl).2).1.symm
    · rw [List.concat_eq_append, ← List.cons_append, ← List.append_assoc] at heq
      obtain ⟨rfl, hx⟩ := List.append_inj' heq rfl
      obtain rfl := (List.cons.inj hx).1
      have hgt := Std.OrientedCmp.gt_of_lt (hlt e (by simp))
      exact .inr ⟨by simp, by rw [hgt]; rfl⟩

end LockLog

end Multicloud

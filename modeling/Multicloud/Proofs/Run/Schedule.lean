import Multicloud.Proofs.Run.Partition

namespace Multicloud

namespace Event

/-- The work on the target begins once, and it finishes after that. -/
def Runs (events : List Event) (t : Provider) : Prop :=
  events.count (.start t) = 1 ∧ [.start t, .finish t].Sublist events

def BeginsInTime (events : List Event) (t : Provider) : Prop :=
  .start t ∈ events.takeWhile (· ≠ .cancel)

instance (events : List Event) (t : Provider) : Decidable (Runs events t) :=
  inferInstanceAs (Decidable (_ ∧ _))

instance (events : List Event) (t : Provider) : Decidable (BeginsInTime events t) :=
  inferInstanceAs (Decidable (_ ∈ _))

variable {events before : List Event} {t : Provider}

theorem Runs.exists_split (h : Runs events t) : ∃ before between after : List Event,
    events = before ++ .start t :: (between ++ .finish t :: after) ∧
      .start t ∉ before ∧ .start t ∉ between ∧ .start t ∉ after := by
  obtain ⟨hcount, hsub⟩ := h
  obtain ⟨early, late, rfl, hstart, hfinish⟩ := List.cons_sublist_iff.1 hsub
  obtain ⟨before, rest, rfl⟩ := List.append_of_mem hstart
  obtain ⟨middle, after, rfl⟩ := List.append_of_mem (List.singleton_sublist.1 hfinish)
  refine ⟨before, rest ++ middle, after, by simp, ?_⟩
  simp only [List.count_append, List.count_cons_self, List.count_cons, beq_iff_eq, reduceCtorEq,
    if_false, Nat.add_zero] at hcount
  simp only [List.mem_append, not_or, ← List.count_eq_zero]
  omega

theorem takeWhile_ne_append_cons {α : Type} [DecidableEq α] {a : α} {l : List α} (h : a ∉ l)
    (rest : List α) : (l ++ rest).takeWhile (· ≠ a) = l ++ rest.takeWhile (· ≠ a) := by
  apply List.takeWhile_append_of_pos
  intro b hb
  simpa using fun he : b = a ↦ h (he ▸ hb)

theorem beginsInTime_iff (h : .start t ∉ before) (after : List Event) :
    BeginsInTime (before ++ .start t :: after) t ↔ .cancel ∉ before := by
  unfold BeginsInTime
  constructor
  · intro hmem hc
    obtain ⟨early, late, rfl, hearly⟩ := List.eq_append_cons_of_mem hc
    rw [List.append_assoc, takeWhile_ne_append_cons hearly] at hmem
    exact h (List.mem_append_left _ (by simpa using hmem))
  · intro hc
    rw [takeWhile_ne_append_cons hc]
    simp

end Event

namespace Pipeline

variable {walk : Provider × Version → TargetRun} {bound : Bound} {f : Floor}
  {t : Provider} {v : Version} {r : TargetRun} {events : List Event}

theorem isCancelled_handle (f : Floor) (e : Event) :
    (handle walk bound f e).isCancelled = (f.isCancelled || e = .cancel) := by
  cases e with
  | cancel => simp [handle]
  | start target =>
    simp only [handle]
    split <;> simp
  | finish target =>
    simp only [handle]
    split <;> simp

theorem isCancelled_foldl (events : List Event) (f : Floor) :
    (events.foldl (handle walk bound) f).isCancelled = (f.isCancelled || .cancel ∈ events) := by
  induction events generalizing f with
  | nil => simp
  | cons e events ih =>
    rw [List.foldl_cons, ih, isCancelled_handle, Bool.or_assoc]
    simp [eq_comm]

theorem getElem?_begun_start (hmem : (t, v) ∈ bound) (hd : (bound.map Prod.fst).Nodup) (f : Floor) :
    (handle walk bound f (.start t)).begun[t]? =
      some (if f.isCancelled then .cancelled else walk (t, v)) := by
  have hfind : (bound.find? fun b ↦ b.1 == t) = some (t, v) := by
    cases hb : bound.find? fun b ↦ b.1 == t with
    | none => simpa using List.find?_eq_none.1 hb _ hmem
    | some b =>
      have hname : b.1 = t := by simpa using List.find?_some hb
      exact congrArg some (List.inj_on_of_nodup_map hd (List.mem_of_find?_eq_some hb) hmem hname)
  simp only [handle, hfind]
  rw [Std.ExtTreeMap.getElem?_insert_self]

theorem getElem?_begun_handle {e : Event} (he : e ≠ .start t) (f : Floor) :
    (handle walk bound f e).begun[t]? = f.begun[t]? := by
  cases e with
  | cancel => rfl
  | start target =>
    simp only [handle]
    split
    · rfl
    · rw [Std.ExtTreeMap.getElem?_insert, if_neg]
      exact fun hname ↦ he (congrArg Event.start (Std.LawfulEqOrd.eq_of_compare hname))
  | finish target =>
    simp only [handle]
    split <;> rfl

theorem getElem?_begun_foldl (h : .start t ∉ events) (f : Floor) :
    (events.foldl (handle walk bound) f).begun[t]? = f.begun[t]? := by
  induction events generalizing f with
  | nil => rfl
  | cons e events ih =>
    obtain ⟨hne, h⟩ := List.ne_and_not_mem_of_not_mem_cons h
    rw [List.foldl_cons, ih h, getElem?_begun_handle hne.symm]

theorem getElem?_finished_finish (hr : f.begun[t]? = some r) :
    (handle walk bound f (.finish t)).finished[t]? = some r := by
  simp only [handle, hr]
  rw [Std.ExtTreeMap.getElem?_insert_self]

theorem getElem?_finished_handle {e : Event} (he : e ≠ .start t) (hr : f.begun[t]? = some r)
    (hf : f.finished[t]? = some r) : (handle walk bound f e).finished[t]? = some r := by
  cases e with
  | cancel => exact hf
  | start target =>
    simp only [handle]
    split <;> exact hf
  | finish target =>
    by_cases hname : target = t
    · exact hname ▸ getElem?_finished_finish (hname ▸ hr)
    · simp only [handle]
      split
      · exact hf
      · rw [Std.ExtTreeMap.getElem?_insert, if_neg]
        · exact hf
        · exact fun he ↦ hname (Std.LawfulEqOrd.eq_of_compare he)

theorem getElem?_finished_foldl (h : .start t ∉ events) (hr : f.begun[t]? = some r)
    (hf : f.finished[t]? = some r) :
    (events.foldl (handle walk bound) f).finished[t]? = some r := by
  induction events generalizing f with
  | nil => exact hf
  | cons e events ih =>
    obtain ⟨hne, h⟩ := List.ne_and_not_mem_of_not_mem_cons h
    rw [List.foldl_cons]
    apply ih h
    · rwa [getElem?_begun_handle hne.symm]
    · exact getElem?_finished_handle hne.symm hr hf

/-- A target whose work runs to its end is walked if it begins before the run is cancelled, and
only then. The other targets make no difference. -/
theorem getElem?_finished_of_runs (h : Event.Runs events t) (hmem : (t, v) ∈ bound)
    (hd : (bound.map Prod.fst).Nodup) :
    (events.foldl (handle walk bound) {}).finished[t]? =
      some (if Event.BeginsInTime events t then walk (t, v) else .cancelled) := by
  obtain ⟨before, between, after, rfl, hbefore, hbetween, hafter⟩ := h.exists_split
  have hr : (handle walk bound (before.foldl (handle walk bound) {}) (.start t)).begun[t]? =
      some (if .cancel ∈ before then .cancelled else walk (t, v)) := by
    rw [getElem?_begun_start hmem hd, isCancelled_foldl]
    simp
  rw [← getElem?_begun_foldl hbetween] at hr
  rw [List.foldl_append, List.foldl_cons, List.foldl_append, List.foldl_cons]
  simp only [Event.beginsInTime_iff hbefore, ite_not]
  apply getElem?_finished_foldl hafter
  · rwa [getElem?_begun_handle (by simp)]
  · exact getElem?_finished_finish hr

theorem sideBySide_eq (hd : (bound.map Prod.fst).Nodup)
    (h : ∀ b ∈ bound, Event.Runs events b.1) :
    sideBySide walk events bound = bound.map fun b ↦
      (b.1, if Event.BeginsInTime events b.1 then walk b else .cancelled) := by
  refine List.map_congr_left fun b hb ↦ ?_
  rw [Std.ExtTreeMap.getD_eq_getD_getElem?, getElem?_finished_of_runs (h b hb) hb hd,
    Option.getD_some]

theorem getElem?_finished_plainEvents (hmem : (t, v) ∈ bound) (hd : (bound.map Prod.fst).Nodup)
    (targets : List Provider) (hf : f.isCancelled = false)
    (h : t ∈ targets ∨ f.finished[t]? = some (walk (t, v))) :
    ((plainEvents targets).foldl (handle walk bound) f).finished[t]? = some (walk (t, v)) := by
  induction targets generalizing f with
  | nil => simpa [plainEvents] using h
  | cons s targets ih =>
    refine ih (f := handle walk bound (handle walk bound f (.start s)) (.finish s)) ?_ ?_
    · simp [isCancelled_handle, hf]
    by_cases hs : s = t
    · subst hs
      have hbegun := @getElem?_begun_start walk _ _ _ hmem hd f
      rw [hf] at hbegun
      exact .inr (getElem?_finished_finish hbegun)
    refine h.imp (fun ht ↦ (List.mem_cons.1 ht).resolve_left (Ne.symm hs)) fun hdone ↦ ?_
    have hstart : (handle walk bound f (.start s)).finished = f.finished := by
      simp only [handle]
      split <;> rfl
    rw [← hstart] at hdone
    simp only [handle] at hdone ⊢
    split
    · exact hdone
    · rw [Std.ExtTreeMap.getElem?_insert, if_neg]
      · exact hdone
      · exact fun he ↦ hs (Std.LawfulEqOrd.eq_of_compare he)

theorem sideBySide_plainEvents (hd : (bound.map Prod.fst).Nodup) {targets : List Provider}
    (h : ∀ b ∈ bound, b.1 ∈ targets) :
    sideBySide walk (plainEvents targets) bound = inTurn walk none bound := by
  rw [inTurn_none]
  refine List.map_congr_left fun b hb ↦ ?_
  rw [Std.ExtTreeMap.getD_eq_getD_getElem?,
    getElem?_finished_plainEvents hb hd targets rfl (.inl (h b hb)), Option.getD_some]

end Pipeline

end Multicloud

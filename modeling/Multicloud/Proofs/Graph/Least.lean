import Multicloud.Proofs.Fallible
import Multicloud.Proofs.Graph.Acceptance
import Multicloud.Proofs.Text.Bytes
import Std.Data.TreeMap.Iterator

namespace Multicloud

namespace ResourceMap

variable {m : ResourceMap} {before order ids : List String}

/-- Each id comes after all that it depends on. -/
def Respects (m : ResourceMap) (ids : List String) : Prop :=
  ∀ before id after, ids = before ++ id :: after →
    ∃ r : Resource, m[id]? = some r ∧ ∀ dep ∈ r.dependsOn, dep ∈ before

theorem Releases.respects (h : m.Releases ids.reverse) : m.Respects ids := by
  rintro before id after rfl
  rw [List.reverse_append, List.reverse_cons, List.append_assoc, List.singleton_append] at h
  obtain ⟨⟨-, r, hr, hdeps⟩, -⟩ := h.of_append
  exact ⟨r, hr, fun dep hdep ↦ List.mem_reverse.1 (hdeps dep hdep)⟩

/-- Where another order first differs, it goes on with an id that could have been released there as
well, and the release was that of a lesser one. -/
theorem Releases.eq_or_lex_append (h : m.Releases (before ++ order).reverse)
    (hperm : ids.Perm order) (hids : m.Respects (before ++ ids)) :
    order = ids ∨ List.Lex (fun a b ↦ Text.bytes a < Text.bytes b) order ids := by
  induction order generalizing before ids with
  | nil => exact .inl hperm.eq_nil.symm
  | cons x order ih =>
    cases ids with
    | nil => exact absurd hperm.length_eq (by simp)
    | cons y ids =>
      by_cases he : x = y
      · subst he
        have hrest : order = ids ∨
            List.Lex (fun a b ↦ Text.bytes a < Text.bytes b) order ids := by
          rw [List.append_cons] at h hids
          exact ih h ((List.perm_cons x).1 hperm) hids
        exact hrest.imp (congrArg (x :: ·)) .cons
      · have hreleases := h
        rw [List.reverse_append, List.reverse_cons, List.append_assoc,
          List.singleton_append] at hreleases
        obtain ⟨r, hr, hdeps⟩ := hids before y ids rfl
        have hnew : y ∉ before := by
          have hnodup := List.nodup_reverse.1 h.nodup
          have hmem : y ∈ x :: order := hperm.subset (.head _)
          exact fun hbefore ↦ (List.nodup_append.1 hnodup).2.2 y hbefore y hmem rfl
        have hready : m.Ready before.reverse y :=
          ⟨by simpa using hnew, r, hr, fun dep hdep ↦ List.mem_reverse.2 (hdeps dep hdep)⟩
        have hle := hreleases.of_append.2 y hready
        refine .inr (.rel (Text.compare_eq_lt.1 ?_))
        exact Ordering.isLE_iff_eq_lt_or_eq_eq.1 hle |>.resolve_right
          fun heq ↦ he (Std.LawfulEqOrd.eq_of_compare heq)

end ResourceMap

namespace ResourceGraph

/-- All ids of some resources, each once and after all that its resource depends on. -/
structure Arranges (rs : List Resource) (ids : List String) : Prop where
  perm : ids.Perm (rs.map Resource.id)
  after : ∀ before id after, ids = before ++ id :: after →
    ∀ dep, Depends rs id dep → dep ∈ before

theorem Arranges.respects {rs : List Resource} {ids : List String} {m : ResourceMap}
    (h : Arranges rs ids) (hm : m.Holds rs) : m.Respects ids := by
  intro before id after he
  have hid : id ∈ rs.map Resource.id := h.perm.subset (by simp [he])
  obtain ⟨r, hr, rfl⟩ := List.mem_map.1 hid
  exact ⟨r, (hm _ _).2 ⟨hr, rfl⟩,
    fun dep hdep ↦ h.after before r.id after he dep ⟨r, hr, rfl, hdep⟩⟩

/-- A graph lists its resources each after all that it depends on, and of all such orders in the one
that is least by the bytes of the ids. -/
theorem ids_least {w : String} {rs : List Resource} {g : ResourceGraph}
    (h : ofResources w rs = .ok g) :
    Arranges rs g.ids ∧ ∀ ids, Arranges rs ids →
      g.ids = ids ∨ List.Lex (fun a b ↦ Text.bytes a < Text.bytes b) g.ids ids := by
  obtain ⟨-, hd, -, -, hperm, m, hm, hreleases⟩ := of_ofResources_eq_ok h
  have hm := holds_of_perm hm hperm
  have hids : g.ids.Perm (rs.map Resource.id) := hperm.map Resource.id
  refine ⟨⟨hids, ?_⟩, fun ids harranges ↦ ?_⟩
  · rintro before id after he dep ⟨r, hr, rfl, hdep⟩
    obtain ⟨r', hr', hdeps⟩ := hreleases.respects before r.id after he
    rw [(hm r.id r).2 ⟨hr, rfl⟩, Option.some.injEq] at hr'
    exact hdeps dep (hr' ▸ hdep)
  · rw [← List.nil_append g.ids] at hreleases
    exact hreleases.eq_or_lex_append (harranges.perm.trans hids.symm) (harranges.respects hm)

def crossed : List Resource :=
  [⟨"a", .volume, ∅, .of ["c"]⟩, ⟨"c", .computeNode, ∅, ∅⟩, ⟨"b", .computeNode, ∅, ∅⟩]

theorem ids_least_crossed :
    ∃ g, ofResources "default/w" crossed = .ok g ∧ g.ids = ["b", "c", "a"] ∧
      Arranges crossed g.ids ∧ ∀ ids, Arranges crossed ids →
        g.ids = ids ∨ List.Lex (fun a b ↦ Text.bytes a < Text.bytes b) g.ids ids := by
  have hids : (ofResources "default/w" crossed).map ids = .ok ["b", "c", "a"] := by
    simp only [ofResources, ResourceMap.sweep_eq_runByList]
    decide +kernel
  obtain ⟨g, hg, hids⟩ := map_eq_ok.1 hids
  obtain ⟨harranges, hleast⟩ := ids_least hg
  exact ⟨g, hg, hids, harranges, hleast⟩

end ResourceGraph

end Multicloud

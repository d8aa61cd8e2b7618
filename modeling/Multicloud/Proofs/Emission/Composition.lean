import Multicloud.Proofs.Emission.Workloads

namespace Multicloud

theorem Walk.Translates.map_logicalId {set : RuleSet} {rs : List Resource} {as : List Artifact}
    (h : Walk.Translates set rs as) : as.map Artifact.logicalId = rs.map Resource.id := by
  induction h with
  | start => rfl
  | next _ ha ih => rw [List.map_append, List.map_append, ih, List.map_singleton, ha.logicalId,
      List.map_singleton]

namespace Composition

open Yaml (Written)

variable {g : ResourceGraph} {artifacts : ArtifactMap} {id : String} {t : Provider}
  {list : List Artifact} {a : Artifact}

structure Link where
  provider : Provider
  artifactKind : String
  file : String
  reference : String

/-- What a composition tells of a resource. -/
structure Entry where
  name : String
  kind : Kind
  dependsOn : List String
  links : List Link

def Link.written (l : Link) : Written :=
  .mapping
    [("provider", .text l.provider.name), ("artifact", .text l.artifactKind),
      ("file", .text l.file), ("reference", .text l.reference)]

def Entry.written (e : Entry) : Written :=
  .mapping
    [("name", .text e.name),
      ("base", .mapping
        [("apiVersion", .text workloadApi), ("kind", .text "LogicalResource"),
          ("spec", .mapping
            ([("logicalKind", .text e.kind.name)] ++
              (if e.dependsOn.isEmpty then []
                else [("dependsOn", .list (e.dependsOn.map Written.text))]) ++
              [("providers", .list (e.links.map Link.written))]))])]

def writtenEntries? : Written → Option (List Written)
  | .mapping fields =>
    match fields.lookup "spec" with
    | some (.mapping spec) =>
      match spec.lookup "resources" with
      | some (.list items) => some items
      | _ => none
    | _ => none
  | _ => none

def link (workload : String) (a : Artifact) : Link where
  provider := a.provider
  artifactKind := a.artifactKind
  file := Artifact.treeName a.provider workload ++ "/" ++ a.fileName
  reference := "module." ++ a.targetId

def entry (workload : String) (artifacts : ArtifactMap) (r : Resource) : Entry where
  name := r.id
  kind := r.kind
  dependsOn := r.dependsOn.toList
  links := (artifactsOf artifacts r.id).map (link workload)

theorem written_entry (workload : String) (artifacts : ArtifactMap) (r : Resource) :
    (entry workload artifacts r).written = resource workload artifacts r := by
  have hlinks : ((artifactsOf artifacts r.id).map (link workload)).map Link.written =
      (artifactsOf artifacts r.id).map (binding workload) := List.map_map
  rw [Entry.written, resource, entry, hlinks]
  cases r.dependsOn.toList <;> rfl

theorem writtenEntries?_document (g : ResourceGraph) (graphHash : String)
    (artifacts : ArtifactMap) : writtenEntries? (document g graphHash artifacts) =
      some ((g.resources.map (entry g.name artifacts)).map Entry.written) := by
  have hentries : (g.resources.map (entry g.name artifacts)).map Entry.written =
      g.resources.map (resource g.name artifacts) := by
    rw [List.map_map]
    exact List.map_congr_left fun r _ ↦ written_entry g.name artifacts r
  rw [hentries]
  rfl

def IsFor (artifacts : ArtifactMap) (t : Provider) (id : String) (a : Artifact) : Prop :=
  ∃ list, artifacts[t]? = some list ∧ ∀ b, b ∈ list ∧ b.logicalId = id ↔ b = a

/-- An entry for a resource, after others. What it waits for has one of them, and for each provider
with artifacts it tells of the one for the resource. -/
structure Entry.Stands (workload : String) (artifacts : ArtifactMap) (before : List Entry)
    (r : Resource) (e : Entry) : Prop where
  name : e.name = r.id
  kind : e.kind = r.kind
  dependsOn : e.dependsOn = r.dependsOn.toList
  earlier : ∀ dep ∈ e.dependsOn, ∃ e' ∈ before, e'.name = dep
  providers : e.links.map Link.provider = artifacts.keys
  links : ∀ l ∈ e.links, ∃ a, IsFor artifacts l.provider e.name a ∧
    l.artifactKind = a.artifactKind ∧
    l.file = Artifact.treeName l.provider workload ++ "/" ++ a.fileName ∧
    l.reference = "module." ++ a.targetId

/-- The artifacts of providers that have translated a graph. -/
structure Covers (g : ResourceGraph) (artifacts : ArtifactMap) : Prop where
  ids : ∀ (t : Provider) list, artifacts[t]? = some list → list.map Artifact.logicalId = g.ids
  provider : ∀ (t : Provider) list, artifacts[t]? = some list → ∀ a ∈ list, a.provider = t

theorem artifactOf?_eq_some (hone : ∀ b, b ∈ list ∧ b.logicalId = id ↔ b = a) :
    artifactOf? list id = some a := by
  obtain ⟨hmem, hid⟩ := (hone a).2 rfl
  unfold artifactOf?
  cases hfind : list.reverse.find? fun b ↦ b.logicalId == id with
  | none =>
    have hnone := List.find?_eq_none.1 hfind a (List.mem_reverse.2 hmem)
    simp [hid] at hnone
  | some b =>
    have hb := List.mem_reverse.1 (List.mem_of_find?_eq_some hfind)
    have hbid := List.find?_some hfind
    rw [(hone b).1 ⟨hb, by simpa using hbid⟩]

theorem Covers.artifactOf? (h : Covers g artifacts) (hd : g.ids.Nodup)
    (hlist : artifacts[t]? = some list) (hid : id ∈ g.ids) :
    ∃ a, Composition.artifactOf? list id = some a ∧ IsFor artifacts t id a ∧ a.provider = t := by
  have hids := h.ids t list hlist
  obtain ⟨a, ha, rfl⟩ := List.mem_map.1 (hids ▸ hid)
  have hone : ∀ b, b ∈ list ∧ b.logicalId = a.logicalId ↔ b = a := by
    refine fun b ↦ ⟨fun ⟨hb, he⟩ ↦ List.inj_on_of_nodup_map (hids ▸ hd) hb ha he, ?_⟩
    rintro rfl
    exact ⟨ha, rfl⟩
  exact ⟨a, artifactOf?_eq_some hone, ⟨list, hlist, hone⟩, h.provider t list hlist a ha⟩

theorem values_eq (artifacts : ArtifactMap) : artifacts.values = artifacts.toList.map Prod.snd := by
  have hfold : artifacts.values = artifacts.foldr (fun _ list rest ↦ list :: rest) [] := by
    obtain ⟨⟨_⟩⟩ := artifacts
    rfl
  rw [hfold, Std.ExtTreeMap.foldr_eq_foldr_toList]
  induction artifacts.toList with
  | nil => rfl
  | cons e entries ih => rw [List.foldr_cons, ih, List.map_cons]

theorem Covers.artifactsOf (h : Covers g artifacts) (hd : g.ids.Nodup) (hid : id ∈ g.ids) :
    (Composition.artifactsOf artifacts id).map Artifact.provider = artifacts.keys ∧
      ∀ a ∈ Composition.artifactsOf artifacts id, IsFor artifacts a.provider id a := by
  have hfound : ∀ e ∈ artifacts.toList, ∃ a, Composition.artifactOf? e.2 id = some a ∧
      IsFor artifacts e.1 id a ∧ a.provider = e.1 := fun e he ↦
    h.artifactOf? hd (Std.ExtTreeMap.mem_toList_iff_getElem?_eq_some.1 he) hid
  rw [Composition.artifactsOf, values_eq, ← Std.ExtTreeMap.map_fst_toList_eq_keys]
  generalize artifacts.toList = entries at hfound ⊢
  induction entries with
  | nil => simp
  | cons e entries ih =>
    obtain ⟨⟨a, ha, hfor, hprovider⟩, hfound⟩ := List.forall_mem_cons.1 hfound
    obtain ⟨hkeys, hall⟩ := ih hfound
    rw [List.map_cons,
      List.filterMap_cons_some (f := fun list ↦ Composition.artifactOf? list id) ha,
      List.map_cons, List.map_cons, hkeys, hprovider]
    exact ⟨rfl, List.forall_mem_cons.2 ⟨hprovider ▸ hfor, hall⟩⟩

theorem stands_entry (hg : g.Accepted) (h : Covers g artifacts) {before after : List Resource}
    {r : Resource} (hr : g.resources = before ++ r :: after) :
    Entry.Stands g.name artifacts (before.map (entry g.name artifacts)) r
      (entry g.name artifacts r) := by
  have hid : r.id ∈ g.ids := List.mem_map_of_mem (by simp [hr])
  obtain ⟨hproviders, hfor⟩ := h.artifactsOf hg.nodup_ids hid
  refine ⟨rfl, rfl, rfl, fun dep hdep ↦ ?_, ?_, fun l hl ↦ ?_⟩
  · have hbefore := (hg.ordered hr).1 dep (Std.ExtTreeSet.mem_toList.1 hdep)
    obtain ⟨r', hr', rfl⟩ := List.mem_map.1 hbefore
    exact ⟨_, List.mem_map_of_mem hr', rfl⟩
  · rw [← hproviders, entry, List.map_map]
    rfl
  · obtain ⟨a, ha, rfl⟩ := List.mem_map.1 hl
    exact ⟨a, hfor a ha, rfl, rfl, rfl⟩

end Composition

namespace Pipeline

variable {p : Pipeline} {g : ResourceGraph} {targets : List Provider} {x : Call}
  {c c' : RunCache} {root root' : Tree} {o : Outcome}

theorem covers_of_judged (h : Judged p g targets o) (hr : p.registry.Filled) :
    Composition.Covers g o.artifacts := by
  have hwalk {t : Provider} {list : List Artifact} (hlist : o.artifacts[t]? = some list) :
      ∃ v, walkTarget g p.registry t v = .ok list := by
    obtain ⟨-, -, hv⟩ := (h.artifacts t list).1 hlist
    obtain ⟨v, -, hw⟩ := walkTarget_of_verdict hv
    exact ⟨v, hw⟩
  refine ⟨fun t list hlist ↦ ?_, fun t list hlist a ha ↦ ?_⟩
  · obtain ⟨v, hw⟩ := hwalk hlist
    obtain ⟨set, -, ht⟩ := translates_of_walkTarget hw
    exact ht.map_logicalId
  · obtain ⟨v, hw⟩ := hwalk hlist
    exact (fileName_of_walkTarget hr hw a ha).1

section Pair

open Emission (writeOutcome)

def pairPins : Binding := .of [(Shipped.aws, Shipped.v1), (Shipped.gcp, Shipped.v1)]

def pair : Call := ⟨loneGraph, [Shipped.gcp, Shipped.aws], none, .inTurn none⟩

theorem exists_pair : ∃ o d c root,
    ((shipped pairPins).call .inMemory pair).run (.dir []) = ((.ok o, c), root) ∧ o.mode = .full ∧
      o.composition = some d ∧
      ((writeOutcome ⟨"out"⟩ loneGraph.name o).run.run (.dir [])).1.isOk = true := by
  obtain ⟨answer, c, root, hx, -⟩ := came_call (shipped pairPins) .inMemory pair (.dir [])
  have h : ((((shipped pairPins).call .inMemory pair).run (.dir [])).1.1.toOption.map fun o ↦
      (o.mode, o.composition.isSome,
        ((writeOutcome ⟨"out"⟩ loneGraph.name o).run.run (.dir [])).1.isOk)) =
      some (.full, true, true) := by
    decide +kernel
  rw [hx] at h
  obtain ⟨o, ho, htold⟩ := Option.map_eq_some_iff.1 h
  obtain rfl := toOption_eq_some.1 ho
  obtain ⟨hmode, htold⟩ := Prod.mk.inj htold
  obtain ⟨hsome, hemit⟩ := Prod.mk.inj htold
  obtain ⟨d, hd⟩ := Option.isSome_iff_exists.1 hsome
  exact ⟨o, d, c, root, hx, hmode, hd, hemit⟩

end Pair

end Pipeline

end Multicloud

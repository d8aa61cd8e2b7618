import Multicloud.Proofs.Graph.Built

namespace Multicloud.ResourceGraph

open Text (Clean)

variable {spec spec' : WorkloadSpec} {r r' : Resource}

theorem computeId_inj {i j : UInt64} : computeId i = computeId j ↔ i = j := by
  simp [computeId, String.append_right_inj, Nat.repr_inj, UInt64.toNat_inj]

theorem volumeId_inj {i j : UInt64} : volumeId i = volumeId j ↔ i = j := by
  simp [volumeId, String.append_right_inj, Nat.repr_inj, UInt64.toNat_inj]

def machineBefore (i : UInt64) : List Char :=
  ("|compute_node|index=" ++ Nat.repr i.toNat ++ ";instance_class=").toList

def machineName (name : String) (i : UInt64) : List Char :=
  ';' :: ("name=" ++ displayName name (computeId i)).toList

def machineAfter (name space : String) : List Char :=
  (";namespace=" ++ space ++ ";workload=" ++ name).toList

theorem toList_encoded_computeNode (spec : WorkloadSpec) (i : UInt64) :
    (computeNode spec i).encoded.toList =
      (computeId i).toList ++ machineBefore i ++ spec.compute.instanceClass.toList ++
        (machineName spec.name i ++ machineAfter spec.name spec.space ++ ['|']) := by
  have hid : (computeNode spec i).id = computeId i := rfl
  have hkind : (computeNode spec i).kind.name = "compute_node" := rfl
  have hdeps : (computeNode spec i).dependsOn.toList = [] := rfl
  simp [hid, hkind, Resource.toList_encoded, Resource.shown, toList_computeNode, hdeps,
    Resource.propertyChars, Resource.dependencyChars, Resource.entryChars,
    List.intercalate_cons_cons, Property.display, machineBefore, machineName, machineAfter]

def volumeBefore (name : String) (i : UInt64) : List Char :=
  ("|volume|attached_to=" ++ computeId i ++ ";index=" ++ Nat.repr i.toNat ++ ";name=" ++
    displayName name (volumeId i) ++ ";performance_class=").toList

theorem toList_encoded_volume (spec : WorkloadSpec) (i : UInt64) :
    (volume spec i).encoded.toList =
      (volumeId i).toList ++ volumeBefore spec.name i ++ spec.storage.performanceClass.toList ++
        '|' :: (computeId i).toList := by
  have hid : (volume spec i).id = volumeId i := rfl
  have hkind : (volume spec i).kind.name = "volume" := rfl
  have hdeps : (volume spec i).dependsOn.toList = [computeId i] := rfl
  simp [hid, hkind, Resource.toList_encoded, Resource.shown, toList_volume, hdeps,
    Resource.propertyChars, Resource.dependencyChars, Resource.entryChars,
    List.intercalate_cons_cons, Property.display, volumeBefore]

theorem Made.id_eq (hv : spec.Valid) (h : Made spec r) {id : String} (hid : Clean id.toList)
    {x : List Char} (he : r.encoded.toList = id.toList ++ '|' :: x) : r.id = id := by
  rw [Resource.toList_encoded] at he
  have hbar : '|' ∈ Text.separators := by decide
  exact String.toList_inj.1 (Text.append_cons_inj (h.clean_id hv _ hbar) (hid _ hbar) he).1

theorem Made.dependsOn_eq (hv : spec.Valid) (h : Made spec r) (hv' : spec'.Valid)
    (h' : Made spec' r') {y : List Char}
    (he : r.encoded.toList = y ++ '|' :: Resource.dependencyChars r'.dependsOn.toList) :
    r.dependsOn = r'.dependsOn := by
  have hd {spec : WorkloadSpec} {r : Resource} (hv : spec.Valid) (h : Made spec r) {c : Char}
      (hc : c ∈ Text.separators) : ∀ d ∈ r.dependsOn.toList, d ≠ "" ∧ c ∉ d.toList := by
    intro d hd
    have hd := h.clean_dependency hv d (Std.ExtTreeSet.mem_toList.1 hd)
    exact ⟨hd.1, hd.2 c hc⟩
  have hbar {spec : WorkloadSpec} {r : Resource} (hv : spec.Valid) (h : Made spec r) :
      '|' ∉ Resource.dependencyChars r.dependsOn.toList := by
    refine Text.not_mem_intercalate (by decide) ?_
    simp only [List.mem_map]
    rintro _ ⟨d, hmem, rfl⟩
    exact (hd hv h (by decide) d hmem).2
  rw [Resource.toList_encoded] at he
  simp only [← List.cons_append, ← List.append_assoc] at he
  have he := (Text.append_cons_inj_last (hbar hv h) (hbar hv' h') he).2
  exact Std.ExtTreeSet.toList_inj.1
    (Resource.dependencyChars_inj (hd hv h (by decide)) (hd hv' h' (by decide)) he)

theorem Made.first_part (hv : spec.Valid) (h : Made spec r) {first x : List Char}
    (he : r.encoded.toList = first ++ '\x00' :: x) : ∃ w, first = r.id.toList ++ '|' :: w := by
  rw [Resource.toList_encoded, List.append_cons] at he
  have hid := h.clean_id hv '\x00' (by decide)
  obtain ⟨w, hw⟩ := Text.prefix_of_not_mem (by simp [hid]) he
  exact ⟨w, by rw [hw, List.append_assoc, List.singleton_append]⟩

theorem Made.of_mem_encoded (hv : spec.Valid) (h : Made spec r) (hz : '\x00' ∈ r.encoded.toList) :
    (∃ i, r = ResourceGraph.computeNode spec i) ∨ ∃ i, r = ResourceGraph.volume spec i := by
  by_contra hne
  rw [not_or] at hne
  refine (h.plain hv ?_ ?_).not_mem_encoded hz
  · intro hk
    cases h with
    | computeNode i => exact absurd ⟨i, rfl⟩ hne.1
    | _ => cases hk
  · intro hk
    cases h with
    | volume i _ => exact absurd ⟨i, rfl⟩ hne.2
    | _ => cases hk

def letter : Kind → Char
  | .computeNode => 'c'
  | .networkLink => 'l'
  | .ingressRoute => 'i'
  | .volume => 'v'
  | .dnsRecord => 'd'

theorem Made.head_id (h : Made spec r) : r.id.toList.head? = some (letter r.kind) := by
  cases h with
  | computeNode i => simp [ResourceGraph.computeNode, computeId, letter]
  | link a b => simp [ResourceGraph.link, linkId, letter]
  | route _ _ _ => simp [ResourceGraph.route, ingressId, letter]
  | record _ => simp [ResourceGraph.record, dnsId, letter]
  | volume i _ => simp [ResourceGraph.volume, volumeId, letter]

theorem Made.eq_computeNode (h : Made spec r) (hk : r.kind = .computeNode) :
    ∃ i, r = ResourceGraph.computeNode spec i := by
  cases h with
  | computeNode i => exact ⟨i, rfl⟩
  | _ => cases hk

theorem Made.eq_volume (h : Made spec r) (hk : r.kind = .volume) :
    ∃ i, r = ResourceGraph.volume spec i ∧ spec.storage.persistent = true := by
  cases h with
  | volume i hp => exact ⟨i, rfl, hp⟩
  | _ => cases hk

theorem Made.instanceClass (h : Made spec r) (hk : r.kind = .computeNode) :
    r.properties["instance_class"]? = some (.text spec.compute.instanceClass) := by
  obtain ⟨i, rfl⟩ := h.eq_computeNode hk
  rfl

theorem Made.performanceClass (h : Made spec r) (hk : r.kind = .volume) :
    r.properties["performance_class"]? = some (.text spec.storage.performanceClass) := by
  obtain ⟨i, rfl, -⟩ := h.eq_volume hk
  rfl

theorem Made.kind_eq (h : Made spec r) {s : String} {k : Kind} (hid : r.id = s)
    (hs : s.toList.head? = some (letter k)) : r.kind = k := by
  have hk := h.head_id.symm.trans (hid ▸ hs)
  revert hk
  cases r.kind <;> cases k <;> decide

theorem Made.eq_computeNode_of_dependsOn (h : Made spec r) (hd : r.dependsOn = ∅) :
    ∃ i, r = ResourceGraph.computeNode spec i := by
  have hne {d : String} (hmem : d ∈ r.dependsOn) : False := by simp [hd] at hmem
  cases h with
  | computeNode i => exact ⟨i, rfl⟩
  | link a b => exact (hne (mem_textSet_of.2 (.head _))).elim
  | route _ h _ => exact (hne h).elim
  | record _ => exact (hne (mem_textSet_of.2 (.head _))).elim
  | volume i _ => exact (hne (mem_textSet_of.2 (.head _))).elim

theorem exists_of_map_eq_append {α β : Type} {f : α → β} {l : List α} {a b : β}
    {before middle after : List β} (h : l.map f = before ++ (a :: (middle ++ [b]) ++ after)) :
    ∃ early r₁ between r₂ late, l = early ++ r₁ :: (between ++ r₂ :: late) ∧ f r₁ = a ∧
      f r₂ = b := by
  obtain ⟨early, rest, rfl, -, h⟩ := List.map_eq_append_iff.1 h
  obtain ⟨rest, after, rfl, h, -⟩ := List.map_eq_append_iff.1 h
  obtain ⟨r₁, rest, rfl, h₁, h⟩ := List.map_eq_cons_iff.1 h
  obtain ⟨between, rest, rfl, -, h⟩ := List.map_eq_append_iff.1 h
  obtain ⟨r₂, rest, rfl, h₂, h⟩ := List.map_eq_cons_iff.1 h
  obtain rfl := List.map_eq_nil_iff.1 h
  exact ⟨early, r₁, between, r₂, after, by simp, h₁, h₂⟩

theorem ne_of_nodup {g : ResourceGraph} (h : g.Accepted) {early between late : List Resource}
    {r₁ r₂ : Resource} (hg : g.resources = early ++ r₁ :: (between ++ r₂ :: late)) :
    r₁.id ≠ r₂.id := by
  have hd := h.nodup_ids
  rw [ids, hg, List.map_append, List.map_cons, List.nodup_append, List.nodup_cons] at hd
  intro he
  exact hd.2.1.1 (he ▸ List.mem_map_of_mem (by simp))

theorem not_mem_of_clean {s : String} (h : Clean s.toList) : '\x00' ∉ s.toList :=
  h _ (by decide)

section Pieces

variable {g : ResourceGraph}

theorem not_pieces_computeNode (hv : spec.Valid) (hv' : spec'.Valid) (hg : g.Accepted)
    (hmade : ∀ r ∈ g.resources, Made spec r) (hname : spec.name = spec'.name)
    (hspace : spec.space = spec'.space) {i : UInt64} {first last x y : List Char}
    (hfirst : (computeNode spec' i).encoded.toList = first ++ '\x00' :: x)
    (hlast : (computeNode spec' i).encoded.toList = y ++ '\x00' :: last)
    {early between late : List Resource} {r₁ r₂ : Resource}
    (hres : g.resources = early ++ r₁ :: (between ++ r₂ :: late))
    (h₁ : r₁.encoded.toList = first) (h₂ : r₂.encoded.toList = last) : False := by
  refine ne_of_nodup hg hres ?_
  have hm₁ := hmade r₁ (by simp [hres])
  have hm₂ := hmade r₂ (by simp [hres])
  obtain ⟨w, rfl⟩ := (Made.computeNode i).first_part hv' hfirst
  rw [hm₁.id_eq hv (clean_computeId i) h₁]
  -- The last part ends as the encoding of the machine does.
  have hn := not_mem_of_clean (Text.clean_of_isLabel hv'.name)
  have hs := not_mem_of_clean (Text.clean_of_isLabel hv'.space)
  have hi := not_mem_of_clean (clean_computeId i)
  rw [toList_encoded_computeNode] at hlast
  obtain ⟨w, rfl⟩ := Text.suffix_of_not_mem
    (by simp [machineName, machineAfter, displayName, hn, hs, hi]) hlast
  have hd : r₂.dependsOn = ∅ :=
    hm₂.dependsOn_eq hv hv' (Made.computeNode i) (h₂.trans (List.append_assoc _ _ _).symm)
  obtain ⟨j, rfl⟩ := hm₂.eq_computeNode_of_dependsOn hd
  rw [toList_encoded_computeNode, hname, hspace, ← List.append_assoc, ← List.append_assoc,
    ← List.append_assoc w, ← List.append_assoc w] at h₂
  have h₂ := List.append_cancel_right (List.append_cancel_right h₂)
  have hsemi {s : String} (h : Clean s.toList) : ';' ∉ s.toList := h _ (by decide)
  have hname (k : UInt64) : ';' ∉ ("name=" ++ displayName spec'.name (computeId k)).toList := by
    simp [displayName, hsemi (Text.clean_of_isLabel hv'.name), hsemi (clean_computeId k)]
  have h₂ := (Text.append_cons_inj_last (hname j) (hname i) h₂).2
  simpa [displayName, computeNode, ← String.toList_inj] using h₂.symm

theorem lt_or_eq_of_compare {s t : String} (h : (compare s t).isLE) : s < t ∨ s = t := by
  by_contra hne
  rw [not_or] at hne
  have hgt : compare s t = .gt := by
    change compareOfLessAndEq s t = .gt
    simp [compareOfLessAndEq, hne]
  rw [hgt] at h
  cases h

theorem head_le_of_compare {s t : String} {a b : Char} (hs : s.toList.head? = some a)
    (ht : t.toList.head? = some b) (h : (compare s t).isLE) : a ≤ b := by
  obtain ⟨u, hs⟩ := List.head?_eq_some_iff.1 hs
  obtain ⟨v, ht⟩ := List.head?_eq_some_iff.1 ht
  rcases lt_or_eq_of_compare h with h | rfl
  · rw [String.lt_iff, hs, ht, List.cons_lt_cons_iff] at h
    rcases h with h | ⟨rfl, -⟩
    · exact Std.le_of_lt h
    · exact Char.le_refl a
  · rw [hs] at ht
    exact (List.cons.inj ht).1 ▸ Char.le_refl a

theorem head_volumeId (i : UInt64) : (volumeId i).toList.head? = some 'v' := by simp [volumeId]

theorem Made.kind_eq_of_compare (h : Made spec r) {i : UInt64}
    (hle : (compare (volumeId i) r.id).isLE) : r.kind = .volume := by
  have hk := head_le_of_compare (head_volumeId i) h.head_id hle
  revert hk
  cases r.kind <;> decide

/-- Nor does that of a volume: it would have to stand before a resource that could have come
first. -/
theorem not_pieces_volume (hv : spec.Valid) (hv' : spec'.Valid) (hg : g.Accepted)
    (hmade : ∀ r ∈ g.resources, Made spec r) {i : UInt64}
    (hmade' : Made spec' (volume spec' i)) {first last x y : List Char}
    (hfirst : (volume spec' i).encoded.toList = first ++ '\x00' :: x)
    (hlast : (volume spec' i).encoded.toList = y ++ '\x00' :: last)
    {early between late : List Resource} {r₁ r₂ : Resource}
    (hres : g.resources = early ++ r₁ :: (between ++ r₂ :: late))
    (h₁ : r₁.encoded.toList = first) (h₂ : r₂.encoded.toList = last) : False := by
  have hm₁ := hmade r₁ (by simp [hres])
  have hm₂ := hmade r₂ (by simp [hres])
  obtain ⟨w, rfl⟩ := hmade'.first_part hv' hfirst
  have hid₁ := hm₁.id_eq hv (clean_volumeId i) h₁
  obtain ⟨k, rfl, -⟩ := hm₁.eq_volume (hm₁.kind_eq hid₁ (head_volumeId i))
  obtain rfl := volumeId_inj.1 hid₁
  have hi := not_mem_of_clean (clean_computeId k)
  rw [toList_encoded_volume] at hlast
  obtain ⟨w, rfl⟩ := Text.suffix_of_not_mem (by simp [hi]) hlast
  have hdeps : Resource.dependencyChars (volume spec' k).dependsOn.toList = (computeId k).toList :=
    List.intercalate_singleton
  have hd : r₂.dependsOn = (volume spec' k).dependsOn :=
    hm₂.dependsOn_eq hv hv' hmade' (by rw [hdeps, h₂])
  obtain ⟨hready, hleast⟩ := hg.ordered hres
  have hle := hleast r₂ (by simp) (hd ▸ hready)
  obtain ⟨j, rfl, -⟩ := hm₂.eq_volume (hm₂.kind_eq_of_compare hle)
  have hd : [computeId j] = [computeId k] := congrArg Std.ExtTreeSet.toList hd
  obtain rfl := computeId_inj.1 (List.cons.inj hd).1
  exact ne_of_nodup hg hres rfl

end Pieces

/-- No class that the graph uses has a separator in it. -/
structure Tame (spec : WorkloadSpec) : Prop where
  machine : Clean spec.compute.instanceClass.toList
  storage : spec.storage.persistent = true → Clean spec.storage.performanceClass.toList

theorem Made.plain_of_tame (hv : spec.Valid) (ht : Tame spec) (h : Made spec r) : r.Plain := by
  refine h.plain hv (fun _ ↦ ht.machine) fun hk ↦ ?_
  obtain ⟨i, -, hp⟩ := h.eq_volume hk
  exact ht.storage hp

section Streams

variable {g g' : ResourceGraph}

theorem qualifiedName_inj (hv : spec.Valid) (hv' : spec'.Valid)
    (h : spec.qualifiedName = spec'.qualifiedName) :
    spec.space = spec'.space ∧ spec.name = spec'.name := by
  have hslash {s : String} (h : Name.isLabel s.toList = true) : '/' ∉ s.toList :=
    Text.clean_of_isLabel h _ (by decide)
  have h := congrArg String.toList h
  simp only [WorkloadSpec.qualifiedName, String.toList_append, List.append_assoc] at h
  obtain ⟨hs, hn⟩ := Text.append_cons_inj (hslash hv.space) (hslash hv'.space) h
  exact ⟨String.toList_inj.1 hs, String.toList_inj.1 hn⟩

theorem clean_workload (hv : spec.Valid) : '\x00' ∉ spec.qualifiedName.toList := by
  simp [WorkloadSpec.qualifiedName, not_mem_of_clean (Text.clean_of_isLabel hv.name),
    not_mem_of_clean (Text.clean_of_isLabel hv.space)]

/-- The stream of a graph without NUL in its texts tells what the encodings of another graph with
that stream fall into. -/
theorem pieces_of_stream_eq (hg : g.Plain) (hw : '\x00' ∉ g'.workload.toList)
    (hs : g.stream = g'.stream) :
    g.workload = g'.workload ∧
      (g.resources.map fun r ↦ r.encoded.toList) =
        g'.resources.flatMap fun r ↦ Name.splitAt '\x00' r.encoded.toList := by
  have hs := stream_eq_iff_lines_eq.1 hs
  have hw : '\x00' ∉ ("workload=" ++ g'.workload).toList := by simp [hw]
  rw [hg.lines_eq, lines, encoded, encoded, List.map_cons, List.flatMap_cons,
    Text.splitAt_of_not_mem hw, List.singleton_append, List.map_map, List.flatMap_map] at hs
  obtain ⟨hw, hs⟩ := List.cons.inj hs
  exact ⟨by simpa [← String.toList_inj] using hw, hs⟩

theorem plain_of_tame (hv : spec.Valid) (ht : Tame spec) (hb : build spec = .ok g) : g.Plain := by
  obtain ⟨-, hw, hmade, -, -⟩ := of_build_eq_ok hb
  exact ⟨hw ▸ clean_workload hv, fun r hr ↦ (hmade r hr).plain_of_tame hv ht⟩

/-- Of two built graphs with one stream, if one has no separators in its texts then neither has the
other. -/
theorem not_mem_encoded_of_stream_eq (hv : spec.Valid) (hv' : spec'.Valid) (ht : Tame spec)
    (hb : build spec = .ok g) (hb' : build spec' = .ok g') (hs : g.stream = g'.stream) :
    ∀ r' ∈ g'.resources, '\x00' ∉ r'.encoded.toList := by
  obtain ⟨hg, hw, hmade, -, -⟩ := of_build_eq_ok hb
  obtain ⟨-, hw', hmade', -, -⟩ := of_build_eq_ok hb'
  obtain ⟨hworkload, hpieces⟩ :=
    pieces_of_stream_eq (plain_of_tame hv ht hb) (hw' ▸ clean_workload hv') hs
  obtain ⟨hspace, hname⟩ := qualifiedName_inj hv hv' (hw.symm.trans (hworkload.trans hw'))
  intro r' hr' hz
  obtain ⟨before, after, hg'⟩ := List.append_of_mem hr'
  obtain ⟨first, middle, last, hparts, ⟨x, hfirst⟩, y, hlast⟩ := Text.splitAt_of_mem hz
  rw [hg', List.flatMap_append, List.flatMap_cons, hparts] at hpieces
  obtain ⟨early, r₁, between, r₂, late, hres, h₁, h₂⟩ := exists_of_map_eq_append hpieces
  rcases (hmade' r' hr').of_mem_encoded hv' hz with ⟨i, rfl⟩ | ⟨i, rfl⟩
  · exact not_pieces_computeNode hv hv' hg hmade hname hspace hfirst hlast hres h₁ h₂
  · exact not_pieces_volume hv hv' hg hmade (hmade' _ hr') hfirst hlast hres h₁ h₂

theorem encoded_eq_of_stream_eq (hv : spec.Valid) (hv' : spec'.Valid) (ht : Tame spec)
    (hb : build spec = .ok g) (hb' : build spec' = .ok g') (hs : g.stream = g'.stream) :
    g.workload = g'.workload ∧ (g.resources.map fun r ↦ r.encoded.toList) =
      g'.resources.map fun r ↦ r.encoded.toList := by
  have hz := not_mem_encoded_of_stream_eq hv hv' ht hb hb' hs
  obtain ⟨-, hw', -, -, -⟩ := of_build_eq_ok hb'
  obtain ⟨hworkload, hpieces⟩ :=
    pieces_of_stream_eq (plain_of_tame hv ht hb) (hw' ▸ clean_workload hv') hs
  refine ⟨hworkload, ?_⟩
  rw [hpieces, List.map_eq_flatMap]
  exact List.flatMap_congr fun r' hr' ↦ Text.splitAt_of_not_mem (hz r' hr')

theorem exists_of_encoded_eq (hv : spec.Valid) (hv' : spec'.Valid)
    (hmade : ∀ r ∈ g.resources, Made spec r) (hmade' : ∀ r ∈ g'.resources, Made spec' r)
    (h : (g.resources.map fun r ↦ r.encoded.toList) =
      g'.resources.map fun r ↦ r.encoded.toList) {r' : Resource} (hr' : r' ∈ g'.resources) :
    ∃ r ∈ g.resources, r.encoded.toList = r'.encoded.toList ∧ r.id = r'.id := by
  have hmem := List.mem_map_of_mem (f := fun r ↦ r.encoded.toList) hr'
  rw [← h] at hmem
  obtain ⟨r, hr, he⟩ := List.mem_map.1 hmem
  have hid := (hmade r hr).id_eq hv ((hmade' r' hr').clean_id hv')
    (he.trans (Resource.toList_encoded r'))
  exact ⟨r, hr, he, hid⟩

theorem tame_of_stream_eq (hv : spec.Valid) (hv' : spec'.Valid) (ht : Tame spec)
    (hb : build spec = .ok g) (hb' : build spec' = .ok g') (hs : g.stream = g'.stream) :
    Tame spec' := by
  obtain ⟨hworkload, hencoded⟩ := encoded_eq_of_stream_eq hv hv' ht hb hb' hs
  obtain ⟨-, hw, hmade, -, -⟩ := of_build_eq_ok hb
  obtain ⟨-, hw', hmade', hmachine', hvolume'⟩ := of_build_eq_ok hb'
  obtain ⟨hspace, hname⟩ := qualifiedName_inj hv hv' (hw.symm.trans (hworkload.trans hw'))
  constructor
  · obtain ⟨r, hr, he, hid⟩ := exists_of_encoded_eq hv hv' hmade hmade' hencoded hmachine'
    obtain ⟨i, rfl⟩ := (hmade r hr).eq_computeNode
      ((hmade r hr).kind_eq hid (hmade' _ hmachine').head_id)
    obtain rfl := computeId_inj.1 hid
    rw [toList_encoded_computeNode, toList_encoded_computeNode, hname, hspace] at he
    have he := List.append_cancel_left (List.append_cancel_right he)
    exact he ▸ ht.machine
  · intro hp
    have hr' := hvolume' hp
    obtain ⟨r, hr, he, hid⟩ := exists_of_encoded_eq hv hv' hmade hmade' hencoded hr'
    obtain ⟨i, rfl, hp⟩ := (hmade r hr).eq_volume
      ((hmade r hr).kind_eq hid (hmade' _ hr').head_id)
    obtain rfl := volumeId_inj.1 hid
    rw [toList_encoded_volume, toList_encoded_volume, hname] at he
    have he := List.append_cancel_left (List.append_cancel_right he)
    exact he ▸ ht.storage hp

/-- The stream of a graph without separators in its texts is that of no other graph that is built
from a document, whatever texts this one has. -/
theorem eq_of_stream_eq (hv : spec.Valid) (hv' : spec'.Valid) (ht : Tame spec)
    (hb : build spec = .ok g) (hb' : build spec' = .ok g') (hs : g.stream = g'.stream) :
    g = g' := by
  have ht' := tame_of_stream_eq hv hv' ht hb hb' hs
  have hshown :=
    (stream_eq_iff_of_plain (plain_of_tame hv ht hb) (plain_of_tame hv' ht' hb')).1 hs
  obtain ⟨-, -, hmade, -, -⟩ := of_build_eq_ok hb
  obtain ⟨-, -, hmade', -, -⟩ := of_build_eq_ok hb'
  have hworkload : g.workload = g'.workload := congrArg Prod.fst hshown
  have hresources : g.resources = g'.resources :=
    Text.eq_of_map_eq (fun r hr r' hr' ↦
      Resource.eq_of_shown_eq (hmade r hr).typed (hmade' r' hr').typed) (congrArg Prod.snd hshown)
  cases g
  cases g'
  congr

end Streams

end Multicloud.ResourceGraph

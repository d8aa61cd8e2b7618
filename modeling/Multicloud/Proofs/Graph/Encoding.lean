import Multicloud.Proofs.Digest
import Multicloud.Proofs.Graph.Acceptance
import Multicloud.Proofs.Text.Separated

namespace Multicloud

namespace Kind

theorem name_inj {k k' : Kind} (h : k.name = k'.name) : k = k' := by
  have := ofName?_name k
  rw [h, ofName?_name] at this
  exact (Option.some.inj this).symm

theorem not_mem_name {c : Char} (hc : c = '|' ∨ c = '\x00') (k : Kind) : c ∉ k.name.toList := by
  rcases hc with rfl | rfl <;> cases k <;> decide

end Kind

namespace Resource

/-- What the digest of a graph shows of a resource: it has the texts of the values, not their
types. -/
def shown (r : Resource) : String × Kind × List (String × String) × List String :=
  (r.id, r.kind, r.properties.toList.map fun (k, v) ↦ (k, v.display), r.dependsOn.toList)

/-- No text of the resource holds a character that ends such a text in the encoding. -/
structure Plain (r : Resource) : Prop where
  id : ∀ c ∈ ['|', '\x00'], c ∉ r.id.toList
  name : ∀ e ∈ r.properties.toList, ∀ c ∈ ['=', ';', '\x00'], c ∉ e.1.toList
  value : ∀ e ∈ r.properties.toList, ∀ c ∈ [';', '\x00'], c ∉ e.2.display.toList
  dependency_ne : ∀ d ∈ r.dependsOn, d ≠ ""
  dependency : ∀ d ∈ r.dependsOn, ∀ c ∈ [',', '|', '\x00'], c ∉ d.toList

def entryChars (e : String × String) : List Char := e.1.toList ++ '=' :: e.2.toList

def propertyChars (entries : List (String × String)) : List Char :=
  [';'].intercalate (entries.map entryChars)

def dependencyChars (deps : List String) : List Char := [','].intercalate (deps.map String.toList)

theorem toList_encoded (r : Resource) :
    r.encoded.toList = r.id.toList ++ '|' :: (r.kind.name.toList ++ '|' ::
      (propertyChars r.shown.2.2.1 ++ '|' :: dependencyChars r.shown.2.2.2)) := by
  simp [encoded, shown, propertyChars, dependencyChars, entryChars, Function.comp_def]

theorem entryChars_inj {e e' : String × String} (he : '=' ∉ e.1.toList) (he' : '=' ∉ e'.1.toList)
    (h : entryChars e = entryChars e') : e = e' := by
  obtain ⟨h₁, h₂⟩ := Text.append_cons_inj he he' h
  exact Prod.ext (String.toList_inj.1 h₁) (String.toList_inj.1 h₂)

theorem propertyChars_inj {l l' : List (String × String)}
    (hl : ∀ e ∈ l, '=' ∉ e.1.toList ∧ ';' ∉ entryChars e)
    (hl' : ∀ e ∈ l', '=' ∉ e.1.toList ∧ ';' ∉ entryChars e)
    (h : propertyChars l = propertyChars l') : l = l' := by
  have hparts : l.map entryChars = l'.map entryChars := by
    refine Text.intercalate_inj ?_ ?_ h
    · simp only [List.mem_map]
      rintro _ ⟨e, he, rfl⟩
      exact ⟨by simp [entryChars], (hl e he).2⟩
    · simp only [List.mem_map]
      rintro _ ⟨e, he, rfl⟩
      exact ⟨by simp [entryChars], (hl' e he).2⟩
  exact Text.eq_of_map_eq (fun e he e' he' ↦ entryChars_inj (hl e he).1 (hl' e' he').1) hparts

theorem dependencyChars_inj {l l' : List String} (hl : ∀ d ∈ l, d ≠ "" ∧ ',' ∉ d.toList)
    (hl' : ∀ d ∈ l', d ≠ "" ∧ ',' ∉ d.toList) (h : dependencyChars l = dependencyChars l') :
    l = l' := by
  have hparts : l.map String.toList = l'.map String.toList := by
    refine Text.intercalate_inj ?_ ?_ h
    · simp only [List.mem_map]
      rintro _ ⟨d, hd, rfl⟩
      exact ⟨by simpa using (hl d hd).1, (hl d hd).2⟩
    · simp only [List.mem_map]
      rintro _ ⟨d, hd, rfl⟩
      exact ⟨by simpa using (hl' d hd).1, (hl' d hd).2⟩
  exact Text.eq_of_map_eq (fun _ _ _ _ ↦ String.toList_inj.1) hparts

variable {r r' : Resource}

theorem Plain.entry (h : r.Plain) :
    ∀ e ∈ r.shown.2.2.1, '=' ∉ e.1.toList ∧ ';' ∉ entryChars e := by
  simp only [shown, List.mem_map]
  rintro _ ⟨e, he, rfl⟩
  have hname := h.name e he
  have hvalue := h.value e he
  simp only [List.forall_mem_cons] at hname hvalue
  exact ⟨hname.1, by simp [entryChars, hname.2.1, hvalue.1]⟩

theorem Plain.not_mem_dependencyChars (h : r.Plain) {c : Char} (hc : c = '|' ∨ c = '\x00') :
    c ∉ dependencyChars r.shown.2.2.2 := by
  refine Text.not_mem_intercalate (by rcases hc with rfl | rfl <;> decide) ?_
  simp only [shown, List.mem_map, Std.ExtTreeSet.mem_toList]
  rintro _ ⟨d, hd, rfl⟩
  exact h.dependency d hd c (by simp [hc])

theorem encoded_inj (h : r.Plain) (h' : r'.Plain) (he : r.encoded = r'.encoded) :
    r.shown = r'.shown := by
  have he := congrArg String.toList he
  rw [toList_encoded, toList_encoded] at he
  obtain ⟨hid, he⟩ := Text.append_cons_inj (h.id _ (by simp)) (h'.id _ (by simp)) he
  obtain ⟨hkind, he⟩ := Text.append_cons_inj (Kind.not_mem_name (.inl rfl) _)
    (Kind.not_mem_name (.inl rfl) _) he
  obtain ⟨hproperties, hdeps⟩ := Text.append_cons_inj_last
    (h.not_mem_dependencyChars (.inl rfl)) (h'.not_mem_dependencyChars (.inl rfl)) he
  have hd (s : Resource) (hs : s.Plain) : ∀ d ∈ s.shown.2.2.2, d ≠ "" ∧ ',' ∉ d.toList := by
    intro d hd
    have hd := Std.ExtTreeSet.mem_toList.1 hd
    exact ⟨hs.dependency_ne d hd, hs.dependency d hd _ (by simp)⟩
  refine Prod.ext (String.toList_inj.1 hid) (Prod.ext ?_ (Prod.ext ?_ ?_))
  · exact Kind.name_inj (String.toList_inj.1 hkind)
  · exact propertyChars_inj h.entry h'.entry hproperties
  · exact dependencyChars_inj (hd r h) (hd r' h') hdeps

theorem encoded_congr (h : r.shown = r'.shown) : r.encoded = r'.encoded := by
  have hid : r.id = r'.id := congrArg Prod.fst h
  have hkind : r.kind = r'.kind := congrArg (·.2.1) h
  rw [← String.toList_inj, toList_encoded, toList_encoded, h, hid, hkind]

theorem Plain.not_mem_encoded (h : r.Plain) : '\x00' ∉ r.encoded.toList := by
  have hproperties : '\x00' ∉ propertyChars r.shown.2.2.1 := by
    refine Text.not_mem_intercalate (by decide) ?_
    simp only [shown, List.map_map, List.mem_map, Function.comp_apply]
    rintro _ ⟨e, he, rfl⟩
    have hname := h.name e he
    have hvalue := h.value e he
    simp only [List.forall_mem_cons] at hname hvalue
    simp [entryChars, hname, hvalue]
  rw [toList_encoded]
  simp [h.id, Kind.not_mem_name, hproperties, h.not_mem_dependencyChars]

end Resource

namespace ResourceGraph

variable {g g' : ResourceGraph}

def stream (g : ResourceGraph) : ByteArray := (Digest.joined g.encoded).toUTF8

theorem hash_eq (digest : Digester) (g : ResourceGraph) : g.hash digest = digest g.stream := rfl

/-- The text that is digested for a graph, cut at NUL. -/
def lines (g : ResourceGraph) : List (List Char) :=
  g.encoded.flatMap fun s ↦ Name.splitAt '\x00' s.toList

def shown (g : ResourceGraph) :
    String × List (String × Kind × List (String × String) × List String) :=
  (g.workload, g.resources.map Resource.shown)

structure Plain (g : ResourceGraph) : Prop where
  workload : '\x00' ∉ g.workload.toList
  resource : ∀ r ∈ g.resources, r.Plain

theorem stream_inj : g.stream = g'.stream ↔
    (g.encoded.map String.toList).flatMap (· ++ ['\x00']) =
      (g'.encoded.map String.toList).flatMap (· ++ ['\x00']) := Digest.toUTF8_joined_inj

theorem flatMap_lines (g : ResourceGraph) :
    g.lines.flatMap (· ++ ['\x00']) = (g.encoded.map String.toList).flatMap (· ++ ['\x00']) := by
  rw [lines, List.flatMap_assoc, List.flatMap_map]
  exact List.flatMap_congr fun s _ ↦ Text.flatMap_splitAt '\x00' s.toList

theorem not_mem_lines (g : ResourceGraph) : ∀ line ∈ g.lines, '\x00' ∉ line := by
  intro line hline
  obtain ⟨s, -, hline⟩ := List.mem_flatMap.1 hline
  exact Text.not_mem_splitAt _ _ line hline

theorem stream_eq_iff_lines_eq : g.stream = g'.stream ↔ g.lines = g'.lines := by
  rw [stream_inj, ← flatMap_lines, ← flatMap_lines]
  constructor
  · intro h
    exact Text.flatMap_terminated_inj g.not_mem_lines g'.not_mem_lines h
  · intro h
    rw [h]

theorem Plain.not_mem_encoded (h : g.Plain) :
    ∀ s ∈ g.encoded.map String.toList, '\x00' ∉ s := by
  simp only [encoded, List.map_cons, List.map_map, List.forall_mem_cons, List.mem_map]
  refine ⟨by simp [h.workload], ?_⟩
  rintro _ ⟨r, hr, rfl⟩
  exact (h.resource r hr).not_mem_encoded

theorem Plain.lines_eq (h : g.Plain) : g.lines = g.encoded.map String.toList := by
  rw [lines, List.map_eq_flatMap]
  exact List.flatMap_congr fun s hs ↦
    Text.splitAt_of_not_mem (h.not_mem_encoded _ (List.mem_map_of_mem hs))

theorem shown_eq_of_encoded_eq (h : g.Plain) (h' : g'.Plain) (he : g.encoded = g'.encoded) :
    g.shown = g'.shown := by
  obtain ⟨hworkload, hresources⟩ := List.cons.inj he
  refine Prod.ext (?_ : g.workload = g'.workload) ?_
  · simpa [← String.toList_inj] using hworkload
  · exact Text.map_congr_of_map_eq
      (fun r hr r' hr' ↦ Resource.encoded_inj (h.resource r hr) (h'.resource r' hr')) hresources

theorem encoded_congr (h : g.shown = g'.shown) : g.encoded = g'.encoded := by
  have hworkload : g.workload = g'.workload := congrArg Prod.fst h
  have hresources : g.resources.map Resource.shown = g'.resources.map Resource.shown :=
    congrArg Prod.snd h
  rw [encoded, encoded, hworkload,
    Text.map_congr_of_map_eq (fun _ _ _ _ ↦ Resource.encoded_congr) hresources]

theorem stream_eq_iff_of_plain (h : g.Plain) (h' : g'.Plain) :
    g.stream = g'.stream ↔ g.shown = g'.shown := by
  rw [stream_eq_iff_lines_eq, h.lines_eq, h'.lines_eq]
  constructor
  · intro he
    exact shown_eq_of_encoded_eq h h' (Text.eq_of_map_eq (fun _ _ _ _ ↦ String.toList_inj.1) he)
  · intro he
    rw [encoded_congr he]

theorem accepted_nil (w : String) : Accepted ⟨w, []⟩ := ⟨w, [], rfl⟩

/-- The workload takes in the resources: the stream of any of them is also that of none. -/
theorem stream_swallowed (g : ResourceGraph) :
    stream ⟨String.ofList (g.workload.toList ++
      (g.resources.map fun r ↦ r.encoded.toList).flatMap ('\x00' :: ·)), []⟩ = g.stream := by
  rw [stream_inj]
  simp only [encoded, List.map_nil, List.map_cons, Text.flatMap_terminated_cons]
  simp [List.flatMap_map]

/-- Two graphs share a stream when their lines are the same, and only then. Without separators in
their texts this is when they show the same; but no graph with a resource has its stream for
itself. -/
theorem stream_eq_iff (g g' : ResourceGraph) :
    (g.stream = g'.stream ↔ g.lines = g'.lines) ∧
      (g.Plain → g'.Plain → (g.stream = g'.stream ↔ g.shown = g'.shown)) ∧
      (g.resources ≠ [] → ∃ g₁ : ResourceGraph, g₁.Accepted ∧ g₁ ≠ g ∧ g₁.stream = g.stream) := by
  refine ⟨stream_eq_iff_lines_eq, stream_eq_iff_of_plain, fun hne ↦ ?_⟩
  refine ⟨_, accepted_nil _, fun he ↦ hne ?_, stream_swallowed g⟩
  rw [← he]

theorem accepted_singleton (w : String) {r : Resource} (hr : r.dependsOn = ∅) :
    Accepted ⟨w, [r]⟩ := by
  have hdeps : ∀ r' ∈ [r], ∀ dep, dep ∉ r'.dependsOn := by simp [hr]
  have hresolves : Resolves [r] := fun r' hr' dep hdep ↦ absurd hdep (hdeps r' hr' dep)
  have hacyclic : Acyclic [r] := by
    intro id hw
    obtain ⟨dep, ⟨r', hr', -, hdep⟩, -⟩ := Relation.TransGen.head'_iff.1 hw
    exact hdeps r' hr' dep hdep
  obtain ⟨-, g, hg⟩ :=
    (ofResources_of_resolves w (by simp) hresolves).resolve_right fun h ↦ h.1 hacyclic
  obtain ⟨hw, -, -, -, hperm, -⟩ := of_ofResources_eq_ok hg
  have he : g = ⟨w, [r]⟩ := by
    cases g
    cases hw
    cases List.perm_singleton.1 hperm
    rfl
  exact ⟨w, [r], he ▸ hg⟩

def oneVolume (value : Property) : ResourceGraph where
  workload := "default/t"
  resources := [{ id := "a", kind := .volume, properties := .of [("n", value)], dependsOn := ∅ }]

/-- A number and its numeral have one stream. -/
theorem stream_not_injective :
    ¬ ∀ g g' : ResourceGraph, g.Accepted → g'.Accepted → g.stream = g'.stream → g = g' := by
  intro h
  have he := h (oneVolume (.int 3)) (oneVolume (.text "3")) (accepted_singleton _ rfl)
    (accepted_singleton _ rfl) (by decide)
  exact absurd he (by decide)

end ResourceGraph

end Multicloud

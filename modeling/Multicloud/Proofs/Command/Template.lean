import Multicloud.Command.Run
import Multicloud.Proofs.Workload.Schema
import Multicloud.Proofs.Yaml.Layout

namespace Multicloud

open Yaml (Layout Scalar Value)

namespace Yaml.Scalar

variable {c x : Char} {s rest : List Char}

section Letter

variable (hc : 'a' ≤ c ∧ c ≤ 'z')

include hc

theorem ne_of_letter (hx : x.toNat < 'a'.toNat) : c ≠ x := by
  rintro rfl
  have hlow : 'a'.toNat ≤ c.toNat := hc.1
  exact absurd hx (Nat.not_lt.2 hlow)

theorem cons_ne_of_letter (hx : x.toNat < 'a'.toNat) : c :: s ≠ x :: rest :=
  fun h ↦ ne_of_letter hc hx (List.cons.inj h).1

theorem isDigit_letter : c.isDigit = false := by
  have hlow : 'a'.toNat ≤ c.toNat := hc.1
  simp only [Char.isDigit, Bool.and_eq_false_iff, decide_eq_false_iff_not, UInt32.le_iff_toNat_le,
    ge_iff_le]
  exact .inr fun h ↦ absurd (Nat.le_trans hlow h) (by decide)

theorem digit?_letter : Text.digit? 10 c = none := by
  have hlow : 'a'.toNat ≤ c.toNat := hc.1
  have hdigit : ¬ ('0' ≤ c ∧ c ≤ '9') := by
    rintro ⟨-, h⟩
    have h : c.toNat ≤ '9'.toNat := h
    exact absurd (Nat.le_trans hlow h) (by decide)
  rw [Text.digit?, if_neg hdigit, if_pos hc]
  exact if_neg (by omega)

theorem readNat_letter : Text.readNat 10 (c :: s) = none := by
  rw [Text.readNat, Text.digits?, List.mapM_cons, digit?_letter hc]
  rfl

theorem magnitude?_letter : magnitude? (c :: s) = none := by
  unfold magnitude?
  split
  · next h => exact absurd h (cons_ne_of_letter hc (by decide))
  · next h => exact absurd h (cons_ne_of_letter hc (by decide))
  · next h => exact absurd h (cons_ne_of_letter hc (by decide))
  · rw [readNat_letter hc, ite_self]

theorem integer?_letter : integer? (c :: s) = none := by
  rw [integer?.eq_3, magnitude?_letter hc]
  · rfl
  · exact fun rest h ↦ cons_ne_of_letter hc (by decide) h
  · exact fun rest h ↦ cons_ne_of_letter hc (by decide) h

theorem float?_letter : float? (c :: s) = none := by
  have hunsigned : Binary64.ofUnsigned? false (c :: s) = none := by
    have hpoint : c ≠ '.' := ne_of_letter hc (by decide)
    simp [Binary64.ofUnsigned?, isDigit_letter hc, hpoint, Text.readNat]
  have hinfinity : isInfinity (c :: s) = false := by
    simp [isInfinity, ne_of_letter hc (show '.'.toNat < 'a'.toNat by decide)]
  unfold float?
  rw [if_neg]
  · split
    · next h => exact absurd h (cons_ne_of_letter hc (by decide))
    · next h => exact absurd h (cons_ne_of_letter hc (by decide))
    · refine (if_neg (by rw [hinfinity]; decide)).trans ?_
      exact congrArg (Option.filter Binary64.isFinite) hunsigned
  · rintro (h | h | h) <;> exact cons_ne_of_letter hc (by decide) h

theorem zeroLed_letter : zeroLed (unsigned (c :: s)) = false := by
  rw [unsigned.eq_3]
  · unfold zeroLed
    split
    · next h => exact absurd h (cons_ne_of_letter hc (by decide))
    · rfl
  · exact fun rest h ↦ cons_ne_of_letter hc (by decide) h
  · exact fun rest h ↦ cons_ne_of_letter hc (by decide) h

theorem ofPlain_letter (hnull : isNull (c :: s) = false) (hbool : bool? (c :: s) = none) :
    ofPlain (c :: s) = .ok (.text (c :: s)) := by
  rw [ofPlain, hnull, hbool, integer?_letter hc]
  simp [ofFloat, zeroLed_letter hc, float?_letter hc]

end Letter

end Yaml.Scalar

namespace Command

def layout (names : List (List Char)) : Layout :=
  .word "apiVersion".toList "infrastructure.nebulaforge.io/v1".toList <|
  .word "kind".toList "WorkloadCluster".toList <|
  .block "metadata".toList
    (.word "name".toList "primary-web".toList <|
      .word "namespace".toList "default".toList .done) <|
  .block "spec".toList
    (.block "compute".toList
      (.word "nodes".toList "3".toList <|
        .word "instanceType".toList "medium-ha".toList .done) <|
    .block "networking".toList
      (.word "topology".toList "mesh".toList <|
        .block "ingress".toList (.list "domains".toList ["example.com".toList] .done) .done) <|
    .block "storage".toList
      (.word "persistent".toList "true".toList <|
        .word "iopsClass".toList "standard".toList .done) <|
    .list "targets".toList names .done)
    .done

theorem toList_textOf (lines : List String) :
    (Report.textOf lines).toList = lines.flatMap fun line ↦ line.toList ++ ['\n'] := by
  rw [Report.textOf, String.toList_join, List.flatMap_map]
  simp

theorem text_layout (names : List (List Char)) :
    (layout names).text = (workloadTemplate.flatMap fun line ↦ line.toList ++ ['\n']) ++
      "  targets: [".toList ++ [',', ' '].intercalate names ++ "]\n".toList := by
  have hlines : (layout names).lines 0 =
      ((layout []).lines 0).dropLast ++ [⟨2, "targets".toList, .list names⟩] := rfl
  have hfirst : Yaml.textOfLines ((layout []).lines 0).dropLast =
      workloadTemplate.flatMap fun line ↦ line.toList ++ ['\n'] := by
    decide +kernel
  rw [Layout.text, hlines, Yaml.textOfLines, List.flatMap_append, ← Yaml.textOfLines, hfirst]
  simp [Yaml.Line.text, Yaml.Inline.text]

def seeded (targets : List Provider) : List Provider :=
  if targets.isEmpty then [Shipped.aws, Shipped.gcp] else targets

theorem toList_workloadText (targets : List Provider) :
    (workloadText targets).toList = (layout ((seeded targets).map (·.name.toList))).text := by
  have hnames : (if targets.isEmpty then ["aws", "gcp"] else providerNames targets) =
      providerNames (seeded targets) := by
    unfold seeded
    split <;> rfl
  rw [workloadText, hnames, text_layout, toList_textOf]
  simp only [List.flatMap_append, List.flatMap_singleton, String.toList_append, commas,
    String.toList_intercalate, providerNames, List.map_map, List.append_assoc]
  rfl

section Names

/-- What a name is read as that is not quoted, where that is no text. -/
def unquoted (name : String) : Option Value :=
  if name = "null" then some .null
  else if name = "true" then some (.bool true)
  else if name = "false" then some (.bool false)
  else none

variable (p : Provider)

theorem exists_name : ∃ c s, p.name.toList = c :: s ∧ ('a' ≤ c ∧ c ≤ 'z') ∧
    s.all Name.isLabelChar = true := by
  have hvalid := p.valid
  cases hname : p.name.toList with
  | nil =>
    rw [hname] at hvalid
    cases hvalid
  | cons c s =>
    rw [hname] at hvalid
    simp only [Name.isProvider, Bool.and_eq_true, decide_eq_true_eq] at hvalid
    exact ⟨c, s, rfl, hvalid.1.1, hvalid.2⟩

theorem isPlainChar_of_isLabelChar {c : Char} (hc : Name.isLabelChar c = true) :
    Yaml.isPlainChar c = true := by
  simp only [Name.isLabelChar, Bool.or_eq_true, Bool.and_eq_true, decide_eq_true_eq] at hc
  simp only [Yaml.isPlainChar, Bool.or_eq_true, decide_eq_true_eq]
  rcases hc with (hletter | hdigit) | hhyphen
  · exact .inl (.inl (.inl (Yaml.isAlphanum_iff.2 (.inr (.inl hletter)))))
  · exact .inl (.inl (.inl (Yaml.isAlphanum_iff.2 (.inr (.inr hdigit)))))
  · exact .inl (.inl (.inr hhyphen))

theorem isPlainWord_name : Yaml.isPlainWord p.name.toList = true := by
  obtain ⟨c, s, hname, hc, hs⟩ := exists_name p
  have hletter : c.isAlphanum = true := Yaml.isAlphanum_iff.2 (.inr (.inl hc))
  have hrest : s.all Yaml.isPlainChar = true := by
    rw [List.all_eq_true] at hs ⊢
    exact fun x hx ↦ isPlainChar_of_isLabelChar (hs x hx)
  rw [hname, Yaml.isPlainWord, hletter, hrest]
  rfl

theorem ofPlain_name : ∃ s, Scalar.ofPlain p.name.toList = .ok s ∧
    Value.ofScalar s = (unquoted p.name).getD (.text p.name) := by
  obtain ⟨c, s, hname, hc, -⟩ := exists_name p
  have hother {name : String}
      (h : (name.toList.head?.all fun x ↦ !decide ('a' ≤ x ∧ x ≤ 'z')) = true) :
      p.name ≠ name := by
    rintro rfl
    rw [hname] at h
    simp [hc] at h
  unfold unquoted
  split
  · next h => exact ⟨.null, by rw [h]; rfl, rfl⟩
  split
  · next h => exact ⟨.bool true, by rw [h]; rfl, rfl⟩
  split
  · next h => exact ⟨.bool false, by rw [h]; rfl, rfl⟩
  next hnull htrue hfalse =>
  have hisNull : Scalar.isNull p.name.toList = false := by
    simp only [Scalar.isNull, Bool.or_eq_false_iff, decide_eq_false_iff_not, String.toList_inj]
    exact ⟨⟨⟨hnull, hother rfl⟩, hother rfl⟩, hother rfl⟩
  have hbool : Scalar.bool? p.name.toList = none := by
    simp only [Scalar.bool?, String.toList_inj]
    rw [if_neg, if_neg]
    · exact fun h ↦ h.elim hfalse fun h ↦ h.elim (hother rfl) (hother rfl)
    · exact fun h ↦ h.elim htrue fun h ↦ h.elim (hother rfl) (hother rfl)
  rw [hname] at hisNull hbool ⊢
  refine ⟨_, Scalar.ofPlain_letter hc hisNull hbool, ?_⟩
  rw [← hname]
  simp [Value.ofScalar]

theorem meaning_name : Layout.meaning p.name.toList = (unquoted p.name).getD (.text p.name) := by
  obtain ⟨s, hs, hvalue⟩ := ofPlain_name p
  rw [Layout.meaning, hs]
  exact hvalue

theorem isRead_name : Layout.isRead p.name.toList = true := by
  obtain ⟨s, hs, -⟩ := ofPlain_name p
  rw [Layout.isRead, hs]
  rfl

end Names

section Layout

variable {names : List (List Char)}

theorem isPlain_layout (h : names.all Yaml.isPlainWord = true) : (layout names).isPlain = true := by
  simp only [layout, Layout.isPlain, Layout.isDone, h]
  decide +kernel

theorem isSound_layout (h : names.all Layout.isRead = true) : (layout names).isSound = true := by
  simp only [layout, Layout.isSound, Layout.keys, h]
  decide +kernel

end Layout

open WorkloadSpec

section Fields

def metadataFields : Fields :=
  [(.text "name", .text "primary-web"), (.text "namespace", .text "default")]

def computeFields : Fields :=
  [(.text "nodes", .int 3), (.text "instanceType", .text "medium-ha")]

def ingressFields : Fields := [(.text "domains", .list [.text "example.com"])]

def networkingFields : Fields :=
  [(.text "topology", .text "mesh"), (.text "ingress", .mapping ingressFields)]

def storageFields : Fields :=
  [(.text "persistent", .bool true), (.text "iopsClass", .text "standard")]

def specFields (targets : List Value) : Fields :=
  [(.text "compute", .mapping computeFields), (.text "networking", .mapping networkingFields),
    (.text "storage", .mapping storageFields), (.text "targets", .list targets)]

def templateFields (targets : List Value) : Fields :=
  [(.text "apiVersion", .text apiVersion), (.text "kind", .text documentKind),
    (.text "metadata", .mapping metadataFields), (.text "spec", .mapping (specFields targets))]

def templateTexts : List String :=
  ["apiVersion", apiVersion, "kind", documentKind, "metadata", "name", "primary-web", "namespace",
    "default", "spec", "compute", "nodes", "instanceType", "medium-ha", "networking", "topology",
    "mesh", "ingress", "domains", "example.com", "storage", "persistent", "iopsClass", "standard",
    "targets"]

theorem meaning_text : ∀ w ∈ templateTexts, Layout.meaning w.toList = .text w := by
  have hall : ∀ w ∈ templateTexts,
      (Scalar.ofPlain w.toList).toOption = some (.text w.toList) := by decide +kernel
  intro w hw
  rw [Layout.meaning, toOption_eq_some.1 (hall w hw)]
  simp [Value.ofScalar]

theorem values_layout (names : List (List Char)) :
    (layout names).values = templateFields (names.map Layout.meaning) := by
  have hthree : Layout.meaning "3".toList = .int 3 := rfl
  have htrue : Layout.meaning "true".toList = .bool true := rfl
  have htext := meaning_text
  simp only [templateTexts, apiVersion, documentKind, List.forall_mem_cons] at htext
  simp only [layout, Layout.values, List.map_cons, List.map_nil, htext, hthree, htrue]
  rfl

end Fields

def templateSpec (targets : List Provider) : WorkloadSpec where
  name := "primary-web"
  space := "default"
  compute := ⟨3, "medium-ha"⟩
  networking := ⟨.mesh, ["example.com"]⟩
  storage := ⟨true, "standard"⟩
  targets

theorem networkingOf_template : networkingOf networkingFields = .ok ⟨.mesh, ["example.com"]⟩ := by
  have hdomain : IsDomain "example.com" "example.com" :=
    ⟨⟨"example.com".toList, Text.trims_iff.2 (by decide), by decide⟩,
      Name.isDomain_iff.1 (by decide)⟩
  have hdomains : HasList IsDomain ingressFields "domains" ["example.com"] :=
    .items rfl (.cons ⟨_, rfl, hdomain⟩ .nil)
  exact networkingOf_eq_ok_iff.2 ⟨⟨"mesh", rfl, .head _⟩, .mapping rfl hdomains⟩

theorem ofFields_template (targets : List Value) : ofFields (templateFields targets) =
    (items (specFields targets) "spec" "targets" targetOf).map
      fun named ↦ templateSpec (firsts named) := by
  have hversion : optionalText (templateFields targets) "" "apiVersion" = .ok (some apiVersion) :=
    optionalText_eq_some.2 rfl
  have hkind : optionalText (templateFields targets) "" "kind" = .ok (some documentKind) :=
    optionalText_eq_some.2 rfl
  have hmetadata : requiredMapping (templateFields targets) "" "metadata" = .ok metadataFields :=
    requiredMapping_eq_ok.2 rfl
  have hname : requiredText metadataFields "metadata" "name" = .ok "primary-web" :=
    requiredText_eq_ok.2 rfl
  have hspace : optionalText metadataFields "metadata" "namespace" = .ok (some "default") :=
    optionalText_eq_some.2 rfl
  have hspec : requiredMapping (templateFields targets) "" "spec" = .ok (specFields targets) :=
    requiredMapping_eq_ok.2 rfl
  have hcompute : requiredMapping (specFields targets) "spec" "compute" = .ok computeFields :=
    requiredMapping_eq_ok.2 rfl
  have hnetworking : requiredMapping (specFields targets) "spec" "networking" =
      .ok networkingFields := requiredMapping_eq_ok.2 rfl
  have hstorage : requiredMapping (specFields targets) "spec" "storage" = .ok storageFields :=
    requiredMapping_eq_ok.2 rfl
  have hversion' : expectValue "apiVersion" apiVersion (some apiVersion) = .ok () := rfl
  have hkind' : expectValue "kind" documentKind (some documentKind) = .ok () := rfl
  have hlabel : expectLabel "metadata.name" "primary-web" = .ok () := rfl
  have hspaceLabel : expectLabel "metadata.namespace" "default" = .ok () := rfl
  have hcompute' : computeOf computeFields = .ok ⟨3, "medium-ha"⟩ := rfl
  have hstorage' : storageOf storageFields = .ok ⟨true, "standard"⟩ := rfl
  simp only [ofFields, hversion, hversion', hkind, hkind', hmetadata, hname, hlabel, hspace,
    hspaceLabel, hspec, hcompute, hcompute', hnetworking, networkingOf_template, hstorage,
    hstorage', bind, Except.bind, Option.getD_some]
  rfl

section Loading

variable {targets early late : List Provider} {p : Provider} {v : Value}

theorem items_template (values : List Value) :
    items (specFields values) "spec" "targets" targetOf =
      values.zipIdx.mapM fun (v, i) ↦
        match v.text? with
        | some s => targetOf s!"spec.targets[{i}]" s
        | none => .error (.invalidType s!"spec.targets[{i}]" "a string" v.describe) := by
  have hlist : optional "a list" asList (specFields values) "spec" "targets" = .ok (some values) :=
    (optional_eq_some asList_eq_some nofun).2 rfl
  rw [items, hlist]
  rfl

theorem ofBytes_workloadText (targets : List Provider) :
    ofBytes (workloadText targets).toUTF8 =
      (items (specFields ((seeded targets).map fun p ↦ (unquoted p.name).getD (.text p.name)))
        "spec" "targets" targetOf).map fun named ↦ templateSpec (firsts named) := by
  let names := (seeded targets).map (·.name.toList)
  have htext : workloadText targets = String.ofList (layout names).text := by
    rw [← toList_workloadText, String.ofList_toList]
  have hplain : (layout names).isPlain = true :=
    isPlain_layout (by simp [names, isPlainWord_name])
  have hsound : (layout names).isSound = true := isSound_layout (by simp [names, isRead_name])
  have hmeanings : names.map Layout.meaning =
      (seeded targets).map fun p ↦ (unquoted p.name).getD (.text p.name) := by
    simp [names, meaning_name]
  have hread := Layout.ofBytes?_text hplain rfl hsound (show 4 < 128 by decide)
  rw [values_layout, hmeanings] at hread
  rw [htext, ofBytes, hread]
  exact ofFields_template _

theorem targetOf_name (path : String) (p : Provider) : targetOf path p.name = .ok p :=
  targetOf_eq_ok_iff.2 ⟨Name.isProvider_iff.1 p.valid, rfl⟩

theorem ofBytes_workloadText_ok (h : ∀ p ∈ seeded targets, unquoted p.name = none) :
    ofBytes (workloadText targets).toUTF8 = .ok (templateSpec (seeded targets).eraseDups) := by
  have hvalues : (seeded targets).map (fun p ↦ (unquoted p.name).getD (.text p.name)) =
      (seeded targets).map fun p ↦ .text p.name := by
    refine List.map_congr_left fun p hp ↦ ?_
    rw [h p hp]
    rfl
  have hnamed : HasList IsTarget (specFields ((seeded targets).map fun p ↦ .text p.name))
      "targets" (seeded targets) := by
    refine .items rfl (List.forall₂_map_left_iff.2 (List.forall₂_same.2 fun p _ ↦ ?_))
    exact ⟨p.name, rfl, Name.isProvider_iff.1 p.valid, rfl⟩
  rw [ofBytes_workloadText, hvalues, targets_eq_ok_iff.2 hnamed, ← firsts_eq_eraseDups]
  rfl

theorem ofBytes_workloadText_error (hsplit : seeded targets = early ++ p :: late)
    (hearly : ∀ q ∈ early, unquoted q.name = none) (hp : unquoted p.name = some v) :
    ofBytes (workloadText targets).toUTF8 =
      .error (.invalidType s!"spec.targets[{early.length}]" "a string" v.describe) := by
  have hnone : v.text? = none := by
    unfold unquoted at hp
    split at hp
    · cases hp
      rfl
    split at hp
    · cases hp
      rfl
    split at hp
    · cases hp
      rfl
    · cases hp
  rw [ofBytes_workloadText, items_template, map_eq_error, mapM_eq_error_iff, hsplit,
    List.map_append, List.zipIdx_append, List.map_cons, List.zipIdx_cons]
  refine ⟨_, _, _, rfl, ?_, ?_⟩
  · intro e he
    obtain ⟨value, i⟩ := e
    obtain ⟨q, hq, rfl⟩ := List.mem_map.1 (List.fst_mem_of_mem_zipIdx he)
    refine ⟨q, ?_⟩
    rw [hearly q hq]
    exact targetOf_name _ q
  · simp [hp, hnone]

end Loading

end Command

end Multicloud

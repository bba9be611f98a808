import TypeFinder.Proofs.Php.Renaming

/-! Letter case. A source in small letters declares what the source declares, in small letters. So the case in which
    open tags and keywords are written is of no account, and that of a name is only kept. -/

namespace TypeFinder.Php

/-- The text with small letters for its ASCII capitals. -/
def lowercase (s : String) : String := String.ofList (s.toList.map Char.toLower)

/-- The declaration with its name and its namespace in small letters. -/
def Declaration.lowercase (d : Declaration) : Declaration :=
  { d with name := Php.lowercase d.name, scope := d.scope.map Php.lowercase }

/-- The outline with all names in small letters. -/
def Outline.lowercase (o : Outline) : Outline :=
  ⟨o.namespaces.map Php.lowercase, o.declarations.map Declaration.lowercase⟩

/-! ### Two spellings of one text -/

section
variable {c : Char} {a b : String} {d e : Declaration} {o p : Outline}

theorem isAscii_toLower (hc : IsAscii c) : IsAscii c.toLower := by
  by_cases hupper : c.isUpper = true
  · by_contra hlower
    have halpha : c.toLower.isAlpha = true := by simp [Char.isAlpha, hupper]
    have hnone := isAlphanum_of_not_isAscii hlower
    rw [Char.isAlphanum, halpha] at hnone
    cases hnone
  · rwa [Char.toLower_eq_of_not_isUpper hupper]

theorem length_encode_toLower (s : List Char) : (encode (s.map Char.toLower)).length = (encode s).length := by
  have hchar (c : Char) : (encode [c.toLower]).length = (encode [c]).length := by
    by_cases hc : IsAscii c
    · rw [← length_octets, ← length_octets, octets_of_isAscii (isAscii_toLower hc), octets_of_isAscii hc]
      rfl
    · have hnone := isAlphanum_of_not_isAscii hc
      have hupper : ¬ c.isUpper = true := fun hupper => by simp [Char.isAlphanum, Char.isAlpha, hupper] at hnone
      rw [Char.toLower_eq_of_not_isUpper hupper]
  induction s with
  | nil => rfl
  | cons c s ih =>
    have hcons (c : Char) (s : List Char) : encode (c :: s) = encode [c] ++ encode s := encode_append [c] s
    rw [List.map_cons, hcons c.toLower, hcons c s, List.length_append, List.length_append, hchar, ih]

/-- A word of more bytes than the longest keyword declares nothing, so it need not be looked up among them. -/
theorem length_bytes_le_of_ofKeyword? {word : String} {kind : DeclarationKind}
    (h : DeclarationKind.ofKeyword? word = some kind) : (bytes word).length ≤ (bytes "interface").length := by
  have hword : Text.equalIgnoringCase word kind.keyword = true :=
    List.find?_some (p := fun k : DeclarationKind => Text.equalIgnoringCase word k.keyword) h
  have hlower : word.toList.map Char.toLower = kind.keyword.toList.map Char.toLower := beq_iff_eq.mp hword
  have hlength : (bytes word).length = (bytes kind.keyword).length := by
    rw [bytes_eq_encode, bytes_eq_encode, ← length_encode_toLower, hlower, length_encode_toLower]
  rw [hlength]
  cases kind <;> decide +kernel

theorem isSpelling_plain : IsSpelling id fun c => [c] := by
  intro c
  by_cases hc : IsAscii c
  · exact .ascii hc rfl
  · exact .beyond hc (List.cons_ne_nil c []) (by simpa using hc)

theorem isSpelling_toLower : IsSpelling id fun c => [c.toLower] := by
  intro c
  by_cases hc : IsAscii c
  · exact .ascii (isAscii_toLower hc) (Char.toLower_toLower_eq_toLower c)
  · exact .beyond hc (List.cons_ne_nil _ []) (by simpa using mt isAscii_of_toLower hc)

theorem flatMap_plain (s : List Char) : s.flatMap (fun c => [c]) = s := List.flatMap_singleton' s

theorem flatMap_toLower (s : List Char) : s.flatMap (fun c => [c.toLower]) = s.map Char.toLower :=
  List.map_eq_flatMap.symm

theorem Respelled.lowercase_eq {qs : List (Slice Char)} (h : Respelled qs (fun c => [c]) (fun c => [c.toLower]) a b) :
    lowercase a = b := by
  obtain ⟨q, -, rfl, rfl⟩ := h
  rw [lowercase, Slice.text, Slice.text, flatMap_plain, flatMap_toLower, String.toList_ofList]

/-! ### Outlines in small letters -/

theorem lowercase_append (a b : String) : lowercase (a ++ b) = lowercase a ++ lowercase b := by
  rw [lowercase, String.toList_append, List.map_append, String.ofList_append, lowercase, lowercase]

theorem lowercase_qualifiedName (scope : Option String) (a : String) :
    lowercase (qualifiedName scope a) = qualifiedName (scope.map lowercase) (lowercase a) := by
  cases scope with
  | none => rfl
  | some n =>
    have hsep : lowercase separator.toString = separator.toString := by decide +kernel
    rw [qualifiedName, lowercase_append, lowercase_append, hsep]
    rfl

variable {R : String → String → Prop} (hR : ∀ {a b}, R a b → Php.lowercase a = b)
include hR

theorem map_lowercase_eq_of_rel {x y : Option String} (h : Option.Rel R x y) : x.map lowercase = y := by
  cases h with
  | none => rfl
  | some h => exact congrArg some (hR h)

theorem Declaration.Like.lowercase_eq (h : Declaration.Like R d e) : d.lowercase = e := by
  obtain ⟨a, b, hab, hd, he⟩ := h.name
  have hscope := map_lowercase_eq_of_rel hR h.scope
  have hname : Php.lowercase d.name = e.name := by
    rw [hd, he, lowercase_qualifiedName, hscope, hR hab]
  rw [Declaration.lowercase, hname, hscope, h.kind, h.line]

theorem Outline.Like.lowercase_eq (h : Outline.Like R o p) : o.lowercase = p := by
  have hnamespaces : o.namespaces.map Php.lowercase = p.namespaces := by
    rw [← List.forall₂_eq_eq_eq, List.forall₂_map_left_iff]
    exact h.namespaces.imp fun _ _ => hR
  have hdeclarations : o.declarations.map Declaration.lowercase = p.declarations := by
    rw [← List.forall₂_eq_eq_eq, List.forall₂_map_left_iff]
    exact h.declarations.imp fun _ _ hd => hd.lowercase_eq hR
  rw [Outline.lowercase, hnamespaces, hdeclarations]

end

/-! ### Sources in small letters -/

section
variable {source : String}

theorem ofSource_lowercase_eq (hshift : ¬ ['<', '<', '<'] <:+: source.toList) :
    Outline.ofSource (lowercase source) = (Outline.ofSource source).lowercase := by
  obtain ⟨qs, -, hqs⟩ := exists_slices (w := source.toList) id .html 1 (by rwa [List.map_id])
  have hplain : tokens source = qs.filterMap (Slice.token? fun c => [c]) := by
    rw [← hqs _ isSpelling_plain, flatMap_plain]
    rfl
  have hlower : tokens (lowercase source) = qs.filterMap (Slice.token? fun c => [c.toLower]) := by
    rw [← hqs _ isSpelling_toLower, flatMap_toLower, tokens, pieces, lowercase, String.toList_ofList]
    rfl
  have hindistinct := indistinct_respelled isSpelling_plain isSpelling_toLower qs
  have hlike := ofTokens_like hindistinct (tokens_like _ _ qs)
  rw [← hplain, ← hlower] at hlike
  exact (hlike.lowercase_eq Respelled.lowercase_eq).symm

/-- A source without `<<<` declares in small letters what it declares. So sources that are the same but for the case
    of ASCII letters declare the same but for the case of ASCII letters. -/
theorem ofSource_lowercase (hshift : ¬ ['<', '<', '<'] <:+: source.toList) :
    Outline.ofSource (lowercase source) = (Outline.ofSource source).lowercase ∧
      ∀ other, lowercase other = lowercase source →
        (Outline.ofSource other).lowercase = (Outline.ofSource source).lowercase := by
  have hsource := ofSource_lowercase_eq hshift
  refine ⟨hsource, fun other hother => ?_⟩
  have hmap : other.toList.map Char.toLower = source.toList.map Char.toLower := String.ofList_injective hother
  have hinfix (s : List Char) : ['<', '<', '<'] <:+: s.map Char.toLower ↔ ['<', '<', '<'] <:+: s := by
    have h := isSpelling_toLower.infix_iff (w := s) (u := ['<', '<', '<']) (by simp [Fixed, IsAscii]) (by simp)
    rwa [flatMap_toLower, List.map_id] at h
  rw [← hsource, ← hother, ofSource_lowercase_eq]
  rwa [← hinfix, hmap, hinfix]

end

/-- Keywords and an open tag in capitals, and names in both. -/
theorem ofSource_lowercase_mixed :
    ¬ ['<', '<', '<'] <:+: "<?PHP NameSpace App; CLASS Mail Extends Base \x7b\x7d new Class \x7b\x7d;".toList ∧
      Outline.ofSource "<?php namespace app; class mail extends base \x7b\x7d new class \x7b\x7d;" =
        ⟨["app"], [⟨"app\\mail", some "app", .classType, 1⟩]⟩ := by
  have hshift :
      ¬ ['<', '<', '<'] <:+: "<?PHP NameSpace App; CLASS Mail Extends Base \x7b\x7d new Class \x7b\x7d;".toList := by
    decide +kernel
  refine ⟨hshift, ?_⟩
  have hlower : lowercase "<?PHP NameSpace App; CLASS Mail Extends Base \x7b\x7d new Class \x7b\x7d;" =
      "<?php namespace app; class mail extends base \x7b\x7d new class \x7b\x7d;" := by
    decide +kernel
  rw [← hlower, (ofSource_lowercase hshift).1]
  decide +kernel

end TypeFinder.Php

import TypeFinder.Proofs.Php.Pieces
import TypeFinder.Proofs.Php.Scoping

/-! Outlines are well formed. A name token may hold separators anywhere, so it is no qualified name by itself; but one
    without a separator is a single segment, and the namespace in front of it was tested. -/

namespace TypeFinder.Php

/-! ### Names -/

section
variable {a b : String} {s t : List Char} {fresh : Bool}

theorem isQualifiedFrom_append_separator :
    isQualifiedFrom fresh (s ++ separator :: t) = (isQualifiedFrom fresh s && isQualifiedFrom true t) := by
  induction s generalizing fresh with
  | nil => simp [isQualifiedFrom]
  | cons c s ih =>
    rw [List.cons_append, isQualifiedFrom, isQualifiedFrom]
    split <;> rw [ih, Bool.and_assoc]

/-- Two qualified names with a separator between them are one. -/
theorem isQualifiedName_append_separator :
    isQualifiedName (a ++ separator.toString ++ b) = (isQualifiedName a && isQualifiedName b) := by
  have htext : (a ++ separator.toString ++ b).toList = a.toList ++ separator :: b.toList := by
    simp [Char.toString]
  rw [isQualifiedName, htext, isQualifiedFrom_append_separator]
  rfl

theorem isQualifiedFrom_of_nameChars (h : ∀ c ∈ s, isNameChar c = true) : isQualifiedFrom false s = true := by
  induction s with
  | nil => rfl
  | cons c s ih =>
    obtain ⟨hc, hs⟩ := List.forall_mem_cons.mp h
    have hsep : c ≠ separator := by
      rintro rfl
      revert hc
      decide
    simp [isQualifiedFrom, hsep, hc, ih hs]

theorem forall_ne_separator (h : separator ∉ s) : ∀ c ∈ s.reverse, decide (c ≠ separator) = true := by
  intro c hc
  rw [decide_eq_true_eq]
  rintro rfl
  exact h (List.mem_reverse.mp hc)

theorem shortName_eq_self (h : separator ∉ a.toList) : shortName a = a := by
  rw [shortName, List.takeWhile_eq_self_iff.mpr (forall_ne_separator h), List.reverse_reverse, String.ofList_toList]

theorem shortName_append_separator (h : separator ∉ b.toList) :
    shortName (a ++ separator.toString ++ b) = b := by
  have htext : (a ++ separator.toString ++ b).toList.reverse = b.toList.reverse ++ separator :: a.toList.reverse := by
    simp [Char.toString]
  rw [shortName, htext, List.takeWhile_append_of_pos (forall_ne_separator h)]
  simp

end

/-! ### Tokens -/

section
variable {source : String} {t : Token} {s rest : List Char} {kind : Shape}

/-- A name token without a separator is one segment of a qualified name. -/
theorem Word.isQualifiedFrom (h : Word (.token .name) s rest) (hs : separator ∉ s) : isQualifiedFrom true s = true := by
  cases h with
  | @name c s _ hc hall _ =>
    simp only [List.mem_cons, not_or] at hs
    have hchars : ∀ d ∈ s, isNameChar d = true := by
      intro d hd
      have hsep : d ≠ separator := by
        rintro rfl
        exact hs.2 hd
      simpa [isQualifiedChar, hsep] using hall d hd
    simp [Php.isQualifiedFrom, Ne.symm hs.1, hc, isQualifiedFrom_of_nameChars hchars]
  | qualified => simp at hs

theorem Piece.shape_of_token? {p : Piece} (h : p.token? = some t) (hk : t.kind = .name) : p.shape = .token .name := by
  unfold Piece.token? at h
  split at h
  · cases h
  · rename_i kind hshape
    obtain rfl := Option.some.inj h
    rw [hshape, show kind = .name from hk]
  · obtain rfl := Option.some.inj h
    cases hk

theorem isQualifiedName_of_mem_tokens (h : t ∈ tokens source) (hk : t.kind = .name) (hs : separator ∉ t.text.toList) :
    isQualifiedName t.text = true := by
  obtain ⟨p, hp, ht⟩ := List.mem_filterMap.mp h
  obtain ⟨m, rest, hcuts⟩ := (pieces_piecesFrom .html 1 source.toList).cuts_of_mem hp
  have hw := (hcuts.word_of_token? ht).2
  rw [Piece.shape_of_token? ht hk] at hw
  have htext := (Piece.eq_of_token? ht).1
  rw [htext, String.toList_ofList] at hs
  rw [isQualifiedName, htext, String.toList_ofList]
  exact hw.isQualifiedFrom hs

/-- The lines of the tokens go down the source. -/
theorem pairwise_line_tokens (source : String) : (tokens source).Pairwise fun t u => t.line ≤ u.line := by
  refine List.Pairwise.filterMap _ ?_ (pieces_piecesFrom .html 1 source.toList).lines.1
  intro p q hpq t ht u hu
  rw [(Piece.eq_of_token? ht).2, (Piece.eq_of_token? hu).2]
  exact hpq

theorem line_of_mem_tokens (h : t ∈ tokens source) : 1 ≤ t.line ∧ t.line ≤ 1 + source.toList.count '\n' := by
  obtain ⟨p, hp, ht⟩ := List.mem_filterMap.mp h
  rw [(Piece.eq_of_token? ht).2]
  exact (pieces_piecesFrom .html 1 source.toList).lines.2 p hp

end

/-! ### What the pass collects -/

section
variable {ts : List Token} {j : Nat} {n : String} {d : Declaration}

theorem isQualifiedName_of_namespaceAt? (h : namespaceAt? ts j = some n) : isQualifiedName n = true := by
  rw [namespaceAt?_eq] at h
  obtain ⟨s, hs, hn⟩ := Option.bind_eq_some_iff.mp h
  obtain ⟨-, -, -, -, u, -, ⟨-, hq, rfl⟩ | ⟨-, rfl⟩⟩ := statement?_eq_some_iff.mp hs
  · cases hn
    exact hq
  · cases hn

/-- The namespace in effect was declared before. -/
theorem exists_namespaceAt?_of_current (h : (scopeBehind ts j).current = some n) :
    ∃ i < j, namespaceAt? ts i = some n := by
  induction j with
  | zero => cases h
  | succ j ih =>
    rw [scopeBehind] at h
    have earlier (h : (scopeBehind ts j).current = some n) : ∃ i < j + 1, namespaceAt? ts i = some n := by
      obtain ⟨i, hi, hn⟩ := ih h
      exact ⟨i, Nat.lt_succ_of_lt hi, hn⟩
    cases he : effectAt ts j with
    | none | openBrace | declare =>
      rw [he] at h
      exact earlier h
    | closeBrace =>
      rw [he, Scope.advance] at h
      split at h
      · cases h
      · exact earlier h
    | enter name braced =>
      rw [he] at h
      obtain rfl : name = some n := h
      exact ⟨j, Nat.lt_succ_self j, by rw [namespaceAt?, he]⟩

/-- A declaration is in the namespace in effect, and its name is the token behind the keyword. -/
structure Declares (ts : List Token) (j : Nat) (t u : Token) (d : Declaration) : Prop where
  keyword : ts[j]? = some t
  named : ts[j + 1]? = some u
  kind : u.kind = .name
  simple : separator ∉ u.text.toList
  notExtends : u.isKeyword "extends" = false
  notImplements : u.isKeyword "implements" = false
  scope : d.scope = (scopeBehind ts j).current
  name : d.name = qualifiedName d.scope u.text
  line : d.line = t.line

theorem exists_declares (h : declarationAt? ts j = some d) : ∃ t u, Declares ts j t u d := by
  unfold declarationAt? at h
  split at h
  · rename_i kind name he
    obtain ⟨t, ht, rfl⟩ := Option.map_eq_some_iff.mp h
    rw [effectAt_of_getElem? ht, effect_eq_declare_iff, declares?_eq_some_iff] at he
    obtain ⟨-, -, -, u, hu, hkind, hsep, hext, himp, -, rfl⟩ := he
    rw [List.head?_drop] at hu
    exact ⟨t, u, ht, hu, hkind, hsep, hext, himp, rfl, rfl, rfl⟩
  · cases h

namespace Declares
variable {t u : Token}

theorem shortName_eq (h : Declares ts j t u d) : d.shortName = u.text := by
  rw [Declaration.shortName, h.name]
  cases d.scope with
  | none => exact shortName_eq_self h.simple
  | some n => exact shortName_append_separator h.simple

theorem mem_keyword (h : Declares ts j t u d) : t ∈ ts := List.mem_of_getElem? h.keyword

theorem mem_named (h : Declares ts j t u d) : u ∈ ts := List.mem_of_getElem? h.named

theorem exists_namespaceAt? (h : Declares ts j t u d) (hn : d.scope = some n) : ∃ i < j, namespaceAt? ts i = some n :=
  exists_namespaceAt?_of_current (h.scope ▸ hn)

end Declares

end

/-! ### The outline -/

/-- The names in an outline are qualified names, each declaration is named by its namespace and a name of the source,
    and the declarations stand in the order of their lines. -/
structure Outline.IsWellFormed (source : String) (o : Outline) : Prop where
  namespaces : ∀ n ∈ o.namespaces, isQualifiedName n = true
  names : ∀ d ∈ o.declarations, isQualifiedName d.name = true
  short : ∀ d ∈ o.declarations, separator ∉ d.shortName.toList
  bare : ∀ d ∈ o.declarations, d.scope = none → d.name = d.shortName
  qualified : ∀ d ∈ o.declarations, ∀ n, d.scope = some n →
    d.name = n ++ separator.toString ++ d.shortName ∧ n ∈ o.namespaces
  named : ∀ d ∈ o.declarations, ∃ t ∈ tokens source, t.kind = .name ∧ t.text = d.shortName ∧
    t.isKeyword "extends" = false ∧ t.isKeyword "implements" = false
  ordered : o.declarations.Pairwise fun d e => d.line ≤ e.line
  lines : ∀ d ∈ o.declarations, 1 ≤ d.line ∧ d.line ≤ 1 + source.toList.count '\n'

section
variable {ts : List Token} {d : Declaration} {n : String}

theorem mem_namespaces_iff : n ∈ (Outline.ofTokens ts).namespaces ↔ ∃ j < ts.length, namespaceAt? ts j = some n := by
  simp [ofTokens_eq]

theorem exists_declares_of_mem (h : d ∈ (Outline.ofTokens ts).declarations) : ∃ j t u, Declares ts j t u d := by
  rw [ofTokens_eq] at h
  obtain ⟨j, -, hd⟩ := List.mem_filterMap.mp h
  exact ⟨j, exists_declares hd⟩

theorem Declares.mem_namespaces {j : Nat} {t u : Token} (h : Declares ts j t u d) (hn : d.scope = some n) :
    n ∈ (Outline.ofTokens ts).namespaces := by
  obtain ⟨i, hi, hn⟩ := h.exists_namespaceAt? hn
  exact mem_namespaces_iff.mpr ⟨i, hi.trans (lt_length_of_getElem? h.keyword), hn⟩

/-- Declarations are as far down as their keywords. -/
theorem pairwise_line_declarations (h : ts.Pairwise fun t u => t.line ≤ u.line) :
    (Outline.ofTokens ts).declarations.Pairwise fun d e => d.line ≤ e.line := by
  rw [ofTokens_eq]
  refine List.Pairwise.filterMap _ ?_ List.pairwise_lt_range
  intro i j hij d hd e he
  obtain ⟨t, _, ht⟩ := exists_declares hd
  obtain ⟨u, _, hu⟩ := exists_declares he
  obtain ⟨hi, rfl⟩ := List.getElem?_eq_some_iff.mp ht.keyword
  obtain ⟨hj, rfl⟩ := List.getElem?_eq_some_iff.mp hu.keyword
  rw [ht.line, hu.line]
  exact List.pairwise_iff_getElem.mp h i j hi hj hij

end

/-- The outline of every source text is well formed. -/
theorem ofSource_isWellFormed (source : String) : (Outline.ofSource source).IsWellFormed source := by
  have hnamespaces : ∀ n ∈ (Outline.ofSource source).namespaces, isQualifiedName n = true := by
    intro n hn
    obtain ⟨j, -, hn⟩ := mem_namespaces_iff.mp hn
    exact isQualifiedName_of_namespaceAt? hn
  refine ⟨hnamespaces, fun d hd => ?_, fun d hd => ?_, fun d hd hnone => ?_, fun d hd n hn => ?_, fun d hd => ?_,
    pairwise_line_declarations (pairwise_line_tokens source), fun d hd => ?_⟩
  all_goals obtain ⟨j, t, u, h⟩ := exists_declares_of_mem hd
  · have hu : isQualifiedName u.text = true := isQualifiedName_of_mem_tokens h.mem_named h.kind h.simple
    rw [h.name]
    cases hs : d.scope with
    | none => exact hu
    | some n =>
      rw [qualifiedName, isQualifiedName_append_separator, hnamespaces n (h.mem_namespaces hs), hu, Bool.and_self]
  · rw [h.shortName_eq]
    exact h.simple
  · rw [h.shortName_eq, h.name, hnone]
    rfl
  · refine ⟨?_, h.mem_namespaces hn⟩
    rw [h.shortName_eq, h.name, hn]
    rfl
  · exact ⟨u, h.mem_named, h.kind, h.shortName_eq.symm, h.notExtends, h.notImplements⟩
  · rw [h.line]
    exact line_of_mem_tokens h.mem_keyword

end TypeFinder.Php

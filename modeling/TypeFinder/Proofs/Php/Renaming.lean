import Mathlib.Data.List.Forall2
import TypeFinder.Proofs.Php.Respelled
import TypeFinder.Proofs.Php.Scoping

/-! Sources that say the same with other names. Of the text of a token the pass only asks whether it is one of a few
    keywords, whether it is a qualified name and whether it has a separator. So two token lists that differ in texts
    alone, and agree on these questions, have the same namespaces and declarations but for those texts. -/

namespace TypeFinder.Php

/-- The words that mean something to the pass. -/
def keywords : List String :=
  ["namespace", "class", "interface", "trait", "enum", "new", "function", "const", "extends", "implements"]

/-- The pass has no way to tell two such texts apart. -/
structure Indistinct (R : String → String → Prop) : Prop where
  keyword : ∀ {a b}, R a b → ∀ word ∈ keywords, Text.equalIgnoringCase a word = Text.equalIgnoringCase b word
  qualified : ∀ {a b}, R a b → isQualifiedName a = isQualifiedName b
  separator : ∀ {a b}, R a b → (separator ∈ a.toList ↔ separator ∈ b.toList)

/-- The tokens differ in their texts alone, which are related. -/
structure Token.Like (R : String → String → Prop) (t u : Token) : Prop where
  kind : t.kind = u.kind
  line : t.line = u.line
  text : R t.text u.text

/-- The effects differ in names alone, which are related. -/
inductive Effect.Like (R : String → String → Prop) : Effect → Effect → Prop
  | none : Like R .none .none
  | openBrace : Like R .openBrace .openBrace
  | closeBrace : Like R .closeBrace .closeBrace
  | enter {name name' : Option String} {braced : Bool} : Option.Rel R name name' →
      Like R (.enter name braced) (.enter name' braced)
  | declare {kind : DeclarationKind} {name name' : String} : R name name' →
      Like R (.declare kind name) (.declare kind name')

/-- The declarations are of one kind and on one line. The namespaces they are in are related, and so are the names
    that they put behind those. -/
structure Declaration.Like (R : String → String → Prop) (d e : Declaration) : Prop where
  kind : d.kind = e.kind
  line : d.line = e.line
  scope : Option.Rel R d.scope e.scope
  name : ∃ a b, R a b ∧ d.name = qualifiedName d.scope a ∧ e.name = qualifiedName e.scope b

/-- As many namespaces, and as many declarations, which are alike one by one. -/
structure Outline.Like (R : String → String → Prop) (o p : Outline) : Prop where
  namespaces : List.Forall₂ R o.namespaces p.namespaces
  declarations : List.Forall₂ (Declaration.Like R) o.declarations p.declarations

/-! ### Options -/

section
variable {α β γ δ : Type} {P : α → β → Prop} {Q : γ → δ → Prop}

theorem any_eq_of_rel {a : Option α} {b : Option β} {p : α → Bool} {q : β → Bool} (h : Option.Rel P a b)
    (hpq : ∀ x y, P x y → p x = q y) : a.any p = b.any q := by
  cases h with
  | none => rfl
  | some h => exact hpq _ _ h

theorem rel_bind {a : Option α} {b : Option β} {f : α → Option γ} {g : β → Option δ} (h : Option.Rel P a b)
    (hfg : ∀ x y, P x y → Option.Rel Q (f x) (g y)) : Option.Rel Q (a >>= f) (b >>= g) := by
  cases h with
  | none => exact .none
  | some h => exact hfg _ _ h

theorem rel_bind_left {a : Option α} {f : α → Option γ} {g : α → Option δ} (hfg : ∀ x, Option.Rel Q (f x) (g x)) :
    Option.Rel Q (a >>= f) (a >>= g) := by
  cases a with
  | none => exact .none
  | some x => exact hfg x

theorem rel_getElem? {l : List α} {l' : List β} (h : List.Forall₂ P l l') (i : Nat) : Option.Rel P l[i]? l'[i]? := by
  induction h generalizing i with
  | nil => exact .none
  | cons hab _ ih =>
    cases i with
    | zero => exact .some hab
    | succ i => exact ih i

end

/-! ### One token -/

section
variable {R : String → String → Prop} {t t' : Token} {before before' : Option Token} {rest rest' : List Token}

theorem Token.Like.isKeyword (h : Token.Like R t t') (hR : Indistinct R) {word : String} (hword : word ∈ keywords) :
    t.isKeyword word = t'.isKeyword word := by
  rw [Token.isKeyword, Token.isKeyword, h.kind, hR.keyword h.text word hword]

theorem Token.Like.isMemberAccess (h : Token.Like R t t') : t.isMemberAccess = t'.isMemberAccess := by
  rw [Token.isMemberAccess, Token.isMemberAccess, h.kind]

theorem Token.Like.followsEnum (h : Token.Like R t t') (hR : Indistinct R) : followsEnum t = followsEnum t' := by
  rw [Php.followsEnum, Php.followsEnum, h.kind, h.isKeyword hR (by simp [keywords])]

theorem Token.Like.ofKeyword? (h : Token.Like R t t') (hR : Indistinct R) :
    DeclarationKind.ofKeyword? t.text = DeclarationKind.ofKeyword? t'.text := by
  have hkeyword (k : DeclarationKind) :
      Text.equalIgnoringCase t.text k.keyword = Text.equalIgnoringCase t'.text k.keyword :=
    hR.keyword h.text _ (by cases k <;> simp [keywords, DeclarationKind.keyword])
  rw [DeclarationKind.ofKeyword?, DeclarationKind.ofKeyword?, funext hkeyword]

theorem isShadowed_like (hR : Indistinct R) (h : Option.Rel (Token.Like R) before before') :
    isShadowed before = isShadowed before' := by
  refine any_eq_of_rel h fun t t' ht => ?_
  rw [ht.isMemberAccess, ht.isKeyword hR (by simp [keywords]), ht.isKeyword hR (by simp [keywords]),
    ht.isKeyword hR (by simp [keywords])]

theorem enters?_like (hR : Indistinct R) (h : List.Forall₂ (Token.Like R) rest rest') :
    Option.Rel (fun e e' => Option.Rel R e.1 e'.1 ∧ e.2 = e'.2) (enters? rest) (enters? rest') := by
  cases h with
  | nil => exact .none
  | @cons t t' rest rest' ht hrest =>
    have hbrace : rest.head?.any (·.kind = .openBrace) = rest'.head?.any (·.kind = .openBrace) := by
      rw [List.head?_eq_getElem?, List.head?_eq_getElem?]
      exact any_eq_of_rel (rel_getElem? hrest 0) fun u u' hu => by rw [hu.kind]
    rw [enters?, enters?, ht.kind, hR.qualified ht.text, hbrace]
    split_ifs
    · exact .some ⟨.some ht.text, rfl⟩
    · exact .some ⟨.none, rfl⟩
    · exact .none

theorem declares?_like (hR : Indistinct R) (hbefore : Option.Rel (Token.Like R) before before') (ht : Token.Like R t t')
    (hrest : List.Forall₂ (Token.Like R) rest rest') :
    Option.Rel (fun d d' => d.1 = d'.1 ∧ R d.2 d'.2) (declares? before t rest) (declares? before' t' rest') := by
  have hfollows : (rest[1]?).any followsEnum = (rest'[1]?).any followsEnum :=
    any_eq_of_rel (rel_getElem? hrest 1) fun u u' hu => hu.followsEnum hR
  have hhead : Option.Rel (Token.Like R) rest.head? rest'.head? := by
    rw [List.head?_eq_getElem?, List.head?_eq_getElem?]
    exact rel_getElem? hrest 0
  simp only [declares?, ht.kind, ht.ofKeyword? hR, isShadowed_like hR hbefore, hfollows]
  refine rel_bind_left fun _ => rel_bind_left fun kind => rel_bind_left fun _ => rel_bind hhead fun u u' hu => ?_
  have hextends : u.isKeyword "extends" = u'.isKeyword "extends" := hu.isKeyword hR (by simp [keywords])
  have himplements : u.isKeyword "implements" = u'.isKeyword "implements" := hu.isKeyword hR (by simp [keywords])
  simp only [hu.kind, hR.separator hu.text, hextends, himplements]
  exact rel_bind_left fun _ => rel_bind_left fun _ => rel_bind_left fun _ => .some ⟨rfl, hu.text⟩

/-- Tokens that are alike have effects that are alike, between tokens that are. -/
theorem effect_like (hR : Indistinct R) (hbefore : Option.Rel (Token.Like R) before before') (ht : Token.Like R t t')
    (hrest : List.Forall₂ (Token.Like R) rest rest') :
    Effect.Like R (effect before t rest) (effect before' t' rest') := by
  rw [effect, effect, ht.kind]
  split
  · exact .openBrace
  · exact .closeBrace
  rw [ht.isKeyword hR (by simp [keywords]), any_eq_of_rel hbefore fun u u' hu => hu.isMemberAccess]
  split_ifs
  · exact .none
  · have henters := enters?_like hR hrest
    generalize enters? rest = e at henters
    generalize enters? rest' = e' at henters
    cases henters with
    | none => exact .none
    | @some e e' he =>
      obtain ⟨name, braced⟩ := e
      obtain ⟨name', braced'⟩ := e'
      obtain ⟨hname, rfl⟩ := he
      exact .enter hname
  · have hdeclares := declares?_like hR hbefore ht hrest
    generalize declares? before t rest = d at hdeclares
    generalize declares? before' t' rest' = d' at hdeclares
    cases hdeclares with
    | none => exact .none
    | @some d d' hd =>
      obtain ⟨kind, name⟩ := d
      obtain ⟨kind', name'⟩ := d'
      obtain ⟨rfl, hname⟩ := hd
      exact .declare hname

end

/-! ### The pass -/

/-- Scopes that differ in the name of the namespace alone. -/
structure Scope.Like (R : String → String → Prop) (s s' : Scope) : Prop where
  current : Option.Rel R s.current s'.current
  depth : s.depth = s'.depth
  block : s.block = s'.block

/-- Passes that are at the same place of two token lists that are alike. -/
structure Pass.Like (R : String → String → Prop) (p p' : Pass) : Prop where
  scope : Scope.Like R p.scope p'.scope
  namespaces : List.Forall₂ R p.namespaces p'.namespaces
  declarations : List.Forall₂ (Declaration.Like R) p.declarations p'.declarations

section
variable {R : String → String → Prop} {t t' : Token} {before before' : Option Token} {rest rest' ts ts' : List Token}
  {p p' : Pass}

theorem Scope.Like.advance {s s' : Scope} {e e' : Effect} (hs : Scope.Like R s s') (he : Effect.Like R e e') :
    Scope.Like R (s.advance e) (s'.advance e') := by
  cases he with
  | none => exact hs
  | openBrace => exact ⟨hs.current, congrArg (· + 1) hs.depth, hs.block⟩
  | closeBrace =>
    simp only [Scope.advance, hs.depth, hs.block]
    split_ifs
    · exact ⟨.none, rfl, rfl⟩
    · exact ⟨hs.current, rfl, rfl⟩
  | enter hname => exact ⟨hname, hs.depth, by simp only [Scope.advance, hs.depth, hs.block]⟩
  | declare => exact hs

/-- Passes that are alike stay so over one token more. -/
theorem Pass.Like.advance (hR : Indistinct R) (hp : Pass.Like R p p')
    (hbefore : Option.Rel (Token.Like R) before before') (ht : Token.Like R t t')
    (hrest : List.Forall₂ (Token.Like R) rest rest') :
    Pass.Like R (p.advance before t rest) (p'.advance before' t' rest') := by
  have he := effect_like hR hbefore ht hrest
  rw [Pass.advance, Pass.advance]
  generalize effect before t rest = e at he
  generalize effect before' t' rest' = e' at he
  refine ⟨hp.scope.advance he, ?_, ?_⟩
  · cases he with
    | enter hname =>
      cases hname with
      | none => exact hp.namespaces
      | some hname => exact .cons hname hp.namespaces
    | _ => exact hp.namespaces
  · cases he with
    | declare hname => exact .cons ⟨rfl, ht.line, hp.scope.current, _, _, hname, rfl, rfl⟩ hp.declarations
    | _ => exact hp.declarations

theorem Pass.Like.run (hR : Indistinct R) (hp : Pass.Like R p p') (hbefore : Option.Rel (Token.Like R) before before')
    (h : List.Forall₂ (Token.Like R) ts ts') : Pass.Like R (p.run before ts) (p'.run before' ts') := by
  induction h generalizing p p' before before' with
  | nil => exact hp
  | cons ht hrest ih => exact ih (hp.advance hR hbefore ht hrest) (.some ht)

/-- Token lists that are alike declare what is alike. -/
theorem ofTokens_like (hR : Indistinct R) (h : List.Forall₂ (Token.Like R) ts ts') :
    Outline.Like R (Outline.ofTokens ts) (Outline.ofTokens ts') := by
  have hp : Pass.Like R ⟨.global, [], []⟩ ⟨.global, [], []⟩ := ⟨⟨.none, rfl, rfl⟩, .nil, .nil⟩
  have hrun := hp.run hR .none h
  exact ⟨List.rel_reverse hrun.namespaces, List.rel_reverse hrun.declarations⟩

end

/-! ### Other spellings -/

/-- The texts are those of one slice in two spellings. -/
def Respelled {σ : Type} (qs : List (Slice σ)) (spell spell' : σ → List Char) (a b : String) : Prop :=
  ∃ q ∈ qs, a = q.text spell ∧ b = q.text spell'

theorem isAscii_of_keyword : ∀ word ∈ keywords, ∀ c ∈ word.toList.map Char.toLower, IsAscii c := by
  simp [keywords, IsAscii, Char.toLower]

/-- Characters beyond ASCII only make a segment longer. -/
theorem isQualifiedFrom_behind {u s : List Char} (hu : ∀ c ∈ u, ¬ IsAscii c) :
    isQualifiedFrom false (u ++ s) = isQualifiedFrom false s := by
  induction u with
  | nil => rfl
  | cons c u ih =>
    obtain ⟨hc, hu⟩ := List.forall_mem_cons.mp hu
    rw [List.cons_append, isQualifiedFrom, if_neg (ne_of_not_isAscii hc (by decide)), ih hu]
    simp [isNameChar_of_not_isAscii hc]

section
variable {σ : Type} {key : σ → Char} {spell spell' : σ → List Char}

theorem IsSpelling.isQualifiedFrom_eq (h : IsSpelling key spell) (w : List σ) (fresh : Bool) :
    isQualifiedFrom fresh (w.flatMap spell) = isQualifiedFrom fresh (w.map key) := by
  induction w generalizing fresh with
  | nil => rfl
  | cons a w ih =>
    obtain ⟨c, v, ha, hv⟩ := (h a).exists_cons
    have hc : c ∈ spell a := ha ▸ List.mem_cons_self
    have hsep : c = separator ↔ key a = separator := (h a).eq_iff (by decide) hc
    rw [List.flatMap_cons, ha, List.map_cons, List.cons_append, isQualifiedFrom, isQualifiedFrom]
    by_cases hkey : key a = separator
    · -- A separator is the whole sign, so that a segment starts with the next one.
      obtain rfl : v = [] := (List.cons.inj (ha.symm.trans (h.eq_of_key hkey (by decide)))).2
      rw [if_pos (hsep.mpr hkey), if_pos hkey, List.nil_append, ih]
    · rw [if_neg (mt hsep.mp hkey), if_neg hkey, isQualifiedFrom_behind hv, ih,
        (h a).steady steady_isNameStart hc, (h a).steady steady_isNameChar hc]

/-- The pass cannot tell two spellings of a slice apart: each question that it asks is one about the keys. -/
theorem indistinct_respelled (h : IsSpelling key spell) (h' : IsSpelling key spell') (qs : List (Slice σ)) :
    Indistinct (Respelled qs spell spell') := by
  refine ⟨?_, ?_, ?_⟩
  all_goals rintro _ _ ⟨q, -, rfl, rfl⟩
  · intro word hword
    have hascii := isAscii_of_keyword word hword
    rw [Bool.eq_iff_iff, Text.equalIgnoringCase, Text.equalIgnoringCase, beq_iff_eq, beq_iff_eq, Slice.text, Slice.text,
      String.toList_ofList, String.toList_ofList, h.map_toLower_eq_iff hascii, h'.map_toLower_eq_iff hascii]
  · rw [isQualifiedName, isQualifiedName, Slice.text, Slice.text, String.toList_ofList, String.toList_ofList,
      h.isQualifiedFrom_eq, h'.isQualifiedFrom_eq]
  · rw [Slice.text, Slice.text, String.toList_ofList, String.toList_ofList, h.mem_iff (by decide),
      h'.mem_iff (by decide)]

theorem tokens_like (spell spell' : σ → List Char) (qs : List (Slice σ)) :
    List.Forall₂ (Token.Like (Respelled qs spell spell')) (qs.filterMap (Slice.token? spell))
      (qs.filterMap (Slice.token? spell')) := by
  have hself : List.Forall₂ (fun q q' => q = q' ∧ q ∈ qs) qs qs := List.forall₂_same.mpr fun q hq => ⟨rfl, hq⟩
  refine List.rel_filterMap ?_ hself
  rintro q _ ⟨rfl, hq⟩
  rw [Slice.token?, Slice.token?]
  split
  · exact .none
  · exact .some ⟨rfl, rfl, q, hq, rfl, rfl⟩
  · exact .some ⟨rfl, rfl, q, hq, rfl, rfl⟩

end

end TypeFinder.Php

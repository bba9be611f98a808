import Mathlib.Data.List.Basic
import Mathlib.Data.Option.Basic
import TypeFinder.Php.Outline

/-! The pass over the tokens, seen by index. What a token does depends on the token before it and on those behind
    it, and where it does it is the scope that the tokens before it leave. So the outline of a token list is read
    off its indices, one after the other. -/

namespace TypeFinder.Php

/-! ### What one token does -/

section
variable {before : Option Token} {t : Token} {rest : List Token}

/-- A declaration is a keyword that nothing shadows and the name behind it; an enum needs one token more. -/
theorem declares?_eq_some_iff {kind : DeclarationKind} {name : String} :
    declares? before t rest = some (kind, name) ↔
      t.kind = .name ∧ DeclarationKind.ofKeyword? t.text = some kind ∧ isShadowed before = false ∧
        ∃ u, rest.head? = some u ∧ u.kind = .name ∧ separator ∉ u.text.toList ∧ u.isKeyword "extends" = false ∧
          u.isKeyword "implements" = false ∧ (kind ≠ .enumType ∨ (rest[1]?).any followsEnum) ∧ u.text = name := by
  simp only [declares?, Option.bind_eq_bind, Option.bind_eq_some_iff, Option.guard_eq_some', exists_const,
    Bool.not_eq_true', Bool.or_eq_false_iff, Option.pure_def, Option.some.injEq, Prod.mk.injEq]
  constructor
  · rintro ⟨hname, kind', hkind, hshadow, u, hu, ⟨hu1, hu2⟩, ⟨hu3, hu4⟩, henum, rfl, rfl⟩
    exact ⟨hname, hkind, hshadow, u, hu, hu1, hu2, hu3, hu4, henum, rfl⟩
  · rintro ⟨hname, hkind, hshadow, u, hu, hu1, hu2, hu3, hu4, henum, rfl⟩
    exact ⟨hname, kind, hkind, hshadow, u, hu, ⟨hu1, hu2⟩, ⟨hu3, hu4⟩, henum, rfl, rfl⟩

theorem isKeyword_namespace_of_kind {kind : DeclarationKind} (h : DeclarationKind.ofKeyword? t.text = some kind) :
    t.isKeyword "namespace" = false := by
  have hk : Text.equalIgnoringCase t.text kind.keyword = true := by
    have := List.find?_some (p := fun k : DeclarationKind => Text.equalIgnoringCase t.text k.keyword) h
    exact this
  have hn : Text.equalIgnoringCase t.text "namespace" = false := by
    simp only [Text.equalIgnoringCase, beq_eq_false_iff_ne, beq_iff_eq] at hk ⊢
    rw [hk]
    cases kind <;> decide
  simp [Token.isKeyword, hn]

theorem kind_of_isKeyword {word : String} (h : t.isKeyword word = true) : t.kind = .name := by
  simp only [Token.isKeyword, Bool.and_eq_true, beq_iff_eq] at h
  exact h.1

theorem kind_of_declares? {d : DeclarationKind × String} (h : declares? before t rest = some d) :
    t.kind = .name ∧ t.isKeyword "namespace" = false := by
  obtain ⟨hname, hkind, -⟩ := declares?_eq_some_iff.mp (show declares? before t rest = some (d.1, d.2) from h)
  exact ⟨hname, isKeyword_namespace_of_kind hkind⟩

/-- What a token does, and when it does it. -/
inductive Does (before : Option Token) (t : Token) (rest : List Token) : Effect → Prop
  | openBrace : t.kind = .openBrace → Does before t rest .openBrace
  | closeBrace : t.kind = .closeBrace → Does before t rest .closeBrace
  | enter {name : Option String} {braced : Bool} : t.isKeyword "namespace" = true →
      before.any (·.isMemberAccess) = false → enters? rest = some (name, braced) →
      Does before t rest (.enter name braced)
  | declare {kind : DeclarationKind} {name : String} : declares? before t rest = some (kind, name) →
      Does before t rest (.declare kind name)
  | none : t.kind ≠ .openBrace → t.kind ≠ .closeBrace →
      (t.isKeyword "namespace" = true → before.any (·.isMemberAccess) = false → enters? rest = none) →
      declares? before t rest = none → Does before t rest .none

theorem does_effect : Does before t rest (effect before t rest) := by
  unfold effect
  split
  case h_1 ho => exact .openBrace ho
  case h_2 hc => exact .closeBrace hc
  case h_3 ho hc =>
    split
    case isTrue hn =>
      have hd : declares? before t rest = none := by
        by_contra hd
        obtain ⟨d, hd⟩ := Option.ne_none_iff_exists'.mp hd
        simp [(kind_of_declares? hd).2] at hn
      split
      case isTrue hm => exact .none ho hc (fun _ h => by simp [hm] at h) hd
      case isFalse hm =>
        have hm : before.any (·.isMemberAccess) = false := by simpa using hm
        cases he : enters? rest with
        | none => exact .none ho hc (fun _ _ => he) hd
        | some e => exact .enter hn hm he
    case isFalse hn =>
      cases hd : declares? before t rest with
      | none => exact .none ho hc (fun h => absurd h hn) hd
      | some d => exact .declare hd

theorem effect_eq_enter_iff {name : Option String} {braced : Bool} :
    effect before t rest = .enter name braced ↔
      t.isKeyword "namespace" = true ∧ before.any (·.isMemberAccess) = false ∧ enters? rest = some (name, braced) := by
  constructor
  · intro h
    have hdoes : Does before t rest (.enter name braced) := h ▸ does_effect
    cases hdoes with
    | enter hn hm he => exact ⟨hn, hm, he⟩
  · rintro ⟨hn, hm, he⟩
    simp [effect, kind_of_isKeyword hn, hn, hm, he]

theorem effect_eq_declare_iff {kind : DeclarationKind} {name : String} :
    effect before t rest = .declare kind name ↔ declares? before t rest = some (kind, name) := by
  constructor
  · intro h
    have hdoes : Does before t rest (.declare kind name) := h ▸ does_effect
    cases hdoes with
    | declare hd => exact hd
  · intro hd
    obtain ⟨hname, hn⟩ := kind_of_declares? hd
    simp [effect, hname, hn, hd]

end

/-! ### What the token at an index does -/

/-- The token before the index. -/
def before? (ts : List Token) : Nat → Option Token
  | 0 => none
  | j + 1 => ts[j]?

/-- What the token at the index does. -/
def effectAt (ts : List Token) (j : Nat) : Effect :=
  (ts[j]?).elim .none fun t => effect (before? ts j) t (ts.drop (j + 1))

/-- The declaration that the token at the index opens, if it opens one. -/
def declaresAt? (ts : List Token) (j : Nat) : Option (DeclarationKind × String) :=
  (ts[j]?).bind fun t => declares? (before? ts j) t (ts.drop (j + 1))

/-- The scope that the first `j` tokens leave. -/
def scopeBehind (ts : List Token) : Nat → Scope
  | 0 => .global
  | j + 1 => (scopeBehind ts j).advance (effectAt ts j)

/-- The namespace that the token at the index names, if it makes a statement with a name. -/
def namespaceAt? (ts : List Token) (j : Nat) : Option String :=
  match effectAt ts j with
  | .enter name _ => name
  | _ => none

/-- The declaration that the token at the index adds to the outline. -/
def declarationAt? (ts : List Token) (j : Nat) : Option Declaration :=
  match effectAt ts j with
  | .declare kind name =>
    (ts[j]?).map fun t => ⟨(scopeBehind ts j).qualify name, (scopeBehind ts j).current, kind, t.line⟩
  | _ => none

/-- The pass behind the first `j` tokens. -/
def passBehind (ts : List Token) (j : Nat) : Pass :=
  { scope := scopeBehind ts j
    namespaces := ((List.range j).filterMap (namespaceAt? ts)).reverse
    declarations := ((List.range j).filterMap (declarationAt? ts)).reverse }

section
variable {ts : List Token} {j : Nat} {t : Token}

theorem effectAt_of_getElem? (h : ts[j]? = some t) :
    effectAt ts j = effect (before? ts j) t (ts.drop (j + 1)) := by
  simp [effectAt, h]

theorem lt_length_of_getElem? (h : ts[j]? = some t) : j < ts.length := (List.getElem?_eq_some_iff.mp h).1

theorem advance_passBehind (h : ts[j]? = some t) :
    (passBehind ts j).advance (before? ts j) t (ts.drop (j + 1)) = passBehind ts (j + 1) := by
  rw [Pass.advance, ← effectAt_of_getElem? h]
  simp only [passBehind, scopeBehind, List.range_succ, List.filterMap_append, List.reverse_append]
  cases he : effectAt ts j with
  | none | openBrace | closeBrace => simp [namespaceAt?, declarationAt?, he]
  | enter name braced => cases name <;> simp [namespaceAt?, declarationAt?, he]
  | declare kind name => simp [namespaceAt?, declarationAt?, he, h]

theorem run_passBehind (ts : List Token) {j : Nat} (hj : j ≤ ts.length) :
    (passBehind ts j).run (before? ts j) (ts.drop j) = passBehind ts ts.length := by
  rcases Nat.lt_or_eq_of_le hj with hlt | rfl
  · have ht : ts[j]? = some ts[j] := List.getElem?_eq_getElem hlt
    rw [List.drop_eq_getElem_cons hlt, Pass.run, advance_passBehind ht]
    exact ht ▸ run_passBehind ts hlt
  · rw [List.drop_length, Pass.run]
termination_by ts.length - j

/-- The outline lists what each token names and declares, in order. -/
theorem ofTokens_eq (ts : List Token) :
    Outline.ofTokens ts =
      ⟨(List.range ts.length).filterMap (namespaceAt? ts), (List.range ts.length).filterMap (declarationAt? ts)⟩ := by
  have h : Pass.run ⟨.global, [], []⟩ none ts = passBehind ts ts.length := run_passBehind ts (Nat.zero_le _)
  simp [Outline.ofTokens, h, Pass.outline, passBehind]

end

/-! ### Lines -/

/-- The token, `k` lines further down. -/
def Token.below (k : Nat) (t : Token) : Token := { t with line := t.line + k }

/-- The declaration, `k` lines further down. -/
def Declaration.below (k : Nat) (d : Declaration) : Declaration := { d with line := d.line + k }

/-- The token without its line. -/
def Token.unlined (t : Token) : Token := { t with line := 0 }

section
variable {ts us : List Token} {j k : Nat}

theorem effect_unlined (before : Option Token) (t : Token) (rest : List Token) :
    effect (before.map Token.unlined) t.unlined (rest.map Token.unlined) = effect before t rest := by
  have hword (t : Token) (word : String) : t.unlined.isKeyword word = t.isKeyword word := rfl
  have haccess : (before.map Token.unlined).any (·.isMemberAccess) = before.any (·.isMemberAccess) := by
    cases before <;> rfl
  have hshadow : isShadowed (before.map Token.unlined) = isShadowed before := by
    cases before <;> rfl
  have henters : enters? (rest.map Token.unlined) = enters? rest := by
    match rest with
    | [] => rfl
    | [u] => rfl
    | u :: v :: rest => rfl
  have hdeclares : declares? (before.map Token.unlined) t.unlined (rest.map Token.unlined) = declares? before t rest := by
    match rest with
    | [] => simp [declares?, hshadow, Token.unlined]
    | [u] => simp [declares?, hshadow]; rfl
    | u :: v :: rest => simp [declares?, hshadow]; rfl
  unfold effect
  rw [haccess, henters, hdeclares, hword]
  rfl

theorem effectAt_unlined (ts : List Token) (j : Nat) : effectAt (ts.map Token.unlined) j = effectAt ts j := by
  have hbefore : before? (ts.map Token.unlined) j = (before? ts j).map Token.unlined := by
    cases j with
    | zero => rfl
    | succ j => exact List.getElem?_map
  cases ht : ts[j]? with
  | none => simp [effectAt, ht]
  | some t =>
    have ht' : (ts.map Token.unlined)[j]? = some t.unlined := by rw [List.getElem?_map, ht]; rfl
    rw [effectAt_of_getElem? ht, effectAt_of_getElem? ht', hbefore, ← List.map_drop, effect_unlined]

theorem effectAt_congr (h : us.map Token.unlined = ts.map Token.unlined) (j : Nat) : effectAt us j = effectAt ts j := by
  rw [← effectAt_unlined us, h, effectAt_unlined]

theorem namespaceAt?_congr (h : us.map Token.unlined = ts.map Token.unlined) (j : Nat) :
    namespaceAt? us j = namespaceAt? ts j := by
  rw [namespaceAt?, effectAt_congr h, namespaceAt?]

/-- A token further down declares the same, further down. -/
theorem declarationAt?_below (h : us.map Token.unlined = ts.map Token.unlined)
    (hj : us[j]? = (ts[j]?).map (Token.below k)) :
    declarationAt? us j = (declarationAt? ts j).map (Declaration.below k) := by
  have hscope : ∀ j, scopeBehind us j = scopeBehind ts j := fun j => by
    induction j with
    | zero => rfl
    | succ j ih => rw [scopeBehind, scopeBehind, ih, effectAt_congr h]
  unfold declarationAt?
  rw [effectAt_congr h, hscope, hj]
  cases effectAt ts j with
  | declare kind name => cases ts[j]? <;> rfl
  | _ => rfl

end

end TypeFinder.Php

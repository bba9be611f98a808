import Mathlib.Logic.Basic
import TypeFinder.Php.Piece

/-! Quoted literals, said by what stands between the quotes. In one between double quotes or backticks, an
    expression runs to the brace that balances the one it starts with, and only braces count in it. A text has one
    reading: a body and the quote that ends it, or a body and what is left open at the end of the text. -/

namespace TypeFinder.Php

/-! ### Single quotes -/

/-- A text between single quotes: a quote or a backslash only stands behind a backslash. -/
inductive SingleQuoted : List Char → Prop
  | nil : SingleQuoted []
  | escape {c : Char} {s : List Char} : SingleQuoted s → SingleQuoted ('\\' :: c :: s)
  | plain {c : Char} {s : List Char} : c ≠ '\\' → c ≠ '\'' → SingleQuoted s → SingleQuoted (c :: s)

/-- A text behind a single quote in which no quote ends it. -/
def UnclosedSingle (s : List Char) : Prop := SingleQuoted s ∨ ∃ body, s = body ++ ['\\'] ∧ SingleQuoted body

section
variable {s body rest : List Char} {c : Char}

theorem singleQuotedLength_escape (n : Nat) :
    singleQuotedLength n ('\\' :: c :: s) = singleQuotedLength (n + 2) s := by
  simp [singleQuotedLength]

theorem singleQuotedLength_quote (n : Nat) : singleQuotedLength n ('\'' :: s) = n + 1 := by
  cases s <;> simp [singleQuotedLength]

theorem singleQuotedLength_plain (n : Nat) (hc : c ≠ '\\') (hq : c ≠ '\'') :
    singleQuotedLength n (c :: s) = singleQuotedLength (n + 1) s := by
  cases s <;> simp [singleQuotedLength, hc, hq]

theorem SingleQuoted.length_append (hb : SingleQuoted body) (n : Nat) :
    singleQuotedLength n (body ++ s) = singleQuotedLength (n + body.length) s := by
  induction hb generalizing n with
  | nil => rfl
  | escape _ ih =>
    rw [List.cons_append, List.cons_append, singleQuotedLength_escape, ih]
    simp only [List.length_cons]
    congr 1
    omega
  | plain hc hq _ ih =>
    rw [List.cons_append, singleQuotedLength_plain n hc hq, ih]
    simp only [List.length_cons]
    congr 1
    omega

theorem singleQuotedLength_append (hb : SingleQuoted body) :
    singleQuotedLength 0 (body ++ '\'' :: rest) = body.length + 1 := by
  rw [hb.length_append, singleQuotedLength_quote, Nat.zero_add]

theorem singleQuotedLength_of_unclosed (hs : UnclosedSingle s) : singleQuotedLength 0 s = s.length := by
  rcases hs with hs | ⟨body, rfl, hb⟩
  · simpa [singleQuotedLength] using hs.length_append (s := []) 0
  · rw [hb.length_append, List.length_append]
    simp [singleQuotedLength]

theorem exists_singleQuoted :
    ∀ s : List Char, UnclosedSingle s ∨ ∃ body rest, s = body ++ '\'' :: rest ∧ SingleQuoted body
  | [] => Or.inl (Or.inl .nil)
  | c :: r => by
    by_cases hc : c = '\\'
    · subst hc
      cases r with
      | nil => exact Or.inl (Or.inr ⟨[], rfl, .nil⟩)
      | cons d r =>
        rcases exists_singleQuoted r with (hs | ⟨body, rfl, hb⟩) | ⟨body, rest, rfl, hb⟩
        · exact Or.inl (Or.inl hs.escape)
        · exact Or.inl (Or.inr ⟨_, rfl, hb.escape⟩)
        · exact Or.inr ⟨_, rest, rfl, hb.escape⟩
    by_cases hq : c = '\''
    · exact Or.inr ⟨[], r, by rw [hq]; rfl, .nil⟩
    rcases exists_singleQuoted r with (hs | ⟨body, rfl, hb⟩) | ⟨body, rest, rfl, hb⟩
    · exact Or.inl (Or.inl (.plain hc hq hs))
    · exact Or.inl (Or.inr ⟨_, rfl, .plain hc hq hb⟩)
    · exact Or.inr ⟨_, rest, rfl, .plain hc hq hb⟩
termination_by s => s.length

end

/-! ### Double quotes and backticks -/

/-- A text in which the braces balance. -/
inductive Balanced : List Char → Prop
  | nil : Balanced []
  | plain {c : Char} {s : List Char} : c ≠ '{' → c ≠ '}' → Balanced s → Balanced (c :: s)
  | braces {s t : List Char} : Balanced s → Balanced t → Balanced ('{' :: s ++ '}' :: t)

/-- No brace in the text closes the one that stands before it. -/
def StaysOpen (s : List Char) : Prop := ∀ e t, s = e ++ '}' :: t → ¬ Balanced e

/-- A text between two signs `quote`: escape pairs, expressions in braces, and other characters. -/
inductive Interpolated (quote : Char) : List Char → Prop
  | nil : Interpolated quote []
  | escape {c : Char} {s : List Char} : Interpolated quote s → Interpolated quote ('\\' :: c :: s)
  | expression {e s : List Char} : Balanced ('$' :: e) → Interpolated quote s →
      Interpolated quote ('{' :: '$' :: e ++ '}' :: s)
  | plain {c : Char} {s : List Char} : c ≠ '\\' → c ≠ quote → ¬ (c = '{' ∧ s.head? = some '$') →
      Interpolated quote s → Interpolated quote (c :: s)

/-- A text behind the sign `quote` in which no other one ends it: it breaks off behind its body, in an escape pair
    or in an expression. -/
def UnclosedInterpolated (quote : Char) (s : List Char) : Prop :=
  ∃ body tail, s = body ++ tail ∧ Interpolated quote body ∧
    (tail = [] ∨ tail = ['\\'] ∨ ∃ e, tail = '{' :: '$' :: e ∧ StaysOpen ('$' :: e))

section
variable {quote : Char} {s e body rest : List Char} {c : Char}

theorem interpolatedLength_inside (depth n : Nat) (hd : 0 < depth) :
    interpolatedLength quote depth n (c :: s) = interpolatedLength quote (braceDepth depth c) (n + 1) s := by
  cases s <;> simp [interpolatedLength, hd]

theorem Balanced.length_append (he : Balanced e) {depth : Nat} (n : Nat) (hd : 0 < depth) :
    interpolatedLength quote depth n (e ++ s) = interpolatedLength quote depth (n + e.length) s := by
  induction he generalizing depth n s with
  | nil => rfl
  | plain ho hc _ ih =>
    rw [List.cons_append, interpolatedLength_inside depth n hd, braceDepth, if_neg ho, if_neg hc, ih _ hd]
    simp only [List.length_cons]
    congr 1
    omega
  | @braces e t _ _ ihe iht =>
    have hopen : braceDepth depth '{' = depth + 1 := rfl
    have hclose : braceDepth (depth + 1) '}' = depth := rfl
    rw [List.append_assoc, List.cons_append, interpolatedLength_inside depth n hd, hopen, ihe _ (Nat.succ_pos _),
      List.cons_append, interpolatedLength_inside _ _ (Nat.succ_pos _), hclose, iht _ hd]
    simp only [List.length_append, List.length_cons]
    congr 1
    omega

/-- Behind a brace that nothing closes, the expression takes all of the text. -/
theorem interpolatedLength_of_staysOpen : ∀ (e : List Char) {depth : Nat} (n : Nat), 0 < depth → StaysOpen e →
    interpolatedLength quote depth n e = n + e.length
  | [], _, n, _, _ => by simp [interpolatedLength]
  | c :: e, depth, n, hd, he => by
    rw [interpolatedLength_inside depth n hd, List.length_cons]
    by_cases hc : c = '}'
    · exact absurd .nil (he [] e (by rw [hc]; rfl))
    by_cases ho : c = '{'
    · subst ho
      have hopen : braceDepth depth '{' = depth + 1 := rfl
      rw [hopen]
      by_cases hs : StaysOpen e
      · rw [interpolatedLength_of_staysOpen e _ (Nat.succ_pos _) hs]
        omega
      -- The inner braces close, and what follows them leaves the outer one open.
      obtain ⟨e₁, t, rfl, hb⟩ : ∃ e₁ t, e = e₁ ++ '}' :: t ∧ Balanced e₁ := by
        simpa only [StaysOpen, not_forall, not_not, exists_prop] using hs
      have ht : StaysOpen t := fun e₂ t₂ heq hb₂ => he ('{' :: e₁ ++ '}' :: e₂) t₂ (by simp [heq]) (hb.braces hb₂)
      have hclose : braceDepth (depth + 1) '}' = depth := rfl
      rw [hb.length_append _ (Nat.succ_pos _), interpolatedLength_inside _ _ (Nat.succ_pos _), hclose,
        interpolatedLength_of_staysOpen t _ hd ht]
      simp only [List.length_append, List.length_cons]
      omega
    · have hs : StaysOpen e := fun e₁ t heq hb => he (c :: e₁) t (by rw [heq]; rfl) (.plain ho hc hb)
      rw [braceDepth, if_neg ho, if_neg hc, interpolatedLength_of_staysOpen e _ hd hs]
      omega
termination_by e => e.length

theorem interpolatedLength_escape (n : Nat) :
    interpolatedLength quote 0 n ('\\' :: c :: s) = interpolatedLength quote 0 (n + 2) s := by
  simp [interpolatedLength]

theorem interpolatedLength_expression (n : Nat) :
    interpolatedLength quote 0 n ('{' :: '$' :: s) = interpolatedLength quote 1 (n + 1) ('$' :: s) := by
  simp [interpolatedLength]

theorem interpolatedLength_quote (n : Nat) (hq : quote ≠ '\\') (hb : quote ≠ '{') :
    interpolatedLength quote 0 n (quote :: s) = n + 1 := by
  cases s <;> simp [interpolatedLength, hq, hb]

theorem interpolatedLength_plain (n : Nat) (hc : c ≠ '\\') (hq : c ≠ quote) (he : ¬ (c = '{' ∧ s.head? = some '$')) :
    interpolatedLength quote 0 n (c :: s) = interpolatedLength quote 0 (n + 1) s := by
  cases s with
  | nil => simp [interpolatedLength]
  | cons d s => simp_all [interpolatedLength]

/-- The body of a literal is read to its end when what follows it does not make an expression with its last
    character. -/
theorem Interpolated.length_append (hb : Interpolated quote body) (hs : s.head? ≠ some '$') (n : Nat) :
    interpolatedLength quote 0 n (body ++ s) = interpolatedLength quote 0 (n + body.length) s := by
  induction hb generalizing n with
  | nil => rfl
  | escape _ ih =>
    rw [List.cons_append, List.cons_append, interpolatedLength_escape, ih]
    simp only [List.length_cons]
    congr 1
    omega
  | @expression e body he _ ih =>
    have hclose : braceDepth 1 '}' = 0 := rfl
    rw [List.append_assoc, List.cons_append, List.cons_append, interpolatedLength_expression, ← List.cons_append,
      he.length_append _ Nat.one_pos, List.cons_append, interpolatedLength_inside _ _ Nat.one_pos, hclose, ih]
    simp only [List.length_append, List.length_cons]
    congr 1
    omega
  | @plain c body hc hq he _ ih =>
    have he' : ¬ (c = '{' ∧ (body ++ s).head? = some '$') := by
      rintro ⟨h, hhead⟩
      cases body with
      | nil => exact hs hhead
      | cons d body => exact he ⟨h, hhead⟩
    rw [List.cons_append, interpolatedLength_plain n hc hq he', ih]
    simp only [List.length_cons]
    congr 1
    omega

theorem interpolatedLength_append (hquote : quote = '"' ∨ quote = backtick) (hb : Interpolated quote body) :
    interpolatedLength quote 0 0 (body ++ quote :: rest) = body.length + 1 := by
  have hne : quote ≠ '\\' ∧ quote ≠ '{' ∧ quote ≠ '$' := by
    rcases hquote with rfl | rfl <;> decide
  rw [hb.length_append (by simpa using hne.2.2), interpolatedLength_quote _ hne.1 hne.2.1, Nat.zero_add]

theorem interpolatedLength_of_unclosed (hs : UnclosedInterpolated quote s) :
    interpolatedLength quote 0 0 s = s.length := by
  obtain ⟨body, tail, rfl, hb, htail⟩ := hs
  rcases htail with rfl | rfl | ⟨e, rfl, he⟩
  · rw [hb.length_append (by simp)]
    simp [interpolatedLength]
  · rw [hb.length_append (by simp), List.length_append]
    simp [interpolatedLength]
  · rw [hb.length_append (by simp), interpolatedLength_expression, interpolatedLength_of_staysOpen _ _ Nat.one_pos he]
    simp only [List.length_append, List.length_cons]
    omega

/-- The text has a reading as what follows the sign `quote`. -/
def Readable (quote : Char) (s : List Char) : Prop :=
  UnclosedInterpolated quote s ∨ ∃ body rest, s = body ++ quote :: rest ∧ Interpolated quote body

theorem Readable.append_left {p : List Char} (hs : Readable quote s)
    (hp : ∀ body tail, s = body ++ tail → Interpolated quote body → Interpolated quote (p ++ body)) :
    Readable quote (p ++ s) := by
  rcases hs with ⟨body, tail, rfl, hb, htail⟩ | ⟨body, rest, rfl, hb⟩
  · exact Or.inl ⟨p ++ body, tail, (List.append_assoc p body tail).symm, hp body tail rfl hb, htail⟩
  · exact Or.inr ⟨p ++ body, rest, (List.append_assoc p body _).symm, hp body _ rfl hb⟩

theorem exists_interpolated (quote : Char) : ∀ s : List Char, Readable quote s
  | [] => Or.inl ⟨[], [], rfl, .nil, Or.inl rfl⟩
  | c :: r => by
    by_cases hc : c = '\\'
    · subst hc
      cases r with
      | nil => exact Or.inl ⟨[], _, rfl, .nil, Or.inr (Or.inl rfl)⟩
      | cons d r => exact (exists_interpolated quote r).append_left (p := ['\\', d]) fun _ _ _ hb => .escape hb
    by_cases he : c = '{' ∧ r.head? = some '$'
    · obtain ⟨rfl, hhead⟩ := he
      by_cases hopen : StaysOpen r
      · obtain ⟨e, rfl⟩ := List.head?_eq_some_iff.mp hhead
        exact Or.inl ⟨[], _, rfl, .nil, Or.inr (Or.inr ⟨e, rfl, hopen⟩)⟩
      obtain ⟨e, t, hr, hbal⟩ : ∃ e t, r = e ++ '}' :: t ∧ Balanced e := by
        simpa only [StaysOpen, not_forall, not_not, exists_prop] using hopen
      have hlt : t.length < r.length := by
        rw [hr, List.length_append, List.length_cons]
        omega
      obtain ⟨e, rfl⟩ : ∃ e', e = '$' :: e' := by
        rw [hr] at hhead
        cases e with
        | nil => cases hhead
        | cons d e => exact ⟨e, by rw [Option.some.inj hhead]⟩
      have hread := (exists_interpolated quote t).append_left (p := '{' :: '$' :: e ++ ['}']) fun body _ _ hb => by
        simpa using hb.expression hbal
      simpa [hr] using hread
    by_cases hq : c = quote
    · exact Or.inr ⟨[], r, by rw [hq]; rfl, .nil⟩
    refine (exists_interpolated quote r).append_left (p := [c]) fun body tail heq hb => .plain hc hq ?_ hb
    rintro ⟨h, hhead⟩
    have hhead : body.head? = some '$' := hhead
    exact he ⟨h, by rw [heq, List.head?_append, hhead, Option.some_or]⟩
termination_by s => s.length
decreasing_by all_goals simp only [List.length_cons]; omega

end

end TypeFinder.Php

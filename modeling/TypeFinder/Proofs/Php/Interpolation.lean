import TypeFinder.Proofs.Php.Insertion

/-! Double-quoted literals whose expressions hold literals themselves. The reading of an expression counts braces and
    nothing else, so the braces in a nested literal count along. A literal is skipped as a whole when the braces
    balance within each literal nested in it. Otherwise the expression ends too early or too late, and so does the
    literal. -/

namespace TypeFinder.Php

/-! ### Nested literals -/

mutual

/-- What stands between double quotes: escape pairs, expressions in braces, and other characters. The contents of
    every literal within an expression have the property `p`. -/
inductive DoubleQuoted (p : List Char → Prop) : List Char → Prop
  | nil : DoubleQuoted p []
  | escape {c : Char} {s : List Char} : DoubleQuoted p s → DoubleQuoted p ('\\' :: c :: s)
  | expression {e s : List Char} : Expression p e → DoubleQuoted p s → DoubleQuoted p ('{' :: '$' :: e ++ '}' :: s)
  | plain {c : Char} {s : List Char} : c ≠ '\\' → c ≠ '"' → ¬ (c = '{' ∧ s.head? = some '$') → DoubleQuoted p s →
      DoubleQuoted p (c :: s)

/-- What follows the `$` of an expression: characters with braces that balance, and whole literals. -/
inductive Expression (p : List Char → Prop) : List Char → Prop
  | nil : Expression p []
  | plain {c : Char} {s : List Char} : c ∉ ['{', '}', '\'', '"'] → Expression p s → Expression p (c :: s)
  | braces {e s : List Char} : Expression p e → Expression p s → Expression p ('{' :: e ++ '}' :: s)
  | single {body s : List Char} : SingleQuoted body → p body → Expression p s → Expression p ('\'' :: body ++ '\'' :: s)
  | double {body s : List Char} : DoubleQuoted p body → p body → Expression p s →
      Expression p ('"' :: body ++ '"' :: s)

end

section
variable {s t e body : List Char}

theorem Balanced.append (hs : Balanced s) (ht : Balanced t) : Balanced (s ++ t) := by
  induction hs with
  | nil => exact ht
  | plain ho hc _ ih => exact .plain ho hc ih
  | braces hs _ _ ih =>
    rw [List.append_assoc, List.cons_append]
    exact hs.braces ih

theorem Balanced.enclosed {quote : Char} (ho : quote ≠ '{') (hc : quote ≠ '}') (hs : Balanced s) (ht : Balanced t) :
    Balanced (quote :: s ++ quote :: t) := .plain ho hc (hs.append (.plain ho hc ht))

theorem Expression.balanced : ∀ {e : List Char}, Expression Balanced e → Balanced e
  | _, .nil => .nil
  | _, .plain hc he => by
    simp only [List.mem_cons, List.not_mem_nil, or_false, not_or] at hc
    exact .plain hc.1 hc.2.1 he.balanced
  | _, .braces he hs => he.balanced.braces hs.balanced
  | _, .single _ hbody hs => hbody.enclosed (by decide) (by decide) hs.balanced
  | _, .double _ hbody hs => hbody.enclosed (by decide) (by decide) hs.balanced

/-- Where the nested literals balance, the literal ends where it should. -/
theorem DoubleQuoted.interpolated : ∀ {body : List Char}, DoubleQuoted Balanced body → Interpolated '"' body
  | _, .nil => .nil
  | _, .escape hs => .escape hs.interpolated
  | _, .expression he hs => .expression (.plain (by decide) (by decide) he.balanced) hs.interpolated
  | _, .plain hc hq he hs => .plain hc hq he hs.interpolated

end

section
variable {body rest before : List Char} {ps : List Piece}

theorem tokensFrom_literal (hb : DoubleQuoted Balanced body) (line : Nat) (rest : List Char) :
    tokensFrom .code line ('"' :: (body ++ '"' :: rest)) = tokensFrom .code (line + body.count '\n') rest := by
  have hregion : Region .interpolated ('"' :: (body ++ ['"'])) rest := .interpolated (Or.inl rfl) hb.interpolated
  have hcount : ('"' :: (body ++ ['"'])).count '\n' = body.count '\n' := by simp
  have heq : tokensFrom .code line ('"' :: (body ++ ['"']) ++ rest) = _ :=
    tokensFrom_region hregion (List.cons_ne_nil _ _)
  rw [hcount, List.cons_append, List.append_assoc] at heq
  exact heq

theorem tokensFrom_empty_literal (line : Nat) (rest : List Char) :
    tokensFrom .code line ('\'' :: '\'' :: rest) = tokensFrom .code line rest :=
  tokensFrom_region (k := .singleQuoted) (t := ['\'', '\'']) (.single .nil) (List.cons_ne_nil _ _)

/-- The tokens before a literal and those behind it, as they are around an empty one in its place. -/
theorem LeadsToCode.tokens_literal (h : LeadsToCode ps before ('"' :: (body ++ '"' :: rest)))
    (hb : DoubleQuoted Balanced body) : ∃ us,
    tokens (String.ofList (before ++ '\'' :: '\'' :: rest)) = ps.filterMap Piece.token? ++ us ∧
      tokens (String.ofList (before ++ '"' :: (body ++ '"' :: rest))) =
        ps.filterMap Piece.token? ++ us.map (Token.below (body.count '\n')) := by
  refine ⟨tokensFrom .code (1 + before.count '\n') rest, ?_, ?_⟩
  · rw [h.tokens_exchange fun x => agrees_empty_literal x _ rest, tokensFrom_empty_literal]
  · rw [h.tokens_exchange fun x => .refl _, tokensFrom_literal hb, tokensFrom_below]

end

/-- A double-quoted literal whose nested literals balance yields no token, and what follows it is read as if it stood
    behind an empty literal, further down. So where the literal is read as PHP code, the source has the outline that it
    has with the empty literal in its place, but for the lines of what is declared behind. -/
theorem tokensFrom_doubleQuoted {body : List Char} (hb : DoubleQuoted Balanced body) (line : Nat) (rest : List Char) :
    tokensFrom .code line ('"' :: (body ++ '"' :: rest)) = tokensFrom .code (line + body.count '\n') rest ∧
      tokensFrom .code line ('"' :: (body ++ '"' :: rest)) =
        (tokensFrom .code line ('\'' :: '\'' :: rest)).map (Token.below (body.count '\n')) ∧
      ∀ (ps : List Piece) (before : List Char), LeadsToCode ps before ('"' :: (body ++ '"' :: rest)) →
        let quoted := Outline.ofSource (String.ofList (before ++ '"' :: (body ++ '"' :: rest)))
        let empty := Outline.ofSource (String.ofList (before ++ '\'' :: '\'' :: rest))
        quoted.namespaces = empty.namespaces ∧
          ∃ ds ds', ds = (List.range (ps.filterMap Piece.token?).length).filterMap
              (declarationAt? (tokens (String.ofList (before ++ '\'' :: '\'' :: rest)))) ∧
            empty.declarations = ds ++ ds' ∧
            quoted.declarations = ds ++ ds'.map (Declaration.below (body.count '\n')) := by
  refine ⟨tokensFrom_literal hb line rest, ?_, fun ps before h => ?_⟩
  · rw [tokensFrom_literal hb, tokensFrom_empty_literal, tokensFrom_below]
  · obtain ⟨us, hempty, hquoted⟩ := h.tokens_literal hb
    simp only [Outline.ofSource]
    rw [hempty, hquoted]
    exact ofTokens_append_below _ _ us

/-- An expression with quotes and braces in it, in a literal over two lines: in front of a class, and between two. -/
theorem tokensFrom_doubleQuoted_nested :
    tokensFrom .code 1 "\"\n\x7b$a['\x7b\x7d']\x7d\" class X".toList = [⟨.name, "class", 2⟩, ⟨.name, "X", 2⟩] ∧
      (Outline.ofSource "<?php class W \x7b\x7d \"\n\x7b$a['\x7b\x7d']\x7d\" class X").declarations.map
        (fun d => (d.name, d.line)) = [("W", 1), ("X", 2)] := by
  have hkey : Balanced ['\x7b', '\x7d'] := .braces .nil .nil
  have he : Expression Balanced "a['\x7b\x7d']".toList :=
    .plain (by decide) (.plain (by decide) (.single (.plain (by decide) (by decide) (.plain (by decide) (by decide) .nil))
      hkey (.plain (by decide) .nil)))
  have hb : DoubleQuoted Balanced "\n\x7b$a['\x7b\x7d']\x7d".toList :=
    .plain (by decide) (by decide) (by decide) (.expression he .nil)
  obtain ⟨hquoted, -, houtline⟩ := tokensFrom_doubleQuoted hb 1 " class X".toList
  refine ⟨hquoted.trans (by decide +kernel), ?_⟩
  have hlead : LeadsToCode (pieces "<?php class W \x7b\x7d ") "<?php class W \x7b\x7d ".toList
      "\"\n\x7b$a['\x7b\x7d']\x7d\" class X".toList :=
    ⟨by decide +kernel, by decide +kernel, by decide +kernel⟩
  obtain ⟨-, ds, ds', hds, hempty, hnew⟩ := houtline _ _ hlead
  have hds' : ds' = [⟨"X", none, .classType, 1⟩] := by
    refine List.append_cancel_left (hempty.symm.trans ?_)
    rw [hds]
    decide +kernel
  exact (congrArg _ hnew).trans (by rw [hds, hds']; decide +kernel)

/-- A brace in an array key is counted as one of the expression, which then takes the rest of the source along. -/
theorem ofSource_unbalanced_key :
    DoubleQuoted (fun _ => True) "\x7b$a['\x7b']\x7d".toList ∧
      Outline.ofSource "<?php $x = \"\x7b$a['\x7b']\x7d\"; class X \x7b\x7d" = ⟨[], []⟩ ∧
      Outline.ofSource "<?php $x = ''; class X \x7b\x7d" = ⟨[], [⟨"X", none, .classType, 1⟩]⟩ := by
  have he : Expression (fun _ => True) "a['\x7b']".toList :=
    .plain (by decide) (.plain (by decide) (.single (.plain (by decide) (by decide) .nil) trivial
      (.plain (by decide) .nil)))
  exact ⟨.expression he .nil, by decide +kernel, by decide +kernel⟩

end TypeFinder.Php

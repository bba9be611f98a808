import TypeFinder.Proofs.Php.Insertion

/-! Heredocs and nowdocs among the tokens. A heredoc yields no token, and the reading goes on directly behind the
    first label that closes it. What stands in it makes no difference to the tokens but for their lines, and nothing
    before it can tell what follows its three signs. -/

namespace TypeFinder.Php

/-- The signs that a heredoc starts with. -/
def heredocSigns : List Char := ['<', '<', '<']

/-- What a source yields where three signs follow the text `before`, which the pieces `ps` make up, and `s` follows the
    signs. -/
structure ReadsHeredoc (ps : List Piece) (before s : List Char) : Prop where
  /-- A closed heredoc yields no token. What follows the label that closes it is read as it would be in the place of
      the heredoc, but further down. -/
  closed : ∀ label opener lines rest, IsOpener label opener → s = opener ++ lines ++ label ++ rest →
    ClosesFirst label lines rest →
    tokens (String.ofList (before ++ heredocSigns ++ s)) = ps.filterMap Piece.token? ++
      (tokensFrom .code (1 + before.count '\n') rest).map (Token.below ((opener ++ lines).count '\n'))
  /-- A heredoc that no label closes takes the rest of the source along. -/
  unclosed : ∀ label opener lines, IsOpener label opener → s = opener ++ lines → NeverCloses label lines →
    tokens (String.ofList (before ++ heredocSigns ++ s)) = ps.filterMap Piece.token?
  /-- Where no opener follows them, the signs are a token. -/
  other : LacksOpener s → tokens (String.ofList (before ++ heredocSigns ++ s)) = ps.filterMap Piece.token? ++
    ⟨.other, "<<<", 1 + before.count '\n'⟩ :: tokensFrom .code (1 + before.count '\n') s
  total : LacksOpener s ∨ ∃ label opener text, IsOpener label opener ∧ s = opener ++ text ∧
    (NeverCloses label text ∨ ∃ lines rest, text = lines ++ label ++ rest ∧ ClosesFirst label lines rest)

section
variable {label opener lines rest s s' before : List Char} {line : Nat} {ps : List Piece}

theorem IsOpener.count_label (h : IsOpener label opener) : label.count '\n' = 0 := by
  obtain ⟨-, -, -, -, -, -, -, hlabel, -⟩ := h
  exact List.count_eq_zero.mpr fun hmem => absurd (hlabel _ hmem) (by decide)

/-! ### What stands at three signs -/

theorem tokensFrom_closed (ho : IsOpener label opener) (hc : ClosesFirst label lines rest) :
    tokensFrom .code line (heredocSigns ++ (opener ++ lines ++ label ++ rest)) =
      (tokensFrom .code line rest).map (Token.below ((opener ++ lines).count '\n')) := by
  have hregion : Region .heredoc ('<' :: '<' :: '<' :: (opener ++ lines ++ label)) rest := .heredoc ho hc
  have hcount : ('<' :: '<' :: '<' :: (opener ++ lines ++ label)).count '\n' = (opener ++ lines).count '\n' := by
    rw [← List.singleton_append]
    simp [List.count_append, ho.count_label]
  rw [← tokensFrom_below, ← hcount]
  exact tokensFrom_region hregion (List.cons_ne_nil _ _)

theorem tokensFrom_unclosed (ho : IsOpener label opener) (hn : NeverCloses label lines) :
    tokensFrom .code line (heredocSigns ++ (opener ++ lines)) = [] := by
  have hcuts : Cuts .code (.gap .heredoc) (heredocSigns ++ (opener ++ lines)) [] := .unclosed (.heredoc ho hn)
  rw [← List.append_nil (heredocSigns ++ (opener ++ lines))]
  refine (tokensFrom_of_cuts hcuts).trans ?_
  rw [tokensFrom, piecesFrom]
  rfl

theorem tokensFrom_signs (h : LacksOpener s) :
    tokensFrom .code line (heredocSigns ++ s) = ⟨.other, "<<<", line⟩ :: tokensFrom .code line s :=
  tokensFrom_of_cuts (.word (.shift h))

/-! ### In the source -/

/-- The pieces before three signs are the same whatever follows these. -/
theorem LeadsToCode.tokens_eq (h : LeadsToCode ps before (heredocSigns ++ s)) (s' : List Char) :
    tokens (String.ofList (before ++ heredocSigns ++ s')) =
      ps.filterMap Piece.token? ++ tokensFrom .code (1 + before.count '\n') (heredocSigns ++ s') := by
  -- No opener holds the signs, so none of the pieces before can look past them.
  have hagrees (x : List Char) : Agrees (x ++ (heredocSigns ++ s)) (x ++ (heredocSigns ++ s')) := by
    rw [← List.append_assoc, ← List.append_assoc]
    exact agrees_mark (fun _ _ ho => ⟨'<', by decide, ho.not_mem (by decide) (by decide) (by decide)⟩) (by decide) x s s'
  rw [List.append_assoc, h.tokens_exchange hagrees]

/-- Where three signs follow, the source is read by what follows them, and the tokens before are the same. -/
theorem readsHeredoc (h : LeadsToCode ps before (heredocSigns ++ s)) (s' : List Char) : ReadsHeredoc ps before s' where
  closed label opener lines rest ho hs hc := by rw [h.tokens_eq, hs, tokensFrom_closed ho hc]
  unclosed label opener lines ho hs hn := by rw [h.tokens_eq, hs, tokensFrom_unclosed ho hn, List.append_nil]
  other hlacks := by rw [h.tokens_eq, tokensFrom_signs hlacks]
  total := by
    by_cases hlacks : LacksOpener s'
    · exact .inl hlacks
    · obtain ⟨label, opener, ho, text, rfl⟩ : ∃ label opener, IsOpener label opener ∧ opener <+: s' := by
        simpa only [LacksOpener, not_forall, not_not, exists_prop] using hlacks
      exact .inr ⟨label, opener, text, ho, rfl, exists_closesFirst_or_never label text⟩

end

/-- A nowdoc whose first line starts with a longer word than the label, and which holds an open brace and a closing
    tag. -/
theorem readsHeredoc_nowdoc :
    LeadsToCode (pieces "<?php $a = ") "<?php $a = ".toList
        (heredocSigns ++ " 'RAW'\r\nRAWS class X \x7b ?>\n\t RAW;\nclass Y".toList) ∧
      tokens "<?php $a = <<< 'RAW'\r\nRAWS class X \x7b ?>\n\t RAW;\nclass Y" =
        [⟨.variable, "$a", 1⟩, ⟨.other, "=", 1⟩, ⟨.semicolon, ";", 3⟩, ⟨.name, "class", 4⟩, ⟨.name, "Y", 4⟩] := by
  have hlead : LeadsToCode (pieces "<?php $a = ") "<?php $a = ".toList
      (heredocSigns ++ " 'RAW'\r\nRAWS class X \x7b ?>\n\t RAW;\nclass Y".toList) :=
    ⟨by decide +kernel, by decide +kernel, by decide +kernel⟩
  have ho : IsOpener "RAW".toList " 'RAW'\r\n".toList :=
    ⟨[' '], ['\''], ['\r', '\n'], by decide, List.all_eq_true.mp (by decide), by decide, by decide,
      List.all_eq_true.mp (by decide), by decide⟩
  have hc : ClosesFirst "RAW".toList "RAWS class X \x7b ?>\n\t ".toList ";\nclass Y".toList :=
    closesFirst_of_heredocLength (by decide) (by decide) (by decide +kernel)
  have htokens := (readsHeredoc hlead _).closed _ _ _ ";\nclass Y".toList ho rfl hc
  refine ⟨hlead, ?_⟩
  exact htokens.trans (by decide +kernel)

end TypeFinder.Php

import TypeFinder.Proofs.Php.Insertion

/-! PHP code in sections. A closing tag at the end of a text parts it from whatever is put behind: no piece of the
    text reaches over the tag, and what follows is read like a source of its own. The pass over the tokens goes over
    the border with its brace depth and nothing else, and no declaration depends on how deep it stands. -/

namespace TypeFinder.Php

/-! ### Over a closing tag -/

/-- The tag that ends PHP code. -/
def closeTag : List Char := ['?', '>']

section
variable {label opener s x v : List Char} {m : Mode} {line : Nat} {ps : List Piece} {p : Piece}

/-- A piece cannot tell what stands behind a closing tag. -/
theorem agrees_closeTag (x v w : List Char) : Agrees (x ++ closeTag ++ v) (x ++ closeTag ++ w) :=
  agrees_mark (fun _ _ ho => ⟨'?', by decide, ho.not_mem (by decide) (by decide) (by decide)⟩) (by decide) x v w

theorem Pieces.text_eq (h : Pieces m line s ps) : ps.flatMap Piece.text = s := by
  induction h with
  | nil => rfl
  | cons _ _ ih => rw [List.flatMap_cons, ih, Piece.text]

theorem Cuts.closeTag_text {t rest : List Char} (h : Cuts m .closeTag t rest) : m = .code ∧ t = closeTag := by
  cases h with
  | word hw => exact ⟨rfl, hw.text_iff.mpr rfl⟩

/-- The tokens of a text that ends in a closing tag stand whatever is put behind it, and that is inline HTML. -/
theorem Pieces.append_closeTag (h : Pieces m line s (ps ++ [p])) (hp : p.shape = .closeTag) (v : List Char) :
    tokensFrom m line (s ++ v) =
      (ps ++ [p]).filterMap Piece.token? ++ tokensFrom .html (line + s.count '\n') v := by
  obtain ⟨_, rfl, hlast, hexchange⟩ := h.tokensFrom_exchange
  obtain ⟨rest, rfl, hline, hcuts, hnil⟩ := hlast.of_cons
  obtain rfl : [] = rest := hnil.text_eq
  obtain ⟨hcode, htext⟩ := (hp ▸ hcuts).closeTag_text
  have hcuts' : Cuts (m.behind ps) p.shape (p.first :: p.others) v := by
    rw [hcode]
    refine .word ?_
    show Word p.shape p.text v
    rw [htext, hp]
    exact .closeTag
  have hagrees (x : List Char) : Agrees (x ++ (p.text ++ [])) (x ++ (p.text ++ v)) := by
    rw [htext, ← List.append_assoc, ← List.append_assoc]
    exact agrees_closeTag x [] v
  have hafter : p.shape.after = .html := by rw [hp]; rfl
  have heq : tokensFrom (m.behind ps) p.line (p.text ++ v) =
      [p].filterMap Piece.token? ++ tokensFrom .html (p.line + p.text.count '\n') v := by
    rw [← hafter, List.filterMap_cons]
    exact (tokensFrom_of_cuts hcuts').trans (by cases p.token? <;> rfl)
  rw [List.append_nil, List.append_assoc, hexchange _ hagrees, ← hline, heq, List.filterMap_append, List.append_assoc,
    List.count_append, ← Nat.add_assoc, hline]

end

/-- The last token of the source is a closing tag, and nothing follows it. -/
def EndsInCloseTag (source : String) : Prop :=
  ∃ p, (placed source).getLast? = some p ∧ p.token.text = "?>" ∧ p.stop = (bytes source).length

section
variable {s t : String}

theorem EndsInCloseTag.exists_piece (h : EndsInCloseTag s) :
    ∃ ps p, pieces s = ps ++ [p] ∧ p.shape = .closeTag ∧ ∃ u, p.token? = some u := by
  obtain ⟨q, hlast, htag, hstop⟩ := h
  rw [List.getLast?_eq_getElem?] at hlast
  obtain ⟨front, p, behind, hpieces, hp, -, hstop'⟩ := exists_piece_of_placedFrom hlast
  have hall : Pieces .html 1 s.toList (front ++ p :: behind) := hpieces ▸ pieces_piecesFrom _ _ _
  -- The span ends where the source ends, so no piece is left behind it.
  have hnil : behind = [] := by
    rw [hstop, bytes_eq_encode, ← hall.text_eq, List.flatMap_append, List.flatMap_cons, ← List.append_assoc,
      encode_append, List.length_append] at hstop'
    have hempty : behind.flatMap Piece.text = [] := by
      by_contra hne
      have := List.length_pos_iff.mpr (encode_ne_nil hne)
      omega
    cases behind with
    | nil => rfl
    | cons r behind => simp [Piece.text] at hempty
  subst hnil
  refine ⟨front, p, hpieces, ?_, _, hp⟩
  obtain ⟨m, rest, hcuts⟩ := hall.cuts_of_mem (p := p) (by simp)
  refine (hcuts.word_of_token? hp).2.text_iff.mp ?_
  rw [← String.toList_ofList (l := p.text), ← (Piece.eq_of_token? hp).1, htag]
  rfl

/-- Sections compose: the tokens of two sources one after the other are those of the one and then those of the
    other. -/
theorem tokens_append (h : EndsInCloseTag s) :
    tokens (s ++ t) = tokens s ++ (tokens t).map (Token.below (s.toList.count '\n')) := by
  obtain ⟨ps, p, hpieces, hp, -⟩ := h.exists_piece
  have hall : Pieces .html 1 s.toList (ps ++ [p]) := hpieces ▸ pieces_piecesFrom _ _ _
  have happend := hall.append_closeTag hp t.toList
  rw [tokensFrom_below] at happend
  rw [tokens, pieces, String.toList_append, tokens, hpieces]
  exact happend

end
/-! ### Inline HTML in front -/

/-- An open tag may be cut short where the text ends. -/
def BreaksOff (h : List Char) : Prop :=
  ∃ part, part <:+ h ∧ part.map Char.toLower ∈ [['<'], ['<', '?'], ['<', '?', 'p'], ['<', '?', 'p', 'h']]

section
variable {h u tag part : List Char} {line : Nat}

theorem IsOpenTag.map_part (ht : IsOpenTag tag) {d : List Char} (heq : tag = part ++ d) (hpart : part ≠ []) (hd : d ≠ []) :
    part.map Char.toLower ∈ [['<'], ['<', '?'], ['<', '?', 'p'], ['<', '?', 'p', 'h']] := by
  have hlower : part.map Char.toLower ++ d.map Char.toLower = ['<', '?', '='] ∨
      part.map Char.toLower ++ d.map Char.toLower = ['<', '?', 'p', 'h', 'p'] := by
    rw [← List.map_append, ← heq]
    rcases ht with rfl | ⟨word, rfl, hword⟩
    · exact Or.inl rfl
    · refine Or.inr ?_
      simp only [List.map_cons, hword]
      rfl
  have hpart' : part.map Char.toLower ≠ [] := mt List.map_eq_nil_iff.mp hpart
  have hd' : d.map Char.toLower ≠ [] := mt List.map_eq_nil_iff.mp hd
  generalize part.map Char.toLower = x at hlower hpart'
  generalize d.map Char.toLower = y at hlower hd'
  rcases hlower with h | h
  · match x, y with
    | [a], _ => simp_all
    | [a, b], _ => simp_all
    | a :: b :: c :: x, e :: y => simp at h
  · match x, y with
    | [a], _ => simp_all
    | [a, b], _ => simp_all
    | [a, b, c], _ => simp_all
    | [a, b, c, d], _ => simp_all
    | a :: b :: c :: d :: e :: x, f :: y => simp at h

theorem LacksOpenTag.append (hh : LacksOpenTag h) (hbreak : ¬ BreaksOff h) (hu : LacksOpenTag u) :
    LacksOpenTag (h ++ u) := by
  rintro tag ht hin
  rcases List.infix_append_iff.mp hin with hin | hin | ⟨part, d, heq, hpart, hd⟩
  · exact hh tag ht hin
  · exact hu tag ht hin
  · by_cases hpnil : part = []
    · subst hpnil
      exact hu tag ht (heq ▸ hd.isInfix)
    by_cases hdnil : d = []
    · subst hdnil
      exact hh tag ht (by simpa [heq] using hpart.isInfix)
    exact hbreak ⟨part, hpart, ht.map_part heq hpnil hdnil⟩

/-- Text without an open tag in front only moves the tokens down. -/
theorem tokensFrom_html (hh : LacksOpenTag h) (hbreak : ¬ BreaksOff h) (u : List Char) :
    tokensFrom .html line (h ++ u) = tokensFrom .html (line + h.count '\n') u := by
  have hunclosed {line : Nat} {x : List Char} (hx : LacksOpenTag x) : tokensFrom .html line x = [] := by
    cases x with
    | nil => simp [tokensFrom, piecesFrom]
    | cons c r =>
      have hcuts : Cuts .html (.gap .html) (c :: r) [] := .unclosed (.html hx)
      have heq : tokensFrom .html line (c :: r ++ []) = [] ++ tokensFrom .code _ [] := tokensFrom_of_cuts hcuts
      rw [List.append_nil] at heq
      rw [heq, tokensFrom, piecesFrom]
      rfl
  rcases exists_openTag_or_lacks u with hu | ⟨x, tag, rest, rfl, hx, ht⟩
  · rw [hunclosed (hh.append hbreak hu), hunclosed hu]
  · have hregion {line : Nat} {y : List Char} (hy : LacksOpenTag y) :
        tokensFrom .html line (y ++ tag ++ rest) = tokensFrom .code (line + (y ++ tag).count '\n') rest :=
      tokensFrom_region (k := .html) (.html hy ht) (List.append_ne_nil_of_right_ne_nil _ ht.ne_nil)
    rw [← List.append_assoc, ← List.append_assoc, hregion (hh.append hbreak hx), hregion hx]
    simp only [List.count_append, Nat.add_assoc]

end

/-! ### Behind a semicolon -/

section
variable {before : Option Token} {t c : Token} {rest ts us : List Token} {i j : Nat}

theorem effect_of_semicolon (ht : t.kind = .semicolon) : effect before t rest = .none := by
  simp [effect, ht, Token.isKeyword, declares?]

/-- A semicolon before a token says as little as no token. -/
theorem effect_behind_semicolon (hc : c.kind = .semicolon) : effect (some c) t rest = effect none t rest := by
  have haccess : c.isMemberAccess = false := by simp [Token.isMemberAccess, hc]
  have hshadow : isShadowed (some c) = isShadowed none := by simp [isShadowed, haccess, Token.isKeyword, hc]
  simp only [effect, declares?, hshadow, Option.any_some, Option.any_none, haccess]

theorem effect_append (hc : c.kind = .semicolon) :
    effect before t (rest ++ c :: us) = effect before t (rest ++ [c]) := by
  have henters : enters? (rest ++ c :: us) = enters? (rest ++ [c]) := by
    match rest with
    | [] => simp [enters?, hc]
    | [u] => rfl
    | u :: v :: rest => rfl
  have hdeclares : declares? before t (rest ++ c :: us) = declares? before t (rest ++ [c]) := by
    match rest with
    | [] => simp [declares?, hc]
    | [u] => rfl
    | u :: v :: rest => rfl
  rw [effect, henters, hdeclares, effect]

theorem effectAt_front (hc : c.kind = .semicolon) (hj : j ≤ ts.length) :
    effectAt (ts ++ c :: us) j = effectAt (ts ++ [c]) j := by
  have hbefore : before? (ts ++ c :: us) j = before? (ts ++ [c]) j := by
    cases j with
    | zero => rfl
    | succ j => simp only [before?, List.getElem?_append_left hj]
  rcases Nat.lt_or_eq_of_le hj with hlt | rfl
  · have ht : ∀ us, (ts ++ us)[j]? = some ts[j] := fun us => by
      rw [List.getElem?_append_left hlt, List.getElem?_eq_getElem]
    rw [effectAt_of_getElem? (ht _), effectAt_of_getElem? (ht _), hbefore, List.drop_append_of_le_length hlt,
      List.drop_append_of_le_length hlt, effect_append hc]
  · have ht : ∀ us, (ts ++ c :: us)[ts.length]? = some c := fun us => by simp
    rw [effectAt_of_getElem? (ht _), effectAt_of_getElem? (ht _), effect_of_semicolon hc, effect_of_semicolon hc]

theorem getElem?_behind (i : Nat) : (ts ++ c :: us)[ts.length + 1 + i]? = us[i]? := by
  have hlen : ts.length + 1 + i - ts.length = i + 1 := by omega
  rw [List.getElem?_append_right (by omega), hlen, List.getElem?_cons_succ]

theorem effectAt_behind (hc : c.kind = .semicolon) (i : Nat) :
    effectAt (ts ++ c :: us) (ts.length + 1 + i) = effectAt us i := by
  have hdrop : (ts ++ c :: us).drop (ts.length + 1 + i + 1) = us.drop (i + 1) := by
    have : ts.length + 1 + i + 1 = ts.length + (i + 2) := by omega
    rw [this, List.drop_length_add_append]
    rfl
  cases ht : us[i]? with
  | none => simp [effectAt, getElem?_behind, ht]
  | some t =>
    rw [effectAt_of_getElem? ((getElem?_behind i).trans ht), effectAt_of_getElem? ht, hdrop]
    cases i with
    | zero =>
      have hbefore : before? (ts ++ c :: us) (ts.length + 1 + 0) = some c := by simp [before?]
      rw [hbefore, effect_behind_semicolon hc]
      rfl
    | succ i =>
      have hbefore : before? (ts ++ c :: us) (ts.length + 1 + (i + 1)) = us[i]? := getElem?_behind i
      rw [hbefore]
      rfl

/-! ### How deep does not matter -/

/-- The token at the index opens a brace, or it is a name and the next one does. -/
def OpensAt (ts : List Token) (i : Nat) : Prop :=
  ∃ t, ts[i]? = some t ∧ (t.kind = .openBrace ∨ t.kind = .name ∧ (ts[i + 1]?).any (·.kind = .openBrace) = true)

/-- Two scopes before the token at the index `i` that differ only in how deep they are. A namespace block is open in
    both or in neither, and each is as deep below it as the other; they are at its own depth only before its brace. -/
structure Alike (ts : List Token) (i : Nat) (s s' : Scope) : Prop where
  current : s.current = s'.current
  block : s.block = none ∧ s'.block = none ∨
    ∃ k k', s.block = some k ∧ s'.block = some k' ∧ s.depth + k' = s'.depth + k ∧ k ≤ s.depth ∧
      (s.depth = k → OpensAt ts i)

theorem opensAt_of_enters? {name : Option String} {braced : Bool} (h : enters? (us.drop i) = some (name, braced)) :
    (braced = true → OpensAt us i) ∧ ((us[i]?).any (·.kind = .openBrace) = true → braced = true) := by
  cases hu : us[i]? with
  | none =>
    rw [List.drop_eq_nil_of_le (List.getElem?_eq_none_iff.mp hu)] at h
    cases h
  | some u =>
    have hdrop : us.drop i = u :: us.drop (i + 1) := by
      obtain ⟨hlt, rfl⟩ := List.getElem?_eq_some_iff.mp hu
      exact List.drop_eq_getElem_cons hlt
    rw [hdrop, enters?, List.head?_drop] at h
    split at h
    · rename_i hname
      cases h
      refine ⟨fun ho => ⟨u, hu, Or.inr ⟨hname.1, ho⟩⟩, fun ho => ?_⟩
      rw [Option.any_some, decide_eq_true_eq, hname.1] at ho
      cases ho
    · split at h
      · rename_i ho
        cases h
        exact ⟨fun _ => ⟨u, hu, Or.inl ho⟩, fun _ => rfl⟩
      · cases h

namespace Alike
variable {s s' : Scope}

/-- A token other than an opening brace leaves the next one to open the block. -/
theorem next (h : Alike us i s s') (ht : ∀ t, us[i]? = some t → t.kind ≠ .openBrace) : Alike us (i + 1) s s' := by
  refine ⟨h.current, h.block.imp_right ?_⟩
  rintro ⟨k, k', hb, hb', hd, hk, hopens⟩
  refine ⟨k, k', hb, hb', hd, hk, fun heq => ?_⟩
  obtain ⟨t, hti, ho | ⟨-, ho⟩⟩ := hopens heq
  · exact absurd ho (ht t hti)
  · obtain ⟨u, hu, huo⟩ := (Option.any_eq_true _ _).mp ho
    exact ⟨u, hu, Or.inl (of_decide_eq_true huo)⟩

theorem openBrace (h : Alike us i s s') :
    Alike us (i + 1) (s.advance .openBrace) (s'.advance .openBrace) := by
  refine ⟨h.current, h.block.imp_right ?_⟩
  rintro ⟨k, k', hb, hb', hd, hk, -⟩
  refine ⟨k, k', hb, hb', ?_, ?_, ?_⟩ <;> simp only [Scope.advance] <;> omega

theorem closeBrace (h : Alike us i s s') (hclose : ¬ OpensAt us i) :
    Alike us (i + 1) (s.advance .closeBrace) (s'.advance .closeBrace) := by
  rcases h.block with ⟨hb, hb'⟩ | ⟨k, k', hb, hb', hd, hk, hopens⟩
  · exact ⟨by simp [Scope.advance, hb, hb', h.current], Or.inl (by simp [Scope.advance, hb, hb'])⟩
  -- The brace is below the block's own depth, so it closes the block in both scopes or in neither.
  have hlt : k < s.depth := Nat.lt_of_le_of_ne hk fun heq => hclose (hopens heq.symm)
  by_cases heq : k = s.depth - 1
  · have heq' : k' = s'.depth - 1 := by omega
    exact ⟨by simp [Scope.advance, hb, hb', ← heq, ← heq'], Or.inl (by simp [Scope.advance, hb, hb', ← heq, ← heq'])⟩
  · have heq' : k' ≠ s'.depth - 1 := by omega
    refine ⟨by simp [Scope.advance, hb, hb', heq, heq', h.current], Or.inr ⟨k, k', ?_⟩⟩
    simp only [Scope.advance, hb, hb', Option.some.injEq, heq, heq', if_false, true_and]
    omega

theorem enter (h : Alike us i s s') {name : Option String} {braced : Bool}
    (hbraced : braced = true → OpensAt us (i + 1)) (hopens : OpensAt us i → braced = true) :
    Alike us (i + 1) (s.advance (.enter name braced)) (s'.advance (.enter name braced)) := by
  refine ⟨rfl, ?_⟩
  cases braced with
  | true =>
    exact Or.inr ⟨s.depth, s'.depth, rfl, rfl, Nat.add_comm _ _, Nat.le_refl _, fun _ => hbraced rfl⟩
  | false =>
    refine h.block.imp_right ?_
    rintro ⟨k, k', hb, hb', hd, hk, hk'⟩
    exact ⟨k, k', hb, hb', hd, hk, fun heq => absurd (hopens (hk' heq)) (by decide)⟩

theorem step (h : Alike us i s s') :
    Alike us (i + 1) (s.advance (effectAt us i)) (s'.advance (effectAt us i)) := by
  cases ht : us[i]? with
  | none =>
    have he : effectAt us i = .none := by simp [effectAt, ht]
    rw [he]
    exact h.next (by simp [ht])
  | some t =>
    have hnext (hne : t.kind ≠ .openBrace) : Alike us (i + 1) s s' := h.next fun u hu => by
      rw [ht] at hu
      exact Option.some.inj hu ▸ hne
    have hdoes : Does (before? us i) t (us.drop (i + 1)) (effectAt us i) := effectAt_of_getElem? ht ▸ does_effect
    generalize effectAt us i = e at hdoes
    cases hdoes with
    | openBrace => exact h.openBrace
    | closeBrace hk =>
      refine h.closeBrace ?_
      rintro ⟨u, hu, ho⟩
      rw [ht] at hu
      obtain rfl := Option.some.inj hu
      rcases ho with ho | ⟨ho, -⟩ <;> rw [hk] at ho <;> cases ho
    | enter hn _ he =>
      obtain ⟨hbraced, hopens⟩ := opensAt_of_enters? he
      refine h.enter hbraced ?_
      rintro ⟨u, hu, ho⟩
      rw [ht] at hu
      obtain rfl := Option.some.inj hu
      refine hopens (ho.elim (fun ho => ?_) And.right)
      rw [kind_of_isKeyword hn] at ho
      cases ho
    | declare hd => exact hnext (by rw [(kind_of_declares? hd).1]; decide)
    | none hne => exact hnext hne

end Alike

theorem scopeBehind_front (hc : c.kind = .semicolon) (hj : j ≤ ts.length + 1) :
    scopeBehind (ts ++ c :: us) j = scopeBehind (ts ++ [c]) j := by
  induction j with
  | zero => rfl
  | succ j ih => rw [scopeBehind, scopeBehind, ih (by omega), effectAt_front hc (by omega)]

/-- Behind a semicolon outside of all namespaces, the pass goes on as from the start but for the depth. -/
theorem alike_scopeBehind (hc : c.kind = .semicolon) (hcur : (scopeBehind (ts ++ [c]) (ts.length + 1)).current = none)
    (hblock : (scopeBehind (ts ++ [c]) (ts.length + 1)).block = none) (i : Nat) :
    Alike us i (scopeBehind (ts ++ c :: us) (ts.length + 1 + i)) (scopeBehind us i) := by
  induction i with
  | zero =>
    rw [Nat.add_zero, scopeBehind_front hc (Nat.le_refl _)]
    exact ⟨hcur, Or.inl ⟨hblock, rfl⟩⟩
  | succ i ih =>
    rw [← Nat.add_assoc, scopeBehind, scopeBehind, effectAt_behind hc]
    exact ih.step

theorem declarationAt?_front (hc : c.kind = .semicolon) (hj : j ≤ ts.length) :
    declarationAt? (ts ++ c :: us) j = declarationAt? (ts ++ [c]) j := by
  have hget : (ts ++ c :: us)[j]? = (ts ++ [c])[j]? := by
    rcases Nat.lt_or_eq_of_le hj with hlt | rfl
    · rw [List.getElem?_append_left hlt, List.getElem?_append_left hlt]
    · simp
  rw [declarationAt?, effectAt_front hc hj, scopeBehind_front hc (Nat.le_succ_of_le hj), hget, declarationAt?]

theorem declarationAt?_behind (hc : c.kind = .semicolon)
    (hcur : (scopeBehind (ts ++ [c]) (ts.length + 1)).current = none)
    (hblock : (scopeBehind (ts ++ [c]) (ts.length + 1)).block = none) (i : Nat) :
    declarationAt? (ts ++ c :: us) (ts.length + 1 + i) = declarationAt? us i := by
  have hcur : (scopeBehind (ts ++ c :: us) (ts.length + 1 + i)).current = (scopeBehind us i).current :=
    (alike_scopeBehind hc hcur hblock i).current
  have hqual (name : String) :
      (scopeBehind (ts ++ c :: us) (ts.length + 1 + i)).qualify name = (scopeBehind us i).qualify name := by
    rw [Scope.qualify, hcur, Scope.qualify]
  simp only [declarationAt?, effectAt_behind hc, getElem?_behind, hqual, hcur]

/-- The outlines of two token lists one after the other, parted by a semicolon outside of all namespaces. -/
theorem ofTokens_append (hc : c.kind = .semicolon) (hcur : (scopeBehind (ts ++ [c]) (ts.length + 1)).current = none)
    (hblock : (scopeBehind (ts ++ [c]) (ts.length + 1)).block = none) (us : List Token) :
    Outline.ofTokens (ts ++ c :: us) =
      ⟨(Outline.ofTokens (ts ++ [c])).namespaces ++ (Outline.ofTokens us).namespaces,
        (Outline.ofTokens (ts ++ [c])).declarations ++ (Outline.ofTokens us).declarations⟩ := by
  have hlen : (ts ++ [c]).length = ts.length + 1 := by simp
  have hrange : List.range (ts ++ c :: us).length =
      List.range (ts ++ [c]).length ++ (List.range us.length).map (ts.length + 1 + ·) := by
    rw [hlen, ← List.range_add, List.length_append, List.length_cons, Nat.add_right_comm, Nat.add_assoc ts.length]
  have hfront {j : Nat} (hj : j ∈ List.range (ts ++ [c]).length) : j ≤ ts.length := by
    rw [List.mem_range, hlen] at hj
    omega
  rw [ofTokens_eq, ofTokens_eq, ofTokens_eq, hrange]
  simp only [List.filterMap_append, List.filterMap_map, Outline.mk.injEq]
  refine ⟨congrArg₂ (· ++ ·) ?_ ?_, congrArg₂ (· ++ ·) ?_ ?_⟩
  · exact List.filterMap_congr fun j hj => by rw [namespaceAt?, effectAt_front hc (hfront hj), namespaceAt?]
  · exact List.filterMap_congr fun i _ => by rw [Function.comp, namespaceAt?, effectAt_behind hc, namespaceAt?]
  · exact List.filterMap_congr fun j hj => declarationAt?_front hc (hfront hj)
  · exact List.filterMap_congr fun i _ => declarationAt?_behind hc hcur hblock i

theorem ofTokens_below (k : Nat) (ts : List Token) :
    Outline.ofTokens (ts.map (Token.below k)) =
      ⟨(Outline.ofTokens ts).namespaces, (Outline.ofTokens ts).declarations.map (Declaration.below k)⟩ := by
  obtain ⟨hnamespaces, ds, ds', rfl, hold, hnew⟩ := ofTokens_append_below k [] ts
  simp only [List.nil_append, List.length_nil, List.range_zero, List.filterMap_nil] at hnamespaces hold hnew
  rw [hold, ← hnamespaces, ← hnew]

end

/-! ### Two sources, one after the other -/

/-- The scope behind all tokens of a source. -/
def scopeAtEnd (source : String) : Scope := (Pass.run ⟨.global, [], []⟩ none (tokens source)).scope

theorem scopeAtEnd_eq (source : String) :
    scopeAtEnd source = scopeBehind (tokens source) (tokens source).length := by
  have h : Pass.run ⟨.global, [], []⟩ none (tokens source) = passBehind (tokens source) (tokens source).length :=
    run_passBehind (tokens source) (Nat.zero_le _)
  rw [scopeAtEnd, h, passBehind]

theorem EndsInCloseTag.exists_tokens {s : String} (h : EndsInCloseTag s) :
    ∃ ts c, tokens s = ts ++ [c] ∧ c.kind = .semicolon := by
  obtain ⟨ps, p, hpieces, hp, u, hu⟩ := h.exists_piece
  refine ⟨ps.filterMap Piece.token?, u, by simp [tokens, hpieces, hu], ?_⟩
  rw [Piece.token?, hp] at hu
  exact Option.some.inj hu ▸ rfl

/-- Sections compose. A source `s` that ends in a closing tag keeps its tokens with `t` behind it, and those of `t`
    follow, further down. Their outlines follow each other as well when no namespace is in effect where `s` ends and
    no block is open, however deep in braces that is. Inline HTML `h` adds no token to `t`. -/
theorem ofSource_append (s h t : String) :
    (EndsInCloseTag s →
      tokens (s ++ t) = tokens s ++ (tokens t).map (Token.below (s.toList.count '\n')) ∧
      ((scopeAtEnd s).current = none → (scopeAtEnd s).block = none →
        Outline.ofSource (s ++ t) =
          ⟨(Outline.ofSource s).namespaces ++ (Outline.ofSource t).namespaces,
            (Outline.ofSource s).declarations ++
              (Outline.ofSource t).declarations.map (Declaration.below (s.toList.count '\n'))⟩)) ∧
    (LacksOpenTag h.toList → ¬ BreaksOff h.toList →
      tokens (h ++ t) = (tokens t).map (Token.below (h.toList.count '\n'))) := by
  refine ⟨fun hs => ⟨tokens_append hs, fun hcur hblock => ?_⟩, fun hh hbreak => ?_⟩
  · obtain ⟨ts, c, htokens, hc⟩ := hs.exists_tokens
    have hlen : (ts ++ [c]).length = ts.length + 1 := by simp
    rw [scopeAtEnd_eq, htokens, hlen] at hcur hblock
    rw [Outline.ofSource, tokens_append hs, htokens, List.append_assoc, List.singleton_append,
      ofTokens_append hc hcur hblock, ofTokens_below, Outline.ofSource, htokens, Outline.ofSource]
  · have htokens : tokensFrom .html 1 (h.toList ++ t.toList) = _ := tokensFrom_html hh hbreak t.toList
    rw [tokensFrom_below] at htokens
    rw [tokens, pieces, String.toList_append]
    exact htokens

theorem lacksOpenTag_iff {h : List Char} : LacksOpenTag h ↔ ∀ x ∈ h.tails, openTag? x = none := by
  simp only [List.mem_tails]
  constructor
  · intro hh x hx
    by_contra hne
    obtain ⟨k, hk⟩ := Option.ne_none_iff_exists'.mp hne
    obtain ⟨tag, rest, rfl, ht, -⟩ := openTag?_eq_some_iff.mp hk
    exact hh tag ht ((List.prefix_append tag rest).isInfix.trans hx.isInfix)
  · rintro hall tag ht ⟨u, v, rfl⟩
    have hsome : openTag? (tag ++ v) = some tag.length := openTag?_eq_some_iff.mpr ⟨tag, v, rfl, ht, rfl⟩
    rw [hall (tag ++ v) ⟨u, by simp⟩] at hsome
    cases hsome

instance (h : List Char) : Decidable (LacksOpenTag h) := decidable_of_iff _ lacksOpenTag_iff.symm

instance (h : List Char) : Decidable (BreaksOff h) :=
  decidable_of_iff (∃ part ∈ h.tails,
    part.map Char.toLower ∈ [['<'], ['<', '?'], ['<', '?', 'p'], ['<', '?', 'p', 'h']])
    (by simp only [List.mem_tails, BreaksOff])

/-- A section that closes a brace too much and leaves another open, before one with a block, and a line of text. -/
theorem ofSource_append_unbalanced :
    let s := "<?php \x7d class A \x7b\n ?>"
    let t := "<?= 1 ?>\n<?php namespace N \x7b class B \x7b\x7d \x7d class C"
    Outline.ofSource (s ++ t) =
        ⟨["N"], [⟨"A", none, .classType, 1⟩, ⟨"N\\B", some "N", .classType, 3⟩, ⟨"C", none, .classType, 3⟩]⟩ ∧
      tokens ("<b> ?>\n" ++ t) = (tokens t).map (Token.below 1) := by
  intro s t
  have hs : EndsInCloseTag s := ⟨⟨⟨.semicolon, "?>", 2⟩, 19, 21⟩, by decide +kernel, by decide, by decide +kernel⟩
  obtain ⟨hsection, hhtml⟩ := ofSource_append s "<b> ?>\n" t
  refine ⟨?_, (hhtml (by decide +kernel) (by decide +kernel)).trans ?_⟩
  · rw [(hsection hs).2 (by decide +kernel) (by decide +kernel)]
    decide +kernel
  · decide +kernel

end TypeFinder.Php

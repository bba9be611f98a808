import TypeFinder.Proofs.Php.Lookahead
import TypeFinder.Proofs.Php.Pass
import TypeFinder.Proofs.Php.Tiling

/-! Comments and quoted literals are invisible. One that is put behind a token, between two blanks, leaves all tokens
    as they are but for the lines of those behind it. Nothing before it looks far enough ahead to notice; it ends at
    its own end; and what follows it is read as before. -/

namespace TypeFinder.Php

/-! ### Comments and literals -/

/-- A comment or a quoted literal as a whole, a line comment with the end of its line. -/
inductive Hidden : List Char → Prop
  | block {body : List Char} : ¬ ['*', '/'] <:+: body → Hidden ('/' :: '*' :: (body ++ ['*', '/']))
  | slashes {body : List Char} : IsLineBody body → Hidden ('/' :: '/' :: (body ++ ['\n']))
  | hash {body : List Char} : body.head? ≠ some '[' → IsLineBody body → Hidden ('#' :: (body ++ ['\n']))
  | single {body : List Char} : SingleQuoted body → Hidden ('\'' :: (body ++ ['\'']))
  | interpolated {quote : Char} {body : List Char} : quote = '"' ∨ quote = backtick → Interpolated quote body →
      Hidden (quote :: (body ++ [quote]))

section
variable {label body r v x y : List Char} {quote : Char}

theorem SingleQuoted.escaped (hb : SingleQuoted body) {e t : List Char} (h : body = e ++ '\'' :: t) : '\\' ∈ e := by
  induction hb generalizing e with
  | nil => cases e <;> cases h
  | escape =>
    cases e with
    | nil => cases (List.cons.inj h).1
    | cons d e => exact (List.cons.inj h).1 ▸ List.mem_cons_self
  | plain _ hq _ ih =>
    cases e with
    | nil => exact absurd (List.cons.inj h).1 hq
    | cons d e => exact List.mem_cons_of_mem d (ih (List.cons.inj h).2)

/-- A quote within a literal stands behind a backslash, or behind the brace of an expression. -/
theorem Interpolated.escaped (hb : Interpolated quote body) (hquote : quote ≠ '\\' ∧ quote ≠ '{') {e t : List Char}
    (h : body = e ++ quote :: t) : '\\' ∈ e ∨ '{' ∈ e := by
  induction hb generalizing e with
  | nil => cases e <;> cases h
  | escape =>
    cases e with
    | nil => exact absurd (List.cons.inj h).1.symm hquote.1
    | cons d e => exact Or.inl ((List.cons.inj h).1 ▸ List.mem_cons_self)
  | expression =>
    cases e with
    | nil => exact absurd (List.cons.inj h).1.symm hquote.2
    | cons d e => exact Or.inr ((List.cons.inj h).1 ▸ List.mem_cons_self)
  | plain _ hq _ _ ih =>
    cases e with
    | nil => exact absurd (List.cons.inj h).1 hq
    | cons d e => exact (ih (List.cons.inj h).2).imp (List.mem_cons_of_mem d) (List.mem_cons_of_mem d)

/-- Name characters up to a quote are the whole literal that the quote ends. -/
theorem eq_of_append_quote (hquote : isNameChar quote = false) (hl : ∀ c ∈ label, isNameChar c = true)
    (hb : ∀ e t, body = e ++ quote :: t → ∃ c ∈ e, isNameChar c = false)
    (h : body ++ quote :: x = label ++ quote :: y) : x = y := by
  rcases List.append_eq_append_iff.mp h with ⟨d, rfl, hd⟩ | ⟨d, rfl, hd⟩
  · cases d with
    | nil => exact (List.cons.inj hd).2
    | cons a d =>
      obtain rfl : quote = a := (List.cons.inj hd).1
      rw [hl quote (by simp)] at hquote
      cases hquote
  · cases d with
    | nil => exact (List.cons.inj hd).2.symm
    | cons a d =>
      obtain rfl : quote = a := (List.cons.inj hd).1
      obtain ⟨c, hc, hname⟩ := hb label d rfl
      rw [hl c hc] at hname
      cases hname

/-- Behind one blank, an opener that starts a text without blanks in front has no more blanks. -/
theorem IsOpener.behind_blank {label opener tail s : List Char} (h : IsOpener label opener)
    (hs : s.head?.any isBlank = false) (heq : opener ++ tail = ' ' :: s) :
    ∃ quote eol, s = quote ++ (label ++ (quote ++ (eol ++ tail))) ∧
      (quote = [] ∨ quote = ['"'] ∨ quote = ['\'']) ∧ label.head?.any isNameStart = true ∧
      (∀ c ∈ label, isNameChar c = true) ∧ (eol = ['\n'] ∨ eol = ['\r', '\n']) := by
  obtain ⟨blanks, quote, eol, rfl, hblanks, hquote, hstart, hl, heol⟩ := h
  have hstop : (quote ++ (label ++ (quote ++ (eol ++ tail)))).head?.any isBlank = false := by
    obtain ⟨a, l, rfl⟩ : ∃ a l, label = a :: l := by
      cases label with
      | nil => simp at hstart
      | cons a l => exact ⟨a, l, rfl⟩
    have hstart : isNameStart a = true := hstart
    rcases hquote with rfl | rfl | rfl
    · exact isBlank_of_class (by decide) (by decide) hstart
    · rfl
    · rfl
  have heq : blanks ++ (quote ++ (label ++ (quote ++ (eol ++ tail)))) = [' '] ++ s := by
    simpa using heq
  have hlen : blanks = [' '] := by
    have := congrArg (List.takeWhile isBlank) heq
    rwa [takeWhile_append_of_stop hblanks hstop, takeWhile_append_of_stop (by simp [isBlank]) hs] at this
  subst hlen
  exact ⟨quote, eol, (List.append_cancel_left heq).symm, hquote, hstart, hl, heol⟩

/-- A literal is no quoted label, which would have to end its line. -/
theorem Hidden.ne_quoted_label (hr : Hidden r) (hquote : quote = '"' ∨ quote = '\'')
    (hl : ∀ c ∈ label, isNameChar c = true) {x : List Char} (hx : x.head? ≠ some ' ') :
    r ++ ' ' :: v ≠ quote :: (label ++ quote :: x) := by
  intro heq
  have hname : isNameChar quote = false := by rcases hquote with rfl | rfl <;> decide
  -- The quote that ends the label ends the literal, and behind the literal stands a blank.
  suffices ∃ body, r = quote :: (body ++ [quote]) ∧ ∀ e t, body = e ++ quote :: t → ∃ c ∈ e, isNameChar c = false by
    obtain ⟨body, rfl, hb⟩ := this
    have heq : body ++ quote :: ' ' :: v = label ++ quote :: x := by simpa using heq
    rw [← eq_of_append_quote hname hl hb heq] at hx
    exact hx rfl
  cases hr with
  | @single body hb =>
    obtain rfl := (List.cons.inj heq).1
    exact ⟨body, rfl, fun e t he => ⟨'\\', hb.escaped he, by decide⟩⟩
  | @interpolated q body hq hb =>
    obtain rfl := (List.cons.inj heq).1
    refine ⟨body, rfl, fun e t he => ?_⟩
    have hne : q ≠ '\\' ∧ q ≠ '{' := by rcases hquote with rfl | rfl <;> decide
    rcases hb.escaped hne he with h | h
    · exact ⟨'\\', h, by decide⟩
    · exact ⟨'{', h, by decide⟩
  | _ => rcases hquote with rfl | rfl <;> cases (List.cons.inj heq).1

theorem Hidden.exists_head (hr : Hidden r) : ∃ c s, r = c :: s ∧ c ∈ ['/', '#', '\'', '"', backtick] := by
  cases hr with
  | interpolated hq => exact ⟨_, _, rfl, by rcases hq with rfl | rfl <;> simp⟩
  | _ => exact ⟨_, _, rfl, by simp⟩

/-- Behind the three signs of a heredoc, no comment or literal makes an opener. -/
theorem Hidden.lacksOpener (hr : Hidden r) : LacksOpener (' ' :: (r ++ ' ' :: v)) := by
  rintro label opener ho ⟨tail, heq⟩
  obtain ⟨c, s, hc, hmem⟩ := hr.exists_head
  have hblank : (r ++ ' ' :: v).head?.any isBlank = false := by
    have hcs : ∀ d ∈ ['/', '#', '\'', '"', backtick], isBlank d = false := by simp [isBlank, backtick]
    rw [hc]
    exact hcs c hmem
  obtain ⟨quote, eol, heq, hquote, hstart, hl, heol⟩ := ho.behind_blank hblank heq
  have hend : (eol ++ tail).head? ≠ some ' ' := by rcases heol with rfl | rfl <;> simp
  rcases hquote with rfl | rfl | rfl
  · cases label with
    | nil => simp at hstart
    | cons a l =>
      have hcs : ∀ d ∈ ['/', '#', '\'', '"', backtick], isNameStart d = false := by simp [isNameStart, backtick]
      rw [hc] at heq
      obtain rfl := (List.cons.inj heq).1
      exact not_mem_of_class hcs hstart hmem
  · exact hr.ne_quoted_label (Or.inl rfl) hl hend heq
  · exact hr.ne_quoted_label (Or.inr rfl) hl hend heq

/-! ### Tokens from a place in the source -/

/-- The tokens of the text `s`, which is read in mode `m` and starts on line `line`. -/
def tokensFrom (m : Mode) (line : Nat) (s : List Char) : List Token := (piecesFrom [] m line s).filterMap Piece.token?

end

section
variable {m : Mode} {k : Gap} {line : Nat} {t s rest r v : List Char}

theorem tokensFrom_of_cuts {kind : Shape} {c : Char} (h : Cuts m kind (c :: t) rest) :
    tokensFrom m line (c :: t ++ rest) =
      (Piece.token? ⟨kind, c, t, line⟩).toList ++ tokensFrom kind.after (line + (c :: t).count '\n') rest := by
  rw [tokensFrom, piecesFrom_of_cuts h, tokensFrom]
  cases hu : Piece.token? ⟨kind, c, t, line⟩ <;> simp [hu]

theorem tokensFrom_region (hr : Region k t rest) (hne : t ≠ []) :
    tokensFrom k.mode line (t ++ rest) = tokensFrom .code (line + t.count '\n') rest := by
  obtain ⟨c, t, rfl⟩ := List.exists_cons_of_ne_nil hne
  exact tokensFrom_of_cuts (.region hr)

/-- Whitespace in front only moves the tokens down. -/
theorem tokensFrom_space (hs : ∀ c ∈ s, isSpace c = true) :
    tokensFrom .code line (s ++ v) = tokensFrom .code (line + s.count '\n') v := by
  obtain ⟨run, rest, rfl, hrun, hrest⟩ := exists_run isSpace v
  have htake : ∀ {line x}, (∀ c ∈ x, isSpace c = true) →
      tokensFrom .code line (x ++ rest) = tokensFrom .code (line + x.count '\n') rest := fun {line x} hx => by
    by_cases hne : x = []
    · rw [hne]
      rfl
    · exact tokensFrom_region (k := .space) (.space hx hrest) hne
  have hall : ∀ c ∈ s ++ run, isSpace c = true := fun c hc => (List.mem_append.mp hc).elim (hs c) (hrun c)
  rw [← List.append_assoc, htake hall, htake hrun, List.count_append, Nat.add_assoc]

theorem tokensFrom_below (k : Nat) (m : Mode) (line : Nat) (s : List Char) :
    tokensFrom m (line + k) s = (tokensFrom m line s).map (Token.below k) := by
  induction hn : s.length using Nat.strong_induction_on generalizing m line s with
  | _ n ih =>
    cases s with
    | nil => simp [tokensFrom, piecesFrom]
    | cons c r =>
      obtain ⟨kind, t, rest, rfl, hcuts, -⟩ := exists_cuts m c r
      have hlt : rest.length < n := by
        rw [← hn, List.length_cons, List.length_append]
        omega
      have htoken : Piece.token? ⟨kind, c, t, line + k⟩ = (Piece.token? ⟨kind, c, t, line⟩).map (Token.below k) := by
        cases kind <;> rfl
      rw [← List.cons_append, tokensFrom_of_cuts hcuts, tokensFrom_of_cuts hcuts, Nat.add_right_comm,
        ih _ hlt _ _ _ rfl, htoken, List.map_append]
      cases Piece.token? ⟨kind, c, t, line⟩ <;> rfl

/-- A comment or a literal between two blanks only moves the tokens behind it down. -/
theorem tokensFrom_hidden (hr : Hidden r) :
    tokensFrom .code line (' ' :: (r ++ ' ' :: v)) = tokensFrom .code (line + r.count '\n') v := by
  have hblank {line : Nat} {x : List Char} : tokensFrom .code line (' ' :: x) = tokensFrom .code line x :=
    tokensFrom_space (s := [' ']) (by simp [isSpace])
  have hregion {k : Gap} {line : Nat} (hk : Region k r (' ' :: v)) (hne : r ≠ []) :
      tokensFrom k.mode line (r ++ ' ' :: v) = tokensFrom .code (line + r.count '\n') v := by
    rw [tokensFrom_region hk hne, hblank]
  have hline {line : Nat} {x : List Char} (hk : Region .lineComment x ('\n' :: ' ' :: v)) (hne : x ≠ []) :
      tokensFrom .code line (x ++ ['\n'] ++ ' ' :: v) = tokensFrom .code (line + (x ++ ['\n']).count '\n') v := by
    have hspace : tokensFrom .code (line + x.count '\n') (['\n', ' '] ++ v) = _ := tokensFrom_space (by simp [isSpace])
    rw [List.append_assoc, List.count_append, ← Nat.add_assoc]
    exact (tokensFrom_region hk hne).trans hspace
  rw [hblank]
  cases hr with
  | block hb => exact hregion (.block hb) (by simp)
  | slashes hb => exact hline (.slashes hb (Or.inr (Or.inl ⟨_, rfl⟩))) (by simp)
  | hash hh hb => exact hline (.hash hh hb (Or.inr (Or.inl ⟨_, rfl⟩))) (by simp)
  | single hb => exact hregion (.single hb) (by simp)
  | interpolated hq hb => exact hregion (.interpolated hq hb) (by simp)

/-- The tokens of pieces stand when what follows them gives way to a text that they cannot tell from it. -/
theorem Pieces.tokensFrom_exchange {ps qs : List Piece} (h : Pieces m line s (ps ++ qs)) :
    ∃ rest, s = ps.flatMap Piece.text ++ rest ∧
      Pieces (m.behind ps) (line + (ps.flatMap Piece.text).count '\n') rest qs ∧
      ∀ rest', (∀ x, Agrees (x ++ rest) (x ++ rest')) →
        tokensFrom m line (ps.flatMap Piece.text ++ rest') =
          ps.filterMap Piece.token? ++ tokensFrom (m.behind ps) (line + (ps.flatMap Piece.text).count '\n') rest' := by
  obtain ⟨rest, hs, hrest, hexchange⟩ := h.exchange
  refine ⟨rest, hs, hrest, fun rest' hagrees => ?_⟩
  rw [tokensFrom, ← (hexchange rest' _ hagrees (pieces_piecesFrom _ _ _)).eq_piecesFrom, List.filterMap_append, tokensFrom]

/-- Behind the text `before` a source with the text `rest` behind it is read as PHP code: the pieces `ps` of the
    source make up the text, and the last of them leads into PHP code. -/
structure LeadsToCode (ps : List Piece) (before rest : List Char) : Prop where
  pieces : ps <+: pieces (String.ofList (before ++ rest))
  text : ps.flatMap Piece.text = before
  code : Mode.behind .html ps = .code

/-- The tokens before a place in the code stand when what follows gives way to a text that they cannot tell from it. -/
theorem LeadsToCode.tokens_exchange {ps : List Piece} {before rest' : List Char} (h : LeadsToCode ps before rest)
    (hagrees : ∀ x, Agrees (x ++ rest) (x ++ rest')) :
    tokens (String.ofList (before ++ rest')) =
      ps.filterMap Piece.token? ++ tokensFrom .code (1 + before.count '\n') rest' := by
  obtain ⟨⟨qs, hpieces⟩, rfl, hcode⟩ := h
  have hall : Pieces .html 1 (ps.flatMap Piece.text ++ rest) (ps ++ qs) := by
    rw [hpieces, Php.pieces, String.toList_ofList]
    exact pieces_piecesFrom _ _ _
  obtain ⟨rest, hrest, -, hexchange⟩ := hall.tokensFrom_exchange
  obtain rfl := List.append_cancel_left hrest
  rw [tokens, Php.pieces, String.toList_ofList, ← tokensFrom, hexchange _ hagrees, hcode]

/-! ### A blank behind a token -/

theorem Piece.text_ne_nil (p : Piece) : p.text ≠ [] := List.cons_ne_nil _ _

theorem Word.head_ne {kind : Shape} (h : Word kind ['?'] v) : v.head? ≠ some '>' := by
  intro hv
  have hshape := shape_of_word h
  simp [codeShape_question, hv] at hshape

/-- Texts before a token, and the token, agree with themselves when a blank is put behind. -/
theorem agrees_blank_of_word {kind : Shape} (hw : Word kind t v) (hne : t ≠ []) (s : List Char) :
    Agrees (s ++ t ++ v) (s ++ t ++ ' ' :: r) := by
  have hne' : s ++ t ≠ [] := List.append_ne_nil_of_right_ne_nil s hne
  refine agrees_blank hne' ?_ fun htag => ?_
  · rw [List.getLast_append_of_ne_nil hne' hne]
    exact hw.isBlank_eq_false _ (List.getLast_mem hne)
  · rcases List.append_eq_singleton_iff.mp htag with ⟨-, rfl⟩ | ⟨-, rfl⟩
    · exact hw.head_ne
    · exact absurd rfl hne

/-- The pieces up to a token are the same when a blank is put behind it. -/
theorem Pieces.blank {ps qs : List Piece} {p : Piece} {u : Token} (h : Pieces m line s (ps ++ p :: qs))
    (hu : p.token? = some u) (hhash : p.text ≠ ['#']) :
    ∃ v line', s = ps.flatMap Piece.text ++ p.text ++ v ∧ Word p.shape p.text v ∧ Pieces p.shape.after line' v qs ∧
      ∀ r, LacksOpener (' ' :: r) →
        tokensFrom m line (ps.flatMap Piece.text ++ p.text ++ ' ' :: r) =
          (ps ++ [p]).filterMap Piece.token? ++ tokensFrom p.shape.after line' (' ' :: r) := by
  obtain ⟨_, rfl, hrest, hexchange⟩ := h.tokensFrom_exchange
  obtain ⟨v, rfl, hline, hcuts, hqs⟩ := hrest.of_cons
  obtain ⟨hcode, hw⟩ := hcuts.word_of_token? hu
  rw [← hline] at hexchange hqs
  refine ⟨v, _, (List.append_assoc ..).symm, hw, hqs, fun r hr => ?_⟩
  have hcuts' : Cuts (m.behind ps) p.shape (p.first :: p.others) (' ' :: r) := hcode ▸ .word (hw.blank hhash hr)
  have hagrees (x : List Char) : Agrees (x ++ (p.text ++ v)) (x ++ (p.text ++ ' ' :: r)) := by
    rw [← List.append_assoc, ← List.append_assoc]
    exact agrees_blank_of_word hw p.text_ne_nil x
  have hp : p.token?.toList = [p].filterMap Piece.token? := by rw [List.filterMap_cons, hu]; rfl
  rw [List.append_assoc, hexchange _ hagrees, List.filterMap_append, List.append_assoc, ← hp]
  exact congrArg _ (tokensFrom_of_cuts hcuts')

/-! ### Insertion behind a token -/

/-- A placed token is a piece; its span ends behind that piece. -/
theorem exists_piece_of_placedFrom {qs : List Piece} {n i : Nat} {p : Placed} (h : (placedFrom n qs)[i]? = some p) :
    ∃ front q behind, qs = front ++ q :: behind ∧ q.token? = some p.token ∧
      (front.filterMap Piece.token?).length = i ∧ p.stop = n + (encode (front.flatMap Piece.text ++ q.text)).length := by
  induction qs generalizing n i with
  | nil => cases h
  | cons q qs ih =>
    have hsize (front : List Piece) (t : List Char) :
        n + (encode q.text).length + (encode (front.flatMap Piece.text ++ t)).length =
          n + (encode ((q :: front).flatMap Piece.text ++ t)).length := by
      simp only [List.flatMap_cons, encode_append, List.length_append]
      omega
    cases hq : q.token? with
    | none =>
      simp only [placedFrom, hq] at h
      obtain ⟨front, q', behind, rfl, hq', hlen, hstop⟩ := ih h
      exact ⟨q :: front, q', behind, rfl, hq', by simp [hq, hlen], hstop.trans (hsize front q'.text)⟩
    | some u =>
      simp only [placedFrom, hq] at h
      cases i with
      | zero =>
        cases h
        exact ⟨[], q, qs, rfl, hq, rfl, rfl⟩
      | succ i =>
        obtain ⟨front, q', behind, rfl, hq', hlen, hstop⟩ := ih h
        exact ⟨q :: front, q', behind, rfl, hq', by simp [hq, hlen], hstop.trans (hsize front q'.text)⟩

/-- Two prefixes of as many bytes are the same. -/
theorem eq_of_encode_length {u v u' v' : List Char} (h : u ++ v = u' ++ v')
    (hlen : (encode u).length = (encode u').length) : u = u' ∧ v = v' := by
  have hnil {d w w' : List Char} (hd : w = w' ++ d) (hw : (encode w).length = (encode w').length) : d = [] := by
    by_contra hne
    have := List.length_pos_iff.mpr (encode_ne_nil hne)
    rw [hd, encode_append, List.length_append] at hw
    omega
  rcases List.append_eq_append_iff.mp h with ⟨d, hd, rfl⟩ | ⟨d, hd, rfl⟩
  · obtain rfl := hnil hd hlen.symm
    simp [hd]
  · obtain rfl := hnil hd hlen
    simp [hd]

/-- The tokens, with those behind the index `i` moved `k` lines down. -/
def belowFrom (i k : Nat) (ts : List Token) : List Token := ts.take (i + 1) ++ (ts.drop (i + 1)).map (Token.below k)

/-- The text `r` between two blanks, put between `u` and `v`. -/
def insert (u r v : List Char) : String := String.ofList (u ++ ' ' :: (r ++ ' ' :: v))

theorem tokens_insert {source : String} {i : Nat} {u : List Char} {p : Placed} (hp : (placed source)[i]? = some p)
    (htag : p.token.text ≠ "?>") (hhash : p.token.text ≠ "#") (hs : source.toList = u ++ v)
    (hu : (encode u).length = p.stop) (hr : Hidden r) :
    tokens (insert u r v) = belowFrom i (r.count '\n') (tokens source) := by
  obtain ⟨front, q, behind, hpieces, hq, hlen, hstop⟩ := exists_piece_of_placedFrom hp
  have htext := (Piece.eq_of_token? hq).1
  have hne : q.text ≠ ['#'] := fun h => hhash (by rw [htext, h])
  have hall : Pieces .html 1 source.toList (front ++ q :: behind) := hpieces ▸ pieces_piecesFrom _ _ _
  obtain ⟨v', line, hs', hw, hbehind, hblank⟩ := hall.blank hq hne
  have hcode : q.shape.after = .code := by
    cases hk : q.shape with
    | closeTag => exact absurd (by rw [htext, hw.text_iff.mpr hk]) htag
    | _ => rfl
  obtain ⟨rfl, rfl⟩ := eq_of_encode_length (hs.symm.trans hs') (by rw [hu, hstop, Nat.zero_add])
  have hsource : tokens source = (front ++ [q]).filterMap Piece.token? ++ tokensFrom .code line v := by
    rw [tokens, hpieces, tokensFrom, ← hcode, ← hbehind.eq_piecesFrom]
    cases hq' : q.token? <;> simp [hq']
  have hcount : ((front ++ [q]).filterMap Piece.token?).length = i + 1 := by
    simp [hq, hlen]
  have hinsert := hblank _ (hr.lacksOpener (v := v))
  rw [hcode, tokensFrom_hidden hr, tokensFrom_below] at hinsert
  rw [insert, tokens, pieces, String.toList_ofList, belowFrom, hsource, ← hcount, List.take_left, List.drop_left]
  exact hinsert

theorem unlined_append_below (k : Nat) (ts us : List Token) :
    (ts ++ us.map (Token.below k)).map Token.unlined = (ts ++ us).map Token.unlined := by
  have hbelow : Token.unlined ∘ Token.below k = Token.unlined := rfl
  rw [List.map_append, List.map_map, hbelow, ← List.map_append]

theorem getElem?_append_below (k : Nat) (ts us : List Token) (j : Nat) :
    (ts ++ us.map (Token.below k))[j]? = ((ts ++ us)[j]?).map (Token.below (if j < ts.length then 0 else k)) := by
  split
  · rename_i hj
    rw [List.getElem?_append_left hj, List.getElem?_append_left hj]
    exact Option.map_id'.symm
  · rename_i hj
    have hj : ts.length ≤ j := Nat.le_of_not_lt hj
    rw [List.getElem?_append_right hj, List.getElem?_append_right hj, List.getElem?_map]

/-- Tokens further down name the same namespaces, and their declarations are further down. -/
theorem ofTokens_append_below (k : Nat) (ts us : List Token) :
    (Outline.ofTokens (ts ++ us.map (Token.below k))).namespaces = (Outline.ofTokens (ts ++ us)).namespaces ∧
      ∃ ds ds', ds = (List.range ts.length).filterMap (declarationAt? (ts ++ us)) ∧
        (Outline.ofTokens (ts ++ us)).declarations = ds ++ ds' ∧
        (Outline.ofTokens (ts ++ us.map (Token.below k))).declarations = ds ++ ds'.map (Declaration.below k) := by
  have hun := unlined_append_below k ts us
  have hlen : (ts ++ us.map (Token.below k)).length = ts.length + us.length := by simp
  have hdecl (j : Nat) : declarationAt? (ts ++ us.map (Token.below k)) j = _ :=
    declarationAt?_below hun (getElem?_append_below k ts us j)
  rw [ofTokens_eq, ofTokens_eq, hlen, List.length_append]
  refine ⟨List.filterMap_congr fun j _ => namespaceAt?_congr hun j, _,
    ((List.range us.length).map (ts.length + ·)).filterMap (declarationAt? (ts ++ us)), rfl, ?_, ?_⟩
  · simp only [List.range_add, List.filterMap_append]
  · simp only [List.range_add, List.filterMap_append, List.map_filterMap]
    congr 1
    · refine List.filterMap_congr fun j hj => ?_
      rw [hdecl, if_pos (List.mem_range.mp hj)]
      exact Option.map_id'
    · refine List.filterMap_congr fun j hj => ?_
      obtain ⟨m, -, rfl⟩ := List.mem_map.mp hj
      rw [hdecl, if_neg (by omega)]

/-- A comment or a literal put behind a token leaves the tokens as they are, but for the lines of those behind it.
    So the namespaces are the same, and of the declarations those behind the token only move down. -/
theorem ofSource_insert {source : String} {i : Nat} {u : List Char} {p : Placed} (hp : (placed source)[i]? = some p)
    (htag : p.token.text ≠ "?>") (hhash : p.token.text ≠ "#") (hs : source.toList = u ++ v)
    (hu : (encode u).length = p.stop) (hr : Hidden r) :
    tokens (insert u r v) = belowFrom i (r.count '\n') (tokens source) ∧
      (Outline.ofSource (insert u r v)).namespaces = (Outline.ofSource source).namespaces ∧
      ∃ ds ds', ds = (List.range (i + 1)).filterMap (declarationAt? (tokens source)) ∧
        (Outline.ofSource source).declarations = ds ++ ds' ∧
        (Outline.ofSource (insert u r v)).declarations = ds ++ ds'.map (Declaration.below (r.count '\n')) := by
  have htokens := tokens_insert hp htag hhash hs hu hr
  refine ⟨htokens, ?_⟩
  have hlen : ((tokens source).take (i + 1)).length = i + 1 := by
    refine List.length_take_of_le ?_
    rw [← map_token_placed, List.length_map]
    exact (List.getElem?_eq_some_iff.mp hp).1
  have houtline := ofTokens_append_below (r.count '\n') ((tokens source).take (i + 1)) ((tokens source).drop (i + 1))
  rw [List.take_append_drop, hlen] at houtline
  rw [Outline.ofSource, htokens, Outline.ofSource]
  exact houtline

end

/-- A comment of two lines that reads like a declaration, put between two classes. -/
theorem ofSource_insert_comment :
    (placed "<?php class A \x7b\x7d class B \x7b\x7d")[3]? = some ⟨⟨.closeBrace, "\x7d", 1⟩, 15, 16⟩ ∧
      (Outline.ofSource (insert "<?php class A \x7b\x7d".toList "/* class X \x7b\n\x7d */".toList
        " class B \x7b\x7d".toList)).declarations.map (fun d => (d.name, d.line)) = [("A", 1), ("B", 2)] := by
  have hp : (placed "<?php class A \x7b\x7d class B \x7b\x7d")[3]? = some ⟨⟨.closeBrace, "\x7d", 1⟩, 15, 16⟩ := by
    decide +kernel
  have hr : Hidden "/* class X \x7b\n\x7d */".toList := by
    have hb : ¬ ['*', '/'] <:+: " class X \x7b\n\x7d ".toList := by decide +kernel
    exact .block hb
  obtain ⟨-, -, ds, ds', hds, hold, hnew⟩ := ofSource_insert (u := "<?php class A \x7b\x7d".toList)
    (v := " class B \x7b\x7d".toList) hp (by decide) (by decide) (by decide +kernel) (by decide +kernel) hr
  have hds' : ds' = [⟨"B", none, .classType, 1⟩] := by
    refine List.append_cancel_left (hold.symm.trans ?_)
    rw [hds]
    decide +kernel
  refine ⟨hp, ?_⟩
  rw [hnew, hds, hds']
  decide +kernel

end TypeFinder.Php

import TypeFinder.Proofs.Php.ReaderShape

/-! The reading by bytes is the reading by characters. Between two turns the reader stands between two characters, with
    the lines counted so far; a turn goes on by whole pieces, or there is nothing left that is a token. So nothing
    breaks the reading off, and the tokens are those of the text. -/

namespace TypeFinder.Php.Reader

/-! ### Where the reader stands -/

/-- The reader behind the text `before`. -/
def State.behind (before : List Char) (m : Mode) : State := ⟨(octets before).length, 1 + before.count '\n', m⟩

/-- The tokens of the text `ahead`, read behind the text `before`. -/
def placedBehind (before : List Char) (m : Mode) (ahead : List Char) : List Placed :=
  placedFrom (octets before).length (piecesFrom [] m (1 + before.count '\n') ahead)

/-- What a turn behind the text `before` may come to when `ahead` is left. -/
inductive Goes (before ahead : List Char) (m : Mode) : Turn → State → Prop
  | finished {m' : Mode} : placedBehind before m ahead = [] → (ahead = [] → m' = m) →
      Goes before ahead m .finished (.behind (before ++ ahead) m')
  | again {x rest : List Char} {m' : Mode} : ahead = x ++ rest → x ≠ [] →
      placedBehind before m ahead = placedBehind (before ++ x) m' rest →
      Goes before ahead m .again (.behind (before ++ x) m')
  | token {gap text rest : List Char} {m' : Mode} {t : Token} : ahead = gap ++ (text ++ rest) → text ≠ [] →
      placedBehind before m ahead = ⟨t, (octets (before ++ gap)).length, (octets (before ++ (gap ++ text))).length⟩ ::
        placedBehind (before ++ (gap ++ text)) m' rest →
      Goes before ahead m (.token ⟨t, (octets (before ++ gap)).length, (octets (before ++ (gap ++ text))).length⟩)
        (.behind (before ++ (gap ++ text)) m')

section
variable {s before ahead gap r t rest x : List Char} {c : Char} {m m' : Mode} {kind : Shape} {target : Nat}

theorem pos_lt_behind (before : List Char) (hx : x ≠ []) : (octets before).length < (octets (before ++ x)).length := by
  have := List.length_pos_iff.mpr (octets_ne_nil hx)
  rw [octets_append, List.length_append]
  omega

theorem pos_behind_le (hs : s = before ++ ahead) : (octets before).length ≤ (octets s).length := by
  rw [hs, octets_append, List.length_append]
  exact Nat.le_add_right _ _

theorem advanceTo_behind (h : min target (octets (before ++ (x ++ rest))).length = (octets (before ++ x)).length) :
    (State.behind before m).advanceTo (octets (before ++ (x ++ rest))) target = .ok (.behind (before ++ x) m) := by
  have hle : (octets before).length ≤ (octets (before ++ x)).length := pos_behind_le rfl
  have hbetween : ((octets (before ++ (x ++ rest))).take (octets (before ++ x)).length).drop (octets before).length =
      octets x := by
    rw [← List.append_assoc, octets_append _ rest, List.take_left, octets_append, List.drop_left]
  rw [State.advanceTo]
  simp only [h]
  show (if (octets before).length ≤ (octets (before ++ x)).length then Except.ok (State.mk _ (1 + before.count '\n' +
    List.count '\n' (((octets (before ++ (x ++ rest))).take _).drop (octets before).length)) m) else _) = _
  rw [if_pos hle, hbetween, count_octets (by decide), Nat.add_assoc, ← List.count_append]
  rfl

theorem advanceTo_append (hs : s = before ++ (x ++ rest)) :
    (State.behind before m).advanceTo (octets s) (octets (before ++ x)).length = .ok (.behind (before ++ x) m) := by
  subst hs
  exact advanceTo_behind (Nat.min_eq_left (pos_behind_le (List.append_assoc before x rest).symm))

theorem placedBehind_nil (before : List Char) (m : Mode) : placedBehind before m [] = [] := by
  rw [placedBehind, piecesFrom]
  rfl

theorem placedBehind_cons (h : shape m c (t ++ rest) = (kind, t.length)) :
    placedBehind before m (c :: t ++ rest) =
      match Piece.token? ⟨kind, c, t, 1 + before.count '\n'⟩ with
      | some u => ⟨u, (octets before).length, (octets (before ++ c :: t)).length⟩ ::
          placedBehind (before ++ c :: t) kind.after rest
      | none => placedBehind (before ++ c :: t) kind.after rest := by
  have hstop : (octets before).length + (encode (c :: t)).length = (octets (before ++ c :: t)).length := by
    rw [octets_append, List.length_append, length_octets (c :: t)]
  have hpieces : piecesFrom [] m (1 + before.count '\n') (c :: t ++ rest) =
      ⟨kind, c, t, 1 + before.count '\n'⟩ :: piecesFrom [] kind.after (1 + (before ++ c :: t).count '\n') rest := by
    simp only [List.cons_append, piecesFrom, h, List.take_left, List.drop_left]
    rw [piecesFrom_eq_append [_], List.count_append, ← Nat.add_assoc]
    rfl
  rw [placedBehind, hpieces, placedFrom, Piece.text, hstop]
  rfl

theorem placedBehind_space (hgap : ∀ c ∈ gap, isSpace c = true) (hr : r.head?.any isSpace = false) :
    placedBehind before .code (gap ++ r) = placedBehind (before ++ gap) .code r := by
  cases gap with
  | nil => rw [List.append_nil, List.nil_append]
  | cons c t =>
    obtain ⟨hc, ht⟩ := List.forall_mem_cons.mp hgap
    have hshape : shape .code c (t ++ r) = (.gap .space, t.length) := by
      rw [shape, codeShape_space hc, takeWhile_append_of_stop ht hr]
    rw [placedBehind_cons hshape]
    rfl

theorem placedBehind_html (ht : t ≠ []) (h : htmlLength 0 (t ++ rest) = t.length) :
    placedBehind before .html (t ++ rest) = placedBehind (before ++ t) .code rest := by
  obtain ⟨c, t, rfl⟩ := List.exists_cons_of_ne_nil ht
  have hshape : shape .html c (t ++ rest) = (.gap .html, t.length) := by
    rw [shape, ← List.cons_append, h]
    rfl
  rw [placedBehind_cons hshape]
  rfl

theorem Goes.token_here {text : List Char} {u : Token} (hahead : ahead = text ++ rest) (hne : text ≠ [])
    (hplaced : placedBehind before m ahead =
      ⟨u, (octets before).length, (octets (before ++ text)).length⟩ :: placedBehind (before ++ text) m' rest) :
    Goes before ahead m (.token ⟨u, (octets before).length, (octets (before ++ text)).length⟩)
      (.behind (before ++ text) m') := by
  have h : Goes before ahead m (.token ⟨u, (octets (before ++ [])).length, (octets (before ++ ([] ++ text))).length⟩)
      (.behind (before ++ ([] ++ text)) m') := .token hahead hne (by rwa [List.append_nil])
  rwa [List.append_nil] at h

theorem Goes.behind_gap {out : Turn} {st : State} (h : Goes (before ++ gap) r m' out st)
    (hplaced : placedBehind before m (gap ++ r) = placedBehind (before ++ gap) m' r) (hm : gap = [] → m' = m) :
    Goes before (gap ++ r) m out st := by
  cases h with
  | finished hnone hmode =>
    rw [List.append_assoc]
    refine .finished (hplaced.trans hnone) fun hnil => ?_
    obtain ⟨hgap, hr⟩ := List.append_eq_nil_iff.mp hnil
    exact (hmode hr).trans (hm hgap)
  | @again x rest _ heq hne hagain =>
    rw [List.append_assoc]
    have heq : gap ++ r = gap ++ x ++ rest := by rw [heq, List.append_assoc]
    refine .again heq (fun hnil => hne (List.append_eq_nil_iff.mp hnil).2) ?_
    rw [hplaced, hagain, List.append_assoc]
  | @token gap' text rest _ _ heq hne htoken =>
    have hassoc : before ++ gap ++ (gap' ++ text) = before ++ (gap ++ gap' ++ text) := by simp only [List.append_assoc]
    rw [List.append_assoc before, hassoc] at htoken ⊢
    exact .token (by rw [heq, List.append_assoc gap]) hne (hplaced.trans htoken)

/-! ### One turn -/

theorem tokenAt_behind (before t rest : List Char) (kind : TokenKind) :
    tokenAt (before ++ (t ++ rest)) (.behind before m) (.behind (before ++ t) m') kind =
      .ok ⟨⟨kind, String.ofList t, 1 + before.count '\n'⟩, (octets before).length, (octets (before ++ t)).length⟩ := by
  have htext : textBetween (before ++ (t ++ rest)) (octets before).length (octets (before ++ t)).length = .ok t := by
    rw [← List.append_assoc]
    exact textBetween_append before t rest
  show (textBetween (before ++ (t ++ rest)) (octets before).length (octets (before ++ t)).length >>= fun _ => _) = _
  rw [htext]
  rfl

theorem readPiece_goes (hc : isSpace c = false) (hs : s = before ++ c :: r) :
    ∃ b out st, (octets s)[(octets before).length]? = some b ∧ readPiece s (.behind before .code) b = .ok (out, st) ∧
      Goes before (c :: r) .code out st := by
  subst hs
  obtain ⟨b, hb, hfinds⟩ := finds_shapeAt (ahead_octets before (c :: r)) (textFrom_append before (c :: r)) hc
  obtain ⟨t, rest, stop, rfl, hlen, hshape, hstop⟩ := hfinds.exists_piece
  rw [← List.length_append, ← octets_append] at hstop
  generalize hsaid : codeShape c (t ++ rest) = said at hlen hshape
  obtain ⟨kind, n⟩ := said
  obtain rfl : t.length = n := hlen
  have hread : readPiece (before ++ (c :: t ++ rest)) (.behind before .code) b =
      turnBy (before ++ (c :: t ++ rest)) (.behind before .code) (.behind (before ++ c :: t) .code) kind := by
    show (shapeAt _ _ (octets before).length b >>= fun _ => _) = _
    rw [List.cons_append, hshape]
    show ((State.behind before .code).advanceTo _ stop >>= fun _ => _) = _
    rw [← List.cons_append, advanceTo_behind hstop]
    rfl
  have hplaced : placedBehind before .code (c :: t ++ rest) = _ := placedBehind_cons hsaid
  have htext := List.cons_ne_nil c t
  cases kind with
  | gap k => exact ⟨b, _, _, hb, hread, .again rfl htext hplaced⟩
  | token kind =>
    rw [turnBy, tokenAt_behind] at hread
    exact ⟨b, _, _, hb, hread, .token_here rfl htext hplaced⟩
  | closeTag =>
    rw [turnBy, tokenAt_behind] at hread
    have hgoes : Goes before (c :: t ++ rest) .code (.token _) (.behind (before ++ c :: t) .html) :=
      .token_here rfl htext hplaced
    exact ⟨b, _, _, hb, hread, hgoes⟩

theorem readCode_goes (hs : s = before ++ ahead) :
    ∃ out st, readCode s (.behind before .code) = .ok (out, st) ∧ Goes before ahead .code out st := by
  obtain ⟨gap, r, rfl, hgap, hstop⟩ := exists_run isSpace ahead
  have hskip : skipWhile isSpace (octets s) (octets before).length = .ok (octets (before ++ gap)).length := by
    rw [hs, skipWhile_eq (ahead_octets before (gap ++ r)), takeWhile_octets uniform_isSpace,
      takeWhile_append_of_stop hgap hstop, octets_append before gap, List.length_append]
  have hadvance : (State.behind before .code).advanceTo (octets s) (octets (before ++ gap)).length =
      .ok (.behind (before ++ gap) .code) := advanceTo_append hs
  have hread : readCode s (.behind before .code) =
      ((octets s)[(octets (before ++ gap)).length]?).elim (.ok (.finished, .behind (before ++ gap) .code))
        (readPiece s (.behind (before ++ gap) .code)) := by
    show (skipWhile isSpace (octets s) (octets before).length >>= fun _ => _) = _
    rw [hskip]
    show ((State.behind before .code).advanceTo (octets s) _ >>= fun _ => _) = _
    rw [hadvance]
    have hpos : (State.behind (before ++ gap) .code).pos = (octets (before ++ gap)).length := rfl
    simp only [bind, Except.bind, hpos]
    cases (octets s)[(octets (before ++ gap)).length]? <;> rfl
  have hplaced : placedBehind before .code (gap ++ r) = _ := placedBehind_space hgap hstop
  have hbehind : s = before ++ gap ++ r := by rw [hs, List.append_assoc]
  cases r with
  | nil =>
    have hend : (octets s)[(octets (before ++ gap)).length]? = none := by
      rw [hbehind, (ahead_octets (before ++ gap) []).head?]
      rfl
    rw [hend] at hread
    have hgoes : Goes (before ++ gap) [] .code .finished (.behind (before ++ gap) .code) := by
      have h : Goes (before ++ gap) [] .code .finished _ := .finished (placedBehind_nil _ _) fun _ => rfl
      rwa [List.append_nil] at h
    exact ⟨_, _, hread, hgoes.behind_gap hplaced fun _ => rfl⟩
  | cons c r =>
    obtain ⟨b, out, st, hb, hpiece, hgoes⟩ := readPiece_goes hstop hbehind
    rw [hb, Option.elim_some, hpiece] at hread
    exact ⟨out, st, hread, hgoes.behind_gap hplaced fun _ => rfl⟩

theorem turn_html {found : Option Nat} (hs : s = before ++ ahead) (htag : tagEnd (octets ahead) 0 = .ok found) :
    turn s (.behind before .html) = readHtml s (.behind before .html) found := by
  have hrest : bytesFrom (octets s) (octets before).length = .ok (octets ahead) := by
    rw [hs]
    exact (ahead_octets before ahead).bytesFrom
  show (bytesFrom (octets s) (octets before).length >>= fun _ => _) = _
  rw [hrest]
  show (tagEnd (octets ahead) 0 >>= fun _ => _) = _
  rw [htag]
  rfl

/-- Every turn goes on by what is ahead. -/
theorem turn_goes (hs : s = before ++ ahead) :
    ∃ out st, turn s (.behind before m) = .ok (out, st) ∧ Goes before ahead m out st := by
  cases m with
  | code => exact readCode_goes hs
  | html =>
    rcases tagEnd_octets (ahead_octets [] ahead) with ⟨htag, hlength⟩ | ⟨t, rest, rfl, hne, htag, hlength⟩
    · have hadvance : (State.behind before .html).advanceTo (octets s) (octets s).length =
          .ok (.behind (before ++ ahead) .html) := by
        have hall : s = before ++ (ahead ++ []) := by rw [hs, List.append_nil]
        have h := advanceTo_append (m := .html) hall
        rwa [← hs] at h ⊢
      have hplaced : placedBehind before .html ahead = [] := by
        by_cases hnil : ahead = []
        · rw [hnil, placedBehind_nil]
        · have hlength : htmlLength 0 (ahead ++ []) = ahead.length := by rw [List.append_nil, hlength, Nat.zero_add]
          have h : placedBehind before .html (ahead ++ []) = _ := placedBehind_html hnil hlength
          rwa [List.append_nil, placedBehind_nil] at h
      refine ⟨.finished, .behind (before ++ ahead) .html, ?_, .finished hplaced fun _ => rfl⟩
      rw [turn_html hs htag, readHtml, hadvance]
      rfl
    · have htag : tagEnd (octets (t ++ rest)) 0 = .ok (some (octets t).length) := by
        rwa [← Nat.zero_add (octets t).length]
      have hadvance : (State.behind before .html).advanceTo (octets s) ((octets before).length + (octets t).length) =
          .ok (.behind (before ++ t) .html) := by
        rw [← List.length_append, ← octets_append]
        exact advanceTo_append hs
      have hbehind : s = before ++ t ++ rest := by rw [hs, List.append_assoc]
      obtain ⟨out, st, hread, hgoes⟩ := readCode_goes hbehind
      refine ⟨out, st, ?_, hgoes.behind_gap (placedBehind_html hne ?_) fun h => absurd h hne⟩
      · rw [turn_html hs htag]
        show ((State.behind before .html).advanceTo (octets s) ((octets before).length + (octets t).length) >>=
          fun _ => _) = _
        rw [hadvance]
        exact hread
      · rw [hlength, Nat.zero_add]

/-! ### All turns -/

/-- The reader gets there from the first byte, one turn after the other. -/
inductive Reached (s : List Char) : State → Prop
  | start : Reached s .start
  | turn {st st' : State} {out : Turn} : Reached s st → turn s st = .ok (out, st') → Reached s st'

theorem Goes.exists_behind {out : Turn} {st : State} (h : Goes before ahead m out st) :
    ∃ x rest m', ahead = x ++ rest ∧ st = .behind (before ++ x) m' := by
  cases h with
  | finished => exact ⟨ahead, [], _, (List.append_nil ahead).symm, rfl⟩
  | again heq => exact ⟨_, _, _, heq, rfl⟩
  | token heq => exact ⟨_, _, _, by rw [heq, List.append_assoc], rfl⟩

/-- The reader always stands between two characters, with the lines counted. -/
theorem Reached.exists_behind {st : State} (h : Reached s st) :
    ∃ before ahead m, s = before ++ ahead ∧ st = .behind before m := by
  induction h with
  | start => exact ⟨[], s, .html, rfl, rfl⟩
  | @turn st st' out _ hturn ih =>
    obtain ⟨before, ahead, m, hs, rfl⟩ := ih
    obtain ⟨out', st'', hturn', hgoes⟩ := turn_goes hs
    obtain ⟨rfl, rfl⟩ := Prod.mk.inj (Except.ok.inj (hturn.symm.trans hturn'))
    obtain ⟨x, rest, m', rfl, rfl⟩ := hgoes.exists_behind
    exact ⟨before ++ x, rest, m', by rw [hs, List.append_assoc], rfl⟩

/-- Turns without a token end, since each goes on. -/
theorem next_goes (ahead : List Char) {before : List Char} {m : Mode} (hs : s = before ++ ahead) :
    ∃ out st, Goes before ahead m out st ∧
      (out = .finished ∧ next s (.behind before m) = .ok (none, st) ∨
        ∃ p, out = .token p ∧ next s (.behind before m) = .ok (some p, st)) := by
  obtain ⟨out, st, hturn, hgoes⟩ := turn_goes (m := m) hs
  cases out with
  | finished => exact ⟨_, st, hgoes, Or.inl ⟨rfl, by rw [next, hturn]⟩⟩
  | token p => exact ⟨_, st, hgoes, Or.inr ⟨p, rfl, by rw [next, hturn]⟩⟩
  | again =>
    cases hgoes with
    | @again x rest m' heq hne hplaced =>
      subst heq
      have hbehind : s = before ++ x ++ rest := by rw [hs, List.append_assoc]
      have hshort : rest.length < (x ++ rest).length := by
        rw [List.length_append]
        have := List.length_pos_iff.mpr hne
        omega
      -- What the turns behind this one come to is what they come to with this one in front.
      obtain ⟨out, st, hgoes, hrest⟩ := next_goes rest (m := m') hbehind
      have hgoes := hgoes.behind_gap hplaced fun h => absurd h hne
      have hgo : next s (.behind before m) = next s (.behind (before ++ x) m') := by
        rw [next, hturn]
        exact if_pos ⟨pos_lt_behind before hne, pos_behind_le hbehind⟩
      refine ⟨out, st, hgoes, ?_⟩
      rwa [hgo]
termination_by ahead.length

/-- The tokens that are read are those of the text, and there are no more of them than bytes. -/
theorem readAll_behind (ahead : List Char) {before : List Char} {m : Mode} (hs : s = before ++ ahead) :
    readAll s (.behind before m) = .ok (placedBehind before m ahead) ∧
      (placedBehind before m ahead).length ≤ (octets ahead).length := by
  obtain ⟨out, st, hgoes, ⟨rfl, hnext⟩ | ⟨p, rfl, hnext⟩⟩ := next_goes ahead (m := m) hs
  · cases hgoes with
    | finished hplaced =>
      rw [hplaced, readAll, hnext]
      exact ⟨rfl, Nat.zero_le _⟩
  · cases hgoes with
    | @token gap text rest m' u heq hne hplaced =>
      subst heq
      have hbehind : s = before ++ (gap ++ text) ++ rest := by simp only [hs, List.append_assoc]
      have hx : gap ++ text ≠ [] := fun h => hne (List.append_eq_nil_iff.mp h).2
      have hshort : rest.length < (gap ++ (text ++ rest)).length := by
        have := List.length_pos_iff.mpr hne
        simp only [List.length_append]
        omega
      obtain ⟨hrest, hcount⟩ := readAll_behind rest (m := m') hbehind
      have hadvance := pos_lt_behind before hx
      rw [hplaced, readAll, hnext]
      constructor
      · refine (if_pos ⟨hadvance, pos_behind_le hbehind⟩).trans ?_
        rw [hrest]
        rfl
      · have := List.length_pos_iff.mpr (octets_ne_nil hne)
        simp only [octets_append, List.length_append, List.length_cons]
        omega
termination_by ahead.length

theorem next_of_finished {st st' : State} (hst : Reached s st) (h : next s st = .ok (none, st')) :
    next s st' = .ok (none, st') := by
  obtain ⟨before, ahead, m, hs, rfl⟩ := hst.exists_behind
  obtain ⟨out, st, hgoes, ⟨rfl, hnext⟩ | ⟨p, rfl, hnext⟩⟩ := next_goes ahead (m := m) hs
  swap
  · rw [h] at hnext
    cases hnext
  obtain rfl : st' = st := (Prod.mk.inj (Except.ok.inj (h.symm.trans hnext))).2
  cases hgoes with
  | @finished m' hplaced hmode =>
    -- Nothing is ahead now, so that the next turn cannot go on either.
    have hend : s = before ++ ahead ++ [] := by rw [List.append_nil, hs]
    obtain ⟨out, st, hgoes, hnext⟩ := next_goes [] (m := m') hend
    cases hgoes with
    | finished hplaced hmode =>
      rw [hmode rfl, List.append_nil] at hnext
      rcases hnext with ⟨-, hnext⟩ | ⟨p, hout, -⟩
      · exact hnext
      · cases hout
    | again heq hne => exact absurd (List.append_eq_nil_iff.mp heq.symm).1 hne
    | token heq hne => exact absurd (List.append_eq_nil_iff.mp (List.append_eq_nil_iff.mp heq.symm).2).1 hne

/-! ### Safety -/

theorem isValid_behind {source : String} (hs : source.toList = before ++ ahead) :
    String.Pos.Raw.IsValid source ⟨(octets before).length⟩ := by
  refine String.Pos.Raw.isValid_iff_exists_append.mpr ⟨String.ofList before, String.ofList ahead, ?_, ?_⟩
  · rw [← String.ofList_append, ← hs, String.ofList_toList]
  · have hbytes := bytes_eq_encode (String.ofList before)
    rw [String.toList_ofList] at hbytes
    rw [length_octets, ← hbytes]
    rfl

/-- Nothing breaks off the reading of the source, and it ends. -/
structure IsSafe (source : String) : Prop where
  /-- No turn meets a fault. -/
  turns : ∀ st, Reached source.toList st → ∃ out st', turn source.toList st = .ok (out, st')
  /-- The reader stands between two characters, before a turn and behind it. -/
  boundary : ∀ st, Reached source.toList st → String.Pos.Raw.IsValid source ⟨st.pos⟩
  /-- A turn without a token goes on. -/
  again : ∀ st st', Reached source.toList st → turn source.toList st = .ok (.again, st') → st.pos < st'.pos
  /-- So does one with a token, which starts and stops between two characters. -/
  token : ∀ st st' p, Reached source.toList st → turn source.toList st = .ok (.token p, st') →
    st.pos ≤ p.start ∧ p.start < p.stop ∧ p.stop = st'.pos ∧ String.Pos.Raw.IsValid source ⟨p.start⟩ ∧
      String.Pos.Raw.IsValid source ⟨p.stop⟩
  /-- The turns up to the next token, or to the end, are a finite number. -/
  ends : ∀ st, Reached source.toList st → ∃ p? st', next source.toList st = .ok (p?, st')
  /-- When there is no token any more, there never is one again. -/
  finished : ∀ st st', Reached source.toList st → next source.toList st = .ok (none, st') →
    next source.toList st' = .ok (none, st')
  placed : readAll source.toList .start = .ok (placed source)
  count : (tokens source).length ≤ (bytes source).length

theorem isSafe (source : String) : IsSafe source where
  turns st hst := by
    obtain ⟨before, ahead, m, hs, rfl⟩ := hst.exists_behind
    obtain ⟨out, st', hturn, -⟩ := turn_goes hs
    exact ⟨out, st', hturn⟩
  boundary st hst := by
    obtain ⟨before, ahead, m, hs, rfl⟩ := hst.exists_behind
    exact isValid_behind hs
  again st st' hst hagain := by
    obtain ⟨before, ahead, m, hs, rfl⟩ := hst.exists_behind
    obtain ⟨out, st, hturn, hgoes⟩ := turn_goes (m := m) hs
    rw [hagain] at hturn
    cases hturn
    cases hgoes with
    | again heq hne => exact pos_lt_behind before hne
  token st st' p hst htoken := by
    obtain ⟨before, ahead, m, hs, rfl⟩ := hst.exists_behind
    obtain ⟨out, st, hturn, hgoes⟩ := turn_goes (m := m) hs
    rw [htoken] at hturn
    cases hturn
    cases hgoes with
    | @token gap text rest m' u heq hne =>
      have hgap : source.toList = before ++ gap ++ (text ++ rest) := by rw [hs, heq, List.append_assoc before]
      have htext : source.toList = before ++ (gap ++ text) ++ rest := by
        rw [hs, heq, List.append_assoc before, List.append_assoc gap]
      refine ⟨?_, ?_, rfl, isValid_behind hgap, isValid_behind htext⟩
      · exact pos_behind_le rfl
      · rw [← List.append_assoc]
        exact pos_lt_behind (before ++ gap) hne
  ends st hst := by
    obtain ⟨before, ahead, m, hs, rfl⟩ := hst.exists_behind
    obtain ⟨out, st, -, ⟨-, hnext⟩ | ⟨p, -, hnext⟩⟩ := next_goes ahead (m := m) hs
    · exact ⟨none, st, hnext⟩
    · exact ⟨some p, st, hnext⟩
  finished st st' := next_of_finished
  placed := by
    have hs : source.toList = [] ++ source.toList := rfl
    exact (readAll_behind source.toList (m := .html) hs).1
  count := by
    have hs : source.toList = [] ++ source.toList := rfl
    rw [← map_token_placed, List.length_map, bytes_eq_encode, ← length_octets]
    exact (readAll_behind source.toList (m := .html) hs).2

/-- A backslash before a character of two bytes takes along the first of them. -/
theorem isSafe_escape :
    readAll "<?php '\\é'; ü".toList .start =
      .ok [⟨⟨.semicolon, ";", 1⟩, 11, 12⟩, ⟨⟨.name, "ü", 1⟩, 13, 15⟩] := by
  have hplaced : placed "<?php '\\é'; ü" = [⟨⟨.semicolon, ";", 1⟩, 11, 12⟩, ⟨⟨.name, "ü", 1⟩, 13, 15⟩] := by
    decide +kernel
  rw [(isSafe "<?php '\\é'; ü").placed, hplaced]

end
end TypeFinder.Php.Reader

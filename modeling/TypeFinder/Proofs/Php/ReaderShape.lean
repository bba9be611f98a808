import TypeFinder.Proofs.Php.ReaderLoops

/-! What the reader finds at a place is what the text says about it. The loop over the lines of a heredoc and the one
    that looks for an open tag stop where the text says, slices at characters are the characters between them, and
    so each sign starts the same piece in the bytes as in the text. -/

namespace TypeFinder.Php.Reader

section
variable {bs u : List Char} {b c : Char} {i : Nat} {s r label : List Char}

/-! ### Heredocs -/

theorem isClosedBy_octets (h : Ahead bs i (octets s)) :
    ((octets label).isPrefixOf (octets s) && !(bs[i + (octets label).length]?).any isNameChar) =
      isClosedBy label s := by
  rw [Bool.eq_iff_iff, isClosedBy_iff, Bool.and_eq_true, List.isPrefixOf_iff_prefix, octets_prefix_iff,
    Bool.not_eq_true']
  constructor
  · rintro ⟨⟨rest, rfl⟩, hrest⟩
    rw [h.behind.head?, any_head?_octets uniform_isNameChar] at hrest
    exact ⟨rest, rfl, hrest⟩
  · rintro ⟨rest, rfl, hrest⟩
    rw [h.behind.head?, any_head?_octets uniform_isNameChar]
    exact ⟨List.prefix_append label rest, hrest⟩

theorem heredocLength_line (n : Nat) (s : List Char) :
    heredocLength label false n s =
      (position? ['\n'] s).elim (n + s.length) fun k => heredocLength label true (n + k + 1) (s.drop (k + 1)) := by
  induction s generalizing n with
  | nil => rfl
  | cons c r ih =>
    have hgo : heredocLength label false n (c :: r) = heredocLength label (decide (c = '\n')) (n + 1) r := by
      simp [heredocLength]
    rw [hgo]
    by_cases hc : c = '\n'
    · subst hc
      rfl
    · have hno : ['\n'].isPrefixOf (c :: r) = false := by simp [List.isPrefixOf, Ne.symm hc]
      rw [decide_eq_false hc, ih, position?, hno]
      cases position? ['\n'] r with
      | none =>
        show n + 1 + r.length = n + (r.length + 1)
        omega
      | some k =>
        show heredocLength label true (n + 1 + k + 1) _ = heredocLength label true (n + (k + 1) + 1) _
        rw [Nat.add_right_comm n 1 k]
        rfl

theorem isClosedBy_of_not_start (hlabel : label.head?.any isNameStart = true) (hc : isNameStart c = false) :
    isClosedBy label (c :: r) = false := by
  by_contra hne
  obtain ⟨rest, heq, -⟩ := isClosedBy_iff.mp (Bool.not_eq_false _ ▸ hne)
  cases label with
  | nil => cases hlabel
  | cons d label =>
    obtain ⟨rfl, -⟩ := List.cons.inj heq
    simp [hc] at hlabel

theorem heredocLength_blanks (hlabel : label.head?.any isNameStart = true) {blanks : List Char}
    (hblanks : ∀ c ∈ blanks, isBlank c = true) (n : Nat) :
    heredocLength label true n (blanks ++ r) = heredocLength label true (n + blanks.length) r := by
  induction blanks generalizing n with
  | nil => rfl
  | cons c blanks ih =>
    obtain ⟨hc, hblanks⟩ := List.forall_mem_cons.mp hblanks
    have hstart : isNameStart c = false := by
      have hc : c = ' ' ∨ c = '\t' := by simpa [isBlank] using hc
      rcases hc with rfl | rfl <;> decide
    rw [List.cons_append, heredocLength, isClosedBy_of_not_start hlabel hstart, hc]
    simp only [Bool.and_false, Bool.false_eq_true, if_false, Bool.and_true, Bool.or_true]
    rw [ih hblanks, List.length_cons, Nat.add_assoc, Nat.add_comm 1]

theorem heredocLength_closed (hlabel : label.head?.any isNameStart = true) (hs : isClosedBy label s = true) (n : Nat) :
    heredocLength label true n s = n + label.length := by
  obtain ⟨rest, rfl, -⟩ := isClosedBy_iff.mp hs
  cases label with
  | nil => cases hlabel
  | cons d label =>
    rw [List.cons_append] at hs ⊢
    rw [heredocLength, hs]
    rfl

theorem heredocLength_margin (hs : ¬ isClosedBy label s = true) (hstop : s.head?.any isBlank = false) (n : Nat) :
    heredocLength label true n s = heredocLength label false n s := by
  cases s with
  | nil => rfl
  | cons c r =>
    have hc : isBlank c = false := hstop
    simp [heredocLength, hs, hc]

theorem closingEnd_of_le (h : bs.length ≤ i) : closingEnd label bs i = .ok bs.length := by
  rw [closingEnd, if_neg (Nat.not_lt.mpr h)]
  rfl

theorem closingEnd_line {blanks : List Char} (h : Ahead bs i (octets (blanks ++ s))) (hne : blanks ++ s ≠ [])
    (hblanks : ∀ c ∈ blanks, isBlank c = true) (hstop : s.head?.any isBlank = false) :
    closingEnd (octets label) bs i =
      if isClosedBy label s then .ok (i + (octets blanks).length + (octets label).length)
      else (position? ['\n'] s).elim (.ok bs.length) fun k =>
        closingEnd (octets label) bs (i + (octets blanks).length + (octets (s.take k)).length + 1) := by
  have hlt : i < bs.length := by
    have := List.length_pos_iff.mpr (octets_ne_nil hne)
    rw [h.length]
    omega
  have hskip : skipWhile isBlank bs i = .ok (i + (octets blanks).length) := by
    rw [skipWhile_eq h, takeWhile_octets uniform_isBlank, takeWhile_append_of_stop hblanks hstop]
  have hs := h.behind
  rw [closingEnd, if_pos hlt, hskip]
  show (bytesFrom bs _ >>= fun rest => _) = _
  rw [hs.bytesFrom]
  show (if ((octets label).isPrefixOf (octets s) &&
    !(bs[i + (octets blanks).length + (octets label).length]?).any isNameChar) = true then _ else _) = _
  rw [isClosedBy_octets hs]
  split_ifs with hclosed
  · rfl
  rw [find?_eq (by simp [IsAscii]) hs]
  cases position? ['\n'] s with
  | none => rfl
  | some k =>
    show (if i ≤ i + (octets blanks).length + (octets (s.take k)).length then _ else _) = _
    rw [if_pos (by omega)]
    rfl

theorem closingEnd_stopsAt (hlabel : label.head?.any isNameStart = true) (s : List Char) {i : Nat}
    (h : Ahead bs i (octets s)) :
    StopsAt bs i s (closingEnd (octets label) bs i) (fun n => heredocLength label true n s) := by
  by_cases hs : s = []
  · subst hs
    have hlen : bs.length = i := h.length
    exact .here h.le (hlen ▸ closingEnd_of_le (Nat.le_refl _)) fun _ => rfl
  -- One line: its blanks, and then the label, or all up to the next newline. The lines behind it are a shorter text.
  obtain ⟨blanks, r, rfl, hblanks, hstop⟩ := exists_run isBlank s
  have hr := h.behind
  refine .behind (f := fun n => heredocLength label true n r) ?_ fun n => heredocLength_blanks hlabel hblanks n
  rw [closingEnd_line h hs hblanks hstop]
  split_ifs with hclosed
  · obtain ⟨rest, rfl, -⟩ := isClosedBy_iff.mp hclosed
    exact .past hr rfl fun n => heredocLength_closed hlabel hclosed n
  simp only [heredocLength_margin hclosed hstop, heredocLength_line]
  cases hp : position? ['\n'] r with
  | none =>
    refine ⟨r, [], bs.length, (List.append_nil r).symm, rfl, ?_, fun n => rfl⟩
    rw [Nat.min_self, hr.length]
  | some k =>
    obtain ⟨t, rest, rfl, rfl⟩ := position?_lt hp
    have hsize : (octets (t ++ ['\n'])).length = (octets t).length + 1 := by
      rw [octets_append, octets_of_isAscii (by decide), List.length_append]
      rfl
    have hshort : rest.length < (blanks ++ (t ++ ['\n'] ++ rest)).length := by
      simp only [List.length_append, List.length_singleton]
      omega
    have hnext := closingEnd_stopsAt hlabel rest hr.behind
    have hdrop : (t ++ ['\n'] ++ rest).drop (t.length + 1) = rest := List.drop_left' (by simp)
    have htake : (t ++ ['\n'] ++ rest).take t.length = t := by simp
    simp only [Option.elim_some, hdrop, htake, Nat.add_assoc _ (octets t).length 1, ← hsize]
    exact .behind hnext fun n => by rw [List.length_append, List.length_singleton, Nat.add_assoc]
termination_by s.length

/-! ### Inline HTML -/

theorem tagEnd_of_le (h : bs.length ≤ i + 1) : tagEnd bs i = .ok none := by
  rw [tagEnd, if_neg (Nat.not_lt.mpr h)]
  rfl

theorem openTag?_signs (v : List Char) :
    openTag? ('<' :: '?' :: v) =
      if (v.take 3).map Char.toLower = ['p', 'h', 'p'] then some 5 else if v.head? = some '=' then some 3 else none :=
  rfl

theorem openTag?_of_not_signs (h : ¬ ['<', '?'] <+: s) : openTag? s = none := by
  by_contra hne
  obtain ⟨k, hk⟩ := Option.ne_none_iff_exists'.mp hne
  obtain ⟨tag, rest, rfl, rfl | ⟨word, rfl, -⟩, -⟩ := openTag?_eq_some_iff.mp hk
  · exact h ⟨'=' :: rest, rfl⟩
  · exact h ⟨word ++ rest, rfl⟩

theorem tagEnd_cons (h : Ahead bs i (b :: u)) :
    tagEnd bs i = (openTag? (b :: u)).elim (tagEnd bs (i + 1)) fun k => .ok (some (i + k)) := by
  cases u with
  | nil =>
    have hlen : bs.length = i + 1 := h.length
    have hnone : openTag? [b] = none := by simp [openTag?]
    rw [hnone, tagEnd_of_le (by omega), Option.elim_none, tagEnd_of_le (by omega)]
  | cons d v =>
    have hlen : bs.length = i + (v.length + 2) := h.length
    have hequals : bs[i + 2]? = v.head? := h.next.next.head?
    rw [tagEnd, if_pos h.next.lt, h.byteAt]
    show (byteAt bs (i + 1) >>= fun next => _) = _
    rw [h.next.byteAt]
    show (if b = '<' ∧ d = '?' then
      if i + 5 ≤ bs.length then bytesBetween bs (i + 2) (i + 5) >>= fun word => _ else _ else _) = _
    by_cases hsigns : b = '<' ∧ d = '?'
    swap
    · have hnone : openTag? (b :: d :: v) = none := openTag?_of_not_signs <| by
        rintro ⟨_, heq⟩
        obtain ⟨hless, hrest⟩ := List.cons.inj heq
        exact hsigns ⟨hless.symm, (List.cons.inj hrest).1.symm⟩
      rw [if_neg hsigns, hnone, Option.elim_none]
    obtain ⟨rfl, rfl⟩ := hsigns
    simp only [hequals, openTag?_signs]
    by_cases hlong : i + 5 ≤ bs.length
    · have hword : bytesBetween bs (i + 2) (i + 5) = .ok (v.take 3) := h.next.next.bytesBetween (n := 3) hlong
      rw [hword, if_pos (by decide), if_pos hlong]
      show (if (v.take 3).map Char.toLower = ['p', 'h', 'p'] then Except.ok (some (i + 5)) else _) = _
      split_ifs <;> rfl
    · have hshort : (v.take 3).map Char.toLower ≠ ['p', 'h', 'p'] := fun heq => by
        have := congrArg List.length heq
        simp only [List.length_map, List.length_take, List.length_cons, List.length_nil] at this
        omega
      rw [if_pos (by decide), if_neg hlong, if_neg hshort]
      split_ifs <;> rfl

/-- The loop that looks for an open tag stops behind the first one, if there is one. -/
theorem tagEnd_octets (h : Ahead bs i (octets s)) :
    (tagEnd bs i = .ok none ∧ ∀ n, htmlLength n s = n + s.length) ∨
      ∃ t rest, s = t ++ rest ∧ t ≠ [] ∧ tagEnd bs i = .ok (some (i + (octets t).length)) ∧
        ∀ n, htmlLength n s = n + t.length := by
  induction s generalizing i with
  | nil =>
    have hlen : bs.length = i := h.length
    exact Or.inl ⟨tagEnd_of_le (by omega), fun n => rfl⟩
  | cons c r ih =>
    cases htag : openTag? (c :: r) with
    | some k =>
      obtain ⟨tag, rest, heq, ht, rfl⟩ := openTag?_eq_some_iff.mp htag
      refine Or.inr ⟨tag, rest, heq, ht.ne_nil, ?_, fun n => by rw [htmlLength, htag]⟩
      obtain ⟨b, u, hb⟩ := List.exists_cons_of_ne_nil (octets_ne_nil (List.cons_ne_nil c r))
      rw [tagEnd_cons (hb ▸ h), ← hb, openTag?_octets, htag, octets_eq_self ht.isAscii]
      rfl
    | none =>
      -- No tag starts here, nor at the other bytes of the character.
      have hpass : tagEnd bs i = tagEnd bs (i + (octets [c]).length) := by
        by_cases hc : IsAscii c
        · rw [tagEnd_cons (h.of_isAscii hc), ← octets_cons_of_isAscii hc, openTag?_octets, htag, octets_of_isAscii hc]
          rfl
        · refine h.skip_char (fun {j b u} hj hb => ?_) hc
          have hnone : openTag? (b :: u) = none := openTag?_of_not_signs <| by
            rintro ⟨_, heq⟩
            exact ne_of_not_isAscii hb (by decide) (List.cons.inj heq).1.symm
          rw [tagEnd_cons hj, hnone, Option.elim_none]
      have hlength (n : Nat) : htmlLength n (c :: r) = htmlLength (n + 1) r := by rw [htmlLength, htag]
      simp only [hpass, hlength]
      rcases ih h.behind_cons with ⟨hend, hall⟩ | ⟨t, rest, rfl, -, hend, hall⟩
      · refine Or.inl ⟨hend, fun n => ?_⟩
        rw [hall, List.length_cons, Nat.add_assoc, Nat.add_comm 1]
      · refine Or.inr ⟨c :: t, rest, rfl, List.cons_ne_nil c t, ?_, fun n => ?_⟩
        · rw [hend, octets_cons c t, List.length_append, Nat.add_assoc]
        · rw [hall, List.length_cons, Nat.add_assoc, Nat.add_comm 1]

/-! ### Slices of the text -/

theorem textFrom_append (s t : List Char) : textFrom (s ++ t) (octets s).length = .ok t := by
  induction s with
  | nil => cases t <;> rfl
  | cons c s ih =>
    obtain ⟨n, hn⟩ : ∃ n, (octets [c]).length = n + 1 :=
      Nat.exists_eq_succ_of_ne_zero (mt List.length_eq_zero_iff.mp (octets_ne_nil (List.cons_ne_nil c [])))
    rw [octets_cons, List.length_append, hn, Nat.add_right_comm, List.cons_append, textFrom]
    simp only [hn]
    rw [if_pos (by omega)]
    have : n + (octets s).length + 1 - (n + 1) = (octets s).length := by omega
    rw [this, ih]

theorem textBetween_append (s t u : List Char) :
    textBetween (s ++ t ++ u) (octets s).length (octets (s ++ t)).length = .ok t := by
  have hfrom : textFrom (s ++ t ++ u) (octets s).length = .ok (t ++ u) := by
    rw [List.append_assoc]
    exact textFrom_append s (t ++ u)
  rw [textBetween, hfrom, textFrom_append]
  show (if (octets s).length ≤ (octets (s ++ t)).length then Except.ok ((t ++ u).take ((t ++ u).length - u.length))
    else _) = _
  rw [if_pos (by rw [octets_append, List.length_append]; omega), List.length_append, Nat.add_sub_cancel, List.take_left]

/-! ### One piece -/

/-- The reader stops behind the first character of the text and as many others as are said to be of the piece. -/
def Finds (bs : List Char) (i : Nat) (s : List Char) (found : Except Fault (Shape × Nat)) (said : Shape × Nat) : Prop :=
  ∃ loop, found = loop.map (said.1, ·) ∧ StopsAt bs i s loop fun n => n + (1 + said.2)

theorem stopsAt_run {p : Char → Bool} (h : Ahead bs i (octets s)) :
    StopsAt bs i s (.ok (i + (octets (s.takeWhile p)).length)) fun n => n + (s.takeWhile p).length := by
  have hsplit := List.takeWhile_append_dropWhile (p := p) (l := s)
  rw [← hsplit] at h
  have hstop := StopsAt.past h rfl fun n => rfl
  rwa [hsplit] at hstop

namespace Finds
variable {found : Except Fault (Shape × Nat)} {kind : Shape} {p : Char → Bool}

theorem behind {loop : Except Fault Nat} {f : Nat → Nat} (hc : IsAscii c) (h : StopsAt bs (i + 1) r loop f)
    (hfound : found = loop.map (kind, ·)) : Finds bs i (c :: r) found (kind, f 0) := by
  have hf (n : Nat) : n + 1 + f 0 = f (n + 1) := by
    obtain ⟨t, -, -, -, -, -, hlen⟩ := h
    rw [hlen, hlen, Nat.zero_add]
  exact ⟨loop, hfound, h.cons_of_isAscii hc fun n => by rw [← hf, Nat.add_assoc]⟩

theorem word {t rest : List Char} (h : Ahead bs i (octets (c :: (t ++ rest)))) (ht : ∀ a ∈ c :: t, IsAscii a) :
    Finds bs i (c :: (t ++ rest)) (.ok (kind, i + (t.length + 1))) (kind, t.length) := by
  refine ⟨.ok (i + (t.length + 1)), rfl, .past (x := c :: t) h ?_ fun n => ?_⟩
  · rw [octets_eq_self ht, List.length_cons]
  · rw [List.length_cons, Nat.add_comm 1]

theorem one (h : Ahead bs i (octets (c :: r))) (hc : IsAscii c) : Finds bs i (c :: r) (.ok (kind, i + 1)) (kind, 0) :=
  word (t := []) h (by simpa using hc)

theorem run (h : Ahead bs i (octets (c :: r))) (hp : Uniform p) (hc : p c = true) :
    Finds bs i (c :: r) ((runLength p bs i).map fun n => (kind, i + n)) (kind, (r.takeWhile p).length) := by
  have hrun : (c :: r).takeWhile p = c :: r.takeWhile p := List.takeWhile_cons_of_pos hc
  refine ⟨.ok (i + (octets ((c :: r).takeWhile p)).length), ?_, (stopsAt_run h).congr fun n => ?_⟩
  · rw [runLength_eq h hp]
    rfl
  · rw [hrun, List.length_cons, Nat.add_comm 1]

theorem exists_piece {said : Shape × Nat} (h : Finds bs i (c :: r) found said) :
    ∃ t rest stop, r = t ++ rest ∧ t.length = said.2 ∧ found = .ok (said.1, stop) ∧
      min stop bs.length = i + (octets (c :: t)).length := by
  obtain ⟨loop, hfound, t, rest, stop, heq, rfl, hstop, hlen⟩ := h
  have hlen : 0 + (1 + said.2) = 0 + t.length := hlen 0
  cases t with
  | nil =>
    rw [List.length_nil] at hlen
    omega
  | cons d t =>
    obtain ⟨rfl, rfl⟩ := List.cons.inj heq
    rw [List.length_cons] at hlen
    exact ⟨t, rest, stop, rfl, by omega, hfound, hstop⟩

end Finds

section
variable {text : List Char}

theorem shapeAt_question :
    shapeAt text bs i '?' =
      if bs[i + 1]? = some '>' then .ok (.closeTag, i + 2)
      else if bs[i + 1]? = some '-' ∧ bs[i + 2]? = some '>' then .ok (.token .objectOperator, i + 3)
      else .ok (.token .other, i + 1) := by
  simp [shapeAt, isNameStart, backtick, separator]

theorem shapeAt_slash :
    shapeAt text bs i '/' =
      if bs[i + 1]? = some '/' then (lineEnd bs i).map (.gap .lineComment, ·)
      else if bs[i + 1]? = some '*' then (blockEnd bs i).map (.gap .blockComment, ·)
      else .ok (.token .other, i + 1) := by
  simp [shapeAt, isNameStart, backtick, separator]

theorem shapeAt_hash :
    shapeAt text bs i '#' =
      if bs[i + 1]? = some '[' then .ok (.token .other, i + 1)
      else (lineEnd bs i).map (.gap .lineComment, ·) := by
  simp [shapeAt]

theorem shapeAt_single : shapeAt text bs i '\'' = (singleEnd bs (i + 1)).map (.gap .singleQuoted, ·) := by
  simp [shapeAt]

theorem shapeAt_interpolated (hb : b = '"' ∨ b = backtick) :
    shapeAt text bs i b = (interpolatedEnd b bs (i + 1)).map (.gap .interpolated, ·) := by
  rcases hb with rfl | rfl <;> simp [shapeAt, backtick]

theorem shapeAt_less : shapeAt text bs i '<' = angleAt text bs i := by
  simp [shapeAt, backtick]

theorem shapeAt_dollar :
    shapeAt text bs i '$' =
      if (bs[i + 1]?).any isNameStart then
        (runLength isNameChar bs (i + 1)).map fun n => (.token .variable, i + (1 + n))
      else .ok (.token .other, i + 1) := by
  simp [shapeAt, isNameStart, backtick, separator]

theorem shapeAt_colon :
    shapeAt text bs i ':' =
      if bs[i + 1]? = some ':' then .ok (.token .doubleColon, i + 2) else .ok (.token .colon, i + 1) := by
  simp [shapeAt, backtick]

theorem shapeAt_minus :
    shapeAt text bs i '-' =
      if bs[i + 1]? = some '>' then .ok (.token .objectOperator, i + 2) else .ok (.token .other, i + 1) := by
  simp [shapeAt, isNameStart, backtick, separator]

theorem shapeAt_openBrace : shapeAt text bs i '{' = .ok (.token .openBrace, i + 1) := by
  simp [shapeAt, backtick]

theorem shapeAt_closeBrace : shapeAt text bs i '}' = .ok (.token .closeBrace, i + 1) := by
  simp [shapeAt, backtick]

theorem shapeAt_semicolon : shapeAt text bs i ';' = .ok (.token .semicolon, i + 1) := by
  simp [shapeAt, backtick]

theorem shapeAt_of_not_sign (hb : b ∉ signs) :
    shapeAt text bs i b =
      if b = separator ∧ (bs[i + 1]?).any isNameStart ∨ isNameStart b then
        (runLength isQualifiedChar bs i).map fun n => (.token .name, i + n)
      else if b.isDigit then (runLength isNumberChar bs i).map fun n => (.token .other, i + n)
      else .ok (.token .other, i + 1) := by
  simp only [signs, List.mem_cons, List.not_mem_nil, or_false, not_or] at hb
  simp [shapeAt, hb]

theorem isAscii_of_mem_signs (hc : c ∈ signs) : IsAscii c := by
  have hsigns : ∀ a ∈ signs, IsAscii a := by simp [signs, backtick, IsAscii]
  exact hsigns c hc

theorem arrow_iff (h : Ahead bs (i + 1) (octets s)) :
    bs[i + 1]? = some '-' ∧ bs[i + 2]? = some '>' ↔ ['-', '>'].isPrefixOf s = true := by
  rw [h.getElem?_eq_some_iff (by decide), List.isPrefixOf_iff_prefix]
  constructor
  · rintro ⟨hminus, hgreater⟩
    obtain ⟨r, rfl⟩ := List.head?_eq_some_iff.mp hminus
    rw [(h.next_of_isAscii (by decide)).getElem?_eq_some_iff (by decide)] at hgreater
    obtain ⟨r, rfl⟩ := List.head?_eq_some_iff.mp hgreater
    exact ⟨r, rfl⟩
  · rintro ⟨r, rfl⟩
    exact ⟨rfl, ((h.next_of_isAscii (by decide)).getElem?_eq_some_iff (by decide)).mpr rfl⟩

theorem finds_question (h : Ahead bs i (octets ('?' :: r))) :
    Finds bs i ('?' :: r) (shapeAt text bs i '?') (codeShape '?' r) := by
  have hr := h.next_of_isAscii (by decide)
  simp only [shapeAt_question, codeShape_question, hr.getElem?_eq_some_iff (show IsAscii '>' by decide), arrow_iff hr]
  split_ifs with hclose harrow
  · obtain ⟨rest, rfl⟩ := List.head?_eq_some_iff.mp hclose
    exact .word (t := ['>']) h (by simp [IsAscii])
  · obtain ⟨rest, rfl⟩ := List.isPrefixOf_iff_prefix.mp harrow
    exact .word (t := ['-', '>']) h (by simp [IsAscii])
  · exact .one h (by decide)

theorem finds_lineComment (h : Ahead bs i (octets (c :: r))) (hc : c = '/' ∨ c = '#') :
    Finds bs i (c :: r) ((lineEnd bs i).map (.gap .lineComment, ·)) (.gap .lineComment, lineCommentLength 0 r) := by
  have hascii : IsAscii c ∧ c ≠ '\n' ∧ c ≠ '?' := by rcases hc with rfl | rfl <;> decide
  have hpass : lineEnd bs i = lineEnd bs (i + 1) := by
    rw [lineEnd_cons (h.of_isAscii hascii.1), if_neg (by simp [hascii])]
  rw [hpass]
  exact .behind hascii.1 (lineEnd_stopsAt (h.next_of_isAscii hascii.1)) rfl

theorem finds_slash (h : Ahead bs i (octets ('/' :: r))) :
    Finds bs i ('/' :: r) (shapeAt text bs i '/') (codeShape '/' r) := by
  have hr := h.next_of_isAscii (by decide)
  simp only [shapeAt_slash, codeShape_slash, hr.getElem?_eq_some_iff (show IsAscii '/' by decide),
    hr.getElem?_eq_some_iff (show IsAscii '*' by decide)]
  split_ifs with hline hblock
  · exact finds_lineComment h (Or.inl rfl)
  · obtain ⟨rest, rfl⟩ := List.head?_eq_some_iff.mp hblock
    exact .behind (by decide) (blockEnd_stopsAt hr) rfl
  · exact .one h (by decide)

theorem finds_hash (h : Ahead bs i (octets ('#' :: r))) :
    Finds bs i ('#' :: r) (shapeAt text bs i '#') (codeShape '#' r) := by
  have hr := h.next_of_isAscii (by decide)
  simp only [shapeAt_hash, codeShape_hash, hr.getElem?_eq_some_iff (show IsAscii '[' by decide)]
  split_ifs with hattribute
  · exact .one h (by decide)
  · exact finds_lineComment h (Or.inr rfl)

theorem finds_single (h : Ahead bs i (octets ('\'' :: r))) :
    Finds bs i ('\'' :: r) (shapeAt text bs i '\'') (codeShape '\'' r) := by
  rw [shapeAt_single, codeShape_single]
  exact .behind (by decide) (singleEnd_stopsAt r (h.next_of_isAscii (by decide))) rfl

theorem finds_interpolated (h : Ahead bs i (octets (c :: r))) (hc : c = '"' ∨ c = backtick) :
    Finds bs i (c :: r) (shapeAt text bs i c) (codeShape c r) := by
  have hascii : IsAscii c := by rcases hc with rfl | rfl <;> decide
  rw [shapeAt_interpolated hc, codeShape_interpolated hc]
  exact .behind hascii (interpolatedEnd_stopsAt hc r (h.next_of_isAscii hascii)) rfl

theorem finds_dollar (h : Ahead bs i (octets ('$' :: r))) :
    Finds bs i ('$' :: r) (shapeAt text bs i '$') (codeShape '$' r) := by
  have hr := h.next_of_isAscii (by decide)
  rw [shapeAt_dollar, codeShape_dollar, hr.head?, any_head?_octets uniform_isNameStart]
  split_ifs with hname
  · rw [runLength_eq hr uniform_isNameChar]
    refine ⟨.ok (i + 1 + (octets (r.takeWhile isNameChar)).length), by rw [Nat.add_assoc]; rfl, ?_⟩
    exact (stopsAt_run hr).cons_of_isAscii (by decide) fun n => (Nat.add_assoc n 1 _).symm
  · exact .one h (by decide)

theorem finds_colon (h : Ahead bs i (octets (':' :: r))) :
    Finds bs i (':' :: r) (shapeAt text bs i ':') (codeShape ':' r) := by
  have hr := h.next_of_isAscii (by decide)
  simp only [shapeAt_colon, codeShape_colon, hr.getElem?_eq_some_iff (show IsAscii ':' by decide)]
  split_ifs with hcolon
  · obtain ⟨rest, rfl⟩ := List.head?_eq_some_iff.mp hcolon
    exact .word (t := [':']) h (by simp [IsAscii])
  · exact .one h (by decide)

theorem finds_minus (h : Ahead bs i (octets ('-' :: r))) :
    Finds bs i ('-' :: r) (shapeAt text bs i '-') (codeShape '-' r) := by
  have hr := h.next_of_isAscii (by decide)
  simp only [shapeAt_minus, codeShape_minus, hr.getElem?_eq_some_iff (show IsAscii '>' by decide)]
  split_ifs with harrow
  · obtain ⟨rest, rfl⟩ := List.head?_eq_some_iff.mp harrow
    exact .word (t := ['>']) h (by simp [IsAscii])
  · exact .one h (by decide)

theorem finds_not_sign (h : Ahead bs i (octets (c :: r))) (hb : bs[i]? = some b) (hs : isSpace c = false)
    (hc : c ∉ signs) : Finds bs i (c :: r) (shapeAt text bs i b) (codeShape c r) := by
  rw [codeShape_of_not_sign hs hc]
  by_cases hascii : IsAscii c
  · have hr := h.next_of_isAscii hascii
    obtain rfl : c = b := by
      rw [(h.of_isAscii hascii).head?] at hb
      exact Option.some.inj hb
    rw [shapeAt_of_not_sign hc, hr.head?, any_head?_octets uniform_isNameStart]
    simp only [or_comm (b := isNameStart c = true)]
    split_ifs with hname hdigit
    · refine .run h uniform_isQualifiedChar ?_
      rcases hname with hstart | ⟨rfl, -⟩
      · rw [isQualifiedChar, isNameChar_of_isNameStart hstart]
        rfl
      · rfl
    · refine .run h uniform_isNumberChar ?_
      rw [isNumberChar, Char.isAlphanum, hdigit]
      simp
    · exact .one h hascii
  · have hbeyond : ¬ IsAscii b := by
      have huniform : Uniform fun d => decide (IsAscii d) := .of_forall fun d hd => decide_eq_false hd
      have hfirst := any_head?_octets (s := c :: r) huniform
      rw [← h.head?, hb] at hfirst
      exact fun hb => hascii (of_decide_eq_true (hfirst.symm.trans (decide_eq_true hb)))
    have hsign : b ∉ signs := fun hmem => hbeyond (isAscii_of_mem_signs hmem)
    rw [shapeAt_of_not_sign hsign, if_pos (Or.inr (isNameStart_of_not_isAscii hbeyond)),
      if_pos (Or.inl (isNameStart_of_not_isAscii hascii))]
    exact .run h uniform_isQualifiedChar (isQualifiedChar_of_not_isAscii hascii)

theorem heredocEnd?_eq (h : textFrom text i = .ok ('<' :: '<' :: '<' :: r)) :
    heredocEnd? text bs i = (heredocOpener? r).elim (.ok none) fun opener =>
      (closingEnd (octets opener.1) bs (i + (octets ('<' :: '<' :: '<' :: r.take opener.2)).length)).map some := by
  rw [heredocEnd?, h]
  have hdrop : ('<' :: '<' :: '<' :: r).drop 3 = r := rfl
  simp only [bind, Except.bind, hdrop]
  cases heredocOpener? r with
  | none => rfl
  | some opener =>
    obtain ⟨label, n⟩ := opener
    have htake : ('<' :: '<' :: '<' :: r).take (3 + n) = '<' :: '<' :: '<' :: r.take n := by
      rw [Nat.add_comm]
      rfl
    show (closingEnd (octets label) bs (i + (octets (('<' :: '<' :: '<' :: r).take (3 + n))).length) >>=
      fun stop => _) = _
    rw [htake, Option.elim_some]
    cases closingEnd (octets label) bs (i + (octets ('<' :: '<' :: '<' :: r.take n)).length) <;> rfl

theorem finds_less (h : Ahead bs i (octets ('<' :: r))) (htext : textFrom text i = .ok ('<' :: r)) :
    Finds bs i ('<' :: r) (shapeAt text bs i '<') (codeShape '<' r) := by
  have hless : ['<', '<', '<'].isPrefixOf (octets ('<' :: r)) = true ↔ ['<', '<'] <+: r := by
    have hpre : octets ['<', '<', '<'] <+: octets ('<' :: r) ↔ ['<', '<', '<'] <+: '<' :: r := octets_prefix_iff
    rw [octets_eq_self (by simp [IsAscii]), List.cons_prefix_cons] at hpre
    rw [List.isPrefixOf_iff_prefix, hpre, eq_self_iff_true, true_and]
  rw [shapeAt_less, angleAt, h.bytesFrom]
  show Finds bs i _ (if ['<', '<', '<'].isPrefixOf (octets ('<' :: r)) = true then _ else _) _
  by_cases hr : ['<', '<'] <+: r
  swap
  · rw [if_neg (mt hless.mp hr), codeShape_less_alone hr]
    exact .one h (by decide)
  rw [if_pos (hless.mpr hr)]
  obtain ⟨r, rfl⟩ : ∃ x, r = '<' :: '<' :: x := hr.imp fun x hx => hx.symm
  rw [heredocEnd?_eq htext]
  cases hopener : heredocOpener? r with
  | none =>
    rw [codeShape_less_of_none hopener]
    exact .word (t := ['<', '<']) h (by simp [IsAscii])
  | some opener =>
    obtain ⟨label, n⟩ := opener
    rw [codeShape_less_of_some hopener]
    obtain ⟨opener, rest, rfl, ⟨-, -, -, -, -, -, hstart, -⟩, rfl⟩ := exists_opener_of_heredocOpener? hopener
    -- The piece is counted from behind its first sign, and the loop starts behind the opener.
    have hbehind : Ahead bs (i + 1) (octets ('<' :: '<' :: opener ++ rest)) := h.next_of_isAscii (by decide)
    have hsize : i + (octets ('<' :: '<' :: '<' :: opener)).length =
        i + 1 + (octets ('<' :: '<' :: opener)).length := by
      rw [octets_cons_of_isAscii (by decide), List.length_cons]
      omega
    have hstop := (closingEnd_stopsAt hstart rest hbehind.behind).behind
      (g := fun n => heredocLength label true (2 + opener.length + n) rest) fun n => by
        simp only [List.length_cons]
        congr 1
        omega
    have hfinds {found} : found = _ → Finds bs i ('<' :: '<' :: '<' :: (opener ++ rest)) found
        (.gap .heredoc, heredocLength label true (2 + opener.length) rest) := Finds.behind (c := '<') (by decide) hstop
    rw [List.drop_left]
    refine hfinds ?_
    rw [← hsize, Option.elim_some, List.take_left]
    generalize closingEnd (octets label) bs (i + (octets ('<' :: '<' :: '<' :: opener)).length) = loop
    cases loop <;> rfl

/-- In PHP code the reader finds the piece that the text starts with. -/
theorem finds_shapeAt (h : Ahead bs i (octets (c :: r))) (htext : textFrom text i = .ok (c :: r))
    (hs : isSpace c = false) : ∃ b, bs[i]? = some b ∧ Finds bs i (c :: r) (shapeAt text bs i b) (codeShape c r) := by
  -- A byte beyond ASCII is no sign, so only the other characters may differ from their first byte.
  by_cases hc : c ∈ signs
  swap
  · obtain ⟨b, u, hb⟩ := List.exists_cons_of_ne_nil (octets_ne_nil (List.cons_ne_nil c r))
    have hfirst : bs[i]? = some b := by rw [h.head?, hb, List.head?_cons]
    exact ⟨b, hfirst, finds_not_sign h hfirst hs hc⟩
  refine ⟨c, (h.of_isAscii (isAscii_of_mem_signs hc)).head?, ?_⟩
  simp only [signs, List.mem_cons, List.not_mem_nil, or_false] at hc
  rcases hc with rfl | rfl | rfl | rfl | rfl | rfl | rfl | rfl | rfl | rfl | rfl | rfl | rfl
  · exact finds_question h
  · exact finds_slash h
  · exact finds_hash h
  · exact finds_single h
  · exact finds_interpolated h (Or.inl rfl)
  · exact finds_interpolated h (Or.inr rfl)
  · exact finds_less h htext
  · exact finds_dollar h
  · exact finds_colon h
  · exact finds_minus h
  · rw [shapeAt_openBrace, codeShape_openBrace]
    exact .one h (by decide)
  · rw [shapeAt_closeBrace, codeShape_closeBrace]
    exact .one h (by decide)
  · rw [shapeAt_semicolon, codeShape_semicolon]
    exact .one h (by decide)

end

end
end TypeFinder.Php.Reader

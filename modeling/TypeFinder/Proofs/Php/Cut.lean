import TypeFinder.Proofs.Php.Heredoc
import TypeFinder.Proofs.Php.Literal

/-! One piece of the source. A text and what follows it are related to the shape that the text has; such a relation
    is total and unambiguous, and the reading of the source follows it. Which shape starts at a character depends on
    the character first, and only then on what follows. -/

namespace TypeFinder.Php

section
variable {r : List Char} {c : Char}

/-! ### By the first character -/

theorem codeShape_space (hc : isSpace c = true) : codeShape c r = (.gap .space, (r.takeWhile isSpace).length) := by
  simp [codeShape, hc]

theorem codeShape_question :
    codeShape '?' r =
      if r.head? = some '>' then (.closeTag, 1)
      else if ['-', '>'].isPrefixOf r then (.token .objectOperator, 2)
      else (.token .other, 0) := by
  simp [codeShape, isSpace, isNameStart, backtick, separator]

theorem codeShape_slash :
    codeShape '/' r =
      if r.head? = some '/' then (.gap .lineComment, lineCommentLength 0 r)
      else if r.head? = some '*' then (.gap .blockComment, blockCommentLength 1 r.tail)
      else (.token .other, 0) := by
  simp [codeShape, isSpace, isNameStart, backtick, separator]

theorem codeShape_hash :
    codeShape '#' r = if r.head? = some '[' then (.token .other, 0) else (.gap .lineComment, lineCommentLength 0 r) := by
  simp [codeShape, isSpace]

theorem codeShape_single : codeShape '\'' r = (.gap .singleQuoted, singleQuotedLength 0 r) := by
  simp [codeShape, isSpace]

theorem codeShape_interpolated (hc : c = '"' ∨ c = backtick) :
    codeShape c r = (.gap .interpolated, interpolatedLength c 0 0 r) := by
  rcases hc with rfl | rfl <;> simp [codeShape, isSpace, backtick]

theorem codeShape_less_of_some {label : List Char} {n : Nat} (h : heredocOpener? r = some (label, n)) :
    codeShape '<' ('<' :: '<' :: r) = (.gap .heredoc, heredocLength label true (2 + n) (r.drop n)) := by
  have hdrop : ('<' :: '<' :: r).drop (2 + n) = r.drop n := by
    rw [Nat.add_comm]
    rfl
  simp [codeShape, isSpace, backtick, h, hdrop]

theorem codeShape_less_of_none (h : heredocOpener? r = none) : codeShape '<' ('<' :: '<' :: r) = (.token .other, 2) := by
  simp [codeShape, isSpace, backtick, h]

theorem codeShape_less_alone (h : ¬ ['<', '<'] <+: r) : codeShape '<' r = (.token .other, 0) := by
  simp [codeShape, isSpace, isNameStart, backtick, separator, h]

theorem codeShape_dollar :
    codeShape '$' r =
      if r.head?.any isNameStart then (.token .variable, (r.takeWhile isNameChar).length) else (.token .other, 0) := by
  simp [codeShape, isSpace, isNameStart, backtick, separator]

theorem codeShape_colon :
    codeShape ':' r = if r.head? = some ':' then (.token .doubleColon, 1) else (.token .colon, 0) := by
  simp [codeShape, isSpace, backtick]

theorem codeShape_minus :
    codeShape '-' r = if r.head? = some '>' then (.token .objectOperator, 1) else (.token .other, 0) := by
  simp [codeShape, isSpace, isNameStart, backtick, separator]

theorem codeShape_openBrace : codeShape '{' r = (.token .openBrace, 0) := by
  simp [codeShape, isSpace, backtick]

theorem codeShape_closeBrace : codeShape '}' r = (.token .closeBrace, 0) := by
  simp [codeShape, isSpace, backtick]

theorem codeShape_semicolon : codeShape ';' r = (.token .semicolon, 0) := by
  simp [codeShape, isSpace, backtick]

/-- The signs that may start something other than a name or a number. -/
def signs : List Char := ['?', '/', '#', '\'', '"', backtick, '<', '$', ':', '-', '{', '}', ';']

theorem codeShape_of_not_sign (hs : isSpace c = false) (hc : c ∉ signs) :
    codeShape c r =
      if isNameStart c ∨ c = separator ∧ r.head?.any isNameStart then
        (.token .name, (r.takeWhile isQualifiedChar).length)
      else if c.isDigit then (.token .other, (r.takeWhile isNumberChar).length)
      else (.token .other, 0) := by
  simp only [signs, List.mem_cons, List.not_mem_nil, or_false, not_or] at hc
  simp [codeShape, hs, hc]

end

/-! ### Regions and tokens -/

/-- A region between tokens, and what follows it. -/
inductive Region : Gap → List Char → List Char → Prop
  | html {s tag rest : List Char} : LacksOpenTag s → IsOpenTag tag → Region .html (s ++ tag) rest
  | space {s rest : List Char} : (∀ c ∈ s, isSpace c = true) → rest.head?.any isSpace = false → Region .space s rest
  | slashes {body rest : List Char} : IsLineBody body → EndsLine rest → Region .lineComment ('/' :: '/' :: body) rest
  | hash {body rest : List Char} : body.head? ≠ some '[' → IsLineBody body → EndsLine rest →
      Region .lineComment ('#' :: body) rest
  | block {body rest : List Char} : ¬ ['*', '/'] <:+: body →
      Region .blockComment ('/' :: '*' :: (body ++ ['*', '/'])) rest
  | single {body rest : List Char} : SingleQuoted body → Region .singleQuoted ('\'' :: (body ++ ['\''])) rest
  | interpolated {quote : Char} {body rest : List Char} : quote = '"' ∨ quote = backtick → Interpolated quote body →
      Region .interpolated (quote :: (body ++ [quote])) rest
  | heredoc {label opener lines rest : List Char} : IsOpener label opener → ClosesFirst label lines rest →
      Region .heredoc ('<' :: '<' :: '<' :: (opener ++ lines ++ label)) rest

/-- A region that the end of the text breaks off. -/
inductive Unclosed : Gap → List Char → Prop
  | html {s : List Char} : LacksOpenTag s → Unclosed .html s
  | block {body : List Char} : ¬ ['*', '/'] <:+: body → Unclosed .blockComment ('/' :: '*' :: body)
  | single {s : List Char} : UnclosedSingle s → Unclosed .singleQuoted ('\'' :: s)
  | interpolated {quote : Char} {s : List Char} : quote = '"' ∨ quote = backtick → UnclosedInterpolated quote s →
      Unclosed .interpolated (quote :: s)
  | heredoc {label opener lines : List Char} : IsOpener label opener → NeverCloses label lines →
      Unclosed .heredoc ('<' :: '<' :: '<' :: (opener ++ lines))

/-- A character that is a token by itself where `rest` follows: it starts nothing longer and no region. -/
structure Alone (c : Char) (rest : List Char) : Prop where
  space : isSpace c = false
  name : isNameStart c = false
  digit : c.isDigit = false
  sign : c ∉ ['#', '\'', '"', backtick, ':', '{', '}', ';']
  question : c = '?' → rest.head? ≠ some '>' ∧ ¬ ['-', '>'] <+: rest
  slash : c = '/' → rest.head? ≠ some '/' ∧ rest.head? ≠ some '*'
  less : c = '<' → ¬ ['<', '<'] <+: rest
  named : c = '$' ∨ c = separator → rest.head?.any isNameStart = false
  minus : c = '-' → rest.head? ≠ some '>'

/-- A token, and what follows it. -/
inductive Word : Shape → List Char → List Char → Prop
  | closeTag {rest : List Char} : Word .closeTag ['?', '>'] rest
  | nullsafe {rest : List Char} : Word (.token .objectOperator) ['?', '-', '>'] rest
  | arrow {rest : List Char} : Word (.token .objectOperator) ['-', '>'] rest
  | hash {rest : List Char} : Word (.token .other) ['#'] ('[' :: rest)
  | shift {rest : List Char} : LacksOpener rest → Word (.token .other) ['<', '<', '<'] rest
  | dollar {c : Char} {s rest : List Char} : isNameStart c = true → (∀ d ∈ s, isNameChar d = true) →
      rest.head?.any isNameChar = false → Word (.token .variable) ('$' :: c :: s) rest
  | doubleColon {rest : List Char} : Word (.token .doubleColon) [':', ':'] rest
  | colon {rest : List Char} : rest.head? ≠ some ':' → Word (.token .colon) [':'] rest
  | openBrace {rest : List Char} : Word (.token .openBrace) ['{'] rest
  | closeBrace {rest : List Char} : Word (.token .closeBrace) ['}'] rest
  | semicolon {rest : List Char} : Word (.token .semicolon) [';'] rest
  | name {c : Char} {s rest : List Char} : isNameStart c = true → (∀ d ∈ s, isQualifiedChar d = true) →
      rest.head?.any isQualifiedChar = false → Word (.token .name) (c :: s) rest
  | qualified {c : Char} {s rest : List Char} : isNameStart c = true → (∀ d ∈ s, isQualifiedChar d = true) →
      rest.head?.any isQualifiedChar = false → Word (.token .name) (separator :: c :: s) rest
  | number {c : Char} {s rest : List Char} : c.isDigit = true → (∀ d ∈ s, isNumberChar d = true) →
      rest.head?.any isNumberChar = false → Word (.token .other) (c :: s) rest
  | other {c : Char} {rest : List Char} : Alone c rest → Word (.token .other) [c] rest

/-- How the source is read where a region of this kind starts. -/
def Gap.mode : Gap → Mode
  | .html => .html
  | _ => .code

/-- The text `t` is one piece of the source where `rest` follows. -/
inductive Cuts : Mode → Shape → List Char → List Char → Prop
  | region {k : Gap} {t rest : List Char} : Region k t rest → Cuts k.mode (.gap k) t rest
  | unclosed {k : Gap} {t : List Char} : Unclosed k t → Cuts k.mode (.gap k) t []
  | word {k : Shape} {t rest : List Char} : Word k t rest → Cuts .code k t rest

/-! ### Reading follows the relation -/

section
variable {k : Gap} {m : Mode} {kind : Shape} {c : Char} {t rest : List Char}

theorem IsOpener.label_ne_nil {label opener : List Char} (h : IsOpener label opener) : label ≠ [] := by
  obtain ⟨-, -, -, -, -, -, hstart, -⟩ := h
  rintro rfl
  simp at hstart

theorem shape_of_region (h : Region k (c :: t) rest) : shape k.mode c (t ++ rest) = (.gap k, t.length) := by
  generalize hs : c :: t = s at h
  cases h with
  | @html s tag _ hlacks htag =>
    have heq : c :: (t ++ rest) = s ++ tag ++ rest := by rw [← hs, List.cons_append]
    have hlen : s.length + tag.length = t.length + 1 := by rw [← List.length_append, ← hs, List.length_cons]
    simp only [Gap.mode, shape, heq, htmlLength_append hlacks htag, hlen]
    simp
  | space hall hr =>
    subst hs
    simp only [List.mem_cons, forall_eq_or_imp] at hall
    show codeShape c (t ++ rest) = _
    rw [codeShape_space hall.1, takeWhile_append_of_stop hall.2 hr]
  | @slashes body _ hb hr =>
    cases hs
    have hb : IsLineBody ('/' :: body) := isLineBody_cons_iff.mpr ⟨by decide, by simp, hb⟩
    show codeShape '/' ('/' :: body ++ rest) = _
    rw [codeShape_slash, lineCommentLength_append hb hr]
    simp
  | @hash body _ hh hb hr =>
    cases hs
    have hne : (t ++ rest).head? ≠ some '[' := by
      cases t with
      | nil => rcases hr with rfl | ⟨r, rfl⟩ | ⟨r, rfl⟩ <;> simp
      | cons d t => exact hh
    show codeShape '#' (t ++ rest) = _
    rw [codeShape_hash, if_neg hne, lineCommentLength_append hb hr, Nat.zero_add]
  | @block body _ hb =>
    cases hs
    have heq : '*' :: (body ++ ['*', '/']) ++ rest = '*' :: (body ++ '*' :: '/' :: rest) := by simp
    rw [heq]
    show codeShape '/' ('*' :: (body ++ '*' :: '/' :: rest)) = _
    rw [codeShape_slash]
    simp [blockCommentLength_append hb]
    omega
  | @single body _ hb =>
    cases hs
    have heq : body ++ ['\''] ++ rest = body ++ '\'' :: rest := by simp
    show codeShape '\'' _ = _
    rw [codeShape_single, heq, singleQuotedLength_append hb]
    simp
  | @interpolated quote body _ hq hb =>
    cases hs
    have heq : body ++ [c] ++ rest = body ++ c :: rest := by simp
    show codeShape c _ = _
    rw [codeShape_interpolated hq, heq, interpolatedLength_append hq hb]
    simp
  | @heredoc label opener lines _ ho hc =>
    cases hs
    have heq : '<' :: '<' :: (opener ++ lines ++ label) ++ rest = '<' :: '<' :: (opener ++ (lines ++ label ++ rest)) := by
      simp
    rw [heq]
    show codeShape '<' ('<' :: '<' :: (opener ++ (lines ++ label ++ rest))) = _
    rw [codeShape_less_of_some (heredocOpener?_append ho), List.drop_left, heredocLength_append ho.label_ne_nil hc]
    simp only [List.length_cons, List.length_append, Prod.mk.injEq, true_and]
    omega

theorem shape_of_unclosed (h : Unclosed k (c :: t)) : shape k.mode c t = (.gap k, t.length) := by
  generalize hs : c :: t = s at h
  cases h with
  | html hlacks =>
    subst hs
    simp [Gap.mode, shape, htmlLength_of_lacksOpenTag hlacks]
  | @block body hb =>
    cases hs
    show codeShape '/' ('*' :: body) = _
    rw [codeShape_slash]
    simp [blockCommentLength_of_lacks hb]
    omega
  | single hb =>
    cases hs
    show codeShape '\'' t = _
    rw [codeShape_single, singleQuotedLength_of_unclosed hb]
  | interpolated hq hb =>
    cases hs
    show codeShape c t = _
    rw [codeShape_interpolated hq, interpolatedLength_of_unclosed hb]
  | @heredoc label opener lines ho hc =>
    cases hs
    show codeShape '<' ('<' :: '<' :: (opener ++ lines)) = _
    rw [codeShape_less_of_some (heredocOpener?_append ho), List.drop_left, heredocLength_of_neverCloses hc]
    simp only [List.length_cons, List.length_append, Prod.mk.injEq, true_and]
    omega

/-! ### Words -/

theorem mem_of_isSpace (h : isSpace c = true) : c ∈ [' ', '\t', '\n', '\r', '\x0c'] := by
  simpa [isSpace, or_assoc] using h

theorem not_mem_of_class {p : Char → Bool} {cs : List Char} (hcs : ∀ d ∈ cs, p d = false) (h : p c = true) :
    c ∉ cs := by
  intro hc
  rw [hcs c hc] at h
  cases h

theorem not_sign_of_isNameStart (h : isNameStart c = true) : isSpace c = false ∧ c ∉ signs := by
  constructor
  · have hcs : ∀ d ∈ [' ', '\t', '\n', '\r', '\x0c'], isNameStart d = false := by simp [isNameStart]
    exact Bool.eq_false_iff.mpr fun hs => not_mem_of_class hcs h (mem_of_isSpace hs)
  · exact not_mem_of_class (by simp [signs, backtick, isNameStart]) h

theorem not_sign_of_isDigit (h : c.isDigit = true) : isSpace c = false ∧ c ∉ signs ∧ c ≠ separator := by
  refine ⟨?_, ?_, ?_⟩
  · have hcs : ∀ d ∈ [' ', '\t', '\n', '\r', '\x0c'], d.isDigit = false := by simp
    exact Bool.eq_false_iff.mpr fun hs => not_mem_of_class hcs h (mem_of_isSpace hs)
  · have hcs : ∀ d ∈ signs, d.isDigit = false := by simp [signs, backtick]
    exact not_mem_of_class hcs h
  · rintro rfl
    revert h
    decide

theorem isNameStart_of_isDigit (h : c.isDigit = true) : isNameStart c = false := by
  obtain ⟨-, h9⟩ := Char.isDigit_iff_toNat.mp h
  have h9 : c.toNat ≤ 57 := h9
  have hupper : c.isUpper = false := Bool.eq_false_iff.mpr fun hu => by
    have hu : 'A'.val ≤ c.val ∧ c.val ≤ 'Z'.val := of_decide_eq_true hu
    have : 65 ≤ c.toNat := UInt32.le_iff_toNat_le.mp hu.1
    omega
  have hlower : c.isLower = false := Bool.eq_false_iff.mpr fun hl => by
    have hl : 'a'.val ≤ c.val := of_decide_eq_true ((Bool.and_eq_true _ _).mp hl).1
    have : 97 ≤ c.toNat := UInt32.le_iff_toNat_le.mp hl
    omega
  have halpha : c.isAlpha = false := Bool.or_eq_false_iff.mpr ⟨hupper, hlower⟩
  have hunder : c ≠ '_' := by
    rintro rfl
    exact absurd h9 (by decide)
  simp only [isNameStart, halpha, Bool.or_eq_false_iff, beq_eq_false_iff_ne, decide_eq_false_iff_not, true_and]
  exact ⟨hunder, by omega⟩

theorem isNameChar_of_isNameStart (h : isNameStart c = true) : isNameChar c = true := by
  simp only [isNameStart, isNameChar, Bool.or_eq_true, Char.isAlphanum] at h ⊢
  tauto

theorem Alone.codeShape (h : Alone c rest) : codeShape c rest = (.token .other, 0) := by
  by_cases hc : c ∈ signs
  · have hsign := h.sign
    simp only [signs, List.mem_cons, List.not_mem_nil, or_false, not_or] at hc hsign
    have hc : c = '?' ∨ c = '/' ∨ c = '<' ∨ c = '$' ∨ c = '-' := by tauto
    rcases hc with rfl | rfl | rfl | rfl | rfl
    · simp [codeShape_question, h.question rfl]
    · simp [codeShape_slash, h.slash rfl]
    · exact codeShape_less_alone (h.less rfl)
    · simp [codeShape_dollar, h.named (Or.inl rfl)]
    · simp [codeShape_minus, h.minus rfl]
  · have hname : ¬ (isNameStart c = true ∨ c = separator ∧ rest.head?.any isNameStart = true) := by
      rintro (hn | ⟨hsep, hn⟩)
      · rw [h.name] at hn
        cases hn
      · rw [h.named (Or.inr hsep)] at hn
        cases hn
    rw [codeShape_of_not_sign h.space hc, if_neg hname, if_neg (by simp [h.digit])]

theorem shape_of_word (h : Word kind (c :: t) rest) : codeShape c (t ++ rest) = (kind, t.length) := by
  generalize hs : c :: t = s at h
  cases h with
  | closeTag =>
    cases hs
    simp [codeShape_question]
  | nullsafe =>
    cases hs
    simp [codeShape_question]
  | arrow =>
    cases hs
    simp [codeShape_minus]
  | hash =>
    cases hs
    simp [codeShape_hash]
  | shift hlacks =>
    cases hs
    exact codeShape_less_of_none (heredocOpener?_of_lacks hlacks)
  | @dollar d s _ hd hs' hr =>
    cases hs
    have hrun : ∀ x ∈ d :: s, isNameChar x = true := List.forall_mem_cons.mpr ⟨isNameChar_of_isNameStart hd, hs'⟩
    rw [codeShape_dollar, takeWhile_append_of_stop hrun hr]
    simp [hd]
  | doubleColon =>
    cases hs
    simp [codeShape_colon]
  | colon hr =>
    cases hs
    simpa [codeShape_colon] using hr
  | openBrace =>
    cases hs
    exact codeShape_openBrace
  | closeBrace =>
    cases hs
    exact codeShape_closeBrace
  | semicolon =>
    cases hs
    exact codeShape_semicolon
  | name hc hs' hr =>
    cases hs
    obtain ⟨hspace, hsign⟩ := not_sign_of_isNameStart hc
    rw [codeShape_of_not_sign hspace hsign, if_pos (Or.inl hc), takeWhile_append_of_stop hs' hr]
  | @qualified d s _ hd hs' hr =>
    cases hs
    have hrun : ∀ x ∈ d :: s, isQualifiedChar x = true :=
      List.forall_mem_cons.mpr ⟨by simp [isQualifiedChar, isNameChar_of_isNameStart hd], hs'⟩
    rw [codeShape_of_not_sign (by decide) (by decide), if_pos (Or.inr ⟨rfl, by simpa using hd⟩),
      takeWhile_append_of_stop hrun hr]
  | number hc hs' hr =>
    cases hs
    obtain ⟨hspace, hsign, hsep⟩ := not_sign_of_isDigit hc
    have hname : ¬ (isNameStart c = true ∨ c = separator ∧ (t ++ rest).head?.any isNameStart = true) := by
      simp [isNameStart_of_isDigit hc, hsep]
    rw [codeShape_of_not_sign hspace hsign, if_neg hname, if_pos hc, takeWhile_append_of_stop hs' hr]
  | other ha =>
    cases hs
    exact ha.codeShape

theorem shape_of_cuts (h : Cuts m kind (c :: t) rest) : shape m c (t ++ rest) = (kind, t.length) := by
  cases h with
  | region h => exact shape_of_region h
  | unclosed h =>
    rw [List.append_nil]
    exact shape_of_unclosed h
  | word h => exact shape_of_word h

/-! ### Every text is read -/

/-- Some piece starts with `c` where `r` follows. -/
def Reads (m : Mode) (c : Char) (r : List Char) : Prop := ∃ kind t rest, r = t ++ rest ∧ Cuts m kind (c :: t) rest

theorem Word.reads (h : Word kind (c :: t) rest) : Reads .code c (t ++ rest) := ⟨kind, t, rest, rfl, .word h⟩

theorem Region.reads (h : Region k (c :: t) rest) : Reads k.mode c (t ++ rest) := ⟨.gap k, t, rest, rfl, .region h⟩

theorem Unclosed.reads (h : Unclosed k (c :: t)) : Reads k.mode c t :=
  ⟨.gap k, t, [], (List.append_nil t).symm, .unclosed h⟩

theorem reads_html (c : Char) (r : List Char) : Reads .html c r := by
  rcases exists_openTag_or_lacks (c :: r) with hlacks | ⟨s, tag, rest, heq, hlacks, htag⟩
  · exact (Unclosed.html hlacks).reads
  · obtain ⟨t, ht⟩ : ∃ t, s ++ tag = c :: t := by
      cases hst : s ++ tag with
      | nil => exact absurd (List.append_eq_nil_iff.mp hst).2 htag.ne_nil
      | cons d t =>
        rw [hst] at heq
        exact ⟨t, by rw [(List.cons.inj heq).1]⟩
    rw [ht] at heq
    obtain rfl : r = t ++ rest := (List.cons.inj heq).2
    exact Region.reads (k := .html) (ht ▸ .html hlacks htag)

theorem Alone.of_not_sign (hspace : isSpace c = false) (hname : isNameStart c = false) (hdigit : c.isDigit = false)
    (hc : c ∉ signs) (hsep : c = separator → rest.head?.any isNameStart = false) : Alone c rest := by
  simp only [signs, List.mem_cons, List.not_mem_nil, or_false, not_or] at hc
  obtain ⟨hq, hs, h1, h2, h3, h4, hl, hd, h5, hm, h6, h7, h8⟩ := hc
  exact
    { space := hspace
      name := hname
      digit := hdigit
      sign := by simp [h1, h2, h3, h4, h5, h6, h7, h8]
      question := fun h => absurd h hq
      slash := fun h => absurd h hs
      less := fun h => absurd h hl
      named := fun h => h.elim (fun h => absurd h hd) hsep
      minus := fun h => absurd h hm }

theorem reads_question (r : List Char) : Reads .code '?' r := by
  by_cases hclose : r.head? = some '>'
  · obtain ⟨r, rfl⟩ := List.head?_eq_some_iff.mp hclose
    exact Word.closeTag.reads
  by_cases harrow : ['-', '>'] <+: r
  · obtain ⟨r, rfl⟩ := harrow
    exact Word.nullsafe.reads
  have h : Alone '?' r := by constructor <;> simp [hclose, harrow, isSpace, isNameStart, backtick, separator]
  exact (Word.other h).reads

theorem reads_slash (r : List Char) : Reads .code '/' r := by
  by_cases hline : r.head? = some '/'
  · obtain ⟨r, rfl⟩ := List.head?_eq_some_iff.mp hline
    obtain ⟨body, rest, rfl, hb, hr⟩ := exists_lineBody r
    exact Region.reads (k := .lineComment) (.slashes hb hr)
  by_cases hblock : r.head? = some '*'
  · obtain ⟨r, rfl⟩ := List.head?_eq_some_iff.mp hblock
    rcases exists_blockEnd_or_lacks r with hb | ⟨body, rest, rfl, hb⟩
    · exact Unclosed.reads (k := .blockComment) (.block hb)
    · have hregion : Region .blockComment ('/' :: '*' :: (body ++ ['*', '/'])) rest := .block hb
      simpa [Gap.mode] using hregion.reads
  have h : Alone '/' r := by constructor <;> simp [hline, hblock, isSpace, isNameStart, backtick, separator]
  exact (Word.other h).reads

theorem reads_hash (r : List Char) : Reads .code '#' r := by
  by_cases hattr : r.head? = some '['
  · obtain ⟨r, rfl⟩ := List.head?_eq_some_iff.mp hattr
    exact Word.hash.reads
  obtain ⟨body, rest, rfl, hb, hr⟩ := exists_lineBody r
  refine Region.reads (k := .lineComment) (.hash (fun hhead => hattr ?_) hb hr)
  rw [List.head?_append, hhead, Option.some_or]

theorem reads_less (r : List Char) : Reads .code '<' r := by
  by_cases hless : ['<', '<'] <+: r
  · obtain ⟨r, rfl⟩ := hless
    by_cases hlacks : LacksOpener r
    · exact (Word.shift hlacks).reads
    · obtain ⟨label, opener, ho, tail, rfl⟩ : ∃ label opener, IsOpener label opener ∧ opener <+: r := by
        simpa only [LacksOpener, not_forall, not_not, exists_prop] using hlacks
      rcases exists_closesFirst_or_never label tail with hn | ⟨lines, rest, rfl, hc⟩
      · exact (Unclosed.heredoc ho hn).reads
      · simpa [Gap.mode] using (Region.heredoc ho hc).reads
  have h : Alone '<' r := by constructor <;> simp [hless, isSpace, isNameStart, backtick, separator]
  exact (Word.other h).reads

theorem reads_dollar (r : List Char) : Reads .code '$' r := by
  by_cases hname : r.head?.any isNameStart = true
  · obtain ⟨d, hd, hstart⟩ := (Option.any_eq_true _ _).mp hname
    obtain ⟨r, rfl⟩ := List.head?_eq_some_iff.mp hd
    obtain ⟨run, rest, rfl, hrun, hrest⟩ := exists_run isNameChar r
    exact (Word.dollar hstart hrun hrest).reads
  have h : Alone '$' r := by constructor <;> simp_all [isSpace, isNameStart, backtick, separator]
  exact (Word.other h).reads

theorem reads_colon (r : List Char) : Reads .code ':' r := by
  by_cases hcolon : r.head? = some ':'
  · obtain ⟨r, rfl⟩ := List.head?_eq_some_iff.mp hcolon
    exact Word.doubleColon.reads
  · exact (Word.colon hcolon).reads

theorem reads_minus (r : List Char) : Reads .code '-' r := by
  by_cases harrow : r.head? = some '>'
  · obtain ⟨r, rfl⟩ := List.head?_eq_some_iff.mp harrow
    exact Word.arrow.reads
  have h : Alone '-' r := by constructor <;> simp [harrow, isSpace, isNameStart, backtick, separator]
  exact (Word.other h).reads

theorem reads_quote (hc : c = '"' ∨ c = backtick) (r : List Char) : Reads .code c r := by
  rcases exists_interpolated c r with hopen | ⟨body, rest, rfl, hb⟩
  · exact Unclosed.reads (k := .interpolated) (.interpolated hc hopen)
  · have hregion : Region .interpolated (c :: (body ++ [c])) rest := .interpolated hc hb
    simpa [Gap.mode] using hregion.reads

theorem reads_single (r : List Char) : Reads .code '\'' r := by
  rcases exists_singleQuoted r with hopen | ⟨body, rest, rfl, hb⟩
  · exact Unclosed.reads (k := .singleQuoted) (.single hopen)
  · have hregion : Region .singleQuoted ('\'' :: (body ++ ['\''])) rest := .single hb
    simpa [Gap.mode] using hregion.reads

theorem reads_code (c : Char) (r : List Char) : Reads .code c r := by
  by_cases hspace : isSpace c = true
  · obtain ⟨run, rest, rfl, hrun, hrest⟩ := exists_run isSpace r
    exact Region.reads (k := .space) (.space (List.forall_mem_cons.mpr ⟨hspace, hrun⟩) hrest)
  by_cases hname : isNameStart c = true
  · obtain ⟨run, rest, rfl, hrun, hrest⟩ := exists_run isQualifiedChar r
    exact (Word.name hname hrun hrest).reads
  by_cases hdigit : c.isDigit = true
  · obtain ⟨run, rest, rfl, hrun, hrest⟩ := exists_run isNumberChar r
    exact (Word.number hdigit hrun hrest).reads
  by_cases hsign : c ∈ signs
  · simp only [signs, List.mem_cons, List.not_mem_nil, or_false] at hsign
    rcases hsign with rfl | rfl | rfl | rfl | rfl | rfl | rfl | rfl | rfl | rfl | rfl | rfl | rfl
    · exact reads_question r
    · exact reads_slash r
    · exact reads_hash r
    · exact reads_single r
    · exact reads_quote (Or.inl rfl) r
    · exact reads_quote (Or.inr rfl) r
    · exact reads_less r
    · exact reads_dollar r
    · exact reads_colon r
    · exact reads_minus r
    · exact Word.openBrace.reads
    · exact Word.closeBrace.reads
    · exact Word.semicolon.reads
  by_cases hqual : c = separator ∧ r.head?.any isNameStart = true
  · obtain ⟨rfl, hqual⟩ := hqual
    obtain ⟨d, hd, hstart⟩ := (Option.any_eq_true _ _).mp hqual
    obtain ⟨r, rfl⟩ := List.head?_eq_some_iff.mp hd
    obtain ⟨run, rest, rfl, hrun, hrest⟩ := exists_run isQualifiedChar r
    exact (Word.qualified hstart hrun hrest).reads
  have h : Alone c r := .of_not_sign (by simpa using hspace) (by simpa using hname) (by simpa using hdigit) hsign
    fun hsep => by simpa [hsep] using hqual
  exact (Word.other h).reads

/-- The piece that starts a text is the one that the relation says. -/
theorem exists_cuts (m : Mode) (c : Char) (r : List Char) :
    ∃ kind t rest, r = t ++ rest ∧ Cuts m kind (c :: t) rest ∧ shape m c r = (kind, t.length) := by
  have hreads : Reads m c r := by
    cases m with
    | html => exact reads_html c r
    | code => exact reads_code c r
  obtain ⟨kind, t, rest, rfl, h⟩ := hreads
  exact ⟨kind, t, rest, rfl, h, shape_of_cuts h⟩

end

end TypeFinder.Php

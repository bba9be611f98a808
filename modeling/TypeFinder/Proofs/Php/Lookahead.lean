import TypeFinder.Proofs.Php.Cut

/-! How far a piece looks ahead. The text behind a piece has a say in where the piece ends, and it is little: one
    character, a pair of signs, or the opener of a heredoc. So the text may be changed behind that. -/

namespace TypeFinder.Php

/-! ### Texts that a piece cannot tell apart -/

/-- A piece where `rest` follows is one where `rest'` follows. One quote in front is as good as another. -/
structure Agrees (rest rest' : List Char) : Prop where
  head : rest'.head? = rest.head? ∨ rest.head? = some '"' ∧ rest'.head? = some '\''
  arrow : ['-', '>'] <+: rest' → ['-', '>'] <+: rest
  less : ['<', '<'] <+: rest' → ['<', '<'] <+: rest
  tag : ['?', '>'] <+: rest → ['?', '>'] <+: rest'
  opener : LacksOpener rest → LacksOpener rest'

section
variable {k : Gap} {kind : Shape} {m : Mode} {c : Char} {t rest rest' : List Char}

namespace Agrees

theorem refl (rest : List Char) : Agrees rest rest := ⟨Or.inl rfl, id, id, id, id⟩

/-- What holds of the first character still does, if it does not tell the quotes apart. -/
theorem of_head {P : Option Char → Prop} (h : Agrees rest rest') (hquote : P (some '"') → P (some '\''))
    (hrest : P rest.head?) : P rest'.head? := by
  rcases h.head with heq | ⟨hdouble, hsingle⟩
  · exact heq ▸ hrest
  · exact hsingle ▸ hquote (hdouble ▸ hrest)

theorem eq_nil (h : Agrees [] rest') : rest' = [] :=
  List.head?_eq_none_iff.mp (h.of_head (P := (· = none)) (by decide) rfl)

theorem exists_cons {r : List Char} (h : Agrees (c :: r) rest') (hc : c ≠ '"') : ∃ r', rest' = c :: r' :=
  List.head?_eq_some_iff.mp (h.of_head (P := (· = some c)) (fun heq => absurd (Option.some.inj heq).symm hc) rfl)

theorem endsLine (h : Agrees rest rest') (hr : EndsLine rest) : EndsLine rest' := by
  rcases hr with rfl | ⟨r, rfl⟩ | ⟨r, rfl⟩
  · exact Or.inl h.eq_nil
  · obtain ⟨r', rfl⟩ := h.exists_cons (by decide)
    exact Or.inr (Or.inl ⟨r', rfl⟩)
  · obtain ⟨r', rfl⟩ := h.tag ⟨r, rfl⟩
    exact Or.inr (Or.inr ⟨r', rfl⟩)

theorem closesFirst {label s : List Char} (h : Agrees rest rest') (hc : ClosesFirst label s rest) :
    ClosesFirst label s rest' := by
  obtain ⟨⟨hmargin, hrest⟩, hfirst⟩ := hc
  refine ⟨⟨hmargin, h.of_head (P := (·.any isNameChar = false)) (by decide) hrest⟩, fun s' x heq hlt hcloses => ?_⟩
  -- An earlier label ends before the one that closes, so nothing of it reaches into the text behind.
  have hlen : (s' ++ label).length < (s ++ label).length := by
    simp only [List.length_append]
    omega
  rcases List.append_eq_append_iff.mp heq with ⟨d, hd, rfl⟩ | ⟨d, hd, -⟩
  · have hne : d ≠ [] := by
      rintro rfl
      rw [hd, List.append_nil] at hlen
      exact Nat.lt_irrefl _ hlen
    refine hfirst s' (d ++ rest) (by rw [hd, List.append_assoc (s' ++ label)]) hlt ⟨hcloses.1, ?_⟩
    have := hcloses.2
    rwa [List.head?_append_of_ne_nil _ hne] at this ⊢
  · rw [hd, List.length_append] at hlen
    omega

theorem region (h : Agrees rest rest') (hr : Region k t rest) : Region k t rest' := by
  cases hr with
  | html hlacks htag => exact .html hlacks htag
  | space hall hhead => exact .space hall (h.of_head (P := (·.any isSpace = false)) (by decide) hhead)
  | slashes hb hends => exact .slashes hb (h.endsLine hends)
  | hash hh hb hends => exact .hash hh hb (h.endsLine hends)
  | block hb => exact .block hb
  | single hb => exact .single hb
  | interpolated hq hb => exact .interpolated hq hb
  | heredoc ho hc => exact .heredoc ho (h.closesFirst hc)

theorem alone (h : Agrees rest rest') (ha : Alone c rest) : Alone c rest' where
  space := ha.space
  name := ha.name
  digit := ha.digit
  sign := ha.sign
  question hc :=
    ⟨h.of_head (P := (· ≠ some '>')) (by decide) (ha.question hc).1, mt h.arrow (ha.question hc).2⟩
  slash hc := h.of_head (P := fun d => d ≠ some '/' ∧ d ≠ some '*') (by decide) (ha.slash hc)
  less hc := mt h.less (ha.less hc)
  named hc := h.of_head (P := (·.any isNameStart = false)) (by decide) (ha.named hc)
  minus hc := h.of_head (P := (· ≠ some '>')) (by decide) (ha.minus hc)

theorem word (h : Agrees rest rest') (hw : Word kind t rest) : Word kind t rest' := by
  cases hw with
  | hash =>
    obtain ⟨r, rfl⟩ := h.exists_cons (by decide)
    exact .hash
  | shift hlacks => exact .shift (h.opener hlacks)
  | dollar hc hs hhead => exact .dollar hc hs (h.of_head (P := (·.any isNameChar = false)) (by decide) hhead)
  | colon hhead => exact .colon (h.of_head (P := (· ≠ some ':')) (by decide) hhead)
  | name hc hs hhead => exact .name hc hs (h.of_head (P := (·.any isQualifiedChar = false)) (by decide) hhead)
  | qualified hc hs hhead => exact .qualified hc hs (h.of_head (P := (·.any isQualifiedChar = false)) (by decide) hhead)
  | number hc hs hhead => exact .number hc hs (h.of_head (P := (·.any isNumberChar = false)) (by decide) hhead)
  | other ha => exact .other (h.alone ha)
  | _ => constructor

theorem cuts (h : Agrees rest rest') (hc : Cuts m kind t rest) : Cuts m kind t rest' := by
  cases hc with
  | region hr => exact .region (h.region hr)
  | unclosed hu =>
    rw [h.eq_nil]
    exact .unclosed hu
  | word hw => exact .word (h.word hw)

end Agrees

/-- What is neither a blank nor in a name, a quote or the end of a line is in no opener. -/
theorem IsOpener.not_mem {label opener : List Char} {c : Char} (h : IsOpener label opener) (hblank : isBlank c = false)
    (hname : isNameChar c = false) (hsign : c ∉ ['"', '\'', '\r', '\n']) : c ∉ opener := by
  obtain ⟨blanks, quote, eol, rfl, hblanks, hquote, -, hlabel, heol⟩ := h
  simp only [List.mem_cons, List.not_mem_nil, or_false, not_or] at hsign
  have hq : c ∉ quote := by rcases hquote with rfl | rfl | rfl <;> simp [hsign]
  simp only [List.mem_append, not_or]
  refine ⟨⟨⟨⟨fun hmem => ?_, hq⟩, fun hmem => ?_⟩, hq⟩, by rcases heol with rfl | rfl <;> simp [hsign]⟩
  · rw [hblanks c hmem] at hblank
    cases hblank
  · rw [hlabel c hmem] at hname
    cases hname

/-- Texts up to a mark agree, whatever is put behind it, where no opener of a heredoc holds the mark. -/
theorem agrees_mark {mark : List Char} (hmark : ∀ label opener, IsOpener label opener → ∃ d ∈ mark, d ∉ opener)
    (hlen : 2 ≤ mark.length) (x v w : List Char) : Agrees (x ++ mark ++ v) (x ++ mark ++ w) := by
  have hlen' : 2 ≤ (x ++ mark).length := by
    rw [List.length_append]
    omega
  have hne : x ++ mark ≠ [] := List.ne_nil_of_length_pos (by omega)
  have hpair {a b : Char} {v w : List Char} (h : [a, b] <+: x ++ mark ++ v) : [a, b] <+: x ++ mark ++ w :=
    (List.prefix_of_prefix_length_le h (List.prefix_append _ v) hlen').trans (List.prefix_append _ w)
  refine
    { head := Or.inl (by rw [List.head?_append_of_ne_nil _ hne, List.head?_append_of_ne_nil _ hne])
      arrow := hpair
      less := hpair
      tag := hpair
      opener := fun h label opener ho hpre => ?_ }
  rcases List.prefix_or_prefix_of_prefix hpre (List.prefix_append _ w) with hpre | hpre
  · exact h label opener ho (hpre.trans (List.prefix_append _ v))
  · obtain ⟨d, hd, hnot⟩ := hmark label opener ho
    exact hnot (hpre.mem (List.mem_append_right x hd))

/-! ### A blank or a literal in place of what follows -/

theorem IsOpener.isBlank_of_blank {label x y : List Char} (h : IsOpener label (x ++ ' ' :: y)) :
    ∀ c ∈ x, isBlank c = true := by
  obtain ⟨blanks, quote, eol, heq, hblanks, hquote, -, hlabel, heol⟩ := h
  have hspace : ' ' ∉ quote ++ label ++ quote ++ eol := by
    have hl : ' ' ∉ label := fun hmem => by
      have := hlabel _ hmem
      revert this
      decide
    simp only [List.mem_append, not_or]
    refine ⟨⟨⟨?_, hl⟩, ?_⟩, ?_⟩
    · rcases hquote with rfl | rfl | rfl <;> decide
    · rcases hquote with rfl | rfl | rfl <;> decide
    · rcases heol with rfl | rfl <;> decide
  simp only [List.append_assoc] at heq hspace
  rcases List.append_eq_append_iff.mp heq with ⟨d, rfl, -⟩ | ⟨d, rfl, hd⟩
  · exact fun c hc => hblanks c (List.mem_append_left _ hc)
  · exact absurd (hd ▸ List.mem_append_right d List.mem_cons_self) hspace

/-- Two characters at the start of a text stay when the text changes from the character `q` on, which they do not
    reach up to. -/
theorem pair_prefix_of_ne {a b q : Char} {x v r : List Char} (ha : x ≠ [] ∨ a ≠ q) (hb : b ≠ q)
    (h : [a, b] <+: x ++ q :: r) : [a, b] <+: x ++ v := by
  match x with
  | [] =>
    obtain ⟨rfl, -⟩ := List.cons_prefix_cons.mp h
    exact absurd rfl (ha.resolve_left (· rfl))
  | [d] =>
    simp only [List.singleton_append, List.cons_prefix_cons] at h
    exact absurd h.2.1 hb
  | d :: e :: x =>
    simp only [List.cons_append, List.cons_prefix_cons] at h ⊢
    exact ⟨h.1, h.2.1, List.nil_prefix⟩

/-- A text that does not end in a blank agrees with itself, whatever is put behind it in place of a blank. -/
theorem agrees_blank {x v r : List Char} (hx : x ≠ []) (hlast : isBlank (x.getLast hx) = false)
    (htag : x = ['?'] → v.head? ≠ some '>') : Agrees (x ++ v) (x ++ ' ' :: r) where
  head := Or.inl (by rw [List.head?_append_of_ne_nil _ hx, List.head?_append_of_ne_nil _ hx])
  arrow := pair_prefix_of_ne (Or.inl hx) (by decide)
  less := pair_prefix_of_ne (Or.inl hx) (by decide)
  tag h := by
    match x, hx with
    | [d], _ =>
      simp only [List.singleton_append, List.cons_prefix_cons] at h
      obtain ⟨rfl, r', hr'⟩ := h
      exact absurd (by rw [← hr']; rfl) (htag rfl)
    | d :: e :: x, _ =>
      simp only [List.cons_append, List.cons_prefix_cons] at h ⊢
      exact ⟨h.1, h.2.1, List.nil_prefix⟩
  opener h label opener ho hpre := by
    rcases List.prefix_or_prefix_of_prefix hpre (List.prefix_append x _) with hpre | ⟨y, rfl⟩
    · exact h label opener ho (hpre.trans (List.prefix_append x v))
    · cases y with
      | nil => exact h label _ ho (by simp)
      | cons d y =>
        obtain ⟨rfl, -⟩ := List.cons_prefix_cons.mp ((List.prefix_append_right_inj x).mp hpre)
        rw [ho.isBlank_of_blank _ (List.getLast_mem hx)] at hlast
        cases hlast

/-- An opener has no two quotes next to each other, for there is a label between them. -/
theorem not_isOpener_of_quotes {label x y : List Char} : ¬ IsOpener label (x ++ '\'' :: '\'' :: y) := by
  rintro ⟨blanks, quote, eol, heq, hblanks, hquote, hstart, hlabel, heol⟩
  have hb : '\'' ∉ blanks := fun hmem => absurd (hblanks _ hmem) (by decide)
  have hl : '\'' ∉ label := fun hmem => absurd (hlabel _ hmem) (by decide)
  have he : '\'' ∉ eol := by rcases heol with rfl | rfl <;> decide
  have hcount := congrArg (List.count '\'') heq
  simp only [List.count_append, List.count_cons_self, List.count_eq_zero.mpr hb, List.count_eq_zero.mpr hl,
    List.count_eq_zero.mpr he] at hcount
  have hx : '\'' ∉ x := by
    rw [← List.count_eq_zero]
    rcases hquote with rfl | rfl | rfl
    · simp at hcount
    · simp at hcount
    · simp at hcount
      omega
  obtain rfl : quote = ['\''] := by rcases hquote with rfl | rfl | rfl <;> simp_all
  have hfirst : label ++ ['\''] ++ eol = '\'' :: y := by
    have heq : x ++ '\'' :: ('\'' :: y) = blanks ++ '\'' :: (label ++ ['\''] ++ eol) := by simpa using heq
    rcases List.append_eq_append_iff.mp heq with ⟨d, rfl, hd⟩ | ⟨d, rfl, hd⟩
    · cases d with
      | nil => exact (List.cons.inj hd).2.symm
      | cons c d => exact absurd ((List.cons.inj hd).1 ▸ by simp) hb
    · cases d with
      | nil => exact (List.cons.inj hd).2
      | cons c d => exact absurd ((List.cons.inj hd).1 ▸ by simp) hx
  cases label with
  | nil => cases hstart
  | cons c label => exact hl ((List.cons.inj hfirst).1 ▸ List.mem_cons_self)

/-- An empty literal in place of one between double quotes: no text in front can tell. -/
theorem agrees_empty_literal (x v w : List Char) : Agrees (x ++ '"' :: v) (x ++ '\'' :: '\'' :: w) where
  head := by
    cases x with
    | nil => exact Or.inr ⟨rfl, rfl⟩
    | cons c x => exact Or.inl rfl
  arrow := pair_prefix_of_ne (Or.inr (by decide)) (by decide)
  less := pair_prefix_of_ne (Or.inr (by decide)) (by decide)
  tag := pair_prefix_of_ne (Or.inr (by decide)) (by decide)
  opener h label opener ho hpre := by
    rcases List.prefix_or_prefix_of_prefix hpre (List.prefix_append x _) with hpre | ⟨y, rfl⟩
    · exact h label opener ho (hpre.trans (List.prefix_append x _))
    · match y, (List.prefix_append_right_inj x).mp hpre with
      | [], _ => exact h label _ ho (by simp)
      | [c], hy =>
        obtain ⟨rfl, -⟩ := List.cons_prefix_cons.mp hy
        obtain ⟨blanks, quote, eol, heq, -, -, -, -, heol⟩ := ho
        have hlast := congrArg List.getLast? heq
        rcases heol with rfl | rfl <;> simp at hlast
      | c :: e :: y, hy =>
        obtain ⟨rfl, hy'⟩ := List.cons_prefix_cons.mp hy
        obtain ⟨rfl, -⟩ := List.cons_prefix_cons.mp hy'
        exact not_isOpener_of_quotes ho

/-- A token is the same where a blank takes the place of what follows it. The hash and the three signs of a heredoc
    are tokens only because of what follows. -/
theorem Word.blank {r : List Char} (h : Word kind t rest) (hhash : t ≠ ['#']) (hlacks : LacksOpener (' ' :: r)) :
    Word kind t (' ' :: r) := by
  cases h with
  | hash => exact absurd rfl hhash
  | shift => exact .shift hlacks
  | dollar hc hs => exact .dollar hc hs rfl
  | colon => exact .colon (by simp)
  | name hc hs => exact .name hc hs rfl
  | qualified hc hs => exact .qualified hc hs rfl
  | number hc hs => exact .number hc hs rfl
  | other ha =>
    exact .other
      { space := ha.space
        name := ha.name
        digit := ha.digit
        sign := ha.sign
        question := fun _ => by simp
        slash := fun _ => by simp
        less := fun _ => by simp
        named := fun _ => rfl
        minus := fun _ => by simp }
  | _ => constructor

theorem isBlank_of_class {p : Char → Bool} (hspace : p ' ' = false) (htab : p '\t' = false) (hc : p c = true) :
    isBlank c = false := by
  by_contra hb
  have hb : c = ' ' ∨ c = '\t' := by simpa [isBlank, or_iff_not_imp_left] using hb
  rcases hb with rfl | rfl <;> simp_all

theorem Word.isBlank_eq_false (h : Word kind t rest) : ∀ c ∈ t, isBlank c = false := by
  have hstart {d : Char} : isNameStart d = true → isBlank d = false := isBlank_of_class (by decide) (by decide)
  have hqual {d : Char} : isQualifiedChar d = true → isBlank d = false := isBlank_of_class (by decide) (by decide)
  cases h with
  | dollar hc hs =>
    have hname {d : Char} : isNameChar d = true → isBlank d = false := isBlank_of_class (by decide) (by decide)
    simp only [List.forall_mem_cons]
    exact ⟨by decide, hstart hc, fun d hd => hname (hs d hd)⟩
  | name hc hs =>
    simp only [List.forall_mem_cons]
    exact ⟨hstart hc, fun d hd => hqual (hs d hd)⟩
  | qualified hc hs =>
    simp only [List.forall_mem_cons]
    exact ⟨by decide, hstart hc, fun d hd => hqual (hs d hd)⟩
  | number hc hs =>
    simp only [List.forall_mem_cons]
    exact ⟨isBlank_of_class (by decide) (by decide) hc,
      fun d hd => isBlank_of_class (by decide) (by decide) (hs d hd)⟩
  | @other c _ ha =>
    intro d hd
    obtain rfl := List.mem_singleton.mp hd
    have := ha.space
    simp only [isSpace, Bool.or_eq_false_iff] at this
    simp [isBlank, this]
  | _ => simp [isBlank]

end

end TypeFinder.Php

import TypeFinder.Proofs.Php.Insertion
import TypeFinder.Proofs.Php.Spelling

/-! How a text is cut is a matter of its keys. What marks off a piece is ASCII, and where a piece of the keys ends,
    the characters that spell them end one too. The one exception are heredocs, whose label is compared with another
    text letter by letter: a text without `<<<` has none. -/

namespace TypeFinder.Php

section
variable {σ : Type} {key : σ → Char} {spell : σ → List Char} {quote c : Char} {s u : List Char} {w x y : List σ}

/-! ### Open tags and comments -/

theorem isOpenTag_iff {tag : List Char} :
    IsOpenTag tag ↔ tag = ['<', '?', '='] ∨ tag.map Char.toLower = ['<', '?', 'p', 'h', 'p'] := by
  refine or_congr_right ⟨?_, fun h => ?_⟩
  · rintro ⟨word, rfl, hword⟩
    rw [List.map_cons, List.map_cons, hword]
    rfl
  · obtain ⟨a, tag, rfl, ha, h⟩ := List.map_eq_cons_iff.mp h
    obtain ⟨b, word, rfl, hb, hword⟩ := List.map_eq_cons_iff.mp h
    have hless : Fixed '<' := by decide
    have hquestion : Fixed '?' := by decide
    exact ⟨word, by rw [hless.toLower_eq_iff.mp ha, hquestion.toLower_eq_iff.mp hb], hword⟩

namespace IsSpelling

theorem isOpenTag_iff (h : IsSpelling key spell) : IsOpenTag (w.flatMap spell) ↔ IsOpenTag (w.map key) := by
  rw [Php.isOpenTag_iff, Php.isOpenTag_iff, h.eq_iff (by simp [Fixed, IsAscii]),
    h.map_toLower_eq_iff (by simp [IsAscii])]

theorem lacksOpenTag (h : IsSpelling key spell) (hw : LacksOpenTag (w.map key)) : LacksOpenTag (w.flatMap spell) := by
  intro tag htag hin
  obtain ⟨x, hx, rfl⟩ := h.exists_infix htag.isAscii htag.ne_nil hin
  exact hw _ (h.isOpenTag_iff.mp htag) (hx.map key)

theorem isLineBody_iff (h : IsSpelling key spell) : IsLineBody (w.flatMap spell) ↔ IsLineBody (w.map key) := by
  rw [IsLineBody, IsLineBody, h.mem_iff (by decide), h.infix_iff (by simp [Fixed, IsAscii]) (List.cons_ne_nil _ _)]

end IsSpelling

theorem endsLine_iff : EndsLine s ↔ s = [] ∨ ['\n'] <+: s ∨ ['?', '>'] <+: s := by
  simp only [EndsLine, List.IsPrefix, List.cons_append, List.nil_append, eq_comm]

theorem IsSpelling.endsLine_iff (h : IsSpelling key spell) : EndsLine (w.flatMap spell) ↔ EndsLine (w.map key) := by
  rw [Php.endsLine_iff, Php.endsLine_iff, h.eq_nil_iff, List.map_eq_nil_iff,
    h.prefix_iff (by simp [Fixed, IsAscii]), h.prefix_iff (by simp [Fixed, IsAscii])]

/-! ### Quoted literals -/

/-- Characters beyond ASCII go along with what they stand before. -/
theorem SingleQuoted.behind (hu : ∀ c ∈ u, ¬ IsAscii c) (hs : SingleQuoted s) : SingleQuoted (u ++ s) := by
  induction u with
  | nil => exact hs
  | cons c u ih =>
    obtain ⟨hc, hu⟩ := List.forall_mem_cons.mp hu
    exact .plain (ne_of_not_isAscii hc (by decide)) (ne_of_not_isAscii hc (by decide)) (ih hu)

theorem Interpolated.behind (hquote : IsAscii quote) (hu : ∀ c ∈ u, ¬ IsAscii c) (hs : Interpolated quote s) :
    Interpolated quote (u ++ s) := by
  induction u with
  | nil => exact hs
  | cons c u ih =>
    obtain ⟨hc, hu⟩ := List.forall_mem_cons.mp hu
    have hbrace : c ≠ '{' := ne_of_not_isAscii hc (by decide)
    exact .plain (ne_of_not_isAscii hc (by decide)) (ne_of_not_isAscii hc hquote) (fun h => hbrace h.1) (ih hu)

theorem Balanced.behind (hu : ∀ c ∈ u, ¬ IsAscii c) (hs : Balanced s) : Balanced (u ++ s) := by
  induction u with
  | nil => exact hs
  | cons c u ih =>
    obtain ⟨hc, hu⟩ := List.forall_mem_cons.mp hu
    exact .plain (ne_of_not_isAscii hc (by decide)) (ne_of_not_isAscii hc (by decide)) (ih hu)

namespace IsSpelling

/-- The sign of a fixed key is spelled by that key. -/
theorem eq_of_key (h : IsSpelling key spell) {a : σ} (ha : key a = c) (hc : Fixed c) : spell a = [c] :=
  (ha ▸ h a : Spells c (spell a)).eq_of_fixed hc

theorem key_of_eq (h : IsSpelling key spell) {a : σ} (ha : spell a = [c]) (hc : Fixed c) : key a = c :=
  ((h a).eq_iff hc (ha ▸ List.mem_singleton_self c)).mp rfl

theorem singleQuoted (h : IsSpelling key spell) (hw : SingleQuoted (w.map key)) : SingleQuoted (w.flatMap spell) := by
  generalize hs : w.map key = s at hw
  induction hw generalizing w with
  | nil =>
    rw [List.map_eq_nil_iff.mp hs]
    exact .nil
  | escape _ ih =>
    obtain ⟨a, w, rfl, ha, hs⟩ := List.map_eq_cons_iff.mp hs
    obtain ⟨b, w, rfl, -, hs⟩ := List.map_eq_cons_iff.mp hs
    -- The backslash takes the first character of a sign along, and the others follow as plain ones.
    obtain ⟨c, u, hb, hu⟩ := (h b).exists_cons
    rw [List.flatMap_cons, List.flatMap_cons, h.eq_of_key ha (by decide), hb]
    exact .escape ((ih hs).behind hu)
  | plain hne hquote _ ih =>
    obtain ⟨a, w, rfl, rfl, hw⟩ := List.map_eq_cons_iff.mp hs
    obtain ⟨c, v, ha, hv⟩ := (h a).exists_cons
    have hc : c ∈ spell a := ha ▸ List.mem_cons_self
    rw [List.flatMap_cons, ha]
    exact .plain (mt ((h a).eq_iff (by decide) hc).mp hne) (mt ((h a).eq_iff (by decide) hc).mp hquote)
      ((ih hw).behind hv)

theorem unclosedSingle (h : IsSpelling key spell) (hw : UnclosedSingle (w.map key)) :
    UnclosedSingle (w.flatMap spell) := by
  rcases hw with hw | ⟨body, hw, hbody⟩
  · exact Or.inl (h.singleQuoted hw)
  · obtain ⟨x, y, rfl, rfl, hy⟩ := List.map_eq_append_iff.mp hw
    rw [List.flatMap_append, (h.eq_iff (by simp [Fixed, IsAscii])).mpr hy]
    exact Or.inr ⟨_, rfl, h.singleQuoted hbody⟩

theorem balanced (h : IsSpelling key spell) (hw : Balanced (w.map key)) : Balanced (w.flatMap spell) := by
  generalize hs : w.map key = s at hw
  induction hw generalizing w with
  | nil =>
    rw [List.map_eq_nil_iff.mp hs]
    exact .nil
  | plain hopen hclose _ ih =>
    obtain ⟨a, w, rfl, rfl, hw⟩ := List.map_eq_cons_iff.mp hs
    obtain ⟨c, v, ha, hv⟩ := (h a).exists_cons
    have hc : c ∈ spell a := ha ▸ List.mem_cons_self
    rw [List.flatMap_cons, ha]
    exact .plain (mt ((h a).eq_iff (by decide) hc).mp hopen) (mt ((h a).eq_iff (by decide) hc).mp hclose)
      ((ih hw).behind hv)
  | braces _ _ ihs iht =>
    obtain ⟨x, y, rfl, hx, hy⟩ := List.map_eq_append_iff.mp hs
    obtain ⟨a, x, rfl, ha, hx⟩ := List.map_eq_cons_iff.mp hx
    obtain ⟨b, y, rfl, hb, hy⟩ := List.map_eq_cons_iff.mp hy
    rw [List.flatMap_append, List.flatMap_cons, List.flatMap_cons, h.eq_of_key ha (by decide),
      h.eq_of_key hb (by decide)]
    exact (ihs hx).braces (iht hy)

/-- Braces that balance in a spelling do so in the keys, also where the spelling starts within a sign. -/
theorem balanced_keys (h : IsSpelling key spell) (hu : ∀ c ∈ u, ¬ IsAscii c) (hs : Balanced (u ++ w.flatMap spell)) :
    Balanced (w.map key) := by
  generalize hs' : u ++ w.flatMap spell = s at hs
  induction hs generalizing u w with
  | nil =>
    rw [h.eq_nil_iff.mp (List.append_eq_nil_iff.mp hs').2]
    exact .nil
  | @plain c s hopen hclose _ ih =>
    cases u with
    | cons d u =>
      exact ih (List.forall_mem_cons.mp hu).2 (List.cons.inj hs').2
    | nil =>
      cases w with
      | nil => cases hs'
      | cons a w =>
        obtain ⟨d, v, ha, hv⟩ := (h a).exists_cons
        rw [List.nil_append, List.flatMap_cons, ha] at hs'
        obtain ⟨rfl, hw⟩ := List.cons.inj hs'
        have hd : d ∈ spell a := ha ▸ List.mem_cons_self
        exact .plain (mt ((h a).eq_iff (by decide) hd).mpr hopen) (mt ((h a).eq_iff (by decide) hd).mpr hclose)
          (ih hv hw)
  | @braces s t _ _ ihs iht =>
    cases u with
    | cons d u =>
      obtain ⟨rfl, -⟩ := List.cons.inj hs'
      exact absurd (by decide) (hu _ List.mem_cons_self)
    | nil =>
      obtain ⟨x, a, y, rfl, hx, ha, hy⟩ := h.split (u := []) (c := '{') (r := s ++ '}' :: t) (by decide) hs'
      obtain rfl := h.eq_nil_iff.mp hx
      obtain ⟨x, b, y, rfl, hx, hb, hy⟩ := h.split (by decide) hy
      rw [List.nil_append, List.map_cons, List.map_append, List.map_cons, h.key_of_eq ha (by decide),
        h.key_of_eq hb (by decide)]
      exact (ihs (u := []) (by simp) hx).braces (iht (u := []) (by simp) hy)

theorem staysOpen (h : IsSpelling key spell) (hw : StaysOpen (w.map key)) : StaysOpen (w.flatMap spell) := by
  intro e t heq he
  obtain ⟨x, b, y, rfl, rfl, hb, -⟩ := h.split (by decide) heq
  refine hw (x.map key) (y.map key) ?_ (h.balanced_keys (u := []) (by simp) he)
  rw [List.map_append, List.map_cons, h.key_of_eq hb (by decide)]

theorem interpolated (h : IsSpelling key spell) (hquote : Fixed quote) (hw : Interpolated quote (w.map key)) :
    Interpolated quote (w.flatMap spell) := by
  generalize hs : w.map key = s at hw
  induction hw generalizing w with
  | nil =>
    rw [List.map_eq_nil_iff.mp hs]
    exact .nil
  | escape _ ih =>
    obtain ⟨a, w, rfl, ha, hs⟩ := List.map_eq_cons_iff.mp hs
    obtain ⟨b, w, rfl, -, hs⟩ := List.map_eq_cons_iff.mp hs
    obtain ⟨c, u, hb, hu⟩ := (h b).exists_cons
    rw [List.flatMap_cons, List.flatMap_cons, h.eq_of_key ha (by decide), hb]
    exact .escape ((ih hs).behind hquote.1 hu)
  | @expression e s he _ ih =>
    obtain ⟨x, y, rfl, hx, hy⟩ := List.map_eq_append_iff.mp hs
    obtain ⟨a, x, rfl, ha, hx⟩ := List.map_eq_cons_iff.mp hx
    obtain ⟨b, y, rfl, hb, hy⟩ := List.map_eq_cons_iff.mp hy
    have hbal : Balanced (x.flatMap spell) := h.balanced (hx ▸ he)
    obtain ⟨d, x, rfl, hd, -⟩ := List.map_eq_cons_iff.mp hx
    rw [List.flatMap_append, List.flatMap_cons, List.flatMap_cons, List.flatMap_cons, h.eq_of_key ha (by decide),
      h.eq_of_key hb (by decide), h.eq_of_key hd (by decide)]
    rw [List.flatMap_cons, h.eq_of_key hd (by decide)] at hbal
    exact .expression hbal (ih hy)
  | plain hne hne' hbrace _ ih =>
    obtain ⟨a, w, rfl, rfl, hw⟩ := List.map_eq_cons_iff.mp hs
    obtain ⟨c, v, ha, hv⟩ := (h a).exists_cons
    have hc : c ∈ spell a := ha ▸ List.mem_cons_self
    rw [List.flatMap_cons, ha]
    refine .plain (mt ((h a).eq_iff (by decide) hc).mp hne) (mt ((h a).eq_iff hquote hc).mp hne') ?_
      ((ih hw).behind hquote.1 hv)
    rintro ⟨rfl, hhead⟩
    -- A brace is the whole sign, so the dollar behind it is the next one.
    have hkey : key a = '{' := ((h a).eq_iff (by decide) hc).mp rfl
    obtain rfl : v = [] := (List.cons.inj (ha.symm.trans (h.eq_of_key hkey (by decide)))).2
    exact hbrace ⟨hkey, hw ▸ (h.head?_eq_some_iff (by decide)).mp hhead⟩

theorem unclosedInterpolated (h : IsSpelling key spell) (hquote : Fixed quote)
    (hw : UnclosedInterpolated quote (w.map key)) : UnclosedInterpolated quote (w.flatMap spell) := by
  obtain ⟨body, tail, hw, hbody, htail⟩ := hw
  obtain ⟨x, y, rfl, rfl, rfl⟩ := List.map_eq_append_iff.mp hw
  refine ⟨x.flatMap spell, y.flatMap spell, List.flatMap_append, h.interpolated hquote hbody, ?_⟩
  refine htail.imp (fun hy => h.eq_nil_iff.mpr (List.map_eq_nil_iff.mp hy)) (Or.imp ?_ ?_)
  · exact (h.eq_iff (by simp [Fixed, IsAscii])).mpr
  rintro ⟨e, hy, he⟩
  obtain ⟨a, y, rfl, ha, hy⟩ := List.map_eq_cons_iff.mp hy
  have hopen : StaysOpen (y.flatMap spell) := h.staysOpen (hy ▸ he)
  obtain ⟨b, y, rfl, hb, -⟩ := List.map_eq_cons_iff.mp hy
  rw [List.flatMap_cons, List.flatMap_cons, h.eq_of_key ha (by decide), h.eq_of_key hb (by decide)]
  rw [List.flatMap_cons, h.eq_of_key hb (by decide)] at hopen
  exact ⟨_, rfl, hopen⟩

end IsSpelling

/-! ### Regions -/

theorem fixed_quote (hquote : quote = '"' ∨ quote = backtick) : Fixed quote := by
  rcases hquote with rfl | rfl <;> decide

/-- A character that no name starts with is written in one way. -/
theorem fixed_of_isNameStart (hc : isNameStart c = false) : Fixed c := by
  constructor
  · by_contra hascii
    rw [isNameStart_of_not_isAscii hascii] at hc
    cases hc
  · by_contra halpha
    rw [isNameStart_of_isAlpha (Bool.eq_true_of_not_eq_false halpha)] at hc
    cases hc

namespace IsSpelling

theorem any_head?_eq_false (h : IsSpelling key spell) {p : Char → Bool} (hp : Steady p)
    (hw : (w.map key).head?.any p = false) : (w.flatMap spell).head?.any p = false := (h.any_head? hp).trans hw

theorem region (h : IsSpelling key spell) {k : Gap} (hw : Region k (x.map key) (y.map key))
    (hshift : ¬ ['<', '<', '<'] <:+: x.map key) : Region k (x.flatMap spell) (y.flatMap spell) := by
  generalize hs : x.map key = s at hw
  generalize hr : y.map key = r at hw
  cases hw with
  | html hlacks htag =>
    obtain ⟨x, z, rfl, rfl, rfl⟩ := List.map_eq_append_iff.mp hs
    rw [List.flatMap_append]
    exact .html (h.lacksOpenTag hlacks) (h.isOpenTag_iff.mpr htag)
  | space hall hstop =>
    subst hs hr
    exact .space ((h.steady steady_isSpace).mpr hall) (h.any_head?_eq_false steady_isSpace hstop)
  | slashes hbody hend =>
    subst hr
    obtain ⟨a, x, rfl, ha, hs⟩ := List.map_eq_cons_iff.mp hs
    obtain ⟨b, x, rfl, hb, rfl⟩ := List.map_eq_cons_iff.mp hs
    rw [List.flatMap_cons, List.flatMap_cons, h.eq_of_key ha (by decide), h.eq_of_key hb (by decide)]
    exact .slashes (h.isLineBody_iff.mpr hbody) (h.endsLine_iff.mpr hend)
  | hash hne hbody hend =>
    subst hr
    obtain ⟨a, x, rfl, ha, rfl⟩ := List.map_eq_cons_iff.mp hs
    rw [List.flatMap_cons, h.eq_of_key ha (by decide)]
    exact .hash (mt (h.head?_eq_some_iff (by decide)).mp hne) (h.isLineBody_iff.mpr hbody) (h.endsLine_iff.mpr hend)
  | block hbody =>
    obtain ⟨a, x, rfl, ha, hs⟩ := List.map_eq_cons_iff.mp hs
    obtain ⟨b, x, rfl, hb, hs⟩ := List.map_eq_cons_iff.mp hs
    obtain ⟨x, z, rfl, rfl, hz⟩ := List.map_eq_append_iff.mp hs
    rw [List.flatMap_cons, List.flatMap_cons, List.flatMap_append, h.eq_of_key ha (by decide),
      h.eq_of_key hb (by decide), (h.eq_iff (by simp [Fixed, IsAscii])).mpr hz]
    exact .block (mt (h.infix_iff (by simp [Fixed, IsAscii]) (List.cons_ne_nil _ _)).mp hbody)
  | single hbody =>
    obtain ⟨a, x, rfl, ha, hs⟩ := List.map_eq_cons_iff.mp hs
    obtain ⟨x, z, rfl, rfl, hz⟩ := List.map_eq_append_iff.mp hs
    rw [List.flatMap_cons, List.flatMap_append, h.eq_of_key ha (by decide),
      (h.eq_iff (by simp [Fixed, IsAscii])).mpr hz]
    exact .single (h.singleQuoted hbody)
  | interpolated hquote hbody =>
    have hfixed := fixed_quote hquote
    obtain ⟨a, x, rfl, ha, hs⟩ := List.map_eq_cons_iff.mp hs
    obtain ⟨x, z, rfl, rfl, hz⟩ := List.map_eq_append_iff.mp hs
    rw [List.flatMap_cons, List.flatMap_append, h.eq_of_key ha hfixed,
      (h.eq_iff fun c hc => List.mem_singleton.mp hc ▸ hfixed).mpr hz]
    exact .interpolated hquote (h.interpolated hfixed hbody)
  | heredoc => exact absurd ⟨[], _, rfl⟩ (hs ▸ hshift)

theorem unclosed (h : IsSpelling key spell) {k : Gap} (hw : Unclosed k (x.map key))
    (hshift : ¬ ['<', '<', '<'] <:+: x.map key) : Unclosed k (x.flatMap spell) := by
  generalize hs : x.map key = s at hw
  cases hw with
  | html hlacks =>
    subst hs
    exact .html (h.lacksOpenTag hlacks)
  | block hbody =>
    obtain ⟨a, x, rfl, ha, hs⟩ := List.map_eq_cons_iff.mp hs
    obtain ⟨b, x, rfl, hb, rfl⟩ := List.map_eq_cons_iff.mp hs
    rw [List.flatMap_cons, List.flatMap_cons, h.eq_of_key ha (by decide), h.eq_of_key hb (by decide)]
    exact .block (mt (h.infix_iff (by simp [Fixed, IsAscii]) (List.cons_ne_nil _ _)).mp hbody)
  | single hbody =>
    obtain ⟨a, x, rfl, ha, rfl⟩ := List.map_eq_cons_iff.mp hs
    rw [List.flatMap_cons, h.eq_of_key ha (by decide)]
    exact .single (h.unclosedSingle hbody)
  | interpolated hquote hbody =>
    obtain ⟨a, x, rfl, ha, rfl⟩ := List.map_eq_cons_iff.mp hs
    rw [List.flatMap_cons, h.eq_of_key ha (fixed_quote hquote)]
    exact .interpolated hquote (h.unclosedInterpolated (fixed_quote hquote) hbody)
  | heredoc => exact absurd ⟨[], _, rfl⟩ (hs ▸ hshift)

/-! ### Words -/

theorem alone (h : IsSpelling key spell) (hw : Alone c (w.map key)) : Alone c (w.flatMap spell) where
  space := hw.space
  name := hw.name
  digit := hw.digit
  sign := hw.sign
  question hc := by
    rw [ne_eq, h.head?_eq_some_iff (by decide), h.prefix_iff (by simp [Fixed, IsAscii])]
    exact hw.question hc
  slash hc := by
    rw [ne_eq, ne_eq, h.head?_eq_some_iff (by decide), h.head?_eq_some_iff (by decide)]
    exact hw.slash hc
  less hc := by
    rw [h.prefix_iff (by simp [Fixed, IsAscii])]
    exact hw.less hc
  named hc := h.any_head?_eq_false steady_isNameStart (hw.named hc)
  minus hc := by
    rw [ne_eq, h.head?_eq_some_iff (by decide)]
    exact hw.minus hc

/-- A sign followed by others of a class is spelled by characters of which all but the first are in the class. -/
theorem run (h : IsSpelling key spell) {p q : Char → Bool} (hp : Steady p) (hq : Steady q)
    (hpq : ∀ c, ¬ IsAscii c → q c = true) {a : σ} (ha : p (key a) = true) (hw : ∀ c ∈ w.map key, q c = true) :
    ∃ c s, spell a ++ w.flatMap spell = c :: s ∧ p c = true ∧ ∀ d ∈ s, q d = true := by
  obtain ⟨c, v, hcv, hv⟩ := (h a).exists_cons
  refine ⟨c, v ++ w.flatMap spell, by rw [hcv]; rfl, ?_, fun d hd => ?_⟩
  · exact ((h a).steady hp (hcv ▸ List.mem_cons_self)).trans ha
  · exact (List.mem_append.mp hd).elim (fun hd => hpq d (hv d hd)) ((h.steady hq).mpr hw d)

theorem word (h : IsSpelling key spell) {kind : Shape} (hw : Word kind (x.map key) (y.map key))
    (hshift : ¬ ['<', '<', '<'] <:+: x.map key) : Word kind (x.flatMap spell) (y.flatMap spell) := by
  generalize hs : x.map key = s at hw
  generalize hr : y.map key = r at hw
  have hfixed {s : List Char} (hs : x.map key = s) (hall : ∀ c ∈ s, Fixed c) : x.flatMap spell = s :=
    (h.eq_iff hall).mpr hs
  cases hw with
  | closeTag =>
    rw [hfixed hs (by simp [Fixed, IsAscii])]
    exact .closeTag
  | nullsafe =>
    rw [hfixed hs (by simp [Fixed, IsAscii])]
    exact .nullsafe
  | arrow =>
    rw [hfixed hs (by simp [Fixed, IsAscii])]
    exact .arrow
  | hash =>
    obtain ⟨b, y, rfl, hb, -⟩ := List.map_eq_cons_iff.mp hr
    rw [hfixed hs (by simp [Fixed, IsAscii]), List.flatMap_cons, h.eq_of_key hb (by decide)]
    exact .hash
  | shift => exact absurd List.infix_rfl (hs ▸ hshift)
  | dollar hc hall hstop =>
    subst hr
    obtain ⟨a, x, rfl, ha, hs⟩ := List.map_eq_cons_iff.mp hs
    obtain ⟨b, x, rfl, rfl, rfl⟩ := List.map_eq_cons_iff.mp hs
    obtain ⟨d, t, heq, hd, ht⟩ :=
      h.run steady_isNameStart steady_isNameChar (fun _ => isNameChar_of_not_isAscii) hc hall
    rw [List.flatMap_cons, List.flatMap_cons, h.eq_of_key ha (by decide), heq]
    exact .dollar hd ht (h.any_head?_eq_false steady_isNameChar hstop)
  | doubleColon =>
    rw [hfixed hs (by simp [Fixed, IsAscii])]
    exact .doubleColon
  | colon hne =>
    subst hr
    rw [hfixed hs (by simp [Fixed, IsAscii])]
    exact .colon (mt (h.head?_eq_some_iff (by decide)).mp hne)
  | openBrace =>
    rw [hfixed hs (by simp [Fixed, IsAscii])]
    exact .openBrace
  | closeBrace =>
    rw [hfixed hs (by simp [Fixed, IsAscii])]
    exact .closeBrace
  | semicolon =>
    rw [hfixed hs (by simp [Fixed, IsAscii])]
    exact .semicolon
  | name hc hall hstop =>
    subst hr
    obtain ⟨a, x, rfl, rfl, rfl⟩ := List.map_eq_cons_iff.mp hs
    obtain ⟨d, t, heq, hd, ht⟩ :=
      h.run steady_isNameStart steady_isQualifiedChar (fun _ => isQualifiedChar_of_not_isAscii) hc hall
    rw [List.flatMap_cons, heq]
    exact .name hd ht (h.any_head?_eq_false steady_isQualifiedChar hstop)
  | qualified hc hall hstop =>
    subst hr
    obtain ⟨a, x, rfl, ha, hs⟩ := List.map_eq_cons_iff.mp hs
    obtain ⟨b, x, rfl, rfl, rfl⟩ := List.map_eq_cons_iff.mp hs
    obtain ⟨d, t, heq, hd, ht⟩ :=
      h.run steady_isNameStart steady_isQualifiedChar (fun _ => isQualifiedChar_of_not_isAscii) hc hall
    rw [List.flatMap_cons, List.flatMap_cons, h.eq_of_key ha (by decide), heq]
    exact .qualified hd ht (h.any_head?_eq_false steady_isQualifiedChar hstop)
  | number hc hall hstop =>
    subst hr
    obtain ⟨a, x, rfl, rfl, rfl⟩ := List.map_eq_cons_iff.mp hs
    rw [List.flatMap_cons, h.eq_of_key rfl (fixed_of_isNameStart (isNameStart_of_isDigit hc))]
    exact .number hc ((h.steady steady_isNumberChar).mpr hall) (h.any_head?_eq_false steady_isNumberChar hstop)
  | other hc =>
    subst hr
    rw [hfixed hs fun d hd => List.mem_singleton.mp hd ▸ fixed_of_isNameStart hc.name]
    exact .other (h.alone hc)

/-- The spelling of what is one piece of the keys is one piece of the same shape. -/
theorem cuts (h : IsSpelling key spell) {m : Mode} {kind : Shape} (hw : Cuts m kind (x.map key) (y.map key))
    (hshift : ¬ ['<', '<', '<'] <:+: x.map key) : Cuts m kind (x.flatMap spell) (y.flatMap spell) := by
  generalize hr : y.map key = r at hw
  cases hw with
  | region hregion =>
    subst hr
    exact .region (h.region hregion hshift)
  | unclosed hunclosed =>
    rw [List.map_eq_nil_iff.mp hr]
    exact .unclosed (h.unclosed hunclosed hshift)
  | word hword =>
    subst hr
    exact .word (h.word hword hshift)

end IsSpelling

end

/-! ### Slices -/

/-- A piece of a text in signs, whose characters are left open: what it is and the line that it starts on. -/
structure Slice (σ : Type) where
  shape : Shape
  signs : List σ
  line : Nat

namespace Slice

variable {σ : Type}

/-- The piece in one spelling. -/
def text (spell : σ → List Char) (q : Slice σ) : String := String.ofList (q.signs.flatMap spell)

/-- The token that the piece is in one spelling, if it is one. -/
def token? (spell : σ → List Char) (q : Slice σ) : Option Token :=
  match q.shape with
  | .gap _ => none
  | .token kind => some ⟨kind, q.text spell, q.line⟩
  | .closeTag => some ⟨.semicolon, q.text spell, q.line⟩

end Slice

section
variable {σ : Type} {w : List σ}

/-- A text without `<<<` is cut at the same signs in all of its spellings. -/
theorem exists_slices (key : σ → Char) (m : Mode) (line : Nat) (hshift : ¬ ['<', '<', '<'] <:+: w.map key) :
    ∃ qs : List (Slice σ), qs.flatMap Slice.signs = w ∧
      ∀ spell, IsSpelling key spell → tokensFrom m line (w.flatMap spell) = qs.filterMap (Slice.token? spell) := by
  induction hn : w.length using Nat.strong_induction_on generalizing m line w with
  | _ n ih =>
    cases w with
    | nil => exact ⟨[], rfl, fun spell _ => by simp [tokensFrom, piecesFrom]⟩
    | cons a w =>
      -- The keys say where the first piece ends, before any spelling is known.
      obtain ⟨kind, t, rest, hw, hcuts, -⟩ := exists_cuts m (key a) (w.map key)
      obtain ⟨x, y, rfl, rfl, rfl⟩ := List.map_eq_append_iff.mp hw
      have hsplit : (a :: (x ++ y)).map key = (a :: x).map key ++ y.map key := by
        rw [← List.cons_append, List.map_append]
      rw [hsplit] at hshift
      obtain ⟨qs, hqs, hy⟩ := ih y.length (by simp [← hn]) kind.after (line + ((a :: x).map key).count '\n')
        (fun hin => hshift (hin.trans (List.suffix_append _ _).isInfix)) rfl
      refine ⟨⟨kind, a :: x, line⟩ :: qs, by rw [List.flatMap_cons, hqs]; rfl, fun spell h => ?_⟩
      have hcuts := h.cuts (x := a :: x) hcuts fun hin => hshift (hin.trans (List.prefix_append _ _).isInfix)
      have hcount : ((a :: x).flatMap spell).count '\n' = ((a :: x).map key).count '\n' := h.count_eq (by decide)
      obtain ⟨c, s, hcs⟩ := List.exists_cons_of_ne_nil (mt h.eq_nil_iff.mp (List.cons_ne_nil a x))
      have htoken : Piece.token? ⟨kind, c, s, line⟩ = Slice.token? spell ⟨kind, a :: x, line⟩ := by
        cases kind <;> simp [Piece.token?, Slice.token?, Slice.text, Piece.text, hcs]
      rw [hcs] at hcuts hcount
      rw [← List.cons_append, List.flatMap_append, hcs, tokensFrom_of_cuts hcuts, hcount, hy spell h, htoken,
        List.filterMap_cons]
      cases Slice.token? spell ⟨kind, a :: x, line⟩ <;> rfl

end

end TypeFinder.Php

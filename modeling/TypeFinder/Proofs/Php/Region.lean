import Mathlib.Data.List.Infix
import Mathlib.Data.List.TakeWhile
import TypeFinder.Php.Piece

/-! The regions between tokens, said by what they look like and not by how long they are. For each kind of region
    there are two facts: a text of that look is taken whole, and whatever is taken has that look or runs to the end
    of the text without being closed. -/

namespace TypeFinder.Php

/-! ### Runs of characters -/

theorem takeWhile_append_of_stop {p : Char → Bool} {run rest : List Char} (hrun : ∀ c ∈ run, p c = true)
    (hrest : rest.head?.any p = false) : (run ++ rest).takeWhile p = run := by
  have hnil : rest.takeWhile p = [] := by
    cases rest with
    | nil => rfl
    | cons c r => simpa [List.takeWhile_cons] using hrest
  rw [List.takeWhile_append_of_pos hrun, hnil, List.append_nil]

theorem exists_run (p : Char → Bool) (s : List Char) :
    ∃ run rest, s = run ++ rest ∧ (∀ c ∈ run, p c = true) ∧ rest.head?.any p = false := by
  refine ⟨s.takeWhile p, s.dropWhile p, List.takeWhile_append_dropWhile.symm, fun c hc => List.mem_takeWhile_imp hc, ?_⟩
  have := List.head?_dropWhile_not p s
  cases h : (s.dropWhile p).head? <;> simp_all

/-! ### Inline HTML -/

/-- The short open tag, or the long one in whatever case. -/
def IsOpenTag (tag : List Char) : Prop :=
  tag = ['<', '?', '='] ∨ ∃ word, tag = '<' :: '?' :: word ∧ word.map Char.toLower = ['p', 'h', 'p']

/-- No open tag stands in the text. -/
def LacksOpenTag (s : List Char) : Prop := ∀ tag, IsOpenTag tag → ¬ tag <:+: s

section
variable {s tag h rest : List Char} {c : Char} {n : Nat}

theorem IsOpenTag.ne_nil (ht : IsOpenTag tag) : tag ≠ [] := by
  rcases ht with rfl | ⟨word, rfl, -⟩ <;> simp

/-- Only the first character of an open tag is the sign that it starts with. -/
theorem IsOpenTag.head (ht : IsOpenTag tag) : ∃ r, tag = '<' :: r ∧ '<' ∉ r := by
  rcases ht with rfl | ⟨word, rfl, hword⟩
  · exact ⟨_, rfl, by decide⟩
  · refine ⟨_, rfl, fun hmem => ?_⟩
    rcases List.mem_cons.mp hmem with h | hmem
    · cases h
    · have : Char.toLower '<' ∈ word.map Char.toLower := List.mem_map_of_mem hmem
      rw [hword] at this
      revert this
      decide

theorem openTag?_eq_some_iff {k : Nat} :
    openTag? s = some k ↔ ∃ tag rest, s = tag ++ rest ∧ IsOpenTag tag ∧ tag.length = k := by
  constructor
  · intro hs
    unfold openTag? at hs
    split at hs
    · rename_i r
      split at hs
      · rename_i hword
        cases hs
        refine ⟨'<' :: '?' :: r.take 3, r.drop 3, by simp, Or.inr ⟨_, rfl, hword⟩, ?_⟩
        have := congrArg List.length hword
        simp only [List.length_map, List.length_cons, List.length_nil] at this
        simp [this]
      · split at hs
        · rename_i hhead
          cases hs
          obtain ⟨r', rfl⟩ : ∃ r', r = '=' :: r' := List.head?_eq_some_iff.mp hhead
          exact ⟨['<', '?', '='], r', rfl, Or.inl rfl, rfl⟩
        · cases hs
    · cases hs
  · rintro ⟨tag, rest, rfl, rfl | ⟨word, rfl, hword⟩, rfl⟩
    · simp [openTag?]
    · have hlen : word.length = 3 := by simpa using congrArg List.length hword
      have htake : (word ++ rest).take 3 = word := by rw [← hlen, List.take_left]
      simp [openTag?, htake, hword, hlen]

/-- Inline HTML goes on up to and with its first open tag. -/
theorem htmlLength_append (hh : LacksOpenTag h) (ht : IsOpenTag tag) :
    htmlLength n (h ++ tag ++ rest) = n + (h.length + tag.length) := by
  induction h generalizing n with
  | nil =>
    obtain ⟨r, rfl, -⟩ := ht.head
    have : openTag? ('<' :: r ++ rest) = some ('<' :: r).length := openTag?_eq_some_iff.mpr ⟨_, rest, rfl, ht, rfl⟩
    simp only [List.nil_append, List.cons_append] at this ⊢
    simp [htmlLength, this]
  | cons c h ih =>
    have hnone : openTag? (c :: h ++ tag ++ rest) = none := by
      by_contra hne
      obtain ⟨k, hk⟩ := Option.ne_none_iff_exists'.mp hne
      obtain ⟨tag', rest', heq, ht', -⟩ := openTag?_eq_some_iff.mp hk
      -- The tag found here would end before `tag` starts, or hold a second sign.
      rw [List.append_assoc] at heq
      rcases List.append_eq_append_iff.mp heq with ⟨x, rfl, hx⟩ | ⟨x, hx, -⟩
      · cases x with
        | nil => exact hh (c :: h) (by simpa using ht') List.infix_rfl
        | cons d x =>
          obtain ⟨r, rfl, -⟩ := ht.head
          obtain ⟨r', hr', hnot⟩ := ht'.head
          obtain rfl : '<' = d := (List.cons.inj hx).1
          obtain ⟨-, rfl⟩ := List.cons.inj hr'
          exact hnot (by simp)
      · exact hh tag' ht' ⟨[], x, by simpa using hx.symm⟩
    have ih := ih (n := n + 1) fun tag' ht' hin => hh tag' ht' (hin.trans (List.suffix_cons c h).isInfix)
    simp only [List.cons_append] at hnone ih ⊢
    simp only [htmlLength, hnone]
    rw [ih, List.length_cons]
    omega

theorem htmlLength_of_lacksOpenTag (hs : LacksOpenTag s) : htmlLength n s = n + s.length := by
  induction s generalizing n with
  | nil => rfl
  | cons c r ih =>
    have hnone : openTag? (c :: r) = none := by
      by_contra hne
      obtain ⟨k, hk⟩ := Option.ne_none_iff_exists'.mp hne
      obtain ⟨tag, rest, heq, ht, -⟩ := openTag?_eq_some_iff.mp hk
      exact hs tag ht ⟨[], rest, by simpa using heq.symm⟩
    have ih := ih (n := n + 1) fun tag ht hin => hs tag ht (hin.trans (List.suffix_cons c r).isInfix)
    simp only [htmlLength, hnone]
    rw [ih, List.length_cons]
    omega

theorem exists_openTag_or_lacks (s : List Char) :
    LacksOpenTag s ∨ ∃ h tag rest, s = h ++ tag ++ rest ∧ LacksOpenTag h ∧ IsOpenTag tag := by
  induction s with
  | nil => exact Or.inl fun tag ht hin => ht.ne_nil (List.eq_nil_of_infix_nil hin)
  | cons c r ih =>
    by_cases hhere : ∃ tag rest, c :: r = tag ++ rest ∧ IsOpenTag tag
    · obtain ⟨tag, rest, heq, ht⟩ := hhere
      exact Or.inr ⟨[], tag, rest, heq, fun tag' ht' hin => ht'.ne_nil (List.eq_nil_of_infix_nil hin), ht⟩
    · have lacks_cons : ∀ {h x}, r = h ++ x → LacksOpenTag h → LacksOpenTag (c :: h) := by
        intro h x hr hh tag ht hin
        rcases List.infix_cons_iff.mp hin with ⟨y, hy⟩ | hin
        · exact hhere ⟨tag, y ++ x, by rw [← List.append_assoc, hy, hr]; rfl, ht⟩
        · exact hh tag ht hin
      rcases ih with hlacks | ⟨h, tag, rest, rfl, hh, ht⟩
      · exact Or.inl (lacks_cons (List.append_nil r).symm hlacks)
      · exact Or.inr ⟨c :: h, tag, rest, rfl, lacks_cons (List.append_assoc h tag rest) hh, ht⟩

end

/-! ### Comments -/

theorem pair_infix_cons_iff {a b c : Char} {s : List Char} :
    [a, b] <:+: c :: s ↔ (c = a ∧ s.head? = some b) ∨ [a, b] <:+: s := by
  have hb : [b] <+: s ↔ s.head? = some b := by
    cases s <;> simp [eq_comm]
  rw [List.infix_cons_iff, List.cons_prefix_cons, hb, eq_comm (a := a)]

/-- A line comment goes on here: there is no newline and no closing tag. -/
def IsLineBody (s : List Char) : Prop := '\n' ∉ s ∧ ¬ ['?', '>'] <:+: s

/-- A line comment ends here. -/
def EndsLine (rest : List Char) : Prop := rest = [] ∨ (∃ r, rest = '\n' :: r) ∨ ∃ r, rest = '?' :: '>' :: r

section
variable {s body rest : List Char} {c : Char} {n : Nat}

theorem isLineBody_cons_iff :
    IsLineBody (c :: s) ↔ c ≠ '\n' ∧ ¬ (c = '?' ∧ s.head? = some '>') ∧ IsLineBody s := by
  simp only [IsLineBody, List.mem_cons, not_or, pair_infix_cons_iff, ne_eq, eq_comm (a := '\n')]
  tauto

theorem EndsLine.head_ne (hr : EndsLine rest) : rest.head? ≠ some '>' := by
  rcases hr with rfl | ⟨r, rfl⟩ | ⟨r, rfl⟩ <;> simp

theorem lineCommentLength_append (hb : IsLineBody body) (hr : EndsLine rest) :
    lineCommentLength n (body ++ rest) = n + body.length := by
  induction body generalizing n with
  | nil => rcases hr with rfl | ⟨r, rfl⟩ | ⟨r, rfl⟩ <;> simp [lineCommentLength]
  | cons c body ih =>
    obtain ⟨hc, hq, hb⟩ := isLineBody_cons_iff.mp hb
    have hgo : ¬ (c = '\n' ∨ c = '?' ∧ (body ++ rest).head? = some '>') := by
      rintro (h | ⟨h, hhead⟩)
      · exact hc h
      · cases body with
        | nil => exact hr.head_ne hhead
        | cons d body => exact hq ⟨h, hhead⟩
    rw [List.cons_append, lineCommentLength, if_neg hgo, ih hb, List.length_cons]
    omega

theorem exists_lineBody (s : List Char) : ∃ body rest, s = body ++ rest ∧ IsLineBody body ∧ EndsLine rest := by
  induction s with
  | nil => exact ⟨[], [], rfl, by simp [IsLineBody], Or.inl rfl⟩
  | cons c r ih =>
    by_cases hc : c = '\n'
    · exact ⟨[], c :: r, rfl, by simp [IsLineBody], Or.inr (Or.inl ⟨r, by rw [hc]⟩)⟩
    by_cases hq : c = '?' ∧ r.head? = some '>'
    · obtain ⟨rfl, hhead⟩ := hq
      obtain ⟨r', rfl⟩ := List.head?_eq_some_iff.mp hhead
      exact ⟨[], _, rfl, by simp [IsLineBody], Or.inr (Or.inr ⟨r', rfl⟩)⟩
    obtain ⟨body, rest, rfl, hb, hr⟩ := ih
    refine ⟨c :: body, rest, rfl, isLineBody_cons_iff.mpr ⟨hc, fun ⟨h, hhead⟩ => hq ⟨h, ?_⟩, hb⟩, hr⟩
    rw [List.head?_append, hhead, Option.some_or]

/-- A block comment goes on up to and with the first mark that closes it. -/
theorem blockCommentLength_append (hb : ¬ ['*', '/'] <:+: body) :
    blockCommentLength n (body ++ '*' :: '/' :: rest) = n + (body.length + 2) := by
  induction body generalizing n with
  | nil => simp [blockCommentLength]
  | cons c body ih =>
    rw [pair_infix_cons_iff, not_or] at hb
    have hgo : ¬ (c = '*' ∧ (body ++ '*' :: '/' :: rest).head? = some '/') := by
      rintro ⟨h, hhead⟩
      cases body with
      | nil => cases hhead
      | cons d body => exact hb.1 ⟨h, hhead⟩
    rw [List.cons_append, blockCommentLength, if_neg hgo, ih hb.2, List.length_cons]
    omega

theorem blockCommentLength_of_lacks (hs : ¬ ['*', '/'] <:+: s) : blockCommentLength n s = n + s.length := by
  induction s generalizing n with
  | nil => rfl
  | cons c r ih =>
    rw [pair_infix_cons_iff, not_or] at hs
    rw [blockCommentLength, if_neg hs.1, ih hs.2, List.length_cons]
    omega

theorem exists_blockEnd_or_lacks (s : List Char) :
    ¬ ['*', '/'] <:+: s ∨ ∃ body rest, s = body ++ '*' :: '/' :: rest ∧ ¬ ['*', '/'] <:+: body := by
  induction s with
  | nil => exact Or.inl (by simp)
  | cons c r ih =>
    by_cases hc : c = '*' ∧ r.head? = some '/'
    · obtain ⟨rfl, hhead⟩ := hc
      obtain ⟨r', rfl⟩ := List.head?_eq_some_iff.mp hhead
      exact Or.inr ⟨[], r', rfl, by simp⟩
    rcases ih with hlacks | ⟨body, rest, rfl, hb⟩
    · exact Or.inl (by rw [pair_infix_cons_iff, not_or]; exact ⟨hc, hlacks⟩)
    · refine Or.inr ⟨c :: body, rest, rfl, ?_⟩
      rw [pair_infix_cons_iff, not_or]
      refine ⟨fun ⟨h, hhead⟩ => hc ⟨h, ?_⟩, hb⟩
      rw [List.head?_append, hhead, Option.some_or]

end

end TypeFinder.Php

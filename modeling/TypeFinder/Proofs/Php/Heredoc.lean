import Mathlib.Data.Nat.Find
import TypeFinder.Proofs.Php.Region

/-! Heredocs and nowdocs. The opener names a label; the region ends at the first place where that label stands on a
    line of its own behind blanks only, and not as the start of a longer name. -/

namespace TypeFinder.Php

/-! ### The opener -/

/-- What follows the three signs: blanks, the label bare or between two quotes of one kind, and a line end. -/
def IsOpener (label opener : List Char) : Prop :=
  ∃ blanks quote eol, opener = blanks ++ quote ++ label ++ quote ++ eol ∧ (∀ c ∈ blanks, isBlank c = true) ∧
    (quote = [] ∨ quote = ['"'] ∨ quote = ['\'']) ∧ label.head?.any isNameStart = true ∧
    (∀ c ∈ label, isNameChar c = true) ∧ (eol = ['\n'] ∨ eol = ['\r', '\n'])

/-- No opener stands at the head of the text. -/
def LacksOpener (s : List Char) : Prop := ∀ label opener, IsOpener label opener → ¬ opener <+: s

section
variable {label opener rest s : List Char} {n : Nat}

theorem lineEnd?_eq_some_iff :
    lineEnd? s = some n ↔ ∃ eol rest, s = eol ++ rest ∧ (eol = ['\n'] ∨ eol = ['\r', '\n']) ∧ eol.length = n := by
  constructor
  · intro h
    unfold lineEnd? at h
    split at h
    · cases h
      exact ⟨['\n'], _, rfl, Or.inl rfl, rfl⟩
    · cases h
      exact ⟨['\r', '\n'], _, rfl, Or.inr rfl, rfl⟩
    · cases h
  · rintro ⟨eol, rest, rfl, rfl | rfl, rfl⟩ <;> simp [lineEnd?]

/-- The quote at the head of a text, if there is one. -/
def quoteOf (s : List Char) : List Char := (s.head?.filter fun c => c = '"' ∨ c = '\'').toList

theorem quoteOf_cases (s : List Char) :
    (quoteOf s = [] ∨ quoteOf s = ['"'] ∨ quoteOf s = ['\'']) ∧ ∃ rest, s = quoteOf s ++ rest := by
  cases s with
  | nil => exact ⟨Or.inl rfl, [], rfl⟩
  | cons c r =>
    by_cases hc : c = '"' ∨ c = '\''
    · have : quoteOf (c :: r) = [c] := by simp [quoteOf, hc]
      rw [this]
      exact ⟨Or.inr (by simpa using hc), r, rfl⟩
    · have : quoteOf (c :: r) = [] := by simpa [quoteOf] using hc
      rw [this]
      exact ⟨Or.inl rfl, _, rfl⟩

/-- How the opener is read, once its parts are known. -/
theorem heredocOpener?_eq {blanks quote tail : List Char} (hblanks : ∀ c ∈ blanks, isBlank c = true)
    (hstop : (quote ++ (label ++ tail)).head?.any isBlank = false) (hquote : quoteOf (quote ++ (label ++ tail)) = quote)
    (hlabel : ∀ c ∈ label, isNameChar c = true) (htail : tail.head?.any isNameChar = false) :
    heredocOpener? (blanks ++ (quote ++ (label ++ tail))) =
      if label.head?.any isNameStart && quote.isPrefixOf tail then
        (lineEnd? (tail.drop quote.length)).map fun n =>
          (label, blanks.length + quote.length + label.length + quote.length + n)
      else none := by
  rw [quoteOf] at hquote
  simp only [heredocOpener?, takeWhile_append_of_stop hblanks hstop, List.drop_left, hquote,
    takeWhile_append_of_stop hlabel htail]

theorem heredocOpener?_append (h : IsOpener label opener) :
    heredocOpener? (opener ++ rest) = some (label, opener.length) := by
  obtain ⟨blanks, quote, eol, rfl, hblanks, hquote, hstart, hlabel, heol⟩ := h
  obtain ⟨a, l, rfl⟩ : ∃ a l, label = a :: l := by
    cases label with
    | nil => simp at hstart
    | cons a l => exact ⟨a, l, rfl⟩
  -- A character that may start a name is neither a blank nor a quote.
  have hne : ∀ c ∈ [' ', '\t', '"', '\''], a ≠ c := by
    rintro c hc rfl
    have : ∀ c ∈ [' ', '\t', '"', '\''], isNameStart c = false := by simp [isNameStart]
    simp [this a hc] at hstart
  simp only [List.mem_cons, List.not_mem_nil, or_false, forall_eq_or_imp, forall_eq] at hne
  have hstop : (quote ++ (a :: l ++ (quote ++ (eol ++ rest)))).head?.any isBlank = false := by
    rcases hquote with rfl | rfl | rfl
    · simp [isBlank, hne]
    · rfl
    · rfl
  have hq : quoteOf (quote ++ (a :: l ++ (quote ++ (eol ++ rest)))) = quote := by
    rcases hquote with rfl | rfl | rfl
    · simp [quoteOf, hne]
    · rfl
    · rfl
  have htail : (quote ++ (eol ++ rest)).head?.any isNameChar = false := by
    rcases hquote with rfl | rfl | rfl
    · rcases heol with rfl | rfl <;> rfl
    · rfl
    · rfl
  have heol' : lineEnd? (eol ++ rest) = some eol.length := lineEnd?_eq_some_iff.mpr ⟨eol, rest, rfl, heol, rfl⟩
  have hpre : quote.isPrefixOf (quote ++ (eol ++ rest)) = true := by simp
  simp only [List.append_assoc]
  rw [heredocOpener?_eq hblanks hstop hq hlabel htail, hstart, hpre, List.drop_left, heol']
  simp only [Bool.and_self, if_true, Option.map_some, List.length_append, Option.some.injEq, Prod.mk.injEq, true_and]
  omega

theorem exists_opener_of_heredocOpener? (h : heredocOpener? s = some (label, n)) :
    ∃ opener rest, s = opener ++ rest ∧ IsOpener label opener ∧ opener.length = n := by
  obtain ⟨blanks, s, rfl, hblanks, hstop⟩ := exists_run isBlank s
  obtain ⟨hquote, t, ht⟩ := quoteOf_cases s
  generalize hq : quoteOf s = quote at hquote ht
  subst ht
  obtain ⟨word, tail, rfl, hword, htail⟩ := exists_run isNameChar t
  rw [heredocOpener?_eq hblanks hstop hq hword htail] at h
  split at h
  · rename_i hif
    rw [Bool.and_eq_true, List.isPrefixOf_iff_prefix] at hif
    obtain ⟨hstart, tail, rfl⟩ := hif
    rw [List.drop_left] at h
    obtain ⟨k, hk, heq⟩ := Option.map_eq_some_iff.mp h
    obtain ⟨eol, rest, rfl, heol, rfl⟩ := lineEnd?_eq_some_iff.mp hk
    cases heq
    refine ⟨blanks ++ quote ++ label ++ quote ++ eol, rest, by simp, ?_, by simp; omega⟩
    exact ⟨blanks, quote, eol, rfl, hblanks, hquote, hstart, hword, heol⟩
  · cases h

theorem heredocOpener?_of_lacks (h : LacksOpener s) : heredocOpener? s = none := by
  by_contra hne
  obtain ⟨⟨label, n⟩, hsome⟩ := Option.ne_none_iff_exists'.mp hne
  obtain ⟨opener, rest, rfl, hopener, -⟩ := exists_opener_of_heredocOpener? hsome
  exact h label opener hopener (List.prefix_append opener rest)

end

/-! ### The label that closes it -/

/-- Only blanks stand on the line that the text ends in. -/
def AtMargin (s : List Char) : Prop := ∀ c ∈ s.reverse.takeWhile (· ≠ '\n'), isBlank c = true

/-- A label behind `s` closes the heredoc when `rest` follows it. -/
def Closes (s rest : List Char) : Prop := AtMargin s ∧ rest.head?.any isNameChar = false

/-- The label behind `s` is the first one that closes the heredoc. -/
def ClosesFirst (label s rest : List Char) : Prop :=
  Closes s rest ∧ ∀ s' rest', s' ++ label ++ rest' = s ++ label ++ rest → s'.length < s.length → ¬ Closes s' rest'

/-- No label closes the heredoc. -/
def NeverCloses (label s : List Char) : Prop := ∀ s' rest', s' ++ label ++ rest' = s → ¬ Closes s' rest'

section
variable {label s rest : List Char} {c : Char} {n : Nat}

theorem atMargin_nil : AtMargin [] := fun c hc => by cases hc

theorem atMargin_snoc : AtMargin (s ++ [c]) ↔ c = '\n' ∨ AtMargin s ∧ isBlank c = true := by
  simp only [AtMargin, List.reverse_append, List.reverse_singleton, List.singleton_append, List.takeWhile_cons]
  by_cases hc : c = '\n' <;> simp [hc, and_comm]

theorem isClosedBy_iff :
    isClosedBy label s = true ↔ ∃ rest, s = label ++ rest ∧ rest.head?.any isNameChar = false := by
  simp only [isClosedBy, Bool.and_eq_true, List.isPrefixOf_iff_prefix, Bool.not_eq_true']
  constructor
  · rintro ⟨⟨rest, rfl⟩, h⟩
    rw [List.drop_left] at h
    exact ⟨rest, rfl, h⟩
  · rintro ⟨rest, rfl, h⟩
    rw [List.drop_left]
    exact ⟨List.prefix_append label rest, h⟩

section
variable {u : List Char} {margin : Bool}

theorem margin_snoc (hm : margin = true ↔ AtMargin u) :
    (decide (c = '\n') || margin && isBlank c) = true ↔ AtMargin (u ++ [c]) := by
  rw [atMargin_snoc, ← hm]
  simp

/-- Behind the part `u` of the lines, the first label that closes the heredoc ends it. -/
theorem heredocLength_behind (hne : label ≠ []) (hm : margin = true ↔ AtMargin u)
    (hc : Closes (u ++ s) rest)
    (hfirst : ∀ s' rest', s' ++ label ++ rest' = s ++ label ++ rest → s'.length < s.length →
      ¬ Closes (u ++ s') rest') :
    heredocLength label margin n (s ++ label ++ rest) = n + (s.length + label.length) := by
  induction s generalizing u margin n with
  | nil =>
    obtain ⟨a, l, rfl⟩ := List.exists_cons_of_ne_nil hne
    have hmargin : margin = true := hm.mpr (by simpa using hc.1)
    have hclosed : isClosedBy (a :: l) (a :: (l ++ rest)) = true := isClosedBy_iff.mpr ⟨rest, rfl, hc.2⟩
    simp only [List.nil_append, List.cons_append, heredocLength, hmargin, hclosed, Bool.and_self, if_true]
    simp
  | cons c s ih =>
    have hgo : ¬ (margin && isClosedBy label (c :: (s ++ label ++ rest))) = true := by
      rw [Bool.and_eq_true, hm, isClosedBy_iff]
      rintro ⟨hmargin, rest', heq, hrest'⟩
      exact hfirst [] rest' (by simpa using heq.symm) (Nat.succ_pos _) ⟨by simpa using hmargin, hrest'⟩
    rw [List.cons_append, List.cons_append, heredocLength, if_neg hgo,
      ih (margin_snoc hm) (by simpa using hc), List.length_cons]
    · omega
    · intro s' rest' heq hlt
      have := hfirst (c :: s') rest' (by simp only [List.cons_append, heq]) (Nat.succ_lt_succ hlt)
      simpa using this

theorem heredocLength_of_never (hm : margin = true ↔ AtMargin u)
    (hnever : ∀ s' rest', s' ++ label ++ rest' = s → ¬ Closes (u ++ s') rest') :
    heredocLength label margin n s = n + s.length := by
  induction s generalizing u margin n with
  | nil => rfl
  | cons c s ih =>
    have hgo : ¬ (margin && isClosedBy label (c :: s)) = true := by
      rw [Bool.and_eq_true, hm, isClosedBy_iff]
      rintro ⟨hmargin, rest', heq, hrest'⟩
      exact hnever [] rest' (by simpa using heq.symm) ⟨by simpa using hmargin, hrest'⟩
    rw [heredocLength, if_neg hgo, ih (margin_snoc hm), List.length_cons]
    · omega
    · intro s' rest' heq
      have := hnever (c :: s') rest' (by simp only [List.cons_append, heq])
      simpa using this

end

/-- A heredoc goes on up to and with the first label that closes it. -/
theorem heredocLength_append (hne : label ≠ []) (hc : ClosesFirst label s rest) :
    heredocLength label true n (s ++ label ++ rest) = n + (s.length + label.length) :=
  heredocLength_behind (u := []) hne (by simp [atMargin_nil]) hc.1 hc.2

theorem heredocLength_of_neverCloses (hs : NeverCloses label s) : heredocLength label true n s = n + s.length :=
  heredocLength_of_never (u := []) (by simp [atMargin_nil]) hs

theorem exists_closesFirst_or_never (label s : List Char) :
    NeverCloses label s ∨ ∃ lines rest, s = lines ++ label ++ rest ∧ ClosesFirst label lines rest := by
  by_cases hex : ∃ k lines rest, lines.length = k ∧ s = lines ++ label ++ rest ∧ Closes lines rest
  · right
    classical
    obtain ⟨lines, rest, hk, heq, hc⟩ := Nat.find_spec hex
    refine ⟨lines, rest, heq, hc, fun lines' rest' heq' hlt hc' => ?_⟩
    exact Nat.find_min hex (hk ▸ hlt) ⟨lines', rest', rfl, heq.trans heq'.symm, hc'⟩
  · exact Or.inl fun lines rest heq hc => hex ⟨lines.length, lines, rest, rfl, heq.symm, hc⟩

/-- A label at which the heredoc is found to end, before the text does, is the first that closes it. -/
theorem closesFirst_of_heredocLength (hne : label ≠ []) (hrest : rest ≠ [])
    (h : heredocLength label true 0 (s ++ label ++ rest) = s.length + label.length) : ClosesFirst label s rest := by
  rcases exists_closesFirst_or_never label (s ++ label ++ rest) with hn | ⟨lines, behind, heq, hc⟩
  · rw [heredocLength_of_neverCloses hn] at h
    have := List.length_pos_iff.mpr hrest
    simp only [List.length_append] at h
    omega
  · rw [heq, heredocLength_append hne hc] at h
    have hlen : s.length = lines.length := by omega
    rw [List.append_assoc, List.append_assoc] at heq
    obtain ⟨rfl, hbehind⟩ := List.append_inj heq hlen
    obtain rfl := List.append_cancel_left hbehind
    exact hc

end

end TypeFinder.Php

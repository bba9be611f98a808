import Mathlib
import TypeFinder.Proofs.Php.Octets

/-! Texts that are spelled in several ways. A text is written in signs, and each sign is spelled by characters: an ASCII
    sign by one character, whose case is free, and any other sign by characters beyond ASCII, one or more. What marks
    off the pieces of PHP code stands in all spellings of a text at the same signs. A sign has a key, the character
    that it would be in the plainest spelling. -/

namespace TypeFinder.Php

/-- The text spells the character: in some case if it is ASCII, and else by any characters that are not. -/
inductive Spells (k : Char) : List Char → Prop
  | ascii {c : Char} : IsAscii c → c.toLower = k.toLower → Spells k [c]
  | beyond {x : List Char} : ¬ IsAscii k → x ≠ [] → (∀ c ∈ x, ¬ IsAscii c) → Spells k x

/-- Each sign is spelled as its key demands. -/
def IsSpelling {σ : Type} (key : σ → Char) (spell : σ → List Char) : Prop := ∀ a, Spells (key a) (spell a)

/-! ### Classes of characters -/

/-- The class does not depend on the case of a letter, and has all characters beyond ASCII or none. -/
structure Steady (p : Char → Bool) : Prop where
  lower : ∀ c, p c.toLower = p c
  beyond : Uniform p

/-- An ASCII character that is written in one way. -/
def Fixed (a : Char) : Prop := IsAscii a ∧ a.isAlpha = false

instance (a : Char) : Decidable (Fixed a) := inferInstanceAs (Decidable (_ ∧ _))

section
variable {p : Char → Bool} {a c k : Char} {x s u : List Char}

/-- A class is steady when it has all letters or none. -/
theorem Steady.of_isAlpha {q : Bool} (h : ∀ c, c.isAlpha = true → p c = q) (hp : Uniform p) : Steady p where
  lower c := by
    by_cases hc : c.isUpper = true
    · have halpha : c.isAlpha = true := by simp [Char.isAlpha, hc]
      rw [h c halpha, h _ ((Char.isAlpha_toLower_eq_isAlpha c).trans halpha)]
    · rw [Char.toLower_eq_of_not_isUpper hc]
  beyond := hp

theorem isNameStart_of_isAlpha (hc : c.isAlpha = true) : isNameStart c = true := by simp [isNameStart, hc]

theorem steady_isNameStart : Steady isNameStart := .of_isAlpha (fun _ => isNameStart_of_isAlpha) uniform_isNameStart

theorem steady_isNameChar : Steady isNameChar :=
  .of_isAlpha (fun _ hc => isNameChar_of_isNameStart (isNameStart_of_isAlpha hc)) uniform_isNameChar

theorem steady_isQualifiedChar : Steady isQualifiedChar := by
  refine .of_isAlpha (q := true) (fun c hc => ?_) uniform_isQualifiedChar
  rw [isQualifiedChar, isNameChar_of_isNameStart (isNameStart_of_isAlpha hc), Bool.true_or]

theorem steady_isNumberChar : Steady isNumberChar := by
  refine .of_isAlpha (q := true) (fun c hc => ?_) uniform_isNumberChar
  simp [isNumberChar, Char.isAlphanum, hc]

theorem steady_isSpace : Steady isSpace := by
  refine .of_isAlpha (q := false) (fun c hc => ?_) uniform_isSpace
  exact (not_sign_of_isNameStart (isNameStart_of_isAlpha hc)).1

theorem steady_eq (ha : Fixed a) : Steady fun c => decide (c = a) := by
  refine .of_isAlpha (q := false) (fun c hc => decide_eq_false ?_) ?_
  · rintro rfl
    rw [ha.2] at hc
    cases hc
  · exact .of_forall (q := false) fun c hc => decide_eq_false (ne_of_not_isAscii hc ha.1)

theorem Fixed.toLower_eq_iff (ha : Fixed a) : c.toLower = a ↔ c = a :=
  decide_eq_decide.mp ((steady_eq ha).lower c)

theorem Fixed.map_toLower_eq_iff (hu : ∀ c ∈ u, Fixed c) : s.map Char.toLower = u ↔ s = u := by
  induction s generalizing u with
  | nil => simp
  | cons c s ih =>
    cases u with
    | nil => simp
    | cons d u =>
      obtain ⟨hd, hu⟩ := List.forall_mem_cons.mp hu
      rw [List.map_cons, List.cons.injEq, List.cons.injEq, hd.toLower_eq_iff, ih hu]

/-! ### Spellings of one sign -/

namespace Spells

theorem ne_nil (h : Spells k x) : x ≠ [] := by
  cases h with
  | ascii => exact List.cons_ne_nil _ _
  | beyond _ hne => exact hne

/-- An ASCII character in a spelling is all of it. -/
theorem eq_singleton (h : Spells k x) (hc : c ∈ x) (ha : IsAscii c) : x = [c] ∧ c.toLower = k.toLower := by
  cases h with
  | ascii _ hlower =>
    obtain rfl := List.mem_singleton.mp hc
    exact ⟨rfl, hlower⟩
  | beyond _ _ hall => exact absurd ha (hall c hc)

theorem steady (h : Spells k x) (hp : Steady p) (hc : c ∈ x) : p c = p k := by
  cases h with
  | ascii _ hlower =>
    obtain rfl := List.mem_singleton.mp hc
    rw [← hp.lower c, hlower, hp.lower]
  | beyond hk _ hall => exact hp.beyond c k (hall c hc) hk

theorem eq_iff (h : Spells k x) (ha : Fixed a) (hc : c ∈ x) : c = a ↔ k = a :=
  decide_eq_decide.mp (h.steady (steady_eq ha) hc)

theorem eq_of_fixed (h : Spells a x) (ha : Fixed a) : x = [a] := by
  obtain ⟨c, x, rfl⟩ := List.exists_cons_of_ne_nil h.ne_nil
  obtain rfl := (h.eq_iff ha List.mem_cons_self).mpr rfl
  exact (h.eq_singleton List.mem_cons_self ha.1).1

/-- The first character of a spelling, and the others, which are beyond ASCII. -/
theorem exists_cons (h : Spells k x) : ∃ c u, x = c :: u ∧ ∀ d ∈ u, ¬ IsAscii d := by
  cases h with
  | @ascii c => exact ⟨c, [], rfl, by simp⟩
  | beyond _ hne hall =>
    obtain ⟨c, u, rfl⟩ := List.exists_cons_of_ne_nil hne
    exact ⟨c, u, rfl, (List.forall_mem_cons.mp hall).2⟩

end Spells

end

/-! ### Spellings of a text -/

section
variable {σ : Type} {key : σ → Char} {spell : σ → List Char} {p : Char → Bool} {a c : Char} {w : List σ}
  {s u v r : List Char}

namespace IsSpelling

theorem eq_nil_iff (h : IsSpelling key spell) : w.flatMap spell = [] ↔ w = [] := by
  cases w with
  | nil => simp
  | cons a w => simp [(h a).ne_nil]

/-- A character in the text stands in the spelling of a sign. -/
theorem steady (h : IsSpelling key spell) (hp : Steady p) :
    (∀ c ∈ w.flatMap spell, p c = true) ↔ ∀ c ∈ w.map key, p c = true := by
  constructor
  · intro hall k hk
    obtain ⟨a, ha, rfl⟩ := List.mem_map.mp hk
    obtain ⟨c, x, hx⟩ := List.exists_cons_of_ne_nil (h a).ne_nil
    have hc : c ∈ spell a := hx ▸ List.mem_cons_self
    rw [← (h a).steady hp hc]
    exact hall c (List.mem_flatMap.mpr ⟨a, ha, hc⟩)
  · intro hall c hc
    obtain ⟨a, ha, hc⟩ := List.mem_flatMap.mp hc
    rw [(h a).steady hp hc]
    exact hall _ (List.mem_map_of_mem ha)

theorem any_head? (h : IsSpelling key spell) (hp : Steady p) :
    (w.flatMap spell).head?.any p = (w.map key).head?.any p := by
  cases w with
  | nil => rfl
  | cons a w =>
    obtain ⟨c, x, hx, -⟩ := (h a).exists_cons
    rw [List.flatMap_cons, hx]
    exact (h a).steady hp (hx ▸ List.mem_cons_self)

theorem head?_eq_some_iff (h : IsSpelling key spell) (ha : Fixed a) :
    (w.flatMap spell).head? = some a ↔ (w.map key).head? = some a := by
  have hany := h.any_head? (w := w) (steady_eq ha)
  rw [Bool.eq_iff_iff] at hany
  simpa [Option.any_eq_true] using hany

theorem mem_iff (h : IsSpelling key spell) (ha : Fixed a) : a ∈ w.flatMap spell ↔ a ∈ w.map key := by
  have hnot : ∀ s : List Char, a ∉ s ↔ ∀ c ∈ s, (!decide (c = a)) = true := by
    intro s
    simp only [Bool.not_eq_true', decide_eq_false_iff_not]
    exact ⟨fun hs c hc hca => hs (hca ▸ hc), fun hs hc => hs a hc rfl⟩
  have hp := steady_eq ha
  rw [← not_iff_not, hnot, hnot]
  exact h.steady ⟨fun c => congrArg _ (hp.lower c), fun c d hc hd => congrArg _ (hp.beyond c d hc hd)⟩

theorem count_eq (h : IsSpelling key spell) (ha : Fixed a) : (w.flatMap spell).count a = (w.map key).count a := by
  induction w with
  | nil => rfl
  | cons b w ih =>
    rw [List.flatMap_cons, List.count_append, ih, List.map_cons, List.count_cons, Nat.add_comm]
    congr 1
    by_cases hb : key b = a
    · rw [(hb ▸ h b : Spells a (spell b)).eq_of_fixed ha]
      simp [hb]
    · have hnone : a ∉ spell b := fun hmem => hb (((h b).eq_iff ha hmem).mp rfl)
      simp [List.count_eq_zero_of_not_mem hnone, hb]

/-! ### ASCII characters in a text -/

/-- An ASCII character of the text is the spelling of one sign. -/
theorem split (h : IsSpelling key spell) (hc : IsAscii c) (heq : w.flatMap spell = u ++ c :: r) :
    ∃ x b y, w = x ++ b :: y ∧ x.flatMap spell = u ∧ spell b = [c] ∧ y.flatMap spell = r := by
  induction w generalizing u with
  | nil => simp at heq
  | cons b w ih =>
    rw [List.flatMap_cons] at heq
    rcases List.append_eq_append_iff.mp heq with ⟨v, rfl, hw⟩ | ⟨v, hb, hv⟩
    · obtain ⟨x, b', y, rfl, rfl, hb', hy⟩ := ih hw
      exact ⟨b :: x, b', y, rfl, rfl, hb', hy⟩
    · cases v with
      | nil =>
        obtain ⟨x, b', y, rfl, hx, hb', hy⟩ := ih (u := []) hv.symm
        rw [List.append_nil] at hb
        exact ⟨b :: x, b', y, rfl, by rw [List.flatMap_cons, hx, hb, List.append_nil], hb', hy⟩
      | cons d v =>
        obtain ⟨rfl, rfl⟩ := List.cons.inj hv
        have hmem : c ∈ spell b := hb ▸ by simp
        obtain ⟨hone, -⟩ := (h b).eq_singleton hmem hc
        rw [hone] at hb
        obtain ⟨rfl, hcv⟩ | ⟨-, hcv⟩ := List.append_eq_singleton_iff.mp hb.symm
        · obtain rfl := (List.cons.inj hcv).2
          exact ⟨[], b, w, rfl, rfl, hone, rfl⟩
        · cases hcv

/-- ASCII characters in front of the text are the spelling of signs. -/
theorem exists_prefix (h : IsSpelling key spell) (hu : ∀ c ∈ u, IsAscii c) (heq : w.flatMap spell = u ++ r) :
    ∃ x y, w = x ++ y ∧ x.flatMap spell = u ∧ y.flatMap spell = r := by
  induction u generalizing w with
  | nil => exact ⟨[], w, rfl, rfl, heq⟩
  | cons c u ih =>
    obtain ⟨hc, hu⟩ := List.forall_mem_cons.mp hu
    obtain ⟨x, b, y, rfl, hx, hb, hy⟩ := h.split (u := []) hc heq
    obtain rfl := h.eq_nil_iff.mp hx
    obtain ⟨x, y, rfl, hx, hy⟩ := ih hu hy
    exact ⟨b :: x, y, rfl, by rw [List.flatMap_cons, hb, hx]; rfl, hy⟩

/-- ASCII characters in the text are the spelling of signs that stand together. -/
theorem exists_infix (h : IsSpelling key spell) (hu : ∀ c ∈ u, IsAscii c) (hne : u ≠ [])
    (hin : u <:+: w.flatMap spell) : ∃ x, x <:+: w ∧ x.flatMap spell = u := by
  obtain ⟨front, behind, heq⟩ := hin
  obtain ⟨c, u, rfl⟩ := List.exists_cons_of_ne_nil hne
  obtain ⟨hc, hu⟩ := List.forall_mem_cons.mp hu
  rw [List.append_assoc] at heq
  obtain ⟨x, b, y, rfl, -, hb, hy⟩ := h.split hc heq.symm
  obtain ⟨y, z, rfl, hy, -⟩ := h.exists_prefix hu hy
  exact ⟨b :: y, ⟨x, z, by simp⟩, by rw [List.flatMap_cons, hb, hy]; rfl⟩

theorem map_toLower_eq_iff (h : IsSpelling key spell) (hu : ∀ c ∈ u, IsAscii c) :
    (w.flatMap spell).map Char.toLower = u ↔ (w.map key).map Char.toLower = u := by
  induction w generalizing u with
  | nil => rfl
  | cons b w ih =>
    cases u with
    | nil => simp [(h b).ne_nil]
    | cons d u =>
      obtain ⟨hd, hu⟩ := List.forall_mem_cons.mp hu
      rw [List.flatMap_cons, List.map_append, List.map_cons, List.map_cons]
      generalize hx : spell b = x
      cases (hx ▸ h b : Spells (key b) x) with
      | ascii _ hlower =>
        rw [List.map_singleton, List.singleton_append, hlower, List.cons.injEq, List.cons.injEq, ih hu]
      | beyond hk hne hall =>
        -- Neither side starts with an ASCII character.
        obtain ⟨c, x, rfl⟩ := List.exists_cons_of_ne_nil hne
        have hlower {c : Char} (hc : ¬ IsAscii c) : c.toLower ≠ d := fun heq => hc (isAscii_of_toLower (heq ▸ hd))
        refine iff_of_false (fun heq => ?_) (fun heq => hlower hk (List.cons.inj heq).1)
        exact hlower (hall c List.mem_cons_self) (List.cons.inj heq).1

theorem eq_iff (h : IsSpelling key spell) (hu : ∀ c ∈ u, Fixed c) : w.flatMap spell = u ↔ w.map key = u := by
  rw [← Fixed.map_toLower_eq_iff hu, h.map_toLower_eq_iff fun c hc => (hu c hc).1, Fixed.map_toLower_eq_iff hu]

theorem prefix_iff (h : IsSpelling key spell) (hu : ∀ c ∈ u, Fixed c) :
    u <+: w.flatMap spell ↔ u <+: w.map key := by
  constructor
  · rintro ⟨r, hr⟩
    obtain ⟨x, y, rfl, hx, -⟩ := h.exists_prefix (fun c hc => (hu c hc).1) hr.symm
    rw [List.map_append, (h.eq_iff hu).mp hx]
    exact List.prefix_append _ _
  · rintro ⟨r, hr⟩
    obtain ⟨x, y, rfl, hx, -⟩ := List.map_eq_append_iff.mp hr.symm
    rw [List.flatMap_append, (h.eq_iff hu).mpr hx]
    exact List.prefix_append _ _

theorem infix_iff (h : IsSpelling key spell) (hu : ∀ c ∈ u, Fixed c) (hne : u ≠ []) :
    u <:+: w.flatMap spell ↔ u <:+: w.map key := by
  constructor
  · intro hin
    obtain ⟨x, hx, heq⟩ := h.exists_infix (fun c hc => (hu c hc).1) hne hin
    exact (h.eq_iff hu).mp heq ▸ hx.map key
  · rintro ⟨front, behind, heq⟩
    obtain ⟨xy, z, rfl, hxy, -⟩ := List.map_eq_append_iff.mp heq.symm
    obtain ⟨x, y, rfl, -, hy⟩ := List.map_eq_append_iff.mp hxy
    rw [List.flatMap_append, List.flatMap_append, (h.eq_iff hu).mpr hy]
    exact ⟨_, _, rfl⟩

end IsSpelling

end

end TypeFinder.Php

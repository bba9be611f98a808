import TypeFinder.Proofs.Php.Tiling

/-! Source text as its bytes. A byte is seen as the character of that number, so that the signs of the code are
    themselves, and what is more than one byte is a run of characters that are no ASCII. Nothing in the code tells
    one of those from another. -/

namespace TypeFinder.Php

def charOf (b : UInt8) : Char := Char.ofNat b.toNat

/-- The bytes of a text, each as the character of its number. -/
def octets (s : List Char) : List Char := (encode s).map charOf

/-- The character is ASCII, so that it is one byte. -/
def IsAscii (c : Char) : Prop := c.toNat < 128

instance : DecidablePred IsAscii := fun c => Nat.decLt c.toNat 128

/-- No character beyond ASCII is told from another. -/
def Uniform (p : Char → Bool) : Prop := ∀ c d, ¬ IsAscii c → ¬ IsAscii d → p c = p d

section
variable {c a b : Char} {s t u w : List Char} {p : Char → Bool}

theorem octets_append (s t : List Char) : octets (s ++ t) = octets s ++ octets t := by
  rw [octets, encode_append, List.map_append, octets, octets]

theorem octets_cons (c : Char) (s : List Char) : octets (c :: s) = octets [c] ++ octets s := octets_append [c] s

theorem length_octets (s : List Char) : (octets s).length = (encode s).length := List.length_map _

theorem octets_ne_nil (hs : s ≠ []) : octets s ≠ [] := fun h => encode_ne_nil hs (List.map_eq_nil_iff.mp h)

theorem toNat_charOf (b : UInt8) : (charOf b).toNat = b.toNat := by
  have hvalid : b.toNat.isValidChar := Or.inl (Nat.lt_trans b.toNat_lt (by decide))
  rw [charOf, Char.ofNat, dif_pos hvalid]
  rfl

theorem charOf_injective : Function.Injective charOf := by
  intro x y h
  have h := congrArg Char.toNat h
  rw [toNat_charOf, toNat_charOf] at h
  exact UInt8.toNat_inj.mp h

theorem ne_of_not_isAscii (hc : ¬ IsAscii c) (ha : IsAscii a) : c ≠ a := fun h => hc (h ▸ ha)

theorem octets_of_isAscii (hc : IsAscii c) : octets [c] = [c] := by
  have hval : c.val.toNat ≤ 127 := Nat.le_of_lt_succ hc
  have hbyte : charOf (UInt8.ofNat c.val.toNat) = c := by
    rw [← Char.toNat_inj, toNat_charOf, UInt8.toNat_ofNat', Nat.mod_eq_of_lt (by omega)]
    rfl
  have henc : encode [c] = [UInt8.ofNat c.val.toNat] := by
    simp only [encode, List.flatMap_cons, List.flatMap_nil, String.utf8EncodeChar, if_pos hval, List.append_nil]
  rw [octets, henc, List.map_singleton, hbyte]

theorem octets_cons_of_isAscii (hc : IsAscii c) (s : List Char) : octets (c :: s) = c :: octets s := by
  rw [octets_cons, octets_of_isAscii hc]
  rfl

theorem octets_eq_self (hs : ∀ c ∈ s, IsAscii c) : octets s = s := by
  induction s with
  | nil => rfl
  | cons c s ih =>
    obtain ⟨hc, hs⟩ := List.forall_mem_cons.mp hs
    rw [octets_cons_of_isAscii hc, ih hs]

theorem not_isAscii_of_mem_octets (hc : ¬ IsAscii c) (hb : b ∈ octets [c]) : ¬ IsAscii b := by
  obtain ⟨x, hx, rfl⟩ := List.mem_map.mp hb
  have hx : x ∈ String.utf8EncodeChar c := by simpa [encode] using hx
  have hle := le_of_mem_utf8EncodeChar (Nat.lt_of_succ_le (Nat.not_lt.mp hc)) hx
  rw [IsAscii, toNat_charOf]
  exact Nat.not_lt.mpr hle

theorem octets_cases (s : List Char) :
    s = [] ∨ ∃ c r, s = c :: r ∧ (IsAscii c ∧ octets s = c :: octets r ∨
      ¬ IsAscii c ∧ ∃ b u, octets [c] = b :: u ∧ octets s = b :: (u ++ octets r) ∧ ¬ IsAscii b) := by
  cases s with
  | nil => exact Or.inl rfl
  | cons c r =>
    refine Or.inr ⟨c, r, rfl, ?_⟩
    by_cases hc : IsAscii c
    · exact Or.inl ⟨hc, octets_cons_of_isAscii hc r⟩
    · obtain ⟨b, u, hb⟩ := List.exists_cons_of_ne_nil (octets_ne_nil (List.cons_ne_nil c []))
      refine Or.inr ⟨hc, b, u, hb, by rw [octets_cons, hb]; rfl, ?_⟩
      exact not_isAscii_of_mem_octets hc (hb ▸ List.mem_cons_self)

/-! ### The head of a text -/

theorem head?_octets_eq_some_iff (ha : IsAscii a) : (octets s).head? = some a ↔ s.head? = some a := by
  rcases octets_cases s with rfl | ⟨c, r, rfl, ⟨hc, h⟩ | ⟨hc, b, u, -, h, hb⟩⟩
  · rfl
  · rw [h]
    rfl
  · rw [h]
    simp only [List.head?_cons, Option.some.injEq]
    exact iff_of_false (fun h => hb (h ▸ ha)) (fun h => hc (h ▸ ha))

theorem any_head?_octets (hp : Uniform p) : (octets s).head?.any p = s.head?.any p := by
  rcases octets_cases s with rfl | ⟨c, r, rfl, ⟨hc, h⟩ | ⟨hc, b, u, -, h, hb⟩⟩
  · rfl
  · rw [h]
    rfl
  · rw [h]
    exact hp b c hb hc

/-! ### Runs and words -/

theorem takeWhile_octets (hp : Uniform p) (s : List Char) : (octets s).takeWhile p = octets (s.takeWhile p) := by
  induction s with
  | nil => rfl
  | cons c s ih =>
    have hall : ∀ b ∈ octets [c], p b = p c := by
      intro b hb
      by_cases hc : IsAscii c
      · rw [octets_of_isAscii hc, List.mem_singleton] at hb
        rw [hb]
      · exact hp b c (not_isAscii_of_mem_octets hc hb) hc
    rw [octets_cons]
    cases hpc : p c with
    | true =>
      rw [List.takeWhile_append_of_pos fun b hb => (hall b hb).trans hpc, ih, List.takeWhile_cons_of_pos hpc,
        octets_cons c (s.takeWhile p)]
    | false =>
      obtain ⟨b, u, hb⟩ := List.exists_cons_of_ne_nil (octets_ne_nil (List.cons_ne_nil c []))
      have hpb : p b = false := (hall b (hb ▸ List.mem_cons_self)).trans hpc
      rw [hb, List.cons_append, List.takeWhile_cons_of_neg (by simp [hpb]), List.takeWhile_cons_of_neg (by simp [hpc])]
      rfl

/-- The bytes of a character tell it from every other, whatever follows. -/
theorem octets_cons_append_inj {d : Char} {v : List Char} (h : octets (c :: s) ++ v = octets (d :: t)) :
    c = d ∧ octets s ++ v = octets t := by
  have hdecode (c : Char) (l : List UInt8) : (String.utf8EncodeChar c ++ l).toByteArray.utf8DecodeChar? 0 = some c := by
    rw [List.toByteArray_append]
    exact ByteArray.utf8DecodeChar?_utf8EncodeChar_append
  -- What follows is bytes as well, so that both sides can be read back.
  obtain ⟨l, rfl⟩ : ∃ l : List UInt8, v = l.map charOf := by
    obtain ⟨x, y, -, -, hy⟩ := List.map_eq_append_iff.mp h.symm
    exact ⟨y, hy.symm⟩
  have henc : String.utf8EncodeChar c ++ (encode s ++ l) = String.utf8EncodeChar d ++ encode t := by
    rw [octets, ← List.map_append] at h
    have h := List.map_injective_iff.mpr charOf_injective h
    simpa only [encode, List.flatMap_cons, List.append_assoc] using h
  have hcd : c = d := by
    have hd := hdecode c (encode s ++ l)
    rw [henc, hdecode] at hd
    exact (Option.some.inj hd).symm
  subst hcd
  rw [octets, octets, ← List.map_append, List.append_cancel_left henc]
  exact ⟨rfl, rfl⟩

theorem octets_prefix_iff : octets w <+: octets s ↔ w <+: s := by
  constructor
  · rintro ⟨v, hv⟩
    induction w generalizing s with
    | nil => exact List.nil_prefix
    | cons c w ih =>
      obtain ⟨d, r, rfl⟩ : ∃ d r, s = d :: r := by
        refine List.exists_cons_of_ne_nil ?_
        rintro rfl
        exact octets_ne_nil (List.cons_ne_nil c w) (List.append_eq_nil_iff.mp hv).1
      obtain ⟨rfl, hr⟩ := octets_cons_append_inj hv
      exact List.cons_prefix_cons.mpr ⟨rfl, ih hr⟩
  · rintro ⟨v, rfl⟩
    rw [octets_append]
    exact List.prefix_append _ _

/-! ### Newlines -/

/-- The byte of an ASCII character is no part of another one. -/
theorem count_octets (ha : IsAscii a) (s : List Char) : (octets s).count a = s.count a := by
  induction s with
  | nil => rfl
  | cons c s ih =>
    have hc : (octets [c]).count a = [c].count a := by
      by_cases hc : IsAscii c
      · rw [octets_of_isAscii hc]
      · have hne : c ≠ a := ne_of_not_isAscii hc ha
        rw [List.count_eq_zero_of_not_mem fun hmem => not_isAscii_of_mem_octets hc hmem ha,
          List.count_eq_zero_of_not_mem (by simpa using hne.symm)]
    rw [octets_cons, List.count_append, hc, ih, ← List.count_append]
    rfl

/-! ### Classes of characters -/

theorem val_of_not_isAscii (hc : ¬ IsAscii c) : 127 < c.val.toNat := Nat.not_le.mp fun h => hc (Nat.lt_succ_of_le h)

theorem isAlphanum_of_not_isAscii (hc : ¬ IsAscii c) : c.isAlphanum = false := by
  have hbeyond {d : Char} (hd : d.val.toNat ≤ 127) : ¬ c.val ≤ d.val := fun h =>
    absurd (UInt32.le_iff_toNat_le.mp h) (Nat.not_le.mpr (Nat.lt_of_le_of_lt hd (val_of_not_isAscii hc)))
  have hupper : c.isUpper = false := decide_eq_false fun h => hbeyond (d := 'Z') (by decide) h.2
  have hlower : c.isLower = false :=
    Bool.and_eq_false_iff.mpr (Or.inr (decide_eq_false (hbeyond (d := 'z') (by decide))))
  have hdigit : c.isDigit = false :=
    Bool.and_eq_false_iff.mpr (Or.inr (decide_eq_false (hbeyond (d := '9') (by decide))))
  show ((c.isUpper || c.isLower) || c.isDigit) = false
  rw [hupper, hlower, hdigit]
  rfl

theorem isNameStart_of_not_isAscii (hc : ¬ IsAscii c) : isNameStart c = true := by
  have hc : 0x80 ≤ c.toNat := Nat.not_lt.mp hc
  simp [isNameStart, hc]

theorem isNameChar_of_not_isAscii (hc : ¬ IsAscii c) : isNameChar c = true := by
  have hc : 0x80 ≤ c.toNat := Nat.not_lt.mp hc
  simp [isNameChar, hc]

theorem isQualifiedChar_of_not_isAscii (hc : ¬ IsAscii c) : isQualifiedChar c = true := by
  rw [isQualifiedChar, isNameChar_of_not_isAscii hc]
  rfl

theorem isBlank_of_not_isAscii (hc : ¬ IsAscii c) : isBlank c = false := by
  have hascii : ∀ a ∈ [' ', '\t'], IsAscii a := by simp [IsAscii]
  have hne : ∀ a ∈ [' ', '\t'], c ≠ a := fun a ha => ne_of_not_isAscii hc (hascii a ha)
  simpa [isBlank] using hne

theorem isSpace_of_not_isAscii (hc : ¬ IsAscii c) : isSpace c = false := by
  have hascii : ∀ a ∈ [' ', '\t', '\n', '\r', '\x0c'], IsAscii a := by simp [IsAscii]
  have hne : ∀ a ∈ [' ', '\t', '\n', '\r', '\x0c'], c ≠ a := fun a ha => ne_of_not_isAscii hc (hascii a ha)
  simpa [isSpace, and_assoc] using hne

theorem isNumberChar_of_not_isAscii (hc : ¬ IsAscii c) : isNumberChar c = false := by
  have hascii : ∀ a ∈ ['_', '.'], IsAscii a := by simp [IsAscii]
  have hne : ∀ a ∈ ['_', '.'], c ≠ a := fun a ha => ne_of_not_isAscii hc (hascii a ha)
  simpa [isNumberChar, isAlphanum_of_not_isAscii hc] using hne

theorem Uniform.of_forall {q : Bool} (h : ∀ c, ¬ IsAscii c → p c = q) : Uniform p := fun c d hc hd => by
  rw [h c hc, h d hd]

theorem uniform_isNameStart : Uniform isNameStart := .of_forall fun _ => isNameStart_of_not_isAscii

theorem uniform_isNameChar : Uniform isNameChar := .of_forall fun _ => isNameChar_of_not_isAscii

theorem uniform_isQualifiedChar : Uniform isQualifiedChar := .of_forall fun _ => isQualifiedChar_of_not_isAscii

theorem uniform_isBlank : Uniform isBlank := .of_forall fun _ => isBlank_of_not_isAscii

theorem uniform_isSpace : Uniform isSpace := .of_forall fun _ => isSpace_of_not_isAscii

theorem uniform_isNumberChar : Uniform isNumberChar := .of_forall fun _ => isNumberChar_of_not_isAscii

theorem isAscii_of_toLower (h : IsAscii c.toLower) : IsAscii c := by
  by_contra hc
  have hupper : ¬ (c.val ≥ 'A'.val ∧ c.val ≤ 'Z'.val) := fun h =>
    absurd (UInt32.le_iff_toNat_le.mp h.2) (Nat.not_le.mpr (Nat.lt_trans (by decide) (val_of_not_isAscii hc)))
  have hlower : c.toLower = c := dif_neg hupper
  exact hc (hlower ▸ h)

theorem IsOpenTag.isAscii {tag : List Char} (h : IsOpenTag tag) : ∀ c ∈ tag, IsAscii c := by
  rcases h with rfl | ⟨word, rfl, hword⟩
  · simp [IsAscii]
  · intro c hc
    rcases List.mem_cons.mp hc with rfl | hc
    · decide
    rcases List.mem_cons.mp hc with rfl | hc
    · decide
    have hlower : c.toLower ∈ ['p', 'h', 'p'] := hword ▸ List.mem_map_of_mem hc
    have hascii : ∀ d ∈ ['p', 'h', 'p'], IsAscii d := by simp [IsAscii]
    exact isAscii_of_toLower (hascii _ hlower)

theorem openTag?_octets (s : List Char) : openTag? (octets s) = openTag? s := by
  refine Option.ext fun k => ?_
  rw [openTag?_eq_some_iff, openTag?_eq_some_iff]
  constructor
  · rintro ⟨tag, rest, heq, htag, hlen⟩
    have hpre : octets tag <+: octets s := ⟨rest, by rw [octets_eq_self htag.isAscii, heq]⟩
    obtain ⟨r, rfl⟩ := octets_prefix_iff.mp hpre
    exact ⟨tag, r, rfl, htag, hlen⟩
  · rintro ⟨tag, rest, rfl, htag, hlen⟩
    exact ⟨tag, octets rest, by rw [octets_append, octets_eq_self htag.isAscii], htag, hlen⟩

end

end TypeFinder.Php

import Mathlib.Algebra.Order.Group.Nat
import TypeFinder.Text.Utf8

/-! What bytes are read as. A character that they hold in full is read as itself. What they hold besides is read as
    replacement characters; how many there are, and which bytes each of them stands for, is a matter of choice, and
    `decode` makes one of the possible choices. -/

namespace TypeFinder.Text

/-- The text is a reading of the bytes, with one replacement character or several for bytes that are none. -/
inductive Reads : List UInt8 → List Char → Prop
  | nil : Reads [] []
  | char {c : Char} {bytes : List UInt8} {s : List Char} : Reads bytes s →
      Reads (String.utf8EncodeChar c ++ bytes) (c :: s)
  | bad {x bytes : List UInt8} {n : Nat} {s : List Char} : x ≠ [] → (∀ b ∈ x, 0x80 ≤ b.toNat) → 0 < n →
      Reads bytes s → Reads (x ++ bytes) (List.replicate n replacement ++ s)

/-! ### What is pending -/

/-- The last `k` bytes of the character of number `n`, if it has more than those. -/
def continuation (n : Nat) : Nat → List UInt8
  | 0 => []
  | k + 1 => UInt8.ofNat (n / 64 ^ k % 64 + 0x80) :: continuation n k

/-- The bytes `x` are pending. Whatever bytes follow them from within the bounds, a character comes of it. -/
structure Begun (x : List UInt8) (bits owed low high : Nat) : Prop where
  ne_nil : x ≠ []
  beyond : ∀ b ∈ x, 0x80 ≤ b.toNat
  owes : 0 < owed
  lower : 0x80 ≤ low
  upper : high ≤ 0xBF
  char : ∀ n, n / 64 ^ owed = bits → low ≤ n / 64 ^ (owed - 1) % 64 + 0x80 → n / 64 ^ (owed - 1) % 64 + 0x80 ≤ high →
    String.utf8EncodeChar (Char.ofNat n) = x ++ continuation n owed

section
variable {x bytes : List UInt8} {b : UInt8} {bits owed low high n : Nat}

theorem utf8EncodeChar_ofNat (hn : n.isValidChar) :
    String.utf8EncodeChar (Char.ofNat n) =
      if n ≤ 127 then [UInt8.ofNat n]
      else if n ≤ 2047 then [UInt8.ofNat (n / 64 % 32 + 192), UInt8.ofNat (n % 64 + 128)]
      else if n ≤ 65535 then
        [UInt8.ofNat (n / 4096 % 16 + 224), UInt8.ofNat (n / 64 % 64 + 128), UInt8.ofNat (n % 64 + 128)]
      else [UInt8.ofNat (n / 262144 % 8 + 240), UInt8.ofNat (n / 4096 % 64 + 128), UInt8.ofNat (n / 64 % 64 + 128),
        UInt8.ofNat (n % 64 + 128)] := by
  have hval : (Char.ofNat n).val.toNat = n := by
    rw [Char.ofNat, dif_pos hn]
    rfl
  simp only [String.utf8EncodeChar, hval]

theorem ofNat_eq {k : Nat} (h : k = b.toNat) : UInt8.ofNat k = b := by rw [h, UInt8.ofNat_toNat]

theorem begun_two (hlow : 0xC2 ≤ b.toNat) (hhigh : b.toNat ≤ 0xDF) : Begun [b] (b.toNat - 0xC0) 1 0x80 0xBF := by
  refine ⟨List.cons_ne_nil b [], by simp; omega, Nat.one_pos, by omega, by omega, fun n hbits _ _ => ?_⟩
  rw [Nat.pow_one] at hbits
  have hfirst : UInt8.ofNat (n / 64 % 32 + 192) = b := ofNat_eq (by omega)
  rw [utf8EncodeChar_ofNat (Or.inl (by omega)), if_neg (by omega), if_pos (by omega), hfirst]
  simp [continuation]

/-- Neither a number that two bytes have room for nor a surrogate is written in three. -/
theorem begun_three (hb : b.toNat = 0xE0 + bits) (hbits : bits < 16) (hlower : 0x80 ≤ low) (hupper : high ≤ 0xBF)
    (hshort : bits = 0 → 0xA0 ≤ low) (hsurrogate : bits = 13 → high ≤ 0x9F) : Begun [b] bits 2 low high := by
  refine ⟨List.cons_ne_nil b [], by simp; omega, by omega, hlower, hupper, fun n hn hlow hhigh => ?_⟩
  simp only [Nat.reducePow, Nat.reduceSub] at hn hlow hhigh
  have hfirst : UInt8.ofNat (n / 4096 % 16 + 224) = b := ofNat_eq (by omega)
  have hvalid : n.isValidChar := by
    simp only [Nat.isValidChar]
    omega
  rw [utf8EncodeChar_ofNat hvalid, if_neg (by omega), if_neg (by omega), if_pos (by omega), hfirst]
  simp [continuation]

/-- Neither a number that three bytes have room for nor one beyond the last character is written in four. -/
theorem begun_four (hb : b.toNat = 0xF0 + bits) (hbits : bits ≤ 4) (hlower : 0x80 ≤ low) (hupper : high ≤ 0xBF)
    (hshort : bits = 0 → 0x90 ≤ low) (hlast : bits = 4 → high ≤ 0x8F) : Begun [b] bits 3 low high := by
  refine ⟨List.cons_ne_nil b [], by simp; omega, by omega, hlower, hupper, fun n hn hlow hhigh => ?_⟩
  simp only [Nat.reducePow, Nat.reduceSub] at hn hlow hhigh
  have hfirst : UInt8.ofNat (n / 262144 % 8 + 240) = b := ofNat_eq (by omega)
  rw [utf8EncodeChar_ofNat (Or.inr (by omega)), if_neg (by omega), if_neg (by omega), if_neg (by omega), hfirst]
  simp [continuation]

/-- A byte beyond ASCII starts a character of several, or none at all. -/
theorem firstByte_cases (hb : 0x80 ≤ b.toNat) :
    firstByte b.toNat = (.none, some replacement) ∨
      ∃ bits owed low high, firstByte b.toNat = (.some bits owed low high, none) ∧ Begun [b] bits owed low high := by
  unfold firstByte
  rw [if_neg (Nat.not_lt.mpr hb)]
  split_ifs with h2 hE0 hE1 hED hEE hF0 hF1 hF4
  · exact Or.inr ⟨_, _, _, _, rfl, begun_two h2.1 h2.2⟩
  · exact Or.inr ⟨_, _, _, _, rfl, begun_three hE0 (by omega) (by omega) (by omega) (by omega) (by omega)⟩
  · exact Or.inr ⟨_, _, _, _, rfl, begun_three (by omega) (by omega) (by omega) (by omega) (by omega) (by omega)⟩
  · exact Or.inr ⟨_, _, _, _, rfl, begun_three hED (by omega) (by omega) (by omega) (by omega) (by omega)⟩
  · exact Or.inr ⟨_, _, _, _, rfl, begun_three (by omega) (by omega) (by omega) (by omega) (by omega) (by omega)⟩
  · exact Or.inr ⟨_, _, _, _, rfl, begun_four hF0 (by omega) (by omega) (by omega) (by omega) (by omega)⟩
  · exact Or.inr ⟨_, _, _, _, rfl, begun_four (by omega) (by omega) (by omega) (by omega) (by omega) (by omega)⟩
  · exact Or.inr ⟨_, _, _, _, rfl, begun_four hF4 (by omega) (by omega) (by omega) (by omega) (by omega)⟩
  · exact Or.inl rfl

namespace Begun

/-- A byte within the bounds is the last of the character. -/
theorem whole (h : Begun x bits 1 low high) (hlow : low ≤ b.toNat) (hhigh : b.toNat ≤ high) :
    String.utf8EncodeChar (Char.ofNat (bits * 64 + (b.toNat - 0x80))) = x ++ [b] := by
  have hlower := h.lower
  have hupper := h.upper
  have hchar := h.char (bits * 64 + (b.toNat - 0x80))
  simp only [Nat.reducePow, Nat.reduceSub, Nat.div_one] at hchar
  have hlast : UInt8.ofNat ((bits * 64 + (b.toNat - 0x80)) % 64 + 0x80) = b := ofNat_eq (by omega)
  rw [hchar (by omega) (by omega) (by omega), continuation, continuation, pow_zero, Nat.div_one, hlast]

/-- A byte within the bounds is pending with the others, when the character has more. -/
theorem more (h : Begun x bits (owed + 2) low high) (hlow : low ≤ b.toNat) (hhigh : b.toNat ≤ high) :
    Begun (x ++ [b]) (bits * 64 + (b.toNat - 0x80)) (owed + 1) 0x80 0xBF := by
  have hlower := h.lower
  have hupper := h.upper
  refine ⟨by simp, ?_, owed.succ_pos, by omega, by omega, fun n hn _ _ => ?_⟩
  · simp only [List.mem_append, List.mem_singleton]
    rintro d (hd | rfl)
    · exact h.beyond d hd
    · omega
  have hbits : n / 64 ^ (owed + 2) = bits := by
    rw [pow_succ, ← Nat.div_div_eq_div_mul, hn]
    omega
  have hnext : n / 64 ^ (owed + 1) % 64 + 0x80 = b.toNat := by
    rw [hn]
    omega
  rw [h.char n hbits (hnext ▸ hlow) (hnext ▸ hhigh), continuation, ofNat_eq hnext, List.append_assoc]
  rfl

end Begun

/-! ### Decoding -/

theorem utf8EncodeChar_ofNat_of_lt (hb : b.toNat < 0x80) : String.utf8EncodeChar (Char.ofNat b.toNat) = [b] := by
  rw [utf8EncodeChar_ofNat (Or.inl (by omega)), if_pos (by omega), UInt8.ofNat_toNat]

theorem Reads.replace {s : List Char} (hx : x ≠ []) (hall : ∀ b ∈ x, 0x80 ≤ b.toNat) (h : Reads bytes s) :
    Reads (x ++ bytes) (replacement :: s) := .bad hx hall Nat.one_pos h

/-- Bytes that a text takes are read as that text. -/
theorem Reads.append_left {s : List Char} (h : Reads bytes s) (t : List Char) :
    Reads (t.flatMap String.utf8EncodeChar ++ bytes) (t ++ s) := by
  induction t with
  | nil => exact h
  | cons c t ih =>
    rw [List.flatMap_cons, List.append_assoc]
    exact .char ih

/-- What the decoder adds to the characters before is a reading of the bytes ahead, with those that are pending in
    front of them. -/
theorem reads_decodeReverse (bytes : List UInt8) (read : List Char) (p : Pending) :
    ∃ s, decodeReverse read p bytes = s.reverse ++ read ∧
      match p with
      | .none => Reads bytes s
      | .some bits owed low high => ∀ x, Begun x bits owed low high → Reads (x ++ bytes) s := by
  induction bytes generalizing read p with
  | nil =>
    cases p with
    | none => exact ⟨[], rfl, .nil⟩
    | some => exact ⟨[replacement], rfl, fun x hx => .replace hx.ne_nil hx.beyond .nil⟩
  | cons b bytes ih =>
    have hfirst (read : List Char) : ∃ s, Reads (b :: bytes) s ∧
        decodeReverse ((firstByte b.toNat).2.toList ++ read) (firstByte b.toNat).1 bytes = s.reverse ++ read := by
      by_cases hb : b.toNat < 0x80
      · obtain ⟨s, hs, hreads⟩ := ih (Char.ofNat b.toNat :: read) .none
        have hbyte : firstByte b.toNat = (.none, some (Char.ofNat b.toNat)) := if_pos hb
        refine ⟨Char.ofNat b.toNat :: s, ?_, by rw [hbyte]; simpa using hs⟩
        have hchar := Reads.char (c := Char.ofNat b.toNat) hreads
        rwa [utf8EncodeChar_ofNat_of_lt hb] at hchar
      · have hbeyond : ∀ d ∈ [b], 0x80 ≤ d.toNat := by simpa using hb
        rcases firstByte_cases (Nat.not_lt.mp hb) with hbyte | ⟨bits, owed, low, high, hbyte, hbegun⟩
        · obtain ⟨s, hs, hreads⟩ := ih (replacement :: read) .none
          exact ⟨replacement :: s, hreads.replace (List.cons_ne_nil b []) hbeyond, by rw [hbyte]; simpa using hs⟩
        · obtain ⟨s, hs, hreads⟩ := ih read (.some bits owed low high)
          exact ⟨s, hreads [b] hbegun, by rw [hbyte]; exact hs⟩
    rw [decodeReverse]
    cases p with
    | none =>
      obtain ⟨s, hreads, hs⟩ := hfirst read
      exact ⟨s, hs, hreads⟩
    | some bits owed low high =>
      by_cases hin : low ≤ b.toNat ∧ b.toNat ≤ high
      · by_cases howed : owed ≤ 1
        · -- The character is whole.
          obtain ⟨s, hs, hreads⟩ := ih (Char.ofNat (bits * 64 + (b.toNat - 0x80)) :: read) .none
          refine ⟨Char.ofNat (bits * 64 + (b.toNat - 0x80)) :: s, by simpa [decodeByte, hin, howed] using hs, ?_⟩
          intro x hx
          obtain rfl : owed = 1 := Nat.le_antisymm howed hx.owes
          have hchar := Reads.char (c := Char.ofNat (bits * 64 + (b.toNat - 0x80))) hreads
          rwa [hx.whole hin.1 hin.2, List.append_assoc] at hchar
        · obtain ⟨owed, rfl⟩ : ∃ k, owed = k + 2 := ⟨owed - 2, by omega⟩
          obtain ⟨s, hs, hreads⟩ := ih read (.some (bits * 64 + (b.toNat - 0x80)) (owed + 1) 0x80 0xBF)
          refine ⟨s, by simpa [decodeByte, hin] using hs, fun x hx => ?_⟩
          simpa using hreads _ (hx.more hin.1 hin.2)
      · -- What was pending is no character, and the byte is looked at afresh.
        obtain ⟨s, hreads, hs⟩ := hfirst (replacement :: read)
        refine ⟨replacement :: s, by simpa [decodeByte, hin] using hs, fun x hx => ?_⟩
        exact hreads.replace hx.ne_nil hx.beyond

/-- The decoder reads any bytes as one of their readings. -/
theorem reads_decode (bytes : List UInt8) : Reads bytes (decode bytes) := by
  obtain ⟨s, hs, hreads⟩ := reads_decodeReverse bytes [] .none
  rw [decode, hs, List.append_nil, List.reverse_reverse]
  exact hreads

end

end TypeFinder.Text

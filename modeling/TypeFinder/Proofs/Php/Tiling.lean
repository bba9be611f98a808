import TypeFinder.Php.Token
import TypeFinder.Proofs.Php.Pieces

/-! Tokens and gaps tile the source. Every token has a span of bytes; the spans are in order and do not meet, the
    text of a token is what stands in its span, and its line counts the newlines before it. What the spans leave
    open is a sequence of regions and nothing else. -/

namespace TypeFinder.Php

/-! ### Bytes -/

/-- The bytes of a source text. -/
def bytes (source : String) : List UInt8 := source.toUTF8.data.toList

/-- The bytes that characters take. -/
def encode (s : List Char) : List UInt8 := s.flatMap String.utf8EncodeChar

theorem bytes_eq_encode (source : String) : bytes source = encode source.toList := by
  rw [bytes, encode, String.toUTF8_eq_toByteArray, ← String.utf8Encode_toList, List.utf8Encode,
    List.data_toByteArray]

theorem encode_append (s t : List Char) : encode (s ++ t) = encode s ++ encode t := List.flatMap_append

theorem encode_ne_nil {s : List Char} (hs : s ≠ []) : encode s ≠ [] := by
  obtain ⟨c, r, rfl⟩ := List.exists_cons_of_ne_nil hs
  rw [encode, List.flatMap_cons]
  exact fun h => String.utf8EncodeChar_ne_nil (List.append_eq_nil_iff.mp h).1

/-- Every byte of a character that is not ASCII has its high bit set. -/
theorem le_of_mem_utf8EncodeChar {c : Char} {b : UInt8} (hc : 127 < c.val.toNat) (hb : b ∈ String.utf8EncodeChar c) :
    128 ≤ b.toNat := by
  simp only [String.utf8EncodeChar, if_neg (Nat.not_le.mpr hc)] at hb
  split at hb
  · simp only [List.mem_cons, List.not_mem_nil, or_false] at hb
    rcases hb with rfl | rfl <;> rw [UInt8.toNat_ofNat'] <;> omega
  · split at hb
    · simp only [List.mem_cons, List.not_mem_nil, or_false] at hb
      rcases hb with rfl | rfl | rfl <;> rw [UInt8.toNat_ofNat'] <;> omega
    · simp only [List.mem_cons, List.not_mem_nil, or_false] at hb
      rcases hb with rfl | rfl | rfl | rfl <;> rw [UInt8.toNat_ofNat'] <;> omega

theorem count_utf8EncodeChar_newline (c : Char) : (String.utf8EncodeChar c).count 10 = [c].count '\n' := by
  have hc : c = '\n' ↔ c.val.toNat = 10 := by
    rw [Char.ext_iff, ← UInt32.toNat_inj]
    rfl
  rcases Nat.lt_or_ge 127 c.val.toNat with hlong | hshort
  · rw [List.count_eq_zero_of_not_mem, List.count_eq_zero_of_not_mem]
    · rw [List.mem_singleton, eq_comm, hc]
      omega
    · intro hmem
      have := le_of_mem_utf8EncodeChar hlong hmem
      revert this
      decide
  · have hbyte : UInt8.ofNat c.val.toNat = 10 ↔ c = '\n' := by
      rw [hc, ← UInt8.toNat_inj, UInt8.toNat_ofNat', Nat.mod_eq_of_lt (by omega)]
      rfl
    simp only [String.utf8EncodeChar, if_pos hshort, List.count_singleton, beq_iff_eq, hbyte]

/-- The byte of a newline is no part of another character. -/
theorem count_encode_newline (s : List Char) : (encode s).count 10 = s.count '\n' := by
  induction s with
  | nil => rfl
  | cons c r ih =>
    rw [encode, List.flatMap_cons, List.count_append, count_utf8EncodeChar_newline, ← encode, ih, ← List.count_append]
    rfl

/-! ### Spans and what lies between them -/

/-- A token and its bytes in the source: from `start` on, before `stop`. -/
structure Placed where
  token : Token
  start : Nat
  stop : Nat
  deriving DecidableEq, Repr

/-- The tokens among pieces, the first of which starts at byte `n`. -/
def placedFrom (n : Nat) : List Piece → List Placed
  | [] => []
  | p :: ps =>
    let stop := n + (encode p.text).length
    match p.token? with
    | some t => ⟨t, n, stop⟩ :: placedFrom stop ps
    | none => placedFrom stop ps

/-- The tokens of a source text with their spans. -/
def placed (source : String) : List Placed := placedFrom 0 (pieces source)

/-- How the source is read behind a token: only a closing tag leaves PHP code. -/
def Token.after (t : Token) : Mode := if t.text = "?>" then .html else .code

/-- Bytes that belong to no token: how they are read, where they start and where they stop. -/
structure Hole where
  mode : Mode
  start : Nat
  stop : Nat

/-- The holes before, between and behind tokens, from byte `n` on in a source of `size` bytes. -/
def holes (size : Nat) (m : Mode) (n : Nat) : List Placed → List Hole
  | [] => [⟨m, n, size⟩]
  | p :: ps => ⟨m, n, p.start⟩ :: holes size p.token.after p.stop ps

/-- Regions one after the other, up to where `rest` follows. Inline HTML only comes first, and only the last
    region in the source may be left open. -/
inductive Fills : Mode → List Char → List Char → Prop
  | nil {rest : List Char} : Fills .code [] rest
  | region {k : Gap} {t gap rest : List Char} : Region k t (gap ++ rest) → Fills .code gap rest →
      Fills k.mode (t ++ gap) rest
  | unclosed {k : Gap} {t : List Char} : Unclosed k t → Fills k.mode t []

/-- The hole is filled by regions. -/
def Hole.IsFilled (source : String) (h : Hole) : Prop :=
  ∃ before gap rest, source.toList = before ++ gap ++ rest ∧ h.start = (encode before).length ∧
    h.stop = (encode (before ++ gap)).length ∧ Fills h.mode gap rest

/-- The tokens with their spans, and regions between them, make up the source. -/
structure Tiling (source : String) (ps : List Placed) : Prop where
  tokens : ps.map (·.token) = tokens source
  nonempty : ∀ p ∈ ps, p.start < p.stop
  ordered : ps.Pairwise fun p q => p.stop ≤ q.start
  within : ∀ p ∈ ps, p.stop ≤ (bytes source).length
  text : ∀ p ∈ ps, (bytes source).extract p.start p.stop = bytes p.token.text
  line : ∀ p ∈ ps, p.token.line = 1 + ((bytes source).take p.start).count 10
  holes : ∀ h ∈ holes (bytes source).length .html 0 ps, h.IsFilled source

/-! ### Tiles -/

/-- Behind the text `before`, the tokens and the regions between them make up the text `s`, which is read in
    mode `m`. -/
inductive Tiles : Mode → List Char → List Char → List Placed → Prop
  | last {m : Mode} {before gap : List Char} : Fills m gap [] → Tiles m before gap []
  | token {m : Mode} {before gap text rest : List Char} {t : Token} {ps : List Placed} : Fills m gap (text ++ rest) →
      text ≠ [] → t.text = String.ofList text → t.line = 1 + (before ++ gap).count '\n' →
      Tiles t.after (before ++ gap ++ text) rest ps →
      Tiles m before (gap ++ (text ++ rest))
        (⟨t, (encode (before ++ gap)).length, (encode (before ++ gap ++ text)).length⟩ :: ps)

section
variable {k : Gap} {kind : Shape} {m : Mode} {line : Nat} {c : Char} {before s t rest : List Char} {ps : List Placed}

/-- A region in front goes to the first hole. -/
theorem Tiles.region (hr : Region k t s) (h : Tiles .code (before ++ t) s ps) : Tiles k.mode before (t ++ s) ps := by
  generalize hm : Mode.code = m at h
  generalize hb : before ++ t = b at h
  cases h with
  | last hfills =>
    subst hm
    exact .last (.region (by simpa using hr) hfills)
  | @token _ _ gap text rest _ _ hfills hne htext hline htail =>
    subst hm hb
    rw [← List.append_assoc t]
    simp only [List.append_assoc before t gap] at hline htail ⊢
    exact .token (.region hr hfills) hne htext hline htail

theorem Word.text_iff (h : Word kind t rest) : t = ['?', '>'] ↔ kind = .closeTag := by
  have hname : isNameStart '?' = false := by decide
  have hdigit : '?'.isDigit = false := by decide
  cases h with
  | name hc => simp; rintro rfl; simp [hname] at hc
  | number hc => simp; rintro rfl; simp [hdigit] at hc
  | _ => simp [separator]

theorem Word.token? (h : Word kind (c :: t) rest) (line : Nat) :
    ∃ u, Piece.token? ⟨kind, c, t, line⟩ = some u ∧ u.text = String.ofList (c :: t) ∧ u.line = line ∧
      u.after = kind.after := by
  have hafter : (if String.ofList (c :: t) = "?>" then Mode.html else .code) = kind.after := by
    have heq : String.ofList (c :: t) = "?>" ↔ kind = .closeTag := by
      rw [← h.text_iff, ← String.toList_inj, String.toList_ofList]
      rfl
    by_cases hk : kind = .closeTag
    · rw [if_pos (heq.mpr hk), hk]
      rfl
    · rw [if_neg (mt heq.mp hk)]
      cases h with
      | closeTag => exact absurd rfl hk
      | _ => rfl
  cases h with
  | closeTag => exact ⟨_, rfl, rfl, rfl, hafter⟩
  | _ => exact ⟨_, rfl, rfl, rfl, hafter⟩

theorem tiles_of_pieces {qs : List Piece} (h : Pieces m line s qs) (hline : line = 1 + before.count '\n') :
    Tiles m before s (placedFrom (encode before).length qs) := by
  induction h generalizing before with
  | @nil m _ =>
    refine .last ?_
    cases m with
    | html => exact .unclosed (k := .html) (.html fun tag htag hin => htag.ne_nil (List.eq_nil_of_infix_nil hin))
    | code => exact .nil
  | @cons _ line kind c t rest qs hcuts hqs ih =>
    have hlen : (encode before).length + (encode (c :: t)).length = (encode (before ++ c :: t)).length := by
      rw [encode_append, List.length_append]
    have ih := @ih (before ++ c :: t) (by rw [List.count_append]; omega)
    cases hcuts with
    | region hr =>
      simp only [placedFrom, Piece.token?, Piece.text, hlen]
      exact ih.region hr
    | unclosed hu =>
      rw [hqs.eq_nil, List.append_nil]
      exact .last (.unclosed hu)
    | word hw =>
      obtain ⟨u, hu, htext, hl, hafter⟩ := hw.token? line
      simp only [placedFrom, hu, Piece.text, hlen]
      have htile : Tiles .code before ([] ++ (c :: t ++ rest))
          (⟨u, (encode (before ++ [])).length, (encode (before ++ [] ++ c :: t)).length⟩ ::
            placedFrom (encode (before ++ c :: t)).length qs) := by
        refine .token .nil (List.cons_ne_nil c t) htext ?_ ?_
        · rw [hl, hline, List.append_nil]
        · rw [hafter, List.append_nil]
          exact ih
      rwa [List.append_nil] at htile

theorem map_token_placedFrom (n : Nat) (qs : List Piece) :
    (placedFrom n qs).map (·.token) = qs.filterMap Piece.token? := by
  induction qs generalizing n with
  | nil => rfl
  | cons q qs ih => cases hq : q.token? <;> simp [placedFrom, hq, ih]

theorem map_token_placed (source : String) : (placed source).map (·.token) = tokens source := map_token_placedFrom 0 _

/-! ### Reading the tiling off -/

/-- Where the token stands among characters. -/
def Placed.Stands (s : List Char) (p : Placed) : Prop :=
  ∃ before text rest, s = before ++ text ++ rest ∧ text ≠ [] ∧ p.token.text = String.ofList text ∧
    p.token.line = 1 + before.count '\n' ∧ p.start = (encode before).length ∧ p.stop = (encode (before ++ text)).length

namespace Tiles

theorem stands (h : Tiles m before s ps) : ∀ p ∈ ps, p.Stands (before ++ s) := by
  induction h with
  | last => intro p hp; cases hp
  | @token _ before gap text rest t ps _ hne htext hline _ ih =>
    intro p hp
    rcases List.mem_cons.mp hp with rfl | hp
    · exact ⟨before ++ gap, text, rest, by simp, hne, htext, hline, rfl, rfl⟩
    · simpa using ih p hp

theorem le_start (h : Tiles m before s ps) : ∀ p ∈ ps, (encode before).length ≤ p.start := by
  induction h with
  | last => intro p hp; cases hp
  | token _ _ _ _ _ ih =>
    intro p hp
    rcases List.mem_cons.mp hp with rfl | hp
    · simp [encode_append]
    · have := ih p hp
      simp only [encode_append, List.length_append] at this
      omega

theorem ordered (h : Tiles m before s ps) : ps.Pairwise fun p q => p.stop ≤ q.start := by
  induction h with
  | last => exact .nil
  | token _ _ _ _ htail ih => exact .cons htail.le_start ih

theorem isFilled {source : String} (h : Tiles m before s ps) (hs : source.toList = before ++ s) :
    ∀ hole ∈ holes (bytes source).length m (encode before).length ps, hole.IsFilled source := by
  induction h with
  | @last m before gap hfills =>
    intro hole hmem
    obtain rfl := List.mem_singleton.mp hmem
    exact ⟨before, gap, [], by rw [hs, List.append_nil], rfl, by rw [bytes_eq_encode, hs], hfills⟩
  | @token m before gap text rest t ps hfills hne htext hline htail ih =>
    intro hole hmem
    rcases List.mem_cons.mp hmem with rfl | hmem
    · exact ⟨before, gap, text ++ rest, by rw [hs, List.append_assoc], rfl, rfl, hfills⟩
    · exact ih (by rw [hs]; simp) hole hmem

end Tiles

/-- The tokens of every source text tile it. -/
theorem tiling_placed (source : String) : Tiling source (placed source) := by
  have h : Tiles .html [] source.toList (placed source) := tiles_of_pieces (pieces_piecesFrom _ _ _) rfl
  have hstands : ∀ p ∈ placed source, p.Stands source.toList := h.stands
  have hbytes := bytes_eq_encode source
  refine ⟨map_token_placed source, fun p hp => ?_, h.ordered, fun p hp => ?_, fun p hp => ?_, fun p hp => ?_,
    h.isFilled rfl⟩
  all_goals obtain ⟨before, text, rest, hs, hne, htext, hline, hstart, hstop⟩ := hstands p hp
  · have := List.length_pos_iff.mpr (encode_ne_nil hne)
    rw [hstart, hstop, encode_append, List.length_append]
    omega
  · rw [hstop, hbytes, hs, encode_append _ rest, List.length_append]
    omega
  · rw [hstart, hstop, hbytes, hs, bytes_eq_encode, htext, String.toList_ofList]
    simp [encode_append]
  · rw [hline, hstart, hbytes, hs, List.append_assoc, encode_append, List.take_left, count_encode_newline]

end

end TypeFinder.Php

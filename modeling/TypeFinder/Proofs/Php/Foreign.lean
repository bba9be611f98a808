import TypeFinder.Proofs.Php.Renaming
import TypeFinder.Proofs.Text.Decoding

/-! Foreign text. Where characters beyond ASCII stand in a source, and which declarations are found, does not depend
    on what these characters are, nor on how many of them stand together. So it makes no difference how bytes are
    decoded that are no text. -/

namespace TypeFinder.Php

/-! ### Runs that give way to others -/

/-- A run of characters beyond ASCII. -/
def IsForeign (s : List Char) : Prop := s ≠ [] ∧ ∀ c ∈ s, ¬ IsAscii c

/-- Each run of characters beyond ASCII, taken as long as it goes, gives way to such a run; all else stands. -/
inductive Replaced : List Char → List Char → Prop
  | nil : Replaced [] []
  | ascii {c : Char} {s t : List Char} : IsAscii c → Replaced s t → Replaced (c :: s) (c :: t)
  | run {u v s t : List Char} : IsForeign u → IsForeign v → (∀ c ∈ s.head?, IsAscii c) → Replaced s t →
      Replaced (u ++ s) (v ++ t)

/-- A part of a text: an ASCII character, or a run beyond ASCII with the one that it gives way to. -/
inductive Part
  | ascii (c : Char) (hc : IsAscii c)
  | run (old new : List Char) (hold : IsForeign old) (hnew : IsForeign new)

namespace Part

/-- The part as it was. -/
def old : Part → List Char
  | ascii c _ => [c]
  | run old .. => old

/-- The part as it is when runs have given way to others. -/
def new : Part → List Char
  | ascii c _ => [c]
  | run _ new .. => new

/-- All runs have one key. -/
def key : Part → Char
  | ascii c _ => c
  | run .. => Text.replacement

theorem not_isAscii_replacement : ¬ IsAscii Text.replacement := by decide

theorem isSpelling_old : IsSpelling key old
  | ascii _ hc => .ascii hc rfl
  | run _ _ hold _ => .beyond not_isAscii_replacement hold.1 hold.2

theorem isSpelling_new : IsSpelling key new
  | ascii _ hc => .ascii hc rfl
  | run _ _ _ hnew => .beyond not_isAscii_replacement hnew.1 hnew.2

end Part

/-- No run ends where another one starts. -/
def Maximal (w : List Part) : Prop := w.IsChain fun a b => IsAscii a.key ∨ IsAscii b.key

section
variable {u v s t t' : List Char} {w : List Part} {bytes : List UInt8}

theorem IsForeign.exists_cons (hu : IsForeign u) : ∃ c r, u = c :: r ∧ ¬ IsAscii c := by
  obtain ⟨c, r, rfl⟩ := List.exists_cons_of_ne_nil hu.1
  exact ⟨c, r, rfl, hu.2 c List.mem_cons_self⟩

theorem IsForeign.append (hu : IsForeign u) (hv : IsForeign v) : IsForeign (u ++ v) :=
  ⟨List.append_ne_nil_of_left_ne_nil hu.1 v, fun c hc => (List.mem_append.mp hc).elim (hu.2 c) (hv.2 c)⟩

theorem isAscii_head_iff : (∀ c ∈ (w.flatMap Part.old).head?, IsAscii c) ↔ ∀ a ∈ w.head?, IsAscii a.key := by
  cases w with
  | nil => simp
  | cons a w =>
    cases a with
    | ascii c hc => simp [Part.old, Part.key, hc]
    | run old new hold =>
      obtain ⟨c, u, rfl, hc⟩ := hold.exists_cons
      simp [Part.old, Part.key, Part.not_isAscii_replacement, hc]

theorem Replaced.exists_parts (h : Replaced s t) :
    ∃ w, Maximal w ∧ w.flatMap Part.old = s ∧ w.flatMap Part.new = t := by
  induction h with
  | nil => exact ⟨[], .nil, rfl, rfl⟩
  | @ascii c s t hc _ ih =>
    obtain ⟨w, hw, rfl, rfl⟩ := ih
    exact ⟨.ascii c hc :: w, List.isChain_cons.mpr ⟨fun a _ => Or.inl hc, hw⟩, rfl, rfl⟩
  | @run u v s t hu hv hs _ ih =>
    obtain ⟨w, hw, rfl, rfl⟩ := ih
    refine ⟨.run u v hu hv :: w, List.isChain_cons.mpr ⟨fun a ha => ?_, hw⟩, rfl, rfl⟩
    exact Or.inr (isAscii_head_iff.mp hs a ha)

theorem Maximal.replaced (h : Maximal w) : Replaced (w.flatMap Part.old) (w.flatMap Part.new) := by
  induction w with
  | nil => exact .nil
  | cons a w ih =>
    obtain ⟨ha, hw⟩ := List.isChain_cons.mp h
    cases a with
    | ascii c hc => exact .ascii hc (ih hw)
    | run old new hold hnew =>
      refine .run hold hnew (isAscii_head_iff.mpr fun b hb => ?_) (ih hw)
      exact (ha b hb).resolve_left Part.not_isAscii_replacement

/-- A run in front of others that are replaced is replaced, on its own or with the one that it runs into. -/
theorem Replaced.behind (hu : IsForeign u) (hv : IsForeign v) (h : Replaced s t) : Replaced (u ++ s) (v ++ t) := by
  cases h with
  | nil => exact .run hu hv (by simp) .nil
  | ascii hc h => exact .run hu hv (by simpa using hc) (.ascii hc h)
  | run hx hy hs h =>
    rw [← List.append_assoc, ← List.append_assoc]
    exact .run (hu.append hx) (hv.append hy) hs h

theorem Replaced.append_left (hu : ∀ c ∈ u, IsAscii c) (h : Replaced s t) : Replaced (u ++ s) (u ++ t) := by
  induction u with
  | nil => exact h
  | cons c u ih =>
    obtain ⟨hc, hu⟩ := List.forall_mem_cons.mp hu
    exact .ascii hc (ih hu)

theorem Replaced.head (h : Replaced s t) (hs : ∀ c ∈ s.head?, IsAscii c) : ∀ c ∈ t.head?, IsAscii c := by
  cases h with
  | nil => simp
  | ascii hc => simpa using hc
  | run hu =>
    obtain ⟨c, u, rfl, hc⟩ := hu.exists_cons
    exact absurd (hs c rfl) hc

/-- Where a run ends is for the text to say. -/
theorem eq_of_append_run {x y : List Char} (hu : IsForeign u) (hx : IsForeign x) (hs : ∀ c ∈ s.head?, IsAscii c)
    (hy : ∀ c ∈ y.head?, IsAscii c) (h : u ++ s = x ++ y) : u = x ∧ s = y := by
  have htake {u s : List Char} (hu : IsForeign u) (hs : ∀ c ∈ s.head?, IsAscii c) :
      (u ++ s).takeWhile (fun c => !decide (IsAscii c)) = u := by
    refine takeWhile_append_of_stop (by simpa using hu.2) ?_
    cases s with
    | nil => rfl
    | cons c s => simpa using hs
  have hux : u = x := by rw [← htake hu hs, h, htake hx hy]
  subst hux
  exact ⟨rfl, List.append_cancel_left h⟩

/-- What one text gives way to in two ways gives way to each other. -/
theorem Replaced.between (h : Replaced s t) (h' : Replaced s t') : Replaced t t' := by
  have hne {c : Char} {u s x : List Char} (hc : IsAscii c) (hu : IsForeign u) : u ++ s ≠ c :: x := by
    obtain ⟨d, u, rfl, hd⟩ := hu.exists_cons
    exact fun heq => hd ((List.cons.inj heq).1 ▸ hc)
  induction h generalizing t' with
  | nil =>
    generalize hs : ([] : List Char) = s at h'
    cases h' with
    | nil => exact .nil
    | ascii => cases hs
    | run hu => exact absurd (List.append_eq_nil_iff.mp hs.symm).1 hu.1
  | @ascii c s t hc _ ih =>
    generalize hs : c :: s = x at h'
    cases h' with
    | nil => cases hs
    | ascii hd h' =>
      obtain ⟨rfl, rfl⟩ := List.cons.inj hs
      exact .ascii hc (ih h')
    | run hu => exact absurd hs.symm (hne hc hu)
  | @run u v s t hu hv hhead h ih =>
    generalize hs : u ++ s = x at h'
    cases h' with
    | nil => exact absurd (List.append_eq_nil_iff.mp hs).1 hu.1
    | ascii hd => exact absurd hs (hne hd hu)
    | run hx hy hhead' h' =>
      -- Both runs end where the text has the next ASCII character, so that they are the same.
      obtain ⟨rfl, rfl⟩ := eq_of_append_run hu hx hhead hhead' hs
      exact .run hv hy (h.head hhead) (ih h')

/-! ### Readings of bytes -/

/-- Each reading replaces the runs of bytes beyond ASCII. -/
theorem replaced_of_reads (h : Text.Reads bytes s) : Replaced (bytes.map charOf) s := by
  induction h with
  | nil => exact .nil
  | @char c bytes s _ ih =>
    have hoctets : (String.utf8EncodeChar c).map charOf = octets [c] := by
      rw [octets, encode, List.flatMap_singleton]
    rw [List.map_append, hoctets]
    by_cases hc : IsAscii c
    · rw [octets_of_isAscii hc]
      exact .ascii hc ih
    · have hold : IsForeign (octets [c]) :=
        ⟨octets_ne_nil (List.cons_ne_nil c []), fun b hb => not_isAscii_of_mem_octets hc hb⟩
      have hnew : IsForeign [c] := ⟨List.cons_ne_nil c [], by simpa using hc⟩
      exact ih.behind hold hnew
  | @bad x bytes n s hx hall hn _ ih =>
    rw [List.map_append]
    refine ih.behind ⟨mt List.map_eq_nil_iff.mp hx, ?_⟩ ⟨mt (List.replicate_eq_nil_iff _).mp hn.ne', ?_⟩
    · intro c hc
      obtain ⟨b, hb, rfl⟩ := List.mem_map.mp hc
      rw [IsAscii, toNat_charOf]
      exact Nat.not_lt.mpr (hall b hb)
    · intro c hc
      rw [List.eq_of_mem_replicate hc]
      exact Part.not_isAscii_replacement

/-- All readings of the same bytes replace each other's runs. -/
theorem replaced_between_readings (h : Text.Reads bytes s) (h' : Text.Reads bytes t) : Replaced s t :=
  (replaced_of_reads h).between (replaced_of_reads h')

end

/-! ### What is found -/

/-- The slices make up the source and the other text, the one with its own runs and the other with those that they
    give way to. They are the tokens of both. What these declare is the same, but for the runs in names. -/
structure ReadAlike (qs : List (Slice Part)) (source other : String) : Prop where
  ofSource : (qs.flatMap Slice.signs).flatMap Part.old = source.toList
  ofOther : (qs.flatMap Slice.signs).flatMap Part.new = other.toList
  slices : ∀ q ∈ qs, Replaced (q.signs.flatMap Part.old) (q.signs.flatMap Part.new)
  tokensOfSource : Php.tokens source = qs.filterMap (Slice.token? Part.old)
  tokensOfOther : Php.tokens other = qs.filterMap (Slice.token? Part.new)
  tokens : List.Forall₂ (Token.Like (Respelled qs Part.old Part.new)) (Php.tokens source) (Php.tokens other)
  outline : Outline.Like (Respelled qs Part.old Part.new) (Outline.ofSource source) (Outline.ofSource other)

theorem exists_readAlike {source other : String} (h : Replaced source.toList other.toList)
    (hshift : ¬ ['<', '<', '<'] <:+: source.toList) : ∃ qs, ReadAlike qs source other := by
  obtain ⟨w, hw, hold, hnew⟩ := h.exists_parts
  rw [← hold, Part.isSpelling_old.infix_iff (by simp [Fixed, IsAscii]) (by simp)] at hshift
  obtain ⟨qs, rfl, hqs⟩ := exists_slices Part.key .html 1 hshift
  have htokens {spell : Part → List Char} {s : String} (hspell : IsSpelling Part.key spell)
      (hs : (qs.flatMap Slice.signs).flatMap spell = s.toList) : tokens s = qs.filterMap (Slice.token? spell) := by
    rw [← hqs spell hspell, hs]
    rfl
  have hsource := htokens Part.isSpelling_old hold
  have hother := htokens Part.isSpelling_new hnew
  have hlike := tokens_like Part.old Part.new qs
  rw [← hsource, ← hother] at hlike
  refine ⟨qs, hold, hnew, fun q hq => ?_, hsource, hother, hlike, ?_⟩
  · -- The signs of a slice stand together in the text, so that its runs are whole ones.
    have hin : q.signs <:+: qs.flatMap Slice.signs := by
      obtain ⟨front, behind, rfl⟩ := List.append_of_mem hq
      exact ⟨front.flatMap Slice.signs, behind.flatMap Slice.signs, by simp⟩
    have hmaximal : Maximal q.signs := List.IsChain.infix hw hin
    exact hmaximal.replaced
  · exact ofTokens_like (indistinct_respelled Part.isSpelling_old Part.isSpelling_new qs) hlike

/-- A source without `<<<` whose runs beyond ASCII give way to others has the same tokens and declares the same, but for
    the runs in names. What bytes are decoded to is one of their readings, and any other one is read alike. -/
theorem readAlike_of_replaced :
    (∀ source other : String, Replaced source.toList other.toList → ¬ ['<', '<', '<'] <:+: source.toList →
      ∃ qs, ReadAlike qs source other) ∧
    ∀ bytes : ByteArray, Text.Reads bytes.data.toList (Text.ofBytes bytes).toList ∧
      ∀ other : String, Text.Reads bytes.data.toList other.toList →
        ¬ ['<', '<', '<'] <:+: (Text.ofBytes bytes).toList → ∃ qs, ReadAlike qs (Text.ofBytes bytes) other := by
  refine ⟨fun source other => exists_readAlike, fun bytes => ?_⟩
  have hdecode : Text.Reads bytes.data.toList (Text.ofBytes bytes).toList := by
    rw [Text.ofBytes, String.toList_ofList]
    exact Text.reads_decode _
  exact ⟨hdecode, fun other hother => exists_readAlike (replaced_between_readings hdecode hother)⟩

/-- A name with a run in it that gets longer, and a byte of another encoding that is read as two characters. -/
theorem readAlike_of_replaced_latin :
    (∃ qs, ReadAlike qs "<?php class caf\u00e9 \x7b\x7d" "<?php class caf\ufffd\ufffd \x7b\x7d") ∧
      ∃ bytes : ByteArray, Text.ofBytes bytes = "<?php class caf\ufffd \x7b\x7d" ∧
        ∃ qs, ReadAlike qs (Text.ofBytes bytes) "<?php class caf\ufffd\ufffd \x7b\x7d" := by
  constructor
  · refine readAlike_of_replaced.1 _ _ ?_ (by decide +kernel)
    have hbehind : Replaced " \x7b\x7d".toList " \x7b\x7d".toList := by
      have h := Replaced.nil.append_left (u := " \x7b\x7d".toList) (by simp [IsAscii])
      rwa [List.append_nil] at h
    have hrun : Replaced ("\u00e9".toList ++ " \x7b\x7d".toList) ("\ufffd\ufffd".toList ++ " \x7b\x7d".toList) :=
      hbehind.behind (by simp [IsForeign, IsAscii]) (by simp [IsForeign, IsAscii])
    exact hrun.append_left (u := "<?php class caf".toList) (by simp [IsAscii])
  · have hbehind := Text.Reads.nil.append_left " \x7b\x7d".toList
    have hbad := Text.Reads.bad (x := [0xE9]) (n := 2) (by simp) (by simp) (by simp) hbehind
    have hreads := hbad.append_left "<?php class caf".toList
    have hdecode : Text.ofBytes ⟨("<?php class caf".toList.flatMap String.utf8EncodeChar ++
        ([0xE9] ++ (" \x7b\x7d".toList.flatMap String.utf8EncodeChar ++ []))).toArray⟩ =
          "<?php class caf\ufffd \x7b\x7d" := by
      decide +kernel
    refine ⟨_, hdecode, (readAlike_of_replaced.2 _).2 _ hreads ?_⟩
    rw [hdecode]
    decide +kernel

end TypeFinder.Php

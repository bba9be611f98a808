import TypeFinder.Php.Token
import TypeFinder.Proofs.Php.Lookahead

/-! The source as a sequence of pieces. Each piece is cut off the text that the ones before it leave, so how a text
    is read depends on the text, its mode and its line, and on nothing before it. -/

namespace TypeFinder.Php

/-- The pieces of the text `s`, which is read in mode `m` and starts on line `line`. -/
inductive Pieces : Mode → Nat → List Char → List Piece → Prop
  | nil {m : Mode} {line : Nat} : Pieces m line [] []
  | cons {m : Mode} {line : Nat} {kind : Shape} {c : Char} {t rest : List Char} {ps : List Piece} :
      Cuts m kind (c :: t) rest → Pieces kind.after (line + (c :: t).count '\n') rest ps →
      Pieces m line (c :: t ++ rest) (⟨kind, c, t, line⟩ :: ps)

/-- How the source is read behind pieces of it. -/
def Mode.behind (m : Mode) (ps : List Piece) : Mode := ps.foldl (fun _ p => p.shape.after) m

section
variable {m : Mode} {line : Nat} {s t rest : List Char} {kind : Shape} {c : Char} {ps : List Piece}

theorem piecesFrom_eq_append (done : List Piece) (m : Mode) (line : Nat) (s : List Char) :
    piecesFrom done m line s = done.reverse ++ piecesFrom [] m line s := by
  induction hn : s.length using Nat.strong_induction_on generalizing done m line s with
  | _ n ih =>
    cases s with
    | nil => simp [piecesFrom]
    | cons c r =>
      rcases hs : shape m c r with ⟨kind, k⟩
      have hlt : (r.drop k).length < n := by
        rw [← hn, List.length_drop, List.length_cons]
        omega
      simp only [piecesFrom, hs]
      rw [ih _ hlt _ _ _ _ rfl, ih _ hlt [_] _ _ _ rfl]
      simp

theorem piecesFrom_of_cuts (h : Cuts m kind (c :: t) rest) :
    piecesFrom [] m line (c :: t ++ rest) =
      ⟨kind, c, t, line⟩ :: piecesFrom [] kind.after (line + (c :: t).count '\n') rest := by
  simp only [List.cons_append, piecesFrom, shape_of_cuts h, List.take_left, List.drop_left]
  rw [piecesFrom_eq_append [_]]
  rfl

/-- The reading of a text is a sequence of pieces of it. -/
theorem pieces_piecesFrom (m : Mode) (line : Nat) (s : List Char) : Pieces m line s (piecesFrom [] m line s) := by
  induction hn : s.length using Nat.strong_induction_on generalizing m line s with
  | _ n ih =>
    cases s with
    | nil =>
      rw [piecesFrom]
      exact .nil
    | cons c r =>
      obtain ⟨kind, t, rest, rfl, hcuts, -⟩ := exists_cuts m c r
      have hlt : rest.length < n := by
        rw [← hn, List.length_cons, List.length_append]
        omega
      rw [← List.cons_append, piecesFrom_of_cuts hcuts]
      exact .cons hcuts (ih _ hlt _ _ _ rfl)

namespace Pieces

theorem eq_piecesFrom (h : Pieces m line s ps) : ps = piecesFrom [] m line s := by
  induction h with
  | nil => simp [piecesFrom]
  | cons hcuts _ ih => rw [piecesFrom_of_cuts hcuts, ← ih]

theorem eq_nil (h : Pieces m line [] ps) : ps = [] := by
  rw [h.eq_piecesFrom, piecesFrom]
  rfl

theorem of_cons {p : Piece} (h : Pieces m line s (p :: ps)) :
    ∃ rest, s = p.text ++ rest ∧ p.line = line ∧ Cuts m p.shape p.text rest ∧
      Pieces p.shape.after (line + p.text.count '\n') rest ps := by
  cases h with
  | cons hcuts hps => exact ⟨_, rfl, rfl, hcuts, hps⟩

/-- Pieces stay as they are when what follows them gives way to a text that they cannot tell from it. -/
theorem exchange {qs : List Piece} (h : Pieces m line s (ps ++ qs)) :
    ∃ rest, s = ps.flatMap Piece.text ++ rest ∧
      Pieces (m.behind ps) (line + (ps.flatMap Piece.text).count '\n') rest qs ∧
      ∀ rest' qs', (∀ x, Agrees (x ++ rest) (x ++ rest')) →
        Pieces (m.behind ps) (line + (ps.flatMap Piece.text).count '\n') rest' qs' →
        Pieces m line (ps.flatMap Piece.text ++ rest') (ps ++ qs') := by
  induction ps generalizing m line s with
  | nil => exact ⟨s, rfl, h, fun _ _ _ h' => h'⟩
  | cons p ps ih =>
    obtain ⟨rest, rfl, rfl, hcuts, hps⟩ := h.of_cons
    obtain ⟨rest, rfl, hqs, hexchange⟩ := ih hps
    simp only [List.flatMap_cons, List.count_append, ← Nat.add_assoc, List.append_assoc]
    refine ⟨rest, rfl, hqs, fun rest' qs' hagrees hqs' => ?_⟩
    exact .cons ((hagrees _).cuts hcuts) (hexchange rest' qs' hagrees hqs')

theorem cuts_of_mem {p : Piece} (h : Pieces m line s ps) (hp : p ∈ ps) : ∃ m rest, Cuts m p.shape p.text rest := by
  induction h with
  | nil => cases hp
  | cons hcuts _ ih =>
    rcases List.mem_cons.mp hp with rfl | hp
    · exact ⟨_, _, hcuts⟩
    · exact ih hp

/-- The lines of the pieces go down the text, and no further than it goes. -/
theorem lines (h : Pieces m line s ps) :
    ps.Pairwise (fun p q => p.line ≤ q.line) ∧ ∀ p ∈ ps, line ≤ p.line ∧ p.line ≤ line + s.count '\n' := by
  induction h with
  | nil => exact ⟨.nil, by simp⟩
  | @cons _ line kind c t rest ps hcuts _ ih =>
    obtain ⟨hordered, hbounds⟩ := ih
    refine ⟨.cons (fun q hq => ?_) hordered, fun q hq => ?_⟩
    · show line ≤ q.line
      have := (hbounds q hq).1
      omega
    · rw [List.count_append]
      rcases List.mem_cons.mp hq with rfl | hq
      · exact ⟨Nat.le_refl line, Nat.le_add_right line _⟩
      · have := hbounds q hq
        omega

end Pieces

end

/-! ### Pieces that are tokens -/

section
variable {p : Piece} {u : Token}

theorem Piece.eq_of_token? (h : p.token? = some u) : u.text = String.ofList p.text ∧ u.line = p.line := by
  unfold Piece.token? at h
  split at h
  · cases h
  · obtain rfl := Option.some.inj h
    exact ⟨rfl, rfl⟩
  · obtain rfl := Option.some.inj h
    exact ⟨rfl, rfl⟩

theorem Cuts.word_of_token? {m : Mode} {rest : List Char} (h : Cuts m p.shape p.text rest) (hu : p.token? = some u) :
    m = .code ∧ Word p.shape p.text rest := by
  obtain ⟨kind, c, t, line⟩ := p
  cases h with
  | region => cases hu
  | unclosed => cases hu
  | word hw => exact ⟨rfl, hw⟩

end

end TypeFinder.Php

import TypeFinder.Proofs.Php.Reader

/-! The loops over bytes. Each goes through the bytes that are left, and stops where the text says: as many bytes on as
    the characters take that belong to the region. Bytes beyond ASCII are passed one by one and mean nothing. -/

namespace TypeFinder.Php.Reader

/-! ### What is ahead -/

/-- The bytes from an index on. -/
def Ahead (bs : List Char) (i : Nat) (u : List Char) : Prop := ∃ v, bs = v ++ u ∧ v.length = i

section
variable {bs u w x : List Char} {b c : Char} {i : Nat} {s r t : List Char} {p : Char → Bool}

namespace Ahead

theorem length (h : Ahead bs i u) : bs.length = i + u.length := by
  obtain ⟨v, rfl, rfl⟩ := h
  exact List.length_append

theorem getElem? (h : Ahead bs i u) (k : Nat) : bs[i + k]? = u[k]? := by
  obtain ⟨v, rfl, rfl⟩ := h
  rw [List.getElem?_append_right (Nat.le_add_right _ k), Nat.add_sub_cancel_left]

theorem head? (h : Ahead bs i u) : bs[i]? = u.head? := by
  have h0 : bs[i]? = u[0]? := h.getElem? 0
  rw [h0, List.head?_eq_getElem?]

theorem append (h : Ahead bs i (u ++ w)) : Ahead bs (i + u.length) w := by
  obtain ⟨v, rfl, rfl⟩ := h
  exact ⟨v ++ u, (List.append_assoc v u w).symm, List.length_append⟩

theorem next (h : Ahead bs i (b :: u)) : Ahead bs (i + 1) u := append (u := [b]) h

theorem lt (h : Ahead bs i (b :: u)) : i < bs.length := by
  rw [h.length, List.length_cons]
  omega

theorem le (h : Ahead bs i u) : i ≤ bs.length := by
  rw [h.length]
  exact Nat.le_add_right i _

theorem length_le (h : Ahead bs i []) : bs.length ≤ i := Nat.le_of_eq h.length

theorem byteAt (h : Ahead bs i (b :: u)) : byteAt bs i = .ok b := by
  rw [Reader.byteAt, h.head?]
  rfl

theorem bytesFrom (h : Ahead bs i u) : bytesFrom bs i = .ok u := by
  obtain ⟨v, rfl, rfl⟩ := h
  rw [Reader.bytesFrom, if_pos (by simp), List.drop_left]

theorem bytesBetween {n : Nat} (h : Ahead bs i u) (hn : i + n ≤ bs.length) :
    bytesBetween bs i (i + n) = .ok (u.take n) := by
  obtain ⟨v, rfl, rfl⟩ := h
  rw [Reader.bytesBetween, if_pos ⟨Nat.le_add_right _ n, hn⟩, List.take_length_add_append, List.drop_left]

theorem getElem?_eq_some_iff {a : Char} (h : Ahead bs i (octets s)) (ha : IsAscii a) :
    bs[i]? = some a ↔ s.head? = some a := by
  rw [h.head?, head?_octets_eq_some_iff ha]

/-- What does not mind bytes beyond ASCII is the same behind them. -/
theorem skip {α : Type} {f : Nat → α} (hf : ∀ {j b u}, Ahead bs j (b :: u) → ¬ IsAscii b → f j = f (j + 1))
    (h : Ahead bs i (x ++ w)) (hx : ∀ b ∈ x, ¬ IsAscii b) : f i = f (i + x.length) := by
  induction x generalizing i with
  | nil => rfl
  | cons b x ih =>
    obtain ⟨hb, hx⟩ := List.forall_mem_cons.mp hx
    rw [hf h hb, ih h.next hx, List.length_cons, Nat.add_assoc, Nat.add_comm 1]

/-- Behind the first byte of a character, the other ones are beyond ASCII. -/
theorem skip_tail {α : Type} {f : Nat → α} (hf : ∀ {j b u}, Ahead bs j (b :: u) → ¬ IsAscii b → f j = f (j + 1))
    (h : Ahead bs i (octets (c :: r))) : f (i + 1) = f (i + (octets [c]).length) := by
  by_cases hc : IsAscii c
  · rw [octets_of_isAscii hc]
    rfl
  · obtain ⟨b, x, hx⟩ := List.exists_cons_of_ne_nil (octets_ne_nil (List.cons_ne_nil c []))
    have hbeyond : ∀ d ∈ b :: x, ¬ IsAscii d := fun d hd => not_isAscii_of_mem_octets hc (hx ▸ hd)
    rw [octets_cons, hx] at h
    have h : Ahead bs (i + 1) (x ++ octets r) := h.next
    rw [hx, h.skip hf fun d hd => hbeyond d (List.mem_cons_of_mem b hd), List.length_cons, Nat.add_assoc,
      Nat.add_comm 1]

theorem skip_char {α : Type} {f : Nat → α} (hf : ∀ {j b u}, Ahead bs j (b :: u) → ¬ IsAscii b → f j = f (j + 1))
    (h : Ahead bs i (octets (c :: r))) (hc : ¬ IsAscii c) : f i = f (i + (octets [c]).length) := by
  rw [octets_cons] at h
  exact h.skip hf fun b hb => not_isAscii_of_mem_octets hc hb

theorem behind (h : Ahead bs i (octets (s ++ t))) : Ahead bs (i + (octets s).length) (octets t) := by
  rw [octets_append] at h
  exact h.append

theorem of_isAscii (h : Ahead bs i (octets (c :: r))) (hc : IsAscii c) : Ahead bs i (c :: octets r) := by
  rwa [octets_cons_of_isAscii hc] at h

theorem next_of_isAscii (h : Ahead bs i (octets (c :: r))) (hc : IsAscii c) : Ahead bs (i + 1) (octets r) :=
  (h.of_isAscii hc).next

theorem behind_cons (h : Ahead bs i (octets (c :: r))) : Ahead bs (i + (octets [c]).length) (octets r) :=
  behind (s := [c]) h

end Ahead

theorem ahead_octets (before s : List Char) : Ahead (octets (before ++ s)) (octets before).length (octets s) :=
  ⟨octets before, octets_append before s, rfl⟩

/-! ### Where a loop stops -/

/-- The loop that starts at `i`, where the text `s` is ahead, stops behind a part of it, and `length` counts the
    characters of that part. It may go beyond the end of the bytes. -/
def StopsAt (bs : List Char) (i : Nat) (s : List Char) (loop : Except Fault Nat) (length : Nat → Nat) : Prop :=
  ∃ t rest stop, s = t ++ rest ∧ loop = .ok stop ∧ min stop bs.length = i + (octets t).length ∧
    ∀ n, length n = n + t.length

namespace StopsAt
variable {loop : Except Fault Nat} {f g : Nat → Nat}

theorem here (hi : i ≤ bs.length) (hloop : loop = .ok i) (hf : ∀ n, f n = n) : StopsAt bs i s loop f :=
  ⟨[], s, i, rfl, hloop, Nat.min_eq_left hi, hf⟩

theorem congr (h : StopsAt bs i s loop f) (hg : ∀ n, g n = f n) : StopsAt bs i s loop g := by
  obtain ⟨t, rest, stop, rfl, hloop, hstop, hf⟩ := h
  exact ⟨t, rest, stop, rfl, hloop, hstop, fun n => (hg n).trans (hf n)⟩

theorem behind (h : StopsAt bs (i + (octets x).length) s loop f) (hg : ∀ n, g n = f (n + x.length)) :
    StopsAt bs i (x ++ s) loop g := by
  obtain ⟨t, rest, stop, rfl, hloop, hstop, hf⟩ := h
  refine ⟨x ++ t, rest, stop, (List.append_assoc x t rest).symm, hloop, ?_, fun n => ?_⟩
  · rw [hstop, octets_append, List.length_append, Nat.add_assoc]
  · rw [hg, hf, List.length_append, Nat.add_assoc]

theorem cons (h : StopsAt bs (i + (octets [c]).length) s loop f) (hg : ∀ n, g n = f (n + 1)) :
    StopsAt bs i (c :: s) loop g := behind (x := [c]) h hg

theorem cons_of_isAscii (h : StopsAt bs (i + 1) s loop f) (hc : IsAscii c) (hg : ∀ n, g n = f (n + 1)) :
    StopsAt bs i (c :: s) loop g :=
  cons (by rwa [octets_of_isAscii hc]) hg

theorem past (h : Ahead bs i (octets (x ++ s))) (hloop : loop = .ok (i + (octets x).length))
    (hg : ∀ n, g n = n + x.length) : StopsAt bs i (x ++ s) loop g :=
  behind (f := id) (here h.behind.le hloop fun _ => rfl) hg

/-- A loop that takes along the byte behind the last one. -/
theorem beyond (h : Ahead bs i (octets [c])) (hc : IsAscii c) (hloop : loop = .ok (i + 2)) (hf : ∀ n, f n = n + 1) :
    StopsAt bs i [c] loop f := by
  have hlen : bs.length = i + 1 := (h.of_isAscii hc).length
  refine ⟨[c], [], i + 2, rfl, hloop, ?_, hf⟩
  rw [octets_of_isAscii hc, hlen]
  exact Nat.min_eq_right (Nat.le_succ (i + 1))

end StopsAt

/-! ### Runs -/

theorem skipWhile_eq (h : Ahead bs i u) : skipWhile p bs i = .ok (i + (u.takeWhile p).length) := by
  induction u generalizing i with
  | nil =>
    rw [skipWhile, if_neg (Nat.not_lt.mpr h.length_le)]
    rfl
  | cons b u ih =>
    rw [skipWhile, if_pos h.lt, h.byteAt]
    show (if p b = true then skipWhile p bs (i + 1) else .ok i) = _
    cases hb : p b with
    | true =>
      rw [if_pos rfl, ih h.next, List.takeWhile_cons_of_pos hb, List.length_cons, Nat.add_assoc, Nat.add_comm 1]
    | false =>
      rw [if_neg (by simp), List.takeWhile_cons_of_neg (by simp [hb])]
      rfl

theorem runLength_eq (h : Ahead bs i (octets s)) (hp : Uniform p) :
    runLength p bs i = .ok (octets (s.takeWhile p)).length := by
  rw [runLength, h.bytesFrom, ← takeWhile_octets hp]
  rfl

/-! ### Line comments -/

theorem lineEnd_cons (h : Ahead bs i (b :: u)) :
    lineEnd bs i = if b = '\n' ∨ b = '?' ∧ u.head? = some '>' then .ok i else lineEnd bs (i + 1) := by
  have hnext : bs[i + 1]? = u.head? := h.next.head?
  rw [lineEnd, if_pos h.lt, h.byteAt]
  show (if b = '\n' then .ok i else if b = '?' ∧ bs[i + 1]? = some '>' then .ok i else lineEnd bs (i + 1)) = _
  rw [hnext]
  split_ifs <;> simp_all

theorem lineEnd_stopsAt (h : Ahead bs i (octets s)) :
    StopsAt bs i s (lineEnd bs i) (fun n => lineCommentLength n s) := by
  induction s generalizing i with
  | nil =>
    refine .here h.le ?_ fun _ => rfl
    rw [lineEnd, if_neg (Nat.not_lt.mpr h.length_le)]
    rfl
  | cons c r ih =>
    by_cases hc : IsAscii c
    · have hstep := lineEnd_cons (h.of_isAscii hc)
      simp only [head?_octets_eq_some_iff (show IsAscii '>' by decide)] at hstep
      rw [hstep]
      split_ifs with hstop
      · exact .here h.le rfl fun n => by simp [lineCommentLength, hstop]
      · exact (ih (h.next_of_isAscii hc)).cons_of_isAscii hc fun n => by simp [lineCommentLength, hstop]
    · have hinert {j b u} (hj : Ahead bs j (b :: u)) (hb : ¬ IsAscii b) : lineEnd bs j = lineEnd bs (j + 1) := by
        have hn : b ≠ '\n' := ne_of_not_isAscii hb (by decide)
        have hq : b ≠ '?' := ne_of_not_isAscii hb (by decide)
        rw [lineEnd_cons hj, if_neg (by simp [hn, hq])]
      have hn : c ≠ '\n' := ne_of_not_isAscii hc (by decide)
      have hq : c ≠ '?' := ne_of_not_isAscii hc (by decide)
      rw [h.skip_char hinert hc]
      exact (ih h.behind_cons).cons fun n => by simp [lineCommentLength, hn, hq]

/-! ### Words and block comments -/

theorem position?_append (hx : ∀ b ∈ x, b ≠ c) :
    position? (c :: w) (x ++ u) = (position? (c :: w) u).map (x.length + ·) := by
  induction x with
  | nil => simp
  | cons b x ih =>
    obtain ⟨hb, hx⟩ := List.forall_mem_cons.mp hx
    have hno : (c :: w).isPrefixOf (b :: (x ++ u)) = false := by
      simp [List.isPrefixOf, hb.symm]
    rw [List.cons_append, position?, hno, ih hx]
    cases position? (c :: w) u with
    | none => rfl
    | some k => simp [Nat.add_right_comm]

theorem position?_octets (hw : ∀ a ∈ c :: w, IsAscii a) (s : List Char) :
    position? (c :: w) (octets s) = (position? (c :: w) s).map fun k => (octets (s.take k)).length := by
  induction s with
  | nil => rfl
  | cons d r ih =>
    have hpre : (c :: w).isPrefixOf (octets (d :: r)) = (c :: w).isPrefixOf (d :: r) := by
      rw [Bool.eq_iff_iff, List.isPrefixOf_iff_prefix, List.isPrefixOf_iff_prefix]
      simpa only [octets_eq_self hw] using octets_prefix_iff (w := c :: w) (s := d :: r)
    have hstep : (position? (c :: w) (d :: r)) =
        if (c :: w).isPrefixOf (d :: r) then some 0 else (position? (c :: w) r).map (· + 1) := rfl
    rw [hstep]
    by_cases hd : IsAscii d
    · rw [octets_cons_of_isAscii hd] at hpre ⊢
      rw [position?, hpre]
      split_ifs
      · rfl
      · rw [ih, Option.map_map, Option.map_map]
        congr 1
        funext k
        simp [octets_cons_of_isAscii hd]
    · have hx : ∀ b ∈ octets [d], b ≠ c := fun b hb =>
        ne_of_not_isAscii (not_isAscii_of_mem_octets hd hb) (hw c List.mem_cons_self)
      have hno : (c :: w).isPrefixOf (d :: r) = false := by
        simp [List.isPrefixOf, (ne_of_not_isAscii hd (hw c List.mem_cons_self)).symm]
      rw [hno, octets_cons, position?_append hx, ih, Option.map_map]
      simp only [Bool.false_eq_true, if_false, Option.map_map]
      congr 1
      funext k
      simp only [Function.comp, List.take_succ_cons, octets_cons d (r.take k), List.length_append]

theorem find?_eq (hw : ∀ a ∈ c :: w, IsAscii a) (h : Ahead bs i (octets s)) :
    find? (c :: w) bs i = .ok ((position? (c :: w) s).map fun k => i + (octets (s.take k)).length) := by
  unfold find?
  split_ifs with hend
  · have hnil : s = [] := by
      by_contra hne
      have := List.length_pos_iff.mpr (octets_ne_nil hne)
      rw [h.length] at hend
      omega
    rw [hnil]
    rfl
  · rw [h.bytesFrom]
    show Except.ok ((position? (c :: w) (octets s)).map _) = _
    rw [position?_octets hw, Option.map_map]
    rfl

theorem blockCommentLength_eq (n : Nat) (s : List Char) :
    blockCommentLength n s = n + (position? ['*', '/'] s).elim s.length (· + 2) := by
  induction s generalizing n with
  | nil => rfl
  | cons c r ih =>
    have hpre : ['*', '/'].isPrefixOf (c :: r) = true ↔ c = '*' ∧ r.head? = some '/' := by
      rw [List.isPrefixOf_iff_prefix, List.cons_prefix_cons]
      cases r <;> simp [eq_comm]
    rw [blockCommentLength, position?]
    split_ifs with h1 h2 h2
    · rfl
    · exact absurd (hpre.mpr h1) h2
    · exact absurd (hpre.mp h2) h1
    · rw [ih]
      cases position? ['*', '/'] r with
      | none => simp; omega
      | some k => simp; omega

theorem position?_lt {k : Nat} (h : position? (c :: w) s = some k) :
    ∃ t rest, s = t ++ (c :: w) ++ rest ∧ t.length = k := by
  induction s generalizing k with
  | nil => cases h
  | cons d r ih =>
    rw [position?] at h
    split_ifs at h with hp
    · obtain ⟨rest, hrest⟩ := List.isPrefixOf_iff_prefix.mp hp
      cases h
      exact ⟨[], rest, hrest.symm, rfl⟩
    · obtain ⟨j, hj, rfl⟩ := Option.map_eq_some_iff.mp h
      obtain ⟨t, rest, rfl, rfl⟩ := ih hj
      exact ⟨d :: t, rest, rfl, rfl⟩

theorem blockEnd_stopsAt (h : Ahead bs (i + 1) (octets ('*' :: s))) :
    StopsAt bs (i + 1) ('*' :: s) (blockEnd bs i) (fun n => blockCommentLength (n + 1) s) := by
  have hmark : ∀ a ∈ ['*', '/'], IsAscii a := by simp [IsAscii]
  have hbody : Ahead bs (i + 2) (octets s) := h.next_of_isAscii (by decide)
  rw [blockEnd, find?_eq hmark hbody]
  refine .cons_of_isAscii (f := fun n => blockCommentLength n s) ?_ (by decide) fun n => rfl
  simp only [blockCommentLength_eq]
  cases hp : position? ['*', '/'] s with
  | none =>
    refine ⟨s, [], bs.length, (List.append_nil s).symm, rfl, ?_, fun n => rfl⟩
    rw [Nat.min_self, hbody.length]
  | some k =>
    obtain ⟨t, rest, rfl, rfl⟩ := position?_lt hp
    have htake : (t ++ ['*', '/'] ++ rest).take t.length = t := by simp
    have hsize : i + 2 + (octets (t ++ ['*', '/'])).length = i + 2 + (octets t).length + 2 := by
      rw [octets_append, octets_eq_self hmark, List.length_append]
      rfl
    refine .past (x := t ++ ['*', '/']) hbody ?_ fun n => by simp
    rw [hsize, Option.map_some, htake]
    rfl

/-! ### Literals -/

theorem singleEnd_cons (h : Ahead bs i (b :: u)) :
    singleEnd bs i =
      if b = '\\' then singleEnd bs (i + 2) else if b = '\'' then .ok (i + 1) else singleEnd bs (i + 1) := by
  rw [singleEnd, if_pos h.lt, h.byteAt]
  rfl

theorem singleEnd_of_le (h : bs.length ≤ i) : singleEnd bs i = .ok i := by
  rw [singleEnd, if_neg (Nat.not_lt.mpr h)]
  rfl

theorem singleEnd_inert (h : Ahead bs i (b :: u)) (hb : ¬ IsAscii b) : singleEnd bs i = singleEnd bs (i + 1) := by
  have he : b ≠ '\\' := ne_of_not_isAscii hb (by decide)
  have hq : b ≠ '\'' := ne_of_not_isAscii hb (by decide)
  rw [singleEnd_cons h, if_neg he, if_neg hq]

theorem singleEnd_stopsAt : ∀ (s : List Char) {i : Nat}, Ahead bs i (octets s) →
    StopsAt bs i s (singleEnd bs i) (fun n => singleQuotedLength n s)
  | [], i, h => .here h.le (singleEnd_of_le h.length_le) fun _ => rfl
  | c :: r, i, h => by
    by_cases hc : IsAscii c
    · rw [singleEnd_cons (h.of_isAscii hc)]
      split_ifs with he hq
      · subst he
        cases r with
        | nil =>
          -- A backslash at the end takes along a byte that is not there.
          have hend := singleEnd_of_le (Nat.le_succ_of_le (h.next_of_isAscii hc).length_le)
          exact .beyond h hc hend fun n => rfl
        | cons d r =>
          have hd := h.next_of_isAscii hc
          rw [hd.skip_tail singleEnd_inert]
          exact .cons_of_isAscii (.cons (singleEnd_stopsAt r hd.behind_cons) fun n => rfl) hc fun n =>
            singleQuotedLength_escape n
      · subst hq
        refine .past (x := ['\'']) h (by rw [octets_of_isAscii hc]; rfl) fun n => singleQuotedLength_quote n
      · exact .cons_of_isAscii (singleEnd_stopsAt r (h.next_of_isAscii hc)) hc fun n => singleQuotedLength_plain n he hq
    · have he : c ≠ '\\' := ne_of_not_isAscii hc (by decide)
      have hq : c ≠ '\'' := ne_of_not_isAscii hc (by decide)
      rw [h.skip_char singleEnd_inert hc]
      exact .cons (singleEnd_stopsAt r h.behind_cons) fun n => singleQuotedLength_plain n he hq

theorem braceEnd_cons {depth : Nat} (h : Ahead bs i (b :: u)) :
    braceEnd depth bs i =
      if b = '{' then braceEnd (depth + 1) bs (i + 1)
      else if b = '}' then
        if depth = 0 then .error .underflow
        else if depth - 1 = 0 then .ok (i + 1)
        else braceEnd (depth - 1) bs (i + 1)
      else braceEnd depth bs (i + 1) := by
  rw [braceEnd, if_pos h.lt, h.byteAt]
  rfl

theorem braceEnd_inert {depth : Nat} (h : Ahead bs i (b :: u)) (hb : ¬ IsAscii b) :
    braceEnd depth bs i = braceEnd depth bs (i + 1) := by
  have ho : b ≠ '{' := ne_of_not_isAscii hb (by decide)
  have hc : b ≠ '}' := ne_of_not_isAscii hb (by decide)
  rw [braceEnd_cons h, if_neg ho, if_neg hc]

/-- Within `depth` braces, the loop over braces stops where the literal goes on outside of them. The count never goes
    below zero, since it stops at zero. -/
def LeavesAt (bs : List Char) (i depth : Nat) (s : List Char) : Prop :=
  ∃ t rest, s = t ++ rest ∧ braceEnd depth bs i = .ok (i + (octets t).length) ∧
    ∀ quote n, interpolatedLength quote depth n s = interpolatedLength quote 0 (n + t.length) rest

theorem LeavesAt.cons {depth : Nat} (hd : 0 < depth)
    (h : LeavesAt bs (i + (octets [c]).length) (braceDepth depth c) r)
    (hstep : braceEnd depth bs i = braceEnd (braceDepth depth c) bs (i + (octets [c]).length)) :
    LeavesAt bs i depth (c :: r) := by
  obtain ⟨t, rest, rfl, hend, hlen⟩ := h
  refine ⟨c :: t, rest, rfl, ?_, fun quote n => ?_⟩
  · rw [hstep, hend, octets_cons c t, List.length_append, Nat.add_assoc]
  · rw [interpolatedLength_inside depth n hd, hlen, List.length_cons, Nat.add_assoc, Nat.add_comm 1]

theorem leavesAt (h : Ahead bs i (octets s)) {depth : Nat} (hd : 0 < depth) : LeavesAt bs i depth s := by
  induction s generalizing i depth with
  | nil =>
    have hlen : bs.length = i := h.length
    refine ⟨[], [], rfl, ?_, fun quote n => rfl⟩
    rw [braceEnd, if_neg (by omega), hlen]
    rfl
  | cons c r ih =>
    by_cases hc : IsAscii c
    · have hstep : braceEnd depth bs i = _ := braceEnd_cons (h.of_isAscii hc)
      have hone : (octets [c]).length = 1 := by rw [octets_of_isAscii hc]; rfl
      have hnext : Ahead bs (i + (octets [c]).length) (octets r) := h.behind_cons
      by_cases hlast : c = '}' ∧ depth = 1
      · obtain ⟨rfl, rfl⟩ := hlast
        refine ⟨['}'], r, rfl, ?_, fun quote n => interpolatedLength_inside 1 n Nat.one_pos⟩
        rw [hstep, hone]
        rfl
      · have hdeep : 0 < braceDepth depth c := by
          unfold braceDepth
          split_ifs with ho hclose
          · exact Nat.succ_pos depth
          · have : depth ≠ 1 := fun h1 => hlast ⟨hclose, h1⟩
            omega
          · exact hd
        refine .cons hd (ih hnext hdeep) ?_
        rw [hstep, hone]
        unfold braceDepth at hdeep ⊢
        split_ifs at hdeep ⊢ with ho hclose hzero hzero
        · rfl
        · omega
        · omega
        · rfl
        · rfl
    · have hdepth : braceDepth depth c = depth := by
        have ho : c ≠ '{' := ne_of_not_isAscii hc (by decide)
        have hclose : c ≠ '}' := ne_of_not_isAscii hc (by decide)
        rw [braceDepth, if_neg ho, if_neg hclose]
      refine .cons hd (hdepth.symm ▸ ih h.behind_cons hd) ?_
      rw [hdepth]
      exact h.skip_char braceEnd_inert hc

theorem interpolatedEnd_cons {quote : Char} (h : Ahead bs i (b :: u)) :
    interpolatedEnd quote bs i =
      if b = '\\' then interpolatedEnd quote bs (i + 2)
      else if b = '{' ∧ u.head? = some '$' then
        braceEnd 0 bs i >>= fun stop => if i < stop then interpolatedEnd quote bs stop else .error .stuck
      else if b = quote then .ok (i + 1)
      else interpolatedEnd quote bs (i + 1) := by
  have hnext : bs[i + 1]? = u.head? := h.next.head?
  rw [interpolatedEnd, if_pos h.lt, h.byteAt]
  simp only [hnext]
  rfl

theorem interpolatedEnd_of_le {quote : Char} (h : bs.length ≤ i) : interpolatedEnd quote bs i = .ok i := by
  rw [interpolatedEnd, if_neg (Nat.not_lt.mpr h)]
  rfl

theorem interpolatedEnd_inert {quote : Char} (hquote : IsAscii quote) (h : Ahead bs i (b :: u)) (hb : ¬ IsAscii b) :
    interpolatedEnd quote bs i = interpolatedEnd quote bs (i + 1) := by
  have he : b ≠ '\\' := ne_of_not_isAscii hb (by decide)
  have ho : b ≠ '{' := ne_of_not_isAscii hb (by decide)
  have hq : b ≠ quote := ne_of_not_isAscii hb hquote
  rw [interpolatedEnd_cons h, if_neg he, if_neg (fun h => ho h.1), if_neg hq]

theorem interpolatedEnd_stopsAt {quote : Char} (hquote : quote = '"' ∨ quote = backtick) :
    ∀ (s : List Char) {i : Nat}, Ahead bs i (octets s) →
      StopsAt bs i s (interpolatedEnd quote bs i) (fun n => interpolatedLength quote 0 n s)
  | [], i, h => .here h.le (interpolatedEnd_of_le h.length_le) fun _ => rfl
  | c :: r, i, h => by
    have hq : IsAscii quote ∧ quote ≠ '\\' ∧ quote ≠ '{' := by rcases hquote with rfl | rfl <;> decide
    by_cases hc : IsAscii c
    · have hstep : interpolatedEnd quote bs i = _ := interpolatedEnd_cons (h.of_isAscii hc)
      simp only [head?_octets_eq_some_iff (show IsAscii '$' by decide)] at hstep
      rw [hstep]
      have hr := h.next_of_isAscii hc
      split_ifs with he hopen hclose
      · subst he
        cases r with
        | nil =>
          have hend : interpolatedEnd quote bs (i + 2) = _ := interpolatedEnd_of_le (Nat.le_succ_of_le hr.length_le)
          exact .beyond h hc hend fun n => rfl
        | cons d r =>
          rw [hr.skip_tail (interpolatedEnd_inert hq.1)]
          exact .cons_of_isAscii (.cons (interpolatedEnd_stopsAt hquote r hr.behind_cons) fun n => rfl) hc fun n =>
            interpolatedLength_escape n
      · obtain ⟨hbrace, hdollar⟩ := hopen
        obtain ⟨t, rest, ht, hend, hlen⟩ := leavesAt hr Nat.one_pos
        have hinside : braceEnd 0 bs i = .ok (i + 1 + (octets t).length) := by
          rw [braceEnd_cons (h.of_isAscii hc), if_pos hbrace, hend]
        rw [hinside]
        show StopsAt bs i _ (if i < i + 1 + (octets t).length then interpolatedEnd quote bs _ else _) _
        rw [if_pos (by omega)]
        have hrest : Ahead bs (i + 1 + (octets t).length) (octets rest) := Ahead.behind (ht ▸ hr)
        have hshort : rest.length < (c :: r).length := by
          rw [ht, List.length_cons, List.length_append]
          omega
        have hstop := (interpolatedEnd_stopsAt hquote rest hrest).behind (g := fun n => interpolatedLength quote 1 n _)
          fun n => hlen quote n
        rw [← ht] at hstop
        refine .cons_of_isAscii hstop hc fun n => ?_
        obtain ⟨r, rfl⟩ := List.head?_eq_some_iff.mp hdollar
        rw [hbrace, interpolatedLength_expression]
      · subst hclose
        exact .past (x := [c]) h (by rw [octets_of_isAscii hc]; rfl) fun n =>
          interpolatedLength_quote n hq.2.1 hq.2.2
      · exact .cons_of_isAscii (interpolatedEnd_stopsAt hquote r hr) hc fun n =>
          interpolatedLength_plain n he hclose hopen
    · have he : c ≠ '\\' := ne_of_not_isAscii hc (by decide)
      have ho : c ≠ '{' := ne_of_not_isAscii hc (by decide)
      rw [h.skip_char (interpolatedEnd_inert hq.1) hc]
      exact .cons (interpolatedEnd_stopsAt hquote r h.behind_cons) fun n =>
        interpolatedLength_plain n he (ne_of_not_isAscii hc hq.1) fun h => ho h.1
termination_by s => s.length

end
end TypeFinder.Php.Reader

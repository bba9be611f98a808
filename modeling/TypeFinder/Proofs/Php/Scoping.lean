import Mathlib.Algebra.Order.Group.Int
import TypeFinder.Proofs.Php.Pass

/-! Namespaces in effect. The pass keeps a namespace, a brace depth that never goes below zero and the depth
    outside the open block. Here the same is said by indices alone: a declaration is in the namespace of the last
    statement before it, unless that statement opened a block and the brace that matches the opening one stands
    between the two. Both agree on every token list whose blocks hold no further statement. -/

namespace TypeFinder.Php

/-! ### Statements and the braces of their blocks -/

/-- A namespace statement: the name, if it has one, and the index of the brace that opens its block, if it has
    one. -/
structure Statement where
  name : Option String
  brace : Option Nat
  deriving DecidableEq, Repr

/-- The namespace statement at the index: the keyword, not behind a member access, and then a qualified name or
    an opening brace. -/
def statement? (ts : List Token) (i : Nat) : Option Statement := do
  let t ← ts[i]?
  guard (t.isKeyword "namespace" ∧ ¬ (before? ts i).any (·.isMemberAccess))
  let u ← ts[i + 1]?
  if u.kind = .name ∧ isQualifiedName u.text then
    return ⟨u.text, if (ts[i + 2]?).any (·.kind = .openBrace) then some (i + 2) else none⟩
  guard (u.kind = .openBrace)
  return ⟨none, some (i + 1)⟩

/-- The last statement before the index. -/
def lastStatement? (ts : List Token) : Nat → Option Statement
  | 0 => none
  | j + 1 => (statement? ts j).or (lastStatement? ts j)

/-- By how much the opening braces outnumber the closing ones from index `k` on, before index `j`. -/
def balance (ts : List Token) (k j : Nat) : Int :=
  let section_ := (ts.take j).drop k
  (section_.countP (·.kind = .openBrace) : Int) - section_.countP (·.kind = .closeBrace)

/-- The brace that matches the opening one at index `k`: the first behind it up to which as many close as open. -/
def matching? (ts : List Token) (k : Nat) : Option Nat :=
  (List.range ts.length).find? fun m => k < m ∧ balance ts k (m + 1) = 0

/-- The block that starts with the brace at index `k` ends before the index `j`. -/
def EndsBefore (ts : List Token) (k j : Nat) : Prop := ∃ m ∈ matching? ts k, m < j

instance (ts : List Token) (k j : Nat) : Decidable (EndsBefore ts k j) :=
  inferInstanceAs (Decidable (∃ m ∈ matching? ts k, m < j))

/-- The namespace in effect at the index. -/
def namespaceIn (ts : List Token) (j : Nat) : Option String :=
  match lastStatement? ts j with
  | none => none
  | some ⟨name, none⟩ => name
  | some ⟨name, some k⟩ => if EndsBefore ts k j then none else name

/-- The brace that opens the block of the statement at the index. -/
def block? (ts : List Token) (i : Nat) : Option Nat := (statement? ts i).bind (·.brace)

/-- The name with its namespace in front. -/
def qualifiedName (scope : Option String) (name : String) : String :=
  match scope with
  | some n => n ++ separator.toString ++ name
  | none => name

/-- No statement stands in the block of another one. -/
def Unnested (ts : List Token) : Prop :=
  ∀ i < ts.length, ∀ j < ts.length, (statement? ts j).isSome → ∀ k ∈ block? ts i, k < j → EndsBefore ts k j

instance (ts : List Token) : Decidable (Unnested ts) := by
  unfold Unnested
  infer_instance

section
variable {ts : List Token} {i j k : Nat} {t : Token}

/-! ### Balance -/

theorem balance_of_le (h : j ≤ k) : balance ts k j = 0 := by
  have : (ts.take j).drop k = [] := List.drop_eq_nil_of_le ((List.length_take_le _ _).trans h)
  simp [balance, this]

theorem balance_succ (hk : k ≤ j) (ht : ts[j]? = some t) :
    balance ts k (j + 1) =
      balance ts k j + (if t.kind = .openBrace then 1 else 0) - (if t.kind = .closeBrace then 1 else 0) := by
  have hj : j < ts.length := lt_length_of_getElem? ht
  have hlen : k ≤ (ts.take j).length := by
    rw [List.length_take]
    omega
  have hsplit : (ts.take (j + 1)).drop k = (ts.take j).drop k ++ [t] := by
    rw [List.take_add_one, ht, List.drop_append_of_le_length hlen]
    rfl
  simp only [balance, hsplit, List.countP_append, List.countP_singleton, decide_eq_true_eq]
  split <;> split <;> simp <;> omega

theorem EndsBefore.succ : EndsBefore ts k j → EndsBefore ts k (j + 1)
  | ⟨m, hm, hlt⟩ => ⟨m, hm, Nat.lt_succ_of_lt hlt⟩

theorem endsBefore_iff (hj : j ≤ ts.length) :
    EndsBefore ts k j ↔ ∃ m < j, k < m ∧ balance ts k (m + 1) = 0 := by
  constructor
  · rintro ⟨m, hm, hlt⟩
    obtain ⟨hp, -, -⟩ := List.find?_range_eq_some.mp hm
    exact ⟨m, hlt, of_decide_eq_true hp⟩
  · rintro ⟨m, hlt, hp⟩
    -- The first index with the property is no later than `m`.
    cases hf : matching? ts k with
    | none =>
      have := List.find?_range_eq_none.mp hf m (hlt.trans_le hj)
      simp [hp] at this
    | some m' =>
      obtain ⟨-, -, hmin⟩ := List.find?_range_eq_some.mp hf
      refine ⟨m', hf, Nat.lt_of_not_le fun hle => ?_⟩
      have := hmin m (hlt.trans_le hle)
      simp [hp] at this

theorem not_endsBefore_succ (hj : j + 1 ≤ ts.length) (hopen : ¬ EndsBefore ts k j)
    (hne : k < j → balance ts k (j + 1) ≠ 0) : ¬ EndsBefore ts k (j + 1) := by
  intro hend
  obtain ⟨m, hm, hkm, h0⟩ := (endsBefore_iff hj).mp hend
  rcases Nat.lt_succ_iff_lt_or_eq.mp hm with hmj | rfl
  · exact hopen ((endsBefore_iff (Nat.le_of_succ_le hj)).mpr ⟨m, hmj, hkm, h0⟩)
  · exact hne hkm h0

/-- While the block of the brace at `k` goes on, more braces open than close in it. -/
theorem balance_pos (ht : ts[k]? = some t) (ho : t.kind = .openBrace) (hk : k < j) (hj : j ≤ ts.length)
    (hopen : ¬ EndsBefore ts k j) : 0 < balance ts k j := by
  induction j, hk using Nat.le_induction with
  | base =>
    rw [balance_succ (Nat.le_refl k) ht, balance_of_le (Nat.le_refl k)]
    simp [ho]
  | succ j hk ih =>
    have hopen' : ¬ EndsBefore ts k j := fun h => hopen h.succ
    have hne : balance ts k (j + 1) ≠ 0 := fun h0 => hopen ((endsBefore_iff hj).mpr ⟨j, Nat.lt_succ_self j, hk, h0⟩)
    have hpos := ih (Nat.le_of_succ_le hj) hopen'
    have hstep := balance_succ (Nat.le_of_succ_le hk) (List.getElem?_eq_getElem hj)
    split at hstep <;> split at hstep <;> omega

/-! ### Statements -/

theorem statement?_eq_some_iff {s : Statement} :
    statement? ts i = some s ↔
      ∃ t, ts[i]? = some t ∧ t.isKeyword "namespace" = true ∧ (before? ts i).any (·.isMemberAccess) = false ∧
        ∃ u, ts[i + 1]? = some u ∧
          (u.kind = .name ∧ isQualifiedName u.text = true ∧
              s = ⟨some u.text, if (ts[i + 2]?).any (·.kind = .openBrace) then some (i + 2) else none⟩ ∨
            u.kind = .openBrace ∧ s = ⟨none, some (i + 1)⟩) := by
  simp only [statement?, Option.bind_eq_bind, Option.bind_eq_some_iff, Option.guard_eq_some', exists_const]
  constructor
  · rintro ⟨t, ht, ⟨hn, hm⟩, u, hu, hs⟩
    refine ⟨t, ht, hn, by simpa using hm, u, hu, ?_⟩
    split at hs
    · rename_i hname
      exact Or.inl ⟨hname.1, hname.2, (Option.some.inj hs).symm⟩
    · obtain ⟨_, ho, hs⟩ := Option.bind_eq_some_iff.mp hs
      exact Or.inr ⟨(Option.guard_eq_some' _).mp ho, (Option.some.inj hs).symm⟩
  · rintro ⟨t, ht, hn, hm, u, hu, h⟩
    refine ⟨t, ht, ⟨hn, by simp [hm]⟩, u, hu, ?_⟩
    rcases h with ⟨hname, hq, rfl⟩ | ⟨ho, rfl⟩
    · rw [if_pos ⟨hname, hq⟩]
      rfl
    · rw [if_neg (fun h => by simp [ho] at h), (Option.guard_eq_some' ()).mpr ho]
      rfl

/-- The brace of a block is the token behind the keyword or the one behind the name. -/
theorem brace_of_statement? {s : Statement} (h : statement? ts i = some s) (hk : s.brace = some k) :
    (∃ t, ts[k]? = some t ∧ t.kind = .openBrace) ∧
      (k = i + 1 ∨ k = i + 2 ∧ ∃ u, ts[i + 1]? = some u ∧ u.kind = .name) := by
  obtain ⟨-, -, -, -, u, hu, ⟨hname, -, rfl⟩ | ⟨ho, rfl⟩⟩ := statement?_eq_some_iff.mp h
  · simp only [Option.ite_none_right_eq_some, Option.some.injEq] at hk
    obtain ⟨ho, rfl⟩ := hk
    obtain ⟨t, ht, hkind⟩ := (Option.any_eq_true _ _).mp ho
    exact ⟨⟨t, ht, of_decide_eq_true hkind⟩, Or.inr ⟨rfl, u, hu, hname⟩⟩
  · obtain rfl := Option.some.inj hk
    exact ⟨⟨u, hu, ho⟩, Or.inl rfl⟩

theorem kind_of_before_brace {s : Statement} (h : statement? ts i = some s) (hk : s.brace = some k) (hi : i < j)
    (hj : j < k) (ht : ts[j]? = some t) : t.kind = .name := by
  obtain ⟨-, rfl | ⟨rfl, u, hu, hname⟩⟩ := brace_of_statement? h hk
  · omega
  · obtain rfl : j = i + 1 := by omega
    rw [ht] at hu
    cases hu
    exact hname

theorem brace_lt_of_closeBrace {s : Statement} (h : statement? ts i = some s) (hk : s.brace = some k) (hi : i < j)
    (ht : ts[j]? = some t) (hc : t.kind = .closeBrace) : k < j := by
  obtain ⟨⟨b, hb, hbo⟩, -⟩ := brace_of_statement? h hk
  rcases Nat.lt_trichotomy j k with hjk | rfl | hkj
  · rw [kind_of_before_brace h hk hi hjk ht] at hc
    cases hc
  · rw [ht] at hb
    cases hb
    rw [hbo] at hc
    cases hc
  · exact hkj

theorem brace_lt_of_statement? {s st : Statement} (h : statement? ts i = some s) (hk : s.brace = some k) (hi : i < j)
    (hst : statement? ts j = some st) (hnone : st.brace = none) : k < j := by
  obtain ⟨t, ht, hn, -, u, hu, hcase⟩ := statement?_eq_some_iff.mp hst
  obtain ⟨⟨b, hb, hbo⟩, hk⟩ := brace_of_statement? h hk
  rcases Nat.lt_trichotomy k j with hkj | rfl | hjk
  · exact hkj
  · have := kind_of_isKeyword hn
    rw [ht] at hb
    cases hb
    rw [hbo] at this
    cases this
  · -- The brace is the next token, so that it opens a block of the later statement as well.
    obtain rfl : k = j + 1 := by omega
    rw [hu] at hb
    cases hb
    rcases hcase with ⟨hname, -⟩ | ⟨-, rfl⟩
    · rw [hbo] at hname
      cases hname
    · cases hnone

/-- Behind a statement every token moves the balance of its block, the name in front of the brace by nothing. -/
theorem balance_succ_of_statement? {s : Statement} (h : statement? ts i = some s) (hk : s.brace = some k) (hi : i < j)
    (ht : ts[j]? = some t) :
    balance ts k (j + 1) =
      balance ts k j + (if t.kind = .openBrace then 1 else 0) - (if t.kind = .closeBrace then 1 else 0) := by
  rcases Nat.lt_or_ge j k with hjk | hkj
  · simp [balance_of_le (Nat.le_of_lt hjk), balance_of_le hjk, kind_of_before_brace h hk hi hjk ht]
  · exact balance_succ hkj ht

theorem enters?_drop (ts : List Token) (i : Nat) :
    enters? (ts.drop i) = (ts[i]?).bind fun u =>
      if u.kind = .name ∧ isQualifiedName u.text then some (some u.text, (ts[i + 1]?).any (·.kind = .openBrace))
      else if u.kind = .openBrace then some (none, true)
      else none := by
  rcases Nat.lt_or_ge i ts.length with hi | hi
  · rw [List.drop_eq_getElem_cons hi, List.getElem?_eq_getElem hi]
    simp [enters?]
  · simp [List.drop_eq_nil_of_le hi, List.getElem?_eq_none hi, enters?]

/-- The pass enters a namespace exactly at the statements. -/
theorem effectAt_eq_enter_iff {name : Option String} {braced : Bool} :
    effectAt ts j = .enter name braced ↔ ∃ s, statement? ts j = some s ∧ s.name = name ∧ s.brace.isSome = braced := by
  constructor
  · intro h
    obtain ⟨t, ht⟩ : ∃ t, ts[j]? = some t := by
      cases ht : ts[j]? with
      | none => simp [effectAt, ht] at h
      | some t => exact ⟨t, rfl⟩
    rw [effectAt_of_getElem? ht, effect_eq_enter_iff, enters?_drop] at h
    obtain ⟨hn, hm, he⟩ := h
    obtain ⟨u, hu, he⟩ := Option.bind_eq_some_iff.mp he
    split at he
    · rename_i hname
      cases he
      refine ⟨_, statement?_eq_some_iff.mpr ⟨t, ht, hn, hm, u, hu, Or.inl ⟨hname.1, hname.2, rfl⟩⟩, rfl, ?_⟩
      cases (ts[j + 2]?).any (·.kind = .openBrace) <;> rfl
    · split at he
      · rename_i ho
        cases he
        exact ⟨_, statement?_eq_some_iff.mpr ⟨t, ht, hn, hm, u, hu, Or.inr ⟨ho, rfl⟩⟩, rfl, rfl⟩
      · cases he
  · rintro ⟨s, hs, rfl, rfl⟩
    obtain ⟨t, ht, hn, hm, u, hu, hs⟩ := statement?_eq_some_iff.mp hs
    rw [effectAt_of_getElem? ht, effect_eq_enter_iff, enters?_drop, hu]
    refine ⟨hn, hm, ?_⟩
    rcases hs with ⟨hname, hq, rfl⟩ | ⟨ho, rfl⟩
    · rw [Option.bind_some, if_pos ⟨hname, hq⟩]
      cases (ts[j + 2]?).any (·.kind = .openBrace) <;> rfl
    · simp [ho]

theorem effectAt_ne_enter {name : Option String} {braced : Bool} (hst : statement? ts j = none) :
    effectAt ts j ≠ .enter name braced := by
  intro he
  obtain ⟨s, hs, -⟩ := effectAt_eq_enter_iff.mp he
  rw [hst] at hs
  cases hs

theorem namespaceIn_of_last {name : Option String} (h : lastStatement? ts j = some ⟨name, some k⟩) :
    namespaceIn ts j = if EndsBefore ts k j then none else name := by
  rw [namespaceIn, h]

/-- An index that makes no statement and ends no block has the namespace of the index before it. -/
theorem namespaceIn_succ (hs : statement? ts j = none)
    (hend : ∀ s ∈ lastStatement? ts j, ∀ k ∈ s.brace, EndsBefore ts k (j + 1) → EndsBefore ts k j) :
    namespaceIn ts (j + 1) = namespaceIn ts j := by
  have hlast : lastStatement? ts (j + 1) = lastStatement? ts j := by simp [lastStatement?, hs]
  unfold namespaceIn
  rw [hlast]
  rcases h : lastStatement? ts j with - | ⟨name, - | k⟩
  · rfl
  · rfl
  · have hiff : EndsBefore ts k (j + 1) ↔ EndsBefore ts k j :=
      ⟨hend _ h k rfl, EndsBefore.succ⟩
    simp only [hiff]

/-! ### The scope that the pass keeps -/

/-- The scope that the first `j` tokens leave. The recorded depth of an open block is the depth before its brace,
    so that the block ends where the depth comes back to it. -/
inductive Tracks (ts : List Token) (j : Nat) : Scope → Prop
  /-- No block is open. -/
  | outside {depth : Nat} : (∀ s ∈ lastStatement? ts j, ∀ k ∈ s.brace, EndsBefore ts k j) →
      Tracks ts j ⟨namespaceIn ts j, depth, none⟩
  /-- The block of the last statement is open, or its brace is still to come. -/
  | inside {name : Option String} {depth outer i k : Nat} : i < j → statement? ts i = some ⟨name, some k⟩ →
      lastStatement? ts j = some ⟨name, some k⟩ → ¬ EndsBefore ts k j → (depth : Int) = outer + balance ts k j →
      Tracks ts j ⟨name, depth, some outer⟩

namespace Tracks
variable {s : Scope}

theorem current (h : Tracks ts j s) : s.current = namespaceIn ts j := by
  cases h with
  | outside => rfl
  | inside _ _ hlast hopen => rw [namespaceIn_of_last hlast, if_neg hopen]

/-- A statement takes over. The block of the one before has ended; or its brace is the next token, and then that
    brace opens the block of both. -/
theorem statement {st : Statement} (hun : Unnested ts) (h : Tracks ts j s) (hst : statement? ts j = some st) :
    Tracks ts (j + 1) (s.advance (.enter st.name st.brace.isSome)) := by
  obtain ⟨t, ht, -⟩ := statement?_eq_some_iff.mp hst
  have hlast : lastStatement? ts (j + 1) = some st := by simp [lastStatement?, hst]
  obtain ⟨name, brace⟩ := st
  cases brace with
  | some k =>
    obtain ⟨-, hk⟩ := brace_of_statement? hst rfl
    have hk : j + 1 ≤ k := by omega
    refine .inside (Nat.lt_succ_self j) hst hlast ?_ (by simp [balance_of_le hk])
    rintro ⟨m, hm, hlt⟩
    obtain ⟨hp, -, -⟩ := List.find?_range_eq_some.mp hm
    have := (of_decide_eq_true hp).1
    omega
  | none =>
    -- Without a block of its own, the statement needs the block before it to have ended.
    have hnone : s.block = none := by
      cases h with
      | outside => rfl
      | @inside _ _ _ i k hi hsi _ hopen _ =>
        have hlen : j < ts.length := lt_length_of_getElem? ht
        have hkj : k < j := brace_lt_of_statement? hsi rfl hi hst rfl
        exact absurd (hun i (hi.trans hlen) j hlen (by simp [hst]) k (by simp [block?, hsi]) hkj) hopen
    have hname : namespaceIn ts (j + 1) = name := by rw [namespaceIn, hlast]
    have hadv : s.advance (.enter name (none : Option Nat).isSome) = ⟨namespaceIn ts (j + 1), s.depth, none⟩ := by
      simp [Scope.advance, hnone, hname]
    rw [hadv]
    refine .outside fun s' hs' k hk => ?_
    rw [hlast] at hs'
    cases hs'
    cases hk

/-- Where no block is open, a token that makes no statement only moves the depth. -/
theorem other_outside {depth : Nat} (hst : statement? ts j = none)
    (hended : ∀ s ∈ lastStatement? ts j, ∀ k ∈ s.brace, EndsBefore ts k j) :
    Tracks ts (j + 1) ((⟨namespaceIn ts j, depth, none⟩ : Scope).advance (effectAt ts j)) := by
  have hlast : lastStatement? ts (j + 1) = lastStatement? ts j := by simp [lastStatement?, hst]
  have hns : namespaceIn ts (j + 1) = namespaceIn ts j := namespaceIn_succ hst fun s hs k hk _ => hended s hs k hk
  obtain ⟨depth', hadv⟩ : ∃ depth', (⟨namespaceIn ts j, depth, none⟩ : Scope).advance (effectAt ts j) =
      ⟨namespaceIn ts (j + 1), depth', none⟩ := by
    rw [hns]
    cases he : effectAt ts j with
    | enter => exact absurd he (effectAt_ne_enter hst)
    | _ => simp [Scope.advance]
  rw [hadv]
  exact .outside fun s hs k hk => (hended s (hlast ▸ hs) k hk).succ

/-- In a block the depth moves with the balance, and the brace that brings both back ends the block. -/
theorem other_inside {name : Option String} {depth outer i k : Nat} (ht : ts[j]? = some t)
    (hst : statement? ts j = none) (hi : i < j) (hsi : statement? ts i = some ⟨name, some k⟩)
    (hl : lastStatement? ts j = some ⟨name, some k⟩) (hopen : ¬ EndsBefore ts k j)
    (hdepth : (depth : Int) = outer + balance ts k j) :
    Tracks ts (j + 1) ((⟨name, depth, some outer⟩ : Scope).advance (effectAt ts j)) := by
  have hlen : j + 1 ≤ ts.length := lt_length_of_getElem? ht
  have hdoes : Does (before? ts j) t (ts.drop (j + 1)) (effectAt ts j) := effectAt_of_getElem? ht ▸ does_effect
  have hlast : lastStatement? ts (j + 1) = some ⟨name, some k⟩ := by simp [lastStatement?, hst, hl]
  obtain ⟨⟨b, hb, hbo⟩, -⟩ := brace_of_statement? hsi rfl
  have hbal := balance_succ_of_statement? hsi rfl hi ht
  have hpos : k < j → 0 < balance ts k j := fun hkj => balance_pos hb hbo hkj (Nat.le_of_succ_le hlen) hopen
  have stays (depth' : Nat) (hd : (depth' : Int) = outer + balance ts k (j + 1))
      (hne : k < j → balance ts k (j + 1) ≠ 0) : Tracks ts (j + 1) ⟨name, depth', some outer⟩ :=
    .inside (Nat.lt_succ_of_lt hi) hsi hlast (not_endsBefore_succ hlen hopen hne) hd
  generalize he : effectAt ts j = e at hdoes
  cases hdoes with
  | openBrace ho =>
    simp only [ho, if_true, reduceCtorEq, if_false] at hbal
    exact stays (depth + 1) (by omega) (fun hkj => by have := hpos hkj; omega)
  | closeBrace hc =>
    simp only [hc, if_true, reduceCtorEq, if_false] at hbal
    have hkj : k < j := brace_lt_of_closeBrace hsi rfl hi ht hc
    have hpos := hpos hkj
    by_cases hback : outer = depth - 1
    · have hend : EndsBefore ts k (j + 1) := (endsBefore_iff hlen).mpr ⟨j, Nat.lt_succ_self j, hkj, by omega⟩
      have hns : namespaceIn ts (j + 1) = none := by rw [namespaceIn_of_last hlast, if_pos hend]
      have hadv : (⟨name, depth, some outer⟩ : Scope).advance .closeBrace =
          ⟨namespaceIn ts (j + 1), depth - 1, none⟩ := by
        simp [Scope.advance, hback, hns]
      rw [hadv]
      refine .outside fun s hs k' hk' => ?_
      rw [hlast] at hs
      cases hs
      cases hk'
      exact hend
    · have hadv : (⟨name, depth, some outer⟩ : Scope).advance .closeBrace = ⟨name, depth - 1, some outer⟩ := by
        simp [Scope.advance, hback]
      rw [hadv]
      exact stays (depth - 1) (by omega) (fun _ => by omega)
  | enter => exact absurd he (effectAt_ne_enter hst)
  | declare hd =>
    simp only [(kind_of_declares? hd).1, reduceCtorEq, if_false] at hbal
    exact stays depth (by omega) (fun hkj => by have := hpos hkj; omega)
  | none ho hc =>
    simp only [ho, hc, if_false] at hbal
    exact stays depth (by omega) (fun hkj => by have := hpos hkj; omega)

theorem other (h : Tracks ts j s) (ht : ts[j]? = some t) (hst : statement? ts j = none) :
    Tracks ts (j + 1) (s.advance (effectAt ts j)) := by
  cases h with
  | outside hended => exact other_outside hst hended
  | inside hi hsi hl hopen hdepth => exact other_inside ht hst hi hsi hl hopen hdepth

/-- The pass over the first tokens leaves the scope that the statements among them say. -/
theorem scopeBehind (hun : Unnested ts) : ∀ {j : Nat}, j ≤ ts.length → Tracks ts j (scopeBehind ts j)
  | 0, _ => .outside fun _ hs => by cases hs
  | j + 1, hj => by
    have ih := scopeBehind hun (Nat.le_of_succ_le hj)
    have ht : ts[j]? = some ts[j] := List.getElem?_eq_getElem hj
    cases hst : statement? ts j with
    | none => exact ih.other ht hst
    | some st =>
      have he : effectAt ts j = .enter st.name st.brace.isSome := effectAt_eq_enter_iff.mpr ⟨st, hst, rfl, rfl⟩
      rw [Php.scopeBehind, he]
      exact ih.statement hun hst

end Tracks

/-! ### The outline -/

theorem namespaceAt?_eq (ts : List Token) (j : Nat) : namespaceAt? ts j = (statement? ts j).bind (·.name) := by
  cases hst : statement? ts j with
  | none =>
    unfold namespaceAt?
    split
    · rename_i name braced he
      exact absurd he (effectAt_ne_enter hst)
    · rfl
  | some st =>
    have he : effectAt ts j = .enter st.name st.brace.isSome := effectAt_eq_enter_iff.mpr ⟨st, hst, rfl, rfl⟩
    simp [namespaceAt?, he]

theorem qualify_eq (s : Scope) (name : String) : s.qualify name = qualifiedName s.current name := rfl

theorem declarationAt?_eq (hun : Unnested ts) (hj : j ≤ ts.length) :
    declarationAt? ts j = (declaresAt? ts j).bind fun (kind, name) =>
      (ts[j]?).map fun t => ⟨qualifiedName (namespaceIn ts j) name, namespaceIn ts j, kind, t.line⟩ := by
  have hcur : (scopeBehind ts j).current = namespaceIn ts j := (Tracks.scopeBehind hun hj).current
  have hqual (name : String) : (scopeBehind ts j).qualify name = qualifiedName (namespaceIn ts j) name :=
    hcur ▸ qualify_eq (scopeBehind ts j) name
  cases ht : ts[j]? with
  | none => simp [declarationAt?, effectAt, declaresAt?, ht]
  | some t =>
    cases hd : declares? (before? ts j) t (ts.drop (j + 1)) with
    | none =>
      have : declaresAt? ts j = none := by simp [declaresAt?, ht, hd]
      rw [this]
      unfold declarationAt?
      split
      · rename_i kind name he
        rw [effectAt_of_getElem? ht, effect_eq_declare_iff, hd] at he
        cases he
      · rfl
    | some d =>
      have he : effectAt ts j = .declare d.1 d.2 := by
        rw [effectAt_of_getElem? ht]
        exact effect_eq_declare_iff.mpr hd
      simp [declarationAt?, declaresAt?, he, ht, hd, hcur, hqual]

end

/-- The namespaces of an outline are the names of the named statements, and its declarations are those that the
    tokens open, each in the namespace in effect there. -/
theorem ofSource_scoping (source : String) (hun : Unnested (tokens source)) :
    let ts := tokens source
    (Outline.ofSource source).namespaces = (List.range ts.length).filterMap (fun i => (statement? ts i).bind (·.name)) ∧
      (Outline.ofSource source).declarations = (List.range ts.length).filterMap fun j =>
        (declaresAt? ts j).bind fun (kind, name) =>
          (ts[j]?).map fun t => ⟨qualifiedName (namespaceIn ts j) name, namespaceIn ts j, kind, t.line⟩ := by
  intro ts
  have heq : Outline.ofSource source = ⟨_, _⟩ := ofTokens_eq ts
  constructor
  · rw [heq]
    exact List.filterMap_congr fun i _ => namespaceAt?_eq ts i
  · rw [heq]
    refine List.filterMap_congr fun j hj => declarationAt?_eq hun ?_
    exact Nat.le_of_lt (List.mem_range.mp hj)

/-- A block that ends, a stray closing brace behind it, and a statement that no block follows. -/
theorem ofSource_scoping_blocks :
    Unnested (tokens "<?php namespace A \x7b class B \x7b\x7d \x7d class C \x7b\x7d \x7d namespace D; \x7b class E") ∧
      Outline.ofSource "<?php namespace A \x7b class B \x7b\x7d \x7d class C \x7b\x7d \x7d namespace D; \x7b class E" =
        ⟨["A", "D"], [⟨"A\\B", some "A", .classType, 1⟩, ⟨"C", none, .classType, 1⟩, ⟨"D\\E", some "D", .classType, 1⟩]⟩ := by
  have hun : Unnested
      (tokens "<?php namespace A \x7b class B \x7b\x7d \x7d class C \x7b\x7d \x7d namespace D; \x7b class E") := by
    decide +kernel
  obtain ⟨hns, hds⟩ := ofSource_scoping _ hun
  refine ⟨hun, ?_⟩
  show (⟨(Outline.ofSource _).namespaces, (Outline.ofSource _).declarations⟩ : Outline) = _
  rw [hns, hds]
  decide +kernel

end TypeFinder.Php

import Monkey.Proofs.Parse.Brackets

/-!
# Parentheses

Where brackets are nested, every parenthesis that opens is closed, and none is closed that has not
been opened. What some parentheses in front of it close does not match by itself.
-/

namespace Monkey

/-- How many parentheses are open behind a token, from how many are open in front of it; `none` if
the token closes one that is not open. -/
def parenAfter (depth : Nat) : Kind → Option Nat
  | .leftParen => some (depth + 1)
  | .rightParen => if depth = 0 then none else some (depth - 1)
  | _ => some depth

/-- How many parentheses are open behind some tokens. -/
def parensAfter (depth : Nat) (ks : List Kind) : Option Nat :=
  ks.foldlM parenAfter depth

/-- Every parenthesis has its counterpart among the tokens. -/
def Token.ParensMatch (ts : List Token) : Prop :=
  parensAfter 0 (ts.map Token.kind) = some 0

instance (ts : List Token) : Decidable (Token.ParensMatch ts) :=
  inferInstanceAs (Decidable (parensAfter 0 (ts.map Token.kind) = some 0))

section

variable {k : Kind} {ks ls : List Kind} {m n : Nat}

theorem parensAfter_append (n : Nat) (ks ls : List Kind) :
    parensAfter n (ks ++ ls) = (parensAfter n ks).bind (parensAfter · ls) :=
  List.foldlM_append

theorem parensAfter_cons (n : Nat) (k : Kind) (ks : List Kind) :
    parensAfter n (k :: ks) = (parenAfter n k).bind (parensAfter · ks) := rfl

theorem parenAfter_add (h : parenAfter n k = some m) (d : Nat) :
    parenAfter (n + d) k = some (m + d) := by
  cases k
  case leftParen =>
    cases h
    simp [parenAfter, Nat.add_right_comm]
  case rightParen =>
    simp only [parenAfter] at h ⊢
    split at h
    · cases h
    · cases h
      rw [if_neg (by omega), Nat.sub_add_comm (by omega)]
  all_goals
    cases h
    rfl

/-- More open parentheses in front make no difference. -/
theorem parensAfter_add (h : parensAfter n ks = some m) (d : Nat) :
    parensAfter (n + d) ks = some (m + d) := by
  induction ks generalizing n with
  | nil =>
      cases h
      rfl
  | cons k ks ih =>
      obtain ⟨l, hl, hrest⟩ := Option.bind_eq_some_iff.mp h
      exact Option.bind_eq_some_iff.mpr ⟨l + d, parenAfter_add hl d, ih hrest⟩

theorem parensAfter_opens (h : ∀ k ∈ ks, k = .leftParen) (n : Nat) :
    parensAfter n ks = some (n + ks.length) := by
  induction ks generalizing n with
  | nil => rfl
  | cons k ks ih =>
      obtain ⟨rfl, hks⟩ := List.forall_mem_cons.mp h
      rw [List.length_cons, Nat.add_comm ks.length, ← Nat.add_assoc, ← ih hks (n + 1)]
      rfl

theorem eq_nil_of_closes (h : ∀ k ∈ ks, k = .rightParen) (hks : parensAfter 0 ks = some n) :
    ks = [] := by
  cases ks with
  | nil => rfl
  | cons k ks =>
      obtain ⟨rfl, -⟩ := List.forall_mem_cons.mp h
      cases hks

end

/-- What stands between parentheses and is well matched together with them, and also without them,
is not between any, provided that some beginning of it closes those in front. -/
theorem eq_nil_of_parensMatch {opens before after closes : List Token}
    (hopens : ∀ t ∈ opens, t.kind = .leftParen) (hcloses : ∀ t ∈ closes, t.kind = .rightParen)
    (hbefore : Token.ParensMatch (opens ++ before))
    (hcore : Token.ParensMatch (before ++ after))
    (hall : Token.ParensMatch (opens ++ (before ++ after) ++ closes)) :
    opens = [] ∧ closes = [] := by
  simp only [Token.ParensMatch, List.map_append, parensAfter_append] at hbefore hcore hall
  rw [parensAfter_opens (by simpa using hopens), Nat.zero_add, List.length_map] at hbefore hall
  -- what closes those in front goes below the depth at which it begins
  obtain ⟨m, hm, hrest⟩ := Option.bind_eq_some_iff.mp hcore
  have hshift := parensAfter_add hm opens.length
  rw [Nat.zero_add] at hshift
  have hzero : m + opens.length = 0 := Option.some.inj (hshift.symm.trans hbefore)
  obtain rfl : opens = [] := List.eq_nil_of_length_eq_zero (by omega)
  refine ⟨rfl, List.map_eq_nil_iff.mp (eq_nil_of_closes (n := 0) (by simpa using hcloses) ?_)⟩
  simpa [hm, hrest] using hall

/-! ## Spelled words -/

/-- As many parentheses are open behind the words as in front of them. -/
def Paired (ws : List Word) : Prop :=
  ∀ n, parensAfter n (ws.map Word.kind) = some n

theorem parenAfter_of_isBracket {k : Kind} (h : k.isBracket = false) (n : Nat) :
    parenAfter n k = some n := by
  cases k <;> first | rfl | cases h

theorem parenAfter_counterpart {l r : Kind} (h : l.counterpart? = some r) (n : Nat) :
    (parenAfter n l).bind (parenAfter · r) = some n := by
  cases l <;> cases h <;> rfl

theorem Bracketed.paired {ws : List Word} (h : Bracketed ws) : Paired ws := by
  induction h with
  | nil => exact fun _ => rfl
  | cons hw _ ih =>
      intro n
      rw [List.map_cons, parensAfter_cons, parenAfter_of_isBracket hw, Option.bind_some, ih]
  | enclosed hlr _ _ ihv ihw =>
      intro n
      obtain ⟨m, hl, hr⟩ := Option.bind_eq_some_iff.mp (parenAfter_counterpart hlr n)
      rw [List.cons_append, List.map_cons, List.map_append, List.map_cons, parensAfter_cons,
        Word.kind, hl, Option.bind_some, parensAfter_append, ihv, Option.bind_some,
        parensAfter_cons, Word.kind, hr, Option.bind_some, ihw]

theorem Paired.parensMatch {ts : List Token} (h : Paired (ts.map Token.word)) :
    Token.ParensMatch ts := by
  have hkinds := h 0
  rwa [List.map_map, List.map_congr_left fun t _ => t.word_kind] at hkinds

end Monkey

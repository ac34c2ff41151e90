import Monkey.Proofs.Eval.Literal
import Monkey.Proofs.Value.Equality

/-!
# Hash literals

A hash literal has at each key the value of the last pair with that key, where keys are told apart
as the operator `==` does. So the order of the pairs leaves no trace, in the equality of two hashes
nor in their text, which has the entries by increasing keys.
-/

namespace Monkey

open Eval

/-! ## Keys and the operator `==` -/

namespace Value

/-- It can be a key. -/
def Hashable (v : Value) : Prop :=
  ∃ k, v.hashKey = .ok k

theorem Hashable.exists_eq {v : Value} (h : v.Hashable) : ∃ k : HashKey, v = k.toValue :=
  h.imp fun _ => eq_toValue

theorem equal?_toValue_iff {k l : HashKey} : k.toValue.equal? l.toValue = some true ↔ k = l := by
  cases k <;> cases l <;> simp [HashKey.toValue, equal?]

theorem binary_equal_eq_true_iff {a b : Value} :
    binary .equal a b = .ok (.bool true) ↔ equal? a b = some true := by
  rw [binary_equal_eq]
  cases equal? a b <;> simp

/-- The operator never gives anything but a boolean. -/
theorem binary_equal_cases (a b : Value) : binary .equal a b = .ok (.bool true) ∨
    binary .equal a b = .ok (.bool false) ∨ ∃ cause, binary .equal a b = .error cause := by
  rw [binary_equal_eq]
  rcases equal? a b with _ | _ | _ <;> simp

/-- The value of the last of the pairs whose key is equal to `k`. -/
def lastAt (k : Value) (pairs : List (Value × Value)) : Option Value :=
  (pairs.reverse.find? fun q => k.equal? q.1 = some true).map (·.2)

/-- The pair of values that an entry comes from. -/
def ofEntry (e : HashKey × Value) : Value × Value :=
  (e.1.toValue, e.2)

theorem lastAt_toValue (k : HashKey) (es : List (HashKey × Value)) :
    lastAt k.toValue (es.map ofEntry) = Entries.last? k es := by
  have hp : ((fun q => decide (k.toValue.equal? q.1 = some true)) ∘ ofEntry) =
      fun e : HashKey × Value => decide (k = e.1) :=
    funext fun e => decide_eq_decide.mpr equal?_toValue_iff
  rw [lastAt, Entries.last?, ← List.map_reverse, List.find?_map, hp, Option.map_map]
  rfl

end Value

/-! ## Evaluation of the pairs -/

/-- The pairs evaluate in their order, from one world to another, to values without a signal, the
keys to values that can be keys. -/
inductive Expr.PairsEval (apply : Apply) (env : Env) :
    World → List (Expr × Expr) → List (Value × Value) → World → Prop
  | nil (w : World) : PairsEval apply env w [] [] w
  | cons {key value : Expr} {k v : Value} {w w₁ w₂ w' : World} {ps : List (Expr × Expr)}
      {kvs : List (Value × Value)} (hkey : key.eval apply env w = .ok k w₁) (hk : k.Hashable)
      (hvalue : value.eval apply env w₁ = .ok v w₂) (hps : PairsEval apply env w₂ ps kvs w') :
      PairsEval apply env w ((key, value) :: ps) ((k, v) :: kvs) w'

theorem Expr.PairsEval.exists_entries {apply : Apply} {env : Env} {w w' : World}
    {ps : List (Expr × Expr)} {kvs : List (Value × Value)}
    (h : Expr.PairsEval apply env w ps kvs w') :
    ∃ es : List (HashKey × Value), kvs = es.map Value.ofEntry ∧
      ∀ m, Expr.evalPairs apply env ps m w = .ok (Entries.putAll es m) w' := by
  induction h with
  | nil w => exact ⟨[], rfl, fun _ => rfl⟩
  | cons hkey hk hvalue _ ih =>
      obtain ⟨k, rfl⟩ := hk.exists_eq
      obtain ⟨es, rfl, hes⟩ := ih
      refine ⟨(k, _) :: es, rfl, fun m => ?_⟩
      rw [Expr.evalPairs, bind_of_ok hkey, k.toKey_toValue, pure_bind, bind_of_ok hvalue, hes]
      rfl

/-! ## The hash of some pairs -/

namespace Value

/-- The entries have the last value of each key among the pairs. -/
structure HoldsLast (kvs : List (Value × Value)) (es : List (HashKey × Value)) : Prop where
  sorted : Entries.Sorted es
  get? : ∀ k, Entries.get? k es = lastAt k.toValue kvs

theorem holdsLast_putAll (es : List (HashKey × Value)) :
    HoldsLast (es.map ofEntry) (Entries.putAll es []) where
  sorted := Entries.sorted_putAll es .nil
  get? k := by
    rw [Entries.get?_putAll, lastAt_toValue, Entries.get?, Option.or_none]

namespace HoldsLast

variable {kvs lvs : List (Value × Value)} {es ds : List (HashKey × Value)}

theorem mem_iff (h : HoldsLast kvs es) {k : HashKey} {v : Value} :
    (k, v) ∈ es ↔ lastAt k.toValue kvs = some v := by
  rw [← h.get?, h.sorted.get?_eq_some_iff]

theorem index_eq (h : HoldsLast kvs es) {k : Value} (hk : k.Hashable) :
    (hash es).index k = .ok ((lastAt k kvs).getD .null) := by
  obtain ⟨k, rfl⟩ := hk.exists_eq
  have hindex : (hash es).index k.toValue = .ok ((Entries.get? k es).getD .null) := by
    cases k <;> rfl
  rw [hindex, h.get?]

theorem rel_get? (h : HoldsLast kvs es) (h' : HoldsLast lvs ds) {R : Value → Value → Prop}
    (hR : ∀ k : Value, k.Hashable → Option.Rel R (lastAt k kvs) (lastAt k lvs)) (k : HashKey) :
    Option.Rel R (Entries.get? k es) (Entries.get? k ds) := by
  rw [h.get?, h'.get?]
  exact hR k.toValue ⟨k, hashKey_toValue k⟩

theorem eq_of_lastAt (h : HoldsLast kvs es) (h' : HoldsLast lvs ds)
    (hlast : ∀ k : Value, k.Hashable → lastAt k kvs = lastAt k lvs) : es = ds := by
  have hrel := h.rel_get? h' (R := Eq) fun k hk => by
    rw [hlast k hk]
    cases lastAt k lvs
    · exact .none
    · exact .some rfl
  refine List.forall₂_eq_eq_eq ▸ (Entries.forall₂_of_get? h.sorted h'.sorted hrel).imp ?_
  exact fun e e' he => Prod.ext he.1 he.2

theorem same_iff (h : HoldsLast kvs es) (h' : HoldsLast lvs ds) :
    (hash es).same (hash ds) = true ↔ ∀ k : Value, k.Hashable →
      Option.Rel (fun v u => v.same u = true) (lastAt k kvs) (lastAt k lvs) := by
  rw [same, sameEntries_iff]
  constructor
  · intro hes k hk
    obtain ⟨k, rfl⟩ := hk.exists_eq
    rw [← h.get?, ← h'.get?]
    exact Entries.rel_get?_of_forall₂ hes k
  · exact fun hR => Entries.forall₂_of_get? h.sorted h'.sorted (h.rel_get? h' hR)

end HoldsLast

end Value

theorem Expr.PairsEval.exists_holdsLast {apply : Apply} {env : Env} {w w' : World}
    {ps : List (Expr × Expr)} {kvs : List (Value × Value)}
    (h : Expr.PairsEval apply env w ps kvs w') (span : Span) :
    ∃ es, (Expr.hash ps span).eval apply env w = .ok (.hash es) w' ∧ Value.HoldsLast kvs es := by
  obtain ⟨es, rfl, hes⟩ := h.exists_entries
  refine ⟨Entries.putAll es [], ?_, Value.holdsLast_putAll es⟩
  rw [Expr.eval, bind_of_ok (hes [])]
  rfl

open Value in
/-- What a hash literal evaluates to, when its keys and values evaluate without a signal. -/
theorem Expr.eval_hash {apply : Apply} {env : Env} {w w' : World} {ps : List (Expr × Expr)}
    {kvs : List (Value × Value)} (h : PairsEval apply env w ps kvs w') (span : Span) :
    ∃ es, (Expr.hash ps span).eval apply env w = .ok (.hash es) w' ∧
      -- what it has at a key is the last value with an equal key
      (∀ k : Value, k.Hashable → (Value.hash es).index k = .ok ((lastAt k kvs).getD .null)) ∧
      (∀ k l : Value, k.Hashable → l.Hashable →
        (k.hashKey = l.hashKey ↔ Value.binary .equal k l = .ok (.bool true)) ∧
        (k.hashKey ≠ l.hashKey → Value.binary .equal k l = .ok (.bool false) ∨
          ∃ cause, Value.binary .equal k l = .error cause)) ∧
      -- the order of the pairs leaves no trace
      (∀ (apply' : Apply) (env' : Env) (u u' : World) (qs : List (Expr × Expr))
        (lvs : List (Value × Value)) (span' : Span), PairsEval apply' env' u qs lvs u' →
        ∃ ds, (Expr.hash qs span').eval apply' env' u = .ok (.hash ds) u' ∧
          ((∀ k : Value, k.Hashable → lastAt k kvs = lastAt k lvs) →
            (Value.hash es).same (.hash ds) = true ∧
              (Value.hash es).text = (Value.hash ds).text) ∧
          ((Value.hash es).same (.hash ds) = true ↔ ∀ k : Value, k.Hashable →
            Option.Rel (fun v x => v.same x = true) (lastAt k kvs) (lastAt k lvs))) ∧
      -- the text has the entries by increasing keys
      (∀ k v, (k, v) ∈ es ↔ lastAt k.toValue kvs = some v) ∧
      (es.map (·.1)).Pairwise HashKey.Before ∧
      (Value.hash es).text =
        "\x7b" ++ ", ".intercalate (es.map fun e => e.1.text ++ ": " ++ e.2.text) ++ "\x7d" := by
  obtain ⟨es, heval, hes⟩ := h.exists_holdsLast span
  refine ⟨es, heval, fun k => hes.index_eq, fun k l hk hl => ?_, ?_, fun k v => hes.mem_iff,
    hes.sorted.before, by rw [Value.text, entryTexts_eq_map]⟩
  · obtain ⟨k, rfl⟩ := hk.exists_eq
    obtain ⟨l, rfl⟩ := hl.exists_eq
    have hiff : k.toValue.hashKey = l.toValue.hashKey ↔
        Value.binary .equal k.toValue l.toValue = .ok (.bool true) := by
      rw [binary_equal_eq_true_iff, equal?_toValue_iff, hashKey_toValue, hashKey_toValue,
        Except.ok.injEq]
    exact ⟨hiff, fun hne => (binary_equal_cases _ _).resolve_left fun he => hne (hiff.mpr he)⟩
  · intro apply' env' u u' qs lvs span' h'
    obtain ⟨ds, heval', hds⟩ := h'.exists_holdsLast span'
    refine ⟨ds, heval', fun hlast => ?_, hes.same_iff hds⟩
    rw [hes.eq_of_lastAt hds hlast]
    exact ⟨same_self _, rfl⟩

theorem Expr.eval_hash_twice : ∃ kvs es,
    PairsEval (applyWithin 1 1) ⟨0⟩ .empty
      [(.bool true .zero, .array [] .zero), (.int 1 .zero, .str "one" .zero),
        (.int 1 .zero, .str "two" .zero)] kvs .empty ∧
    (Expr.hash [(.bool true .zero, .array [] .zero), (.int 1 .zero, .str "one" .zero),
      (.int 1 .zero, .str "two" .zero)] .zero).eval (applyWithin 1 1) ⟨0⟩ .empty =
        .ok (.hash es) .empty ∧
    (Value.hash es).index (.int 1) = .ok (.str "two") ∧
    (Value.hash es).text = "\x7b1: two, true: []\x7d" := by
  have h : PairsEval (applyWithin 1 1) ⟨0⟩ .empty
      [(.bool true .zero, .array [] .zero), (.int 1 .zero, .str "one" .zero),
        (.int 1 .zero, .str "two" .zero)] _ .empty :=
    .cons rfl ⟨.bool true, rfl⟩ rfl <| .cons rfl ⟨.int 1, rfl⟩ rfl <|
      .cons rfl ⟨.int 1, rfl⟩ rfl <| .nil _
  obtain ⟨es, heval, hindex, -⟩ := Expr.eval_hash h .zero
  refine ⟨_, es, h, heval, hindex (.int 1) ⟨.int 1, rfl⟩, ?_⟩
  cases heval
  rfl

end Monkey

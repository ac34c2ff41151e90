import Monkey.Eval
import Monkey.Proofs.Syntax.Respan

/-!
# What a program cannot see

Programs see neither the places of their trees nor which scope or function a handle stands for. So
two worlds that differ in these only are worlds in which the same happens: an evaluation in the one
mirrors an evaluation in the other, step by step, up to the renaming.
-/

namespace Monkey

/-- Other places, scopes and functions instead of those at hand. -/
structure Renaming where
  span : Span → Span
  env : Env → Env
  function : Nat → Nat

variable (r : Renaming)

/-! ## Values -/

def Closure.rename (c : Closure) : Closure :=
  ⟨r.function c.id, c.params.map (Ident.respan r.span), c.body.respan r.span, r.env c.env⟩

def Fault.rename (f : Fault) : Fault :=
  ⟨f.cause, r.span f.span⟩

mutual
@[simp] def Value.rename : Value → Value
  | .int v => .int v
  | .bool v => .bool v
  | .str v => .str v
  | .null => .null
  | .array items => .array (Value.renameAll items)
  | .hash entries => .hash (Value.renameEntries entries)
  | .closure c => .closure (c.rename r)
  | .builtin b => .builtin b
  | .signal s => .signal s.rename

def Value.renameAll : List Value → List Value
  | [] => []
  | v :: vs => v.rename :: Value.renameAll vs

def Value.renameEntries : List (HashKey × Value) → List (HashKey × Value)
  | [] => []
  | (k, v) :: es => (k, v.rename) :: Value.renameEntries es

@[simp] def Signal.rename : Signal → Signal
  | .ret v => .ret v.rename
  | .fault f => .fault (f.rename r)
end

namespace Value

@[simp] theorem renameAll_eq_map (vs : List Value) : renameAll r vs = vs.map (rename r) := by
  induction vs with
  | nil => rfl
  | cons v vs ih => rw [renameAll, ih, List.map_cons]

@[simp] theorem typeName_rename (v : Value) : (v.rename r).typeName = v.typeName := by
  cases v with
  | signal s => cases s <;> simp [typeName]
  | _ => simp [typeName]

@[simp] theorem isSignal_rename (v : Value) : (v.rename r).isSignal = v.isSignal := by
  cases v <;> simp [isSignal]

@[simp] theorem isTruthy_rename (v : Value) : (v.rename r).isTruthy = v.isTruthy := by
  cases v with
  | bool b => cases b <;> simp [isTruthy]
  | _ => simp [isTruthy]

@[simp] theorem hashKey_rename (v : Value) : (v.rename r).hashKey = v.hashKey := by
  cases v with
  | signal s => cases s <;> simp [hashKey, typeName]
  | _ => simp [hashKey, typeName]

theorem unwrapReturn_rename (v : Value) :
    (v.rename r).unwrapReturn = v.unwrapReturn.rename r := by
  cases v with
  | signal s => cases s <;> simp [unwrapReturn]
  | _ => simp [unwrapReturn]

end Value

theorem Closure.text_rename (c : Closure) : (c.rename r).text = c.text := by
  simp [Closure.text, Closure.rename, Function.comp_def, Ident.respan]

mutual
@[simp] theorem Value.text_rename : (v : Value) → (v.rename r).text = v.text
  | .int _ | .bool _ | .str _ | .null | .builtin _ => by simp [Value.text]
  | .array items => by
      simp only [Value.rename, Value.text]
      rw [Value.texts_rename items]
  | .hash entries => by
      simp only [Value.rename, Value.text]
      rw [Value.entryTexts_rename entries]
  | .closure c => by simp [Value.text, c.text_rename]
  | .signal s => by
      simp only [Value.rename, Value.text]
      exact s.text_rename

theorem Value.texts_rename : (vs : List Value) → Value.texts (Value.renameAll r vs) = Value.texts vs
  | [] => rfl
  | v :: vs => by
      rw [Value.renameAll, Value.texts, Value.texts, v.text_rename, Value.texts_rename vs]

theorem Value.entryTexts_rename : (es : List (HashKey × Value)) →
    Value.entryTexts (Value.renameEntries r es) = Value.entryTexts es
  | [] => rfl
  | (k, v) :: es => by
      rw [Value.renameEntries, Value.entryTexts, Value.entryTexts, v.text_rename,
        Value.entryTexts_rename es]

theorem Signal.text_rename : (s : Signal) → (s.rename r).text = s.text
  | .ret v => by
      simp only [Signal.rename, Signal.text]
      exact v.text_rename
  | .fault f => by simp [Signal.text, Fault.rename]
end

/-! ## Maps -/

theorem Entries.put_rename {κ : Type} [Ord κ] (k : κ) (v : Value) (m : List (κ × Value)) :
    Entries.put k (v.rename r) (m.map fun e => (e.1, e.2.rename r)) =
      (Entries.put k v m).map fun e => (e.1, e.2.rename r) := by
  induction m with
  | nil => rfl
  | cons e m ih =>
      obtain ⟨l, w⟩ := e
      rw [List.map_cons, Entries.put, Entries.put]
      cases compare k l with
      | lt | eq => rfl
      | gt => exact congrArg (List.cons _) ih

theorem Entries.get?_rename {κ : Type} [DecidableEq κ] (k : κ) (m : List (κ × Value)) :
    Entries.get? k (m.map fun e => (e.1, e.2.rename r)) =
      (Entries.get? k m).map (Value.rename r) := by
  induction m with
  | nil => rfl
  | cons e m ih =>
      obtain ⟨l, w⟩ := e
      rw [List.map_cons, Entries.get?, Entries.get?]
      split
      · rfl
      · exact ih

namespace Value

@[simp] theorem renameEntries_eq_map (es : List (HashKey × Value)) :
    renameEntries r es = es.map fun e => (e.1, e.2.rename r) := by
  induction es with
  | nil => rfl
  | cons e es ih =>
      obtain ⟨k, v⟩ := e
      rw [renameEntries, ih, List.map_cons]

/-! ## Operators -/

/-- Simple values have no parts that could be renamed. -/
def isSimple : Value → Bool
  | int _ | bool _ | str _ | null => true
  | _ => false

theorem rename_of_isSimple {v : Value} (h : v.isSimple) : v.rename r = v := by
  cases v <;> first | rfl | cases h

@[simp] theorem isSimple_rename (v : Value) : (v.rename r).isSimple = v.isSimple := by
  cases v <;> simp [isSimple]

theorem mismatch_rename (op : BinaryOp) (a b : Value) :
    mismatch op (a.rename r) (b.rename r) = mismatch op a b := by
  simp only [mismatch, typeName_rename]

/-- Operators are defined on simple values only. -/
theorem binary_of_not_isSimple {a b : Value} (h : ¬(a.isSimple ∧ b.isSimple)) (op : BinaryOp) :
    binary op a b = .error (mismatch op a b) := by
  have hequal : equal? a b = none := by
    unfold equal?
    split
    all_goals first | rfl | exact absurd ⟨rfl, rfl⟩ h
  cases op
  case equal | notEqual => simp only [binary, hequal]
  all_goals
    unfold binary
    split
    all_goals first | rfl | exact absurd ⟨rfl, rfl⟩ h | contradiction

theorem isSimple_of_binary {op : BinaryOp} {a b v : Value} (h : binary op a b = .ok v) :
    v.isSimple := by
  unfold binary at h
  split at h
  all_goals try split at h
  all_goals
    cases h
    try rfl

theorem unary_rename (op : UnaryOp) (v : Value) :
    unary op (v.rename r) = (unary op v).map (rename r) := by
  cases op with
  | not => simp [unary, not, Except.map]
  | negate =>
      have hname := typeName_rename r v
      cases v with
      | int i => simp [unary, negate, Except.map]
      | _ => simp_all [unary, negate, Except.map]

theorem binary_rename (op : BinaryOp) (a b : Value) :
    binary op (a.rename r) (b.rename r) = (binary op a b).map (rename r) := by
  by_cases h : a.isSimple ∧ b.isSimple
  · rw [rename_of_isSimple r h.1, rename_of_isSimple r h.2]
    cases hv : binary op a b with
    | error cause => rfl
    | ok v => exact congrArg Except.ok (rename_of_isSimple r (isSimple_of_binary hv)).symm
  · have h' : ¬((a.rename r).isSimple ∧ (b.rename r).isSimple) := by
      rwa [isSimple_rename, isSimple_rename]
    rw [binary_of_not_isSimple h, binary_of_not_isSimple h', mismatch_rename]
    rfl

theorem item_rename (items : List Value) (i : Int64) :
    item (items.map (rename r)) i = (item items i).rename r := by
  rw [item, item]
  split
  · simp
  · simp only [List.getD_eq_getElem?_getD, List.getElem?_map]
    cases items[i.toInt.toNat]? <;> simp

theorem index_rename (object key : Value) :
    (object.rename r).index (key.rename r) = (object.index key).map (rename r) := by
  have hobject := typeName_rename r object
  cases object with
  | array items =>
      cases key with
      | int i => simp [index, item_rename, Except.map]
      | _ => simp [index, typeName, Except.map]
  | hash entries =>
      simp only [rename, renameEntries_eq_map, index, hashKey_rename]
      cases key.hashKey with
      | error cause => rfl
      | ok k =>
          refine congrArg Except.ok ?_
          rw [Entries.get?_rename]
          cases Entries.get? k entries <;> rfl
  | _ => simp_all [index, Except.map]

end Value

namespace Builtin

theorem one_rename {f : Value → Except FaultCause Value}
    (hf : ∀ v, f (v.rename r) = (f v).map (Value.rename r)) (args : List Value) :
    one f (args.map (Value.rename r)) = (one f args).map (Value.rename r) := by
  match args with
  | [] => rfl
  | [v] => exact hf v
  | _ :: _ :: _ => simp [one, Except.map]

theorem unsupported_rename (b : Builtin) (v : Value) :
    unsupported b (v.rename r) = (unsupported b v).map (Value.rename r) := by
  rw [unsupported, Value.typeName_rename]
  rfl

theorem call_rename (b : Builtin) (args : List Value) :
    b.call (args.map (Value.rename r)) = (b.call args).map (Value.rename r) := by
  cases b with
  | len =>
      refine one_rename r (fun v => ?_) args
      cases v with
      | str s => rfl
      | array items => simp [Except.map]
      | _ => exact unsupported_rename r len _
  | first =>
      refine one_rename r (fun v => ?_) args
      cases v with
      | array items => cases items <;> simp [Except.map]
      | _ => exact unsupported_rename r first _
  | last =>
      refine one_rename r (fun v => ?_) args
      cases v with
      | array items => cases h : items.getLast? <;> simp [Except.map, h]
      | _ => exact unsupported_rename r last _
  | rest =>
      refine one_rename r (fun v => ?_) args
      cases v with
      | array items => cases items <;> simp [Except.map]
      | _ => exact unsupported_rename r rest _
  | push =>
      match args with
      | [] | [_] | _ :: _ :: _ :: _ => simp [call, Except.map]
      | [v, w] =>
          cases v with
          | array items => simp [call, Except.map]
          | _ => exact unsupported_rename r push _
  | puts => rfl

theorem written_rename (b : Builtin) (args : List Value) :
    b.written (args.map (Value.rename r)) = b.written args := by
  cases b <;> simp [written, Function.comp_def]

end Builtin

end Monkey

import Monkey.Proofs.Syntax.Erasure
import Monkey.Token.Scan

/-!
# Lines of a text

Where a text begins shows in the places of its items only. And a line that is read without an error
is over with its line feed: no item of it goes on behind that. So lines can be read one by one.
-/

namespace Monkey

namespace Scan

/-! ## Items from a mode on -/

/-- The items of a text whose first characters have been read, and are at hand as a mode. -/
def itemsFrom (pos : Nat) (m : Mode) : List Char → List Item
  | [] => (m.item? pos).toList
  | c :: cs => (m.step pos c).1 ++ itemsFrom (pos + c.utf8Size) (m.step pos c).2 cs

theorem finish_foldl (cs : List Char) (pos : Nat) (m : Mode) (items : Array Item) :
    (cs.foldl feed ⟨pos, m, items⟩).finish = items.toList ++ itemsFrom pos m cs := by
  induction cs generalizing pos m items with
  | nil => rfl
  | cons c cs ih =>
      rw [List.foldl_cons, feed, ih]
      simp [itemsFrom]

/-! ## No places -/

/-- The mode without the place where its item starts. -/
def Mode.erase : Mode → Mode
  | gap => gap
  | comment => comment
  | word _ cs => word 0 cs
  | digits _ cs => digits 0 cs
  | half _ c single double => half 0 c single double
  | slash _ => slash 0
  | quoted _ cs bad => quoted 0 cs bad
  | escape _ cs bad => escape 0 cs bad

variable {m m' : Mode}

theorem item?_erase (h : m.erase = m'.erase) (pos pos' : Nat) :
    (m.item? pos).map Item.erase = (m'.item? pos').map Item.erase := by
  cases m <;> cases m' <;> cases h <;> rfl

/-- What a character completes and the mode behind it, without their places. -/
def eraseStep (r : Option Item × Mode) : Option Item × Mode :=
  (r.1.map Item.erase, r.2.erase)

theorem begin_erase (pos pos' : Nat) (c : Char) :
    eraseStep (begin pos c) = eraseStep (begin pos' c) := by
  unfold begin
  cases single? c with
  | some kind => rfl
  | none =>
      cases half? c with
      | some kinds => rfl
      | none =>
          dsimp only
          repeat' split
          all_goals rfl

theorem extend?_erase (h : m.erase = m'.erase) (pos pos' : Nat) (c : Char) :
    (m.extend? pos c).map eraseStep = (m'.extend? pos' c).map eraseStep := by
  cases m <;> cases m' <;> cases h
  case quoted.quoted.refl start cs bad start' =>
    simp only [Mode.extend?]
    split
    · cases bad <;> rfl
    · split <;> rfl
  all_goals
    simp only [Mode.extend?]
    try split <;> rfl

theorem step_erase (h : m.erase = m'.erase) (pos pos' : Nat) (c : Char) :
    (m.step pos c).1.map Item.erase = (m'.step pos' c).1.map Item.erase ∧
      (m.step pos c).2.erase = (m'.step pos' c).2.erase := by
  have hextend := extend?_erase h pos pos' c
  rw [Mode.step, Mode.step]
  cases he : m.extend? pos c with
  | some r =>
      cases he' : m'.extend? pos' c with
      | none => simp [he, he'] at hextend
      | some r' =>
          rw [he, he'] at hextend
          obtain ⟨hitem, hnext⟩ := Prod.mk.inj (Option.some.inj hextend)
          refine ⟨?_, hnext⟩
          dsimp only
          rw [← Option.toList_map, hitem, Option.toList_map]
  | none =>
      cases he' : m'.extend? pos' c with
      | some r' => simp [he, he'] at hextend
      | none =>
          have hitem := item?_erase h pos pos'
          obtain ⟨hbegun, hnext⟩ := Prod.mk.inj (begin_erase pos pos' c)
          refine ⟨?_, hnext⟩
          dsimp only
          rw [List.map_append, List.map_append, ← Option.toList_map, ← Option.toList_map, hitem,
            hbegun, Option.toList_map, Option.toList_map]

theorem itemsFrom_erase (h : m.erase = m'.erase) (pos pos' : Nat) (cs : List Char) :
    (itemsFrom pos m cs).map Item.erase = (itemsFrom pos' m' cs).map Item.erase := by
  induction cs generalizing m m' pos pos' with
  | nil =>
      have hitem := item?_erase h pos pos'
      rw [itemsFrom, itemsFrom, ← Option.toList_map, hitem, Option.toList_map]
  | cons c cs ih =>
      obtain ⟨hitems, hnext⟩ := step_erase h pos pos' c
      rw [itemsFrom, itemsFrom, List.map_append, List.map_append, hitems, ih hnext]

/-! ## Line feeds -/

/-- Behind a line feed the reader is between two items or in a string. -/
theorem step_newline (pos : Nat) (m : Mode) : (m.step pos '\n').2 = .gap ∨
    ∃ start cs bad, (m.step pos '\n').2 = .quoted start cs bad := by
  cases m with
  | quoted start cs bad => exact .inr ⟨start, _, bad, rfl⟩
  | escape start cs bad => exact .inr ⟨start, _, _, rfl⟩
  | _ => exact .inl rfl

theorem itemsFrom_line {cs : List Char} (ds : List Char) {pos : Nat}
    (h : ∀ i ∈ itemsFrom pos m (cs ++ ['\n']), ∃ t, i = .ok t) :
    ∃ stop, itemsFrom pos m (cs ++ '\n' :: ds) =
      itemsFrom pos m (cs ++ ['\n']) ++ itemsFrom stop .gap ds := by
  induction cs generalizing m pos with
  | nil =>
      rcases step_newline pos m with hgap | ⟨start, cs, bad, hquoted⟩
      · refine ⟨pos + '\n'.utf8Size, ?_⟩
        simp [itemsFrom, hgap, Mode.item?]
      · -- the string has no end, and that is an error
        obtain ⟨t, ht⟩ := h (error .unclosedString start (pos + '\n'.utf8Size))
          (by simp [itemsFrom, hquoted, Mode.item?])
        cases ht
  | cons c cs ih =>
      obtain ⟨stop, hrest⟩ := ih fun i hi => h i (List.mem_append_right _ hi)
      refine ⟨stop, ?_⟩
      rw [List.cons_append, List.cons_append, itemsFrom, itemsFrom, hrest, List.append_assoc]

end Scan

/-! ## Whole lines -/

/-- The text ends with a line feed. -/
def EndsLine (text : String) : Prop :=
  ∃ cs, text.toList = cs ++ ['\n']

theorem scan_eq_itemsFrom (text : String) : scan text = Scan.itemsFrom 0 .gap text.toList := by
  rw [scan, Scan.start, Scan.finish_foldl]
  rfl

/-- A line without an error in it is read as if it stood alone, and so is what follows it. -/
theorem scan_line {a : String} (b : String) (ha : EndsLine a)
    (h : ∀ i ∈ scan a, ∃ t, i = .ok t) :
    (scan (a ++ b)).map Item.erase = (scan a).map Item.erase ++ (scan b).map Item.erase := by
  obtain ⟨cs, hcs⟩ := ha
  simp only [scan_eq_itemsFrom, String.toList_append, hcs] at h ⊢
  obtain ⟨stop, hline⟩ := Scan.itemsFrom_line b.toList h
  rw [List.append_assoc, List.singleton_append, hline, List.map_append,
    Scan.itemsFrom_erase rfl stop 0]

end Monkey

import Mathlib.Data.List.TakeWhile
import Monkey.Text.Quoted

/-!
# Quoted text can be read back

Where the spelling of a character ends can be seen from the spelling, and so can which character it
is; so quoted text ends at its closing quote, and what it says is settled, whatever follows it.
-/

namespace Monkey.Text

/-- A stretch that all characters of a class belong to ends where the first other one stands. -/
theorem stretch_unique {p : Char → Bool} {xs ys r s : List Char} (hx : ∀ c ∈ xs, p c)
    (hy : ∀ c ∈ ys, p c) (hr : ∀ c ∈ r.head?, ¬p c) (hs : ∀ c ∈ s.head?, ¬p c)
    (h : xs ++ r = ys ++ s) : xs = ys ∧ r = s := by
  have hstop {t : List Char} (ht : ∀ c ∈ t.head?, ¬p c) : t.takeWhile p = [] := by
    cases t with
    | nil => rfl
    | cons c t => exact List.takeWhile_cons_of_neg (ht c rfl)
  have hxy : xs = ys := by
    have htake := congrArg (List.takeWhile p) h
    rwa [List.takeWhile_append_of_pos hx, List.takeWhile_append_of_pos hy, hstop hr, hstop hs,
      List.append_nil, List.append_nil] at htake
  exact ⟨hxy, List.append_cancel_left (hxy ▸ h)⟩

/-! ## Numerals in base sixteen -/

theorem exists_digitChar_of_mem_toDigits {n : Nat} {c : Char} (h : c ∈ Nat.toDigits 16 n) :
    ∃ d, c = Nat.digitChar d := by
  induction n using Nat.strongRecOn with
  | ind n ih =>
  by_cases hn : n < 16
  · rw [Nat.toDigits_of_lt_base hn] at h
    exact ⟨n, List.mem_singleton.mp h⟩
  · rw [Nat.toDigits_of_base_le (by decide) (Nat.le_of_not_lt hn)] at h
    rcases List.mem_append.mp h with h | h
    · exact ih (n / 16) (by omega) h
    · exact ⟨n % 16, List.mem_singleton.mp h⟩

theorem digitChar_injective {i j : Nat} (hi : i < 16) (hj : j < 16)
    (h : Nat.digitChar i = Nat.digitChar j) : i = j := by
  have hall : ∀ i : Fin 16, ∀ j : Fin 16, Nat.digitChar i = Nat.digitChar j → i = j := by decide
  exact congrArg Fin.val (hall ⟨i, hi⟩ ⟨j, hj⟩ h)

theorem toDigits_injective {n m : Nat} (h : Nat.toDigits 16 n = Nat.toDigits 16 m) : n = m := by
  have hlength {i j : Nat} (hi : i < 16) (hj : 16 ≤ j) :
      Nat.toDigits 16 i ≠ Nat.toDigits 16 j := by
    intro he
    rw [Nat.toDigits_of_lt_base hi, Nat.toDigits_of_base_le (by decide) hj] at he
    have hpos : 0 < (Nat.toDigits 16 (j / 16)).length := Nat.length_toDigits_pos
    have hlen := congrArg List.length he
    rw [List.length_append, List.length_singleton, List.length_singleton] at hlen
    omega
  induction n using Nat.strongRecOn generalizing m with
  | ind n ih =>
  rcases Nat.lt_or_ge n 16 with hn | hn <;> rcases Nat.lt_or_ge m 16 with hm | hm
  · rw [Nat.toDigits_of_lt_base hn, Nat.toDigits_of_lt_base hm] at h
    exact digitChar_injective hn hm (List.singleton_inj.mp h)
  · exact absurd h (hlength hn hm)
  · exact absurd h.symm (hlength hm hn)
  · rw [Nat.toDigits_of_base_le (by decide) hn, Nat.toDigits_of_base_le (by decide) hm] at h
    obtain ⟨hfront, hlast⟩ := List.append_inj' h rfl
    have hdiv := ih (n / 16) (by omega) hfront
    have hmod := digitChar_injective (by omega) (by omega) (List.singleton_inj.mp hlast)
    omega

/-! ## Single characters -/

/-- The letters after a backslash, and what each of them stands for. -/
def letters : List (Char × Char) :=
  [('0', '\x00'), ('t', '\t'), ('r', '\r'), ('n', '\n'), ('\\', '\\'), ('"', '"')]

/-- How a character is spelled between double quotes. -/
inductive Escaped : Char → List Char → Prop
  | letter {l c} : (l, c) ∈ letters → Escaped c ['\\', l]
  | code {c} : Escaped c ('\\' :: 'u' :: '\x7b' :: Nat.toDigits 16 c.toNat ++ ['\x7d'])
  | plain {c} : c ≠ '\\' → c ≠ '"' → Escaped c [c]

theorem escaped_escape (c : Char) : Escaped c (escape '"' c).toList := by
  rw [escape]
  split
  · rename_i hc
    exact hc ▸ .letter (by decide)
  split
  · rename_i hc
    exact hc ▸ .letter (by decide)
  split
  · rename_i hc
    exact hc ▸ .letter (by decide)
  split
  · rename_i hc
    exact hc ▸ .letter (by decide)
  split
  · rename_i hc
    rw [String.toList_ofList]
    simp only [Bool.or_eq_true, decide_eq_true_eq] at hc
    rcases hc with rfl | rfl
    · exact .letter (by decide)
    · exact .letter (by decide)
  rename_i hmark
  split
  · simpa using Escaped.code (c := c)
  · have hne : c ≠ '\\' ∧ c ≠ '"' := by simpa using hmark
    simpa using Escaped.plain hne.1 hne.2

namespace Escaped

variable {c d : Char} {xs ys r s : List Char}

theorem exists_cons (h : Escaped c xs) : ∃ a as, xs = a :: as ∧ a ≠ '"' := by
  cases h with
  | letter => exact ⟨_, _, rfl, by decide⟩
  | code => exact ⟨_, _, rfl, by decide⟩
  | plain _ hquote => exact ⟨_, _, rfl, hquote⟩

theorem cancel (h : Escaped c xs) (h' : Escaped d ys) (heq : xs ++ r = ys ++ s) :
    c = d ∧ r = s := by
  have hunique : ∀ p ∈ letters, ∀ q ∈ letters, p.1 = q.1 → p.2 = q.2 := by decide
  have hcode : ∀ p ∈ letters, p.1 ≠ 'u' := by decide
  cases h with
  | letter hl =>
      cases h' with
      | letter hl' =>
          simp only [List.cons_append, List.nil_append, List.cons.injEq] at heq
          exact ⟨hunique _ hl _ hl' heq.2.1, heq.2.2⟩
      | code =>
          simp only [List.cons_append, List.nil_append, List.cons.injEq] at heq
          exact absurd heq.2.1 (hcode _ hl)
      | plain hslash _ => exact absurd (List.cons.inj heq).1.symm hslash
  | code =>
      cases h' with
      | letter hl' =>
          simp only [List.cons_append, List.nil_append, List.cons.injEq] at heq
          exact absurd heq.2.1.symm (hcode _ hl')
      | code =>
          simp only [List.cons_append, List.append_assoc, List.nil_append, List.cons.injEq,
            true_and] at heq
          have hdigit : ∀ n, ∀ a ∈ Nat.toDigits 16 n, (a != '\x7d') = true := by
            intro n a ha
            obtain ⟨d, rfl⟩ := exists_digitChar_of_mem_toDigits ha
            simp [Nat.digitChar_ne]
          obtain ⟨hdigits, hrest⟩ := stretch_unique (hdigit _) (hdigit _) (by simp) (by simp) heq
          exact ⟨Char.toNat_inj.mp (toDigits_injective hdigits), (List.cons.inj hrest).2⟩
      | plain hslash _ => exact absurd (List.cons.inj heq).1.symm hslash
  | plain hslash _ =>
      cases h' with
      | letter => exact absurd (List.cons.inj heq).1 hslash
      | code => exact absurd (List.cons.inj heq).1 hslash
      | plain => exact List.cons.inj heq

end Escaped

/-! ## Whole texts -/

theorem toList_quoteString (text : String) : (quoteString text).toList =
    '"' :: (text.toList.flatMap fun c => (escape '"' c).toList) ++ ['"'] := by
  simp [quoteString, String.toList_join, List.flatMap_map]

theorem escapes_cancel : ∀ {cs ds r s : List Char},
    (cs.flatMap fun c => (escape '"' c).toList) ++ '"' :: r =
      (ds.flatMap fun c => (escape '"' c).toList) ++ '"' :: s → cs = ds ∧ r = s
  | [], [], _, _, h => ⟨rfl, (List.cons.inj h).2⟩
  | [], d :: ds, r, s, h => by
      obtain ⟨a, as, ha, hquote⟩ := (escaped_escape d).exists_cons
      rw [List.flatMap_cons, ha] at h
      exact absurd (List.cons.inj h).1.symm hquote
  | c :: cs, [], r, s, h => by
      obtain ⟨a, as, ha, hquote⟩ := (escaped_escape c).exists_cons
      rw [List.flatMap_cons, ha] at h
      exact absurd (List.cons.inj h).1 hquote
  | c :: cs, d :: ds, r, s, h => by
      rw [List.flatMap_cons, List.flatMap_cons, List.append_assoc, List.append_assoc] at h
      obtain ⟨rfl, hrest⟩ := (escaped_escape c).cancel (escaped_escape d) h
      obtain ⟨rfl, hrs⟩ := escapes_cancel hrest
      exact ⟨rfl, hrs⟩

/-- Two quoted texts with something behind each are the same only if the texts are, and what is
behind them. -/
theorem quoteString_cancel {t u : String} {r s : List Char}
    (h : (quoteString t).toList ++ r = (quoteString u).toList ++ s) : t = u ∧ r = s := by
  rw [toList_quoteString, toList_quoteString, List.cons_append, List.cons_append,
    List.cons_append, List.cons_append, List.append_assoc, List.append_assoc] at h
  obtain ⟨htext, hrest⟩ := escapes_cancel (List.cons.inj h).2
  exact ⟨String.toList_inj.mp htext, hrest⟩

end Monkey.Text

import Monkey.Proofs.Parse.Attempts
import Monkey.Proofs.Parse.Rows

/-!
# The spans of a program nest

Whatever the text is, and whatever errors are in it: the span of every node of the program covers
whole characters of the text, the spans of its parts lie inside it, and where parts follow one
another in the source, their spans do so too.
-/

namespace Monkey

open String (utf8Len)

/-! ## Programs laid out -/

theorem Tree.Laid.of_partOf {B : UInt32 → Prop} {t u : Tree} (ht : t.PartOf u) (h : u.Laid B) :
    t.Laid B := by
  induction ht with
  | refl => exact h
  | tail _ hchild ih =>
      cases h with
      | mk _ _ hlaid => exact ih (hlaid _ hchild)

namespace Cursor

variable {B : UInt32 → Prop} {c c' : Cursor} {ts : List Token}

theorem Steady.of_course (h : c.Steady B) (hcourse : Course c ts c') : c'.Steady B := by
  obtain ⟨hpairwise, hbounded⟩ := h
  rw [hcourse.tokens_eq] at hpairwise hbounded
  exact ⟨(List.pairwise_append.mp hpairwise).2.1,
    fun t ht => hbounded t (List.mem_append_right _ ht)⟩

theorem Steady.start_le (h : c.Steady B) (hcourse : Course c ts c') (hc : ¬c.current.isEof)
    (hc' : ¬c'.current.isEof) : c.current.span.start ≤ c'.current.span.start := by
  have hpairwise := h.pairwise
  have htokens := hcourse.tokens_eq
  rw [tokens_eq_cons hc] at hpairwise htokens
  rw [tokens_eq_cons hc'] at htokens
  cases ts with
  | nil =>
      rw [(List.cons.inj htokens).1]
      exact UInt32.le_refl _
  | cons t ts =>
      have hmem : c'.current ∈ c.advance.tokens :=
        (List.cons.inj htokens).2 ▸ List.mem_append_right _ List.mem_cons_self
      exact UInt32.le_trans (h.current hc).le (List.rel_of_pairwise_cons hpairwise hmem)

/-- The statements that are read from a place on stand one after the other. -/
theorem statementsWithin_row (n : Nat) : ∀ {c : Cursor} (lo : UInt32), c.Steady B →
    (¬c.current.isEof → lo ≤ c.current.span.start) →
      ∃ hi, Row B lo ((c.statementsWithin n).1.map Stmt.span) hi ∧
        ∀ s ∈ (c.statementsWithin n).1, (Tree.stmt s).Laid B := by
  induction n with
  | zero => exact fun lo _ _ => ⟨lo, .nil (UInt32.le_refl _), List.forall_mem_nil _⟩
  | succ n ih =>
      intro c lo h hlo
      by_cases hc : c.current.isEof
      · rw [statementsWithin_of_isEof _ hc]
        exact ⟨lo, .nil (UInt32.le_refl _), List.forall_mem_nil _⟩
      obtain ⟨⟨ts, -, hcourse⟩, -⟩ := next_course hc
      have hnext := h.of_course hcourse
      cases hr : Parse.statement c with
      | ok s c' =>
          rw [next_of_ok hr] at hnext
          have hyields := Parse.statement_yields h hc hr
          have hlays := hyields.lays
          have hs := hlays.laid _ List.mem_cons_self
          obtain ⟨hi, hrow, hlaid⟩ := ih s.span.stop hnext fun hc' =>
            UInt32.le_trans (hlays.row.stop_le _ List.mem_cons_self)
              (hlays.steady.stop_le hlays.live hc')
          rw [statementsWithin_of_ok hc hr]
          exact ⟨hi, .cons (UInt32.le_trans (hlo hc) hyields.start) hs.bounded hrow,
            List.forall_mem_cons.mpr ⟨hs, hlaid⟩⟩
      | error e c' =>
          rw [statementsWithin_of_error hc hr, ← next_of_error hr]
          exact ih lo hnext fun hc' => UInt32.le_trans (hlo hc) (h.start_le hcourse hc hc')

end Cursor

theorem parseStream_program (s : TokenStream) : (parseStream s).program =
    ((Cursor.ofStream s).statementsWithin (Cursor.ofStream s).left).1 := rfl

/-! ## Texts -/

section

variable {text : String} {i : Item}

/-- At the offset a character of the text begins, or the text ends. -/
def IsPlace (text : String) (offset : UInt32) : Prop :=
  (⟨offset.toNat⟩ : String.Pos.Raw).IsValid text

theorem Span.Bounded.within {s : Span} (h : s.Bounded (IsPlace text)) : s.Within text := by
  have hlt := UInt32.lt_iff_toNat_lt.mp h.lt
  have hlength : s.length.toNat = s.stop.toNat - s.start.toNat := by
    rw [← Span.toNat_gap]
    exact congrArg (fun s => s.length.toNat) (Span.between_self h.le).symm
  refine ⟨by omega, h.start, ?_⟩
  rw [show s.start.toNat + s.length.toNat = s.stop.toNat by omega]
  exact h.stop

variable (hsize : text.utf8ByteSize < UInt32.size)
include hsize

theorem toNat_stop_of_mem_scan (hi : i ∈ scan text) : i.span.stop.toNat = i.stop := by
  have hle := (scan_covered hsize).stop_le hi
  rw [Nat.zero_add, utf8Len_toList] at hle
  exact Span.toNat_stop (Nat.lt_of_le_of_lt hle hsize)

theorem bounded_of_mem_scan (hi : i ∈ scan text) : i.span.Bounded (IsPlace text) := by
  obtain ⟨before, cs, after, htext, hcut, hstart, hstop⟩ := (scan_covered hsize).place_of_mem hi
  rw [Nat.zero_add] at hstart
  have hwithin := (Item.textIn_of_append htext hcut.written.ne_nil hstart hstop).1
  have hstop' : i.span.stop.toNat = i.span.start.toNat + i.span.length.toNat :=
    toNat_stop_of_mem_scan hsize hi
  refine ⟨?_, hwithin.start, ?_⟩
  · rw [UInt32.lt_iff_toNat_lt, hstop']
    exact Nat.lt_add_of_pos_right hwithin.nonempty
  · rw [IsPlace, hstop']
    exact hwithin.stop

/-- The tokens of a text stand one after the other, also where there are errors between them. -/
theorem steady_ofText : (Cursor.ofStream (.ofText text)).Steady (IsPlace text) := by
  have hsub : (Cursor.ofStream (.ofText text)).tokens.Sublist
      ((scan text).filterMap Except.toOption) := by
    rw [Cursor.tokens_ofStream]
    exact List.takeWhile_sublist _
  have hitems : (scan text).Pairwise fun i j => i.span.stop ≤ j.span.start := by
    refine (scan_covered hsize).pairwise.imp_of_mem fun hi _ hle => ?_
    rw [UInt32.le_iff_toNat_le, toNat_stop_of_mem_scan hsize hi]
    exact hle
  constructor
  · refine List.Pairwise.sublist hsub (hitems.filterMap Except.toOption ?_)
    rintro (_ | t) (_ | u) hle _ ⟨⟩ _ ⟨⟩
    exact hle
  · intro t ht
    obtain ⟨_ | u, hu, hut⟩ := List.mem_filterMap.mp (hsub.subset ht) <;> cases hut
    exact bounded_of_mem_scan hsize hu

/-- The program of a text is laid out in it. -/
theorem program_row : ∃ hi, Row (IsPlace text) 0 ((parse text).program.map Stmt.span) hi ∧
    ∀ s ∈ (parse text).program, (Tree.stmt s).Laid (IsPlace text) := by
  rw [parse, parseStream_program]
  exact Cursor.statementsWithin_row _ 0 (steady_ofText hsize) fun _ => UInt32.zero_le

theorem laid_of_hasNode {t : Tree} (ht : Program.HasNode (parse text).program t) :
    t.Laid (IsPlace text) := by
  obtain ⟨s, hs, ht⟩ := ht
  obtain ⟨-, -, hlaid⟩ := program_row hsize
  exact (hlaid s hs).of_partOf ht

end

/-- The span of a node covers whole characters of the text, and the parts of the node lie inside it,
one after the other in the order of the source. -/
structure Tree.Nests (text : String) (t : Tree) : Prop where
  within : t.span.Within text
  inside : ∀ u ∈ t.children, t.span.start ≤ u.span.start ∧ u.span.stop ≤ t.span.stop
  ordered : t.children.Pairwise fun u v => u.span.stop ≤ v.span.start

theorem Tree.Laid.nests {text : String} {t : Tree} (h : t.Laid (IsPlace text)) : t.Nests text := by
  cases h with
  | mk hbounded hrow _ =>
      have hpairwise := hrow.pairwise
      rw [List.pairwise_map] at hpairwise
      refine ⟨hbounded.within, fun u hu => ?_, hpairwise⟩
      have hmem := List.mem_map_of_mem (f := Tree.span) hu
      exact ⟨hrow.start_le _ hmem, hrow.stop_le _ hmem⟩

/-- In the program of a text the spans of all nodes nest, and the statements follow one another. -/
theorem program_spans_nest {text : String} (hsize : text.utf8ByteSize < UInt32.size) :
    (∀ t, Program.HasNode (parse text).program t → t.Nests text) ∧
      (parse text).program.Pairwise fun s s' => s.span.stop ≤ s'.span.start := by
  refine ⟨fun t ht => (laid_of_hasNode hsize ht).nests, ?_⟩
  obtain ⟨hi, hrow, -⟩ := program_row hsize
  exact List.pairwise_map.mp hrow.pairwise

/-- The span of the first statement begins at the `-`, without the parenthesis in front of it. -/
theorem program_spans_nest_after_error :
    let text := "let 5; (-a)[\x7b\"é\": if (b) \x7b c \x7d else if (d) \x7b e \x7d\x7d]; f"
    text.utf8ByteSize < UInt32.size ∧ ((parse text).errors.length = 1 ∧
      (parse text).program.map Stmt.span = [⟨8, 43⟩, ⟨53, 1⟩]) ∧
      (∀ t, Program.HasNode (parse text).program t → t.Nests text) ∧
      (parse text).program.Pairwise fun s s' => s.span.stop ≤ s'.span.start := by
  intro text
  have hsize : text.utf8ByteSize < UInt32.size := by decide
  exact ⟨hsize, by decide +kernel, program_spans_nest hsize⟩

end Monkey

import Monkey.Proofs.Token.Slices

/-!
# Texts in front of a line feed and behind it

Whatever the reader is in the middle of, a line feed ends it, unless it is a string. So the text in
front of a line feed and the text behind it are cut into items each by itself, and those behind it
only have their places counted from elsewhere.
-/

namespace Monkey

open String (utf8Len)

/-! ## Places counted from further back -/

/-- The span with `n` more bytes in front of it. -/
def Span.shift (n : Nat) (s : Span) : Span :=
  ⟨.ofNat (s.start.toNat + n), s.length⟩

theorem Span.shift_shiftBack (n : Nat) (s : Span) : (s.shiftBack (.ofNat n)).shift n = s := by
  rw [shift, shiftBack, UInt32.ofNat_add, UInt32.ofNat_toNat, UInt32.sub_add_cancel]

theorem Span.toNat_start_shift {s : Span} {n : Nat} (h : s.start.toNat + n < UInt32.size) :
    (s.shift n).start.toNat = s.start.toNat + n :=
  UInt32.toNat_ofNat_of_lt' h

namespace Item

theorem span_respan (f : Span → Span) (i : Item) : (i.respan f).span = f i.span := by
  cases i <;> rfl

theorem respan_respan (f g : Span → Span) (i : Item) :
    (i.respan g).respan f = i.respan (f ∘ g) := by
  cases i <;> rfl

theorem respan_id (i : Item) : i.respan id = i := by
  cases i <;> rfl

theorem shift_shiftBack (n : Nat) (i : Item) :
    (i.respan (.shiftBack (.ofNat n))).respan (.shift n) = i := by
  have hid : Span.shift n ∘ Span.shiftBack (.ofNat n) = id := funext (Span.shift_shiftBack n)
  rw [respan_respan, hid, respan_id]

end Item

namespace Scan

theorem pos_foldl (cs : List Char) (s : Scan) : (cs.foldl feed s).pos = s.pos + utf8Len cs := by
  induction cs generalizing s with
  | nil => rfl
  | cons c cs ih => rw [List.foldl_cons, ih, utf8Len_cons_add]; rfl

/-- A text is cut into the same items wherever it begins. -/
theorem foldl_shift {text : String} {n : Nat} (items : Array Item)
    (hsize : n + text.utf8ByteSize < UInt32.size) :
    (text.toList.foldl feed ⟨n, .gap, items⟩).finish =
      items.toList ++ (scan text).map (Item.respan (.shift n)) := by
  rw [← utf8Len_toList] at hsize
  obtain ⟨is, hcovered, hrun⟩ := foldl_covered text.toList n items hsize
  have hscan : scan text = is.map (Item.respan (.shiftBack (.ofNat n))) :=
    hcovered.finish_foldl #[] (Nat.add_zero n).symm hsize
  have hback : Item.respan (.shift n) ∘ Item.respan (.shiftBack (.ofNat n)) = id :=
    funext (Item.shift_shiftBack n)
  rw [hrun, hscan, List.map_map, hback, List.map_id]

/-- Behind a line feed nothing is left of the item in front of it. -/
theorem feed_newline {s : Scan} (h : ∀ e, .error e ∈ s.finish → e.cause ≠ .unclosedString) :
    s.feed '\n' = ⟨s.pos + 1, .gap, s.finish.toArray⟩ := by
  obtain ⟨pos, m, items⟩ := s
  cases m with
  | quoted start cs bad | escape start cs bad =>
      exact absurd rfl
        (h ⟨.unclosedString, .ofBytes start pos⟩ (by simp [finish, Mode.item?, error]))
  | comment =>
      rw [feed_extend (r := .gap) rfl]
      simp only [finish, Mode.item?, Option.toList_none, List.append_nil]
      rfl
  | _ => rw [feed_of_not_extend rfl, feed_begin (begin_of_isBlank rfl)]; rfl

end Scan

/-! ## Texts in a row -/

variable {a b : String}

theorem scan_newline (hsize : a.utf8ByteSize + 1 + b.utf8ByteSize < UInt32.size)
    (hclosed : ∀ e, .error e ∈ scan a → e.cause ≠ .unclosedString) :
    scan (a ++ "\n" ++ b) =
      scan a ++ (scan b).map (Item.respan (.shift (a.utf8ByteSize + 1))) := by
  have hpos : (a.toList.foldl Scan.feed Scan.start).pos = a.utf8ByteSize := by
    rw [Scan.pos_foldl, utf8Len_toList, Scan.start, Nat.zero_add]
  have hline : "\n".toList = ['\n'] := rfl
  rw [scan, String.toList_append, String.toList_append, hline, List.foldl_append, List.foldl_append,
    List.foldl_cons, List.foldl_nil, Scan.feed_newline hclosed, hpos, Scan.foldl_shift _ hsize]
  rfl

/-- If no string is open at the end of `a`, the stream of `a`, a line feed and `b` has the items of
`a` and then those of `b`, these and the end as many bytes later as stand in front of `b`. -/
theorem ofText_newline (hsize : a.utf8ByteSize + b.utf8ByteSize < UInt32.size - 1)
    (hclosed : ∀ e, .error e ∈ (TokenStream.ofText a).items → e.cause ≠ .unclosedString) :
    TokenStream.ofText (a ++ "\n" ++ b) =
        ⟨(TokenStream.ofText a).items ++
            (TokenStream.ofText b).items.map (Item.respan (.shift (a.utf8ByteSize + 1))),
          (TokenStream.ofText b).stop.shift (a.utf8ByteSize + 1)⟩ ∧
      (∀ i ∈ (TokenStream.ofText b).items,
        (i.respan (.shift (a.utf8ByteSize + 1))).start = i.start + (a.utf8ByteSize + 1)) ∧
      ((TokenStream.ofText b).stop.shift (a.utf8ByteSize + 1)).start.toNat =
        (TokenStream.ofText b).stop.start.toNat + (a.utf8ByteSize + 1) := by
  have hroom : a.utf8ByteSize + 1 + b.utf8ByteSize < UInt32.size := by omega
  have hb : b.utf8ByteSize < UInt32.size := by omega
  have hstop : (TokenStream.ofText b).stop.start.toNat = b.utf8ByteSize :=
    Span.toNat_ofBytes_start _ hb
  have hend : ((TokenStream.ofText b).stop.shift (a.utf8ByteSize + 1)).start.toNat =
      (TokenStream.ofText b).stop.start.toNat + (a.utf8ByteSize + 1) :=
    Span.toNat_start_shift (by omega)
  refine ⟨?_, fun i hi => ?_, hend⟩
  · have hlast : (TokenStream.ofText b).stop.shift (a.utf8ByteSize + 1) =
        .ofBytes (a ++ "\n" ++ b).utf8ByteSize (a ++ "\n" ++ b).utf8ByteSize := by
      have hbytes : (a ++ "\n" ++ b).utf8ByteSize = b.utf8ByteSize + (a.utf8ByteSize + 1) := by
        rw [String.utf8ByteSize_append, String.utf8ByteSize_append, Nat.add_comm]
        rfl
      rw [Span.shift, hstop, hbytes, Span.ofBytes_self, TokenStream.ofText, Span.ofBytes_self]
    rw [hlast]
    exact congrArg (TokenStream.mk · _) (scan_newline hroom hclosed)
  · have hle := (scan_covered hb).stop_le hi
    rw [Nat.zero_add, utf8Len_toList, Item.stop] at hle
    rw [Item.start, Item.span_respan]
    exact Span.toNat_start_shift (by omega)

/-- In front of the line feed are an escape that does not exist, a character that begins nothing
and half of `!=`; behind it is the other half. -/
theorem ofText_newline_half :
    "\"\\q\" é !".utf8ByteSize + "= x".utf8ByteSize < UInt32.size - 1 ∧
      (∀ e, .error e ∈ (TokenStream.ofText "\"\\q\" é !").items → e.cause ≠ .unclosedString) ∧
      TokenStream.ofText ("\"\\q\" é !" ++ "\n" ++ "= x") =
        ⟨[.error ⟨.unknownEscape 'q', ⟨0, 4⟩⟩, .error ⟨.unrecognized 'é', ⟨5, 2⟩⟩,
          .ok ⟨.bang, "!", ⟨8, 1⟩⟩, .ok ⟨.assign, "=", ⟨10, 1⟩⟩, .ok ⟨.ident, "x", ⟨12, 1⟩⟩],
          ⟨13, 0⟩⟩ := by
  have ha : TokenStream.ofText "\"\\q\" é !" = ⟨[.error ⟨.unknownEscape 'q', ⟨0, 4⟩⟩,
      .error ⟨.unrecognized 'é', ⟨5, 2⟩⟩, .ok ⟨.bang, "!", ⟨8, 1⟩⟩], ⟨9, 0⟩⟩ := rfl
  have hb : TokenStream.ofText "= x" =
      ⟨[.ok ⟨.assign, "=", ⟨0, 1⟩⟩, .ok ⟨.ident, "x", ⟨2, 1⟩⟩], ⟨3, 0⟩⟩ := rfl
  have hsize : "\"\\q\" é !".utf8ByteSize + "= x".utf8ByteSize < UInt32.size - 1 := by decide
  have hclosed : ∀ e, .error e ∈ (TokenStream.ofText "\"\\q\" é !").items →
      e.cause ≠ .unclosedString := by
    rw [ha]
    intro e he hcause
    simp only [List.mem_cons, Except.error.injEq, reduceCtorEq, List.not_mem_nil, or_false] at he
    rcases he with rfl | rfl <;> cases hcause
  refine ⟨hsize, hclosed, (ofText_newline hsize hclosed).1.trans ?_⟩
  rw [ha, hb]
  rfl

end Monkey

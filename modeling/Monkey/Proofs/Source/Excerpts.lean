import Monkey.Proofs.Parse.Nodes
import Monkey.Proofs.Source.Lines

/-!
# The text of a node by itself

The text that the span of an expression covers can be parsed by itself. It is the expression, at
places counted from where it starts, unless a parenthesis of the text has its counterpart outside of
it: parentheses leave no trace in the tree, and where the first or the last operand of an expression
stands in parentheses, the span does not cover those at its edge.
-/

namespace Monkey

open Token (Orderly ParensMatch)
open Parse (Climbs)

/-! ## Places counted from a later offset -/

namespace Span

theorem toNat_min (i j : UInt32) : (min i j).toNat = min i.toNat j.toNat := by
  change (if i ≤ j then i else j).toNat = _
  split <;> rename_i h <;> rw [UInt32.le_iff_toNat_le] at h <;> omega

theorem toNat_max (i j : UInt32) : (max i j).toNat = max i.toNat j.toNat := by
  change (if i ≤ j then j else i).toNat = _
  split <;> rename_i h <;> rw [UInt32.le_iff_toNat_le] at h <;> omega

/-- The second span is the first one as it is counted from the offset `n` on. -/
structure ShiftsBack (n : UInt32) (s t : Span) : Prop where
  start : s.start.toNat = t.start.toNat + n.toNat
  length : s.length.toNat = t.length.toNat
  fits : s.start.toNat + s.length.toNat < UInt32.size

namespace ShiftsBack

variable {n : UInt32} {a b a' b' : Span}

theorem shiftBack_eq (h : ShiftsBack n a b) : a.shiftBack n = b := by
  have hstart : a.start = b.start + n := by
    have hlt := a.start.toNat_lt
    rw [← UInt32.toNat_inj, UInt32.toNat_add, Nat.mod_eq_of_lt (h.start ▸ hlt), h.start]
  rw [shiftBack, hstart, UInt32.add_sub_cancel, UInt32.toNat_inj.mp h.length]

theorem merge (h : ShiftsBack n a b) (h' : ShiftsBack n a' b') :
    ShiftsBack n (a.merge a') (b.merge b') := by
  obtain ⟨hstart, hlength, hfits⟩ := h
  obtain ⟨hstart', hlength', hfits'⟩ := h'
  have hmin : (a.merge a').start.toNat = min a.start.toNat a'.start.toNat := toNat_min _ _
  have hmin' : (b.merge b').start.toNat = min b.start.toNat b'.start.toNat := toNat_min _ _
  have hgap : (a.merge a').length.toNat = max a.stop.toNat a'.stop.toNat -
      min a.start.toNat a'.start.toNat := by
    rw [Span.merge, between, toNat_gap, toNat_max, toNat_min]
  have hgap' : (b.merge b').length.toNat = max b.stop.toNat b'.stop.toNat -
      min b.start.toNat b'.start.toNat := by
    rw [Span.merge, between, toNat_gap, toNat_max, toNat_min]
  rw [toNat_stop hfits, toNat_stop hfits'] at hgap
  rw [toNat_stop (by omega), toNat_stop (by omega)] at hgap'
  constructor <;> omega

/-- The span of a token that does not start in front of the offset. -/
theorem of_le (hn : n ≤ a.start) (hfits : a.start.toNat + a.length.toNat < UInt32.size) :
    ShiftsBack n a (a.shiftBack n) where
  start := by
    have hle := UInt32.le_iff_toNat_le.mp hn
    rw [shiftBack, UInt32.toNat_sub_of_le _ _ hn]
    omega
  length := rfl
  fits := hfits

end ShiftsBack

end Span

/-- From tokens at places counted from elsewhere, the same trees are made at such places. -/
theorem parseStream_shiftBack {n : UInt32} {s t : TokenStream} {p : Program}
    (h : s.Like (Span.ShiftsBack n) t) (hs : parseStream s = ⟨p, []⟩) :
    parseStream t = ⟨Stmt.respanAll (.shiftBack n) p, []⟩ := by
  obtain ⟨hprogram, herrors⟩ := parseStream_like (fun h h' => h.merge h') h
  rw [hs] at hprogram herrors
  have hjoins : Joins (Span.ShiftsBack n) (.shiftBack n) id := fun _ _ h => h.shiftBack_eq
  have hrespan := hprogram.respan_eq hjoins
  rw [Stmt.respanAll_id] at hrespan
  rw [hrespan, ← List.forall₂_nil_left_iff.mp herrors]

/-! ## Texts without errors -/

variable {text : String}

/-- A text without errors has all its parentheses in pairs. -/
theorem parensMatch_of_errors_nil (hsize : text.utf8ByteSize < UInt32.size)
    (h : (parse text).errors = []) : ParensMatch (tokensOf text) := by
  have hscan := scan_eq_tokensOf (scan_of_errors_nil hsize h)
  rw [parse, TokenStream.ofText, hscan] at h
  exact (spelled_of_errors_nil (not_isEof_of_mem_tokensOf hsize) h).bracketed.paired.parensMatch

theorem parensMatch_respan {f : Span → Span} {ts : List Token} :
    ParensMatch (ts.map (Token.respan f)) ↔ ParensMatch ts := by
  simp only [ParensMatch, List.map_map]
  rfl

/-! ## Nodes -/

/-- The text that a span covers is cut into the tokens that the span frames, and its end comes where
the span stops. -/
theorem like_textIn (hsize : text.utf8ByteSize < UInt32.size) {ts us vs ws : List Token} {s : Span}
    (hscan : scan text = ts.map .ok) (hts : ts = us ++ vs ++ ws) (hs : s.Frames vs) :
    TokenStream.Like (Span.ShiftsBack s.start) ⟨vs.map .ok, ⟨s.stop, 0⟩⟩
      (.ofText (s.textIn text)) := by
  have hstop := stop_le_of_frames hsize hscan hts hs
  have hmem {t : Token} (ht : t ∈ vs) : t ∈ ts := hts ▸ by simp [ht]
  have horderly : Orderly vs := (orderly_of_scan hsize hscan).sublist
    (hts ▸ (List.sublist_append_right us vs).trans (List.sublist_append_left _ ws))
  constructor
  · change List.Forall₂ _ _ (scan (s.textIn text))
    rw [scan_textIn hsize hscan hts hs, List.forall₂_map_left_iff, List.forall₂_map_right_iff,
      List.forall₂_map_right_iff, List.forall₂_same]
    exact fun t ht => .ok ⟨rfl, rfl, .of_le (hs.start_le horderly ht)
      (Nat.lt_of_le_of_lt (stop_le_of_scan hsize hscan (hmem ht)) hsize)⟩
  · change Span.ShiftsBack s.start _ (.ofBytes _ _)
    rw [utf8ByteSize_textIn hsize hscan hts hs, Span.ofBytes_self, UInt32.ofNat_toNat]
    have htoNat := Span.toNat_stop (Nat.lt_of_le_of_lt hstop hsize)
    exact ⟨htoNat.trans (Nat.add_comm _ _), rfl, s.stop.toNat_lt⟩

/-- Every expression of a program without errors was climbed over tokens in a row, and its span
frames these but for parentheses around them. -/
theorem Part.ReadFrom.exists_climbs (hsize : text.utf8ByteSize < UInt32.size)
    (herrors : (parse text).errors = []) {e : Expr} (he : Part.ReadFrom text (.expr e)) :
    ∃ n c us c' vs ws, Climbs n c e us c' ∧ c.tokens.length ≤ n ∧ e.span.Bare us ∧
      tokensOf text = vs ++ us ++ ws := by
  have hscan := scan_eq_tokensOf (scan_of_errors_nil hsize herrors)
  have htokens : (Cursor.ofStream (.ofText text)).tokens = tokensOf text := by
    rw [TokenStream.ofText, hscan]
    exact (Cursor.ofStream_of_tokens _ (not_isEof_of_mem_tokensOf hsize)).2.1
  have hread := he.allRead (htokens ▸ orderly_of_scan hsize hscan)
  rw [htokens] at hread
  obtain ⟨c, us, c', hc, hclimbs, hbare⟩ := hread.readAmong
  have hlen := hc.length_le
  obtain ⟨vs, hvs⟩ := hc
  refine ⟨_, c, us, c', vs, c'.advance.tokens, hclimbs, hlen, hbare, ?_⟩
  rw [← hvs, hclimbs.stretch.tokens, List.append_assoc]

/-- The text of an expression of a program without errors is, by itself, that expression at places
counted from where it starts, just if the parentheses in that text are in pairs. -/
theorem parse_textIn_iff {text : String} (hsize : text.utf8ByteSize < UInt32.size)
    (herrors : (parse text).errors = []) {e : Expr} (he : Part.ReadFrom text (.expr e)) :
    parse (e.span.textIn text) =
        ⟨[.expr (e.respan (.shiftBack e.span.start)) ⟨0, e.span.length⟩], []⟩ ↔
      ParensMatch (tokensOf (e.span.textIn text)) := by
  have hscan := scan_eq_tokensOf (scan_of_errors_nil hsize herrors)
  obtain ⟨n, c, us, c', vs, ws, hclimbs, hn, hbare, hus⟩ := he.exists_climbs hsize herrors
  obtain ⟨opens, before, after, closes, hframes, hbefore⟩ := hbare
  have hcore : tokensOf text = (vs ++ opens) ++ (before ++ after) ++ (closes ++ ws) := by
    rw [hus, hframes.eq]
    simp only [List.append_assoc]
  have hslice := scan_textIn hsize hscan hcore hframes.frames
  have hbytes := utf8ByteSize_textIn hsize hscan hcore hframes.frames
  constructor
  · intro hparse
    exact parensMatch_of_errors_nil (hbytes ▸ e.span.length.toNat_lt)
      (congrArg Parsed.errors hparse)
  · intro hmatch
    rw [tokensOf_of_scan hslice, parensMatch_respan] at hmatch
    -- no parentheses have been left out, so the text has all tokens that were climbed over
    obtain rfl := hframes.eq_core hbefore hmatch (hclimbs.parensMatch hn)
    have hlike := like_textIn hsize hscan hcore hframes.frames
    have halone := parseStream_shiftBack hlike (hclimbs.parseStream_eq hn _)
    rw [parse, halone]
    simp [Span.shiftBack]

/-- The operand of the `-` is in parentheses in part: `-(f(1))[0]` is an expression by itself, and
`f(1))[0]` is none. -/
theorem parse_textIn_iff_index :
    let text := "let x = -(f(1))[0];"
    let index : Expr := .index (.call (.ident "f" ⟨10, 1⟩) [.int 1 ⟨12, 1⟩] ⟨10, 4⟩)
      (.int 0 ⟨16, 1⟩) ⟨10, 8⟩
    let e : Expr := .unary .negate index ⟨8, 10⟩
    text.utf8ByteSize < UInt32.size ∧ (parse text).errors = [] ∧ Part.ReadFrom text (.expr e) ∧
      Part.ReadFrom text (.expr index) ∧ e.span.textIn text = "-(f(1))[0]" ∧
      index.span.textIn text = "f(1))[0]" ∧
      parse "-(f(1))[0]" = ⟨[.expr (e.respan (.shiftBack 8)) ⟨0, 10⟩], []⟩ ∧
      parse "f(1))[0]" ≠ ⟨[.expr (index.respan (.shiftBack 10)) ⟨0, 8⟩], []⟩ := by
  intro text index e
  have hsize : text.utf8ByteSize < UInt32.size := by decide
  have herrors : (parse text).errors = [] := by decide +kernel
  have hprogram : (parse text).program = [.bind ⟨"x", ⟨4, 1⟩⟩ e ⟨0, 19⟩] := by decide +kernel
  have hstmt : Part.ReadFrom text (.stmt (.bind ⟨"x", ⟨4, 1⟩⟩ e ⟨0, 19⟩)) :=
    .stmt (hprogram ▸ List.mem_cons_self)
  have he : Part.ReadFrom text (.expr e) := .child hstmt .bound
  have hindex : Part.ReadFrom text (.expr index) := .child he .operand
  have htext : e.span.textIn text = "-(f(1))[0]" := by decide +kernel
  have htext' : index.span.textIn text = "f(1))[0]" := by decide +kernel
  have hiff := parse_textIn_iff hsize herrors he
  have hiff' := parse_textIn_iff hsize herrors hindex
  rw [htext] at hiff
  rw [htext'] at hiff'
  exact ⟨hsize, herrors, he, hindex, htext, htext', hiff.mpr (by decide +kernel),
    mt hiff'.mp (by decide +kernel)⟩

/-- The text of the sum `(1) + 2` is not the sum by itself, but `1) + 2`. -/
theorem textIn_lacks_parenthesis :
    let text := "(1) + 2"
    let e : Expr := .binary .add (.int 1 ⟨1, 1⟩) (.int 2 ⟨6, 1⟩) ⟨1, 6⟩
    (parse text).errors = [] ∧ Part.ReadFrom text (.expr e) ∧ e.span.textIn text = "1) + 2" ∧
      (parse (e.span.textIn text)).errors ≠ [] ∧
      parse (e.span.textIn text) ≠
        ⟨[.expr (e.respan (.shiftBack e.span.start)) ⟨0, e.span.length⟩], []⟩ := by
  intro text e
  have hprogram : (parse text).program = [.expr e e.span] := by decide +kernel
  have herrors : (parse (e.span.textIn text)).errors ≠ [] := by decide +kernel
  have hstmt : Part.ReadFrom text (.stmt (.expr e e.span)) :=
    .stmt (hprogram ▸ List.mem_cons_self)
  exact ⟨by decide +kernel, .child hstmt .evaluated, by decide +kernel, herrors,
    fun h => herrors (congrArg Parsed.errors h)⟩

end Monkey

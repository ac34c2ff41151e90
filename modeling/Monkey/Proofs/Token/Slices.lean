import Monkey.Proofs.Token.Coverage

/-!
# Slices of a text

From the start of one token of a text to the stop of a later one, the text by itself is cut into
these tokens and those between them, at places that are counted from the first one.
-/

namespace Monkey

open String (utf8Len)

/-! ## Places counted from elsewhere -/

/-- The span as it is counted from the offset `n` on. -/
def Span.shiftBack (n : UInt32) (s : Span) : Span :=
  ⟨s.start - n, s.length⟩

def Token.respan (f : Span → Span) (t : Token) : Token :=
  ⟨t.kind, t.lexeme, f t.span⟩

def Item.respan (f : Span → Span) : Item → Item
  | .ok t => .ok (t.respan f)
  | .error e => .error ⟨e.cause, f e.span⟩

theorem Span.shiftBack_eq {s : Span} {k p n : Nat} (hstart : s.start.toNat = k + p)
    (hlength : s.length.toNat = n) (hsize : p + n < UInt32.size) :
    s.shiftBack (.ofNat k) = .ofBytes p (p + n) := by
  have hofNat : s.start = .ofNat p + .ofNat k := by
    rw [← UInt32.ofNat_add, Nat.add_comm, ← hstart, UInt32.ofNat_toNat]
  rw [ofBytes_add hsize, shiftBack, hofNat, UInt32.add_sub_cancel, ← hlength, UInt32.ofNat_toNat]

/-- What is read from some characters is settled by them, but for its place. -/
theorem Item.CutFrom.respan_eq {f : Span → Span} {i j : Item} {cs : List Char} (hi : i.CutFrom cs)
    (hj : j.CutFrom cs) (hreading : i.reading = j.reading) (hspan : f i.span = j.span) :
    i.respan f = j := by
  cases i with
  | error e =>
      cases j with
      | ok u => cases hreading
      | error e' =>
          obtain ⟨cause', span'⟩ := e'
          obtain rfl : e.cause = cause' := Except.error.inj hreading
          exact congrArg (fun s => Except.error (LexicalError.mk e.cause s)) hspan
  | ok t =>
      cases j with
      | error e => cases hreading
      | ok u =>
          have hword : t.word = u.word := Except.ok.inj hreading
          have hkind : t.kind = u.kind := by rw [← t.word_kind, hword, u.word_kind]
          have hlexeme : t.lexeme = u.lexeme := by
            by_cases hk : t.kind = .string
            · rw [Token.word_string hk, Token.word_string (hkind ▸ hk)] at hword
              exact Word.string.inj hword
            · rw [hi.lexeme t rfl hk, hj.lexeme u rfl (hkind ▸ hk)]
          change f t.span = u.span at hspan
          change Except.ok (Token.mk t.kind t.lexeme (f t.span)) = _
          rw [hkind, hlexeme, hspan]

/-! ## Coverings cut off -/

namespace Covered

variable {pos : Nat} {cs : List Char} {i j : Item} {is js ks : List Item}

/-- What is in front of an item can be cut off. -/
theorem drop (h : Covered pos cs (is ++ i :: js)) : ∃ before rest, cs = before ++ rest ∧
    i.start = pos + utf8Len before ∧ Covered (pos + utf8Len before) rest (i :: js) := by
  generalize hl : is ++ i :: js = l at h
  induction h generalizing is with
  | nil | lastComment => simp at hl
  | @blank pos c cs l _ _ ih =>
      obtain ⟨before, rest, rfl, hstart, hrest⟩ := ih hl
      refine ⟨c :: before, rest, rfl, ?_, ?_⟩
      · rw [hstart, Scan.utf8Len_cons_add]
      · rwa [Scan.utf8Len_cons_add]
  | @comment pos cs rest l _ _ ih =>
      obtain ⟨before, rest, rfl, hstart, hrest⟩ := ih hl
      refine ⟨'/' :: '/' :: cs ++ ['\n'] ++ before, rest, by simp, ?_, ?_⟩
      · rw [hstart, Scan.utf8Len_append_add _ _ before]
      · rwa [Scan.utf8Len_append_add _ _ before]
  | @item pos cs rest i' l hcut hstart hstop hjoins hrest ih =>
      cases is with
      | nil =>
          obtain ⟨rfl, rfl⟩ := List.cons.inj hl
          exact ⟨[], cs ++ rest, rfl, hstart, .item hcut hstart hstop hjoins hrest⟩
      | cons _ is =>
          obtain ⟨rfl, htail⟩ := List.cons.inj hl
          obtain ⟨before, rest, rfl, hstart, hrest⟩ := ih htail
          refine ⟨cs ++ before, rest, (List.append_assoc ..).symm, ?_, ?_⟩
          · rw [hstart, Scan.utf8Len_append_add]
          · rwa [Scan.utf8Len_append_add]

/-- What is behind an item can be cut off. -/
theorem take (h : Covered pos cs (is ++ i :: js)) : ∃ front after, cs = front ++ after ∧
    i.stop = pos + utf8Len front ∧ Covered pos front (is ++ [i]) := by
  generalize hl : is ++ i :: js = l at h
  induction h generalizing is with
  | nil | lastComment => simp at hl
  | @blank pos c cs l hc _ ih =>
      obtain ⟨front, after, rfl, hstop, hfront⟩ := ih hl
      exact ⟨c :: front, after, rfl, by rw [hstop, Scan.utf8Len_cons_add], .blank hc hfront⟩
  | @comment pos cs rest l hcs _ ih =>
      obtain ⟨front, after, rfl, hstop, hfront⟩ := ih hl
      refine ⟨'/' :: '/' :: cs ++ ['\n'] ++ front, after, by simp, ?_, .comment hcs hfront⟩
      rw [hstop, Scan.utf8Len_append_add _ _ front]
  | @item pos cs rest i' l hcut hstart hstop hjoins hrest ih =>
      cases is with
      | nil =>
          obtain ⟨rfl, rfl⟩ := List.cons.inj hl
          refine ⟨cs, rest, rfl, hstop, ?_⟩
          have hlast : Covered pos (cs ++ []) [i] := .item hcut hstart hstop nofun .nil
          rwa [List.append_nil] at hlast
      | cons _ is =>
          obtain ⟨rfl, htail⟩ := List.cons.inj hl
          obtain ⟨front, after, rfl, hstop', hfront⟩ := ih htail
          refine ⟨cs ++ front, after, (List.append_assoc ..).symm, ?_,
            .item hcut hstart hstop (fun c hc => hjoins c ?_) hfront⟩
          · rw [hstop', Scan.utf8Len_append_add]
          · rw [List.head?_append, hc, Option.some_or]
            rfl

/-- From one item to another one, these and those between them cover the text. -/
theorem slice (h : Covered pos cs (is ++ js ++ ks)) (hi : js.head? = some i)
    (hj : js.getLast? = some j) : ∃ before mid after, cs = before ++ mid ++ after ∧
      i.start = pos + utf8Len before ∧ j.stop = i.start + utf8Len mid ∧
      Covered i.start mid js := by
  obtain ⟨init, rfl⟩ := List.getLast?_eq_some_iff.mp hj
  have hsplit : Covered pos cs ((is ++ init) ++ j :: ks) := by simpa using h
  obtain ⟨front, after, rfl, hstop, hfront⟩ := hsplit.take
  rw [List.append_assoc] at hfront
  obtain ⟨rest, hrest⟩ := List.head?_eq_some_iff.mp hi
  rw [hrest] at hfront ⊢
  obtain ⟨before, mid, rfl, hstart, hmid⟩ := hfront.drop
  refine ⟨before, mid, after, rfl, hstart, ?_, hstart ▸ hmid⟩
  rw [hstop, hstart, Scan.utf8Len_append_add]

/-- A covered text is cut into its items also if it begins `k` bytes earlier. -/
theorem finish_foldl {k : Nat} (h : Covered pos cs is) : ∀ {p : Nat} (items : Array Item),
    pos = k + p → pos + utf8Len cs < UInt32.size →
    (cs.foldl Scan.feed ⟨p, .gap, items⟩).finish =
      items.toList ++ is.map (Item.respan (.shiftBack (.ofNat k))) := by
  induction h with
  | nil => exact fun items _ _ => by simp
  | lastComment hcs =>
      intro p items _ _
      rw [Scan.foldl_comment hcs]
      simp [Scan.finish, Scan.Mode.item?]
  | @blank pos c cs is hc _ ih =>
      intro p items hpos hsize
      rw [Scan.utf8Len_cons_add] at hsize
      rw [List.foldl_cons, Scan.feed_begin (Scan.begin_of_isBlank hc), ih items (by omega) hsize]
  | @comment pos cs rest is hcs _ ih =>
      intro p items hpos hsize
      rw [Scan.utf8Len_append_add] at hsize
      rw [List.foldl_append, Scan.foldl_line hcs, ih items (by omega) hsize]
  | @item pos cs rest i is hcut hstart hstop hjoins _ ih =>
      intro p items hpos hsize
      rw [Scan.utf8Len_append_add] at hsize
      obtain ⟨j, hreading, hcut', hspan, hpast⟩ := Scan.past_reading hcut.written p items
      have hshift : i.span.shiftBack (.ofNat k) = j.span := by
        rw [hspan]
        refine Span.shiftBack_eq (hstart.trans hpos) ?_ (by omega)
        rw [Item.stop] at hstop
        rw [Item.start] at hstart
        omega
      rw [List.foldl_append, hpast.finish_foldl hjoins, ih _ (by omega) hsize, List.map_cons,
        hcut.respan_eq hcut' hreading.symm hshift]
      simp

end Covered

/-! ## Spans of tokens in a row -/

/-- The tokens stand one after the other. -/
structure Token.Orderly (ts : List Token) : Prop where
  each : ∀ t ∈ ts, t.span.start ≤ t.span.stop
  pairwise : ts.Pairwise fun t u => t.span.stop ≤ u.span.start

open Token (Orderly)

variable {us vs ws ts : List Token} {s s' : Span} {t : Token}

theorem Token.Orderly.sublist (h : Orderly ts) (hs : us.Sublist ts) : Orderly us where
  each t ht := h.each t (hs.subset ht)
  pairwise := h.pairwise.sublist hs

/-- The span goes from the start of the first of the tokens to the stop of the last one. -/
def Span.Frames (s : Span) (ts : List Token) : Prop :=
  ∃ first last, ts.head? = some first ∧ ts.getLast? = some last ∧
    s = .between first.span.start last.span.stop

theorem Token.Orderly.start_le_stop (h : Orderly ts) {first last : Token}
    (hfirst : ts.head? = some first) (hlast : ts.getLast? = some last) :
    first.span.start ≤ last.span.stop := by
  obtain ⟨rest, rfl⟩ := List.head?_eq_some_iff.mp hfirst
  have hmem := List.mem_of_getLast? hlast
  have hself := h.each first List.mem_cons_self
  rcases List.mem_cons.mp hmem with rfl | hrest
  · exact hself
  · exact UInt32.le_trans hself (UInt32.le_trans (List.rel_of_pairwise_cons h.pairwise hrest)
      (h.each last hmem))

namespace Span

theorem between_self (h : s.start ≤ s.stop) : between s.start s.stop = s := by
  rw [between, gap, if_pos h, stop, UInt32.add_comm, UInt32.add_sub_cancel]

theorem Frames.start_le (h : s.Frames ts) (hts : Orderly ts) (ht : t ∈ ts) :
    s.start ≤ t.span.start := by
  obtain ⟨first, last, hfirst, -, rfl⟩ := h
  obtain ⟨rest, rfl⟩ := List.head?_eq_some_iff.mp hfirst
  rw [between_start]
  rcases List.mem_cons.mp ht with rfl | hrest
  · exact UInt32.le_refl _
  · exact UInt32.le_trans (hts.each first List.mem_cons_self)
      (List.rel_of_pairwise_cons hts.pairwise hrest)

theorem frames_singleton (h : Orderly [t]) : t.span.Frames [t] :=
  ⟨t, t, rfl, rfl, (between_self (h.each t List.mem_cons_self)).symm⟩

/-- What two spans cover together, and all that is between them. -/
theorem Frames.merge (h : s.Frames us) (h' : s'.Frames ws) (hts : Orderly (us ++ (vs ++ ws))) :
    (s.merge s').Frames (us ++ (vs ++ ws)) := by
  have hus := hts.sublist (List.sublist_append_left _ _)
  have hws := hts.sublist ((List.sublist_append_right vs ws).trans (List.sublist_append_right us _))
  obtain ⟨a, b, ha, hb, rfl⟩ := h
  obtain ⟨c, d, hc, hd, rfl⟩ := h'
  have hab := hus.start_le_stop ha hb
  have hcd := hws.start_le_stop hc hd
  have hbc : b.span.stop ≤ c.span.start := (List.pairwise_append.mp hts.pairwise).2.2 b
    (List.mem_of_getLast? hb) c (List.mem_append_right _ (List.mem_of_head? hc))
  refine ⟨a, d, ?_, ?_, ?_⟩
  · rw [List.head?_append, ha, Option.some_or]
  · rw [List.getLast?_append, List.getLast?_append, hd, Option.some_or, Option.some_or]
  · have hmin : min a.span.start c.span.start = a.span.start :=
      if_pos (UInt32.le_trans hab hbc)
    have hmax : max b.span.stop d.span.stop = d.span.stop :=
      if_pos (UInt32.le_trans hbc hcd)
    rw [Span.merge, between_start, between_start, hmin, between_stop hab, between_stop hcd, hmax]

/-- What a span covers together with a token behind it. -/
theorem Frames.merge_last (h : s.Frames us) (ht : ws.getLast? = some t)
    (hts : Orderly (us ++ (vs ++ ws))) : (s.merge t.span).Frames (us ++ (vs ++ ws)) := by
  obtain ⟨init, rfl⟩ := List.getLast?_eq_some_iff.mp ht
  rw [← List.append_assoc vs] at hts ⊢
  exact h.merge (frames_singleton (hts.sublist (by simp))) hts

theorem frames_ends {u : Token} (hts : Orderly ts) (hfirst : ts.head? = some t)
    (hlast : ts.getLast? = some u) : (t.span.merge u.span).Frames ts := by
  obtain ⟨rest, rfl⟩ := List.head?_eq_some_iff.mp hfirst
  have ht : t.span.Frames [t] := frames_singleton (hts.sublist (by simp))
  cases rest with
  | nil =>
      obtain rfl : t = u := Option.some.inj hlast
      rwa [merge_self (hts.each t List.mem_cons_self)]
  | cons v rest =>
      have hrow : Orderly ([t] ++ ([] ++ v :: rest)) := hts
      have hlast' : (v :: rest).getLast? = some u := hlast
      exact ht.merge_last hlast' hrow

end Span

/-! ## Tokens of a text -/

section

variable {text : String}

theorem Covered.stop_le {pos : Nat} {cs : List Char} {i : Item} {is : List Item}
    (h : Covered pos cs is) (hi : i ∈ is) : i.stop ≤ pos + utf8Len cs := by
  obtain ⟨before, ds, after, rfl, -, hstart, hstop⟩ := h.place_of_mem hi
  rw [hstop, hstart, String.utf8Len_append, String.utf8Len_append]
  omega

theorem utf8Len_toList (text : String) : utf8Len text.toList = text.utf8ByteSize := by
  rw [← String.utf8ByteSize_ofList, String.ofList_toList]

variable (hsize : text.utf8ByteSize < UInt32.size) (hscan : scan text = ts.map .ok)
include hsize hscan

theorem stop_le_of_scan (ht : t ∈ ts) :
    t.span.start.toNat + t.span.length.toNat ≤ text.utf8ByteSize := by
  have hcovered := scan_covered hsize
  rw [hscan] at hcovered
  have hle := hcovered.stop_le (List.mem_map_of_mem ht)
  rwa [Nat.zero_add, utf8Len_toList] at hle

theorem toNat_stop_of_scan (ht : t ∈ ts) :
    t.span.stop.toNat = t.span.start.toNat + t.span.length.toNat :=
  Span.toNat_stop (Nat.lt_of_le_of_lt (stop_le_of_scan hsize hscan ht) hsize)

/-- The tokens of a text stand one after the other. -/
theorem orderly_of_scan : Orderly ts where
  each t ht := by
    rw [UInt32.le_iff_toNat_le, toNat_stop_of_scan hsize hscan ht]
    exact Nat.le_add_right _ _
  pairwise := by
    have hpairwise := (scan_covered hsize).pairwise
    rw [hscan, List.pairwise_map] at hpairwise
    refine hpairwise.imp_of_mem fun ht _ hle => ?_
    rw [UInt32.le_iff_toNat_le, toNat_stop_of_scan hsize hscan ht]
    exact hle

variable {us ws : List Token} (hts : ts = us ++ vs ++ ws) (hs : s.Frames vs)
include hts hs

/-- A span that frames some tokens in a row covers the text of these and what is between them. -/
theorem exists_slice : ∃ before mid after, text.toList = before ++ mid ++ after ∧
    s.start.toNat = utf8Len before ∧ s.length.toNat = utf8Len mid ∧
    Covered s.start.toNat mid (vs.map .ok) := by
  obtain ⟨first, last, hfirst, hlast, rfl⟩ := hs
  have hcovered := scan_covered hsize
  rw [hscan, hts, List.map_append, List.map_append] at hcovered
  obtain ⟨before, mid, after, htext, hstart, hstop, hmid⟩ :=
    hcovered.slice (i := .ok first) (j := .ok last) (by rw [List.head?_map, hfirst]; rfl)
      (by rw [List.getLast?_map, hlast]; rfl)
  refine ⟨before, mid, after, htext, hstart.trans (Nat.zero_add _), ?_, hmid⟩
  have hmem : last ∈ ts := hts ▸ by simp [List.mem_of_getLast? hlast]
  rw [Span.between, Span.toNat_gap, toNat_stop_of_scan hsize hscan hmem]
  exact Nat.sub_eq_of_eq_add' hstop

theorem stop_le_of_frames : s.start.toNat + s.length.toNat ≤ text.utf8ByteSize := by
  obtain ⟨before, mid, after, htext, hstart, hlength, -⟩ := exists_slice hsize hscan hts hs
  have hbytes := congrArg utf8Len htext
  rw [utf8Len_toList, String.utf8Len_append, String.utf8Len_append] at hbytes
  omega

theorem utf8ByteSize_textIn : (s.textIn text).utf8ByteSize = s.length.toNat := by
  obtain ⟨before, mid, after, htext, hstart, hlength, -⟩ := exists_slice hsize hscan hts hs
  rw [Span.textIn_of_append htext hstart hlength, String.utf8ByteSize_ofList, hlength]

/-- By itself that text is cut into the same tokens, at places counted from the first one. -/
theorem scan_textIn :
    scan (s.textIn text) = (vs.map (Token.respan (.shiftBack s.start))).map .ok := by
  have hle := stop_le_of_frames hsize hscan hts hs
  obtain ⟨before, mid, after, htext, hstart, hlength, hmid⟩ := exists_slice hsize hscan hts hs
  rw [Span.textIn_of_append htext hstart hlength, scan, String.toList_ofList, Scan.start,
    hmid.finish_foldl #[] rfl (by omega)]
  simp [Function.comp_def, Item.respan]

end

end Monkey

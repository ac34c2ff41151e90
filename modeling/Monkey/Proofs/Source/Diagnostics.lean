import Monkey.Proofs.Parse.Blame
import Monkey.Proofs.Token.LineNumbers

/-!
# The order of the errors

Errors are listed as they are found. What is no token is found when the parser looks for the token
behind it, and the parser looks one token ahead: so the lexical errors right behind a token are
found before a syntax error about this token. Otherwise the errors are listed in the order in which
they stand in the source.
-/

namespace Monkey

/-- The error is about the item: it tells why this is no token, or blames the token. -/
def SyntaxError.About (e : SyntaxError) : Item → Prop
  | .ok t => e.Blames t
  | .error f => e = .ofLexical f

/-! ## Items by their number -/

namespace TokenStream

variable {s : TokenStream} {i j k : Nat} {t : Token} {e : LexicalError}

/-- Item number `i` is a token; the end is one. -/
def TokenAt (s : TokenStream) (i : Nat) (t : Token) : Prop :=
  s.upToEnd[i]? = some (.ok t)

/-- Item number `i` is a lexical error. -/
def ErrorAt (s : TokenStream) (i : Nat) (e : LexicalError) : Prop :=
  s.upToEnd[i]? = some (.error e)

/-- Item number `j` is a token, and right behind it there are lexical errors up to number `i`. -/
structure Trails (s : TokenStream) (i j : Nat) : Prop where
  lt : j < i
  token : ∃ t, s.TokenAt j t
  errors : ∀ k, j < k → k ≤ i → ∃ e, s.ErrorAt k e

/-- The tokens from item number `i` on, the end as the last one. -/
def tokensFrom (s : TokenStream) (i : Nat) : List Token :=
  (s.upToEnd.drop i).filterMap Except.toOption

theorem index_le_length {item : Item} (h : s.upToEnd[i]? = some item) : i ≤ s.items.length := by
  have hlt := (List.getElem?_eq_some_iff.mp h).1
  rw [upToEnd, List.length_append, List.length_singleton] at hlt
  exact Nat.le_of_lt_succ hlt

theorem mem_items_of_lt {item : Item} (h : s.upToEnd[i]? = some item) (hi : i < s.items.length) :
    item ∈ s.items := by
  rw [upToEnd, List.getElem?_append_left hi] at h
  exact List.mem_of_getElem? h

theorem tokenAt_end (s : TokenStream) : s.TokenAt s.items.length s.final := by
  rw [TokenAt, upToEnd, List.getElem?_append_right (Nat.le_refl _), Nat.sub_self]
  rfl

theorem ErrorAt.not_tokenAt (h : s.ErrorAt i e) : ¬s.TokenAt i t := by
  intro ht
  cases h.symm.trans ht

theorem ErrorAt.lt_length (h : s.ErrorAt i e) : i < s.items.length :=
  Nat.lt_of_le_of_ne (index_le_length h) fun hi => h.not_tokenAt (hi ▸ s.tokenAt_end)

theorem Trails.lt_length (h : s.Trails i j) : i < s.items.length := by
  obtain ⟨e, he⟩ := h.errors i h.lt (Nat.le_refl i)
  exact he.lt_length

/-- The first of the items from number `i` on. -/
theorem getElem?_upToEnd_of_drop {item : Item} {items : List Item}
    (h : s.items.drop i = item :: items) : s.upToEnd[i]? = some item := by
  have hget : s.items[i]? = some item := by
    rw [← Nat.add_zero i, ← List.getElem?_drop, h]
    rfl
  rw [upToEnd, List.getElem?_append_left (List.getElem?_eq_some_iff.mp hget).1, hget]

/-- Only the end is an end. -/
theorem TokenAt.isEof_iff (htokens : ∀ t : Token, .ok t ∈ s.items → ¬t.isEof) (h : s.TokenAt i t) :
    t.isEof ↔ i = s.items.length := by
  constructor
  · exact fun ht => Nat.le_antisymm (index_le_length h)
      (Nat.le_of_not_lt fun hlt => htokens t (mem_items_of_lt h hlt) ht)
  · rintro rfl
    obtain rfl : t = s.final := Except.ok.inj (Option.some.inj (h.symm.trans s.tokenAt_end))
    rfl

/-! ### Tokens from an item on -/

theorem TokenAt.tokensFrom (h : s.TokenAt i t) : s.tokensFrom i = t :: s.tokensFrom (i + 1) := by
  obtain ⟨hlt, hi⟩ := List.getElem?_eq_some_iff.mp h
  rw [TokenStream.tokensFrom, List.drop_eq_getElem_cons hlt, hi]
  rfl

theorem ErrorAt.tokensFrom (h : s.ErrorAt i e) : s.tokensFrom i = s.tokensFrom (i + 1) := by
  obtain ⟨hlt, hi⟩ := List.getElem?_eq_some_iff.mp h
  rw [TokenStream.tokensFrom, List.drop_eq_getElem_cons hlt, hi]
  rfl

theorem tokensFrom_of_errors (hle : i ≤ j) (h : ∀ k, i ≤ k → k < j → ∃ e, s.ErrorAt k e) :
    s.tokensFrom i = s.tokensFrom j := by
  induction j, hle using Nat.le_induction with
  | base => rfl
  | succ j hij ih =>
      obtain ⟨e, he⟩ := h j hij (Nat.lt_succ_self j)
      rw [ih fun k hk hkj => h k hk (Nat.lt_succ_of_lt hkj), he.tokensFrom]

/-- Of two items, the one with fewer tokens from it on is the later one. -/
theorem lt_of_length_tokensFrom (h : (s.tokensFrom j).length < (s.tokensFrom i).length) :
    i < j := by
  refine Nat.lt_of_not_le fun hle => Nat.not_le_of_lt h ?_
  exact ((List.drop_sublist_drop_left s.upToEnd hle).filterMap _).length_le

theorem tokensFrom_end (s : TokenStream) : s.tokensFrom s.items.length = [s.final] := by
  rw [tokensFrom, upToEnd, List.drop_left]
  rfl

theorem tokensFrom_eq (hle : i ≤ s.items.length) :
    s.tokensFrom i = (s.items.drop i).filterMap Except.toOption ++ [s.final] := by
  rw [tokensFrom, upToEnd, List.drop_append_of_le_length hle, List.filterMap_append]
  rfl

end TokenStream

/-! ## Errors found so far -/

/-- These errors are about these items of the stream. Two of them are in the order of their items,
unless the one found later is about a token, and the other one about a lexical error that comes
right behind it. -/
structure TokenStream.Lists (s : TokenStream) (errors : List SyntaxError) (places : List Nat) :
    Prop where
  about : List.Forall₂ (fun e i => ∃ item, s.upToEnd[i]? = some item ∧ e.About item) errors places
  order : places.Pairwise fun i j => i < j ∨ s.Trails i j

/-- The errors found when the first `k` items have been read. Each token that has been blamed has
more than `b` tokens from it on. -/
structure TokenStream.Found (s : TokenStream) (b k : Nat) (errors : List SyntaxError)
    (places : List Nat) : Prop
    extends s.Lists errors places where
  read : ∀ i ∈ places, i < k
  blamed : ∀ i ∈ places, ∀ t, s.TokenAt i t → b < (s.tokensFrom i).length

namespace TokenStream.Found

variable {s : TokenStream} {b b' j k : Nat} {errors : List SyntaxError} {places : List Nat}
  {t : Token} {e : SyntaxError} {f : LexicalError}

theorem mono (h : s.Found b k errors places) {k' : Nat} (hk : k ≤ k') :
    s.Found b k' errors places :=
  { h with read := fun i hi => Nat.lt_of_lt_of_le (h.read i hi) hk }

/-- The error is added, with its place, behind those found before. -/
theorem push (h : s.Found b k errors places) {item : Item} (hitem : s.upToEnd[j]? = some item)
    (he : e.About item) {k' : Nat} (hk : k ≤ k') (hj : j < k')
    (horder : ∀ i ∈ places, i < j ∨ s.Trails i j) (hb : b' ≤ b)
    (hblamed : ∀ t, s.TokenAt j t → b' < (s.tokensFrom j).length) :
    s.Found b' k' (errors ++ [e]) (places ++ [j]) where
  about := List.rel_append h.about (.cons ⟨item, hitem, he⟩ .nil)
  order := List.pairwise_append.mpr ⟨h.order, List.pairwise_singleton _ _,
    fun i hi _ hj => List.mem_singleton.mp hj ▸ horder i hi⟩
  read := List.forall_mem_append.mpr ⟨fun i hi => Nat.lt_of_lt_of_le (h.read i hi) hk,
    List.forall_mem_singleton.mpr hj⟩
  blamed := List.forall_mem_append.mpr
    ⟨fun i hi t ht => Nat.lt_of_le_of_lt hb (h.blamed i hi t ht),
      List.forall_mem_singleton.mpr hblamed⟩

/-- A lexical error is found behind all that has been found before. -/
theorem lexical (h : s.Found b k errors places) (hf : s.ErrorAt k f) :
    s.Found b (k + 1) (errors ++ [.ofLexical f]) (places ++ [k]) :=
  h.push hf rfl (Nat.le_succ k) (Nat.lt_succ_self k) (fun i hi => .inl (h.read i hi))
    (Nat.le_refl b) fun _ ht => absurd ht hf.not_tokenAt

/-- A token is blamed behind those that have been blamed before it. Lexical errors come between it
and the last item that has been read. -/
theorem syntactic (h : s.Found b (k + 1) errors places) (ht : s.TokenAt j t) (he : e.Blames t)
    (hlast : ∃ u, s.TokenAt k u) (hjk : j ≤ k) (hgap : ∀ i, j < i → i < k → ∃ f, s.ErrorAt i f)
    (hb : (s.tokensFrom j).length ≤ b) (hb' : b' < (s.tokensFrom j).length) :
    s.Found b' (k + 1) (errors ++ [e]) (places ++ [j]) := by
  refine h.push ht he (Nat.le_refl _) (Nat.lt_succ_of_le hjk) (fun i hi => ?_) (by omega)
    fun _ _ => hb'
  obtain ⟨n, hn, hget⟩ := List.getElem_of_mem hi
  obtain ⟨item, hitem, -⟩ := (List.forall₂_iff_get.mp h.about).2 n
    (h.about.length_eq ▸ hn) hn
  rw [List.get_eq_getElem, hget] at hitem
  -- a token that was blamed stands in front of this one; a lexical error may also stand behind it,
  -- but it is not the last item read
  cases item with
  | ok u =>
      have hlt := h.blamed i hi u hitem
      exact .inl (TokenStream.lt_of_length_tokensFrom (Nat.lt_of_le_of_lt hb hlt))
  | error f =>
      have hf : s.ErrorAt i f := hitem
      obtain ⟨u, hu⟩ := hlast
      have hik : i < k := Nat.lt_of_le_of_ne (Nat.le_of_lt_succ (h.read i hi)) fun hik =>
        hf.not_tokenAt (hik ▸ hu)
      rcases Nat.lt_trichotomy i j with hij | rfl | hij
      · exact .inl hij
      · exact absurd ht hf.not_tokenAt
      · exact .inr ⟨hij, ⟨t, ht⟩, fun m hm hmi => hgap m hm (Nat.lt_of_le_of_lt hmi hik)⟩

end TokenStream.Found

/-! ## Reading on -/

open TokenStream (Found)

namespace Cursor

variable {s : TokenStream} {b b' p q : Nat} {places : List Nat} {c c' d : Cursor}
  {e : SyntaxError} {ts us : List Token} {t : Token}

/-- When the next token is pulled, the lexical errors in front of it are found. -/
theorem pull_found {items : List Item} : ∀ {k : Nat} {errors : Array SyntaxError}
    {places : List Nat}, s.items.drop k = items → k ≤ s.items.length →
      s.Found b k errors.toList places →
      let r := pull s.stop errors items
      ∃ q places', k ≤ q ∧ s.TokenAt q r.1 ∧ s.items.drop (q + 1) = r.2.1 ∧
        (∀ i, k ≤ i → i < q → ∃ f, s.ErrorAt i f) ∧ s.Found b (q + 1) r.2.2.toList places' := by
  -- the induction is on the items not read yet, and `k` counts those that have been read
  induction items with
  | nil =>
      intro k errors places hdrop hk h
      have hlen : k = s.items.length := Nat.le_antisymm hk (List.drop_eq_nil_iff.mp hdrop)
      subst hlen
      exact ⟨_, places, Nat.le_refl _, s.tokenAt_end, List.drop_of_length_le (Nat.le_succ _),
        fun i hi hlt => absurd hi (Nat.not_le_of_lt hlt), h.mono (Nat.le_succ _)⟩
  | cons item items ih =>
      intro k errors places hdrop hk h
      have hitem := TokenStream.getElem?_upToEnd_of_drop hdrop
      have hrest : s.items.drop (k + 1) = items := by
        rw [← List.drop_drop, hdrop, List.drop_one, List.tail_cons]
      cases item with
      | ok t =>
          exact ⟨k, places, Nat.le_refl k, hitem, hrest,
            fun i hi hlt => absurd hi (Nat.not_le_of_lt hlt), h.mono (Nat.le_succ k)⟩
      | error f =>
          have hk' : k + 1 ≤ s.items.length := by
            refine Nat.lt_of_not_le fun hle => ?_
            rw [List.drop_of_length_le hle] at hdrop
            cases hdrop
          have hfound : s.Found b (k + 1) (errors.push (.ofLexical f)).toList (places ++ [k]) := by
            rw [Array.toList_push]
            exact h.lexical hitem
          obtain ⟨q, places', hkq, hq, hdrop', hgap, hfound'⟩ := ih hrest hk' hfound
          refine ⟨q, places', Nat.le_of_succ_le hkq, hq, hdrop', fun i hi hlt => ?_, hfound'⟩
          rcases Nat.eq_or_lt_of_le hi with rfl | hi
          · exact ⟨f, hitem⟩
          · exact hgap i hi hlt

/-- The parser stands on item number `p` and looks ahead to item number `q`, and these are the
places of the errors that it has found. -/
structure At (s : TokenStream) (b p q : Nat) (places : List Nat) (c : Cursor) : Prop where
  current : s.TokenAt p c.current
  peek : s.TokenAt q c.peek
  rest : s.items.drop (q + 1) = c.rest
  stop : s.stop = c.stop
  order : p < q ∨ p = q ∧ q = s.items.length
  gap : ∀ i, p < i → i < q → ∃ f, s.ErrorAt i f
  found : s.Found b (q + 1) c.errors.toList places

theorem At.le (h : c.At s b p q places) : p ≤ q :=
  h.order.elim Nat.le_of_lt fun h => Nat.le_of_eq h.1

/-- The place behind the item that has been looked at. -/
theorem at_of_pull {current : Token} {rest : List Item} {errors : Array SyntaxError}
    (hcurrent : s.TokenAt p current) (hrest : s.items.drop (p + 1) = rest)
    (h : s.Found b (p + 1) errors.toList places) (nesting : Nat) :
    let r := pull s.stop errors rest
    ∃ q places', At s b p q places' ⟨current, r.1, r.2.1, s.stop, r.2.2, nesting⟩ := by
  rcases Nat.eq_or_lt_of_le (TokenStream.index_le_length hcurrent) with rfl | hlt
  · rw [List.drop_of_length_le (Nat.le_succ _)] at hrest
    subst hrest
    exact ⟨_, places, hcurrent, s.tokenAt_end, List.drop_of_length_le (Nat.le_succ _), rfl,
      .inr ⟨rfl, rfl⟩, fun i hi hlt => absurd hi (Nat.lt_asymm hlt), h⟩
  · obtain ⟨q, places', hpq, hq, hdrop, hgap, hfound⟩ := pull_found hrest hlt h
    exact ⟨q, places', hcurrent, hq, hdrop, rfl, .inl hpq, hgap, hfound⟩

theorem At.advance (h : c.At s b p q places) : ∃ q' places', c.advance.At s b q q' places' := by
  have hpull := at_of_pull h.peek h.rest h.found (nestingAfter c.nesting c.current.kind)
  rwa [h.stop] at hpull

theorem ofStream_at (s : TokenStream) (b : Nat) : ∃ p q places, (ofStream s).At s b p q places := by
  have hnone : s.Found b 0 (#[] : Array SyntaxError).toList [] :=
    ⟨⟨.nil, .nil⟩, List.forall_mem_nil _, List.forall_mem_nil _⟩
  obtain ⟨p, places, -, hp, hrest, -, hfound⟩ := pull_found rfl (Nat.zero_le _) hnone
  obtain ⟨q, places', hat⟩ := at_of_pull hp hrest hfound 0
  exact ⟨p, q, places', hat⟩

/-- The tokens ahead are those from the current item on. -/
theorem At.ahead_eq (htokens : ∀ t : Token, .ok t ∈ s.items → ¬t.isEof)
    (h : c.At s b p q places) : c.ahead = s.tokensFrom p := by
  by_cases hc : c.current.isEof
  · obtain rfl := (h.current.isEof_iff htokens).mp hc
    rw [ahead_of_isEof hc, s.tokensFrom_end, TokenStream.final, h.stop]
  have hpq : p < q := h.order.resolve_right fun ⟨hpq, hq⟩ =>
    hc ((h.current.isEof_iff htokens).mpr (hpq.trans hq))
  rw [h.current.tokensFrom, TokenStream.tokensFrom_of_errors hpq h.gap, ahead, tokens,
    upToEof_of_not hc, ← h.stop]
  by_cases hp : c.peek.isEof
  · obtain rfl := (h.peek.isEof_iff htokens).mp hp
    rw [upToEof_of_isEof hp, s.tokensFrom_end]
    rfl
  · have hle := TokenStream.index_le_length h.peek
    have hq : q + 1 ≤ s.items.length := Nat.lt_of_le_of_ne hle fun hq =>
      hp ((h.peek.isEof_iff htokens).mpr hq)
    have hrest : upToEof (c.rest.filterMap Except.toOption) =
        c.rest.filterMap Except.toOption := by
      refine List.takeWhile_eq_self_iff.mpr fun t ht => ?_
      obtain ⟨_ | u, hu, hut⟩ := List.mem_filterMap.mp ht <;> cases hut
      rw [← h.rest] at hu
      simpa using htokens t (List.mem_of_mem_drop hu)
    rw [h.peek.tokensFrom, TokenStream.tokensFrom_eq hq, upToEof_of_not hp, hrest, h.rest]
    rfl

/-! ## What an attempt keeps -/

/-- The errors found so far have places in the stream, and what has been blamed among them has more
than `b` tokens from it on. -/
def Logs (s : TokenStream) (b : Nat) (c : Cursor) : Prop :=
  ∃ p q places, c.At s b p q places

theorem Logs.advance (h : c.Logs s b) : c.advance.Logs s b := by
  obtain ⟨p, q, places, hat⟩ := h
  obtain ⟨q', places', hat'⟩ := hat.advance
  exact ⟨q, q', places', hat'⟩

theorem Logs.mono (h : c.Logs s b) (hb : b' ≤ b) : c.Logs s b' := by
  obtain ⟨p, q, places, hat⟩ := h
  exact ⟨p, q, places, { hat with
    found := { hat.found with
      blamed := fun i hi t ht => Nat.lt_of_le_of_lt hb (hat.found.blamed i hi t ht) } }⟩

section

variable (htokens : ∀ t : Token, .ok t ∈ s.items → ¬t.isEof)
include htokens

/-- An error is reported about the current token or the next one, behind all that have been blamed
so far. -/
theorem Logs.report (h : c.Logs s b) (he : e.Blames t) (hb : (t :: us).length ≤ b)
    (hplace : c.ahead = t :: us ∨ ¬c.current.isEof ∧ c.advance.ahead = t :: us) :
    (c.report e).Logs s us.length := by
  obtain ⟨p, q, places, hat⟩ := h
  obtain ⟨j, ht, hjq, hgap, hahead⟩ : ∃ j, s.TokenAt j t ∧ j ≤ q ∧
      (∀ i, j < i → i < q → ∃ f, s.ErrorAt i f) ∧ s.tokensFrom j = t :: us := by
    rcases hplace with hahead | ⟨-, hahead⟩
    · rw [hat.ahead_eq htokens] at hahead
      have hcurrent := hat.current.tokensFrom.symm.trans hahead
      exact ⟨p, (List.cons.inj hcurrent).1 ▸ hat.current, hat.le, hat.gap, hahead⟩
    · obtain ⟨q', places', hat'⟩ := hat.advance
      rw [hat'.ahead_eq htokens] at hahead
      have hpeek := hat'.current.tokensFrom.symm.trans hahead
      exact ⟨q, (List.cons.inj hpeek).1 ▸ hat'.current, Nat.le_refl q,
        fun i hi hlt => absurd hi (Nat.lt_asymm hlt), hahead⟩
  rw [← hahead] at hb
  have hfound : s.Found us.length (q + 1) (c.errors.toList ++ [e]) (places ++ [j]) :=
    hat.found.syntactic ht he ⟨_, hat.peek⟩ hjq hgap hb (by simp [hahead])
  rw [← Array.toList_push] at hfound
  exact ⟨p, q, places ++ [j], { hat with found := hfound }⟩

end

/-- Among the tokens alone, this is a place where an attempt can begin. -/
def Regular (c : Cursor) : Prop :=
  ∃ all d, Sifts all d c ∧ d.Clean ∧ (¬d.current.isEof → d.nesting = 0)

theorem Sifts.ahead_eq {all : List LexicalError} (h : Sifts all d c) : d.ahead = c.ahead := by
  rw [ahead, ahead, h.tokens_eq, h.stop]

theorem Sifts.blamable_eq {all : List LexicalError} (h : Sifts all d c) :
    d.blamable = c.blamable := by
  rw [blamable, blamable, h.ahead_eq, h.current]

/-- From places that are alike, attempts lead to places that are alike. -/
theorem next_agree {ρ : Span → Span → Prop} {R : Cursor → Cursor → Prop}
    (hS : TotalSimulation ρ R) (h : R c d) : R c.next d.next := by
  have hagree := Parse.statement_agree hS.toSimulation h
  cases hr : Parse.statement c with
  | ok x c' =>
      rw [hr] at hagree
      obtain ⟨x', d', hr', -, h'⟩ := hagree.of_ok
      rw [next_of_ok hr, next_of_ok hr']
      exact hS.step h'
  | error e c' =>
      rw [hr] at hagree
      obtain ⟨e', d', hr', he, h'⟩ := hagree.of_error
      rw [next_of_error hr, next_of_error hr', ← hS.nesting h]
      exact recover_agree hS c.nesting he h'

namespace Regular

theorem next (h : c.Regular) (hc : ¬c.current.isEof) : c.next.Regular := by
  obtain ⟨all, d, hs, hd, hnesting⟩ := h
  have hc' : ¬d.current.isEof := hs.current ▸ hc
  obtain ⟨⟨us, -, hcourse⟩, hle⟩ := next_course hc'
  exact ⟨all, d.next, next_agree (sifts_simulation all) hs, hcourse.clean hd,
    fun hend => Nat.le_zero.mp (hnesting hc' ▸ hle hend)⟩

theorem blamable_sublist_of_ok {x : Stmt} (h : c.Regular)
    (hr : Parse.statement c = .ok x c') : c.next.blamable.Sublist c.blamable := by
  obtain ⟨all, d, hs, hd, -⟩ := h
  have hagree := Parse.statement_agree (sifts_simulation all).toSimulation hs
  have hsound := Parse.statement_sound d
  have hnext := next_agree (sifts_simulation all) hs
  cases hr' : Parse.statement d with
  | error e d' =>
      rw [hr, hr'] at hagree
      exact hagree.elim
  | ok x' d' =>
      rw [hr'] at hsound
      obtain ⟨ts, hp, hd', -⟩ := hsound
      rw [← hnext.blamable_eq, ← hs.blamable_eq, next_of_ok hr']
      exact (Cursor.blamable_sublist _).trans
        ((hp.trans (.one hd')).ahead_sublist_blamable hd (by simp))

/-- With lexical errors on the way, the same tokens are blamed. -/
theorem statement_blames (h : c.Regular) (hc : ¬c.current.isEof)
    (hr : Parse.statement c = .error e c') : ∃ t us, BlamedAt c c' e t us := by
  obtain ⟨all, d, hs, hd, hnesting⟩ := h
  have hc' : ¬d.current.isEof := hs.current ▸ hc
  have hagree := Parse.statement_agree (sifts_simulation all).toSimulation hs
  have hnext := next_agree (sifts_simulation all) hs
  cases hr' : Parse.statement d with
  | ok x d' =>
      rw [hr, hr'] at hagree
      exact hagree.elim
  | error f d' =>
      rw [hr, hr'] at hagree
      obtain ⟨hfe, hs'⟩ := hagree
      obtain rfl := hfe.eq
      obtain ⟨t, us, hsub, hb, hbehind, hplace⟩ := Cursor.statement_blames hd hc' (hnesting hc') hr'
      refine ⟨t, us, hs.blamable_eq ▸ hsub, hb, hnext.blamable_eq ▸ hbehind, ?_⟩
      rwa [hs'.ahead_eq, hs'.advance.ahead_eq, hs'.current] at hplace

end Regular

/-! ## Whole runs -/

/-- A place where an attempt begins, with the errors found so far; all that can still be blamed
comes behind what has been blamed. -/
structure Orderly (s : TokenStream) (c : Cursor) : Prop where
  regular : c.Regular
  logs : c.Logs s c.blamable.length

theorem Orderly.next (htokens : ∀ t : Token, .ok t ∈ s.items → ¬t.isEof) (h : c.Orderly s)
    (hc : ¬c.current.isEof) : c.next.Orderly s := by
  refine ⟨h.regular.next hc, ?_⟩
  have hsound := Parse.statement_sound c
  cases hr : Parse.statement c with
  | ok x c' =>
      rw [hr] at hsound
      obtain ⟨ts, hp, -⟩ := hsound
      have hle := (h.regular.blamable_sublist_of_ok hr).length_le
      have hlast : c'.Logs s c.blamable.length := hp.keeps (fun _ => Logs.advance) h.logs
      rw [next_of_ok hr] at hle ⊢
      exact hlast.advance.mono hle
  | error e c' =>
      rw [hr] at hsound
      obtain ⟨⟨ts, hp⟩, -⟩ := hsound
      obtain ⟨t, us, hb⟩ := h.regular.statement_blames hc hr
      have hfailed : c'.Logs s c.blamable.length := hp.keeps (fun _ => Logs.advance) h.logs
      have hlogs := hfailed.report htokens hb.blames hb.sublist.length_le hb.place
      obtain ⟨vs, hq, -⟩ :=
        synchronize_passes c.nesting c'.left (c'.report e) (length_tokens_le_left c')
      have hnext : c.next = (c'.report e).synchronize c.nesting c'.left := next_of_error hr
      have hlast : c.next.Logs s us.length := hnext ▸ hq.keeps (fun _ => Logs.advance) hlogs
      exact hlast.mono hb.next.length_le

theorem ofStream_regular (htokens : ∀ t : Token, .ok t ∈ s.items → ¬t.isEof) :
    (ofStream s).Regular := by
  have hts : ∀ t ∈ s.tokens, ¬t.isEof := fun t ht => htokens t (TokenStream.mem_tokens_iff.mp ht)
  have hclean := (ofStream_of_tokens s.stop hts).1
  rw [← s.sifted_eq] at hclean
  exact ⟨_, _, ofStream_sifts s, hclean, fun _ => rfl⟩

end Cursor

/-- The errors of a stream are listed in its order, except that a syntax error about a token may
come behind the lexical errors that follow this token. -/
theorem parseStream_lists {s : TokenStream} (htokens : ∀ t : Token, .ok t ∈ s.items → ¬t.isEof) :
    ∃ places, s.Lists (parseStream s).errors places := by
  have hstart : (Cursor.ofStream s).Orderly s :=
    ⟨Cursor.ofStream_regular htokens, Cursor.ofStream_at s _⟩
  obtain ⟨-, p, q, places, hat⟩ := Cursor.statementsWithin_next
    (fun _ hc h => h.next htokens hc) (Cursor.ofStream s).left _ hstart
  exact ⟨places, hat.found.toLists⟩

/-! ## Texts -/

theorem SyntaxError.About.span_eq {e : SyntaxError} {i : Item} (h : e.About i) :
    e.span = i.span := by
  cases i with
  | ok t => exact h.1
  | error f => exact congrArg SyntaxError.span h

/-- The first error is a lexical one, the second one blames a token of the text, and no token starts
between the two. -/
structure SyntaxError.Overtakes (text : String) (e f : SyntaxError) : Prop where
  lexical : ∃ g, .error g ∈ scan text ∧ e = .ofLexical g
  blames : ∃ t, .ok t ∈ scan text ∧ f.Blames t
  between : ∀ t, .ok t ∈ scan text → t.span.start ≤ f.span.start ∨ e.span.start ≤ t.span.start

section

variable {text : String} {i j : Nat} {e f : SyntaxError} {a b : Item}

theorem TokenStream.start_le_of_le (hsize : text.utf8ByteSize < UInt32.size)
    (ha : (ofText text).upToEnd[i]? = some a) (hb : (ofText text).upToEnd[j]? = some b)
    (h : i ≤ j) : a.span.start ≤ b.span.start := by
  obtain ⟨hi, rfl⟩ := List.getElem?_eq_some_iff.mp ha
  obtain ⟨hj, rfl⟩ := List.getElem?_eq_some_iff.mp hb
  rcases Nat.eq_or_lt_of_le h with rfl | hlt
  · exact UInt32.le_refl _
  · exact List.pairwise_iff_getElem.mp (Item.pairwise_start_ofText hsize) i j hi hj hlt

theorem TokenStream.Trails.overtakes (hsize : text.utf8ByteSize < UInt32.size)
    (h : (ofText text).Trails i j) (ha : (ofText text).upToEnd[i]? = some a) (he : e.About a)
    (hb : (ofText text).upToEnd[j]? = some b) (hf : f.About b) : e.Overtakes text f := by
  obtain ⟨g, hg⟩ := h.errors i h.lt (Nat.le_refl i)
  obtain ⟨t, ht⟩ := h.token
  obtain rfl : a = .error g := Option.some.inj (ha.symm.trans hg)
  obtain rfl : b = .ok t := Option.some.inj (hb.symm.trans ht)
  refine ⟨⟨g, mem_items_of_lt hg h.lt_length, he⟩,
    ⟨t, mem_items_of_lt ht (h.lt.trans h.lt_length), hf⟩, fun u hu => ?_⟩
  rw [he.span_eq, hf.span_eq]
  obtain ⟨k, hk⟩ := List.mem_iff_getElem?.mp
    (List.mem_append_left [.ok (ofText text).final] hu)
  -- the other token stands in front of the one blamed, or behind all those lexical errors
  by_cases hkj : k ≤ j
  · exact .inl (start_le_of_le hsize hk hb hkj)
  by_cases hki : k ≤ i
  · obtain ⟨g', hg'⟩ := h.errors k (Nat.lt_of_not_le hkj) hki
    exact absurd hk hg'.not_tokenAt
  · exact .inr (start_le_of_le hsize ha hk (Nat.le_of_not_le hki))

theorem TokenStream.Lists.pairwise_start (hsize : text.utf8ByteSize < UInt32.size)
    {errors : List SyntaxError} {places : List Nat} (h : (ofText text).Lists errors places) :
    errors.Pairwise fun e f => e.span.start ≤ f.span.start ∨ e.Overtakes text f := by
  have horder := h.order
  have habout := h.about
  clear h
  induction habout with
  | nil => exact .nil
  | @cons e i errors places he hrest ih =>
      obtain ⟨hfirst, horder⟩ := List.pairwise_cons.mp horder
      refine .cons (fun f hf => ?_) (ih horder)
      obtain ⟨a, ha, hea⟩ := he
      obtain ⟨n, hn, rfl⟩ := List.getElem_of_mem hf
      obtain ⟨b, hb, hfb⟩ := (List.forall₂_iff_get.mp hrest).2 n hn (hrest.length_eq ▸ hn)
      rcases hfirst _ (List.get_mem _ _) with hlt | htrails
      · refine .inl ?_
        have hle := start_le_of_le hsize ha hb (Nat.le_of_lt hlt)
        rwa [← hea.span_eq, ← hfb.span_eq] at hle
      · exact .inr (htrails.overtakes hsize ha hea hb hfb)

end

/-- The errors of a text, lexical ones and others, are listed in the order of the items that they
are about, and so in the order of their starts if these are not cut off at the size of a word. Only
a syntax error about a token can come behind lexical errors that stand between this token and the
next one. -/
theorem parse_errors_listed (text : String) :
    (∃ places, (TokenStream.ofText text).Lists (parse text).errors places) ∧
      (text.utf8ByteSize < UInt32.size → (parse text).errors.Pairwise fun e f =>
        e.span.start ≤ f.span.start ∨ e.Overtakes text f) := by
  have htokens : ∀ t : Token, .ok t ∈ (TokenStream.ofText text).items → ¬t.isEof := by
    intro t ht heof
    obtain ⟨cs, hcs⟩ := scan_written ht
    exact hcs.kind_ne_eof (t.word_kind.trans (of_decide_eq_true heof))
  obtain ⟨places, h⟩ := parseStream_lists htokens
  exact ⟨⟨places, h⟩, fun hsize => h.pairwise_start hsize⟩

/-- The errors come in order, except for the one about the second parenthesis: this is listed behind
the two characters after it that mean nothing. -/
theorem parse_errors_listed_overtaken :
    let text := "); ) @ # 1; let $ 5"
    text.utf8ByteSize < UInt32.size ∧
      (parse text).errors.map (·.span.start) = [0, 5, 7, 3, 16, 18] ∧
      (parse text).errors.Pairwise fun e f =>
        e.span.start ≤ f.span.start ∨ e.Overtakes text f := by
  intro text
  have hsize : text.utf8ByteSize < UInt32.size := by decide
  exact ⟨hsize, by decide +kernel, (parse_errors_listed text).2 hsize⟩

/-- A character that means nothing is found before the parenthesis in front of it is blamed. -/
theorem errors_out_of_order :
    ¬∀ text, (parse text).errors.Pairwise fun e f => e.span.start ≤ f.span.start := by
  intro h
  have hstarts : (parse ") @ 1").errors.map (·.span.start) = [2, 0] := by decide +kernel
  have hpairwise := List.pairwise_map.mpr (h ") @ 1")
  rw [hstarts] at hpairwise
  exact absurd hpairwise (by decide)

end Monkey

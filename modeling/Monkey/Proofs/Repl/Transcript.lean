import Mathlib.Data.List.InsertIdx
import Monkey.Proofs.Repl.Session

/-!
# Whole conversations

The bytes of a conversation are its prompts and answers, and the bytes of an input are cut into
lines in such a way that a line can be taken out of them.
-/

namespace Monkey

namespace Repl

/-! ## Lines -/

/-- Every line but the last ends with its line feed, and no line has one before its end. -/
inductive Cut : List (List UInt8) → Prop
  | nil : Cut []
  | last {l : List UInt8} : l ≠ [] → 10 ∉ l → Cut [l]
  | cons {l : List UInt8} {ls : List (List UInt8)} : 10 ∉ l → Cut ls → Cut ((l ++ [10]) :: ls)

theorem cut_lines (bs : List UInt8) : Cut (lines bs) := by
  induction bs with
  | nil => exact .nil
  | cons b bs ih =>
      rw [lines]
      split
      · rename_i hb
        subst hb
        exact .cons (l := []) nofun ih
      · rename_i hb
        have hmem {l : List UInt8} (hl : 10 ∉ l) : 10 ∉ b :: l :=
          List.not_mem_cons_of_ne_of_not_mem (Ne.symm hb) hl
        generalize lines bs = ls at ih
        cases ih with
        | nil => exact .last (List.cons_ne_nil b []) (hmem nofun)
        | last hne hl => exact .last (List.cons_ne_nil b _) (hmem hl)
        | cons hl hls => exact .cons (hmem hl) hls

/-- Nothing is lost between the lines. -/
theorem flatten_lines (bs : List UInt8) : (lines bs).flatten = bs := by
  induction bs with
  | nil => rfl
  | cons b bs ih =>
      rw [lines]
      split
      · rw [List.flatten_cons, ih, List.singleton_append]
      · generalize lines bs = ls at ih
        subst ih
        cases ls with
        | nil => rfl
        | cons l ls => rfl

theorem lines_of_not_mem {l : List UInt8} (hne : l ≠ []) (h : 10 ∉ l) : lines l = [l] := by
  induction l with
  | nil => exact absurd rfl hne
  | cons b l ih =>
      have hb : b ≠ 10 := (List.ne_of_not_mem_cons h).symm
      have hl := List.not_mem_of_not_mem_cons h
      rw [lines, if_neg hb]
      cases l with
      | nil => rfl
      | cons c l => rw [ih (List.cons_ne_nil c l) hl]

theorem lines_append {l : List UInt8} (h : 10 ∉ l) (bs : List UInt8) :
    lines (l ++ [10] ++ bs) = (l ++ [10]) :: lines bs := by
  induction l with
  | nil => rw [List.nil_append, List.singleton_append, lines, if_pos rfl]
  | cons b l ih =>
      have hb : b ≠ 10 := (List.ne_of_not_mem_cons h).symm
      rw [List.cons_append, List.cons_append, lines, if_neg hb,
        ih (List.not_mem_of_not_mem_cons h)]

theorem Cut.lines_flatten {ls : List (List UInt8)} (h : Cut ls) : lines ls.flatten = ls := by
  induction h with
  | nil => rfl
  | last hne hl => rw [List.flatten_singleton, lines_of_not_mem hne hl]
  | cons hl _ ih => rw [List.flatten_cons, lines_append hl, ih]

theorem Cut.eraseIdx {ls : List (List UInt8)} (h : Cut ls) (i : Nat) : Cut (ls.eraseIdx i) := by
  induction h generalizing i with
  | nil => exact .nil
  | last hne hl =>
      cases i with
      | zero => exact .nil
      | succ i => exact .last hne hl
  | cons hl hls ih =>
      cases i with
      | zero => exact hls
      | succ i => exact .cons hl (ih i)

/-- The input without one of its lines. -/
def deleteLine (i : Nat) (input : ByteArray) : ByteArray :=
  ((lines input.toList).eraseIdx i).flatten.toByteArray

theorem toList_loop (bs : ByteArray) (i : Nat) (acc : List UInt8) :
    ByteArray.toList.loop bs i acc = acc.reverse ++ bs.data.toList.drop i := by
  fun_induction ByteArray.toList.loop bs i acc with
  | case1 i acc h ih =>
      have hi : i < bs.data.toList.length := by simpa using h
      have hget : bs.get! i = bs.data.toList[i] := by simp [ByteArray.get!, h]
      rw [ih, List.drop_eq_getElem_cons hi, hget, List.reverse_cons, List.append_assoc,
        List.singleton_append]
  | case2 i acc h =>
      have hi : bs.data.toList.length ≤ i := by simpa using h
      rw [List.drop_eq_nil_of_le hi, List.append_nil]

theorem toList_eq (bs : ByteArray) : bs.toList = bs.data.toList :=
  toList_loop bs 0 []

theorem lines_deleteLine (i : Nat) (input : ByteArray) :
    lines (deleteLine i input).toList = (lines input.toList).eraseIdx i := by
  rw [deleteLine, toList_eq, List.toList_data_toByteArray]
  exact ((cut_lines _).eraseIdx i).lines_flatten

/-! ## What is said -/

namespace Sink

/-- There is room for the text. -/
def Fits (sink : Sink) (text : String) : Prop :=
  ∀ n ∈ sink.room, text.utf8ByteSize ≤ n

instance (sink : Sink) (text : String) : Decidable (sink.Fits text) :=
  inferInstanceAs (Decidable (∀ n ∈ sink.room, text.utf8ByteSize ≤ n))

/-- As much of the text is taken as there is room for. -/
def put (sink : Sink) (text : String) : Sink where
  taken := sink.taken ++ match sink.room with
    | none => text.toUTF8
    | some n => text.toUTF8.extract 0 n
  room := sink.room.map (· - text.utf8ByteSize)

theorem fits_empty (sink : Sink) : sink.Fits "" :=
  fun n _ => Nat.zero_le n

theorem put_empty (sink : Sink) : sink.put "" = sink := by
  obtain ⟨taken, room⟩ := sink
  cases room with
  | none => simp [put]
  | some n =>
      have hempty : ByteArray.empty.extract 0 n = .empty :=
        ByteArray.extract_eq_empty_iff.mpr (Nat.min_le_right n 0)
      simp [put, hempty]

theorem fits_append {sink : Sink} {a b : String} :
    sink.Fits (a ++ b) ↔ sink.Fits a ∧ (sink.put a).Fits b := by
  obtain ⟨taken, room⟩ := sink
  cases room with
  | none => simp [Fits, put]
  | some n =>
      simp [Fits, put, String.utf8ByteSize_append]
      omega

theorem put_append (sink : Sink) (a b : String) : sink.put (a ++ b) = (sink.put a).put b := by
  obtain ⟨taken, room⟩ := sink
  cases room with
  | none => simp [put, ByteArray.append_assoc]
  | some n =>
      simp [put, ByteArray.append_assoc, ByteArray.extract_append, Nat.sub_sub]

/-- A full sink takes no more. -/
theorem put_append_of_not_fits {sink : Sink} {a : String} (h : ¬sink.Fits a) (b : String) :
    sink.put (a ++ b) = sink.put a := by
  obtain ⟨taken, room⟩ := sink
  cases room with
  | none => exact absurd nofun h
  | some n =>
      have hn : n < a.utf8ByteSize := by simpa [Fits] using h
      have hzero : n - a.utf8ByteSize = 0 := by omega
      have hzero' : n - (a.utf8ByteSize + b.utf8ByteSize) = 0 := by omega
      simp [put, ByteArray.extract_append, hzero, hzero']

end Sink

/-- How a talk ends when all is said: well, or with a failure. -/
def ending (failure : Option Failure) (sink : Sink) : EStateM.Result Failure Sink Unit :=
  match failure with
  | none => .ok () sink
  | some e => .error e sink

/-- The text is said, and then the talk ends, with the failure if there is one. Where there is too
little room for the text, the rest is lost and the talk fails for that. -/
def Tells (m : Talk Unit) (text : String) (failure : Option Failure) : Prop :=
  ∀ sink, m sink =
    if sink.Fits text then ending failure (sink.put text) else .error .sinkFull (sink.put text)

theorem say_eq (text : String) (taken : ByteArray) (n : Nat) :
    say text ⟨taken, some n⟩ =
      (if n < text.utf8ByteSize then throw Failure.sinkFull else pure () : Talk Unit)
        ((Sink.mk taken (some n)).put text) := rfl

namespace Tells

theorem say (text : String) : Tells (say text) text none := by
  rintro ⟨taken, room⟩
  cases room with
  | none =>
      rw [if_pos nofun]
      rfl
  | some n =>
      rw [say_eq]
      by_cases h : n < text.utf8ByteSize
      · have hfull : ¬(Sink.mk taken (some n)).Fits text := by simpa [Sink.Fits] using h
        rw [if_pos h, if_neg hfull]
        rfl
      · have hfits : (Sink.mk taken (some n)).Fits text := by simpa [Sink.Fits] using h
        rw [if_neg h, if_pos hfits]
        rfl

theorem pure : Tells (Pure.pure ()) "" none := by
  intro sink
  rw [if_pos sink.fits_empty, sink.put_empty]
  rfl

theorem throw (e : Failure) : Tells (MonadExcept.throw e) "" (some e) := by
  intro sink
  rw [if_pos sink.fits_empty, sink.put_empty]
  rfl

theorem bind {m : Talk Unit} {f : Unit → Talk Unit} {a b : String} {failure : Option Failure}
    (hm : Tells m a none) (hf : Tells (f ()) b failure) : Tells (m >>= f) (a ++ b) failure := by
  intro sink
  have hm := hm sink
  by_cases ha : sink.Fits a
  · rw [if_pos ha] at hm
    rw [bind_of_ok hm, hf, Sink.put_append]
    simp only [Sink.fits_append, ha, true_and]
  · have hab : ¬sink.Fits (a ++ b) := fun h => ha (Sink.fits_append.mp h).1
    rw [if_neg ha] at hm
    rw [bind_of_error hm, if_neg hab, Sink.put_append_of_not_fits ha]

theorem sayAll (texts : List String) : Tells (sayAll texts) (String.join texts) none := by
  induction texts with
  | nil => exact .pure
  | cons t ts ih =>
      rw [String.join_cons]
      exact .bind (.say t) ih

end Tells

/-! ## Conversations -/

/-- A prompt before each answer and one at the end. -/
def transcript (answers : List String) : String :=
  String.join (answers.map fun a => prompt ++ a) ++ prompt

theorem transcript_cons (a : String) (answers : List String) :
    transcript (a :: answers) = prompt ++ (a ++ transcript answers) := by
  simp only [transcript, List.map_cons, String.join_cons, String.append_assoc]

theorem fromUTF8?_eq (line : String) :
    String.fromUTF8? ⟨line.toUTF8.toList.toArray⟩ = some line := by
  rw [toList_eq]
  exact dif_pos line.isValidUTF8

theorem converse_cons (s : Session) (line : String) (ls : List (List UInt8)) :
    converse s (line.toUTF8.toList :: ls) = (do
      say prompt
      sayAll (s.respond line).1
      converse (s.respond line).2 ls) := by
  simp only [converse, fromUTF8?_eq]

/-- The conversation over lines of which the first are text and the next, if there is one, is
not. -/
theorem tells_converse (s : Session) (texts : List String) {bad : List (List UInt8)}
    (hbad : ∀ l ∈ bad.head?, String.fromUTF8? ⟨l.toArray⟩ = none) :
    Tells (converse s (texts.map (fun t => t.toUTF8.toList) ++ bad))
      (transcript (s.answers texts)) (if bad.isEmpty then none else some .notText) := by
  induction texts generalizing s with
  | nil =>
      cases bad with
      | nil => exact .say prompt
      | cons l bad =>
          have htalk : converse s (l :: bad) = (say prompt >>= fun _ => throw .notText) := by
            simp only [converse, hbad l rfl]
          have htext : transcript (s.answers []) = prompt ++ "" := String.append_empty.symm
          rw [List.map_nil, List.nil_append, htalk, htext]
          exact .bind (.say prompt) (.throw .notText)
  | cons line texts ih =>
      rw [Session.answers, transcript_cons, List.map_cons, List.cons_append, converse_cons]
      exact .bind (.say prompt) (.bind (.sayAll _) (ih _))

/-- What is told is what the conversation comes to, with all the room it needs or with less. -/
theorem run_of_tells {limit : Nat} {input : ByteArray} {text : String} {failure : Option Failure}
    (h : Tells (converse (.start limit) (lines input.toList)) text failure) :
    run limit none input = (text.toUTF8, failure) ∧
    ∀ n, run limit (some n) input =
      if text.utf8ByteSize ≤ n then (text.toUTF8, failure)
      else (text.toUTF8.extract 0 n, some .sinkFull) := by
  constructor
  · have hfits : (Sink.mk .empty none).Fits text := nofun
    rw [run, h, if_pos hfits]
    cases failure <;> simp [ending, Sink.put]
  · intro n
    have hfits : (Sink.mk .empty (some n)).Fits text ↔ text.utf8ByteSize ≤ n := by simp [Sink.Fits]
    rw [run, h]
    by_cases hn : text.utf8ByteSize ≤ n
    · have hall : text.toUTF8.extract 0 n = text.toUTF8 := by
        refine ByteArray.ext ?_
        rw [ByteArray.data_extract]
        exact Array.extract_eq_self_of_le hn
      rw [if_pos (hfits.mpr hn), if_pos hn]
      cases failure <;> simp only [ending, Sink.put, hall, ByteArray.empty_append]
    · rw [if_neg (mt hfits.mp hn), if_neg hn]
      simp only [Sink.put, ByteArray.empty_append]

/-- The text is what the conversation over the input says. Where there is too little room for it, it
is cut off and the conversation fails. -/
def Says (limit : Nat) (input : ByteArray) (text : String) : Prop :=
  run limit none input = (text.toUTF8, none) ∧
  ∀ n, run limit (some n) input =
    if text.utf8ByteSize ≤ n then (text.toUTF8, none) else (text.toUTF8.extract 0 n, some .sinkFull)

theorem says_transcript (limit : Nat) {input : ByteArray} {texts : List String}
    (h : lines input.toList = texts.map fun t => t.toUTF8.toList) :
    Says limit input (transcript ((Session.start limit).answers texts)) := by
  have htalk := tells_converse (.start limit) texts (nofun : ∀ l ∈ [].head?, _)
  rw [List.append_nil, ← h] at htalk
  exact run_of_tells htalk

/-- A conversation is its prompts and answers. A line with syntax errors is answered by their
listing, and without it the others are answered as they are. A line that ends with a fault is
answered by what was written until the fault came up and by the fault; the next line finds the world
that the fault found, with the output taken out, and no calls open. So one machine that keeps its
count of open calls from line to line gives these answers. -/
theorem run_answers (limit : Nat) {input : ByteArray} {texts : List String}
    (h : lines input.toList = texts.map fun t => t.toUTF8.toList) :
    let start := Session.start limit
    Says limit input (transcript (start.answers texts)) ∧
    (∀ (i : Nat) (line : String), texts[i]? = some line → (parse line).errors ≠ [] →
      (start.answers texts)[i]? = some (listing (parse line).errors) ∧
      start.answers (texts.eraseIdx i) = (start.answers texts).eraseIdx i ∧
      Says limit (deleteLine i input) (transcript ((start.answers texts).eraseIdx i))) ∧
    (∀ (i : Nat) (line : String) (f : Fault), texts[i]? = some line →
      let s := start.after (texts.take i)
      s.Fails line f →
      s.world.output = "" ∧
      ∃ u : Machine.State, Machine.Faults limit (.start s.env (parse line).program s.world) u f ∧
        (start.answers texts)[i]? =
          some (u.world.output ++ "ERROR: " ++ f.cause.message ++ "\n") ∧
        start.after (texts.take (i + 1)) = { s with world := u.world.takeOutput.2 } ∧
        ∀ t : Machine.State, Machine.Reaches limit u t → t.step limit = none → t.depth = 0) ∧
    ∀ answers, Machine.Talks limit start.env 0 start.world texts answers ↔
      answers = start.answers texts := by
  intro start
  have hwaiting : start.Waiting limit := Session.start_waiting limit
  refine ⟨says_transcript limit h, fun i line hline herrors => ?_, fun i line f hline => ?_,
    Machine.talks_iff hwaiting texts⟩
  · have hthe : (start.after (texts.take i)).answer line = listing (parse line).errors :=
      Session.answer_of_errors _ herrors
    have hothers := start.answers_eraseIdx hline herrors
    refine ⟨?_, hothers, ?_⟩
    · rw [Session.getElem?_answers, hline, Option.map_some, hthe]
    · rw [← hothers]
      refine says_transcript limit ?_
      rw [lines_deleteLine, h, List.eraseIdx_map]
  · intro s hfails
    have hs : s.Waiting limit := hwaiting.after (texts.take i)
    obtain ⟨u, hu, hanswer, hnext⟩ := hfails.respond hs
    refine ⟨hs.output, u, hu, ?_, ?_, fun t ht hend => ?_⟩
    · rw [Session.getElem?_answers, hline, Option.map_some, hanswer]
    · rw [start.after_take_succ hline, hnext]
    · exact Machine.depth_eq_zero (hu.reaches.trans ht) hend

/-- Of four lines the second has a syntax error, and the third goes over the limit of two calls,
which the fourth needs. -/
theorem run_answers_failed_line :
    let line := "let y = 5; f(y)\n"
    let texts := ["let f = fn(n) \x7b puts(n); f(n + 1) \x7d;\n", "let = 1;\n", line,
      "fn() \x7b fn() \x7b y \x7d() \x7d()"]
    let rejected := "parser errors:\n\texpected next token to be IDENT, got = instead\n"
    let failed := "5\n6\nERROR: maximum call depth of 2 exceeded\n"
    let input := (String.join texts).toUTF8
    let start := Session.start 2
    let s := start.after (texts.take 2)
    run 2 none input =
      ((">> " ++ ">> " ++ rejected ++ ">> " ++ failed ++ ">> " ++ "5\n" ++ ">> ").toUTF8, none) ∧
    run 2 none (deleteLine 1 input) =
      ((">> " ++ ">> " ++ failed ++ ">> " ++ "5\n" ++ ">> ").toUTF8, none) ∧
    (∃ u f, Machine.Faults 2 (.start s.env (parse line).program s.world) u f ∧
      u.world.output ++ "ERROR: " ++ f.cause.message ++ "\n" = failed) ∧
    Machine.Talks 2 start.env 0 start.world texts ["", rejected, failed, "5\n"] := by
  intro line texts rejected failed input start s
  have hlines : lines input.toList = texts.map fun t => t.toUTF8.toList := by
    simp only [toList_eq]
    decide +kernel
  have hanswers : start.answers texts = ["", rejected, failed, "5\n"] := by decide +kernel
  have herrors : (parse "let = 1;\n").errors ≠ [] := by decide +kernel
  obtain ⟨f, hfails⟩ : ∃ f, s.Fails line f :=
    Session.exists_fails (by decide +kernel) (by decide +kernel)
  obtain ⟨hsaid, hrejected, hfailed, htalks⟩ := run_answers 2 hlines
  obtain ⟨-, -, hdeleted⟩ := hrejected 1 "let = 1;\n" rfl herrors
  obtain ⟨-, u, hu, hanswer, -⟩ := hfailed 2 line f rfl hfails
  rw [hanswers] at hdeleted hsaid hanswer
  exact ⟨hsaid.1, hdeleted.1, ⟨u, f, hu, (Option.some.inj hanswer).symm⟩,
    (htalks _).mpr hanswers.symm⟩

end Repl

end Monkey

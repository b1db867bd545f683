/-
  CommentQuota.Proofs.CommentValues — which comment values leave the program alone.

  A comment value is put behind the comment mark as it is. It stays inside its comment in every
  document exactly if it does so for itself: the placeholder comment with a line feed behind it must be
  comments and blanks and leave the line feed out. A value that ends in a backslash does not, for the
  next row then belongs to the comment; a value with a line feed may put anything into the program.

  - `keepsProgram_of_ownRows`: placeholder comments that fill their rows keep every program.
  - `ownRows_of_keepsProgram`: a function with a word longer than any value tells the others apart.
  - `keepsProgram_iff_ownRows`: the two together, and what it means for values of one row.
  - `fix_swallows_code`: a value that takes a statement out of the program.
-/

import CommentQuota.Proofs.OwnRows
import CommentQuota.Proofs.ProgramKept
import CommentQuota.Proofs.WrittenNumber

namespace CommentQuota

open Lexeme

/-- An applied fix keeps the program of any document. -/
def Settings.KeepsProgram (s : Settings) : Prop :=
  ∀ t line a report edits t', HashesLead t → PlainBlanks t →
    fix s sourceParser (some t) line = .ok (.applied a report edits t') → programLexemes t' = programLexemes t

/-! ## Placeholder comments that fill their rows -/

theorem isSpace_ne_slash {c : Char} (h : isSpace c = true) : c ≠ '\\' := by
  rintro rfl
  simp [isSpace] at h

/-- Blanks behind a text join no rows. -/
theorem exchanges_blanks {w : Text} (hspace : ∀ c ∈ w, isSpace c = true) (hn : '\n' ∉ w) : Exchanges [] w where
  digits := by simp
  noBreak := hn
  joint := by
    rintro j rfl
    exact Joint.after_noSlash fun h => isSpace_ne_slash (hspace _ h) rfl
  blank := fun _ => hspace

/-- Digits stand for one another, with blanks behind them. -/
theorem exchanges_digits {ds w : Text} (hdigits : ∀ c ∈ ds, c.isDigit = true) (hne : ds ≠ [])
    (hspace : ∀ c ∈ w, isSpace c = true) (hn : '\n' ∉ w) : Exchanges ['0'] (ds ++ w) where
  digits := by simp
  noBreak := by
    rw [List.mem_append, not_or]
    exact ⟨fun h => by simpa using hdigits _ h, hn⟩
  joint := by
    intro j _
    obtain ⟨d, ds, rfl⟩ := List.exists_cons_of_ne_nil hne
    have hslash : ∀ c ∈ d :: ds, c ≠ '\\' := by
      rintro c hc rfl
      simpa using hdigits _ hc
    have hreturn : d ≠ '\r' := by
      rintro rfl
      simpa using hdigits _ List.mem_cons_self
    have hfirst : j.next d = .none := by simp [Joint.next, hslash d List.mem_cons_self, hreturn]
    show (j.next d).after (ds ++ w) = .none
    rw [hfirst]
    apply Joint.after_noSlash
    rw [List.mem_append, not_or]
    exact ⟨fun h => hslash _ (List.mem_cons_of_mem _ h) rfl, fun h => isSpace_ne_slash (hspace _ h) rfl⟩
  blank := by simp

/-- If the first placeholder comment fills its rows, all of them do, with blanks behind them. -/
theorem Settings.fillsRows_placeholderAt {s : Settings} (h : OwnRows (s.placeholderAt 0)) (i : Nat) {w : Text}
    (hspace : ∀ c ∈ w, isSpace c = true) (hn : '\n' ∉ w) : FillsRows (s.placeholderAt i ++ w) := by
  unfold placeholderAt at h ⊢
  cases hs : s.insertion with
  | single =>
    simp only [hs] at h ⊢
    rw [← List.append_nil s.placeholder] at h
    exact h.fillsRows (exchanges_blanks hspace hn)
  | iterative =>
    simp only [hs] at h ⊢
    have hrow : s.placeholder ++ ' ' :: (toString 0).toList = (s.placeholder ++ [' ']) ++ ['0'] := by simp
    rw [hrow] at h
    have hfills := h.fillsRows (exchanges_digits (Numeral.allDigits_toDigits i) Nat.toDigits_ne_nil hspace hn)
    rw [Numeral.toList_toString]
    simpa using hfills

/-! ## Documents with the comments put in -/

/-- The lexemes of the program among some lexemes. -/
def programOf (ls : List Lexeme) : List Lexeme := ls.filter fun l => l.kind != .blank && l.kind != .comment

theorem programLexemes_eq (t : Text) : programLexemes t = programOf (lex true t) := rfl

@[simp] theorem programOf_append (as bs : List Lexeme) : programOf (as ++ bs) = programOf as ++ programOf bs :=
  List.filter_append as bs

theorem programOf_eq_nil_iff {ls : List Lexeme} : programOf ls = [] ↔ ∀ l ∈ ls, l.IsTrivia := by
  rw [programOf, List.filter_eq_nil_iff]
  simp only [IsTrivia, Bool.and_eq_true, bne_iff_ne, ne_eq, not_and, not_not]
  refine forall_congr' fun l => imp_congr_right fun _ => ?_
  tauto

@[simp] theorem programOf_lineFeed (ls : List Lexeme) : programOf (lineFeed :: ls) = programOf ls :=
  List.filter_cons_of_neg (by decide)

@[simp] theorem programOf_brace (ls : List Lexeme) : programOf (brace :: ls) = brace :: programOf ls :=
  List.filter_cons_of_pos (by decide)

/-- Behind the brace of a function there is a row to close, or the blank rest of one; the program goes on
    behind it. -/
theorem FunctionSpan.BodyAt.exists_rest {t : Text} {f : FunctionSpan} {gs : List FunctionSpan} {front : List Lexeme}
    {post : Text} (h : f.BodyAt t gs front post) (ht : HashesLead t) (hb : PlainBlanks t) {r : Text}
    (hr : r = [] ∨ r = ['\r']) :
    ∃ last rest, (if (Text.firstRow post).hasContent then r ++ ['\n'] else []) ++ post = last ++ '\n' :: rest ∧
      (∀ c ∈ last, isSpace c = true) ∧ '\n' ∉ last ∧ programOf (lex false post) = programOf (lex true rest) := by
  cases hfollowed : (Text.firstRow post).hasContent with
  | true =>
    have hhashes : looseHash ∉ lex false post := by
      intro e
      apply ht
      rw [h.lexed]
      simp [e]
    refine ⟨r, post, by simp, ?_, ?_, by rw [lex_fresh hhashes]⟩ <;> rcases hr with rfl | rfl <;> simp [isSpace]
  | false =>
    obtain ⟨u, rest, rfl, hu, hblank⟩ := exists_blankRow hfollowed h.hasContent
    have hlex := lex_blankRow false hblank rest
    have hspace : ∀ c ∈ u, isSpace c = true := by
      intro c hc
      have hmem : ofBlank c ∈ lex true t := by simp [h.lexed, hlex, List.mem_map_of_mem hc]
      exact hb.isSpace hmem (hblank c hc)
    have htrivia : ∀ l ∈ u.map ofBlank, l.IsTrivia := by
      intro l hl
      obtain ⟨c, hc, rfl⟩ := List.mem_map.mp hl
      exact .inl (if_pos (hspace c hc))
    refine ⟨u, rest, by simp, hspace, hu, ?_⟩
    rw [hlex, programOf_append, programOf_eq_nil_iff.mpr htrivia]
    exact programOf_lineFeed _

theorem programOf_lineBreak (fresh : Bool) {r : Text} (hr : r = [] ∨ r = ['\r']) (t : Text) :
    programOf (lex fresh (r ++ ['\n'] ++ t)) = programOf (lex true t) := by
  rcases hr with rfl | rfl
  · rw [List.nil_append, List.singleton_append, lex_newline]
    exact programOf_lineFeed _
  · rw [List.append_assoc, List.singleton_append, List.singleton_append, lex_blank _ (by decide), lex_newline]
    exact (List.filter_cons_of_neg (by decide)).trans (programOf_lineFeed _)

/-- Comments that fill their rows leave the program as it is, wherever a body opens. -/
theorem FunctionSpan.BodyAt.programLexemes_mended {t : Text} {f : FunctionSpan} {gs : List FunctionSpan}
    {front : List Lexeme} {post : Text} (h : f.BodyAt t gs front post) (ht : HashesLead t) (hb : PlainBlanks t)
    {s : Settings} (hs : OwnRows (s.placeholderAt 0)) {n : Nat} (hn : 0 < n) :
    programLexemes (textOf front ++ '\x7b' :: (((List.range n).flatMap fun i => t.lineEnding ++ s.placeholderAt i) ++
      ((if (Text.firstRow post).hasContent then t.lineEnding else []) ++ post))) = programLexemes t := by
  obtain ⟨r, hbreak, hr⟩ := t.lineEnding_cases
  obtain ⟨m, rfl⟩ : ∃ m, n = m + 1 := ⟨n - 1, by omega⟩
  obtain ⟨last, rest, htail, hspace, hlast, hprogram⟩ := h.exists_rest ht hb hr
  have hreturn : (∀ c ∈ r, isSpace c = true) ∧ '\n' ∉ r := by
    rcases hr with rfl | rfl <;> simp [isSpace]
  have hfills : ∀ c ∈ s.placeholderRows m r last, FillsRows c := by
    intro c hc
    rw [Settings.placeholderRows, List.mem_append, List.mem_map, List.mem_singleton] at hc
    rcases hc with ⟨i, -, rfl⟩ | rfl
    · exact Settings.fillsRows_placeholderAt hs i hreturn.1 hreturn.2
    · exact Settings.fillsRows_placeholderAt hs m hspace hlast
  obtain ⟨ls, hlex, htrivia⟩ := lex_fillsRows hfills rest
  rw [hbreak, htail, s.flatMap_placeholderRows, programLexemes_eq, programLexemes_eq, lex_upToBrace h.lexed, h.lexed,
    programOf_append, programOf_brace, programOf_lineBreak false hr, hlex, programOf_append, programOf_eq_nil_iff.mpr htrivia,
    List.nil_append, programOf_append, programOf_brace, hprogram]

/-- The first placeholder comment decides for all of them, and for every document. -/
theorem keepsProgram_of_ownRows {s : Settings} (hs : OwnRows (s.placeholderAt 0)) : s.KeepsProgram := by
  intro t line a report edits t' ht hb h
  obtain ⟨target, hlocate, hanalyze, hneeded, hmend⟩ := fix_eq_applied h
  obtain ⟨row, fs, f, gs, rfl, hrow, hspans, hcovers, hlater, rfl⟩ := locate_eq_ok.mp hlocate
  obtain ⟨front, post, hbody⟩ := exists_body hspans
  obtain ⟨edits', hmend'⟩ := hbody.mend_node s (commentTokens t) hneeded
  rw [hmend', Except.ok.injEq, Prod.mk.injEq] at hmend
  rw [← hmend.2]
  exact hbody.programLexemes_mended ht hb hs (by omega)

/-! ## A function that tells comment values apart -/

/-- A word longer than any row of a placeholder comment. -/
def longWord : Text := List.replicate 80 'x'

/-- What stands behind the brace of the function. -/
def wordBody : Text := longWord ++ [';', '\x7d', '\n']

def wordFunction : Text := "int g(void) \x7b".toList ++ wordBody

/-- Behind a shorter text, the word stands only where it was put. -/
theorem eq_of_longWord {a b c : Text} (h : a ++ (longWord ++ b) = c ++ '\n' :: wordBody) (hc : c.length < 80) :
    a = c ++ ['\n'] := by
  have hword : ∀ i, a.length ≤ i → i < a.length + 80 → (c ++ '\n' :: wordBody)[i]? = some 'x' := by
    intro i hlower hupper
    rw [← h, List.getElem?_append_right hlower, List.getElem?_append_left (by simp [longWord]; omega), longWord,
      List.getElem?_replicate, if_pos (by omega)]
  have hbreak : (c ++ '\n' :: wordBody)[c.length]? = some '\n' := by simp
  have hbehind : (c ++ '\n' :: wordBody)[c.length + 81]? = some ';' := by
    rw [List.getElem?_append_right (by omega), Nat.add_sub_cancel_left]
    decide +kernel
  have hlength : a.length + 80 + b.length = c.length + 84 := by
    have := congrArg List.length h
    simp only [List.length_append, longWord, wordBody, List.length_replicate, List.length_cons, List.length_nil] at this
    omega
  have hstart : a.length = c.length + 1 := by
    by_contra hne
    rcases Nat.lt_or_gt_of_ne hne with hlt | hgt
    · have hx := hword c.length (by omega) (by omega)
      rw [hbreak] at hx
      simp at hx
    · have hx := hword (c.length + 81) (by omega) (by omega)
      rw [hbehind] at hx
      simp at hx
  have hsplit : a ++ (longWord ++ b) = (c ++ ['\n']) ++ wordBody := by rw [h]; simp
  exact (List.append_inj hsplit (by simp [hstart])).1

/-- Settings under which the function lacks one comment, whatever the comment value is. -/
def probe (value : String) (policy : InsertionPolicy) : Settings :=
  ⟨.float (.ofQuotient false 1 2), value, .int 60, "// ", .firstPass, policy⟩

theorem analyze_probe (t : Target) (value : String) (policy : InsertionPolicy) :
    t.analyze (probe value policy) = t.analyze (probe "" .single) := by
  simp only [Target.analyze, Settings.ensureValid, Target.classification, probe]

/-- The placeholder comment gets between the brace and the word, with a line feed on either side. -/
theorem fix_probe (value : String) (policy : InsertionPolicy) :
    ∃ a report edits, fix (probe value policy) sourceParser (some wordFunction) (some 0) =
      .ok (.applied a report edits ("int g(void) \x7b".toList ++
        '\n' :: ((probe value policy).placeholderAt 0 ++ '\n' :: wordBody))) := by
  -- the report and the place for comments do not depend on the comment value, so they can be computed
  have hneeded : (analyze (probe "" .single) sourceParser (some wordFunction) (some 0)).toOption.map Analysis.needed =
      some 1 := by decide +kernel
  have hstart : (locate sourceParser (some wordFunction) (some 0)).toOption.bind (·.function.bodyStart) =
      some ⟨0, 13⟩ := by decide +kernel
  have hoffset : wordFunction.offsetAt ⟨0, 13⟩ = .ok 13 := by rfl
  have htake : wordFunction.take 13 = "int g(void) \x7b".toList := by decide +kernel
  have hdrop : wordFunction.drop 13 = wordBody := by decide +kernel
  have hbreak : wordFunction.lineEnding = ['\n'] := by decide +kernel
  have hfollowed : (Text.firstRow wordBody).hasContent = true := by decide +kernel
  cases hlocate : locate sourceParser (some wordFunction) (some 0) with
  | error e => simp [hlocate, Except.toOption] at hstart
  | ok target =>
    have hsource : target.source = wordFunction := by
      obtain ⟨row, fs, f, gs, -, -, -, -, -, rfl⟩ := locate_eq_ok.mp hlocate
      rfl
    simp only [hlocate, Except.toOption, Option.bind_some] at hstart
    simp only [analyze, hlocate, bind, Except.bind] at hneeded
    rw [← analyze_probe target value policy] at hneeded
    obtain ⟨a, hanalyze, hone⟩ : ∃ a, target.analyze (probe value policy) = .ok a ∧ a.needed = 1 := by
      cases hanalyze : target.analyze (probe value policy) with
      | error e => simp [hanalyze, Except.toOption] at hneeded
      | ok a => exact ⟨a, rfl, by simpa [hanalyze, Except.toOption] using hneeded⟩
    obtain ⟨report, hreport⟩ : ∃ report, a.report = .ok report := by
      obtain ⟨-, p, q, -, rfl⟩ := Target.analyze_eq_ok.mp hanalyze
      exact target.report_measured _ p q
    rw [← hsource] at hoffset
    obtain ⟨edits, -, hmend⟩ := Target.mend_at hstart hoffset (probe value policy) (a := a) (by omega)
    simp only [hsource, hone, htake, hdrop, hbreak, hfollowed, if_true] at hmend
    refine ⟨a, report, edits, ?_⟩
    simp only [fix, hlocate, hanalyze, Target.fix, hreport, bind, Except.bind, pure, Except.pure]
    rw [if_neg (by omega), hmend]
    simp [List.range_succ]

theorem length_placeholderAt_probe {value : String} (h : value.toList.length ≤ 60) (policy : InsertionPolicy) :
    ((probe value policy).placeholderAt 0).length < 80 := by
  have hlead : (probe value policy).placeholder.length = 3 + value.toList.length := by
    have hmark : "// ".toList.length = 3 := by decide
    rw [Settings.placeholder, List.length_append, ← hmark]
    rfl
  cases policy with
  | single =>
    show (probe value .single).placeholder.length < 80
    omega
  | iterative =>
    show ((probe value .iterative).placeholder ++ [' ', '0']).length < 80
    rw [List.length_append, hlead]
    simp only [List.length_cons, List.length_nil]
    omega

/-- Lexemes among which the word is the first of the program are comments and blanks up to the word. -/
theorem trivia_before_longWord {A B : List Lexeme} {rest : List Lexeme} (hrest : ⟨.word, longWord⟩ ∉ rest)
    (h : programOf (A ++ ⟨.word, longWord⟩ :: B) = ⟨.word, longWord⟩ :: rest) : ∀ l ∈ A, l.IsTrivia := by
  rw [programOf_append] at h
  have hword : programOf (⟨.word, longWord⟩ :: B) = ⟨.word, longWord⟩ :: programOf B :=
    List.filter_cons_of_pos (by decide)
  rw [hword] at h
  rw [← programOf_eq_nil_iff]
  cases hA : programOf A with
  | nil => rfl
  | cons l ls =>
    rw [hA, List.cons_append, List.cons.injEq] at h
    exact absurd (by rw [← h.2]; simp) hrest

/-- A comment value that keeps the program of this function fills its rows: the word is found where it
    was put, and nothing of the program stands before it. -/
theorem ownRows_of_keepsProgram {value : String} (hvalue : value.toList.length ≤ 60) {policy : InsertionPolicy}
    (h : (probe value policy).KeepsProgram) : OwnRows ((probe value policy).placeholderAt 0) := by
  obtain ⟨a, report, edits, hfix⟩ := fix_probe value policy
  have hprogram := h wordFunction (some 0) a report edits _ (by decide +kernel) (by decide +kernel) hfix
  have hlength := length_placeholderAt_probe hvalue policy
  generalize (probe value policy).placeholderAt 0 = row at *
  have hsource : lex true wordFunction = lex true "int g(void) ".toList ++ brace :: lex false wordBody := by
    decide +kernel
  have hbody : programOf (lex false wordBody) = [⟨.word, longWord⟩, ⟨.symbol, [';']⟩, ⟨.symbol, ['\x7d']⟩] := by
    decide +kernel
  have htarget : lex true ("int g(void) \x7b".toList ++ '\n' :: (row ++ '\n' :: wordBody)) =
      lex true "int g(void) ".toList ++ brace :: lineFeed :: lex true (row ++ '\n' :: wordBody) := by
    have hupTo := lex_upToBrace hsource ('\n' :: (row ++ '\n' :: wordBody))
    rw [lex_newline, textOf_lex] at hupTo
    exact hupTo
  rw [programLexemes_eq, programLexemes_eq, hsource, htarget] at hprogram
  simp only [programOf_append, programOf_brace, programOf_lineFeed, List.append_cancel_left_eq, List.cons.injEq, true_and]
    at hprogram
  rw [hbody] at hprogram
  have hmem : ⟨.word, longWord⟩ ∈ lex true (row ++ '\n' :: wordBody) :=
    List.mem_of_mem_filter (by rw [← programOf, hprogram]; simp)
  obtain ⟨A, B, hlex⟩ := List.append_of_mem hmem
  have htext : textOf A ++ (longWord ++ textOf B) = row ++ '\n' :: wordBody := by
    rw [← textOf_lex true (row ++ '\n' :: wordBody), hlex, textOf_append, textOf_cons]
  rw [hlex] at hprogram
  exact ownRows_of_lex hlex (eq_of_longWord htext hlength) (trivia_before_longWord (by decide) hprogram)
    (d := 'x') rfl (by decide)

/-! ## Comment values -/

/-- The first placeholder comment of a value. -/
def commentRow (policy : InsertionPolicy) (value : String) : Text :=
  match policy with
  | .single => "// ".toList ++ value.toList
  | .iterative => "// ".toList ++ value.toList ++ " 0".toList

theorem placeholderAt_zero {s : Settings} (hlead : s.lead = "// ") :
    s.placeholderAt 0 = commentRow s.insertion s.comment := by
  unfold Settings.placeholderAt commentRow Settings.placeholder
  rw [hlead]
  cases s.insertion with
  | single => rfl
  | iterative => rfl

theorem ownRows_commentRow_iff {value : String} (hn : '\n' ∉ value.toList) (policy : InsertionPolicy) :
    OwnRows (commentRow policy value) ↔
      (policy = .single → ¬ ['\\'] <:+ value.toList ∧ ¬ ['\\', '\r'] <:+ value.toList) := by
  cases policy with
  | single =>
    have hrow : commentRow .single value = '/' :: '/' :: (' ' :: value.toList) := rfl
    rw [hrow, ownRows_lineComment_iff (by simpa using hn), ← Joint.after_eq_none_iff]
    exact ⟨fun h _ => h, fun h => h rfl⟩
  | iterative =>
    have hrow : commentRow .iterative value = '/' :: '/' :: ((' ' :: value.toList ++ [' ']) ++ ['0']) := by
      simp [commentRow]
    rw [hrow, ownRows_lineComment_iff (by simpa using hn)]
    exact iff_of_true (Joint.after_concat _ _ (by decide) (by decide)) nofun

/-- Of a comment value, cut to sixty characters, every applied fix with either policy keeps the program of
    every document exactly if its placeholder comment fills its rows. For a value without a line feed this
    is so unless it ends in a backslash, with or without a carriage return, and no index stands behind it. -/
theorem keepsProgram_iff_ownRows (given : String) (policy : InsertionPolicy) :
    ((∀ s : Settings, s.lead = "// " → s.comment = Draft.cut 60 given → s.insertion = policy → s.KeepsProgram) ↔
      OwnRows (commentRow policy (Draft.cut 60 given))) ∧
    ('\n' ∉ (Draft.cut 60 given).toList →
      (OwnRows (commentRow policy (Draft.cut 60 given)) ↔
        (policy = .single →
          ¬ ['\\'] <:+ (Draft.cut 60 given).toList ∧ ¬ ['\\', '\r'] <:+ (Draft.cut 60 given).toList))) := by
  have hlength : (Draft.cut 60 given).toList.length ≤ 60 := by simp [Draft.cut]
  refine ⟨⟨?_, ?_⟩, fun hn => ownRows_commentRow_iff hn policy⟩
  · intro h
    have hrow := ownRows_of_keepsProgram hlength (h (probe _ policy) rfl rfl rfl)
    rwa [placeholderAt_zero rfl] at hrow
  · rintro h s hlead hcomment rfl
    apply keepsProgram_of_ownRows
    rwa [placeholderAt_zero hlead, hcomment]

/-- The default settings with a comment value. -/
def valueSettings (given : String) : Settings :=
  ⟨.float (.ofQuotient false 1 4), Draft.cut 60 given, .int 60, "// ", .firstPass, .single⟩

/-- Any text can be given as the comment value. -/
theorem ofPairs_comment (given : String) :
    Settings.ofPairs [("autoInsertCommentValue", .text given)] = .ok (valueSettings given) := by
  have hkey : Settings.shortKey "autoInsertCommentValue" = "autoInsertCommentValue" := by decide
  have hpair : Settings.applyPair {} ("autoInsertCommentValue", .text given) = .ok { comment := some given } := by
    simp [Settings.applyPair, hkey, Value.display]
  simp only [Settings.ofPairs, Settings.draftOfPairs, List.foldlM, hpair, bind, Except.bind, pure, Except.pure]
  rfl

/-- A function whose first statement stands on the row of its brace. -/
def twoRows : Text := "int g(int x) \x7b x++;\n return x; \x7d\n".toList

/-- The function with a comment that goes on in the row of the statement. -/
def twoRowsSwallowed : Text := "int g(int x) \x7b\n// todo\\\n x++;\n return x; \x7d\n".toList

/-- The function with a statement that came with a comment value. -/
def twoRowsInjected : Text := "int g(int x) \x7b\n// todo\nabort();\n x++;\n return x; \x7d\n".toList

/-- A value that ends in a backslash takes the first statement into the comment, and a value with a line
    feed puts a statement of its own into the program. -/
theorem fix_swallows_code : HashesLead twoRows ∧ PlainBlanks twoRows ∧
    (∃ s a report edits, Settings.ofPairs [("autoInsertCommentValue", .text "todo\\")] = .ok s ∧
      fix s sourceParser (some twoRows) (some 0) = .ok (.applied a report edits twoRowsSwallowed) ∧
      programLexemes twoRowsSwallowed ≠ programLexemes twoRows) ∧
    ∃ s a report edits, Settings.ofPairs [("autoInsertCommentValue", .text "todo\nabort();")] = .ok s ∧
      fix s sourceParser (some twoRows) (some 0) = .ok (.applied a report edits twoRowsInjected) ∧
      programLexemes twoRowsInjected ≠ programLexemes twoRows := by
  have hswallows : ((fix (valueSettings "todo\\") sourceParser (some twoRows) (some 0)).toOption.bind
      Outcome.newText?) = some twoRowsSwallowed := by decide +kernel
  have hinjects : ((fix (valueSettings "todo\nabort();") sourceParser (some twoRows) (some 0)).toOption.bind
      Outcome.newText?) = some twoRowsInjected := by decide +kernel
  obtain ⟨a, report, edits, hswallows⟩ := exists_applied hswallows
  obtain ⟨a', report', edits', hinjects⟩ := exists_applied hinjects
  exact ⟨by decide +kernel, by decide +kernel,
    ⟨_, a, report, edits, ofPairs_comment _, hswallows, by decide +kernel⟩,
    ⟨_, a', report', edits', ofPairs_comment _, hinjects, by decide +kernel⟩⟩

end CommentQuota

/-
  CommentQuota.Proofs.Mending — an applied fix is a widening.

  A fix that is applied has measured the function under the cursor, found that comments are missing,
  and put them behind the brace that opens the body. With placeholder comments that are line comments,
  and hashes only where they lead a row, this is a widening at that brace.

  - `locate_eq_ok`: the function under the cursor.
  - `analyze_eq_ok`: the report on it.
  - `fix_eq_applied`: what an applied fix has gone through.
  - `Target.mend_at`: the document with the comments, where a body starts.
  - `Target.mend_eq_ok`: the edits stand where the body starts, and the document has their texts there.
  - `exists_mends`: the widening of an applied fix.
-/

import CommentQuota.Fix
import CommentQuota.Proofs.Accounting
import CommentQuota.Proofs.Insertion

namespace CommentQuota

open Lexeme

/-! ## What a fix goes through -/

theorem locate_eq_ok {t : Text} {line : Option Int} {target : Target} :
    locate sourceParser (some t) line = .ok target ↔
      ∃ row fs f gs, line = some row ∧ 0 ≤ row ∧ functionSpans (tokens t) = fs ++ f :: gs ∧ f.coversRow row = true ∧
        (∀ g ∈ gs, g.coversRow row = false) ∧ target = ⟨t, f.node (commentTokens t)⟩ := by
  cases line with
  | none => simp [locate]
  | some row =>
    by_cases hrow : row < 0
    · have : ¬ 0 ≤ row := by omega
      simp [locate, hrow, this]
    · simp only [locate, if_neg hrow, sourceParser]
      constructor
      · intro h
        split at h
        · rename_i fn hfn
          obtain ⟨fs, f, gs, hspans, hcovers, hlater, rfl⟩ := enclosingFunction_parse_eq_some.mp hfn
          exact ⟨row, fs, f, gs, rfl, by omega, hspans, hcovers, hlater, (Except.ok.inj h).symm⟩
        · cases h
      · rintro ⟨row', fs, f, gs, e, -, hspans, hcovers, hlater, rfl⟩
        obtain rfl := Option.some.inj e
        rw [enclosingFunction_parse_eq_some.mpr ⟨fs, f, gs, hspans, hcovers, hlater, rfl⟩]

theorem source_of_locate {parser : Parser} {t : Text} {line : Option Int} {target : Target}
    (h : locate parser (some t) line = .ok target) : target.source = t := by
  unfold locate at h
  cases line with
  | none => cases h
  | some row =>
    dsimp only at h
    split at h
    · cases h
    split at h
    · cases h
    split at h
    · exact (Except.ok.inj h) ▸ rfl
    · cases h

/-- Counts are consistent when there are no more comment rows than rows. -/
theorem needed_natCast {comments total : Nat} (h : comments ≤ total) (v : Value) :
    needed comments total v =
      Minimum.check v >>= fun _ => Minimum.fraction v >>= fun r => pure (leastAddition comments total r.1 r.2) := by
  have hcounts : ¬ ((comments : Int) < 0 ∨ (total : Int) < comments) := by omega
  unfold needed
  simp only [if_neg hcounts, Int.toNat_natCast]

namespace Target

/-- The report on a function with the minimum `p / q`. -/
def measured (target : Target) (s : Settings) (p q : Nat) : Analysis where
  codeRows := (target.classification s).code.size
  commentRows := (target.classification s).comments.size
  total := (target.classification s).total
  ratio := .real (target.classification s).ratio
  needed := leastAddition (target.classification s).comments.size (target.classification s).total p q
  minimum := s.minimum
  name := target.function.functionName
  startRow := (target.classification s).start
  stopRow := (target.classification s).stop

/-- A usable minimum is all that a report needs. -/
theorem analyze_eq_ok {target : Target} {s : Settings} {a : Analysis} :
    target.analyze s = .ok a ↔ Minimum.check s.minimum = .ok () ∧
      ∃ p q, Minimum.fraction s.minimum = .ok (p, q) ∧ a = target.measured s p q := by
  have hcounts : (target.classification s).comments.size ≤ (target.classification s).total := Nat.le_add_left _ _
  unfold analyze Settings.ensureValid Analysis.ofClassification
  rw [needed_natCast hcounts]
  cases hcheck : Minimum.check s.minimum with
  | error e => simp [bind, Except.bind]
  | ok u =>
    cases hfraction : Minimum.fraction s.minimum with
    | error e => simp [bind, Except.bind]
    | ok r =>
      obtain ⟨p, q⟩ := r
      simp [bind, Except.bind, pure, Except.pure, measured, eq_comm]

/-- What is no comment row is a code row. -/
theorem total_measured (target : Target) (s : Settings) (p q : Nat) :
    (target.measured s p q).total = (target.measured s p q).codeRows + (target.measured s p q).commentRows := by
  simp [measured, Classification.total]

theorem report_measured (target : Target) (s : Settings) (p q : Nat) :
    ∃ report, (target.measured s p q).report = .ok report := ⟨_, rfl⟩

end Target

theorem fix_eq_applied {s : Settings} {parser : Parser} {source : Option Text} {line : Option Int} {a : Analysis}
    {report : String} {edits : List Edit} {text : Text}
    (h : fix s parser source line = .ok (.applied a report edits text)) :
    ∃ target, locate parser source line = .ok target ∧ target.analyze s = .ok a ∧ 0 < a.needed ∧
      target.mend s a = .ok (edits, text) := by
  have hfault : ∀ e : Fault, e.outcome ≠ .ok (.applied a report edits text) := by
    intro e
    cases e <;> simp [Fault.outcome]
  unfold fix at h
  split at h
  · exact absurd h (hfault _)
  rename_i target hlocate
  split at h
  · exact absurd h (hfault _)
  rename_i a' hanalyze
  unfold Target.fix at h
  cases hreport : a'.report with
  | error e => simp [hreport, bind, Except.bind] at h
  | ok r =>
    simp only [hreport, bind, Except.bind, pure, Except.pure] at h
    split at h
    · simp at h
    rename_i hneeded
    split at h
    · rename_i es x hmend
      simp only [Except.ok.injEq, Outcome.applied.injEq] at h
      obtain ⟨rfl, -, rfl, rfl⟩ := h
      exact ⟨target, hlocate, hanalyze, by omega, hmend⟩
    · split at h
      · simp at h
      · cases h

/-- Only an applied fix leaves a new document. -/
theorem exists_applied {r : Except Fault Outcome} {t : Text} (h : r.toOption.bind Outcome.newText? = some t) :
    ∃ a report edits, r = .ok (.applied a report edits t) := by
  cases r with
  | error e => simp [Except.toOption] at h
  | ok o =>
    cases o <;> simp [Except.toOption, Outcome.newText?] at h
    subst h
    exact ⟨_, _, _, rfl⟩

/-! ## The comments of a fix -/

theorem Text.lineEnding_cases (t : Text) : ∃ r, t.lineEnding = r ++ ['\n'] ∧ (r = [] ∨ r = ['\r']) := by
  fun_induction lineEnding t with
  | case1 => exact ⟨[], rfl, .inl rfl⟩
  | case2 => exact ⟨[], rfl, .inl rfl⟩
  | case3 => exact ⟨['\r'], rfl, .inr rfl⟩
  | case4 c cs _ _ ih => exact ih

/-- The comments of a fix, which takes in the return of a line break `r` and, behind the last of them,
    what stands there before the line feed. -/
def Settings.placeholderRows (s : Settings) (m : Nat) (r last : Text) : List Text :=
  (List.range m).map (fun i => s.placeholderAt i ++ r) ++ [s.placeholderAt m ++ last]

theorem Settings.flatMap_placeholderRows (s : Settings) (m : Nat) (r last rest : Text) :
    ((List.range (m + 1)).flatMap fun i => (r ++ ['\n']) ++ s.placeholderAt i) ++ (last ++ '\n' :: rest) =
      (r ++ ['\n']) ++ ((s.placeholderRows m r last).flatMap (· ++ ['\n']) ++ rest) := by
  have hturn : ∀ k, ((List.range k).flatMap fun i => (r ++ ['\n']) ++ s.placeholderAt i) ++ (r ++ ['\n']) =
      (r ++ ['\n']) ++ (List.range k).flatMap fun i => s.placeholderAt i ++ (r ++ ['\n']) := by
    intro k
    induction k with
    | zero => simp
    | succ k ih =>
      rw [List.range_succ, List.flatMap_append, List.flatMap_append, ← List.append_assoc (r ++ ['\n']), ← ih]
      simp
  have hrows : (s.placeholderRows m r last).flatMap (· ++ ['\n']) =
      ((List.range m).flatMap fun i => s.placeholderAt i ++ (r ++ ['\n'])) ++ (s.placeholderAt m ++ (last ++ ['\n'])) := by
    simp [placeholderRows, List.flatMap_append, List.flatMap_map]
  calc ((List.range (m + 1)).flatMap fun i => (r ++ ['\n']) ++ s.placeholderAt i) ++ (last ++ '\n' :: rest)
      = (((List.range m).flatMap fun i => (r ++ ['\n']) ++ s.placeholderAt i) ++ (r ++ ['\n'])) ++
          (s.placeholderAt m ++ (last ++ '\n' :: rest)) := by
        rw [List.range_succ, List.flatMap_append]
        simp
    _ = ((r ++ ['\n']) ++ (List.range m).flatMap fun i => s.placeholderAt i ++ (r ++ ['\n'])) ++
          (s.placeholderAt m ++ (last ++ '\n' :: rest)) := by rw [hturn]
    _ = (r ++ ['\n']) ++ ((s.placeholderRows m r last).flatMap (· ++ ['\n']) ++ rest) := by
        rw [hrows]
        simp

/-- A row that is blank up to its end has a line feed there, if the text goes on. -/
theorem exists_blankRow {t : Text} (h : (Text.firstRow t).hasContent = false) (ht : Text.hasContent t = true) :
    ∃ u rest, t = u ++ '\n' :: rest ∧ '\n' ∉ u ∧ ∀ c ∈ u, isBlank c = true := by
  by_cases hbreak : '\n' ∈ t
  · obtain ⟨u, rest, rfl, hu⟩ := List.eq_append_cons_of_mem hbreak
    rw [Text.hasContent_firstRow rest hu, Text.hasContent, List.any_eq_false] at h
    exact ⟨u, rest, rfl, hu, by simpa using h⟩
  · rw [Text.firstRow_of_noBreak hbreak, ht] at h
    cases h

theorem FunctionSpan.BodyAt.hasContent {t : Text} {f : FunctionSpan} {gs : List FunctionSpan} {front : List Lexeme}
    {post : Text} (h : f.BodyAt t gs front post) : Text.hasContent post = true := by
  have hmem := mem_lexeme_of_mem_place h.closing_mem
  have htext : '\x7d' ∈ post := by
    rw [← textOf_lex false post, textOf, List.mem_flatMap]
    exact ⟨_, hmem, by simp [(Token.isSymbol_eq_true.mp h.closes).2, Functions.closeBrace]⟩
  rw [Text.hasContent, List.any_eq_true]
  exact ⟨_, htext, by decide⟩

theorem Settings.PlainComment.isLineComment_placeholderRows {s : Settings} (hs : s.PlainComment) (m : Nat) {r last : Text}
    (hr : '\n' ∉ r ∧ '\\' ∉ r) (hlast : '\n' ∉ last ∧ '\\' ∉ last) :
    ∀ c ∈ s.placeholderRows m r last, IsLineComment c := by
  intro c hc
  rw [placeholderRows, List.mem_append, List.mem_map, List.mem_singleton] at hc
  rcases hc with ⟨i, -, rfl⟩ | rfl
  · exact (hs.isLineComment_placeholderAt i).append hr.1 hr.2
  · exact (hs.isLineComment_placeholderAt m).append hlast.1 hlast.2

/-- What stands behind the brace of a function: text, which is moved behind the line break `r` and its
    line feed, or the blank rest of the row, which the last comment takes in. -/
theorem FunctionSpan.BodyAt.exists_gap {t : Text} {f : FunctionSpan} {gs : List FunctionSpan} {front : List Lexeme}
    {post : Text} (h : f.BodyAt t gs front post) {r : Text} (hr : '\n' ∉ r ∧ '\\' ∉ r) :
    ∃ gap rest last, post = gap ++ rest ∧
      ((gap = [] ∧ (Text.firstRow rest).hasContent = true) ∨
        ∃ u, gap = u ++ ['\n'] ∧ '\n' ∉ u ∧ ∀ c ∈ u, isBlank c = true) ∧
      ('\n' ∉ last ∧ '\\' ∉ last) ∧
      (if (Text.firstRow post).hasContent then r ++ ['\n'] else []) ++ post = last ++ '\n' :: rest ∧
      (gap = [] ↔ (Text.firstRow post).hasContent = true) := by
  cases hfollowed : (Text.firstRow post).hasContent with
  | true => exact ⟨[], post, r, rfl, .inl ⟨rfl, hfollowed⟩, hr, by simp, by simp⟩
  | false =>
    obtain ⟨u, rest, rfl, hu, hblank⟩ := exists_blankRow hfollowed h.hasContent
    have hslash : '\\' ∉ u := fun e => absurd (hblank _ e) (by decide)
    exact ⟨u ++ ['\n'], rest, u, by simp, .inr ⟨u, rfl, hu, hblank⟩, ⟨hu, hslash⟩, by simp, by simp⟩

/-- Comments behind the brace of a function, and a line break behind them if text follows the brace,
    are a widening there. -/
theorem exists_widening {s : Settings} {t : Text} {f : FunctionSpan} {gs : List FunctionSpan} {front : List Lexeme}
    {post : Text} (hs : s.PlainComment) (ht : HashesLead t) (h : f.BodyAt t gs front post) {n : Int} (hn : 0 < n) :
    ∃ w : Widening, w.Opens f gs ∧ w.source = t ∧ (w.comments.length : Int) = n ∧
      (w.gap = [] ↔ (Text.firstRow post).hasContent = true) ∧
      w.target = textOf front ++ '\x7b' :: (((List.range n.toNat).flatMap fun i => t.lineEnding ++ s.placeholderAt i) ++
        ((if (Text.firstRow post).hasContent then t.lineEnding else []) ++ post)) := by
  obtain ⟨r, hbreak, hr⟩ := t.lineEnding_cases
  obtain ⟨m, hm⟩ : ∃ m : Nat, n.toNat = m + 1 := ⟨n.toNat - 1, by omega⟩
  have hreturn : '\n' ∉ r ∧ '\\' ∉ r := by
    rcases hr with rfl | rfl <;> decide
  have hhashes : looseHash ∉ lex false post := by
    intro e
    apply ht
    rw [h.lexed]
    simp [e]
  obtain ⟨gap, rest, last, hpost, hgap, hlast, htail, hnil⟩ := h.exists_gap hreturn
  let w : Widening :=
    { front, gap, rest
      lineBreak := r ++ ['\n']
      comments := s.placeholderRows m r last
      lexed := by rw [← hpost, ← h.text_eq, h.lexed]
      gap_cases := hgap
      hashes := by rwa [← hpost]
      lineBreak_cases := by rcases hr with rfl | rfl <;> simp
      comments_ne_nil := by simp [Settings.placeholderRows]
      isLineComment := hs.isLineComment_placeholderRows m hreturn hlast }
  have hsource : w.source = t := by
    rw [h.text_eq, hpost]
    rfl
  refine ⟨w, Widening.opens_of_bodyAt ?_, hsource, ?_, hnil, ?_⟩
  · rw [hsource]
    show f.BodyAt t gs front (gap ++ rest)
    rwa [← hpost]
  · show ((s.placeholderRows m r last).length : Int) = n
    simp only [Settings.placeholderRows, List.length_append, List.length_map, List.length_range, List.length_singleton]
    omega
  · rw [hbreak, htail, hm, s.flatMap_placeholderRows]
    rfl

/-- Where a body starts at a position of the document, the comments are put in there. -/
theorem Target.mend_at {t : Target} {p : Position} {k : Nat} (hstart : t.function.bodyStart = some p)
    (hoffset : t.source.offsetAt p = .ok k) (s : Settings) {a : Analysis} (hn : 0 < a.needed) :
    ∃ edits, edits ≠ [] ∧ t.mend s a = .ok (edits, t.source.take k ++
      (((List.range a.needed.toNat).flatMap fun i => t.source.lineEnding ++ s.placeholderAt i) ++
        ((if (Text.firstRow (t.source.drop k)).hasContent then t.source.lineEnding else []) ++ t.source.drop k))) := by
  have hfollowed : t.source.followedByText p = .ok (Text.firstRow (t.source.drop k)).hasContent := by
    rw [Text.followedByText, hoffset]
    rfl
  have happly := applyEdits_placeholders s hoffset hn t.source.lineEnding (Text.firstRow (t.source.drop k)).hasContent
  refine ⟨_, placeholders_ne_nil s p hn t.source.lineEnding (Text.firstRow (t.source.drop k)).hasContent, ?_⟩
  simp only [mend, plan, hstart, hfollowed, bind, Except.bind, happly, pure, Except.pure]

/-- The edits of a fix stand at the start of the body, and the document has their texts there. -/
theorem Target.mend_eq_ok {t : Target} {s : Settings} {a : Analysis} (hn : 0 < a.needed) {edits : List Edit} {text : Text}
    (h : t.mend s a = .ok (edits, text)) :
    ∃ p k, ∃ ts : List Text, t.function.bodyStart = some p ∧ t.source.offsetAt p = .ok k ∧ ts.flatten ≠ [] ∧
      edits = ts.map (Edit.mk p) ∧ text = t.source.take k ++ (ts.flatten ++ t.source.drop k) := by
  unfold mend plan at h
  cases hstart : t.function.bodyStart with
  | none => simp [hstart, bind, Except.bind] at h
  | some p =>
    cases hoffset : t.source.offsetAt p with
    | error m => simp [hstart, Text.followedByText, hoffset, Except.map, bind, Except.bind] at h
    | ok k =>
      simp only [hstart, Text.followedByText, hoffset, Except.map, bind, Except.bind, pure, Except.pure] at h
      obtain ⟨ts, hedits, hne, htexts⟩ := exists_placeholderEdits s p hn t.source.lineEnding
        (Text.firstRow (t.source.drop k)).hasContent
      rw [hedits, applyEdits_at hoffset hne] at h
      simp only [Except.ok.injEq, Prod.mk.injEq] at h
      -- the first comment stands behind a line break
      have hbreak : '\n' ∈ ts.flatten := by
        obtain ⟨r, hr, -⟩ := t.source.lineEnding_cases
        rw [htexts, List.mem_append, List.mem_flatMap]
        exact .inl ⟨0, List.mem_range.mpr (by omega), by simp [hr]⟩
      exact ⟨p, k, ts, rfl, hoffset, List.ne_nil_of_mem hbreak, h.1.symm, h.2.symm⟩

/-- A function of a document has a place for comments. -/
theorem FunctionSpan.BodyAt.mend_node {t : Text} {f : FunctionSpan} {gs : List FunctionSpan} {front : List Lexeme}
    {post : Text} (h : f.BodyAt t gs front post) (s : Settings) (cs : List Token) {a : Analysis} (hn : 0 < a.needed) :
    ∃ edits, Target.mend ⟨t, f.node cs⟩ s a = .ok (edits, textOf front ++ '\x7b' ::
      (((List.range a.needed.toNat).flatMap fun i => t.lineEnding ++ s.placeholderAt i) ++
        ((if (Text.firstRow post).hasContent then t.lineEnding else []) ++ post))) := by
  have htext : t = (textOf front ++ ['\x7b']) ++ post := by rw [h.text_eq]; simp
  have hoffset : t.offsetAt f.opening.stop = .ok (textOf front ++ ['\x7b']).length := by
    rw [h.opening_eq, htext]
    exact Text.offsetAt_after (Text.not_partsBreak post (by simp))
  obtain ⟨edits, -, hmend⟩ := Target.mend_at (t := ⟨t, f.node cs⟩) (bodyStart_node f cs) hoffset s hn
  have htake : t.take (textOf front ++ ['\x7b']).length = textOf front ++ ['\x7b'] := by
    rw [htext, List.take_left]
  have hdrop : t.drop (textOf front ++ ['\x7b']).length = post := by
    rw [htext, List.drop_left]
  refine ⟨edits, ?_⟩
  rw [hmend]
  simp only [htake, hdrop, List.append_assoc, List.singleton_append]

/-- A function under the cursor with a report either has enough comments or gets those it lacks. -/
theorem fix_located {s : Settings} {t : Text} {line : Option Int} {target : Target} {p q : Nat}
    (hlocate : locate sourceParser (some t) line = .ok target)
    (hanalyze : target.analyze s = .ok (target.measured s p q)) :
    ((target.measured s p q).needed ≤ 0 ∧
      ∃ report, fix s sourceParser (some t) line = .ok (.notNeeded (target.measured s p q) report)) ∨
    (0 < (target.measured s p q).needed ∧
      ∃ report edits t', fix s sourceParser (some t) line = .ok (.applied (target.measured s p q) report edits t')) := by
  obtain ⟨report, hreport⟩ := target.report_measured s p q
  have hfix : fix s sourceParser (some t) line = target.fix s (target.measured s p q) := by
    simp only [fix, hlocate, hanalyze]
  rw [hfix]
  simp only [Target.fix, hreport, bind, Except.bind, pure, Except.pure]
  by_cases hneeded : (target.measured s p q).needed ≤ 0
  · exact .inl ⟨hneeded, report, by rw [if_pos hneeded]⟩
  · obtain ⟨row, fs, f, gs, rfl, hrow, hspans, hcovers, hlater, rfl⟩ := locate_eq_ok.mp hlocate
    obtain ⟨front, post, hbody⟩ := exists_body hspans
    obtain ⟨edits, hmend⟩ := hbody.mend_node s (commentTokens t) (Int.not_le.mp hneeded)
    refine .inr ⟨Int.not_le.mp hneeded, ?_⟩
    simp only [if_neg hneeded, hmend]
    exact ⟨report, edits, _, rfl⟩

/-! ## An applied fix -/

namespace Widening

/-- The widened function as it was. -/
def before (w : Widening) (f : FunctionSpan) : Target := ⟨w.source, f.node (commentTokens w.source)⟩

/-- The widened function as it is. -/
def after (w : Widening) (f : FunctionSpan) : Target := ⟨w.target, (f.map w.move).node (commentTokens w.target)⟩

/-- The widening is a fix at a cursor: it widens the function `f` under the cursor, which is the one
    there afterwards, and it puts in the comments that `f` lacks to the minimum `p / q`. -/
structure Mends (w : Widening) (s : Settings) (line : Option Int) (f : FunctionSpan) (p q : Nat) : Prop where
  mem_spans : f ∈ functionSpans (tokens w.source)
  opens : ∃ gs, w.Opens f gs
  locate_before : locate sourceParser (some w.source) line = .ok (w.before f)
  locate_after : locate sourceParser (some w.target) line = .ok (w.after f)
  checked : Minimum.check s.minimum = .ok ()
  fraction_eq : Minimum.fraction s.minimum = .ok (p, q)
  needed_eq : ((w.before f).measured s p q).needed = w.comments.length

end Widening

theorem exists_mends {s : Settings} {t t' : Text} {line : Option Int} {a : Analysis} {report : String}
    {edits : List Edit} (hs : s.PlainComment) (ht : HashesLead t)
    (h : fix s sourceParser (some t) line = .ok (.applied a report edits t')) :
    ∃ w f p q, Widening.Mends w s line f p q ∧ w.source = t ∧ w.target = t' ∧ a = (w.before f).measured s p q := by
  obtain ⟨target, hlocate, hanalyze, hneeded, hmend⟩ := fix_eq_applied h
  obtain ⟨row, fs, f, gs, rfl, hrow, hspans, hcovers, hlater, rfl⟩ := locate_eq_ok.mp hlocate
  obtain ⟨hcheck, p, q, hfraction, rfl⟩ := Target.analyze_eq_ok.mp hanalyze
  obtain ⟨front, post, hbody⟩ := exists_body hspans
  obtain ⟨w, hopens, rfl, hlength, hgap, htarget⟩ := exists_widening hs ht hbody hneeded
  obtain ⟨edits', hmend'⟩ := hbody.mend_node s (commentTokens w.source) hneeded
  have ht' : w.target = t' := by
    rw [hmend', ← htarget, Except.ok.injEq, Prod.mk.injEq] at hmend
    exact hmend.2
  refine ⟨w, f, p, q, ⟨by simp [hspans], ⟨gs, hopens⟩, hlocate, ?_, hcheck, hfraction, hlength.symm⟩, rfl, ht', rfl⟩
  have hnonneg : ¬ row < 0 := by omega
  simp only [locate, if_neg hnonneg, sourceParser, hopens.enclosingFunction_target hspans hcovers]
  rfl

end CommentQuota

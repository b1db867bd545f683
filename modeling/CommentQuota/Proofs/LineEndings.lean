/-
  CommentQuota.Proofs.LineEndings — the line breaks of a document after a fix.

  A document may end its rows with a line feed or with a carriage return and a line feed, and it may
  mix the two. A fix looks at the first break only. It adds breaks of that kind behind the brace of the
  body and keeps all others, so that a document with one kind of break still has one kind. No
  carriage return meets a line feed that it did not stand in front of before: the brace stands in
  front of the first added break, comments hold neither character, and what follows keeps the first
  break it has.

  - `lineBreaks_append` / `mem_lineBreaks_iff`: the line breaks of a text, and where they stand.
  - `lineBreaks_comments`: comments put in at a place of a text add one break each.
  - `behindBrace_of_locate`: in C source, a body starts behind a brace.
  - `fix_keepsLineEndings`: one kind of break stays one kind, and how many breaks are added.
-/

import CommentQuota.Proofs.EditedRows
import CommentQuota.Proofs.RowAccounting

namespace CommentQuota

open Lexeme

namespace Text

/-! ## The line breaks of a text -/

/-- The line breaks, first to last. -/
def lineBreaks : Text → List Text
  | [] => []
  | '\n' :: cs => ['\n'] :: lineBreaks cs
  | '\r' :: '\n' :: cs => ['\r', '\n'] :: lineBreaks cs
  | _ :: cs => lineBreaks cs

theorem lineBreaks_cons {c : Char} {cs : Text} (hfeed : c ≠ '\n') (hreturn : c = '\r' → cs.head? ≠ some '\n') :
    lineBreaks (c :: cs) = lineBreaks cs := by
  rw [lineBreaks]
  · exact hfeed
  · intro ds hc hcs
    exact hreturn hc (hcs ▸ rfl)

theorem lineBreaks_append {a b : Text} (h : ¬ PartsBreak a b) : lineBreaks (a ++ b) = lineBreaks a ++ lineBreaks b := by
  fun_induction lineBreaks a with
  | case1 => rfl
  | case2 cs ih => simp [lineBreaks, ih (@not_partsBreak_behind ['\n'] cs b h)]
  | case3 cs ih => simp [lineBreaks, ih (@not_partsBreak_behind ['\r', '\n'] cs b h)]
  | case4 c cs hfeed hreturn ih =>
    rw [List.cons_append, lineBreaks_cons hfeed, ih (@not_partsBreak_behind [c] cs b h)]
    intro hc hhead
    subst hc
    obtain ⟨ds, rfl⟩ := List.head?_eq_some_iff.mp ((head?_append_of_return h).mp hhead)
    exact hreturn ds rfl rfl

theorem lineBreaks_of_noFeed {t : Text} (h : '\n' ∉ t) : lineBreaks t = [] := by
  fun_induction lineBreaks t with
  | case1 => rfl
  | case2 cs ih => simp at h
  | case3 cs ih => simp at h
  | case4 c cs hfeed hreturn ih => exact ih fun e => h (List.mem_cons_of_mem c e)

theorem length_lineBreaks (t : Text) : (lineBreaks t).length = t.count '\n' := by
  fun_induction lineBreaks t with
  | case1 => rfl
  | case2 cs ih => simp [ih]
  | case3 cs ih => simp [ih]
  | case4 c cs hfeed hreturn ih => rw [ih, List.count_cons_of_ne hfeed]

theorem lineBreaks_ne_nil {t : Text} (h : '\n' ∈ t) : lineBreaks t ≠ [] := by
  rw [← List.length_pos_iff, length_lineBreaks]
  exact List.count_pos_iff.mpr h

theorem lineEnding_eq (t : Text) : lineEnding t = (lineBreaks t).headD ['\n'] := by
  fun_induction lineBreaks t with
  | case1 => rfl
  | case2 cs ih => simp [lineEnding]
  | case3 cs ih => simp [lineEnding]
  | case4 c cs hfeed hreturn ih =>
    have hbreak : ¬ (c = '\r' ∧ cs.head? = some '\n') := by
      intro h
      obtain ⟨ds, hcs⟩ := List.head?_eq_some_iff.mp h.2
      exact hreturn ds h.1 hcs
    rw [lineEnding, if_neg hfeed, if_neg hbreak, ih]

theorem getLast?_cons_ne {c d : Char} {u : Text} (hc : c ≠ d) (hu : u.getLast? ≠ some d) : (c :: u).getLast? ≠ some d := by
  cases u with
  | nil => simpa using hc
  | cons x u => rwa [List.getLast?_cons_cons]

/-- Where the line breaks stand. A line feed is one by itself only if no carriage return stands in front of it. -/
theorem mem_lineBreaks_iff {t c : Text} : c ∈ lineBreaks t ↔
    ∃ u v, t = u ++ (c ++ v) ∧ (c = ['\r', '\n'] ∨ c = ['\n'] ∧ u.getLast? ≠ some '\r') := by
  constructor
  · intro h
    fun_induction lineBreaks t with
    | case1 => simp at h
    | case2 cs ih =>
      rcases List.mem_cons.mp h with rfl | h
      · exact ⟨[], cs, rfl, .inr ⟨rfl, by simp⟩⟩
      · obtain ⟨u, v, rfl, hc⟩ := ih h
        exact ⟨'\n' :: u, v, rfl, hc.imp_right (.imp_right (getLast?_cons_ne (by decide)))⟩
    | case3 cs ih =>
      rcases List.mem_cons.mp h with rfl | h
      · exact ⟨[], cs, rfl, .inl rfl⟩
      · obtain ⟨u, v, rfl, hc⟩ := ih h
        refine ⟨'\r' :: '\n' :: u, v, rfl, hc.imp_right (.imp_right ?_)⟩
        intro hu
        rw [List.getLast?_cons_cons]
        exact getLast?_cons_ne (by decide) hu
    | case4 c cs hfeed hreturn ih =>
      obtain ⟨u, v, rfl, hc⟩ := ih h
      refine ⟨c :: u, v, rfl, ?_⟩
      rcases hc with rfl | ⟨rfl, hu⟩
      · exact .inl rfl
      · refine .inr ⟨rfl, ?_⟩
        cases u with
        | nil => exact fun e => hreturn v (Option.some.inj e) rfl
        | cons d u => rwa [List.getLast?_cons_cons]
  · intro h
    obtain ⟨u, v, rfl, hc⟩ := h
    have hparts : ¬ PartsBreak u (c ++ v) := by
      intro e
      rcases hc with rfl | ⟨rfl, hu⟩
      · exact absurd e.2 (by simp)
      · exact hu e.1
    rw [lineBreaks_append hparts]
    rcases hc with rfl | ⟨rfl, -⟩ <;> simp [lineBreaks]

/-! ## Breaks put in -/

theorem lineBreaks_lineBreak {a lineBreak : Text} (h : IsLineBreak lineBreak) (ha : a.getLast? ≠ some '\r') (rest : Text) :
    lineBreaks (a ++ (lineBreak ++ rest)) = lineBreaks a ++ lineBreak :: lineBreaks rest := by
  rw [lineBreaks_append (not_partsBreak _ ha)]
  rcases h with rfl | rfl <;> rfl

/-- Comments put in at a place of a text, each behind a line break. -/
theorem lineBreaks_comments {a lineBreak : Text} (h : IsLineBreak lineBreak) (ha : a.getLast? ≠ some '\r')
    {comments : List Text} (hcomments : ∀ c ∈ comments, '\r' ∉ c ∧ '\n' ∉ c) (rest : Text) :
    lineBreaks (a ++ (comments.flatMap (lineBreak ++ ·) ++ rest)) =
      lineBreaks a ++ (List.replicate comments.length lineBreak ++ lineBreaks rest) := by
  induction comments generalizing a with
  | nil => exact lineBreaks_append (not_partsBreak _ ha)
  | cons c cs ih =>
    obtain ⟨hreturn, hfeed⟩ := hcomments c List.mem_cons_self
    have ih := ih (getLast?_ne_of_not_mem hreturn) fun d hd => hcomments d (List.mem_cons_of_mem c hd)
    rw [List.flatMap_cons, List.append_assoc, List.append_assoc, lineBreaks_lineBreak h ha, ih,
      lineBreaks_of_noFeed hfeed]
    rfl

theorem lineEnding_mem (t : Text) : lineEnding t ∈ lineBreaks t ∨ lineBreaks t = [] ∧ lineEnding t = ['\n'] := by
  rw [lineEnding_eq]
  cases lineBreaks t with
  | nil => exact .inr ⟨rfl, rfl⟩
  | cons c cs => exact .inl List.mem_cons_self

theorem isLineBreak_lineEnding (t : Text) : IsLineBreak t.lineEnding := by
  obtain ⟨r, hbreak, rfl | rfl⟩ := t.lineEnding_cases
  · exact .inl hbreak
  · exact .inr hbreak

/-! ## One kind of line break -/

/-- Every line feed has a carriage return in front of it. -/
def AllReturned (t : Text) : Prop := ∀ u v, t = u ++ '\n' :: v → u.getLast? = some '\r'

/-- No line feed has a carriage return in front of it. -/
def NoneReturned (t : Text) : Prop := ∀ u v, t = u ++ '\n' :: v → u.getLast? ≠ some '\r'

theorem allReturned_iff {t : Text} : t.AllReturned ↔ ['\n'] ∉ lineBreaks t := by
  rw [mem_lineBreaks_iff]
  constructor
  · intro h hmem
    obtain ⟨u, v, e, hc⟩ := hmem
    rcases hc with hc | ⟨-, hu⟩
    · cases hc
    · exact hu (h u v e)
  · intro h u v e
    by_cases hu : u.getLast? = some '\r'
    · exact hu
    · exact absurd ⟨u, v, e, .inr ⟨rfl, hu⟩⟩ h

theorem noneReturned_iff {t : Text} : t.NoneReturned ↔ ['\r', '\n'] ∉ lineBreaks t := by
  rw [mem_lineBreaks_iff]
  constructor
  · intro h hmem
    obtain ⟨u, v, rfl, -⟩ := hmem
    exact h (u ++ ['\r']) v (by simp) (by simp)
  · intro h u v e hu
    obtain ⟨w, rfl⟩ := List.getLast?_eq_some_iff.mp hu
    exact h ⟨w, v, by simp [e], .inl rfl⟩

/-- The position is the place behind an opening brace. -/
def BehindBrace (t : Text) (p : Position) : Prop :=
  ∃ u v, t = u ++ '\x7b' :: v ∧ (⟨0, 0⟩ : Position).afterText (u ++ ['\x7b']) = p

theorem BehindBrace.exists_split {t : Text} {p : Position} (h : t.BehindBrace p) :
    ∃ u v, t = u ++ v ∧ t.offsetAt p = .ok u.length ∧ u.getLast? ≠ some '\r' := by
  obtain ⟨u, v, rfl, rfl⟩ := h
  have hlast : (u ++ ['\x7b']).getLast? ≠ some '\r' := by simp
  have hsplit : u ++ '\x7b' :: v = (u ++ ['\x7b']) ++ v := by simp
  refine ⟨u ++ ['\x7b'], v, hsplit, ?_, hlast⟩
  rw [hsplit]
  exact offsetAt_after (not_partsBreak v hlast)

end Text

/-! ## The line breaks of a fix -/

/-- In C source, the body of a function starts behind a brace. -/
theorem behindBrace_of_locate {t : Text} {line : Option Int} {target : Target}
    (h : locate sourceParser (some t) line = .ok target) {p : Position} (hp : target.function.bodyStart = some p) :
    t.BehindBrace p := by
  obtain ⟨row, fs, f, gs, -, -, hspans, -, -, rfl⟩ := locate_eq_ok.mp h
  obtain ⟨front, post, hbody⟩ := exists_body hspans
  rw [FunctionSpan.bodyStart_node, hbody.opening_eq] at hp
  exact ⟨textOf front, post, hbody.text_eq, Option.some.inj hp⟩

/-- Placeholder comments put in at a place of a text, with a break behind the last of them if the row is to be closed. -/
theorem Settings.BreaksNoRow.lineBreaks_placeholders {s : Settings} (hs : s.BreaksNoRow) {u lineBreak : Text}
    (h : lineBreak.IsLineBreak) (hu : u.getLast? ≠ some '\r') (n : Nat) (closeRow : Bool) (v : Text) :
    Text.lineBreaks (u ++ (((List.range n).flatMap fun i => lineBreak ++ s.placeholderAt i) ++
      ((if closeRow then lineBreak else []) ++ v))) =
      u.lineBreaks ++ (List.replicate (n + closeRow.toNat) lineBreak ++ v.lineBreaks) := by
  have hclose : Text.lineBreaks ((if closeRow then lineBreak else []) ++ v) =
      List.replicate closeRow.toNat lineBreak ++ v.lineBreaks := by
    cases closeRow with
    | false => rfl
    | true => exact Text.lineBreaks_lineBreak h (a := []) (by simp) v
  rw [← List.flatMap_map, Text.lineBreaks_comments h hu (hs.placeholders n), hclose, List.length_map, List.length_range,
    ← List.replicate_append_replicate, List.append_assoc]

/-- The breaks that a fix adds are all of the kind that the document has first. -/
theorem Target.lineBreaks_mend {s : Settings} (hs : s.BreaksNoRow) {target : Target} {p : Position}
    (hp : target.function.bodyStart = some p) (hbrace : target.source.BehindBrace p) {a : Analysis} (hn : 0 < a.needed)
    {edits : List Edit} {text : Text} (h : target.mend s a = .ok (edits, text)) :
    ∃ front rest followed, target.source.lineBreaks = front ++ rest ∧ target.source.followedByText p = .ok followed ∧
      text.lineBreaks = front ++ (List.replicate (a.needed.toNat + followed.toNat) target.source.lineEnding ++ rest) := by
  obtain ⟨source, function⟩ := target
  obtain ⟨u, v, rfl, hoffset, hu⟩ := hbrace.exists_split
  obtain ⟨edits', -, hmend⟩ := Target.mend_at hp hoffset s hn
  rw [hmend, Except.ok.injEq, Prod.mk.injEq] at h
  obtain ⟨-, rfl⟩ := h
  simp only [List.take_left, List.drop_left]
  refine ⟨_, _, (Text.firstRow v).hasContent, Text.lineBreaks_append (Text.not_partsBreak v hu), ?_,
    hs.lineBreaks_placeholders (Text.isLineBreak_lineEnding _) hu _ _ v⟩
  rw [Text.followedByText, hoffset, Except.map, List.drop_left]

/-- Where a body starts behind a brace, a fix of a document with one kind of line break leaves one with that kind. Every
    missing comment brings one break, and text that follows the brace brings one more. -/
theorem fix_keepsLineEndings {s : Settings} {parser : Parser} {t t' : Text} {line : Option Int} {a : Analysis}
    {report : String} {edits : List Edit} (hs : s.BreaksNoRow)
    (hbrace : ∀ target p, locate parser (some t) line = .ok target → target.function.bodyStart = some p → t.BehindBrace p)
    (h : fix s parser (some t) line = .ok (.applied a report edits t')) :
    ∃ target p followed, locate parser (some t) line = .ok target ∧ target.function.bodyStart = some p ∧
      t.followedByText p = .ok followed ∧ ('\n' ∈ t → t.AllReturned → t'.AllReturned) ∧
      (t.NoneReturned → t'.NoneReturned) ∧
      (t'.lineBreaks.length : Int) = t.lineBreaks.length + a.needed + followed.toNat := by
  obtain ⟨target, hlocate, -, hneeded, hmend⟩ := fix_eq_applied h
  obtain ⟨p, k, -, hp, -⟩ := Target.mend_eq_ok hneeded hmend
  obtain rfl := source_of_locate hlocate
  obtain ⟨front, rest, followed, hbefore, hfollowed, hafter⟩ :=
    Target.lineBreaks_mend hs hp (hbrace target p hlocate hp) hneeded hmend
  -- a break of the new document is one of the old, which has another only if it has none at all
  have hmem : ∀ c ∈ t'.lineBreaks, c ∈ target.source.lineBreaks ∨ target.source.lineBreaks = [] ∧ c = ['\n'] := by
    intro c hc
    rw [hafter, List.mem_append, List.mem_append] at hc
    rcases hc with hc | hc | hc
    · exact .inl (hbefore ▸ List.mem_append_left _ hc)
    · rw [(List.mem_replicate.mp hc).2]
      exact target.source.lineEnding_mem
    · exact .inl (hbefore ▸ List.mem_append_right _ hc)
  refine ⟨target, p, followed, hlocate, hp, hfollowed, ?_, ?_, ?_⟩
  · intro hfeed hall
    rw [Text.allReturned_iff] at hall ⊢
    intro hc
    rcases hmem _ hc with hc | ⟨hnil, -⟩
    · exact hall hc
    · exact Text.lineBreaks_ne_nil hfeed hnil
  · intro hnone
    rw [Text.noneReturned_iff] at hnone ⊢
    intro hc
    rcases hmem _ hc with hc | ⟨-, hc⟩
    · exact hnone hc
    · cases hc
  · rw [hbefore, hafter]
    simp only [List.length_append, List.length_replicate]
    omega

/-- A function on two rows, whose breaks all have a carriage return. -/
def returnedText : Text := "int g(void) \x7b return 0;\r\n\x7d\r\n".toList

/-- The function with the comments it lacks. -/
def returnedFixed : Text := "int g(void) \x7b\r\n// todo\r\n// todo\r\n return 0;\r\n\x7d\r\n".toList

theorem fix_keepsLineEndings_returned : halfSettings.BreaksNoRow ∧
    (∀ target p, locate sourceParser (some returnedText) (some 0) = .ok target → target.function.bodyStart = some p →
      returnedText.BehindBrace p) ∧
    ∃ a report edits, fix halfSettings sourceParser (some returnedText) (some 0) = .ok (.applied a report edits returnedFixed) ∧
      '\n' ∈ returnedText ∧ returnedText.AllReturned ∧ returnedFixed.AllReturned ∧
      ∃ p followed, returnedText.followedByText p = .ok followed ∧ (5 : Int) = 2 + a.needed + followed.toNat := by
  have hs : halfSettings.BreaksNoRow := ⟨by decide, by decide⟩
  have hbrace : ∀ target p, locate sourceParser (some returnedText) (some 0) = .ok target →
      target.function.bodyStart = some p → returnedText.BehindBrace p := fun _ _ h => behindBrace_of_locate h
  have hfeed : '\n' ∈ returnedText := by decide
  have hall : returnedText.AllReturned := Text.allReturned_iff.mpr (by decide)
  obtain ⟨a, report, edits, h⟩ : ∃ a report edits, fix halfSettings sourceParser (some returnedText) (some 0) =
      .ok (.applied a report edits returnedFixed) := exists_applied (by decide +kernel)
  obtain ⟨target, p, followed, -, -, hfollowed, hreturned, -, hlength⟩ := fix_keepsLineEndings hs hbrace h
  exact ⟨hs, hbrace, a, report, edits, h, hfeed, hall, hreturned hfeed hall, p, followed, hfollowed, hlength⟩

end CommentQuota

/-
  CommentQuota.Proofs.EditedRows — the rows of a document with placeholder comments put in.

  The row of the position is cut there. Its first part stays a row, the comments become one row each,
  and its second part stands behind the last comment or, if the row is to be closed, on a row of its
  own. All other rows stay as they are. It does not matter whether one edit holds all the comments or
  each has its own, nor which line breaks the document has. Only a carriage return in front of the
  position would be taken for one of a line break that starts with a line feed.

  - `rows_at`: the rows of a document in front of a position, on its row and behind it.
  - `rows_lineBreak`: a line break between two texts.
  - `rows_comments` / `rows_lastComment`: comments behind a text, each behind a line break, and what follows the last.
  - `rows_placeholders`: the rows of the edited document.
-/

import CommentQuota.Proofs.Encoding
import CommentQuota.Proofs.Insertion

namespace CommentQuota

/-- The placeholder comments of the settings break no row. -/
structure Settings.BreaksNoRow (s : Settings) : Prop where
  noReturn : '\r' ∉ s.placeholder
  noFeed : '\n' ∉ s.placeholder

theorem Settings.BreaksNoRow.placeholderAt {s : Settings} (h : s.BreaksNoRow) (i : Nat) :
    '\r' ∉ s.placeholderAt i ∧ '\n' ∉ s.placeholderAt i := by
  unfold Settings.placeholderAt
  cases s.insertion with
  | single => exact ⟨h.noReturn, h.noFeed⟩
  | iterative =>
    simp only [List.mem_append, List.mem_cons, not_or]
    exact ⟨⟨h.noReturn, by decide, not_mem_toString (by decide) i⟩, ⟨h.noFeed, by decide, not_mem_toString (by decide) i⟩⟩

theorem Settings.BreaksNoRow.placeholders {s : Settings} (h : s.BreaksNoRow) (n : Nat) :
    ∀ c ∈ (List.range n).map s.placeholderAt, '\r' ∉ c ∧ '\n' ∉ c := by
  intro c hc
  obtain ⟨i, -, rfl⟩ := List.mem_map.mp hc
  exact h.placeholderAt i

namespace Text

theorem rows_of_noFeed {c : Text} (h : '\n' ∉ c) : rows c = [c] := by
  have hlength := length_rows c
  rw [List.count_eq_zero_of_not_mem h] at hlength
  obtain ⟨x, hx⟩ := List.length_eq_one_iff.mp hlength
  have hfirst := rows_eq c
  rw [hx, firstRow_of_noBreak h] at hfirst
  rw [hx, (List.cons.inj hfirst).1]

theorem getLast?_ne_of_not_mem {c : Text} {d : Char} (h : d ∉ c) : c.getLast? ≠ some d :=
  fun e => h (List.mem_of_getLast? e)

/-- A position cuts its row in two: the text in front of it ends with the first part. -/
theorem rows_at {a b : Text} (h : ¬ PartsBreak a b) :
    ∃ front head, rows a = front ++ [head] ∧ rows (a ++ b) = front ++ (head ++ firstRow b) :: (rows b).tail ∧
      (⟨0, 0⟩ : Position).afterText a = ⟨front.length, head.byteLength⟩ := by
  obtain ⟨front, head, hfront⟩ := (List.eq_nil_or_concat (rows a)).resolve_left (rows_ne_nil a)
  have hrows := rows_append h
  have hcount := length_rows a
  rw [hfront] at hrows hcount
  simp only [List.concat_eq_append, List.dropLast_concat, List.getLastD_concat, List.length_append,
    List.length_singleton] at hrows hcount
  refine ⟨front, head, by rw [hfront, List.concat_eq_append], hrows, ?_⟩
  -- the first part is what stands behind the last line feed
  obtain ⟨u, v, rfl, hv, hu⟩ := exists_lastRow a
  obtain ⟨hstart, hplace⟩ := rowStarts_after u v b hv hu
  have hfeeds : front.length = u.count '\n' := by
    rw [List.count_append, List.count_eq_zero_of_not_mem hv] at hcount
    omega
  have hrow : (rows (u ++ v ++ b))[front.length]? = some (v ++ firstRow b) := by
    rw [rows_eq_map_rowStarts, List.getElem?_map, hfeeds, hstart, Option.map_some, List.append_assoc, List.drop_left,
      firstRow_append hv (not_partsBreak_behind h)]
  rw [hrows, List.getElem?_append_right (Nat.le_refl _), Nat.sub_self, List.getElem?_cons_zero] at hrow
  rw [hplace, hfeeds, List.append_cancel_right (Option.some.inj hrow)]

/-! ## Line breaks put in -/

/-- The two line breaks. -/
def IsLineBreak (c : Text) : Prop := c = ['\n'] ∨ c = ['\r', '\n']

theorem rows_lineBreak {a lineBreak : Text} (h : IsLineBreak lineBreak) (ha : a.getLast? ≠ some '\r') (rest : Text) :
    rows (a ++ (lineBreak ++ rest)) = rows a ++ rows rest := by
  obtain ⟨front, head, hrows, happend, -⟩ := rows_at (not_partsBreak (lineBreak ++ rest) ha)
  have hfirst : firstRow (lineBreak ++ rest) = [] := by
    rcases h with rfl | rfl <;> simp [firstRow]
  have htail : (rows (lineBreak ++ rest)).tail = rows rest := by
    rcases h with rfl | rfl <;> simp [rows]
  rw [happend, hfirst, htail, List.append_nil, hrows, List.append_assoc]
  simp

/-- Comments behind a text are a row each; what follows stands behind the last of them. -/
theorem rows_comments {a lineBreak : Text} (h : IsLineBreak lineBreak) (ha : a.getLast? ≠ some '\r') {comments : List Text}
    (hcomments : ∀ c ∈ comments, '\r' ∉ c ∧ '\n' ∉ c) (last rest : Text) :
    rows (a ++ ((comments ++ [last]).flatMap (lineBreak ++ ·) ++ rest)) = rows a ++ comments ++ rows (last ++ rest) := by
  induction comments generalizing a with
  | nil =>
    simp only [List.nil_append, List.flatMap_singleton, List.append_assoc, List.append_nil]
    exact rows_lineBreak h ha _
  | cons c cs ih =>
    obtain ⟨hreturn, hfeed⟩ := hcomments c List.mem_cons_self
    have ih := ih (getLast?_ne_of_not_mem hreturn) fun d hd => hcomments d (List.mem_cons_of_mem c hd)
    rw [List.cons_append, List.flatMap_cons, List.append_assoc, List.append_assoc, rows_lineBreak h ha, ih,
      rows_of_noFeed hfeed]
    simp

/-- Behind a comment, the rest of a row is a row of its own or goes on behind the comment. -/
theorem rows_lastComment {c lineBreak : Text} (h : IsLineBreak lineBreak) (hc : '\r' ∉ c ∧ '\n' ∉ c) (closeRow : Bool)
    (rest : Text) : rows (c ++ ((if closeRow then lineBreak else []) ++ rest)) =
      (if closeRow then [c, firstRow rest] else [c ++ firstRow rest]) ++ (rows rest).tail := by
  have hlast := getLast?_ne_of_not_mem hc.1
  cases closeRow with
  | true =>
    have hbehind := rows_lineBreak h hlast rest
    rw [rows_of_noFeed hc.2, rows_eq rest] at hbehind
    simpa using hbehind
  | false =>
    have hbehind := rows_append (not_partsBreak rest hlast)
    rw [rows_of_noFeed hc.2] at hbehind
    simpa using hbehind

end Text

/-- With placeholder comments put in at a position, the row of the position is cut into what stands in front of it and
    what follows, the comments are rows in between, and what follows stands behind the last of them or on a row of its
    own. -/
theorem rows_placeholders {s : Settings} (hs : s.BreaksNoRow) {t : Text} {p : Position} {k : Nat} (hp : t.offsetAt p = .ok k)
    (hreturn : (t.take k).getLast? ≠ some '\r') {n : Int} (hn : 0 < n) {lineBreak : Text}
    (hbreak : lineBreak = ['\n'] ∨ lineBreak = ['\r', '\n']) (closeRow : Bool) :
    ∃ head tail t', t.rows[p.row.toNat]? = some (head ++ tail) ∧ ((Utf8.encode head).length : Int) = p.column ∧
      applyEdits t (placeholders s p n lineBreak closeRow) = .ok t' ∧
      t'.rows = t.rows.take p.row.toNat ++ [head] ++ (List.range (n.toNat - 1)).map s.placeholderAt ++
        (if closeRow then [s.placeholderAt (n.toNat - 1), tail] else [s.placeholderAt (n.toNat - 1) ++ tail]) ++
        t.rows.drop (p.row.toNat + 1) := by
  have happly := applyEdits_placeholders s hp hn lineBreak closeRow
  obtain ⟨a, b, rfl, rfl, hplace, hwhole⟩ := Text.offsetAt_eq_ok_iff.mp hp
  rw [List.take_left, List.drop_left] at happly
  rw [List.take_left] at hreturn
  obtain ⟨front, head, hfront, hrows, hhead⟩ := Text.rows_at hwhole
  rw [hhead] at hplace
  subst hplace
  obtain ⟨m, hm⟩ : ∃ m : Nat, n.toNat = m + 1 := ⟨n.toNat - 1, by omega⟩
  have htexts : ((List.range n.toNat).flatMap fun i => lineBreak ++ s.placeholderAt i) =
      ((List.range m).map s.placeholderAt ++ [s.placeholderAt m]).flatMap (lineBreak ++ ·) := by
    rw [hm, List.range_succ, List.flatMap_append, List.flatMap_append, List.flatMap_map]
    simp
  refine ⟨head, Text.firstRow b, _, ?_, ?_, happly, ?_⟩
  · simp [hrows]
  · rw [Utf8.length_encode]
  · rw [htexts, Text.rows_comments hbreak hreturn (hs.placeholders m), hm, Nat.add_sub_cancel]
    rw [Text.rows_lastComment hbreak (hs.placeholderAt m), hfront, hrows]
    simp

/-- Settings that tag every comment with its index. -/
def taggedSettings : Settings := ⟨.null, "todo", .int 60, "// ", .firstPass, .iterative⟩

/-- A text with two kinds of line breaks and, on its second row, a carriage return that breaks no row. -/
def cutText : Text := "é\r\na;\rb€\n".toList

theorem rows_placeholders_tagged : taggedSettings.BreaksNoRow ∧ cutText.offsetAt ⟨1, 2⟩ = .ok 5 ∧
    (cutText.take 5).getLast? ≠ some '\r' ∧ ∃ head tail t', "a;\rb€".toList = head ++ tail ∧ (Utf8.encode head).length = 2 ∧
      applyEdits cutText (placeholders taggedSettings ⟨1, 2⟩ 2 ['\r', '\n'] true) = .ok t' ∧
      t'.rows = ["é".toList, head, "// todo 0".toList, "// todo 1".toList, tail, []] := by
  have hs : taggedSettings.BreaksNoRow := ⟨by decide, by decide⟩
  have hp : cutText.offsetAt ⟨1, 2⟩ = .ok 5 :=
    Text.offsetAt_eq_ok_iff.mpr ⟨"é\r\na;".toList, "\rb€\n".toList, rfl, rfl, by decide +kernel, Text.not_partsBreak _ (by decide)⟩
  have hreturn : (cutText.take 5).getLast? ≠ some '\r' := by decide
  have hn : (0 : Int) < 2 := by decide
  obtain ⟨head, tail, t', hrow, hhead, happly, hrows⟩ := rows_placeholders hs hp hreturn hn (.inr rfl) true
  have hsecond : cutText.rows[1]? = some "a;\rb€".toList := by decide
  have hfront : cutText.rows.take 1 = ["é".toList] := by decide
  have hrest : cutText.rows.drop 2 = [[]] := by decide
  refine ⟨hs, hp, hreturn, head, tail, t', ?_, Int.ofNat.inj hhead, happly, ?_⟩
  · exact Option.some.inj (hsecond.symm.trans hrow)
  · rw [hrows]
    show cutText.rows.take 1 ++ [head] ++ [taggedSettings.placeholderAt 0] ++ [taggedSettings.placeholderAt 1, tail] ++
      cutText.rows.drop 2 = _
    rw [hfront, hrest]
    rfl

end CommentQuota

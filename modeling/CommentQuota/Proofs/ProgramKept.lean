/-
  CommentQuota.Proofs.ProgramKept — a fix never changes the program.

  What a compiler reads of a document are the lexemes that are neither blanks nor comments. A fix adds
  comments behind a brace, each on a row of its own, and leaves these lexemes and the comments that
  were there. What it needs of a document can be told from these lexemes, so it holds after every step
  of a session.

  - `programLexemes_target` / `commentLexemes_target`: the lexemes of a widened document.
  - `fix_keepsProgram`: what one applied fix adds and keeps.
  - `session_keepsProgram`: the same along every session.
-/

import CommentQuota.Proofs.RowAccounting
import CommentQuota.Proofs.Sessions

namespace CommentQuota

open Lexeme

/-! ## What is kept -/

/-- The lexemes of the program: neither blanks nor comments. -/
def programLexemes (t : Text) : List Lexeme := (lex true t).filter fun l => l.kind != .blank && l.kind != .comment

/-- The comments of a document. -/
def commentLexemes (t : Text) : List Lexeme := (lex true t).filter (·.kind == .comment)

/-- The tokens of a document that are not blank. -/
def significant (t : Text) : List Token := (tokens t).filter (·.kind != .blank)

/-- Outside comments, literals and directives, blanks are those of C source. -/
def PlainBlanks (t : Text) : Prop := ∀ l ∈ programLexemes t, l.kind = .symbol → l.text.any isBlank = false

instance (t : Text) : Decidable (PlainBlanks t) := inferInstanceAs (Decidable (∀ l ∈ programLexemes t, _ → _))

theorem PlainBlanks.isSpace {t : Text} (h : PlainBlanks t) {c : Char} (hmem : ofBlank c ∈ lex true t)
    (hblank : isBlank c = true) : isSpace c = true := by
  by_contra hs
  have hprogram : ofBlank c ∈ programLexemes t := List.mem_filter.mpr ⟨hmem, by simp [ofBlank, hs]⟩
  have hplain := h _ hprogram (if_neg hs)
  simp [ofBlank, hblank] at hplain

/-- What a fix needs of a document can be told from its program. -/
theorem hashesLead_congr {t u : Text} (h : programLexemes u = programLexemes t) : HashesLead u ↔ HashesLead t := by
  have hmem : ∀ x : Text, looseHash ∈ programLexemes x ↔ looseHash ∈ lex true x := by
    intro x
    simp [programLexemes, looseHash]
  rw [HashesLead, HashesLead, ← hmem, ← hmem, h]

theorem plainBlanks_congr {t u : Text} (h : programLexemes u = programLexemes t) : PlainBlanks u ↔ PlainBlanks t := by
  rw [PlainBlanks, PlainBlanks, h]

/-- Comments are put in directly behind a brace that ends at `p`, each on a row of its own. What stands
    before them stays, and what follows is moved. -/
structure AddsComments (t t' : Text) (p : Position) (A : List Token) (b : Token) (N B B' : List Token) : Prop where
  source_eq : significant t = A ++ b :: B
  target_eq : significant t' = A ++ b :: (N ++ B')
  brace : b.isSymbol Functions.openBrace = true
  brace_stop : b.stop = p
  kept : B'.map (fun u => (u.kind, u.text)) = B.map (fun u => (u.kind, u.text))
  comments : ∀ n ∈ N, n.kind = .comment
  ownRow : ∀ X n Y, N = X ++ n :: Y →
    (∀ u ∈ A ++ b :: X, u.stop.row < n.start.row) ∧ n.stop.row = n.start.row ∧ ∀ u ∈ Y ++ B', n.stop.row < u.start.row

namespace Widening

variable (w : Widening)

/-! ## Lexemes -/

/-- With blanks of C source only, the gap is blank. -/
theorem filter_gap (h : PlainBlanks w.source) (p : Lexeme → Bool) (hp : ∀ l, l.kind = .blank → p l = false) :
    (w.gap.map ofBlank).filter p = [] := by
  rw [List.filter_eq_nil_iff]
  intro l hl
  obtain ⟨c, hc, rfl⟩ := List.mem_map.mp hl
  have hmem : ofBlank c ∈ lex true w.source := by simp [lex_source, List.mem_map_of_mem hc]
  have hs := h.isSpace hmem (w.gap_blank hc)
  simp [hp (ofBlank c) (if_pos hs)]

theorem programLexemes_target (h : PlainBlanks w.source) : programLexemes w.target = programLexemes w.source := by
  have hinserted : w.inserted.filter (fun l => l.kind != .blank && l.kind != .comment) = [] := by
    rw [List.filter_eq_nil_iff]
    intro l hl
    rcases w.kind_of_mem_inserted hl with e | e <;> simp [e]
  have hgap := w.filter_gap h (fun l => l.kind != .blank && l.kind != .comment) (fun l hl => by simp [hl])
  rw [programLexemes, programLexemes, lex_source, lex_target]
  simp only [List.filter_append, List.filter_cons, hinserted, hgap]

theorem commentLexemes_target : (commentLexemes w.source).Sublist (commentLexemes w.target) := by
  have hgap : (w.gap.map ofBlank).filter (·.kind == .comment) = [] := by
    rw [List.filter_eq_nil_iff]
    intro l hl
    obtain ⟨c, -, rfl⟩ := List.mem_map.mp hl
    unfold ofBlank
    split <;> simp
  have hbrace : ∀ ls, (brace :: ls).filter (·.kind == .comment) = ls.filter (·.kind == .comment) :=
    fun ls => List.filter_cons_of_neg (by decide)
  rw [commentLexemes, commentLexemes, lex_source, lex_target, List.filter_append, hbrace, List.filter_append, hgap,
    List.nil_append, List.filter_append, hbrace, List.filter_append]
  exact (List.Sublist.refl _).append (List.sublist_append_right _ _)

/-! ## Tokens -/

theorem significant_source (h : PlainBlanks w.source) :
    significant w.source = (place ⟨0, 0⟩ w.front).filter (·.kind != .blank) ++
      w.braceToken :: (place w.origin (lex true w.rest)).filter (·.kind != .blank) := by
  have hgap : (place w.site (w.gap.map ofBlank)).filter (·.kind != .blank) = [] := by
    rw [List.filter_eq_nil_iff]
    intro u hu
    have hnone := w.filter_gap h (·.kind != .blank) (fun l hl => by simp [hl])
    exact List.filter_eq_nil_iff.mp hnone _ (mem_lexeme_of_mem_place hu)
  rw [significant, tokens_source, List.filter_append, List.filter_cons_of_pos (by rfl), List.filter_append, hgap,
    List.nil_append]

theorem significant_target :
    significant w.target = (place ⟨0, 0⟩ w.front).filter (·.kind != .blank) ++
      w.braceToken :: (w.added ++
        ((place w.origin (lex true w.rest)).filter (·.kind != .blank)).map (·.shift w.origin w.growth)) := by
  have hadded := w.filter_inserted (·.kind != .blank) (fun u hu => by simp [hu]) (fun u hu => by simp [hu])
  rw [significant, tokens_target, List.filter_append, List.filter_cons_of_pos (by rfl), List.filter_append, hadded,
    List.filter_map]
  rfl

theorem row_of_added {i : Nat} {u : Token} (h : w.added[i]? = some u) :
    u.start.row = w.site.row + 1 + i ∧ u.stop.row = w.site.row + 1 + i ∧ i < w.comments.length := by
  rw [added, List.getElem?_mapIdx, Option.map_eq_some_iff] at h
  obtain ⟨c, hc, rfl⟩ := h
  exact ⟨rfl, rfl, (List.getElem?_eq_some_iff.mp hc).1⟩

theorem addsComments (h : PlainBlanks w.source) :
    AddsComments w.source w.target w.site ((place ⟨0, 0⟩ w.front).filter (·.kind != .blank)) w.braceToken w.added
      ((place w.origin (lex true w.rest)).filter (·.kind != .blank))
      (((place w.origin (lex true w.rest)).filter (·.kind != .blank)).map (·.shift w.origin w.growth)) where
  source_eq := w.significant_source h
  target_eq := w.significant_target
  brace := rfl
  brace_stop := rfl
  kept := by rw [List.map_map]; rfl
  comments := fun n hn => (w.mem_added.mp hn).2
  ownRow := by
    intro X n Y hsplit
    have horigin := w.origin_row
    obtain ⟨hstart, hstop, hlt⟩ := w.row_of_added (i := X.length) (u := n) (by simp [hsplit])
    refine ⟨?_, by omega, ?_⟩
    · intro u hu
      rw [List.mem_append, List.mem_cons] at hu
      rcases hu with hu | rfl | hu
      · have := Position.row_le_of_not_before (w.front_before_site (List.mem_filter.mp hu).1)
        omega
      · show w.site.row < n.start.row
        omega
      · obtain ⟨i, hi⟩ := List.mem_iff_getElem?.mp hu
        have hlen := (List.getElem?_eq_some_iff.mp hi).1
        obtain ⟨-, hrow, -⟩ := w.row_of_added (i := i) (u := u) (by rw [hsplit, List.getElem?_append_left hlen, hi])
        omega
    · intro u hu
      rw [List.mem_append] at hu
      rcases hu with hu | hu
      · obtain ⟨i, hi⟩ := List.mem_iff_getElem?.mp hu
        obtain ⟨hrow, -, -⟩ := w.row_of_added (i := X.length + 1 + i) (u := u) (by
          rw [hsplit, List.getElem?_append_right (by omega)]
          have e : X.length + 1 + i - X.length = i + 1 := by omega
          rw [e, List.getElem?_cons_succ, hi])
        omega
      · obtain ⟨v, hv, rfl⟩ := List.mem_map.mp hu
        have := Position.row_le_of_not_before (place_bounds (List.mem_filter.mp hv).1).1
        show n.stop.row < v.start.row + w.growth
        omega

end Widening

/-! ## One fix -/

/-- An applied fix keeps the program and the comments, and adds as many comments as were missing
    directly behind the brace that opens the body of the function under the cursor. -/
theorem fix_keepsProgram {s : Settings} {t t' : Text} {line : Option Int} {a : Analysis} {report : String}
    {edits : List Edit} (hs : s.PlainComment) (ht : HashesLead t) (hb : PlainBlanks t)
    (h : fix s sourceParser (some t) line = .ok (.applied a report edits t')) :
    programLexemes t' = programLexemes t ∧ (commentLexemes t).Sublist (commentLexemes t') ∧
      ∃ target p A b N B B', locate sourceParser (some t) line = .ok target ∧ target.function.bodyStart = some p ∧
        AddsComments t t' p A b N B B' ∧ (N.length : Int) = a.needed := by
  obtain ⟨w, f, p, q, hmends, rfl, rfl, rfl⟩ := exists_mends hs ht h
  obtain ⟨gs, hopens⟩ := hmends.opens
  refine ⟨w.programLexemes_target hb, w.commentLexemes_target, w.before f, w.site, _, _, _, _, _, hmends.locate_before,
    Widening.bodyStart_before hopens, w.addsComments hb, ?_⟩
  rw [hmends.needed_eq, Widening.added, List.length_mapIdx]

/-! ## Sessions -/

/-- The steps of a session are fixes of C source with placeholder comments that are line comments. -/
def PlainSteps (steps : List (Except Fault Request)) : Prop :=
  ∀ r, .ok r ∈ steps → r.parser = sourceParser ∧ r.settings.PlainComment

theorem Request.keepsProgram {r : Request} {t : Text} (hparser : r.parser = sourceParser)
    (hs : r.settings.PlainComment) (ht : HashesLead t) (hb : PlainBlanks t) :
    programLexemes (r.next t) = programLexemes t ∧ (commentLexemes t).Sublist (commentLexemes (r.next t)) := by
  by_cases happlied : ∃ a report edits t', r.run t = .ok (.applied a report edits t')
  · obtain ⟨a, report, edits, t', h⟩ := happlied
    rw [next_of_applied h]
    rw [run, hparser] at h
    obtain ⟨hprogram, hcomments, -⟩ := fix_keepsProgram hs ht hb h
    exact ⟨hprogram, hcomments⟩
  · rw [next_of_unchanged fun a report edits t' h => happlied ⟨a, report, edits, t', h⟩]
    exact ⟨rfl, List.Sublist.refl _⟩

theorem sessionText_keepsProgram {t : Text} {steps : List (Except Fault Request)} (hsteps : PlainSteps steps)
    (ht : HashesLead t) (hb : PlainBlanks t) :
    programLexemes (sessionText t steps) = programLexemes t ∧
      (commentLexemes t).Sublist (commentLexemes (sessionText t steps)) := by
  -- the next step finds what it needs of the document, for the program is kept
  induction steps generalizing t with
  | nil => exact ⟨rfl, List.Sublist.refl _⟩
  | cons a steps ih =>
    have hrest : PlainSteps steps := fun r hr => hsteps r (List.mem_cons_of_mem _ hr)
    cases a with
    | error e => exact ih hrest ht hb
    | ok r =>
      obtain ⟨hparser, hs⟩ := hsteps r List.mem_cons_self
      obtain ⟨hprogram, hcomments⟩ := Request.keepsProgram hparser hs ht hb
      obtain ⟨hprogram', hcomments'⟩ := ih hrest ((hashesLead_congr hprogram).mpr ht) ((plainBlanks_congr hprogram).mpr hb)
      exact ⟨hprogram'.trans hprogram, hcomments.trans hcomments'⟩

/-- Whatever lines and settings its steps have, a session keeps the program and the comments of a
    document, and each applied step adds as many comments as were missing, directly behind the brace
    that opens the body of the function under its cursor, each on a row of its own. -/
theorem session_keepsProgram {t : Text} {steps : List (Except Fault Request)} (hsteps : PlainSteps steps)
    (ht : HashesLead t) (hb : PlainBlanks t) (k : Nat) :
    programLexemes (sessionText t (steps.take k)) = programLexemes t ∧
      (commentLexemes t).Sublist (commentLexemes (sessionText t (steps.take k))) ∧
      ∀ a report edits t', (session t steps)[k]? = some (.ok (.applied a report edits t')) →
        sessionText t (steps.take (k + 1)) = t' ∧
        ∃ r target p A b N B B', steps[k]? = some (.ok r) ∧
          locate r.parser (some (sessionText t (steps.take k))) r.line = .ok target ∧
          target.function.bodyStart = some p ∧
          AddsComments (sessionText t (steps.take k)) t' p A b N B B' ∧ (N.length : Int) = a.needed := by
  have hfront : PlainSteps (steps.take k) := fun r hr => hsteps r (List.mem_of_mem_take hr)
  obtain ⟨hprogram, hcomments⟩ := sessionText_keepsProgram hfront ht hb
  refine ⟨hprogram, hcomments, ?_⟩
  intro a report edits t' h
  obtain ⟨r, hr, hrun, hnext⟩ := getElem?_session_eq_ok h
  obtain ⟨hparser, hs⟩ := hsteps r (List.mem_of_getElem? hr)
  have hfix := hrun
  rw [Request.run, hparser] at hfix
  obtain ⟨-, -, target, p, A, b, N, B, B', hlocate, hbody, hadds, hlength⟩ :=
    fix_keepsProgram hs ((hashesLead_congr hprogram).mpr ht) ((plainBlanks_congr hprogram).mpr hb) hfix
  refine ⟨by rw [hnext, Request.next_of_applied hrun], r, target, p, A, b, N, B, B', hr, ?_, hbody, hadds, hlength⟩
  rw [hparser, hlocate]

/-- A fix at the first row of a function, then one at a row of its body. -/
def twoSteps : List (Except Fault Request) :=
  [.ok ⟨halfSettings, sourceParser, some 0⟩, .ok ⟨halfSettings, sourceParser, some 2⟩]

theorem plainSteps_twoSteps : PlainSteps twoSteps := by
  intro r hr
  simp only [twoSteps, List.mem_cons, Except.ok.injEq, List.not_mem_nil, or_false] at hr
  rcases hr with rfl | rfl <;> exact ⟨rfl, plainComment_halfSettings⟩

theorem session_keepsProgram_oneRow :
    programLexemes (sessionText oneRow (twoSteps.take 2)) = programLexemes oneRow ∧
      ∃ p A b N B B', AddsComments oneRow oneRowFixed p A b N B B' := by
  have hkeeps := session_keepsProgram plainSteps_twoSteps hashesLead_oneRow (by decide +kernel)
  obtain ⟨a, report, edits, h⟩ := fix_oneRow
  have hfirst : (session oneRow twoSteps)[0]? = some (.ok (.applied a report edits oneRowFixed)) := by
    rw [twoSteps, session_cons, ← h]
    rfl
  obtain ⟨-, r, target, p, A, b, N, B, B', -, -, -, hadds, -⟩ := (hkeeps 0).2.2 a report edits oneRowFixed hfirst
  exact ⟨(hkeeps 2).1, p, A, b, N, B, B', hadds⟩

end CommentQuota

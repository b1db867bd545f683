/-
  CommentQuota.Proofs.Convergence — the same fix again and again.

  The first fix leaves nothing behind the brace on its row, so that the second adds exactly the rows
  of its comments, and with these the minimum is met. From then on nothing changes.

  - `fix_again`: what the second fix and the third find after an applied one.
  - `session_settles`: at most two steps of a session are applied, all on one function, and from the
    third step on nothing is missing.
-/

import CommentQuota.Proofs.RowAccounting
import CommentQuota.Proofs.Sessions

namespace CommentQuota

/-- Two reports are on the same function: its name and its first row agree. -/
def Analysis.SameFunction (a a' : Analysis) : Prop := a'.name = a.name ∧ a'.startRow = a.startRow

theorem Analysis.SameFunction.trans {a b c : Analysis} (h : a.SameFunction b) (h' : b.SameFunction c) :
    a.SameFunction c := ⟨h'.1.trans h.1, h'.2.trans h.2⟩

section again

variable {s : Settings} {t t' : Text} {line : Option Int} {a : Analysis} {report : String} {edits : List Edit}

namespace Widening.Mends

variable {w v : Widening} {f g : FunctionSpan} {p q m n : Nat}

theorem sameFunction (h : w.Mends s line f p q) :
    ((w.before f).measured s p q).SameFunction ((w.after f).measured s p q) :=
  ⟨w.name_after f s p q, h.startRow_after⟩

/-- A second fix finds nothing behind the brace on its row. -/
theorem gap_ne_nil_again (h : w.Mends s line f p q) (h' : v.Mends s line g m n) (hv : v.source = w.target) :
    v.gap ≠ [] := by
  obtain ⟨gs, hopens⟩ := h.opens
  obtain ⟨gs', hopens'⟩ := h'.opens
  -- both find the same function under the cursor
  have hlocate := h'.locate_before
  rw [hv, h.locate_after, Except.ok.injEq] at hlocate
  have hsite : w.site = v.site := by
    have hbody := bodyStart_before hopens'
    rw [← hlocate, bodyStart_after hopens, Option.some.injEq] at hbody
    exact hbody
  have hfollowed := v.followedByText_source
  rw [hv, ← hsite, w.followedByText_target, Except.ok.injEq] at hfollowed
  exact of_decide_eq_false hfollowed.symm

end Widening.Mends

/-- After an applied fix, a second one on the same function finds nothing missing or is applied, and
    then a third one finds nothing missing. -/
theorem fix_again (hs : s.PlainComment) (ht : HashesLead t)
    (h : fix s sourceParser (some t) line = .ok (.applied a report edits t')) :
    ∃ a', a.SameFunction a' ∧
      ((∃ report', fix s sourceParser (some t') line = .ok (.notNeeded a' report')) ∨
        ∃ report' edits' t'', fix s sourceParser (some t') line = .ok (.applied a' report' edits' t'') ∧
          ∃ a'' report'', a'.SameFunction a'' ∧
            fix s sourceParser (some t'') line = .ok (.notNeeded a'' report'')) := by
  obtain ⟨w, f, p, q, hw, rfl, rfl, rfl⟩ := exists_mends hs ht h
  refine ⟨_, hw.sameFunction, ?_⟩
  rcases fix_located hw.locate_after hw.analyze_after with ⟨-, report', hfix⟩ | ⟨-, report', edits', t'', hfix⟩
  · exact .inl ⟨report', hfix⟩
  · refine .inr ⟨report', edits', t'', hfix, ?_⟩
    obtain ⟨v, g, m, n, hv, hsource, rfl, ha⟩ := exists_mends hs (w.hashesLead_target ht) hfix
    rw [ha]
    have hneeded := hv.needed_after_eq_zero_iff.mpr (.inl (hw.gap_ne_nil_again hv hsource))
    rcases fix_located hv.locate_after hv.analyze_after with ⟨-, report'', hfix''⟩ | ⟨hpos, -⟩
    · exact ⟨_, report'', hv.sameFunction, hfix''⟩
    · omega

end again

/-! ## Sessions -/

/-- The step was applied. -/
def stepApplied : Except Fault Outcome → Bool
  | .ok (.applied _ _ _ _) => true
  | _ => false

theorem stepApplied_iff {r : Except Fault Outcome} :
    stepApplied r = true ↔ ∃ a report edits t', r = .ok (.applied a report edits t') := by
  constructor
  · intro h
    unfold stepApplied at h
    split at h
    · exact ⟨_, _, _, _, rfl⟩
    · cases h
  · rintro ⟨a, report, edits, t', rfl⟩
    rfl

/-- The request for a fix of C source. -/
def Request.ofSource (s : Settings) (line : Option Int) : Request := ⟨s, sourceParser, line⟩

/-- The same fix as often as wanted. -/
def again (s : Settings) (line : Option Int) (k : Nat) : List (Except Fault Request) :=
  List.replicate k (.ok (Request.ofSource s line))

section session

variable {s : Settings} {t : Text} {line : Option Int}

/-- From where nothing is missing, nothing changes. -/
theorem iterate_of_notNeeded {r : Request} {k : Nat} {a : Analysis} {report : String}
    (h : r.run (r.next^[k] t) = .ok (.notNeeded a report)) {j : Nat} (hj : k ≤ j) : r.next^[j] t = r.next^[k] t := by
  have hfixed : r.next (r.next^[k] t) = r.next^[k] t := by
    apply Request.next_of_unchanged
    intro a' report' edits' t' h'
    rw [h] at h'
    cases h'
  obtain ⟨d, rfl⟩ := Nat.exists_eq_add_of_le' hj
  rw [Function.iterate_add_apply, Function.iterate_fixed hfixed]

/-- An applied first step leads to a second step on the same function, and then nothing is missing. -/
theorem iterate_settles {r : Request} {a : Analysis} {report : String} {edits : List Edit} {t' : Text}
    (hparser : r.parser = sourceParser) (hs : r.settings.PlainComment) (ht : HashesLead t)
    (h : r.run t = .ok (.applied a report edits t')) :
    ∃ o₁ a₁ a₂ report₂, r.run (r.next^[1] t) = .ok o₁ ∧ o₁.analysis? = some a₁ ∧ a.SameFunction a₁ ∧
      a₁.SameFunction a₂ ∧ ∀ j, 2 ≤ j → r.next^[j] t = r.next^[2] t ∧
        r.run (r.next^[j] t) = .ok (.notNeeded a₂ report₂) := by
  have hfirst : r.next^[1] t = t' := Request.next_of_applied h
  have hrun : ∀ text, r.run text = fix r.settings sourceParser (some text) r.line := by
    intro text; rw [Request.run, hparser]
  have hlate : ∀ {a₂ report₂}, r.run (r.next^[2] t) = .ok (.notNeeded a₂ report₂) → ∀ j, 2 ≤ j →
      r.next^[j] t = r.next^[2] t ∧ r.run (r.next^[j] t) = .ok (.notNeeded a₂ report₂) := by
    intro a₂ report₂ h2 j hj
    have hsame := iterate_of_notNeeded h2 hj
    exact ⟨hsame, by rw [hsame, h2]⟩
  rw [hrun] at h
  obtain ⟨a₁, hsame, ⟨report₁, hfix⟩ | ⟨report₁, edits₁, t'', hfix, a₂, report₂, hsame', hfix'⟩⟩ := fix_again hs ht h
  · rw [← hrun, ← hfirst] at hfix
    refine ⟨_, a₁, a₁, report₁, hfix, rfl, hsame, ⟨rfl, rfl⟩, hlate ?_⟩
    rw [iterate_of_notNeeded hfix (by omega : 1 ≤ 2), hfix]
  · rw [← hrun] at hfix hfix'
    have hsecond : r.next^[2] t = t'' := by
      rw [Function.iterate_succ_apply', hfirst]
      exact Request.next_of_applied hfix
    exact ⟨_, a₁, a₂, report₂, by rw [hfirst, hfix], rfl, hsame, hsame', hlate (by rw [hsecond, hfix'])⟩

/-- Without an applied first step, every step has the outcome of the first. -/
theorem iterate_of_unapplied {r : Request} (h : ¬ stepApplied (r.run t) = true) (i : Nat) :
    r.run (r.next^[i] t) = r.run t := by
  have hnext : r.next t = t := by
    apply Request.next_of_unchanged
    intro a report edits t' happlied
    exact h (stepApplied_iff.mpr ⟨a, report, edits, t', happlied⟩)
  rw [Function.iterate_fixed hnext]

theorem getElem?_session_again {k i : Nat} (h : i < k) :
    (session t (again s line k))[i]? =
      some ((Request.ofSource s line).run ((Request.ofSource s line).next^[i] t)) := by
  rw [again, session_replicate, List.getElem?_map, List.getElem?_range h]
  rfl

theorem length_session_again (k : Nat) : (session t (again s line k)).length = k := by
  rw [again, session_replicate, List.length_map, List.length_range]

/-- Steps that are applied come before a step from which on none is. -/
theorem countP_session_again {n : Nat} (k : Nat)
    (h : ∀ i, n ≤ i → stepApplied ((Request.ofSource s line).run ((Request.ofSource s line).next^[i] t)) = false) :
    (session t (again s line k)).countP stepApplied ≤ n := by
  by_cases hk : k ≤ n
  · refine Nat.le_trans List.countP_le_length ?_
    rwa [length_session_again]
  · obtain ⟨d, rfl⟩ := Nat.exists_eq_add_of_le (Nat.le_of_not_le hk)
    have hlate : (session (sessionText t (again s line n)) (again s line d)).countP stepApplied = 0 := by
      rw [again, again, session_replicate, sessionText_replicate, List.countP_eq_zero]
      intro o ho
      obtain ⟨i, -, rfl⟩ := List.mem_map.mp ho
      rw [← Function.iterate_add_apply, h (i + n) (by omega)]
      simp
    have hearly : (session t (again s line n)).countP stepApplied ≤ n := by
      refine Nat.le_trans List.countP_le_length ?_
      rw [length_session_again]
    have hsplit : again s line (n + d) = again s line n ++ again s line d := List.replicate_add ..
    rw [hsplit, session_append, List.countP_append]
    omega

/-- The same fix again and again: at most two steps are applied. If one is, every later step is on the
    same function, and from the third step on nothing is missing and the document stays. -/
theorem session_settles (hs : s.PlainComment) (ht : HashesLead t) (k : Nat) :
    (session t (again s line k)).countP stepApplied ≤ 2 ∧
      ∀ i a report edits t', (session t (again s line k))[i]? = some (.ok (.applied a report edits t')) →
        ∀ j, i < j → j < k → ∃ o a', (session t (again s line k))[j]? = some (.ok o) ∧ o.analysis? = some a' ∧
          a'.name = a.name ∧ a'.startRow = a.startRow ∧
          (2 ≤ j → (∃ report', o = .notNeeded a' report') ∧
            sessionText t (again s line (j + 1)) = sessionText t (again s line j)) := by
  let r := Request.ofSource s line
  by_cases hfirst : stepApplied (r.run t) = true
  · obtain ⟨a₀, report₀, edits₀, t₁, hrun₀⟩ := stepApplied_iff.mp hfirst
    obtain ⟨o₁, a₁, a₂, report₂, hrun₁, ho₁, hsame₁, hsame₂, hlate⟩ := iterate_settles rfl hs ht hrun₀
    refine ⟨countP_session_again k fun i hi => by rw [(hlate i hi).2]; rfl, ?_⟩
    intro i a report edits t' hi j hij hjk
    rw [getElem?_session_again (by omega), Option.some.injEq] at hi
    -- the applied step is the first or the second, and its report leads to the last one
    have hsame : a.SameFunction a₂ ∧ (j = 1 → a.SameFunction a₁) := by
      obtain rfl | rfl | h2 : i = 0 ∨ i = 1 ∨ 2 ≤ i := by omega
      · have e := hrun₀.symm.trans hi
        simp only [Except.ok.injEq, Outcome.applied.injEq] at e
        rw [← e.1]
        exact ⟨hsame₁.trans hsame₂, fun _ => hsame₁⟩
      · rw [hrun₁, Except.ok.injEq] at hi
        rw [hi] at ho₁
        rw [Option.some.inj ho₁]
        exact ⟨hsame₂, fun _ => by omega⟩
      · rw [(hlate i h2).2] at hi
        cases hi
    rw [getElem?_session_again hjk]
    obtain rfl | h2 : j = 1 ∨ 2 ≤ j := by omega
    · exact ⟨o₁, a₁, by rw [hrun₁], ho₁, (hsame.2 rfl).1, (hsame.2 rfl).2, by omega⟩
    · refine ⟨_, a₂, by rw [(hlate j h2).2], rfl, hsame.1.1, hsame.1.2, fun _ => ⟨⟨report₂, rfl⟩, ?_⟩⟩
      rw [again, again, sessionText_replicate, sessionText_replicate]
      exact (hlate (j + 1) (by omega)).1.trans (hlate j h2).1.symm
  · have hnone : ∀ i, stepApplied (r.run (r.next^[i] t)) = false := by
      intro i
      rw [iterate_of_unapplied hfirst]
      exact Bool.eq_false_iff.mpr hfirst
    refine ⟨countP_session_again k fun i _ => hnone i, ?_⟩
    intro i a report edits t' hi j hij hjk
    rw [getElem?_session_again (by omega), Option.some.injEq] at hi
    have happlied := stepApplied_iff.mpr ⟨a, report, edits, t', hi⟩
    rw [hnone i] at happlied
    cases happlied

theorem session_settles_oneRow : ∃ a report,
    (session oneRow (again halfSettings (some 0) 4))[3]? = some (.ok (.notNeeded a report)) := by
  obtain ⟨a, report, edits, h⟩ := fix_oneRow
  have hfirst : (session oneRow (again halfSettings (some 0) 4))[0]? = some (.ok (.applied a report edits oneRowFixed)) := by
    rw [getElem?_session_again (by omega), ← h]
    rfl
  obtain ⟨o, a', hlast, -, -, -, hsettled⟩ :=
    (session_settles plainComment_halfSettings hashesLead_oneRow 4).2 0 a report edits oneRowFixed hfirst 3
      (by omega) (by omega)
  obtain ⟨report', rfl⟩ := (hsettled (by omega)).1
  exact ⟨a', report', hlast⟩

end session

end CommentQuota

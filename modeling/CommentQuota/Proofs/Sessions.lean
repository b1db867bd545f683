/-
  CommentQuota.Proofs.Sessions — the documents that a session goes through.

  - `session_append`: a session goes on from the document that its first steps leave.
  - `getElem?_session_eq_ok`: the request and the document behind an outcome of a session.
  - `session_replicate`: a session of one request goes through its iterates.
  - `next_of_applied` / `next_of_unchanged`: an applied fix leaves its document, and any other
    outcome leaves the one there was.
-/

import CommentQuota.Proofs.Mending
import Mathlib.Logic.Function.Iterate

namespace CommentQuota

namespace Request

/-- The fix that a request asks for. -/
def run (r : Request) (text : Text) : Except Fault Outcome := fix r.settings r.parser (some text) r.line

/-- The document after a request. -/
def next (r : Request) (text : Text) : Text :=
  match r.run text with
  | .ok o => o.textAfter text
  | .error _ => text

end Request

/-- The document after a session. -/
def sessionText (text : Text) : List (Except Fault Request) → Text
  | [] => text
  | .error _ :: steps => sessionText text steps
  | .ok r :: steps => sessionText (r.next text) steps

theorem session_cons (text : Text) (r : Request) (steps : List (Except Fault Request)) :
    session text (.ok r :: steps) = r.run text :: session (r.next text) steps := by
  rw [session, Request.next, Request.run]
  cases fix r.settings r.parser (some text) r.line <;> rfl

theorem session_append (text : Text) (as bs : List (Except Fault Request)) :
    session text (as ++ bs) = session text as ++ session (sessionText text as) bs := by
  induction as generalizing text with
  | nil => rfl
  | cons a as ih =>
    cases a with
    | error e => rw [List.cons_append, session, ih, session, sessionText, List.cons_append]
    | ok r => rw [List.cons_append, session_cons, ih, session_cons, sessionText, List.cons_append]

/-- An outcome of a session is that of a request, on the document that the steps before it leave. -/
theorem getElem?_session_eq_ok {text : Text} {steps : List (Except Fault Request)} {k : Nat} {o : Outcome}
    (h : (session text steps)[k]? = some (.ok o)) :
    ∃ r, steps[k]? = some (.ok r) ∧ r.run (sessionText text (steps.take k)) = .ok o ∧
      sessionText text (steps.take (k + 1)) = r.next (sessionText text (steps.take k)) := by
  induction steps generalizing text k with
  | nil => simp [session] at h
  | cons a steps ih =>
    cases a with
    | error e =>
      cases k with
      | zero => simp [session] at h
      | succ k => exact ih (by simpa [session] using h)
    | ok r =>
      rw [session_cons] at h
      cases k with
      | zero => exact ⟨r, rfl, by simpa [sessionText] using h, by simp [sessionText]⟩
      | succ k => exact ih (by simpa using h)

/-! ## One request again and again -/

theorem sessionText_replicate (text : Text) (r : Request) (k : Nat) :
    sessionText text (List.replicate k (.ok r)) = r.next^[k] text := by
  induction k generalizing text with
  | zero => rfl
  | succ k ih => rw [List.replicate_succ, sessionText, ih, Function.iterate_succ_apply]

theorem session_replicate (text : Text) (r : Request) (k : Nat) :
    session text (List.replicate k (.ok r)) = (List.range k).map fun i => r.run (r.next^[i] text) := by
  induction k with
  | zero => rfl
  | succ k ih =>
    rw [List.replicate_succ', session_append, ih, sessionText_replicate, List.range_succ, List.map_append, session_cons]
    rfl

/-! ## One step -/

theorem edits_ne_nil_of_applied {s : Settings} {parser : Parser} {source : Option Text} {line : Option Int}
    {a : Analysis} {report : String} {edits : List Edit} {text : Text}
    (h : fix s parser source line = .ok (.applied a report edits text)) : edits ≠ [] := by
  obtain ⟨target, -, -, hneeded, hmend⟩ := fix_eq_applied h
  simp only [Target.mend, bind, Except.bind, pure, Except.pure] at hmend
  split at hmend
  · cases hmend
  rename_i es hplan
  split at hmend
  · cases hmend
  rw [Except.ok.injEq, Prod.mk.injEq] at hmend
  obtain ⟨rfl, -⟩ := hmend
  unfold Target.plan at hplan
  split at hplan
  · cases hplan
  split at hplan
  · cases hplan
  · rw [← Except.ok.inj hplan]
    exact placeholders_ne_nil s _ hneeded _ _

theorem Request.next_of_applied {r : Request} {text text' : Text} {a : Analysis} {report : String} {edits : List Edit}
    (h : r.run text = .ok (.applied a report edits text')) : r.next text = text' := by
  have hedits := edits_ne_nil_of_applied h
  simp only [next, h, Outcome.textAfter, Outcome.changed, Outcome.edits, Outcome.newText?]
  simp [hedits]

theorem Request.next_of_unchanged {r : Request} {text : Text}
    (h : ∀ a report edits text', r.run text ≠ .ok (.applied a report edits text')) : r.next text = text := by
  unfold next
  split
  · rename_i o ho
    cases o with
    | applied a report edits text' => exact absurd ho (h a report edits text')
    | _ => rfl
  · rfl

end CommentQuota

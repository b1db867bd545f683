/-
  CommentQuota.Proofs.PatchReading — what a reader of patches makes of a printed difference.

  A reader cuts a patch behind its line feeds. Every line says by its first character what becomes of the rest of it, and the
  head of a hunk says how many lines the hunk has in either document. The printed lines of a difference have the line breaks
  of the documents and no others, so a line that ends in something else than a line feed runs together with the one behind it:
  the reader finds fewer lines than the head says, and refuses the patch.

  - `readHeader_header`: the head of a hunk is read as it was meant.
  - `feedLines_flatten`: lines as a reader finds them in a text.
  - `fuse_print`: of lines that run together the reader finds fewer.
  - `readPatch_printed`: a printed difference is read as its hunks if none of their lines run together, and else refused.
-/

import CommentQuota.Proofs.Hunks
import CommentQuota.Proofs.WrittenNumber

namespace CommentQuota.Patch

/-! ## Reading -/

/-- A text in front of the first of some lines. -/
def glue (t : Text) : List Text → List Text
  | [] => [t]
  | l :: ls => (t ++ l) :: ls

/-- A text cut behind its line feeds; what stands behind the last one is a line too. -/
def feedLines : Text → List Text
  | [] => []
  | c :: cs => if c = '\n' then [c] :: feedLines cs else glue [c] (feedLines cs)

def readEntry : Text → Option Entry
  | ' ' :: l => some ⟨.kept, l⟩
  | '-' :: l => some ⟨.removed, l⟩
  | '+' :: l => some ⟨.added, l⟩
  | _ => none

/-- Digits, and what stands behind them. -/
def readNat (t : Text) : Option (Nat × Text) :=
  if t.takeWhile Char.isDigit = [] then none
  else some (Numeral.ofDigits (t.takeWhile Char.isDigit), t.dropWhile Char.isDigit)

/-- The number of lines of a range, if it is not the one that is left out. -/
def readSize : Text → Option (Nat × Text)
  | ',' :: t => readNat t
  | t => some (1, t)

/-- The index of the first line of a range and its size. An empty range names the line in front of it. -/
def readRange (t : Text) : Option (Nat × Nat × Text) := do
  let (first, t) ← readNat t
  let (size, t) ← readSize t
  if size = 0 then some (first, 0, t)
  else if first = 0 then none
  else some (first - 1, size, t)

/-- What the head of a hunk says. -/
structure Header where
  oldStart : Nat
  oldSize : Nat
  newStart : Nat
  newSize : Nat

def readHeader : Text → Option Header
  | '@' :: '@' :: ' ' :: '-' :: t => do
    let (oldStart, oldSize, t) ← readRange t
    match t with
    | ' ' :: '+' :: t =>
      let (newStart, newSize, t) ← readRange t
      if t = [' ', '@', '@', '\n'] then some ⟨oldStart, oldSize, newStart, newSize⟩ else none
    | _ => none
  | _ => none

/-- One line more in front of entries and the hunks behind them. The head of a hunk takes the entries, which must be as many as
    it says. -/
def readLine (l : Text) (entries : List Entry) (hs : List MarkedHunk) : Option (List Entry × List MarkedHunk) :=
  match readHeader l with
  | some h =>
    if (oldSide entries).length = h.oldSize ∧ (newSide entries).length = h.newSize then
      some ([], ⟨h.oldStart, h.newStart, entries⟩ :: hs)
    else none
  | none => (readEntry l).map fun e => (e :: entries, hs)

/-- Entries that no head stands in front of, and the hunks behind them. -/
def readBody : List Text → Option (List Entry × List MarkedHunk)
  | [] => some ([], [])
  | l :: ls => (readBody ls).bind fun (entries, hs) => readLine l entries hs

/-- The hunks of a patch: two lines that name the documents, and heads with their entries. -/
def readPatch (t : Text) : Option (List MarkedHunk) :=
  match feedLines t with
  | old :: new :: body =>
    if "--- ".toList <+: old ∧ "+++ ".toList <+: new then
      (readBody body).bind fun (entries, hs) => if entries = [] then some hs else none
    else none
  | _ => none

/-- The document that a patch makes of another, if it is a patch and fits. -/
def patched (diff before : Text) : Option Text :=
  (readPatch diff).bind fun hs => (applyFrom 0 0 (feedLines before) hs).map List.flatten

/-! ## Lines that run together -/

/-- A line feed stands at the end of a line or nowhere in it. -/
inductive IsLine : Text → Prop where
  | closed {front : Text} (hfront : '\n' ∉ front) : IsLine (front ++ ['\n'])
  | opened {l : Text} (hne : l ≠ []) (hl : '\n' ∉ l) : IsLine l

/-- A line that ends in a line feed. -/
def Closed (l : Text) : Prop := l.getLast? = some '\n'

instance (l : Text) : Decidable (Closed l) := inferInstanceAs (Decidable (l.getLast? = some '\n'))

/-- Every line but the last one ends in a line feed. -/
def Separated (ls : List Text) : Prop := ∀ l ∈ ls.dropLast, Closed l

instance (ls : List Text) : Decidable (Separated ls) := inferInstanceAs (Decidable (∀ l ∈ ls.dropLast, Closed l))

/-- Lines as a reader finds them: one that ends in no line feed goes on in the next. -/
def fuse : List Text → List Text
  | [] => []
  | l :: ls => if Closed l then l :: fuse ls else glue l (fuse ls)

theorem closed_append_feed (t : Text) : Closed (t ++ ['\n']) := List.getLast?_concat

theorem not_closed {l : Text} (hl : '\n' ∉ l) : ¬ Closed l := fun h => hl (List.mem_of_getLast? h)

theorem IsLine.ne_nil {l : Text} (h : IsLine l) : l ≠ [] := by
  cases h with
  | closed => simp
  | opened hne => exact hne

theorem IsLine.cons {c : Char} {l : Text} (hc : c ≠ '\n') (h : IsLine l) : IsLine (c :: l) := by
  cases h with
  | closed hfront => exact @closed (c :: _) (by simp [hc.symm, hfront])
  | opened hne hl => exact .opened (by simp) (by simp [hc.symm, hl])

theorem separated_nil : Separated [] := by simp [Separated]

theorem separated_cons (l : Text) (ls : List Text) : Separated (l :: ls) ↔ (ls = [] ∨ Closed l) ∧ Separated ls := by
  cases ls <;> simp [Separated]

theorem Separated.sublist {ls ms : List Text} (hsub : ls.Sublist ms) (h : Separated ms) : Separated ls := by
  induction hsub with
  | slnil => exact separated_nil
  | cons m hsub ih => exact ih ((separated_cons _ _).mp h).2
  | cons_cons m hsub ih =>
    obtain ⟨hm, hms⟩ := (separated_cons _ _).mp h
    refine (separated_cons _ _).mpr ⟨?_, ih hms⟩
    rcases hm with rfl | hclosed
    · exact .inl (List.sublist_nil.mp hsub)
    · exact .inr hclosed

theorem glue_append (s t : Text) (ls : List Text) : glue (s ++ t) ls = glue s (glue t ls) := by
  cases ls <;> simp [glue]

theorem feedLines_closed {front : Text} (hfront : '\n' ∉ front) (t : Text) :
    feedLines (front ++ '\n' :: t) = (front ++ ['\n']) :: feedLines t := by
  induction front with
  | nil => simp [feedLines]
  | cons c front ih =>
    rw [List.mem_cons, not_or] at hfront
    rw [List.cons_append, feedLines, if_neg (Ne.symm hfront.1), ih hfront.2]
    rfl

theorem feedLines_opened {l : Text} (hne : l ≠ []) (hl : '\n' ∉ l) (t : Text) :
    feedLines (l ++ t) = glue l (feedLines t) := by
  induction l with
  | nil => exact absurd rfl hne
  | cons c l ih =>
    rw [List.mem_cons, not_or] at hl
    rw [List.cons_append, feedLines, if_neg (Ne.symm hl.1)]
    cases l with
    | nil => rfl
    | cons d l => rw [ih (by simp) hl.2, ← glue_append, List.singleton_append]

/-- The lines of a text are those that it was put together from, as far as they do not run together. -/
theorem feedLines_flatten {ls : List Text} (h : ∀ l ∈ ls, IsLine l) : feedLines ls.flatten = fuse ls := by
  induction ls with
  | nil => rfl
  | cons l ls ih =>
    rw [List.forall_mem_cons] at h
    rw [List.flatten_cons, fuse, ← ih h.2]
    cases h.1 with
    | closed hfront => rw [if_pos (closed_append_feed _), List.append_assoc, List.singleton_append, feedLines_closed hfront]
    | opened hne hl => rw [if_neg (not_closed hl), feedLines_opened hne hl]

theorem fuse_eq_self {ls : List Text} (h : Separated ls) : fuse ls = ls := by
  induction ls with
  | nil => rfl
  | cons l ls ih =>
    obtain ⟨hl, hls⟩ := (separated_cons l ls).mp h
    rw [fuse, ih hls]
    by_cases hclosed : Closed l
    · rw [if_pos hclosed]
    · rw [if_neg hclosed, hl.resolve_right hclosed]
      rfl

theorem glue_ne_nil (t : Text) (ls : List Text) : glue t ls ≠ [] := by
  cases ls <;> simp [glue]

theorem fuse_eq_nil {ls : List Text} (h : fuse ls = []) : ls = [] := by
  cases ls with
  | nil => rfl
  | cons l ls =>
    rw [fuse] at h
    split at h
    · simp at h
    · exact absurd h (glue_ne_nil _ _)

theorem fuse_append {ls : List Text} (h : ∀ l ∈ ls.getLast?, Closed l) (ms : List Text) :
    fuse (ls ++ ms) = fuse ls ++ fuse ms := by
  induction ls with
  | nil => rfl
  | cons l ls ih =>
    rw [List.cons_append, fuse, fuse]
    by_cases hclosed : Closed l
    · rw [if_pos hclosed, if_pos hclosed, List.cons_append]
      cases ls with
      | nil => rfl
      | cons m ls => rw [ih (by simpa using h)]
    · rw [if_neg hclosed, if_neg hclosed]
      cases ls with
      | nil => exact absurd (h l rfl) hclosed
      | cons m ls =>
        obtain ⟨f, fs, hfs⟩ := List.exists_cons_of_ne_nil (fun hnil => List.cons_ne_nil m ls (fuse_eq_nil hnil))
        rw [ih (by simpa using h), hfs]
        rfl

/-! ## Entries -/

/-- The character in front of a line. -/
def Mark.char : Mark → Char
  | kept => ' '
  | removed => '-'
  | added => '+'

/-- A line of a hunk. -/
def Entry.print (e : Entry) : Text := e.mark.char :: e.line

theorem readEntry_print (e : Entry) : readEntry e.print = some e := by
  obtain ⟨mark, line⟩ := e
  cases mark <;> rfl

theorem readHeader_print (e : Entry) : readHeader e.print = none := by
  obtain ⟨mark, line⟩ := e
  cases mark <;> rfl

theorem closed_print {e : Entry} (h : IsLine e.line) : Closed e.print ↔ Closed e.line := by
  rw [Closed, Closed, Entry.print, List.getLast?_cons_of_ne_nil h.ne_nil]

theorem isLine_print {e : Entry} (h : IsLine e.line) : IsLine e.print :=
  h.cons (by cases e.mark <;> decide)

/-- Entries that a reader finds on lines of their own. -/
def Apart (es : List Entry) : Prop := Separated (es.map (·.line))

instance (es : List Entry) : Decidable (Apart es) := inferInstanceAs (Decidable (Separated _))

theorem apart_nil : Apart [] := separated_nil

theorem apart_cons (e : Entry) (es : List Entry) : Apart (e :: es) ↔ (es = [] ∨ Closed e.line) ∧ Apart es := by
  rw [Apart, List.map_cons, separated_cons, List.map_eq_nil_iff, Apart]

/-- Entries whose lines run together are read as fewer, marked as some of them. -/
theorem fuse_print {es : List Entry} (h : ∀ e ∈ es, IsLine e.line) :
    ∃ fs : List Entry, fuse (es.map Entry.print) = fs.map Entry.print ∧
      (fs.map (·.mark)).Sublist (es.map (·.mark)) ∧ (Apart es → fs = es) ∧ (¬ Apart es → fs.length < es.length) := by
  induction es with
  | nil => exact ⟨[], rfl, .slnil, fun _ => rfl, fun hnot => absurd apart_nil hnot⟩
  | cons e es ih =>
    rw [List.forall_mem_cons] at h
    obtain ⟨fs, hfuse, hmarks, hself, hfewer⟩ := ih h.2
    have hlength : fs.length ≤ es.length := by simpa using hmarks.length_le
    simp only [List.map_cons, fuse, hfuse, closed_print h.1, apart_cons]
    by_cases hclosed : Closed e.line
    · refine ⟨e :: fs, by simp [hclosed], by simpa using hmarks, ?_, ?_⟩
      · intro hsep
        rw [hself hsep.2]
      · intro hnot
        simpa using hfewer (by simpa [hclosed] using hnot)
    · rw [if_neg hclosed]
      cases fs with
      | nil =>
        have hnone : es = [] := by simpa using fuse_eq_nil hfuse
        subst hnone
        exact ⟨[e], rfl, List.Sublist.refl _, fun _ => rfl, fun hnot => absurd ⟨.inl rfl, apart_nil⟩ hnot⟩
      | cons f fs =>
        refine ⟨⟨e.mark, e.line ++ f.print⟩ :: fs, rfl, ?_, ?_, fun _ => Nat.succ_lt_succ hlength⟩
        · exact (List.sublist_of_cons_sublist hmarks).cons_cons _
        · intro hsep
          have hnone : es = [] := by simpa [hclosed] using hsep.1
          simp [hnone] at hlength

/-! ## Heads -/

/-- The head of a hunk. -/
def Hunk.header (h : Hunk) : Text :=
  ("@@ -" ++ range h.left (leftTotal h.segments) ++ " +" ++ range h.right (rightTotal h.segments) ++ " @@\n").toList

theorem readNat_toDigits (n : Nat) {t : Text} (ht : ∀ c, t.head? = some c → c.isDigit = false) :
    readNat (Nat.toDigits 10 n ++ t) = some (n, t) := by
  obtain ⟨htake, hdrop⟩ := (Numeral.allDigits_toDigits n).span ht
  rw [readNat, htake, hdrop, if_neg Nat.toDigits_ne_nil, Numeral.ofDigits_toDigits]

theorem readSize_noComma {t : Text} (ht : ∀ c, t.head? = some c → c ≠ ',') : readSize t = some (1, t) := by
  cases t with
  | nil => rfl
  | cons c cs =>
    have hc := ht c rfl
    simp [readSize, hc]

/-- A range is read as it was meant, whatever stands behind it. -/
theorem readRange_range (start size : Nat) {t : Text} (ht : ∀ c, t.head? = some c → c.isDigit = false ∧ c ≠ ',') :
    readRange ((range start size).toList ++ t) = some (start, size, t) := by
  have hdigit := fun c hc => (ht c hc).1
  have hcomma := fun c hc => (ht c hc).2
  unfold range
  split
  case isTrue hone => simp [readRange, readNat_toDigits _ hdigit, readSize_noComma hcomma, hone]
  case isFalse hmany =>
    split
    case isTrue hzero =>
      have hsize : readNat ('0' :: t) = some (0, t) := readNat_toDigits 0 hdigit
      have hstart := readNat_toDigits start (t := ',' :: '0' :: t) (by simp)
      simp [readRange, hstart, readSize, hsize, hzero]
    case isFalse hsome =>
      have hstart := readNat_toDigits (start + 1) (t := ',' :: (Nat.toDigits 10 size ++ t)) (by simp)
      simp [readRange, hstart, readSize, readNat_toDigits size hdigit, hsome]

/-- The head of a hunk is read as it was meant. -/
theorem readHeader_header (h : Hunk) :
    readHeader h.header = some ⟨h.left, (leftLines h.segments).length, h.right, (rightLines h.segments).length⟩ := by
  have hnew := readRange_range h.right (rightTotal h.segments) (t := [' ', '@', '@', '\n']) (by simp)
  have hold := readRange_range h.left (leftTotal h.segments)
    (t := ' ' :: '+' :: ((range h.right (rightTotal h.segments)).toList ++ [' ', '@', '@', '\n'])) (by simp)
  rw [← leftTotal_eq, ← rightTotal_eq]
  simp [Hunk.header, readHeader, hold, hnew]

theorem feed_not_mem_range (start size : Nat) : '\n' ∉ (range start size).toList := by
  have hnumber : ∀ n : Nat, '\n' ∉ Nat.toDigits 10 n := by
    intro n hn
    simpa using Numeral.allDigits_toDigits n _ hn
  unfold range
  split
  · simp [hnumber]
  · split <;> simp [hnumber]

theorem header_eq (h : Hunk) : ∃ front, '\n' ∉ front ∧ h.header = front ++ ['\n'] := by
  refine ⟨("@@ -" ++ range h.left (leftTotal h.segments) ++ " +" ++ range h.right (rightTotal h.segments) ++ " @@").toList, ?_, ?_⟩
  · simp [feed_not_mem_range]
  · simp [Hunk.header]

theorem fuse_header (h : Hunk) (ls : List Text) : fuse (h.header :: ls) = h.header :: fuse ls := by
  obtain ⟨front, _, hfront⟩ := header_eq h
  rw [fuse, if_pos (hfront ▸ closed_append_feed front)]

theorem isLine_header (h : Hunk) : IsLine h.header := by
  obtain ⟨front, hfeed, hfront⟩ := header_eq h
  exact hfront ▸ .closed hfeed

/-! ## Hunks -/

theorem length_eq_counts (es : List Entry) :
    (oldSide es).length = (es.map (·.mark)).count .kept + (es.map (·.mark)).count .removed ∧
    (newSide es).length = (es.map (·.mark)).count .kept + (es.map (·.mark)).count .added ∧
    es.length = (es.map (·.mark)).count .kept + (es.map (·.mark)).count .removed + (es.map (·.mark)).count .added := by
  induction es with
  | nil => exact ⟨rfl, rfl, rfl⟩
  | cons e es ih =>
    obtain ⟨mark, line⟩ := e
    cases mark <;> simp [oldSide, newSide, linesWithout_cons] at ih ⊢ <;> omega

/-- Fewer entries do not have as many lines in both documents. -/
theorem length_ne_of_fewer {fs es : List Entry} (hmarks : (fs.map (·.mark)).Sublist (es.map (·.mark)))
    (hfewer : fs.length < es.length) :
    ¬ ((oldSide fs).length = (oldSide es).length ∧ (newSide fs).length = (newSide es).length) := by
  have hkept := hmarks.count_le .kept
  have hremoved := hmarks.count_le .removed
  have hadded := hmarks.count_le .added
  have hfs := length_eq_counts fs
  have hes := length_eq_counts es
  omega

theorem readBody_entries (fs : List Entry) (ls : List Text) :
    readBody (fs.map Entry.print ++ ls) = (readBody ls).map fun (es, hs) => (fs ++ es, hs) := by
  induction fs with
  | nil => simp
  | cons f fs ih =>
    rw [List.map_cons, List.cons_append, readBody, ih]
    cases readBody ls <;> simp [readLine, readHeader_print, readEntry_print]

/-- The printed lines of hunks. -/
def printed (hs : List Hunk) : List Text := hs.flatMap fun h => h.header :: (entriesOf h.segments).map Entry.print

/-- Every hunk that others follow ends in a line feed. -/
def EndsClosed (hs : List Hunk) : Prop := ∀ h ∈ hs.dropLast, ∀ e ∈ (entriesOf h.segments).getLast?, Closed e.line

instance (hs : List Hunk) : Decidable (EndsClosed hs) :=
  inferInstanceAs (Decidable (∀ h ∈ hs.dropLast, ∀ e ∈ (entriesOf h.segments).getLast?, Closed e.line))

theorem endsClosed_cons (h : Hunk) (hs : List Hunk) :
    EndsClosed (h :: hs) ↔ (hs = [] ∨ ∀ e ∈ (entriesOf h.segments).getLast?, Closed e.line) ∧ EndsClosed hs := by
  cases hs <;> simp [EndsClosed]

/-- The lines of one hunk do not run on into the next. -/
theorem fuse_printed_cons {h : Hunk} {hs : List Hunk} (hlines : ∀ e ∈ entriesOf h.segments, IsLine e.line)
    (hends : EndsClosed (h :: hs)) :
    fuse (printed (h :: hs)) = h.header :: (fuse ((entriesOf h.segments).map Entry.print) ++ fuse (printed hs)) := by
  have hunfold : printed (h :: hs) = h.header :: ((entriesOf h.segments).map Entry.print ++ printed hs) := rfl
  rw [hunfold, fuse_header]
  rcases ((endsClosed_cons h hs).mp hends).1 with rfl | hclosed
  · have hnone : printed [] = [] := rfl
    rw [hnone, List.append_nil, fuse, List.append_nil]
  · rw [fuse_append]
    intro l hl
    rw [List.getLast?_map, Option.mem_map] at hl
    obtain ⟨e, he, rfl⟩ := hl
    exact (closed_print (hlines e (List.mem_of_getLast? he))).mpr (hclosed e he)

theorem readLine_header (h : Hunk) (es : List Entry) (hs : List MarkedHunk) :
    readLine h.header es hs =
      if (oldSide es).length = (leftLines h.segments).length ∧ (newSide es).length = (rightLines h.segments).length then
        some ([], ⟨h.left, h.right, es⟩ :: hs)
      else none := by
  rw [readLine, readHeader_header]

/-- Printed hunks are read again if their entries stand on lines of their own, and else refused. -/
theorem readBody_printed {hs : List Hunk} (hlines : ∀ h ∈ hs, ∀ e ∈ entriesOf h.segments, IsLine e.line)
    (hends : EndsClosed hs) :
    readBody (fuse (printed hs)) = if ∀ h ∈ hs, Apart (entriesOf h.segments) then some ([], hs.map Hunk.marked) else none := by
  induction hs with
  | nil => rfl
  | cons h hs ih =>
    rw [List.forall_mem_cons] at hlines
    obtain ⟨fs, hfuse, hmarks, hself, hfewer⟩ := fuse_print hlines.1
    rw [fuse_printed_cons hlines.1 hends, hfuse, readBody, readBody_entries,
      ih hlines.2 ((endsClosed_cons h hs).mp hends).2]
    by_cases hrest : ∀ h ∈ hs, Apart (entriesOf h.segments)
    · rw [if_pos hrest]
      show readLine h.header (fs ++ []) (hs.map Hunk.marked) = _
      rw [List.append_nil, readLine_header]
      by_cases happart : Apart (entriesOf h.segments)
      · have hall : ∀ k ∈ h :: hs, Apart (entriesOf k.segments) := List.forall_mem_cons.mpr ⟨happart, hrest⟩
        rw [if_pos hall, hself happart, oldSide_entriesOf, newSide_entriesOf,
          if_pos ⟨rfl, rfl⟩]
        rfl
      · have hcounts := length_ne_of_fewer hmarks (hfewer happart)
        rw [oldSide_entriesOf, newSide_entriesOf] at hcounts
        rw [if_neg hcounts, if_neg fun hall => happart (hall h List.mem_cons_self)]
    · rw [if_neg hrest, if_neg fun hall => hrest fun k hk => hall k (List.mem_cons_of_mem h hk)]
      rfl

/-- A printed difference is read as its hunks if their entries stand on lines of their own, and else refused. -/
theorem readPatch_printed {name : Text} {hs : List Hunk} (hname : '\n' ∉ name)
    (hlines : ∀ h ∈ hs, ∀ e ∈ entriesOf h.segments, IsLine e.line) (hends : EndsClosed hs) :
    readPatch ("--- a/".toList ++ name ++ "\n+++ b/".toList ++ name ++ '\n' :: (printed hs).flatten) =
      if ∀ h ∈ hs, Apart (entriesOf h.segments) then some (hs.map Hunk.marked) else none := by
  have hprinted : ∀ l ∈ printed hs, IsLine l := by
    intro l hl
    obtain ⟨h, hh, hl⟩ := List.mem_flatMap.mp hl
    rcases List.mem_cons.mp hl with rfl | hl
    · exact isLine_header h
    · obtain ⟨e, he, rfl⟩ := List.mem_map.mp hl
      exact isLine_print (hlines h hh e he)
  have hcut : feedLines ("--- a/".toList ++ name ++ "\n+++ b/".toList ++ name ++ '\n' :: (printed hs).flatten) =
      ("--- a/".toList ++ name ++ ['\n']) :: ("+++ b/".toList ++ name ++ ['\n']) :: fuse (printed hs) := by
    have hold := @feedLines_closed ("--- a/".toList ++ name) (by simp [hname])
      ("+++ b/".toList ++ name ++ '\n' :: (printed hs).flatten)
    have hnew := @feedLines_closed ("+++ b/".toList ++ name) (by simp [hname]) (printed hs).flatten
    rw [hnew, feedLines_flatten hprinted] at hold
    simpa using hold
  have hold : "--- ".toList <+: "--- a/".toList ++ name ++ ['\n'] := ⟨"a/".toList ++ name ++ ['\n'], by simp⟩
  have hnew : "+++ ".toList <+: "+++ b/".toList ++ name ++ ['\n'] := ⟨"b/".toList ++ name ++ ['\n'], by simp⟩
  rw [readPatch, hcut]
  dsimp only
  rw [if_pos ⟨hold, hnew⟩, readBody_printed hlines hends]
  split <;> rfl

example : readPatch "--- a/x\n+++ b/x\n@@ -2 +2,2 @@\n b\n+c\n".toList =
    some [⟨1, 1, [⟨.kept, "b\n".toList⟩, ⟨.added, "c\n".toList⟩]⟩] := by decide +kernel

end CommentQuota.Patch

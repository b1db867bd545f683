/-
  CommentQuota.Proofs.Precedence — which source a setting is taken from.

  Settings are settled three times on the way to a run: from the editor settings of a file, with the
  environment over them, and with the flags over both. Each source is read as a whole before the next one
  is looked at, so a value that cannot be read stops the run also where a higher source would replace it.
  What comes out for each setting is the value of the highest source that gives one, an empty text and
  nothing at all being values that can be given.

  - `Settings.toFloat_cases`: which values are numbers, and what is said about the others.
  - `Settings.draftOfPairs_cases`: editor settings as a whole; the last entry of a setting counts, and the
    first entry for the minimum that is no number is refused.
  - `Settings.merge_eq_ok_iff`: one source over settings that were settled before.
  - `resolve_takesFirst`: when a run has settings, and which.
-/

import CommentQuota.Proofs.Stores
import CommentQuota.CommandLine.Command
import Mathlib.Data.List.Induction

namespace CommentQuota

/-- A computation in two steps gives a result if both steps do. -/
theorem bind_eq_ok_iff {α β : Type} {x : Except Fault α} {f : α → Except Fault β} {b : β} :
    (x >>= f) = .ok b ↔ ∃ a, x = .ok a ∧ f a = .ok b := by
  cases x with
  | error e => simp [bind, Except.bind]
  | ok a => simp [bind, Except.bind]

/-! ## Values -/

/-- The value is converted to the floating point number. -/
inductive Value.IsNumber : Value → Binary64 → Prop
  | bool (b : Bool) : IsNumber (.bool b) (if b then .one else .zero)
  | int {n : Int} {x : Binary64} (h : Binary64.ofInt? n = some x) : IsNumber (.int n) x
  | float (x : Binary64) : IsNumber (.float x) x
  | text {s : String} {x : Binary64} (h : readFloat s.toList = some x) : IsNumber (.text s) x

theorem Value.isNumber_int {n : Int} {x : Binary64} : IsNumber (.int n) x ↔ Binary64.ofInt? n = some x := by
  constructor
  · intro h
    cases h with
    | int h => exact h
  · exact .int

theorem Value.isNumber_text {s : String} {x : Binary64} : IsNumber (.text s) x ↔ readFloat s.toList = some x := by
  constructor
  · intro h
    cases h with
    | text h => exact h
  · exact .text

/-- The fault of a value that is not converted; a whole number has one of its own, being past the largest floating point
    number. -/
def Value.fault (unread : Fault) : Value → Fault
  | .int _ => .outOfRange
  | _ => unread

/-- The comment text that a value stands for; nothing at all stands for the empty text. -/
def Value.comment : Value → String
  | .null => ""
  | v => v.display

namespace Settings

/-- What converting a value comes to. -/
theorem toFloat_cases (unread : Fault) (v : Value) :
    (∃ x, toFloat unread v = .ok x ∧ v.IsNumber x) ∨
    (∀ x, ¬ v.IsNumber x) ∧ toFloat unread v = .error (v.fault unread) := by
  cases v with
  | bool b => exact .inl ⟨_, rfl, .bool b⟩
  | int n =>
    rw [toFloat]
    cases h : Binary64.ofInt? n with
    | some x => exact .inl ⟨x, rfl, .int h⟩
    | none => exact .inr ⟨by simp [Value.isNumber_int, h], rfl⟩
  | float x => exact .inl ⟨x, rfl, .float x⟩
  | text s =>
    rw [toFloat]
    cases h : readFloat s.toList with
    | some x => exact .inl ⟨x, rfl, .text h⟩
    | none => exact .inr ⟨by simp [Value.isNumber_text, h], rfl⟩
  | null => exact .inr ⟨nofun, rfl⟩
  | list items => exact .inr ⟨nofun, rfl⟩
  | record fields => exact .inr ⟨nofun, rfl⟩

theorem isOk_toFloat_iff {unread : Fault} {v : Value} : (toFloat unread v).isOk = true ↔ ∃ x, v.IsNumber x := by
  obtain ⟨x, hx, hnumber⟩ | ⟨hnone, hfault⟩ := toFloat_cases unread v
  · simp only [hx, Except.isOk, Except.toBool, true_iff]
    exact ⟨x, hnumber⟩
  · simp [hfault, hnone, Except.isOk, Except.toBool]

end Settings

/-- A policy is chosen by the text of a value as by the value. -/
theorem ClassificationPolicy.ofValue_textOrNull (v : Value) : ofValue (Settings.textOrNull v) = ofValue v := by
  cases v <;> simp only [Settings.textOrNull, ofValue, Value.display]

theorem InsertionPolicy.ofValue_textOrNull (v : Value) : ofValue (Settings.textOrNull v) = ofValue v := by
  cases v <;> simp only [Settings.textOrNull, ofValue, Value.display]

theorem ClassificationPolicy.ofValue_name (p : ClassificationPolicy) : ofValue (.text p.name) = .ok p := by
  have hfind : (all.find? fun q => q.name == String.ofList
      ((Text.lower (Text.trim p.name.toList)).map fun c => if c = '-' then '_' else c)) = some p := by
    cases p <;> decide +kernel
  simp only [ofValue, Value.display, hfind]

theorem InsertionPolicy.ofValue_name (p : InsertionPolicy) : ofValue (.text p.name) = .ok p := by
  have hfind : (all.find? fun q => q.name == String.ofList (Text.lower (Text.trim p.name.toList))) = some p := by
    cases p <;> decide +kernel
  simp only [ofValue, Value.display, hfind]

/-! ## Editor settings -/

namespace Settings

/-- The key is that of a setting, alone or once behind the name space. -/
def Names (name key : String) : Prop := key = name ∨ key = nameSpace ++ name

instance (name key : String) : Decidable (Names name key) := inferInstanceAs (Decidable (_ ∨ _))

/-- The values that entries give to a setting, in their order. -/
def entries (name : String) (pairs : List (String × Value)) : List Value :=
  (pairs.filter fun pair => Names name pair.1).map (·.2)

/-- The value of the last entry for a setting. -/
def lastValue? (name : String) (pairs : List (String × Value)) : Option Value := (entries name pairs).getLast?

theorem names_iff_shortKey {name : String} (h : ¬ nameSpace.toList <+: name.toList) {key : String} :
    Names name key ↔ shortKey key = name := by
  unfold shortKey Names
  split
  · rename_i hspaced
    obtain ⟨rest, hrest⟩ := List.isPrefixOf_iff_prefix.mp hspaced
    have hkey : key = nameSpace ++ String.ofList rest := by
      rw [← String.ofList_toList (s := key), ← hrest]
      simp
    have hshort : String.ofList (key.toList.drop nameSpace.length) = String.ofList rest := by
      rw [← hrest, ← String.length_toList, List.drop_left]
    have hne : key ≠ name := by
      rintro rfl
      exact h ⟨rest, hrest⟩
    rw [hshort, hkey] at *
    simp [hne]
  · rename_i hspaced
    have hne : key ≠ nameSpace ++ name := by
      rintro rfl
      exact hspaced (List.isPrefixOf_iff_prefix.mpr ⟨name.toList, by simp⟩)
    simp [hne]

theorem entries_concat (name : String) (pairs : List (String × Value)) (pair : String × Value) :
    entries name (pairs ++ [pair]) = entries name pairs ++ if Names name pair.1 then [pair.2] else [] := by
  by_cases h : Names name pair.1 <;> simp [entries, List.filter_append, h]

theorem lastValue?_concat (name : String) (pairs : List (String × Value)) (pair : String × Value) :
    lastValue? name (pairs ++ [pair]) = if Names name pair.1 then some pair.2 else lastValue? name pairs := by
  by_cases h : Names name pair.1 <;> simp [lastValue?, entries_concat, h]

/-- The first value that is given for the minimum and is no number. -/
def unread? (pairs : List (String × Value)) : Option Value :=
  (entries "minCommentRatio" pairs).find? fun v => !(toFloat .outOfRange v).isOk

theorem unread?_eq_none_iff {pairs : List (String × Value)} :
    unread? pairs = none ↔ ∀ v ∈ entries "minCommentRatio" pairs, ∃ x, v.IsNumber x := by
  simp only [unread?, List.find?_eq_none, Bool.not_eq_true', Bool.not_eq_false, isOk_toFloat_iff]

theorem unread?_concat (pairs : List (String × Value)) (pair : String × Value) :
    unread? (pairs ++ [pair]) =
      (unread? pairs).or
        (if Names "minCommentRatio" pair.1 ∧ (toFloat .outOfRange pair.2).isOk = false then some pair.2 else none) := by
  by_cases h : Names "minCommentRatio" pair.1
  · cases hok : (toFloat .outOfRange pair.2).isOk <;> simp [unread?, entries_concat, h, hok]
  · simp [unread?, entries_concat, h]

end Settings

/-- A draft of what entries say. -/
structure Draft.Follows (d : Draft) (pairs : List (String × Value)) : Prop where
  minimum : ∃ x, d.minimum = .float x ∧
    ((Settings.lastValue? "minCommentRatio" pairs).map Value.IsNumber).getD (Eq (.ofQuotient false 1 4)) x
  comment : d.comment.getD "" =
    ((Settings.lastValue? "autoInsertCommentValue" pairs).map Value.comment).getD "fix METRICS-19"
  classification : ClassificationPolicy.ofValue d.classification =
    ((Settings.lastValue? "classificationPolicy" pairs).map ClassificationPolicy.ofValue).getD (.ok .firstPass)
  insertion : InsertionPolicy.ofValue d.insertion =
    ((Settings.lastValue? "insertionPolicy" pairs).map InsertionPolicy.ofValue).getD (.ok .single)
  maxLength : d.maxLength = .int 60
  lead : d.lead = "// "

namespace Settings

theorem follows_nil : Draft.Follows {} [] where
  minimum := ⟨_, rfl, rfl⟩
  comment := rfl
  classification := rfl
  insertion := rfl
  maxLength := rfl
  lead := rfl

/-- What is said about an entry for the minimum that is no number. -/
def unreadFault (v : Value) : Fault := v.fault (.invalidSetting "min_comment_ratio" v "must be a number")

/-- What one entry more comes to: an entry for the minimum that is no number is refused, any other one is followed. -/
theorem applyPair_cases {d : Draft} {pairs : List (String × Value)} (h : d.Follows pairs) (pair : String × Value) :
    ((Names "minCommentRatio" pair.1 → ∃ x, pair.2.IsNumber x) ∧
      ∃ d', applyPair d pair = .ok d' ∧ d'.Follows (pairs ++ [pair])) ∨
    (Names "minCommentRatio" pair.1 ∧ ¬ (∃ x, pair.2.IsNumber x) ∧ applyPair d pair = .error (unreadFault pair.2)) := by
  have hratio : Names "minCommentRatio" pair.1 ↔ shortKey pair.1 = "minCommentRatio" := names_iff_shortKey (by decide)
  have hcomment : Names "autoInsertCommentValue" pair.1 ↔ shortKey pair.1 = "autoInsertCommentValue" :=
    names_iff_shortKey (by decide)
  have hclassification : Names "classificationPolicy" pair.1 ↔ shortKey pair.1 = "classificationPolicy" :=
    names_iff_shortKey (by decide)
  have hinsertion : Names "insertionPolicy" pair.1 ↔ shortKey pair.1 = "insertionPolicy" := names_iff_shortKey (by decide)
  unfold applyPair
  dsimp only
  split
  case h_1 hkey =>
    obtain ⟨x, hx, hnumber⟩ | ⟨hnone, hfault⟩ :=
      toFloat_cases (.invalidSetting "min_comment_ratio" pair.2 "must be a number") pair.2
    · refine .inl ⟨fun _ => ⟨x, hnumber⟩, { d with minimum := .float x }, by rw [hx]; rfl, ?_⟩
      exact { h with
        minimum := ⟨x, rfl, by simpa [lastValue?_concat, hratio, hkey] using hnumber⟩
        comment := by simpa [lastValue?_concat, hcomment, hkey] using h.comment
        classification := by simpa [lastValue?_concat, hclassification, hkey] using h.classification
        insertion := by simpa [lastValue?_concat, hinsertion, hkey] using h.insertion }
    · exact .inr ⟨hratio.mpr hkey, not_exists.mpr hnone, by rw [hfault]; rfl⟩
  case h_2 hkey =>
    refine .inl ⟨by simp [hratio, hkey], _, rfl, ?_⟩
    exact { h with
      minimum := by simpa [lastValue?_concat, hratio, hkey] using h.minimum
      comment := by
        obtain ⟨key, v⟩ := pair
        cases v <;> simp_all [lastValue?_concat, Value.comment]
      classification := by simpa [lastValue?_concat, hclassification, hkey] using h.classification
      insertion := by simpa [lastValue?_concat, hinsertion, hkey] using h.insertion }
  case h_3 hkey =>
    refine .inl ⟨by simp [hratio, hkey], _, rfl, ?_⟩
    exact { h with
      minimum := by simpa [lastValue?_concat, hratio, hkey] using h.minimum
      comment := by simpa [lastValue?_concat, hcomment, hkey] using h.comment
      classification := by
        simp [lastValue?_concat, hclassification, hkey, ClassificationPolicy.ofValue_textOrNull]
      insertion := by simpa [lastValue?_concat, hinsertion, hkey] using h.insertion }
  case h_4 hkey =>
    refine .inl ⟨by simp [hratio, hkey], _, rfl, ?_⟩
    exact { h with
      minimum := by simpa [lastValue?_concat, hratio, hkey] using h.minimum
      comment := by simpa [lastValue?_concat, hcomment, hkey] using h.comment
      classification := by simpa [lastValue?_concat, hclassification, hkey] using h.classification
      insertion := by simp [lastValue?_concat, hinsertion, hkey, InsertionPolicy.ofValue_textOrNull] }
  case h_5 h₁ h₂ h₃ h₄ =>
    refine .inl ⟨fun hname => absurd (hratio.mp hname) h₁, d, rfl, ?_⟩
    exact { h with
      minimum := by simpa only [lastValue?_concat, hratio, if_neg h₁] using h.minimum
      comment := by simpa only [lastValue?_concat, hcomment, if_neg h₂] using h.comment
      classification := by simpa only [lastValue?_concat, hclassification, if_neg h₃] using h.classification
      insertion := by simpa only [lastValue?_concat, hinsertion, if_neg h₄] using h.insertion }

/-- What all entries come to: the first one for the minimum that is no number is refused, else all are followed. -/
theorem draftOfPairs_cases (pairs : List (String × Value)) :
    (unread? pairs = none ∧ ∃ d, draftOfPairs pairs = .ok d ∧ d.Follows pairs) ∨
    ∃ v, unread? pairs = some v ∧ draftOfPairs pairs = .error (unreadFault v) := by
  -- from the last entry, since each entry changes the draft of those before it
  induction pairs using List.reverseRecOn with
  | nil => exact .inl ⟨rfl, {}, rfl, follows_nil⟩
  | append_singleton pairs pair ih =>
    have hconcat : draftOfPairs (pairs ++ [pair]) = draftOfPairs pairs >>= fun d => applyPair d pair := by
      simp [draftOfPairs, List.foldlM_append]
    rw [hconcat, unread?_concat]
    obtain ⟨hread, d, hd, hfollows⟩ | ⟨v, hv, hfault⟩ := ih
    · rw [hd, hread, Option.none_or]
      obtain ⟨hnumber, d', hd', hfollows'⟩ | ⟨hname, hnone, hfault⟩ := applyPair_cases hfollows pair
      · refine .inl ⟨?_, d', hd', hfollows'⟩
        rw [if_neg]
        intro h
        have hok : (toFloat .outOfRange pair.2).isOk = true := isOk_toFloat_iff.mpr (hnumber h.1)
        rw [h.2] at hok
        cases hok
      · refine .inr ⟨pair.2, if_pos ⟨hname, ?_⟩, hfault⟩
        rw [← Bool.not_eq_true, isOk_toFloat_iff]
        exact hnone
    · rw [hv, hfault, Option.some_or]
      exact .inr ⟨v, rfl, rfl⟩

end Settings

/-! ## One source over another -/

/-- A source that gives something over one that gave a result has a result exactly if what it gives is one. -/
theorem exists_getD_ok_iff {α : Type} {given : Option (Except Fault α)} {p : α} :
    (∃ q, given.getD (.ok p) = .ok q) ↔ ∀ r, given = some r → ∃ q, r = .ok q := by
  cases given with
  | none => simp
  | some r => simp

theorem Draft.cut_cut (limit : Nat) (s : String) : cut limit (cut limit s) = cut limit s := by
  simp [cut, List.take_take]

/-- When a draft is settled, and to what. -/
theorem Draft.settle_eq_ok {d : Draft} {s : Settings} : d.settle = .ok s ↔ ∃ limit, d.limit? = some limit ∧
    ClassificationPolicy.ofValue d.classification = .ok s.classification ∧
    InsertionPolicy.ofValue d.insertion = .ok s.insertion ∧
    s.minimum = d.minimum ∧ s.comment = cut limit (d.comment.getD "") ∧ s.maxLength = d.maxLength ∧ s.lead = d.lead := by
  obtain ⟨minimum, comment, maxLength, lead, classification, insertion⟩ := s
  rw [settle]
  cases hlimit : d.limit? with
  | none => simp
  | some limit =>
    simp only [bind_eq_ok_iff, pure, Except.pure, Except.ok.injEq, Settings.mk.injEq, Option.some.injEq, exists_eq_left']
    constructor
    · intro hall
      obtain ⟨c, hc, i, hi, rfl, rfl, rfl, rfl, rfl, rfl⟩ := hall
      exact ⟨hc, hi, rfl, rfl, rfl, rfl⟩
    · intro hall
      obtain ⟨hc, hi, rfl, rfl, rfl, rfl⟩ := hall
      exact ⟨_, hc, _, hi, rfl, rfl, rfl, rfl, rfl, rfl⟩

/-- When a draft with the standard length limit is settled, and to what. -/
theorem Draft.settle_eq_ok_iff {d : Draft} (hlimit : d.maxLength = .int 60) {s : Settings} :
    d.settle = .ok s ↔
      ClassificationPolicy.ofValue d.classification = .ok s.classification ∧
      InsertionPolicy.ofValue d.insertion = .ok s.insertion ∧
      s.minimum = d.minimum ∧ s.comment = cut 60 (d.comment.getD "") ∧ s.maxLength = .int 60 ∧ s.lead = d.lead := by
  have hsome : d.limit? = some 60 := by
    rw [limit?, hlimit]
    rfl
  simp only [settle_eq_ok, hsome, hlimit, Option.some.injEq, exists_eq_left']

theorem Draft.exists_settle_iff {d : Draft} (hlimit : d.maxLength = .int 60) :
    (∃ s, d.settle = .ok s) ↔
      (∃ c, ClassificationPolicy.ofValue d.classification = .ok c) ∧ ∃ i, InsertionPolicy.ofValue d.insertion = .ok i := by
  simp only [settle_eq_ok_iff hlimit]
  constructor
  · intro hall
    obtain ⟨s, hc, hi, -⟩ := hall
    exact ⟨⟨_, hc⟩, _, hi⟩
  · intro hall
    obtain ⟨⟨c, hc⟩, i, hi⟩ := hall
    exact ⟨⟨_, _, _, _, c, i⟩, hc, hi, rfl, rfl, rfl, rfl⟩

namespace Settings

/-- When settings with the standard length limit are merged with those of a source that says nothing about the limit,
    and to what. -/
theorem merge_eq_ok_iff {s s' : Settings} {o : Overrides} (hlimit : s.maxLength = .int 60) (hlength : o.maxLength = none) :
    s.merge o = .ok s' ↔
      (o.classification.map ClassificationPolicy.ofValue).getD (.ok s.classification) = .ok s'.classification ∧
      (o.insertion.map InsertionPolicy.ofValue).getD (.ok s.insertion) = .ok s'.insertion ∧
      s'.minimum = o.minimum.getD s.minimum ∧ s'.comment = Draft.cut 60 (o.comment.getD s.comment) ∧
      s'.maxLength = .int 60 ∧ s'.lead = o.lead.getD s.lead := by
  have hdraft : (s.draft.override o).maxLength = .int 60 := by simp [Draft.override, draft, hlength, hlimit]
  have hclassification : ClassificationPolicy.ofValue (s.draft.override o).classification =
      (o.classification.map ClassificationPolicy.ofValue).getD (.ok s.classification) := by
    cases h : o.classification <;> simp [Draft.override, draft, h, ClassificationPolicy.ofValue_name]
  have hinsertion : InsertionPolicy.ofValue (s.draft.override o).insertion =
      (o.insertion.map InsertionPolicy.ofValue).getD (.ok s.insertion) := by
    cases h : o.insertion <;> simp [Draft.override, draft, h, InsertionPolicy.ofValue_name]
  have hcomment : (s.draft.override o).comment.getD "" = o.comment.getD s.comment := by
    cases h : o.comment <;> simp [Draft.override, draft, h]
  rw [merge, Draft.settle_eq_ok_iff hdraft, hclassification, hinsertion, hcomment]
  rfl

theorem exists_merge_iff {s : Settings} {o : Overrides} (hlimit : s.maxLength = .int 60) (hlength : o.maxLength = none) :
    (∃ s', s.merge o = .ok s') ↔
      (∀ v, o.classification = some v → ∃ c, ClassificationPolicy.ofValue v = .ok c) ∧
      ∀ v, o.insertion = some v → ∃ i, InsertionPolicy.ofValue v = .ok i := by
  have hgiven : (∃ s', s.merge o = .ok s') ↔
      (∃ c, (o.classification.map ClassificationPolicy.ofValue).getD (.ok s.classification) = .ok c) ∧
      ∃ i, (o.insertion.map InsertionPolicy.ofValue).getD (.ok s.insertion) = .ok i := by
    simp only [merge_eq_ok_iff hlimit hlength]
    constructor
    · intro hall
      obtain ⟨s', hc, hi, -⟩ := hall
      exact ⟨⟨_, hc⟩, _, hi⟩
    · intro hall
      obtain ⟨⟨c, hc⟩, i, hi⟩ := hall
      exact ⟨⟨_, _, _, _, c, i⟩, hc, hi, rfl, rfl, rfl, rfl⟩
  rw [hgiven, exists_getD_ok_iff, exists_getD_ok_iff]
  simp

/-- The settings of the environment, its minimum having been read. -/
def ofVariables (env : String → Option String) (minimum : Option Value) : Overrides where
  minimum := minimum
  comment := env "COMMENT_DENSITY_COMMENT_VALUE"
  classification := (env "COMMENT_DENSITY_POLICY").map .text
  insertion := (env "COMMENT_DENSITY_INSERT_MODE").map .text

/-- What the environment comes to: settings, unless its minimum is no number. -/
theorem environmentOverrides_cases (env : String → Option String) :
    (∃ minimum, environmentOverrides env = .ok (ofVariables env minimum) ∧
      (env "COMMENT_DENSITY_MIN_RATIO" = none ∧ minimum = none ∨
        ∃ t x, env "COMMENT_DENSITY_MIN_RATIO" = some t ∧ (Value.text t).IsNumber x ∧ minimum = some (.float x))) ∨
    ∃ t, env "COMMENT_DENSITY_MIN_RATIO" = some t ∧ (∀ x, ¬ (Value.text t).IsNumber x) ∧
      environmentOverrides env =
        .error (.invalidSetting "min_comment_ratio" (.text t) "cannot parse COMMENT_DENSITY_MIN_RATIO") := by
  unfold environmentOverrides
  cases h : env "COMMENT_DENSITY_MIN_RATIO" with
  | none => exact .inl ⟨none, rfl, .inl ⟨rfl, rfl⟩⟩
  | some t =>
    obtain ⟨x, hx, hnumber⟩ | ⟨hnone, hfault⟩ :=
      toFloat_cases (.invalidSetting "min_comment_ratio" (.text t) "cannot parse COMMENT_DENSITY_MIN_RATIO") (.text t)
    · exact .inl ⟨some (.float x), by simp only [hx]; rfl, .inr ⟨t, x, rfl, hnumber, rfl⟩⟩
    · exact .inr ⟨t, rfl, hnone, by simp only [hfault]; rfl⟩

end Settings

/-! ## The settings of a run -/

theorem Settings.pairsOfText_eq_ok {refuse : String → Fault} {text : Text} {pairs : List (String × Value)}
    (h : pairsOfText refuse text = .ok pairs) : Json.read text = .ok (.record pairs) := by
  unfold pairsOfText at h
  split at h
  · rename_i hread
    rw [hread, Except.ok.inj h]
  all_goals cases h

/-- The first value given, by a flag, by the environment or by an entry, or else the default. -/
def firstGiven {α : Type} (flag environment entry : Option α) (default : α) : α :=
  flag.getD (environment.getD (entry.getD default))

/-- Every minimum in the environment and among the entries is a number, and every policy in the environment and every
    last entry for one names a policy. -/
structure SourcesRead (env : String → Option String) (pairs : List (String × Value)) : Prop where
  entryMinimum : ∀ v ∈ Settings.entries "minCommentRatio" pairs, ∃ x, v.IsNumber x
  environmentMinimum : ∀ t, env "COMMENT_DENSITY_MIN_RATIO" = some t → ∃ x, (Value.text t).IsNumber x
  entryClassification : ∀ v, Settings.lastValue? "classificationPolicy" pairs = some v →
    ∃ p, ClassificationPolicy.ofValue v = .ok p
  environmentClassification : ∀ t, env "COMMENT_DENSITY_POLICY" = some t →
    ∃ p, ClassificationPolicy.ofValue (.text t) = .ok p
  entryInsertion : ∀ v, Settings.lastValue? "insertionPolicy" pairs = some v → ∃ p, InsertionPolicy.ofValue v = .ok p
  environmentInsertion : ∀ t, env "COMMENT_DENSITY_INSERT_MODE" = some t → ∃ p, InsertionPolicy.ofValue (.text t) = .ok p

/-- Each of the settings that have several sources is what the first source that gives it says; the comment value is cut
    to sixty characters. -/
structure TakesFirst (o : Options) (env : String → Option String) (pairs : List (String × Value)) (s : Settings) : Prop where
  minimum : ∃ x, s.minimum = .float x ∧
    firstGiven (o.minimum.map Eq) ((env "COMMENT_DENSITY_MIN_RATIO").map fun t => (Value.text t).IsNumber)
      ((Settings.lastValue? "minCommentRatio" pairs).map Value.IsNumber) (Eq (.ofQuotient false 1 4)) x
  comment : s.comment.toList =
    (firstGiven o.comment (env "COMMENT_DENSITY_COMMENT_VALUE")
      ((Settings.lastValue? "autoInsertCommentValue" pairs).map Value.comment) "fix METRICS-19").toList.take 60
  classification :
    firstGiven (o.classification.map .ok) ((env "COMMENT_DENSITY_POLICY").map fun t => ClassificationPolicy.ofValue (.text t))
      ((Settings.lastValue? "classificationPolicy" pairs).map ClassificationPolicy.ofValue) (.ok .firstPass) =
        .ok s.classification
  insertion :
    firstGiven (o.insertion.map .ok) ((env "COMMENT_DENSITY_INSERT_MODE").map fun t => InsertionPolicy.ofValue (.text t))
      ((Settings.lastValue? "insertionPolicy" pairs).map InsertionPolicy.ofValue) (.ok .single) = .ok s.insertion
  maxLength : s.maxLength = .int 60
  lead : s.lead = "// "

namespace Options

/-- The editor settings of a run are these pairs; without a settings file there are none. -/
def GivesPairs (o : Options) (store : Store) (pairs : List (String × Value)) : Prop :=
  match o.settingsPath? with
  | none => pairs = []
  | some path => ∃ bytes text, store.read (Path.ofString path) = .ok bytes ∧ Utf8.decode bytes = .ok text ∧
      Json.read (unifyBreaks text) = .ok (.record pairs)

theorem GivesPairs.firstDraft_eq {o : Options} {store : Store} {pairs : List (String × Value)}
    (h : o.GivesPairs store pairs) : o.firstDraft store = Settings.draftOfPairs pairs := by
  unfold GivesPairs at h
  unfold firstDraft
  cases hpath : o.settingsPath? with
  | none =>
    rw [hpath] at h
    rw [show pairs = [] from h]
    rfl
  | some path =>
    rw [hpath] at h
    obtain ⟨bytes, text, hread, hdecode, hjson⟩ := h
    simp only [Settings.draftOfFile, hread, hdecode, Settings.pairsOfText, hjson]
    rfl

theorem resolve_eq_ok_iff {o : Options} {w : Surroundings} {s : Settings} :
    o.resolve w = .ok s ↔ ∃ d base found merged, o.firstDraft w.store = .ok d ∧ d.settle = .ok base ∧
      Settings.environmentOverrides w.environment = .ok found ∧ base.merge found = .ok merged ∧
      merged.merge o.overrides = .ok s := by
  simp only [resolve, Settings.ofEnvironment, bind_eq_ok_iff]
  constructor
  · intro hall
    obtain ⟨d, hd, base, hbase, merged, ⟨found, hfound, hmerged⟩, hs⟩ := hall
    exact ⟨d, base, found, merged, hd, hbase, hfound, hmerged, hs⟩
  · intro hall
    obtain ⟨d, base, found, merged, hd, hbase, hfound, hmerged, hs⟩ := hall
    exact ⟨d, hd, base, hbase, merged, ⟨found, hfound, hmerged⟩, hs⟩

end Options

namespace Settings

/-- The settings that a draft of entries leads to, with the environment and the flags over it. -/
theorem takesFirst_of_layers {o : Options} {env : String → Option String} {pairs : List (String × Value)} {d : Draft}
    {found : Overrides} {base merged s : Settings} (hfollows : d.Follows pairs) (hbase : d.settle = .ok base)
    (hfound : environmentOverrides env = .ok found) (hmerged : base.merge found = .ok merged)
    (hs : merged.merge o.overrides = .ok s) : TakesFirst o env pairs s := by
  obtain ⟨minimum, hoverrides, hminimum⟩ | ⟨t, -, -, hfault⟩ := environmentOverrides_cases env
  case inr => rw [hfault] at hfound; cases hfound
  obtain rfl := Except.ok.inj (hoverrides.symm.trans hfound)
  obtain ⟨hclassification₁, hinsertion₁, hminimum₁, hcomment₁, hlimit₁, hlead₁⟩ :=
    (Draft.settle_eq_ok_iff hfollows.maxLength).mp hbase
  obtain ⟨hclassification₂, hinsertion₂, hminimum₂, hcomment₂, hlimit₂, hlead₂⟩ :=
    (merge_eq_ok_iff hlimit₁ rfl).mp hmerged
  obtain ⟨hclassification₃, hinsertion₃, hminimum₃, hcomment₃, hlimit₃, hlead₃⟩ := (merge_eq_ok_iff hlimit₂ rfl).mp hs
  dsimp only [ofVariables] at hclassification₂ hinsertion₂ hminimum₂ hcomment₂ hlead₂
  dsimp only [Options.overrides] at hclassification₃ hinsertion₃ hminimum₃ hcomment₃ hlead₃
  constructor
  case minimum =>
    obtain ⟨x, hx, hentry⟩ := hfollows.minimum
    rw [hx] at hminimum₁
    -- what the environment leaves, and then what the flag leaves
    have hafter : ∃ y, merged.minimum = .float y ∧
        ((env "COMMENT_DENSITY_MIN_RATIO").map fun t => (Value.text t).IsNumber).getD
          (((lastValue? "minCommentRatio" pairs).map Value.IsNumber).getD (Eq (.ofQuotient false 1 4))) y := by
      rw [hminimum₂, hminimum₁]
      obtain ⟨hnone, rfl⟩ | ⟨t, y, hsome, hnumber, rfl⟩ := hminimum
      · exact ⟨x, rfl, by simpa [hnone] using hentry⟩
      · exact ⟨y, rfl, by simpa [hsome] using hnumber⟩
    obtain ⟨y, hy, hgiven⟩ := hafter
    rw [hminimum₃, hy]
    cases hflag : o.minimum with
    | none => exact ⟨y, rfl, hgiven⟩
    | some z => exact ⟨z, rfl, rfl⟩
  case comment =>
    have hcut : s.comment = Draft.cut 60 (firstGiven o.comment (env "COMMENT_DENSITY_COMMENT_VALUE")
        ((lastValue? "autoInsertCommentValue" pairs).map Value.comment) "fix METRICS-19") := by
      rw [hcomment₃, hcomment₂, hcomment₁, hfollows.comment]
      cases o.comment <;> cases env "COMMENT_DENSITY_COMMENT_VALUE" <;>
        simp [firstGiven, Draft.cut_cut]
    simp [hcut, Draft.cut]
  case classification =>
    rw [hfollows.classification] at hclassification₁
    rw [← hclassification₁] at hclassification₂
    rw [← hclassification₂] at hclassification₃
    cases hflag : o.classification <;>
      simpa [firstGiven, hflag, ClassificationPolicy.ofValue_name, Function.comp_def] using hclassification₃
  case insertion =>
    rw [hfollows.insertion] at hinsertion₁
    rw [← hinsertion₁] at hinsertion₂
    rw [← hinsertion₂] at hinsertion₃
    cases hflag : o.insertion <;>
      simpa [firstGiven, hflag, InsertionPolicy.ofValue_name, Function.comp_def] using hinsertion₃
  case maxLength => exact hlimit₃
  case lead =>
    rw [hlead₃, hlead₂, hlead₁, hfollows.lead]
    rfl

/-- A draft of entries is settled if the last entry for each kind of policy names one. -/
theorem exists_settle_iff_of_follows {d : Draft} {pairs : List (String × Value)} (h : d.Follows pairs) :
    (∃ s, d.settle = .ok s) ↔
      (∀ v, lastValue? "classificationPolicy" pairs = some v → ∃ p, ClassificationPolicy.ofValue v = .ok p) ∧
      ∀ v, lastValue? "insertionPolicy" pairs = some v → ∃ p, InsertionPolicy.ofValue v = .ok p := by
  rw [Draft.exists_settle_iff h.maxLength, h.classification, h.insertion, exists_getD_ok_iff, exists_getD_ok_iff]
  simp

/-- Settings that were reached through all sources show that each of them could be read. -/
theorem sourcesRead_of_layers {env : String → Option String} {pairs : List (String × Value)} {d : Draft}
    {found : Overrides} {base merged : Settings} (hread : unread? pairs = none) (hfollows : d.Follows pairs)
    (hbase : d.settle = .ok base) (hfound : environmentOverrides env = .ok found)
    (hmerged : base.merge found = .ok merged) : SourcesRead env pairs := by
  obtain ⟨minimum, hoverrides, hminimum⟩ | ⟨t, -, -, hfault⟩ := environmentOverrides_cases env
  case inr => rw [hfault] at hfound; cases hfound
  obtain rfl := Except.ok.inj (hoverrides.symm.trans hfound)
  obtain ⟨-, -, -, -, hlimit, -⟩ := (Draft.settle_eq_ok_iff hfollows.maxLength).mp hbase
  obtain ⟨hentryClassification, hentryInsertion⟩ := (exists_settle_iff_of_follows hfollows).mp ⟨base, hbase⟩
  obtain ⟨hclassification, hinsertion⟩ := (exists_merge_iff hlimit rfl).mp ⟨merged, hmerged⟩
  refine ⟨unread?_eq_none_iff.mp hread, ?_, hentryClassification, by simpa [ofVariables] using hclassification,
    hentryInsertion, by simpa [ofVariables] using hinsertion⟩
  intro t ht
  obtain ⟨hnone, -⟩ | ⟨t', x, hsome, hnumber, -⟩ := hminimum
  · rw [hnone] at ht
    cases ht
  · obtain rfl := Option.some.inj (ht.symm.trans hsome)
    exact ⟨x, hnumber⟩

/-- Sources that can be read lead to settings through all of them, whatever the flags. -/
theorem exists_layers {env : String → Option String} {pairs : List (String × Value)} {d : Draft}
    (hfollows : d.Follows pairs) (hsources : SourcesRead env pairs) (o : Options) :
    ∃ base found merged s, d.settle = .ok base ∧ environmentOverrides env = .ok found ∧
      base.merge found = .ok merged ∧ merged.merge o.overrides = .ok s := by
  obtain ⟨minimum, hfound, -⟩ | ⟨t, ht, hnone, -⟩ := environmentOverrides_cases env
  case inr =>
    obtain ⟨x, hnumber⟩ := hsources.environmentMinimum t ht
    exact absurd hnumber (hnone x)
  obtain ⟨base, hbase⟩ := (exists_settle_iff_of_follows hfollows).mpr
    ⟨hsources.entryClassification, hsources.entryInsertion⟩
  obtain ⟨-, -, -, -, hlimit, -⟩ := (Draft.settle_eq_ok_iff hfollows.maxLength).mp hbase
  obtain ⟨merged, hmerged⟩ := (exists_merge_iff (o := ofVariables env minimum) hlimit rfl).mpr
    ⟨by simpa [ofVariables] using hsources.environmentClassification,
      by simpa [ofVariables] using hsources.environmentInsertion⟩
  obtain ⟨-, -, -, -, hlimit', -⟩ := (merge_eq_ok_iff hlimit rfl).mp hmerged
  obtain ⟨s, hs⟩ := (exists_merge_iff (o := o.overrides) hlimit' rfl).mpr
    ⟨by simp [Options.overrides, ClassificationPolicy.ofValue_name],
      by simp [Options.overrides, InsertionPolicy.ofValue_name]⟩
  exact ⟨base, _, merged, s, hbase, hfound, hmerged, hs⟩

end Settings

/-- A run has settings exactly if all its sources can be read, also those that others win over, and then each setting is
    that of the first source that gives it. -/
theorem resolve_takesFirst {o : Options} {w : Surroundings} {pairs : List (String × Value)}
    (h : o.GivesPairs w.store pairs) :
    ((∃ s, o.resolve w = .ok s) ↔ SourcesRead w.environment pairs) ∧
      ∀ s, o.resolve w = .ok s → TakesFirst o w.environment pairs s := by
  simp only [Options.resolve_eq_ok_iff, h.firstDraft_eq]
  obtain ⟨hread, d, hd, hfollows⟩ | ⟨v, hv, hfault⟩ := Settings.draftOfPairs_cases pairs
  case inr =>
    refine ⟨iff_of_false (by simp [hfault]) ?_, by simp [hfault]⟩
    intro hsources
    rw [Settings.unread?_eq_none_iff.mpr hsources.entryMinimum] at hv
    cases hv
  simp only [hd, Except.ok.injEq]
  refine ⟨⟨?_, ?_⟩, ?_⟩
  · intro hall
    obtain ⟨s, _, base, found, merged, rfl, hbase, hfound, hmerged, -⟩ := hall
    exact Settings.sourcesRead_of_layers hread hfollows hbase hfound hmerged
  · intro hsources
    obtain ⟨base, found, merged, s, hlayers⟩ := Settings.exists_layers hfollows hsources o
    exact ⟨s, d, base, found, merged, rfl, hlayers⟩
  · intro s hall
    obtain ⟨_, base, found, merged, rfl, hbase, hfound, hmerged, hs⟩ := hall
    exact Settings.takesFirst_of_layers hfollows hbase hfound hmerged hs

/-- Editor settings that give the minimum in both spellings. -/
def layeredText : Text :=
  "\x7b\"minCommentRatio\":\"0.5\",\"fixStaticCheck.minCommentRatio\":0,\"autoInsertCommentValue\":\"x\"\x7d".toList

def layeredSurroundings : Surroundings where
  store := (Store.empty ["w"]).addFile "s.json" (Utf8.encode layeredText)
  environment := fun
    | "COMMENT_DENSITY_COMMENT_VALUE" => some ""
    | "COMMENT_DENSITY_POLICY" => some "Two-Phase"
    | _ => none
  parser := sourceParser

def layeredOptions : Options := { file := "a.c", line := 1, settings := some "s.json", classification := some .firstPass }

/-- The zero of the last entry for the minimum, the empty comment of the environment, the policy of the flag and a
    default. -/
theorem resolve_takesFirst_layered : ∃ pairs, layeredOptions.GivesPairs layeredSurroundings.store pairs ∧
    ∃ s x v, layeredOptions.resolve layeredSurroundings = .ok s ∧ s.minimum = .float x ∧ v.IsNumber x ∧
      Settings.lastValue? "minCommentRatio" pairs = some v ∧ v.quoted = "0" ∧
      s.comment = "" ∧ s.classification = .firstPass ∧ s.insertion = .single := by
  have hdecode : (Utf8.decode (Utf8.encode layeredText)).toOption = some layeredText := by decide +kernel
  -- all that is needed of the pairs, which are evaluated once
  have hpairs : ((Settings.pairsOfText Fault.noContext (unifyBreaks layeredText)).toOption.any fun pairs =>
      (Settings.unread? pairs).isNone && (Settings.lastValue? "classificationPolicy" pairs).isNone &&
      (Settings.lastValue? "insertionPolicy" pairs).isNone &&
      decide ((Settings.lastValue? "minCommentRatio" pairs).map Value.quoted = some "0")) = true := by decide +kernel
  cases hread : Settings.pairsOfText Fault.noContext (unifyBreaks layeredText) with
  | error e => simp [hread, Except.toOption] at hpairs
  | ok pairs =>
  simp only [hread, Except.toOption, Option.any_some, Bool.and_eq_true, Option.isNone_iff_eq_none, decide_eq_true_eq,
    Option.map_eq_some_iff] at hpairs
  obtain ⟨⟨⟨hunread, hclassification⟩, hinsertion⟩, v, hlast, hzero⟩ := hpairs
  have hgives : layeredOptions.GivesPairs layeredSurroundings.store pairs := by
    refine ⟨Utf8.encode layeredText, layeredText, Store.read_eq_ok.mpr (by decide +kernel), ?_,
      Settings.pairsOfText_eq_ok hread⟩
    cases h : Utf8.decode (Utf8.encode layeredText) with
    | error e => simp [h, Except.toOption] at hdecode
    | ok text => simpa [h, Except.toOption] using hdecode
  obtain ⟨hiff, hfirst⟩ := resolve_takesFirst hgives
  have hpolicy : (ClassificationPolicy.ofValue (.text "Two-Phase")).toOption = some .twoPhase := by decide +kernel
  have hsources : SourcesRead layeredSurroundings.environment pairs := by
    constructor
    case entryMinimum => exact Settings.unread?_eq_none_iff.mp hunread
    case environmentMinimum => exact nofun
    case entryClassification => simp [hclassification]
    case environmentClassification =>
      intro t ht
      obtain rfl : "Two-Phase" = t := Option.some.inj ht
      cases h : ClassificationPolicy.ofValue (.text "Two-Phase") with
      | error e => simp [h, Except.toOption] at hpolicy
      | ok p => exact ⟨p, rfl⟩
    case entryInsertion => simp [hinsertion]
    case environmentInsertion => exact nofun
  obtain ⟨s, hs⟩ := hiff.mpr hsources
  have h := hfirst s hs
  obtain ⟨x, hx, hnumber⟩ := h.minimum
  rw [hlast] at hnumber
  refine ⟨pairs, hgives, s, x, v, hs, hx, hnumber, hlast, hzero, ?_, ?_, ?_⟩
  · have hempty : s.comment.toList = "".toList := h.comment
    exact String.toList_inj.mp hempty
  · exact (Except.ok.inj h.classification).symm
  · have hdefault := h.insertion
    rw [hinsertion] at hdefault
    exact (Except.ok.inj hdefault).symm

end CommentQuota

/-
  CommentQuota.Proofs.Resettling — settings that are settled again and again.

  Settings come from a draft, from editor settings, from the environment or from settings with some of them replaced. Each
  of these settles a draft anew: the limit is checked, the policies are read from their names and the comment value is cut,
  also where all this was done before and where the limit has been raised or lowered in between. A step that fails leaves
  the settings as they were.

  - `Settled.of_take`: what one step supplies the comment value of its settings from.
  - `settled_chain`: what holds of the settings after any number of steps.
  - `Settled.merge_ignored`: settled settings are settled to themselves.
  - `chain_settled`: the two together.
-/

import CommentQuota.Proofs.Precedence

namespace CommentQuota

/-! ## Steps -/

/-- A way to come to settings. Where a comment value or a lead is given by its name, it is a text or nothing at all. -/
inductive SettingsStep where
  | new (d : Draft)
  | editor (pairs : List (String × Value))
  /-- With the settings of the environment over the current ones, or over the defaults. -/
  | environment (overCurrent : Bool) (env : String → Option String)
  | merge (named : List (String × Value)) (texts : ∀ given ∈ named,
      given.1 = "auto_insert_comment_value" ∨ given.1 = "comment_prefix" → given.2 = .null ∨ ∃ s, given.2 = .text s)

theorem toOption_eq_some_iff {α : Type} {x : Except Fault α} {a : α} : x.toOption = some a ↔ x = .ok a := by
  cases x <;> simp [Except.toOption]

namespace SettingsStep

/-- The settings that a step leads to from the current ones; without any there are none to merge with. -/
def take (current : Option Settings) : SettingsStep → Option Settings
  | new d => d.settle.toOption
  | editor pairs => (Settings.ofPairs pairs).toOption
  | environment overCurrent env => (Settings.ofEnvironment (if overCurrent then current else none) env).toOption
  | merge named _ => current.bind fun s => (s.merge (.ofNamed named)).toOption

/-- The settings after steps; a step that fails keeps the current ones. -/
def chain (steps : List SettingsStep) : Option Settings :=
  steps.foldl (fun current step => (step.take current).or current) none

theorem chain_concat (steps : List SettingsStep) (step : SettingsStep) :
    chain (steps ++ [step]) = (step.take (chain steps)).or (chain steps) := by
  simp [chain]

/-- The comment values that a step supplies. -/
def comments : SettingsStep → List String
  | new d => d.comment.toList
  | editor pairs => (Settings.entries "autoInsertCommentValue" pairs).map Value.comment
  | environment _ env => (env "COMMENT_DENSITY_COMMENT_VALUE").toList
  | merge named _ => named.filterMap fun given => if given.1 = "auto_insert_comment_value" then given.2.text? else none

/-- The comment values that a comment may be taken from after steps: those supplied, the default and the empty one. -/
def sources (steps : List SettingsStep) : List String := "fix METRICS-19" :: "" :: steps.flatMap comments

theorem mem_sources_concat {steps : List SettingsStep} {step : SettingsStep} {text : String} :
    text ∈ sources (steps ++ [step]) ↔ text ∈ sources steps ∨ text ∈ step.comments := by
  simp [sources, or_assoc]

end SettingsStep

/-! ## Settled settings -/

namespace Settings

/-- The limit is a whole number of at least one, the comment is no longer and starts one of the texts, and the policies are
    two of those there are. -/
structure Settled (s : Settings) (texts : List String) : Prop where
  limit : ∃ n : Int, s.maxLength.whole? = some n ∧ 1 ≤ n ∧ (s.comment.length : Int) ≤ n
  comment : ∃ text ∈ texts, s.comment.toList <+: text.toList
  policies : s.classification ∈ ClassificationPolicy.all ∧ s.insertion ∈ InsertionPolicy.all

end Settings

theorem ClassificationPolicy.mem_all (p : ClassificationPolicy) : p ∈ all := by
  cases p <;> decide

theorem InsertionPolicy.mem_all (p : InsertionPolicy) : p ∈ all := by
  cases p <;> decide

namespace Draft

theorem limit?_eq_some_iff {d : Draft} {limit : Nat} :
    d.limit? = some limit ↔ 1 ≤ limit ∧ d.maxLength.whole? = some (limit : Int) := by
  rw [limit?]
  cases hwhole : d.maxLength.whole? with
  | none => simp
  | some n =>
    simp only [Option.ite_none_right_eq_some, Option.some.injEq]
    omega

theorem length_cut_le (limit : Nat) (s : String) : (cut limit s).length ≤ limit := by
  rw [cut, ← String.length_toList, String.toList_ofList, List.length_take]
  exact Nat.min_le_left _ _

theorem cut_isStart (limit : Nat) (s : String) : (cut limit s).toList <+: s.toList := by
  simp [cut, List.take_prefix]

theorem cut_of_length_le {limit : Nat} {s : String} (h : s.length ≤ limit) : cut limit s = s := by
  rw [cut, List.take_of_length_le (by rwa [String.length_toList]), String.ofList_toList]

/-- A draft whose comment value starts one of the texts is settled to settings whose comment does. -/
theorem settled_of_settle {d : Draft} {s : Settings} {texts : List String} (h : d.settle = .ok s)
    (hcomment : ∃ text ∈ texts, (d.comment.getD "").toList <+: text.toList) : s.Settled texts := by
  obtain ⟨limit, hlimit, -, -, -, hcut, hlength, -⟩ := settle_eq_ok.mp h
  obtain ⟨hone, hwhole⟩ := limit?_eq_some_iff.mp hlimit
  have hle := length_cut_le limit (d.comment.getD "")
  obtain ⟨text, htext, hstarts⟩ := hcomment
  constructor
  case limit => exact ⟨limit, by rw [hlength, hwhole], by omega, by rw [hcut]; omega⟩
  case comment => exact ⟨text, htext, by rw [hcut]; exact (cut_isStart _ _).trans hstarts⟩
  case policies => exact ⟨s.classification.mem_all, s.insertion.mem_all⟩

end Draft

namespace Settings

theorem Settled.mono {s : Settings} {texts more : List String} (h : s.Settled texts) (hmore : texts ⊆ more) :
    s.Settled more := by
  obtain ⟨text, htext, hstarts⟩ := h.comment
  exact { h with comment := ⟨text, hmore htext, hstarts⟩ }

end Settings

/-! ## Settings given by name -/

namespace Overrides

/-- The names of the settings. -/
def names : List String :=
  ["min_comment_ratio", "auto_insert_comment_value", "max_comment_value_length", "comment_prefix", "classification_policy",
    "insertion_policy"]

theorem ofNamed_concat (named : List (String × Value)) (given : String × Value) :
    ofNamed (named ++ [given]) = (ofNamed named).give given.1 given.2 := by
  simp [ofNamed]

/-- Only a text given for the comment value changes it. -/
theorem comment_give (o : Overrides) (name : String) (v : Value) : (o.give name v).comment =
    (if name = "auto_insert_comment_value" then v.text? else none).or o.comment := by
  cases v with
  | null => simp [give, Value.text?]
  | _ =>
    unfold give
    dsimp only
    split
    all_goals simp_all

/-- A comment value that is replaced by name is one that was given. -/
theorem mem_of_comment_ofNamed {named : List (String × Value)} {text : String} (h : (ofNamed named).comment = some text) :
    text ∈ named.filterMap fun given => if given.1 = "auto_insert_comment_value" then given.2.text? else none := by
  induction named using List.reverseRecOn with
  | nil => cases h
  | append_singleton named given ih =>
    rw [ofNamed_concat, comment_give, Option.or_eq_some_iff] at h
    rw [List.filterMap_append, List.mem_append]
    rcases h with hlast | ⟨-, hearlier⟩
    · exact .inr (by simp [hlast])
    · exact .inl (ih hearlier)

/-- Nothing at all, and what is given for no setting, replaces nothing. -/
theorem give_ignored (o : Overrides) {name : String} {v : Value} (h : v = .null ∨ name ∉ names) : o.give name v = o := by
  cases v with
  | null => rfl
  | _ =>
    have hname := h.resolve_left nofun
    simp only [names, List.mem_cons, List.not_mem_nil, or_false, not_or] at hname
    unfold give
    dsimp only
    split
    all_goals simp_all

theorem ofNamed_ignored {named : List (String × Value)} (h : ∀ given ∈ named, given.2 = .null ∨ given.1 ∉ names) :
    ofNamed named = {} := by
  induction named using List.reverseRecOn with
  | nil => rfl
  | append_singleton named given ih =>
    have ih := ih fun other hother => h other (List.mem_append_left _ hother)
    rw [ofNamed_concat, ih, give_ignored _ (h given (by simp))]

end Overrides

/-! ## Steps keep settings settled -/

/-- The comment value of editor settings is the default or that of one of them. -/
theorem Draft.Follows.comment_mem {d : Draft} {pairs : List (String × Value)} (h : d.Follows pairs) :
    d.comment.getD "" ∈ "fix METRICS-19" :: (Settings.entries "autoInsertCommentValue" pairs).map Value.comment := by
  rw [h.comment]
  cases hlast : Settings.lastValue? "autoInsertCommentValue" pairs with
  | none => simp
  | some v => exact List.mem_cons_of_mem _ (List.mem_map_of_mem (List.mem_of_getLast? hlast))

namespace Settings

/-- Settings with others in place of some of theirs. -/
theorem settled_of_merge {s s' : Settings} {o : Overrides} {texts : List String} (h : s.merge o = .ok s')
    (hs : s.Settled texts) : s'.Settled (texts ++ o.comment.toList) := by
  refine Draft.settled_of_settle h ?_
  cases hcomment : o.comment with
  | none =>
    obtain ⟨text, htext, hstarts⟩ := hs.comment
    exact ⟨text, by simpa using htext, by simpa [Draft.override, draft, hcomment] using hstarts⟩
  | some text => exact ⟨text, by simp, by simp [Draft.override, hcomment]⟩

end Settings

namespace SettingsStep

open Settings

/-- The settings that a step leads to have their comment from what it supplies, or as the current settings have it. -/
theorem settled_of_take {current : Option Settings} {step : SettingsStep} {s : Settings} {texts : List String}
    (htexts : sources [] ⊆ texts) (hcurrent : ∀ c, current = some c → c.Settled texts) (h : step.take current = some s) :
    s.Settled (texts ++ step.comments) := by
  cases step with
  | new d =>
    refine Draft.settled_of_settle (toOption_eq_some_iff.mp h) ?_
    cases hcomment : d.comment with
    | none => exact ⟨"", by simp [htexts (show "" ∈ sources [] by simp [sources])], List.prefix_rfl⟩
    | some text => exact ⟨text, by simp [comments, hcomment], List.prefix_rfl⟩
  | editor pairs =>
    obtain ⟨d, hd, hsettle⟩ := bind_eq_ok_iff.mp (toOption_eq_some_iff.mp h)
    obtain ⟨-, d', hd', hfollows⟩ | ⟨v, -, hfault⟩ := draftOfPairs_cases pairs
    case inr => rw [hfault] at hd; cases hd
    obtain rfl := Except.ok.inj (hd'.symm.trans hd)
    refine Draft.settled_of_settle hsettle ⟨_, ?_, List.prefix_rfl⟩
    rcases List.mem_cons.mp hfollows.comment_mem with hdefault | hgiven
    · rw [hdefault]
      exact List.mem_append_left _ (htexts (by simp [sources]))
    · exact List.mem_append_right _ hgiven
  | environment overCurrent env =>
    obtain ⟨o, ho, hmade⟩ := bind_eq_ok_iff.mp (toOption_eq_some_iff.mp h)
    obtain ⟨minimum, hfound, -⟩ | ⟨t, -, -, hfault⟩ := environmentOverrides_cases env
    case inr => rw [hfault] at ho; cases ho
    obtain rfl := Except.ok.inj (hfound.symm.trans ho)
    cases hbase : (if overCurrent then current else none) with
    | some base =>
      have hcurrent := hcurrent base (by cases overCurrent <;> simp_all)
      rw [hbase] at hmade
      exact settled_of_merge hmade hcurrent
    | none =>
      rw [hbase] at hmade
      refine Draft.settled_of_settle hmade ?_
      cases hvalue : env "COMMENT_DENSITY_COMMENT_VALUE" with
      | none =>
        have hdefault : "fix METRICS-19" ∈ texts := htexts (by simp [sources])
        exact ⟨_, List.mem_append_left _ hdefault, by simp [Draft.override, ofVariables, hvalue]⟩
      | some text => exact ⟨text, by simp [comments, hvalue], by simp [Draft.override, ofVariables, hvalue]⟩
  | merge named texts =>
    obtain ⟨base, hbase, hmerge⟩ := Option.bind_eq_some_iff.mp h
    have hmerged := settled_of_merge (toOption_eq_some_iff.mp hmerge) (hcurrent base hbase)
    refine hmerged.mono ?_
    intro text htext
    rcases List.mem_append.mp htext with hearlier | hgiven
    · exact List.mem_append_left _ hearlier
    · exact List.mem_append_right _ (Overrides.mem_of_comment_ofNamed (Option.mem_toList.mp hgiven))

/-- The settings after any number of steps. -/
theorem settled_chain {steps : List SettingsStep} {s : Settings} (h : chain steps = some s) : s.Settled (sources steps) := by
  induction steps using List.reverseRecOn generalizing s with
  | nil => cases h
  | append_singleton steps step ih =>
    rw [chain_concat, Option.or_eq_some_iff] at h
    rcases h with hstep | ⟨-, hkept⟩
    · have hdefaults : sources [] ⊆ sources steps := by simp [sources]
      refine (settled_of_take hdefaults (fun c hc => ih hc) hstep).mono ?_
      intro text htext
      exact mem_sources_concat.mpr (List.mem_append.mp htext)
    · refine (ih hkept).mono ?_
      intro text htext
      exact mem_sources_concat.mpr (.inl htext)

end SettingsStep

/-! ## Nothing given -/

namespace Settings

/-- The variables of the environment that hold settings. -/
def variableNames : List String :=
  ["COMMENT_DENSITY_MIN_RATIO", "COMMENT_DENSITY_COMMENT_VALUE", "COMMENT_DENSITY_POLICY", "COMMENT_DENSITY_INSERT_MODE"]

/-- The settings are those they are settled to where nothing is given for any of them: no override, only overrides that are
    nothing at all or have other names, or no variable of the environment. -/
structure Stable (s : Settings) : Prop where
  merge : ∀ named : List (String × Value), (∀ given ∈ named, given.2 = .null ∨ given.1 ∉ Overrides.names) →
    s.merge (.ofNamed named) = .ok s
  environment : ∀ env : String → Option String, (∀ name ∈ variableNames, env name = none) → ofEnvironment (some s) env = .ok s

theorem Settled.merge_nothing {s : Settings} {texts : List String} (h : s.Settled texts) : s.merge {} = .ok s := by
  obtain ⟨n, hwhole, hone, hle⟩ := h.limit
  have hlimit : (s.draft.override {}).limit? = some n.toNat := by
    rw [Draft.limit?_eq_some_iff, Int.toNat_of_nonneg (by omega)]
    exact ⟨by omega, hwhole⟩
  have hcut : Draft.cut n.toNat s.comment = s.comment := Draft.cut_of_length_le (by omega)
  refine Draft.settle_eq_ok.mpr ⟨n.toNat, hlimit, s.classification.ofValue_name, s.insertion.ofValue_name, rfl, ?_, rfl, rfl⟩
  exact hcut.symm

theorem environmentOverrides_nothing {env : String → Option String} (h : ∀ name ∈ variableNames, env name = none) :
    environmentOverrides env = .ok {} := by
  simp only [variableNames, List.forall_mem_cons] at h
  obtain ⟨hminimum, hcomment, hclassification, hinsertion, -⟩ := h
  simp [environmentOverrides, hminimum, hcomment, hclassification, hinsertion, bind, Except.bind, pure, Except.pure]

theorem Settled.stable {s : Settings} {texts : List String} (h : s.Settled texts) : s.Stable where
  merge named hignored := by
    rw [Overrides.ofNamed_ignored hignored]
    exact h.merge_nothing
  environment env hnone := by
    rw [ofEnvironment, environmentOverrides_nothing hnone]
    exact h.merge_nothing

end Settings

/-- Whatever steps lead to settings, the settings keep to their limit, say the start of something that was supplied, and are
    settled to themselves. -/
theorem chain_settled {steps : List SettingsStep} {s : Settings} (h : SettingsStep.chain steps = some s) :
    s.Settled (SettingsStep.sources steps) ∧ s.Stable :=
  have hsettled := SettingsStep.settled_chain h
  ⟨hsettled, hsettled.stable⟩

/-- A limit that is lowered, then set to nothing that can be one, and then raised again. -/
def limitSteps : List SettingsStep :=
  [.new { comment := some "abcdef", maxLength := .int 4 }, .merge [("max_comment_value_length", .int 2)] (by simp),
    .merge [("max_comment_value_length", .int 0), ("auto_insert_comment_value", .text "x")] (by simp),
    .merge [("max_comment_value_length", .int 9), ("auto_insert_comment_value", .null)] (by simp)]

/-- What was cut off stays cut off, and the step that failed leaves no trace. -/
theorem chain_settled_limits : ∃ s, SettingsStep.chain limitSteps = some s ∧ s.comment = "ab" ∧
    s.Settled (SettingsStep.sources limitSteps) ∧ s.Stable := by
  have hcomment : (SettingsStep.chain limitSteps).map Settings.comment = some "ab" := by decide +kernel
  obtain ⟨s, hs, hcut⟩ := Option.map_eq_some_iff.mp hcomment
  exact ⟨s, hs, hcut, chain_settled hs⟩

end CommentQuota

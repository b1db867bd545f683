/-
  CommentQuota.CommandLine.Command — one run of the command.

  A run reads its options, resolves its settings, reads the document, fixes the function under the
  cursor, writes the document back and reports. Settings come from the defaults, the settings file,
  the environment and the flags, a later source winning over an earlier one.

  - `Options.resolve`: the settings of a run.
  - `Options.drafts`: the drafts that are settled on the way, for the records they leave.
  - `Options.save`: the changed document written back, after a backup if one is wanted.
  - `command`: a run, with the store it leaves and how it ends.
-/

import CommentQuota.CommandLine.Markup
import CommentQuota.CommandLine.Options
import CommentQuota.Document
import CommentQuota.Fix
import CommentQuota.Json.Writer
import CommentQuota.Patch
import CommentQuota.Settings.File

namespace CommentQuota

/-- What a run finds around it. -/
structure Surroundings where
  store : Store
  environment : String → Option String
  parser : Parser

namespace Options

/-- The records that are shown: a quiet run shows errors only. -/
def level (o : Options) : Level :=
  if o.quiet then .error else if o.debug then .debug else if o.verbose then .info else .warning

/-- An empty path counts as none. -/
def settingsPath? (o : Options) : Option String := o.settings.filter (· ≠ "")

def backupPath? (o : Options) : Option String := o.backupDir.filter (· ≠ "")

/-- The paths a run may look at or write to. -/
def paths (o : Options) : List Path :=
  let file := Path.ofString o.file
  [file, file.temporary] ++ o.settingsPath?.toList.map Path.ofString ++
    o.backupPath?.toList.map fun d => (Path.ofString d).child file.name

/-! ## Settings -/

/-- The draft that a run starts with. -/
def firstDraft (o : Options) (store : Store) : Except Fault Draft :=
  match o.settingsPath? with
  | some path => Settings.draftOfFile store path
  | none => .ok {}

/-- The settings of a run. -/
def resolve (o : Options) (w : Surroundings) : Except Fault Settings := do
  let base ← (← o.firstDraft w.store).settle
  let s ← Settings.ofEnvironment (some base) w.environment
  s.merge o.overrides

/-- The drafts that are settled in turn, as far as the run gets. -/
def drafts (o : Options) (w : Surroundings) : List Draft :=
  match o.firstDraft w.store with
  | .error _ => []
  | .ok d => d ::
    match d.settle, Settings.environmentOverrides w.environment with
    | .ok base, .ok found =>
      let d := base.draft.override found
      d :: match d.settle with
        | .ok s => [s.draft.override o.overrides]
        | .error _ => []
    | _, _ => []

end Options

/-- The record of a draft whose comment value is cut. -/
def Draft.journal (d : Draft) : Journal :=
  match d.settle, d.truncation? with
  | .ok _, some (length, limit) =>
    [⟨.debug, "Truncating autoInsertCommentValue from " ++ toString length ++ " to " ++
      toString limit ++ " characters"⟩]
  | _, _ => []

/-- The records of doubtful settings. -/
def Settings.journal (s : Settings) : Journal :=
  match s.warnings with
  | .ok doubts => doubts.map fun doubt => ⟨.warning, "Config: " ++ doubt⟩
  | .error _ => []

/-- The fault is one of the settings, so that the run ends with a message. -/
def Fault.spoilsSettings : Fault → Bool
  | .invalidSetting _ _ _ => true
  | .unknownPolicy _ _ _ => true
  | .tooManyDigits _ _ => true
  | .zeroInPath => true
  | .badEncoding _ => true
  | _ => false

/-! ## Output -/

namespace Console

def text (s : String) : Text := Markup.escape s.toList

def error (message : Text) : Text := Markup.shown (Markup.styled "red" ("Error: ".toList ++ message))

/-- A line in one style. -/
def line (style : String) (t : Text) : Text := Markup.shown (Markup.styled style t)

/-- What is shown of a report. -/
def analysis (a : Analysis) (report : String) : Text :=
  Markup.shown (Markup.styled "bold" (text a.name) ++
    (" (lines " ++ toString (a.startRow + 1) ++ "-" ++ toString (a.stopRow + 1) ++ ")").toList) ++
  Markup.shown (text report)

/-- The minimum in percent. -/
def minimum (a : Analysis) : String :=
  match (Share.ofValue? a.minimum).map Share.percent with
  | some (.ok s) => s
  | _ => ""

/-- What is shown of an outcome. -/
def outcome (o : Options) : Outcome → Text
  | .noContext => []
  | .outsideFunction => line "yellow" (text Outcome.outsideFunction.message)
  | .invalidSettings reason => error (text reason)
  | .parserError reason => error (text reason)
  | .notNeeded a report =>
    analysis a report ++
      line "green" ("✅ Comment ratio meets the minimum of " ++ minimum a).toList
  | .malformedBody a report =>
    analysis a report ++
      line "yellow" "Could not find the function body; no comments inserted".toList
  | .applied a report _ _ =>
    let rows := toString a.needed ++ " comment line(s) into "
    analysis a report ++
      if o.dryRun then line "cyan" (("[Dry Run] Would insert " ++ rows).toList ++ text o.file)
      else line "green" (("Inserted " ++ rows).toList ++ text o.file)

end Console

/-- Everything a finished run prints about its outcome. -/
def Options.report (o : Options) (source : Text) (outcome : Outcome) : Text :=
  (if o.json then (Json.write 0 outcome.record).toList ++ ['\n']
   else if o.quiet then []
   else Console.outcome o outcome) ++
  match outcome.newText? with
  | some text => if o.diff && outcome.changed then unifiedDiff source text o.file else []
  | none => []

/-! ## Writing -/

/-- A step on a store: what it leaves, the records it makes, and its result. -/
structure Saving where
  store : Store
  journal : Journal
  result : Except Fault Unit

/-- Backs the document up if that is wanted. -/
def Options.backUp (o : Options) (store : Store) : Saving :=
  match o.backupPath? with
  | none => ⟨store, [], .ok ()⟩
  | some directory =>
    let path := Path.ofString o.file
    match backUpDocument store path (Path.ofString directory) with
    | ⟨store, .ok b⟩ => ⟨store, [b.entry path], .ok ()⟩
    | ⟨store, .error e⟩ => ⟨store, [], .error e⟩

/-- Writes a new version of the document. -/
def Options.replace (o : Options) (store : Store) (text : Text) : Saving :=
  let path := Path.ofString o.file
  match replaceDocument store path text with
  | ⟨store, .ok _⟩ => ⟨store, [], .ok ()⟩
  | ⟨store, .error (.store failure)⟩ =>
    ⟨store, [⟨.error, "Failed to write file " ++ path.text ++ ": " ++ failure.message⟩],
     .error (.store failure)⟩
  | ⟨store, .error e⟩ => ⟨store, [], .error e⟩

/-- Writes the changed document, after a backup if one is wanted. -/
def Options.save (o : Options) (store : Store) (text : Text) : Saving :=
  match o.backUp store with
  | ⟨store, records, .error e⟩ => ⟨store, records, .error e⟩
  | ⟨store, records, .ok _⟩ =>
    let s := o.replace store text
    ⟨s.store, records ++ s.journal, s.result⟩

/-- Writes the outcome's document, if there is something to write and writing is wanted. -/
def Options.keep (o : Options) (store : Store) (outcome : Outcome) : Saving :=
  match outcome.newText? with
  | some text => if outcome.changed && !o.dryRun then o.save store text else ⟨store, [], .ok ()⟩
  | none => ⟨store, [], .ok ()⟩

/-! ## The run -/

/-- How a run ends. -/
inductive Ending where
  /-- The command line asks for no run. -/
  | stopped (stop : Stop)
  /-- The run has an exit code, an output, and records. -/
  | finished (exitCode : Nat) (output : Text) (journal : Journal)
  /-- The run breaks off. -/
  | broken (fault : Fault)

/-- How a run ends and the store it leaves. -/
structure Run where
  store : Store
  ending : Ending

namespace Options

/-- Ends a run with the records its level shows. -/
def finish (o : Options) (store : Store) (exitCode : Nat) (output : Text) (journal : Journal) : Run :=
  ⟨store, .finished exitCode output (journal.atLeast o.level)⟩

/-- The run after its outcome is known. -/
def conclude (o : Options) (store : Store) (source : Text) (outcome : Outcome) (journal : Journal) : Run :=
  match o.keep store outcome with
  | ⟨store, records, .ok _⟩ =>
    o.finish store (if outcome.isFailure then 1 else 0) (o.report source outcome) (journal ++ records)
  | ⟨store, records, .error (.store failure)⟩ =>
    let message := "failed to write ".toList ++ Console.text o.file ++ ": ".toList ++
      Console.text failure.message
    o.finish store 2 (Console.error message) (journal ++ records)
  | ⟨store, _, .error e⟩ => ⟨store, .broken e⟩

/-- The run on the document. -/
def runOn (o : Options) (w : Surroundings) (s : Settings) (journal : Journal) : Run :=
  match readDocument w.store o.file with
  | .error e => o.finish w.store 2 (Console.error (Console.text e.message)) journal
  | .ok source =>
    let line := some (o.line - 1)
    match fix s w.parser (some source) line with
    | .error e => ⟨w.store, .broken e⟩
    | .ok outcome =>
      o.conclude w.store source outcome (journal ++ fixJournal s w.parser (some source) line)

/-- The run that options ask for. -/
def run (o : Options) (w : Surroundings) : Run :=
  let journal := (o.drafts w).flatMap Draft.journal
  match o.resolve w with
  | .error e =>
    if e.spoilsSettings then o.finish w.store 1 (Console.error (Console.text e.message)) journal
    else ⟨w.store, .broken e⟩
  | .ok s => o.runOn w s (journal ++ s.journal)

end Options

/-- One run of the command. -/
def command (w : Surroundings) (arguments : List String) : Run :=
  match readOptions arguments with
  | .error stop => ⟨w.store, .stopped stop⟩
  | .ok o => o.run w

end CommentQuota

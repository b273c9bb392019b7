import LiveChain.Proofs.Cli.Assignment
import LiveChain.Proofs.Cli.Listing

/-!
# Exit codes

A run ends with 1 for a bad configuration, with 2 for bad input and with 0 otherwise. It ends so
unless it crashes, or an ordinal has too many digits.
-/

set_option autoImplicit false

namespace LiveChain.Cli

open Text

/-! ## Exit codes that are called for -/

/-- The configuration file is there and is no text, no document, or holds no configuration. -/
def BadConfig (content : Option (List UInt8)) : Prop :=
  ∃ bytes, content = some bytes ∧ ¬ ∃ text data c, decodeUtf8 bytes = .ok text ∧
    parseToml text = .ok data ∧ Config.ofDatum data = .valid c

/-- The snippet is this text, with line feeds as its line breaks. -/
def Readable (snippet : Except FileError (List UInt8)) (text : List Char) : Prop :=
  ∃ bytes cs, snippet = .ok bytes ∧ decodeUtf8 bytes = .ok cs ∧ text = lineFeeds cs

/-- The snippet cannot be read, or it is to be edited and an assignment is none or the snippet is no
program. -/
inductive BadInput (snippet : Except FileError (List UInt8)) : Command → Prop
  | unreadable {command : Command} (h : ¬ ∃ text, Readable snippet text) : BadInput snippet command
  | assignment {raws : List String} {raw : String} (hraw : raw ∈ raws)
      (h : ¬ ∃ ds, AssignmentText raw ds) : BadInput snippet (.edit raws)
  | program {raws : List String} {text : List Char} (htext : Readable snippet text)
      (h : ¬ ∃ p, parseProgram text = .ok p) : BadInput snippet (.edit raws)

section Endings

variable (command : Command) (content : Option (List UInt8))
  (snippet : Except FileError (List UInt8))

/-- The exit code that a command on a configuration file and a snippet calls for. -/
inductive Lawful : ℕ → Prop
  | config (h : BadConfig content) : Lawful 1
  | input (hconfig : ¬ BadConfig content) (h : BadInput snippet command) : Lawful 2
  | success (hconfig : ¬ BadConfig content) (h : ¬ BadInput snippet command) : Lawful 0

/-- A run crashes: its configuration is no text or has an integer of too many digits, its snippet has
such an integer and is to be edited, or a value to be listed has an integer of more than 64 bits. -/
inductive Raises : Crash → Prop
  | undecodable {bytes : List UInt8} {e : Utf8Error} (hcontent : content = some bytes)
      (h : decodeUtf8 bytes = .error e) : Raises .undecodableConfig
  | longConfig {bytes : List UInt8} {text : List Char} {digits : ℕ} (hcontent : content = some bytes)
      (htext : decodeUtf8 bytes = .ok text) (h : parseToml text = .error (.tooLong digits)) :
      Raises .integerTooLong
  | longLiteral {raws : List String} {text : List Char} {digits : ℕ} (hcommand : command = .edit raws)
      (hconfig : ¬ BadConfig content) (htext : Readable snippet text)
      (hraws : ∀ raw ∈ raws, ∃ ds, AssignmentText raw ds ∧ ds.length ≤ 4300)
      (h : parseProgram text = .error (.tooLong digits)) : Raises .integerTooLong
  | wideValue {c : Config} {text : List Char} {v : EditableValue} (hcommand : command = .discover)
      (hconfig : Config.load content = .ok c) (htext : Readable snippet text)
      (hv : v ∈ (discover c.names (some c.registry) c.directiveKeywords text).result)
      (h : WideValue v) : Raises .integerTooWide

/-- All is well but for an ordinal of too many digits. -/
inductive Overlong : Prop
  | mk {raws : List String} {text : List Char} {raw : String} {ds : List ℕ} {p : Program}
      (hcommand : command = .edit raws) (hconfig : ¬ BadConfig content)
      (htext : Readable snippet text) (hraws : ∀ raw ∈ raws, ∃ ds, AssignmentText raw ds)
      (hp : parseProgram text = .ok p) (hraw : raw ∈ raws) (h : AssignmentText raw ds)
      (hlong : 4300 < ds.length)

end Endings

/-! ## Stages of a run -/

section Stages

variable {command : Command} {content : Option (List UInt8)}
  {snippet : Except FileError (List UInt8)} {text : List Char} {c : Config} {raws : List String}
  {configPath snippetPath : String}

theorem load_some (bytes : List UInt8) : Config.load (some bytes) =
    match decodeUtf8 bytes with
    | .error e => .error (.undecodable e)
    | .ok text =>
      match parseToml text with
      | .error e => .error (.malformed e)
      | .ok data =>
        match Config.ofDatum data with
        | .valid c => .ok c
        | .invalid issues => .error (.invalid issues) := by
  rw [Config.load]
  cases decodeUtf8 bytes with
  | error e => rfl
  | ok text =>
    simp only [Except.mapError, bind, Except.bind]
    cases parseToml text with
    | error e => rfl
    | ok data =>
      simp only
      cases Config.ofDatum data with
      | valid c => rfl
      | invalid issues => rfl

/-- What there is to a configuration that is not loaded. -/
theorem load_cases (content : Option (List UInt8)) :
    (∃ c, Config.load content = .ok c) ∨
      (∃ bytes e, content = some bytes ∧ decodeUtf8 bytes = .error e ∧
        Config.load content = .error (.undecodable e)) ∨
      (∃ bytes text e, content = some bytes ∧ decodeUtf8 bytes = .ok text ∧
        parseToml text = .error e ∧ Config.load content = .error (.malformed e)) ∨
      ∃ issues, Config.load content = .error (.invalid issues) := by
  cases content with
  | none => exact .inl ⟨_, rfl⟩
  | some bytes =>
    rw [load_some]
    cases hdecode : decodeUtf8 bytes with
    | error e => exact .inr (.inl ⟨bytes, e, rfl, hdecode, rfl⟩)
    | ok text =>
      simp only
      cases hparse : parseToml text with
      | error e => exact .inr (.inr (.inl ⟨bytes, text, e, rfl, hdecode, hparse, rfl⟩))
      | ok data =>
        simp only
        cases Config.ofDatum data with
        | valid c => exact .inl ⟨c, rfl⟩
        | invalid issues => exact .inr (.inr (.inr ⟨issues, rfl⟩))

/-- The configuration is loaded exactly when it is not bad. -/
theorem badConfig_iff : BadConfig content ↔ ¬ ∃ c, Config.load content = .ok c := by
  refine ⟨fun ⟨bytes, hcontent, hbad⟩ ⟨c, hload⟩ => hbad ?_, fun hload => ?_⟩
  · rw [hcontent, load_some] at hload
    split at hload
    · cases hload
    · next text hdecode =>
      split at hload
      · cases hload
      · next data hparse =>
        split at hload
        · next c' hvalid => exact ⟨text, data, c', hdecode, hparse, hvalid⟩
        · cases hload
  · cases content with
    | none => exact absurd ⟨_, rfl⟩ hload
    | some bytes =>
      refine ⟨bytes, rfl, fun ⟨text, data, c, hdecode, hparse, hvalid⟩ => hload ⟨c, ?_⟩⟩
      rw [load_some, hdecode]
      simp only [hparse, hvalid]

theorem Readable.unique {text' : List Char} (h : Readable snippet text) (h' : Readable snippet text') :
    text = text' := by
  obtain ⟨bytes, cs, rfl, hdecode, rfl⟩ := h
  obtain ⟨bytes', cs', hbytes, hdecode', rfl⟩ := h'
  obtain rfl := Except.ok.inj hbytes
  obtain rfl := Except.ok.inj (hdecode.symm.trans hdecode')
  rfl

def inputsOf (configPath snippetPath : String) (content : Option (List UInt8))
    (snippet : Except FileError (List UInt8)) : Inputs :=
  ⟨configPath, content, snippetPath, snippet.mapError .file⟩

theorem execute_readable (hconfig : Config.load content = .ok c) (htext : Readable snippet text) :
    execute command (inputsOf configPath snippetPath content snippet) = perform command c text := by
  obtain ⟨bytes, cs, rfl, hdecode, rfl⟩ := htext
  rw [execute, inputsOf]
  simp only [hconfig, Except.mapError, hdecode]

theorem execute_unreadable (hconfig : Config.load content = .ok c)
    (h : ¬ ∃ text, Readable snippet text) :
    (execute command (inputsOf configPath snippetPath content snippet)).ending = .exit 2 := by
  rw [execute, inputsOf]
  simp only [hconfig]
  cases snippet with
  | error e => rfl
  | ok bytes =>
    simp only [Except.mapError]
    cases hdecode : decodeUtf8 bytes with
    | error e => rfl
    | ok cs => exact absurd ⟨_, bytes, cs, rfl, hdecode, rfl⟩ h

theorem editValues_unread (h : ¬ ∃ edits, readAssignments raws = .ok edits) :
    (editValues c text raws).ending = .exit 2 := by
  rw [editValues]
  cases hraws : readAssignments raws with
  | error e => rfl
  | ok edits => exact absurd ⟨edits, hraws⟩ h

theorem editValues_ending (h : ∃ edits, readAssignments raws = .ok edits) :
    (editValues c text raws).ending =
      match parseProgram text with
      | .error .malformed => .exit 2
      | .error (.tooLong _) => .crash .integerTooLong
      | .ok _ => .exit 0 := by
  obtain ⟨edits, hraws⟩ := h
  rw [editValues, hraws]
  simp only
  cases parseProgram text with
  | ok p => rfl
  | error e => cases e <;> rfl

end Stages

/-! ## How runs end -/

section Endings

variable {command : Command} {content : Option (List UInt8)}
  {snippet : Except FileError (List UInt8)}

theorem Lawful.unique {code code' : ℕ} (h : Lawful command content snippet code)
    (h' : Lawful command content snippet code') : code = code' := by
  cases h with
  | config hbad =>
    cases h' with
    | config => rfl
    | input hgood => exact absurd hbad hgood
    | success hgood => exact absurd hbad hgood
  | input hgood hinput =>
    cases h' with
    | config hbad => exact absurd hbad hgood
    | input => rfl
    | success _ hnone => exact absurd hinput hnone
  | success hgood hnone =>
    cases h' with
    | config hbad => exact absurd hbad hgood
    | input _ hinput => exact absurd hinput hnone
    | success => rfl

variable (configPath snippetPath : String)

theorem exists_config (h : ¬ BadConfig content) : ∃ c, Config.load content = .ok c :=
  not_not.mp (mt badConfig_iff.mpr h)

theorem Raises.ending_eq {crash : Crash} (h : Raises command content snippet crash) :
    (execute command (inputsOf configPath snippetPath content snippet)).ending = .crash crash := by
  cases h with
  | undecodable hcontent h =>
    rw [execute, inputsOf]
    simp only [hcontent, load_some, h]
    rfl
  | longConfig hcontent htext h =>
    rw [execute, inputsOf]
    simp only [hcontent, load_some, htext, h]
    rfl
  | longLiteral hcommand hconfig htext hraws h =>
    obtain ⟨c, hload⟩ := exists_config hconfig
    rw [execute_readable hload htext, hcommand, perform,
      editValues_ending (readAssignments_isOk_iff.mpr hraws), h]
  | @wideValue c text v hcommand hconfig htext hv h =>
    rw [execute_readable hconfig htext, hcommand, perform, discoverValues]
    rcases printValues_ending (discover c.names (some c.registry) c.directiveKeywords text).result
      with ⟨-, hending⟩ | ⟨hnone, -⟩
    · exact hending
    · exact absurd ⟨v, hv, h⟩ hnone

/-- An ordinal of too many digits ends a run that should succeed. -/
theorem Overlong.ending_eq (h : Overlong command content snippet) :
    (execute command (inputsOf configPath snippetPath content snippet)).ending = .exit 2 ∧
      Lawful command content snippet 0 := by
  obtain @⟨raws, text, raw, ds, p, hcommand, hconfig, htext, hraws, hp, hraw, h, hlong⟩ := h
  have hunread : ¬ ∃ edits, readAssignments raws = .ok edits := by
    rw [readAssignments_isOk_iff]
    intro hall
    obtain ⟨ds', h', hfew⟩ := hall raw hraw
    exact absurd (h.isOk_iff.mp (h'.isOk_iff.mpr hfew)) (Nat.not_le_of_lt hlong)
  obtain ⟨c, hload⟩ := exists_config hconfig
  subst hcommand
  refine ⟨?_, .success hconfig ?_⟩
  · rw [execute_readable hload htext, perform, editValues_unread hunread]
  · rintro (hnone | ⟨hmem, hno⟩ | ⟨htext', hno⟩)
    · exact hnone ⟨text, htext⟩
    · exact hno (hraws _ hmem)
    · exact hno ⟨p, htext.unique htext' ▸ hp⟩

theorem discover_cases {c : Config} {text : List Char} (hload : Config.load content = .ok c)
    (htext : Readable snippet text) : (∃ crash, Raises .discover content snippet crash) ∨
      ∃ code, (execute .discover (inputsOf configPath snippetPath content snippet)).ending =
        .exit code ∧ Lawful .discover content snippet code := by
  have hconfig : ¬ BadConfig content := fun hbad => badConfig_iff.mp hbad ⟨c, hload⟩
  rcases printValues_ending (discover c.names (some c.registry) c.directiveKeywords text).result
    with ⟨⟨v, hv, hwide⟩, -⟩ | ⟨-, hending⟩
  · exact .inl ⟨_, .wideValue rfl hload htext hv hwide⟩
  · refine .inr ⟨0, ?_, .success hconfig ?_⟩
    · rw [execute_readable hload htext, perform, discoverValues]
      exact hending
    · rintro ⟨hnone⟩
      exact hnone ⟨text, htext⟩

theorem edit_cases {c : Config} {text : List Char} {raws : List String}
    (hload : Config.load content = .ok c) (htext : Readable snippet text) :
    (∃ crash, Raises (.edit raws) content snippet crash) ∨ Overlong (.edit raws) content snippet ∨
      ∃ code, (execute (.edit raws) (inputsOf configPath snippetPath content snippet)).ending =
        .exit code ∧ Lawful (.edit raws) content snippet code := by
  have hconfig : ¬ BadConfig content := fun hbad => badConfig_iff.mp hbad ⟨c, hload⟩
  rw [execute_readable hload htext, perform]
  by_cases hread : ∃ edits, readAssignments raws = .ok edits
  · have hraws := readAssignments_isOk_iff.mp hread
    rw [editValues_ending hread]
    cases hp : parseProgram text with
    | ok p =>
      refine .inr (.inr ⟨0, rfl, .success hconfig ?_⟩)
      rintro (hnone | ⟨hmem, hno⟩ | ⟨htext', hno⟩)
      · exact hnone ⟨text, htext⟩
      · obtain ⟨ds, h, -⟩ := hraws _ hmem
        exact hno ⟨ds, h⟩
      · exact hno ⟨p, htext.unique htext' ▸ hp⟩
    | error e =>
      cases e with
      | tooLong digits => exact .inl ⟨_, .longLiteral rfl hconfig htext hraws hp⟩
      | malformed =>
        have hno : ¬ ∃ p, parseProgram text = .ok p := by simp [hp]
        exact .inr (.inr ⟨2, rfl, .input hconfig (.program htext hno)⟩)
  · rw [editValues_unread hread]
    by_cases hraws : ∀ raw ∈ raws, ∃ ds, AssignmentText raw ds
    · cases hp : parseProgram text with
      | ok p =>
        rw [readAssignments_isOk_iff] at hread
        push Not at hread
        obtain ⟨raw, hraw, hlong⟩ := hread
        obtain ⟨ds, h⟩ := hraws raw hraw
        exact .inr (.inl (.mk rfl hconfig htext hraws hp hraw h (hlong ds h)))
      | error e =>
        have hno : ¬ ∃ p, parseProgram text = .ok p := by simp [hp]
        exact .inr (.inr ⟨2, rfl, .input hconfig (.program htext hno)⟩)
    · push Not at hraws
      obtain ⟨raw, hraw, hno⟩ := hraws
      exact .inr (.inr ⟨2, rfl, .input hconfig (.assignment hraw fun ⟨ds, h⟩ => hno ds h)⟩)

/-- A run crashes, or is ended by an ordinal of too many digits, or ends as it is called for. -/
theorem execute_cases (command : Command) (content : Option (List UInt8))
    (snippet : Except FileError (List UInt8)) :
    (∃ crash, Raises command content snippet crash) ∨ Overlong command content snippet ∨
      ∃ code, (execute command (inputsOf configPath snippetPath content snippet)).ending =
        .exit code ∧ Lawful command content snippet code := by
  rcases load_cases content with ⟨c, hload⟩ | ⟨bytes, e, hcontent, hdecode, -⟩ |
    ⟨bytes, text, e, hcontent, hdecode, hparse, hload⟩ | ⟨issues, hload⟩
  · have hconfig : ¬ BadConfig content := fun hbad => badConfig_iff.mp hbad ⟨c, hload⟩
    by_cases hreadable : ∃ text, Readable snippet text
    · obtain ⟨text, htext⟩ := hreadable
      cases command with
      | discover =>
        exact (discover_cases configPath snippetPath hload htext).imp_right .inr
      | edit raws => exact edit_cases configPath snippetPath hload htext
    · exact .inr (.inr ⟨2, execute_unreadable hload hreadable,
        .input hconfig (.unreadable hreadable)⟩)
  · exact .inl ⟨_, .undecodable hcontent hdecode⟩
  · cases e with
    | tooLong digits => exact .inl ⟨_, .longConfig hcontent hdecode hparse⟩
    | malformed =>
      have hbad : BadConfig content := badConfig_iff.mpr (by simp [hload])
      refine .inr (.inr ⟨1, ?_, .config hbad⟩)
      rw [execute, inputsOf]
      simp only [hload]
      rfl
  · have hbad : BadConfig content := badConfig_iff.mpr (by simp [hload])
    refine .inr (.inr ⟨1, ?_, .config hbad⟩)
    rw [execute, inputsOf]
    simp only [hload]
    rfl

end Endings

/-! ## Runs -/

/-- What a run on a disk sees: its command, the content of the configuration file, and the snippet. Paths
lead somewhere and the configuration file can be looked for. -/
inductive Sees (disk : Disk) (args : List String) (command : Command)
    (content : Option (List UInt8)) (snippet : Except FileError (List UInt8)) : Prop
  | mk {file root : String} {rootPath filePath : FilePath}
      (hjob : readJob args = .ok ⟨command, file, root⟩)
      (hroot : (FilePath.ofText root).expand disk.home = some rootPath)
      (hrootUsable : isUnusable root = false)
      (hcontent : findConfig disk (configPath disk rootPath) = .ok content)
      (hfile : (FilePath.ofText file).expand disk.home = some filePath)
      (hfileUsable : isUnusable file = false) (hsnippet : disk.read filePath = snippet)

section Runs

variable {disk : Disk} {args : List String} {command : Command} {content : Option (List UInt8)}
  {snippet : Except FileError (List UInt8)}

theorem run_eq (h : Sees disk args command content snippet) :
    ∃ configPath snippetPath,
      run disk args = execute command (inputsOf configPath snippetPath content snippet) := by
  obtain @⟨file, root, rootPath, filePath, hjob, hroot, hrootUsable, hcontent, hfile, hfileUsable,
    rfl⟩ := h
  refine ⟨(configPath disk rootPath).text, filePath.text, ?_⟩
  rw [run, hjob]
  simp only [runJob, hroot, hrootUsable, hcontent, findSnippet, hfile, hfileUsable,
    Bool.false_eq_true, if_false]
  rfl

/-- A run ends with the exit code that is called for exactly when nothing makes it crash and no ordinal of
too many digits ends it. -/
theorem exit_lawful_iff (h : Sees disk args command content snippet) :
    (∃ code, (run disk args).ending = .exit code ∧ Lawful command content snippet code) ↔
      (¬ ∃ crash, Raises command content snippet crash) ∧ ¬ Overlong command content snippet := by
  obtain ⟨configPath, snippetPath, hrun⟩ := run_eq h
  rw [hrun]
  constructor
  · rintro ⟨code, hending, hlawful⟩
    refine ⟨fun ⟨crash, hraises⟩ => ?_, fun hlong => ?_⟩
    · rw [hraises.ending_eq] at hending
      cases hending
    · obtain ⟨hexit, hzero⟩ := hlong.ending_eq configPath snippetPath
      obtain rfl := hzero.unique hlawful
      rw [hexit] at hending
      cases hending
  · rintro ⟨hraises, hlong⟩
    exact ((execute_cases configPath snippetPath command content snippet).resolve_left
      hraises).resolve_left hlong

end Runs

/-! ## Two runs -/

/-- A disk with files in its working directory and without home directories. -/
def workingDisk (files : List (String × List UInt8)) : Disk :=
  (FileTree.mk ["w"] [] (files.map fun f => (["w", f.1], f.2))).toDisk fun _ => none

/-- A run on a snippet in the working directory sees the files that are there. -/
theorem sees_working {files : List (String × List UInt8)} {args : List String} {command : Command}
    {content : Option (List UInt8)} {snippet : Except FileError (List UInt8)}
    (hjob : readJob args = .ok ⟨command, "a.js", "."⟩)
    (hcontent : findConfig (workingDisk files) ⟨"/", ["w", "chainedit.toml"]⟩ = .ok content)
    (hsnippet : (workingDisk files).read ⟨"", ["a.js"]⟩ = snippet) :
    Sees (workingDisk files) args command content snippet := by
  have hroot : (FilePath.ofText ".").expand (workingDisk files).home = some ⟨"", []⟩ := by
    rw [show FilePath.ofText "." = ⟨"", []⟩ by cbv]
    rfl
  have hfile : (FilePath.ofText "a.js").expand (workingDisk files).home = some ⟨"", ["a.js"]⟩ := by
    rw [show FilePath.ofText "a.js" = ⟨"", ["a.js"]⟩ by cbv]
    rfl
  exact .mk hjob hroot (by decide) hcontent hfile (by decide) hsnippet

/-- A configuration file of one byte that starts no character, and the snippet `osc(10)`. -/
def undecodableDisk : Disk :=
  workingDisk [("chainedit.toml", [0xFF]), ("a.js", [111, 115, 99, 40, 49, 48, 41])]

theorem sees_undecodable : Sees undecodableDisk ["discover", "a.js"] .discover (some [0xFF])
    (.ok [111, 115, 99, 40, 49, 48, 41]) :=
  sees_working rfl rfl rfl

theorem raises_undecodable {command : Command} {snippet : Except FileError (List UInt8)} :
    Raises command (some [0xFF]) snippet .undecodableConfig :=
  .undecodable rfl (show Text.decodeUtf8 [0xFF] = .error ⟨.badStart, 0, 0xFF, 1⟩ from rfl)

/-- A snippet that is not there calls for an exit code, and gets it. A configuration that is no text makes
a run crash. -/
theorem exit_lawful_iff_absent :
    (Sees (workingDisk []) ["rewrite", "a.js", "--set", "0=5"] (.edit ["0=5"]) none
        (.error .notFound) ∧
      ∃ code, (run (workingDisk []) ["rewrite", "a.js", "--set", "0=5"]).ending = .exit code ∧
        Lawful (.edit ["0=5"]) none (.error .notFound) code) ∧
    Sees undecodableDisk ["discover", "a.js"] .discover (some [0xFF])
        (.ok [111, 115, 99, 40, 49, 48, 41]) ∧
      ¬ ∃ code, (run undecodableDisk ["discover", "a.js"]).ending = .exit code ∧
        Lawful .discover (some [0xFF]) (.ok [111, 115, 99, 40, 49, 48, 41]) code := by
  have hsees : Sees (workingDisk []) ["rewrite", "a.js", "--set", "0=5"] (.edit ["0=5"]) none
      (.error .notFound) :=
    sees_working rfl rfl rfl
  have hunreadable : ∀ text, ¬ Readable (.error .notFound) text := by
    rintro text ⟨bytes, cs, hbytes, -⟩
    cases hbytes
  have hraises : ¬ ∃ crash, Raises (.edit ["0=5"]) none (.error .notFound) crash := by
    rintro ⟨crash, hraises⟩
    cases hraises with
    | undecodable hcontent => cases hcontent
    | longConfig hcontent => cases hcontent
    | longLiteral _ _ htext => exact hunreadable _ htext
    | wideValue hcommand => cases hcommand
  have hlong : ¬ Overlong (.edit ["0=5"]) none (.error .notFound) := by
    rintro ⟨-, -, htext, -⟩
    exact hunreadable _ htext
  exact ⟨⟨hsees, (exit_lawful_iff hsees).mpr ⟨hraises, hlong⟩⟩, sees_undecodable,
    fun h => ((exit_lawful_iff sees_undecodable).mp h).1 ⟨_, raises_undecodable⟩⟩

/-- Not every run ends with the exit code that is called for. -/
theorem exit_unlawful : ¬ ∀ disk args command content snippet,
    Sees disk args command content snippet →
      ∃ code, (run disk args).ending = .exit code ∧ Lawful command content snippet code := by
  intro hall
  obtain ⟨code, hending, -⟩ := hall _ _ _ _ _ sees_undecodable
  obtain ⟨configPath, snippetPath, hrun⟩ := run_eq sees_undecodable
  rw [hrun, raises_undecodable.ending_eq] at hending
  cases hending

end LiveChain.Cli

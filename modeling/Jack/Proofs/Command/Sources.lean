import Jack.Proofs.Command.Files

/-!
# Settings and sources of a run

Before a run treats any source, it reads its settings and finds its sources, and changes nothing on the
desk.
-/

namespace Jack

/-- The path leads to a file with this text. -/
def FileMap.Holds (files : FileMap) (path text : String) : Prop :=
  ∃ bytes, files.read path = .ok bytes ∧ String.fromUTF8? bytes = some text

/-! ## Actions on a desk -/

namespace Desk

variable (desk : Desk)

theorem run_bind {α β : Type} (action : StateM Desk α) (next : α → StateM Desk β) :
    (action >>= next).run desk = (next (action.run desk).1).run (action.run desk).2 := rfl

theorem run_pure {α : Type} (value : α) : (pure value : StateM Desk α).run desk = (value, desk) := rfl

theorem run_kindOf (path : String) :
    (Workspace.kindOf path : StateM Desk PathKind).run desk = (desk.files.kindOf path, desk) := rfl

theorem run_list (path : String) :
    (Workspace.list path : StateM Desk (Except FileError (List String))).run desk =
      (desk.files.list path, desk) := rfl

theorem run_read (path : String) :
    (Workspace.read path : StateM Desk (Except FileError ByteArray)).run desk =
      (desk.files.read path, desk) := rfl

theorem run_write (path text : String) :
    (Workspace.write path text : StateM Desk (Except FileError Unit)).run desk =
      match desk.files.write path text.toUTF8 with
      | .error e => (.error e, desk)
      | .ok files => (.ok (), { desk with files := files }) := by
  have got : (get : StateM Desk Desk).run desk = (desk, desk) := rfl
  cases written : desk.files.write path text.toUTF8 with
  | error e => simp only [Workspace.write, run_bind, got, written, run_pure]
  | ok files =>
      simp only [Workspace.write, run_bind, got, written, run_pure]
      rfl

theorem run_print (text : String) :
    (Workspace.print text : StateM Desk Unit).run desk =
      ((), { desk with printed := desk.printed ++ text }) := rfl

theorem run_tell (notice : Notice) :
    (Workspace.tell notice : StateM Desk Unit).run desk =
      ((), { desk with notices := desk.notices ++ [notice] }) := rfl

theorem run_readText (path : String) :
    ∃ result, (Command.readText path : StateM Desk _).run desk = (result, desk) ∧
      ∀ text, result = .ok text ↔ desk.files.Holds path text := by
  cases read : desk.files.read path with
  | error e =>
      refine ⟨.error e, ?_, by simp [FileMap.Holds, read]⟩
      simp only [Command.readText, run_bind, run_read, read, run_pure]
  | ok bytes =>
      cases decoded : String.fromUTF8? bytes with
      | none =>
          refine ⟨.error .invalidText, ?_, by simp [FileMap.Holds, read, decoded]⟩
          simp only [Command.readText, run_bind, run_read, read, decoded, run_pure]
      | some text =>
          refine ⟨.ok text, ?_, by simp [FileMap.Holds, read, decoded]⟩
          simp only [Command.readText, run_bind, run_read, read, decoded, run_pure]

end Desk

/-! ## Settings -/

/-- The settings file of a run: the one that the arguments name, or else the one in the working directory. -/
def Command.settingsFile? (command : Command) (files : FileMap) : Option String :=
  match command.settingsPath? with
  | some path => some path
  | none => if files.kindOf "./jack-syntax.toml" = .file then some "./jack-syntax.toml" else none

/-- The settings that a run works with. -/
inductive Command.Effective (command : Command) (files : FileMap) : Settings → Prop
  | read {path document settings} (chosen : command.settingsFile? files = some path)
      (holds : files.Holds path document) (read : Settings.read document = .ok settings) :
      Effective command files (command.override settings)
  | default (none_chosen : command.settingsFile? files = none) :
      Effective command files (command.override {})

namespace Desk

variable (desk : Desk)

theorem run_settingsFrom (path : String) :
    ∃ result, (Command.settingsFrom path : StateM Desk _).run desk = (result, desk) ∧
      ∀ settings, result = .ok settings ↔
        ∃ document, desk.files.Holds path document ∧ Settings.read document = .ok settings := by
  obtain ⟨result, run, holds⟩ := desk.run_readText path
  cases result with
  | error e =>
      have none_held : ∀ text, ¬ desk.files.Holds path text := by simpa using holds
      refine ⟨.error (.settingsUnreadable path e), ?_, by simp [none_held]⟩
      simp only [Command.settingsFrom, run_bind, run, run_pure]
  | ok document =>
      have held : ∀ text, desk.files.Holds path text ↔ document = text := by simp [← holds]
      cases read : Settings.read document with
      | error e =>
          refine ⟨.error (.settingsInvalid path e), ?_, by simp [held, read]⟩
          simp only [Command.settingsFrom, run_bind, run, read, run_pure]
      | ok settings =>
          refine ⟨.ok settings, ?_, by simp [held, read]⟩
          simp only [Command.settingsFrom, run_bind, run, read, run_pure]

theorem run_loadSettings_eq (command : Command) :
    (command.loadSettings : StateM Desk _).run desk =
      match command.settingsFile? desk.files with
      | some path => (Command.settingsFrom path : StateM Desk _).run desk
      | none => (.ok {}, desk) := by
  have place : Path.entry "." settingsFileName = "./jack-syntax.toml" := by decide
  cases given : command.settingsPath? with
  | some path => simp only [Command.loadSettings, Command.settingsFile?, given]
  | none =>
      simp only [Command.loadSettings, Command.settingsFile?, given, place, run_bind, run_kindOf]
      cases kind : desk.files.kindOf "./jack-syntax.toml" with
      | file => simp
      | directory => rfl
      | missing => rfl

theorem run_loadSettings (command : Command) :
    ∃ result, (command.loadSettings : StateM Desk _).run desk = (result, desk) ∧
      ∀ settings, command.Effective desk.files settings ↔
        ∃ loaded, result = .ok loaded ∧ settings = command.override loaded := by
  rw [run_loadSettings_eq]
  cases chosen : command.settingsFile? desk.files with
  | none =>
      refine ⟨.ok {}, rfl, ?_⟩
      intro settings
      constructor
      · intro effective
        cases effective with
        | read some_chosen => simp [chosen] at some_chosen
        | default => exact ⟨{}, rfl, rfl⟩
      · rintro ⟨loaded, ok, rfl⟩
        obtain rfl := Except.ok.inj ok
        exact .default chosen
  | some path =>
      obtain ⟨result, run, read⟩ := desk.run_settingsFrom path
      refine ⟨result, run, ?_⟩
      intro settings
      constructor
      · intro effective
        cases effective with
        | read same holds document =>
            obtain rfl := Option.some.inj (chosen.symm.trans same)
            exact ⟨_, (read _).mpr ⟨_, holds, document⟩, rfl⟩
        | default none_chosen => simp [chosen] at none_chosen
      · rintro ⟨loaded, ok, rfl⟩
        obtain ⟨document, holds, document_read⟩ := (read loaded).mp ok
        exact .read chosen holds document_read

end Desk

/-! ## Sources -/

def FileMap.isSource (files : FileMap) (directory name : String) : Bool :=
  Path.extension? name == some sourceExtension && files.kindOf (Path.entry directory name) == .file

/-- The sources that some paths stand for: for a directory the source files directly in it in the order of
their names, and for any other path the path itself. -/
inductive FileMap.Collected (files : FileMap) : List String → List String → Prop
  | nil : Collected files [] []
  | file {path rest sources} (kind : files.kindOf path ≠ .directory) (more : Collected files rest sources) :
      Collected files (path :: rest) (path :: sources)
  | directory {path : String} {rest found names sources : List String} (kind : files.kindOf path = .directory)
      (listed : files.list path = .ok found) (chosen : names.Perm (found.filter (files.isSource path)))
      (ordered : names.Pairwise fun first second => ¬ second < first) (more : Collected files rest sources) :
      Collected files (path :: rest) (names.map (Path.entry path) ++ sources)

theorem pairwise_mergeSort_not_lt (names : List String) :
    (names.mergeSort fun first second => !decide (second < first)).Pairwise
      fun first second => ¬ second < first := by
  have ordered (first second : String) : (!decide (second < first)) = true ↔ first ≤ second := by
    rw [Bool.not_eq_true', decide_eq_false_iff_not, String.not_lt]
  have sorted : (names.mergeSort fun first second => !decide (second < first)).Pairwise
      fun first second => (!decide (second < first)) = true := by
    apply List.pairwise_mergeSort
    · intro first second third
      rw [ordered, ordered, ordered]
      exact String.le_trans
    · intro first second
      rw [Bool.or_eq_true, ordered, ordered]
      exact String.le_total first second
  simpa only [ordered, String.not_lt] using sorted

theorem filter_mergeSort {candidates names : List String} {test : String → Bool}
    (chosen : names.Perm (candidates.filter test))
    (ordered : names.Pairwise fun first second => ¬ second < first) :
    (candidates.mergeSort fun first second => !decide (second < first)).filter test = names := by
  apply List.Perm.eq_of_pairwise _ ((pairwise_mergeSort_not_lt candidates).filter test) ordered
  · exact ((List.mergeSort_perm candidates _).filter test).trans chosen.symm
  · intro first second _ _ before after
    exact String.le_antisymm before after

theorem FileMap.exists_list {files : FileMap} {path : String} (kind : files.kindOf path = .directory) :
    ∃ found, files.list path = .ok found := by
  cases located : files.locate path with
  | error e => simp [FileMap.kindOf, located] at kind
  | ok place => exact ⟨files.namesIn place, by rw [FileMap.list, located]; rfl⟩

theorem FileMap.exists_collected (files : FileMap) (paths : List String) :
    ∃ sources, files.Collected paths sources := by
  induction paths with
  | nil => exact ⟨[], .nil⟩
  | cons path rest ih =>
      obtain ⟨sources, more⟩ := ih
      by_cases kind : files.kindOf path = .directory
      · obtain ⟨found, listed⟩ := FileMap.exists_list kind
        exact ⟨_, .directory kind listed (List.mergeSort_perm _ _) (pairwise_mergeSort_not_lt _) more⟩
      · exact ⟨_, .file kind more⟩

namespace Desk

variable (desk : Desk)

theorem run_filterAuxM_kindOf (paths kept : List String) :
    (paths.filterAuxM (fun path => do return (← Workspace.kindOf path) == .file) kept : StateM Desk _).run desk =
      ((paths.filter (desk.files.kindOf · == .file)).reverse ++ kept, desk) := by
  induction paths generalizing kept with
  | nil => rfl
  | cons path rest ih =>
      rw [List.filterAuxM, run_bind, run_bind, run_kindOf, run_pure, ih]
      cases kind : desk.files.kindOf path == .file with
      | true => simp [kind]
      | false => simp [kind]

theorem run_filterM_kindOf (paths : List String) :
    (paths.filterM (fun path => do return (← Workspace.kindOf path) == .file) : StateM Desk _).run desk =
      (paths.filter (desk.files.kindOf · == .file), desk) := by
  rw [List.filterM, run_bind, run_filterAuxM_kindOf, run_pure]
  simp

theorem run_sourcesIn {path : String} {found names : List String} (listed : desk.files.list path = .ok found)
    (chosen : names.Perm (found.filter (desk.files.isSource path)))
    (ordered : names.Pairwise fun first second => ¬ second < first) :
    (Command.sourcesIn path : StateM Desk _).run desk = (.ok (names.map (Path.entry path)), desk) := by
  have refined : found.filter (desk.files.isSource path) =
      (found.filter (Path.extension? · == some sourceExtension)).filter
        (fun name => desk.files.kindOf (Path.entry path name) == .file) := by
    rw [List.filter_filter]
    apply List.filter_congr
    intro name _
    rw [FileMap.isSource, Bool.and_comm]
  rw [refined] at chosen
  simp only [Command.sourcesIn, run_bind, run_list, listed, run_filterM_kindOf, run_pure, List.filter_map,
    Function.comp_def, filter_mergeSort chosen ordered]

theorem run_collectSources {paths sources : List String} (collected : desk.files.Collected paths sources) :
    (Command.collectSources paths : StateM Desk _).run desk = (.ok sources, desk) := by
  induction collected with
  | nil => rfl
  | @file path rest sources kind more ih =>
      simp only [Command.collectSources, run_bind, run_kindOf]
      cases found : desk.files.kindOf path with
      | directory => contradiction
      | file => simp only [run_bind, run_pure, ih, Except.map, List.singleton_append]
      | missing => simp only [run_bind, run_pure, ih, Except.map, List.singleton_append]
  | directory kind listed chosen ordered more ih =>
      simp only [Command.collectSources, run_bind, run_kindOf, kind, desk.run_sourcesIn listed chosen ordered,
        run_pure, ih, Except.map]

end Desk

end Jack

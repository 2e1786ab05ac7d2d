import Jack.Proofs.Command.Steps

/-!
# Batches

The sources of a run do not depend on each other. What a run makes of a source and where it puts the result
is a matter of the files before the run: no output has the name of a source, so no source that is treated
later can tell which of the others were treated before.
-/

namespace Jack

/-! ## Successful sources -/

/-- The source at a path succeeds on its own: a text is made of it, for a file next to it. -/
inductive Command.Succeeds (command : Command) (files : FileMap) (path : String) (place : List String)
    (text : String) : Prop
  | intro {settings : Settings} {directory : List String} {stem source : String}
      (effective : command.Effective files settings)
      (located : files.locate path = .ok (directory ++ [stem ++ ".jack"]))
      (holds : files.Holds path source) (made : command.task.Makes settings source text)
      (placed : place = directory ++ [stem ++ command.task.ending settings])
      (free : command.toStdout = true ∨ files.lookup place ≠ some .directory) :
      Succeeds command files path place text

namespace Command

variable {command : Command} {files now : FileMap} {settings other : Settings} {path : String}

theorem Effective.unique (effective : command.Effective files settings)
    (again : command.Effective files other) : settings = other := by
  obtain ⟨result, _, iff⟩ := Desk.run_loadSettings { files } command
  obtain ⟨loaded, first, rfl⟩ := (iff settings).mp effective
  obtain ⟨loadedAgain, second, rfl⟩ := (iff other).mp again
  rw [Except.ok.inj (first.symm.trans second)]

theorem place_inj {directory other : List String} {stem base ending : String}
    (same : directory ++ [stem ++ ending] = other ++ [base ++ ending]) : directory = other ∧ stem = base := by
  obtain ⟨directories, names⟩ := List.append_inj' same rfl
  exact ⟨directories, (String.append_left_inj ending).mp (List.singleton_inj.mp names)⟩

theorem Succeeds.unique {second : String} {place : List String} {text again : String}
    (succeeds : command.Succeeds files path place text) (also : command.Succeeds files second place again) :
    text = again := by
  obtain ⟨effective, located, ⟨bytes, read, decoded⟩, made, placed, _⟩ := succeeds
  obtain ⟨effective', located', ⟨bytes', read', decoded'⟩, made', placed', _⟩ := also
  obtain rfl := effective.unique effective'
  -- The places are the same, so both paths lead to the same file.
  obtain ⟨rfl, rfl⟩ := place_inj (placed.symm.trans placed')
  obtain ⟨location, found, file⟩ := FileMap.read_eq_ok_iff.mp read
  obtain ⟨location', found', file'⟩ := FileMap.read_eq_ok_iff.mp read'
  obtain rfl := Except.ok.inj (located.symm.trans found)
  obtain rfl := Except.ok.inj (located'.symm.trans found')
  obtain rfl := Entry.file.inj (Option.some.inj (file.symm.trans file'))
  obtain rfl := Option.some.inj (decoded.symm.trans decoded')
  exact made.unique made'

theorem Succeeds.place_unique {place other : List String} {text again : String}
    (succeeds : command.Succeeds files path place text) (also : command.Succeeds files path other again) :
    place = other := by
  obtain ⟨effective, located, _, _, placed, _⟩ := succeeds
  obtain ⟨effective', located', _, _, placed', _⟩ := also
  obtain rfl := effective.unique effective'
  obtain ⟨rfl, rfl⟩ := place_inj (Except.ok.inj (located.symm.trans located'))
  exact placed.trans placed'.symm

theorem succeeds_iff_finds (effective : command.Effective files settings)
    (jack : Path.extension? (Path.lastName path) = some sourceExtension) {place : List String} {text : String} :
    command.Succeeds files path place text ↔
      ∃ directory bytes source, files.Finds path directory (Path.lastName path) bytes ∧
        String.fromUTF8? bytes = some source ∧ command.task.Makes settings source text ∧
        place = directory ++ [Path.stem (Path.lastName path) ++ command.task.ending settings] ∧
        (command.toStdout = true ∨ files.lookup place ≠ some .directory) := by
  have name : Path.lastName path = Path.stem (Path.lastName path) ++ ".jack" := by
    rw [show ".jack" = "." ++ sourceExtension from rfl, ← String.append_assoc]
    exact (Path.name_of_extension? jack).2
  constructor
  · rintro ⟨effective', located, ⟨bytes, read, decoded⟩, made, placed, free⟩
    obtain rfl := effective.unique effective'
    obtain ⟨directory, finds⟩ := FileMap.exists_finds read
    have found := finds.locate
    rw [name] at found
    obtain ⟨rfl, rfl⟩ := place_inj (Except.ok.inj (found.symm.trans located))
    exact ⟨directory, bytes, _, finds, decoded, made, placed, free⟩
  · rintro ⟨directory, bytes, source, finds, decoded, made, placed, free⟩
    refine ⟨effective, ?_, ⟨bytes, finds.read, decoded⟩, made, placed, free⟩
    rw [← name]
    exact finds.locate

/-! ## Runs over many sources -/

/-- What becomes of a source, told from the files before the run. -/
inductive Settles (command : Command) (files : FileMap) (path : String) (before after : Desk) : Bool → Prop
  | prints {place : List String} {text : String} (succeeds : command.Succeeds files path place text)
      (toStdout : command.toStdout = true) (kept : after.files = before.files)
      (printed : after.printed = before.printed ++ text) : Settles command files path before after true
  | writes {place : List String} {text : String} (succeeds : command.Succeeds files path place text)
      (toFile : command.toStdout = false) (free : ¬ before.files.IsDirectory place)
      (written : after.files = before.files.put place (.file text.toUTF8))
      (printed : after.printed = before.printed) : Settles command files path before after true
  | fails (fruitless : ∀ place text, ¬ command.Succeeds files path place text)
      (kept : after.files = before.files) (printed : after.printed = before.printed) :
      Settles command files path before after false

theorem reaches_outputPath {directory : List String} {name : String} {bytes : ByteArray}
    (finds : files.Finds path directory name bytes) (settings : Settings) (task : Task) :
    files.Reaches (task.outputPath settings path) directory (Path.stem name ++ task.ending settings) := by
  rw [Task.outputPath_eq, finds.fileName]
  apply finds.sibling
  have plain : '/' ∉ name.toList := by
    obtain ⟨front, split, _⟩ := finds.way
    apply Path.slash_not_mem_of_mem_parts
    rw [split]
    exact List.mem_append_right front (List.mem_singleton_self _)
  obtain ⟨rest, whole⟩ := Path.exists_stem_append name
  rw [whole, List.mem_append, not_or] at plain
  rw [String.toList_append, List.mem_append, not_or]
  exact ⟨plain.1, Task.slash_not_mem_ending settings task⟩

/-- What was written before a source is treated makes no difference to it. -/
theorem Treats.settles {before after : Desk} {success : Bool}
    (treats : command.Treats settings path before after success) (effective : command.Effective files settings)
    (jack : Path.extension? (Path.lastName path) = some sourceExtension) (varies : files.Varies before.files) :
    command.Settles files path before after success := by
  cases treats with
  | fruitless nothing kept printed =>
      refine .fails ?_ kept printed
      intro place text succeeds
      obtain ⟨directory, bytes, source, finds, decoded, made, _⟩ :=
        (succeeds_iff_finds effective jack).mp succeeds
      exact nothing source text ⟨bytes, (finds.of_varies varies jack).read, decoded⟩ made
  | @fruitful source text _ holds made delivers =>
      obtain ⟨bytes, read, decoded⟩ := holds
      obtain ⟨directory, finds⟩ := FileMap.exists_finds read
      -- The source is the same file as before the run: no output has its name.
      have finds_first := finds.of_varies varies.symm jack
      have reaches := reaches_outputPath finds settings command.task
      have succeeds {place : List String}
          (placed : place = directory ++ [Path.stem (Path.lastName path) ++ command.task.ending settings])
          (free : command.toStdout = true ∨ files.lookup place ≠ some .directory) :
          command.Succeeds files path place text :=
        (succeeds_iff_finds effective jack).mpr
          ⟨directory, bytes, source, finds_first, decoded, made, placed, free⟩
      cases delivers with
      | prints toStdout kept printed => exact .prints (succeeds rfl (.inl toStdout)) toStdout kept printed
      | writes toFile written printed =>
          obtain ⟨free, written⟩ := reaches.write_eq_ok_iff.mp written
          refine .writes (succeeds rfl (.inr ?_)) toFile free written printed
          intro taken
          exact free ((varies.directories _).mp taken)
      | blocked toFile refused kept printed =>
          -- Outputs are files, so the directory in the way was there before the run.
          have taken := (varies.directories _).mpr (reaches.lookup_of_write_eq_error refused)
          refine .fails ?_ kept printed
          intro place text succeeds
          obtain ⟨_, _, _, found, _, _, rfl, free⟩ := (succeeds_iff_finds effective jack).mp succeeds
          rw [toFile, ← finds_first.unique found] at free
          exact free.elim Bool.false_ne_true (absurd taken)

/-- No output has the name of a source, and none stands where a directory was. -/
theorem Settles.varies {before after : Desk} {success : Bool}
    (settles : command.Settles files path before after success)
    (jack : Path.extension? (Path.lastName path) = some sourceExtension) (varies : files.Varies before.files) :
    files.Varies after.files := by
  cases settles with
  | prints _ _ kept _ => rwa [kept]
  | fails _ kept _ => rwa [kept]
  | writes succeeds _ free written _ =>
      obtain ⟨effective, _⟩ := id succeeds
      obtain ⟨directory, _, _, _, _, _, rfl, _⟩ := (succeeds_iff_finds effective jack).mp succeeds
      rw [written]
      exact varies.put (Task.extension?_ending (Path.name_of_extension? jack).1 _ _) free _

/-- Sources are settled one after another. -/
inductive SettlesAll (command : Command) (files : FileMap) :
    Desk → List String → List Bool → Desk → Prop
  | nil {desk : Desk} : SettlesAll command files desk [] [] desk
  | cons {before middle after : Desk} {path : String} {rest : List String} {success : Bool}
      {successes : List Bool} (first : command.Settles files path before middle success)
      (later : SettlesAll command files middle rest successes after) :
      SettlesAll command files before (path :: rest) (success :: successes) after

theorem run_mapM_treat (effective : command.Effective files settings) {sources : List String}
    (jack : ∀ path ∈ sources, Path.extension? (Path.lastName path) = some sourceExtension)
    {before : Desk} (varies : files.Varies before.files) :
    ∃ successes after,
      (sources.mapM (command.treat settings) : StateM Desk (List Bool)).run before = (successes, after) ∧
      command.SettlesAll files before sources successes after := by
  induction sources generalizing before with
  | nil => exact ⟨[], before, rfl, .nil⟩
  | cons path rest ih =>
      obtain ⟨success, middle, run, treats⟩ := before.run_treat command settings path
      obtain ⟨here, others⟩ := List.forall_mem_cons.mp jack
      have settles := treats.settles effective here varies
      obtain ⟨successes, after, onward, later⟩ := ih others (settles.varies here varies)
      refine ⟨success :: successes, after, ?_, .cons settles later⟩
      rw [List.mapM_cons, Desk.run_bind, run, Desk.run_bind, onward, Desk.run_pure]

/-- The texts of the sources that succeed, one after another. -/
inductive Prints (command : Command) (files : FileMap) : List String → String → Prop
  | nil : Prints command files [] ""
  | succeeds {path : String} {rest place : List String} {text more : String}
      (succeeds : command.Succeeds files path place text) (later : Prints command files rest more) :
      Prints command files (path :: rest) (text ++ more)
  | fails {path : String} {rest : List String} {more : String}
      (fruitless : ∀ place text, ¬ command.Succeeds files path place text)
      (later : Prints command files rest more) : Prints command files (path :: rest) more

namespace SettlesAll

variable {before after : Desk} {sources : List String} {successes : List Bool}

theorem all_iff (settles : command.SettlesAll files before sources successes after) :
    successes.all id = true ↔ ∀ path ∈ sources, ∃ place text, command.Succeeds files path place text := by
  induction settles with
  | nil => simp
  | cons first later ih =>
      rw [List.all_cons, Bool.and_eq_true, ih, List.forall_mem_cons]
      apply and_congr_left'
      cases first with
      | prints succeeds => exact iff_of_true rfl ⟨_, _, succeeds⟩
      | writes succeeds => exact iff_of_true rfl ⟨_, _, succeeds⟩
      | fails fruitless =>
          refine iff_of_false Bool.false_ne_true ?_
          rintro ⟨place, text, succeeds⟩
          exact fruitless place text succeeds

theorem printed (settles : command.SettlesAll files before sources successes after)
    (toStdout : command.toStdout = true) :
    after.files = before.files ∧
      ∃ text, command.Prints files sources text ∧ after.printed = before.printed ++ text := by
  induction settles with
  | nil => exact ⟨rfl, "", .nil, by simp⟩
  | cons first later ih =>
      obtain ⟨kept, text, prints, printed⟩ := ih
      cases first with
      | prints succeeds _ kept_first printed_first =>
          refine ⟨kept.trans kept_first, _, .succeeds succeeds prints, ?_⟩
          rw [printed, printed_first, String.append_assoc]
      | writes _ toFile => simp [toStdout] at toFile
      | fails fruitless kept_first printed_first =>
          exact ⟨kept.trans kept_first, text, .fails fruitless prints, by rw [printed, printed_first]⟩

theorem unprinted (settles : command.SettlesAll files before sources successes after)
    (toFile : command.toStdout = false) : after.printed = before.printed := by
  induction settles with
  | nil => rfl
  | cons first later ih =>
      cases first with
      | prints _ toStdout => simp [toFile] at toStdout
      | writes _ _ _ _ printed => exact ih.trans printed
      | fails _ _ printed => exact ih.trans printed

theorem lookup_of_not (settles : command.SettlesAll files before sources successes after)
    {place : List String} (free : ∀ path ∈ sources, ∀ text, ¬ command.Succeeds files path place text) :
    after.files.lookup place = before.files.lookup place := by
  induction settles with
  | nil => rfl
  | cons first later ih =>
      rw [ih fun path member => free path (List.mem_cons_of_mem _ member)]
      cases first with
      | prints _ _ kept _ => rw [kept]
      | fails _ kept _ => rw [kept]
      | writes succeeds _ _ written _ =>
          rw [written, FileMap.lookup_put_of_ne]
          rintro rfl
          exact free _ List.mem_cons_self _ succeeds

theorem lookup_of_succeeds (settles : command.SettlesAll files before sources successes after)
    (toFile : command.toStdout = false) {place : List String} {text : String}
    (some_succeeds : ∃ path ∈ sources, command.Succeeds files path place text) :
    after.files.lookup place = some (.file text.toUTF8) := by
  induction settles with
  | nil => simp at some_succeeds
  | @cons before middle after head rest success successes first later ih =>
      -- The last source with this output decides what is there, and all of them have the same text.
      by_cases again : ∃ path ∈ rest, command.Succeeds files path place text
      · exact ih again
      · obtain ⟨path, member, succeeds⟩ := some_succeeds
        cases List.mem_cons.mp member with
        | inr member => exact absurd ⟨path, member, succeeds⟩ again
        | inl here =>
            subst here
            have untouched : after.files.lookup place = middle.files.lookup place := by
              apply later.lookup_of_not
              intro other member text' succeeds'
              obtain rfl := succeeds.unique succeeds'
              exact again ⟨other, member, succeeds'⟩
            rw [untouched]
            cases first with
            | prints _ toStdout => simp [toFile] at toStdout
            | fails fruitless => exact absurd succeeds (fruitless place text)
            | writes succeeds' _ free written _ =>
                obtain rfl := succeeds.place_unique succeeds'
                obtain rfl := succeeds.unique succeeds'
                rw [written, FileMap.lookup_put_self free]

end SettlesAll

/-! ## Whole runs -/

/-- What a run comes to: a matter of which sources succeed on their own. -/
structure Accomplishes (command : Command) (files : FileMap) (sources : List String) (code : Nat)
    (after : Desk) : Prop where
  zero_or_one : code = 0 ∨ code = 1
  zero_iff : code = 0 ↔
    sources ≠ [] ∧ ∀ path ∈ sources, ∃ place text, command.Succeeds files path place text
  toStdout : command.toStdout = true → after.files = files ∧ command.Prints files sources after.printed
  toFiles : command.toStdout = false → after.printed = "" ∧
    (∀ path ∈ sources, ∀ place text, command.Succeeds files path place text →
      after.files.lookup place = some (.file text.toUTF8)) ∧
    ∀ place, (∀ path ∈ sources, ∀ text, ¬ command.Succeeds files path place text) →
      after.files.lookup place = files.lookup place

variable {sources : List String} {after : Desk}

theorem SettlesAll.accomplishes {successes : List Bool}
    (settles : command.SettlesAll files { files } sources successes after) (some_source : sources ≠ []) :
    command.Accomplishes files sources (if successes.all id then 0 else 1) after where
  zero_or_one := by
    cases successes.all id with
    | true => exact .inl rfl
    | false => exact .inr rfl
  zero_iff := by
    rw [← settles.all_iff, and_iff_right some_source]
    cases successes.all id with
    | true => simp
    | false => simp
  toStdout toStdout := by
    obtain ⟨kept, text, prints, printed⟩ := settles.printed toStdout
    refine ⟨kept, ?_⟩
    rw [printed]
    simpa using prints
  toFiles toFile := ⟨settles.unprinted toFile,
    fun path member _ _ succeeds => settles.lookup_of_succeeds toFile ⟨path, member, succeeds⟩,
    fun _ free => settles.lookup_of_not free⟩

theorem prints_nothing
    (fruitless : ∀ path ∈ sources, ∀ place text, ¬ command.Succeeds files path place text) :
    command.Prints files sources "" := by
  induction sources with
  | nil => exact .nil
  | cons path rest ih =>
      exact .fails (fruitless path List.mem_cons_self)
        (ih fun other member => fruitless other (List.mem_cons_of_mem _ member))

theorem accomplishes_nothing
    (fruitless : ∀ path ∈ sources, ∀ place text, ¬ command.Succeeds files path place text)
    (kept : after.files = files) (printed : after.printed = "") :
    command.Accomplishes files sources 1 after where
  zero_or_one := .inr rfl
  zero_iff := by
    refine iff_of_false Nat.one_ne_zero ?_
    rintro ⟨some_source, all⟩
    obtain ⟨path, member⟩ := List.exists_mem_of_ne_nil sources some_source
    obtain ⟨place, text, succeeds⟩ := all path member
    exact fruitless path member place text succeeds
  toStdout _ := ⟨kept, printed ▸ prints_nothing fruitless⟩
  toFiles _ := by
    refine ⟨printed, ?_, fun place _ => by rw [kept]⟩
    intro path member place text succeeds
    exact absurd succeeds (fruitless path member place text)

theorem run_accomplishes (collected : files.Collected command.paths sources)
    (jack : ∀ path ∈ sources, Path.extension? (Path.lastName path) = some sourceExtension) :
    ∃ code after, (command.run : StateM Desk Nat).run { files } = (code, after) ∧
      command.Accomplishes files sources code after := by
  obtain ⟨loaded, loading, effective_iff⟩ := Desk.run_loadSettings { files } command
  have collecting := Desk.run_collectSources { files } collected
  cases loaded with
  | error notice =>
      obtain ⟨notices, said⟩ := Desk.run_say { files } command notice
      refine ⟨1, { files, notices }, ?_, ?_⟩
      · simp only [Command.run, Desk.run_bind, loading, said, Desk.run_pure]
      · refine accomplishes_nothing ?_ rfl rfl
        rintro path _ place text ⟨effective, _⟩
        obtain ⟨_, loaded, _⟩ := (effective_iff _).mp effective
        contradiction
  | ok settings =>
      cases sources with
      | nil =>
          obtain ⟨notices, said⟩ := Desk.run_say { files } command .noSources
          refine ⟨1, { files, notices }, ?_, accomplishes_nothing (by simp) rfl rfl⟩
          simp only [Command.run, Desk.run_bind, loading, collecting, said, Desk.run_pure]
      | cons path rest =>
          have effective := (effective_iff _).mpr ⟨settings, rfl, rfl⟩
          obtain ⟨successes, treated, treating, settles⟩ :=
            run_mapM_treat effective jack (FileMap.Varies.refl (Desk.files { files }))
          obtain ⟨notices, said⟩ := treated.run_say command (.done (path :: rest).length (successes.all id))
          have result := settles.accomplishes (List.cons_ne_nil path rest)
          refine ⟨if successes.all id then 0 else 1, { treated with notices := notices }, ?_,
            result.zero_or_one, result.zero_iff, result.toStdout, result.toFiles⟩
          simp only [Command.run, Command.treatAll, Desk.run_bind, loading, collecting, treating, said,
            Desk.run_pure]

end Command

/-- Each source of a run succeeds or fails on its own, and the run succeeds if it has sources and all of them
succeed. -/
theorem runArguments_independent {arguments : List String} {command : Command}
    (accepted : Command.ofArguments arguments = .ok command) (files : FileMap) :
    (∃ sources, files.Collected command.paths sources) ∧
    ∀ sources, files.Collected command.paths sources →
      (∀ path ∈ sources, Path.extension? (Path.lastName path) = some sourceExtension) →
      ∃ code after, (runArguments arguments : StateM Desk Nat).run { files } = (code, after) ∧
        command.Accomplishes files sources code after := by
  refine ⟨files.exists_collected command.paths, ?_⟩
  intro sources collected jack
  have run_eq : (runArguments arguments : StateM Desk Nat) = command.run := by rw [runArguments, accepted]
  rw [run_eq]
  exact Command.run_accomplishes collected jack

/-- A source and one that is no text, in a directory of the working directory. -/
def mixedFiles : FileMap where
  entries := [(["w", "d"], .directory), (["w", "d", "B.jack"], .file ⟨#[0xff]⟩),
    (["w", "d", "A.jack"], .file "do".toUTF8)]
  home := ["w"]

def mixedCommand : Command := { task := .tokens, paths := ["/w/d", "../w/Lost.jack"], lf := true }

theorem runArguments_independent_mixedFiles :
    Command.ofArguments ["tokens", "--lf", "/w/d", "../w/Lost.jack"] = .ok mixedCommand ∧
    mixedFiles.Collected mixedCommand.paths ["/w/d/A.jack", "/w/d/B.jack", "../w/Lost.jack"] ∧
    (∀ path ∈ ["/w/d/A.jack", "/w/d/B.jack", "../w/Lost.jack"],
      Path.extension? (Path.lastName path) = some sourceExtension) ∧
    ∃ after,
      (runArguments ["tokens", "--lf", "/w/d", "../w/Lost.jack"] : StateM Desk Nat).run { files := mixedFiles } =
        (1, after) ∧
      after.files.lookup ["w", "d", "AT.xml"] =
        some (.file (Token.listing .lf [⟨.keyword .do, "do", ⟨0, 2, 1⟩⟩]).toUTF8) := by
  have accepted : Command.ofArguments ["tokens", "--lf", "/w/d", "../w/Lost.jack"] = .ok mixedCommand := by
    decide +kernel
  have collected : mixedFiles.Collected mixedCommand.paths
      (["A.jack", "B.jack"].map (Path.entry "/w/d") ++ ["../w/Lost.jack"]) :=
    .directory rfl rfl (by decide +kernel) (by decide +kernel) (.file (by decide +kernel) .nil)
  have named : ∀ path ∈ ["/w/d/A.jack", "/w/d/B.jack", "../w/Lost.jack"],
      Path.extension? (Path.lastName path) = some sourceExtension := by decide +kernel
  have succeeds : mixedCommand.Succeeds mixedFiles "/w/d/A.jack" ["w", "d", "AT.xml"]
      (Token.listing .lf [⟨.keyword .do, "do", ⟨0, 2, 1⟩⟩]) := by
    have held : mixedFiles.Holds "/w/d/A.jack" "do" := ⟨"do".toUTF8, rfl, by decide +kernel⟩
    have scanned : Token.scan "do" = .ok [⟨.keyword .do, "do", ⟨0, 2, 1⟩⟩] := by decide +kernel
    have located : mixedFiles.locate "/w/d/A.jack" = .ok (["w", "d"] ++ ["A" ++ ".jack"]) := by
      decide +kernel
    have absent : mixedFiles.lookup ["w", "d", "AT.xml"] = none := rfl
    exact ⟨.default (by decide +kernel), located, held, .tokens scanned, by decide +kernel,
      .inr (by simp [absent])⟩
  obtain ⟨code, after, run, result⟩ := (runArguments_independent accepted mixedFiles).2 _ collected named
  have one : code = 1 := by
    apply result.zero_or_one.resolve_left
    intro zero
    obtain ⟨_, all⟩ := result.zero_iff.mp zero
    obtain ⟨place, text, _, _, ⟨bytes, read, _⟩, _⟩ := all "../w/Lost.jack" (by decide +kernel)
    contradiction
  rw [one] at run
  have written := (result.toFiles rfl).2.1 "/w/d/A.jack" (by decide +kernel) _ _ succeeds
  exact ⟨accepted, collected, named, after, run, written⟩

/-- A directory without sources in the working directory. -/
def emptyDirectory : FileMap where
  entries := [(["w", "d"], .directory)]
  home := ["w"]

theorem runArguments_emptyDirectory :
    Command.ofArguments ["parse", "d"] = .ok { task := .parse, paths := ["d"] } ∧
    emptyDirectory.Collected ["d"] [] ∧
    ¬ (((runArguments ["parse", "d"] : StateM Desk Nat).run { files := emptyDirectory }).1 = 0 ↔
      ∀ path ∈ ([] : List String), ∃ place text,
        Command.Succeeds { task := .parse, paths := ["d"] } emptyDirectory path place text) := by
  refine ⟨rfl, ?_, ?_⟩
  · exact .directory (by decide +kernel) rfl List.Perm.nil .nil .nil
  · have code : ((runArguments ["parse", "d"] : StateM Desk Nat).run { files := emptyDirectory }).1 = 1 := by
      decide +kernel
    rw [code]
    simp

end Jack

import Jack.Proofs.Command.Sources

/-!
# Treating one source

What a run does with one source: it fails and leaves files and output alone, or it prints one text, or it
writes one file.
-/

namespace Jack

namespace Task

/-- What a task makes of a source text. -/
inductive Makes (settings : Settings) (source : String) : Task → String → Prop
  | parse {parsed : Parsed} (read : parseSource settings source = .ok parsed) :
      Makes settings source .parse (settings.emit parsed.tree)
  | tokens {tokens : List Token} (scanned : Token.scan source = .ok tokens) :
      Makes settings source .tokens (Token.listing settings.lineEnding tokens)

/-- What stands behind the stem of a source in the name of its output. -/
def ending (settings : Settings) : Task → String
  | .parse => "." ++ settings.format.extension
  | .tokens => "T.xml"

variable {settings : Settings} {source text other : String} {task : Task}

theorem Makes.unique (made : task.Makes settings source text) (again : task.Makes settings source other) :
    text = other := by
  cases made with
  | parse read =>
      cases again with
      | parse twice =>
          obtain rfl := Except.ok.inj (read.symm.trans twice)
          rfl
  | tokens scanned =>
      cases again with
      | tokens twice =>
          obtain rfl := Except.ok.inj (scanned.symm.trans twice)
          rfl

theorem result_work_parse (settings : Settings) (path source : String) :
    (work settings path source .parse).result =
      (parseSource settings source).map fun parsed => settings.emit parsed.tree := by
  cases scanned : Token.scan source with
  | error d =>
      rw [parseSource_of_fault scanned]
      simp only [work, TokenStream.ofSource, scanned, Except.map]
  | ok tokens =>
      rw [parseSource_of_scan scanned]
      simp only [work, TokenStream.ofSource, scanned, Except.map]
      cases (parseClass settings.maxDepth ⟨tokens, .endOf source⟩).result with
      | error d => rfl
      | ok tree => rfl

theorem map_eq_ok_iff {α β : Type} {result : Except Diagnostic α} {f : α → β} {value : β} :
    result.map f = .ok value ↔ ∃ original, result = .ok original ∧ f original = value := by
  cases result with
  | error d => simp [Except.map]
  | ok original => simp [Except.map]

theorem result_work_eq_ok_iff (path : String) :
    (task.work settings path source).result = .ok text ↔ task.Makes settings source text := by
  cases task with
  | parse =>
      rw [result_work_parse, map_eq_ok_iff]
      constructor
      · rintro ⟨parsed, read, rfl⟩
        exact .parse read
      · intro made
        cases made with
        | parse read => exact ⟨_, read, rfl⟩
  | tokens =>
      rw [work, map_eq_ok_iff]
      constructor
      · rintro ⟨tokens, scanned, rfl⟩
        exact .tokens scanned
      · intro made
        cases made with
        | tokens scanned => exact ⟨_, scanned, rfl⟩

theorem outputPath_eq (settings : Settings) (path : String) (task : Task) :
    task.outputPath settings path = Path.sibling path (Path.stem (Path.fileName path) ++ task.ending settings) := by
  cases task with
  | parse => simp [outputPath, ending, String.join, String.append_assoc]
  | tokens => simp [outputPath, ending, String.join]

theorem extension?_ending {stem : String} (some_stem : stem ≠ "") (settings : Settings) (task : Task) :
    Path.extension? (stem ++ task.ending settings) ≠ some sourceExtension := by
  cases task with
  | parse =>
      have plain : '.' ∉ settings.format.extension.toList := by cases settings.format <;> decide
      rw [ending, ← String.append_assoc, Path.extension?_append some_stem plain]
      cases settings.format <;> decide
  | tokens =>
      have split : stem ++ "T.xml" = stem ++ "T" ++ "." ++ "xml" := by simp [String.append_assoc]
      rw [ending, split, Path.extension?_append (by simp) (by decide)]
      decide

theorem slash_not_mem_ending (settings : Settings) (task : Task) : '/' ∉ (task.ending settings).toList := by
  cases task with
  | parse => cases format : settings.format <;> simp [ending, format, OutputFormat.extension]
  | tokens => simp [ending]

end Task

/-! ## Steps -/

namespace Command

variable {command : Command} {settings : Settings} {path : String}

/-- What becomes of a text: it is printed, or written to a file if that is possible. -/
inductive Delivers (command : Command) (path text : String) (before after : Desk) : Bool → Prop
  | prints (toStdout : command.toStdout = true) (files : after.files = before.files)
      (printed : after.printed = before.printed ++ text) : Delivers command path text before after true
  | writes (toFile : command.toStdout = false)
      (files : before.files.write path text.toUTF8 = .ok after.files)
      (printed : after.printed = before.printed) : Delivers command path text before after true
  | blocked {error : FileError} (toFile : command.toStdout = false)
      (refused : before.files.write path text.toUTF8 = .error error) (files : after.files = before.files)
      (printed : after.printed = before.printed) : Delivers command path text before after false

/-- What becomes of a source: nothing, or a text is made of it and delivered. -/
inductive Treats (command : Command) (settings : Settings) (path : String) (before after : Desk) : Bool → Prop
  | fruitless (nothing : ∀ source text, before.files.Holds path source → ¬ command.task.Makes settings source text)
      (files : after.files = before.files) (printed : after.printed = before.printed) :
      Treats command settings path before after false
  | fruitful {source text : String} {success : Bool} (holds : before.files.Holds path source)
      (made : command.task.Makes settings source text)
      (delivers : command.Delivers (command.task.outputPath settings path) text before after success) :
      Treats command settings path before after success

theorem Delivers.of_notices {path text : String} {before after : Desk} {success : Bool} {notices : List Notice}
    (delivers : command.Delivers path text { before with notices := notices } after success) :
    command.Delivers path text before after success := by
  cases delivers with
  | prints toStdout files printed => exact .prints toStdout files printed
  | writes toFile files printed => exact .writes toFile files printed
  | blocked toFile refused files printed => exact .blocked toFile refused files printed

end Command

namespace Desk

variable (desk : Desk)

theorem run_say (command : Command) (notice : Notice) :
    ∃ notices, (command.say notice : StateM Desk Unit).run desk = ((), { desk with notices := notices }) := by
  by_cases shown : notice.isShown command.verbosity = true
  · refine ⟨desk.notices ++ [notice], ?_⟩
    rw [Command.say, if_pos shown, run_tell]
  · refine ⟨desk.notices, ?_⟩
    rw [Command.say, if_neg shown, run_pure]

theorem run_forM_say (command : Command) (said : List Notice) :
    ∃ notices, (said.forM command.say : StateM Desk Unit).run desk = ((), { desk with notices := notices }) := by
  induction said generalizing desk with
  | nil => exact ⟨desk.notices, rfl⟩
  | cons notice rest ih =>
      obtain ⟨first, run⟩ := desk.run_say command notice
      obtain ⟨notices, onward⟩ := ih { desk with notices := first }
      refine ⟨notices, ?_⟩
      simp only [List.forM_eq_forM, List.forM_cons] at onward ⊢
      rw [run_bind, run, onward]

theorem run_deliver (command : Command) (path text : String) :
    ∃ success after, (command.deliver path text : StateM Desk Bool).run desk = (success, after) ∧
      command.Delivers path text desk after success := by
  cases toStdout : command.toStdout with
  | true =>
      refine ⟨true, { desk with printed := desk.printed ++ text }, ?_, .prints toStdout rfl rfl⟩
      simp only [Command.deliver, toStdout, if_true, run_bind, run_print, run_pure]
  | false =>
      cases write : desk.files.write path text.toUTF8 with
      | ok files =>
          obtain ⟨notices, said⟩ := run_say { desk with files := files } command (.wrote path)
          refine ⟨true, { desk with files := files, notices := notices }, ?_, .writes toStdout write rfl⟩
          simp only [Command.deliver, toStdout, Bool.false_eq_true, if_false, run_bind, run_write, write, said,
            run_pure]
      | error e =>
          obtain ⟨notices, said⟩ := desk.run_say command (.outputUnwritable path e)
          refine ⟨false, { desk with notices := notices }, ?_, .blocked toStdout write rfl rfl⟩
          simp only [Command.deliver, toStdout, Bool.false_eq_true, if_false, run_bind, run_write, write, said,
            run_pure]

theorem run_treat (command : Command) (settings : Settings) (path : String) :
    ∃ success after, (command.treat settings path : StateM Desk Bool).run desk = (success, after) ∧
      command.Treats settings path desk after success := by
  obtain ⟨read, run, holds⟩ := desk.run_readText path
  cases read with
  | error e =>
      obtain ⟨notices, said⟩ := desk.run_say command (.sourceUnreadable path e)
      refine ⟨false, { desk with notices := notices }, ?_, .fruitless ?_ rfl rfl⟩
      · simp only [Command.treat, run_bind, run, said, run_pure]
      · intro source text held
        simpa using (holds source).mpr held
  | ok source =>
      have held : desk.files.Holds path source := (holds source).mp rfl
      obtain ⟨heard, told⟩ := desk.run_forM_say command (command.task.work settings path source).notices
      cases result : (command.task.work settings path source).result with
      | error d =>
          obtain ⟨notices, said⟩ :=
            run_say { desk with notices := heard } command (.diagnosed d command.longReports)
          refine ⟨false, { desk with notices := notices }, ?_, .fruitless ?_ rfl rfl⟩
          · simp only [Command.treat, run_bind, run, told, result, said, run_pure]
          · intro other text held made
            obtain rfl := Except.ok.inj ((holds other).mpr held)
            rw [← Task.result_work_eq_ok_iff path, result] at made
            contradiction
      | ok text =>
          have made := (Task.result_work_eq_ok_iff path).mp result
          obtain ⟨success, after, delivered, delivers⟩ :=
            run_deliver { desk with notices := heard } command (command.task.outputPath settings path) text
          refine ⟨success, after, ?_, .fruitful held made delivers.of_notices⟩
          simp only [Command.treat, run_bind, run, told, result, delivered]

end Desk

end Jack

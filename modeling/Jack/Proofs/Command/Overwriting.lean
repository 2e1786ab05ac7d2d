import Jack.Proofs.Command.Batch
import Jack.Proofs.Trace.Injectivity
import Jack.Proofs.Trace.OneLineEach
import Mathlib.Data.List.Induction

/-!
# Outputs in the place of sources

The output for a source is named after it and lies next to it. Where the name is that of a source of the same
run, the source is written over, and nothing keeps a run from doing so: a run spares its sources if and only if
no output goes where a source stands, or else with the very text that is there.
-/

namespace Jack

/-- The path names the place, whether or not there is anything at it. -/
def FileMap.Names (files : FileMap) (path : String) (place : List String) : Prop :=
  ∃ directory name, files.Reaches path directory name ∧ place = directory ++ [name]

/-- A text is made of the source at a path, and the place for it is not taken by a directory. -/
inductive Command.Outputs (command : Command) (settings : Settings) (files : FileMap) (path : String)
    (place : List String) (text : String) : Prop
  | intro {directory : List String} {name source : String} {bytes : ByteArray}
      (finds : files.Finds path directory name bytes) (decoded : String.fromUTF8? bytes = some source)
      (made : command.task.Makes settings source text)
      (placed : place = directory ++ [Path.stem name ++ command.task.ending settings])
      (free : files.lookup place ≠ some .directory) : Outputs command settings files path place text

/-! ## Outputs are no sources -/

theorem Trace.Item.markup_eq_cons (item : Item) : ∃ rest, item.markup.toList = '<' :: rest := by
  cases item with
  | opening rule => simp [markup, Markup.openTag]
  | closing rule => simp [markup, Markup.closeTag]
  | token token => simp [markup, Token.markup, Markup.element, Markup.openTag]

theorem Node.trace_eq_cons (tree : Node) : ∃ first rest, tree.trace = first :: rest := by
  cases tree with
  | leaf token => exact ⟨_, _, rfl⟩
  | branch rule children => exact ⟨_, _, rfl⟩

theorem Json.pretty_object_eq_cons (fields : List (String × Json)) :
    ∃ rest, (object fields).pretty.toList = '\x7b' :: rest := by
  rw [pretty, String.toList_join]
  cases fields with
  | nil => simp [prettyPieces]
  | cons first more => simp [prettyPieces]

theorem Node.toJson_eq_object (tree : Node) : ∃ fields, tree.toJson = .object fields := by
  cases tree with
  | leaf token => exact ⟨_, rfl⟩
  | branch rule children => exact ⟨_, rfl⟩

theorem Settings.emit_eq_cons (settings : Settings) (tree : Node) :
    ∃ sign rest, sign ≠ Symbol.slash ∧ (settings.emit tree).toList = sign.char :: rest := by
  rw [emit]
  cases settings.format with
  | xml =>
      obtain ⟨item, items, trace⟩ := tree.trace_eq_cons
      obtain ⟨rest, markup⟩ := item.markup_eq_cons
      simp only [Node.render, Trace.render, Markup.toList_lines, trace, List.map_cons, List.flatMap_cons, markup]
      exact ⟨.lt, _, by decide, rfl⟩
  | json =>
      obtain ⟨fields, object⟩ := tree.toJson_eq_object
      obtain ⟨rest, text⟩ := Json.pretty_object_eq_cons fields
      rw [← object] at text
      exact ⟨.lBrace, rest, by decide, text⟩

theorem parseSource_opens {settings : Settings} {source : String} {parsed : Parsed}
    (read : parseSource settings source = .ok parsed) :
    ∃ token rest, Token.scan source = .ok (token :: rest) ∧ token.kind = .keyword .class := by
  obtain ⟨tokens, scanned, ⟨label, derived⟩, starts⟩ := parseSource_eq_ok read
  rcases derived.opens .class label with ⟨_, empty⟩ | ⟨token, rest, read, member⟩
  · contradiction
  · obtain ⟨after, rfl⟩ := starts
    rw [read] at scanned
    exact ⟨token, rest ++ after, scanned, List.mem_singleton.mp member⟩

theorem parseSource_emit_ne_ok (settings other : Settings) (tree : Node) (parsed : Parsed) :
    parseSource other (settings.emit tree) ≠ .ok parsed := by
  intro read
  obtain ⟨token, tokens, scanned, kind⟩ := parseSource_opens read
  obtain ⟨sign, rest, other, starts⟩ := settings.emit_eq_cons tree
  rw [Token.scan, starts, Token.scanFrom_of_token (Piece.first_symbol other rest)] at scanned
  obtain ⟨_, _, same⟩ := Task.map_eq_ok_iff.mp scanned
  obtain ⟨rfl, _⟩ := List.cons.inj same
  contradiction

theorem fromUTF8?_toUTF8 (text : String) : String.fromUTF8? text.toUTF8 = some text := by
  simp only [String.fromUTF8?, String.toUTF8_eq_toByteArray, dif_pos text.isValidUTF8]
  rfl

/-! ## Maps that differ in files only -/

namespace FileMap

variable {files now : FileMap} {path : String} {place other : List String} {bytes : ByteArray}

theorem Names.of_sameDirectories (names : files.Names path place) (same : files.SameDirectories now) :
    now.Names path place := by
  obtain ⟨directory, name, reaches, placed⟩ := names
  exact ⟨directory, name, reaches.of_sameDirectories same, placed⟩

theorem Names.unique (names : files.Names path place) (also : files.Names path other) : place = other := by
  obtain ⟨directory, name, reaches, rfl⟩ := names
  obtain ⟨directory', name', reaches', rfl⟩ := also
  obtain ⟨front, split, leads⟩ := reaches.way
  obtain ⟨front', split', leads'⟩ := reaches'.way
  obtain ⟨rfl, last⟩ := List.append_inj' (split.symm.trans split') rfl
  rw [Except.ok.inj (leads.follow.symm.trans leads'.follow), last]

section

variable {directory : List String} {name : String}

theorem Finds.names (finds : files.Finds path directory name bytes) : files.Names path (directory ++ [name]) :=
  ⟨directory, name, finds.toReaches, rfl⟩

theorem Finds.of_kept (finds : files.Finds path directory name bytes) (same : files.SameDirectories now)
    (kept : ∀ place, files.Names path place → now.lookup place = files.lookup place) :
    now.Finds path directory name bytes where
  toReaches := finds.toReaches.of_sameDirectories same
  heard := finds.heard
  inward := finds.inward
  file := by rw [kept _ finds.names, finds.file]

end

theorem read_of_kept (same : files.SameDirectories now)
    (kept : ∀ place, files.Names path place → now.lookup place = files.lookup place) :
    now.read path = .ok bytes ↔ files.read path = .ok bytes := by
  constructor
  · intro read
    obtain ⟨directory, finds⟩ := exists_finds read
    have back : ∀ place, now.Names path place → files.lookup place = now.lookup place := fun place names =>
      (kept place (names.of_sameDirectories same.symm)).symm
    exact (finds.of_kept same.symm back).read
  · intro read
    obtain ⟨directory, finds⟩ := exists_finds read
    exact (finds.of_kept same kept).read

end FileMap

namespace Command

variable {command : Command} {settings : Settings} {files now : FileMap} {path : String} {place : List String}
  {text : String} {sources : List String}

namespace Outputs

theorem of_kept (outputs : command.Outputs settings files path place text) (same : files.SameDirectories now)
    (kept : ∀ own, files.Names path own → now.lookup own = files.lookup own) :
    command.Outputs settings now path place text := by
  obtain ⟨finds, decoded, made, rfl, free⟩ := outputs
  exact ⟨finds.of_kept same kept, decoded, made, rfl, fun taken => free ((same.directories _).mpr taken)⟩

theorem place_eq {directory : List String} {name : String} {bytes : ByteArray}
    (outputs : command.Outputs settings files path place text) (finds : files.Finds path directory name bytes) :
    place = directory ++ [Path.stem name ++ command.task.ending settings] := by
  obtain ⟨finds', _, _, rfl, _⟩ := outputs
  obtain rfl := finds.fileName.symm.trans finds'.fileName
  rw [finds.unique finds']

theorem unique {other : List String} {again : String}
    (outputs : command.Outputs settings files path place text)
    (also : command.Outputs settings files path other again) : place = other ∧ text = again := by
  obtain ⟨finds, decoded, made, rfl, _⟩ := outputs
  refine ⟨(also.place_eq finds).symm, ?_⟩
  obtain ⟨finds', decoded', made', _, _⟩ := also
  obtain rfl := Except.ok.inj (finds.read.symm.trans finds'.read)
  obtain rfl := Option.some.inj (decoded.symm.trans decoded')
  exact made.unique made'

theorem free (outputs : command.Outputs settings files path place text) : ¬ files.IsDirectory place := by
  obtain ⟨_, _, _, _, free⟩ := outputs
  exact free

theorem exists_stem (outputs : command.Outputs settings files path place text) :
    ∃ directory stem, stem ≠ "" ∧ place = directory ++ [stem ++ command.task.ending settings] := by
  obtain @⟨directory, name, _, _, finds, _, _, placed, _⟩ := outputs
  have some_name : name ≠ "" := by
    rintro rfl
    exact absurd finds.heard (by decide)
  exact ⟨directory, Path.stem name, Path.stem_ne_empty some_name, placed⟩

end Outputs

/-! ## One source after another -/

theorem Treats.files_cases {before after : Desk} {success : Bool}
    (treats : command.Treats settings path before after success) :
    (after.files = before.files ∧ (command.toStdout = true ∨
      ∀ place text, ¬ command.Outputs settings before.files path place text)) ∨
    (command.toStdout = false ∧ ∃ place text, command.Outputs settings before.files path place text ∧
      after.files = before.files.put place (.file text.toUTF8)) := by
  cases treats with
  | fruitless nothing kept _ =>
      refine .inl ⟨kept, .inr ?_⟩
      rintro place text ⟨finds, decoded, made, _, _⟩
      exact nothing _ text ⟨_, finds.read, decoded⟩ made
  | @fruitful source text _ holds made delivers =>
      obtain ⟨bytes, read, decoded⟩ := holds
      obtain ⟨directory, finds⟩ := FileMap.exists_finds read
      have reaches := reaches_outputPath finds settings command.task
      cases delivers with
      | prints toStdout kept _ => exact .inl ⟨kept, .inl toStdout⟩
      | writes toFile written _ =>
          obtain ⟨free, written⟩ := reaches.write_eq_ok_iff.mp written
          exact .inr ⟨toFile, _, text, ⟨finds, decoded, made, rfl, free⟩, written⟩
      | blocked _ refused kept _ =>
          refine .inl ⟨kept, .inr ?_⟩
          intro place text outputs
          have placed := outputs.place_eq finds
          obtain ⟨_, _, _, _, free⟩ := outputs
          exact free (placed ▸ reaches.lookup_of_write_eq_error refused)

/-- The files after a run has treated some sources. -/
def filesAfter (command : Command) (settings : Settings) (files : FileMap) (sources : List String) : FileMap :=
  ((sources.mapM (command.treat settings) : StateM Desk (List Bool)).run { files }).2.files

theorem filesAfter_concat (command : Command) (settings : Settings) (files : FileMap) (front : List String)
    (path : String) :
    (command.filesAfter settings files (front ++ [path]) = command.filesAfter settings files front ∧
      (command.toStdout = true ∨ ∀ place text,
        ¬ command.Outputs settings (command.filesAfter settings files front) path place text)) ∨
    (command.toStdout = false ∧ ∃ place text,
      command.Outputs settings (command.filesAfter settings files front) path place text ∧
      command.filesAfter settings files (front ++ [path]) =
        (command.filesAfter settings files front).put place (.file text.toUTF8)) := by
  obtain ⟨success, after, run, treats⟩ := Desk.run_treat
    ((front.mapM (command.treat settings) : StateM Desk (List Bool)).run { files }).2 command settings path
  have ends : command.filesAfter settings files (front ++ [path]) = after.files := by
    rw [filesAfter, List.mapM_append, Desk.run_bind, Desk.run_bind, List.mapM_cons, Desk.run_bind, run]
    rfl
  rw [ends]
  exact treats.files_cases

theorem lookup_filesAfter_concat (command : Command) (settings : Settings) (files : FileMap)
    (front : List String) (path : String) (place : List String) :
    ((command.filesAfter settings files (front ++ [path])).lookup place =
        (command.filesAfter settings files front).lookup place ∧
      (command.toStdout = true ∨ ∀ text,
        ¬ command.Outputs settings (command.filesAfter settings files front) path place text)) ∨
    (command.toStdout = false ∧ ∃ text,
      command.Outputs settings (command.filesAfter settings files front) path place text ∧
      (command.filesAfter settings files (front ++ [path])).lookup place = some (.file text.toUTF8)) := by
  rcases command.filesAfter_concat settings files front path with
    ⟨kept, reason⟩ | ⟨toFile, written_at, text, outputs, written⟩
  · exact .inl ⟨by rw [kept], reason.imp_right fun none_made => none_made place⟩
  · by_cases here : place = written_at
    · subst here
      refine .inr ⟨toFile, text, outputs, ?_⟩
      rw [written, FileMap.lookup_put_self outputs.free]
    · refine .inl ⟨?_, .inr ?_⟩
      · rw [written, FileMap.lookup_put_of_ne here]
      · intro again also
        exact here (also.unique outputs).1

/-- The maps have the same directories, and the same files but for some that are named like outputs. -/
structure Rewrites (command : Command) (settings : Settings) (files now : FileMap) : Prop where
  directories : files.SameDirectories now
  elsewhere : ∀ place, now.lookup place = files.lookup place ∨
    ∃ directory stem, stem ≠ "" ∧ place = directory ++ [stem ++ command.task.ending settings]

namespace Rewrites

theorem refl (command : Command) (settings : Settings) (files : FileMap) :
    command.Rewrites settings files files := ⟨.refl files, fun _ => .inl rfl⟩

theorem symm (rewrites : command.Rewrites settings files now) : command.Rewrites settings now files where
  directories := rewrites.directories.symm
  elsewhere place := (rewrites.elsewhere place).imp_left Eq.symm

theorem put (rewrites : command.Rewrites settings files now)
    (outputs : command.Outputs settings now path place text) (bytes : ByteArray) :
    command.Rewrites settings files (now.put place (.file bytes)) where
  directories := rewrites.directories.put outputs.free bytes
  elsewhere other := by
    by_cases here : other = place
    · rw [here]
      exact .inr outputs.exists_stem
    · rw [FileMap.lookup_put_of_ne here]
      exact rewrites.elsewhere other

end Rewrites

theorem filesAfter_rewrites (command : Command) (settings : Settings) (files : FileMap) (sources : List String) :
    command.Rewrites settings files (command.filesAfter settings files sources) := by
  induction sources using List.reverseRecOn with
  | nil => exact .refl command settings files
  | append_singleton front path ih =>
      rcases command.filesAfter_concat settings files front path with ⟨kept, _⟩ | ⟨_, place, text, outputs, written⟩
      · rwa [kept]
      · rw [written]
        exact ih.put outputs _

/-! ## The last output for a place -/

/-- The text is the last that some sources put at the place, each made from the files as they are at its turn. -/
inductive LastOutput (command : Command) (settings : Settings) (files : FileMap) (place : List String) :
    List String → String → Prop
  | here {front : List String} {path text : String}
      (outputs : command.Outputs settings (command.filesAfter settings files front) path place text) :
      LastOutput command settings files place (front ++ [path]) text
  | earlier {front : List String} {path text : String}
      (none_here : ∀ again,
        ¬ command.Outputs settings (command.filesAfter settings files front) path place again)
      (last : LastOutput command settings files place front text) :
      LastOutput command settings files place (front ++ [path]) text

theorem LastOutput.lookup (last : command.LastOutput settings files place sources text)
    (toFile : command.toStdout = false) :
    (command.filesAfter settings files sources).lookup place = some (.file text.toUTF8) := by
  induction last with
  | @here front path text outputs =>
      rcases command.lookup_filesAfter_concat settings files front path place with
        ⟨_, none_made⟩ | ⟨_, again, also, lookup⟩
      · exact absurd outputs (none_made.resolve_left (by simp [toFile]) text)
      · rw [lookup, (outputs.unique also).2]
  | @earlier front path text none_here _ ih =>
      rcases command.lookup_filesAfter_concat settings files front path place with
        ⟨kept, _⟩ | ⟨_, again, also, _⟩
      · exact kept.trans ih
      · exact absurd also (none_here again)

theorem lookup_filesAfter_of_not {sources : List String}
    (none_last : ∀ text, ¬ command.LastOutput settings files place sources text) :
    (command.filesAfter settings files sources).lookup place = files.lookup place := by
  induction sources using List.reverseRecOn with
  | nil => rfl
  | append_singleton front path ih =>
      have none_here : ∀ text,
          ¬ command.Outputs settings (command.filesAfter settings files front) path place text :=
        fun text outputs => none_last text (.here outputs)
      rcases command.lookup_filesAfter_concat settings files front path place with
        ⟨kept, _⟩ | ⟨_, text, outputs, _⟩
      · exact kept.trans (ih fun text last => none_last text (.earlier none_here last))
      · exact absurd outputs (none_here text)

theorem read_filesAfter_iff (toFile : command.toStdout = false) {bytes : ByteArray}
    (read : files.read path = .ok bytes) (sources : List String) :
    (command.filesAfter settings files sources).read path = .ok bytes ↔
      ∀ place text, files.Names path place → command.LastOutput settings files place sources text →
        text.toUTF8 = bytes := by
  obtain ⟨directory, finds⟩ := FileMap.exists_finds read
  have same := (command.filesAfter_rewrites settings files sources).directories
  constructor
  · intro still place text names last
    obtain ⟨directory', finds'⟩ := FileMap.exists_finds still
    have file := finds'.file
    rw [(finds'.names.of_sameDirectories same.symm).unique names, last.lookup toFile] at file
    exact Entry.file.inj (Option.some.inj file)
  · intro alike
    have file : (command.filesAfter settings files sources).lookup (directory ++ [Path.lastName path]) =
        some (.file bytes) := by
      by_cases written : ∃ text, command.LastOutput settings files (directory ++ [Path.lastName path]) sources text
      · obtain ⟨text, last⟩ := written
        rw [last.lookup toFile, alike _ text finds.names last]
      · rw [lookup_filesAfter_of_not (not_exists.mp written), finds.file]
    exact (FileMap.Finds.mk (finds.toReaches.of_sameDirectories same) finds.heard finds.inward file).read

/-! ## Sources that are spared -/

/-- At no time during a run is there anything new where a source is read. -/
def Spares (command : Command) (settings : Settings) (files : FileMap) (sources : List String) : Prop :=
  ∀ front, front <+: sources → ∀ path ∈ sources, ∀ place, files.Names path place →
    (command.filesAfter settings files front).lookup place = files.lookup place

/-- No output goes where a source is read, unless its text is there already. -/
def Harmless (command : Command) (settings : Settings) (files : FileMap) (sources : List String) : Prop :=
  command.toStdout = true ∨
    ∀ path ∈ sources, ∀ place text, command.Outputs settings files path place text →
      ∀ other ∈ sources, files.Names other place → files.lookup place = some (.file text.toUTF8)

theorem Harmless.spares (harmless : command.Harmless settings files sources) :
    command.Spares settings files sources := by
  intro front
  induction front using List.reverseRecOn with
  | nil => exact fun _ _ _ _ _ => rfl
  | append_singleton front path ih =>
      intro starts other listed place names
      have earlier := ih ((List.prefix_append front [path]).trans starts)
      rcases command.lookup_filesAfter_concat settings files front path place with
        ⟨kept, _⟩ | ⟨toFile, text, outputs, lookup⟩
      · exact kept.trans (earlier other listed place names)
      · -- The source is as it was at first, and so is its output.
        have member : path ∈ sources := starts.subset (List.mem_append_right front List.mem_cons_self)
        have same := (command.filesAfter_rewrites settings files front).directories
        have first : command.Outputs settings files path place text := by
          refine outputs.of_kept same.symm fun own named => ?_
          exact (earlier path member own (named.of_sameDirectories same.symm)).symm
        rw [lookup]
        refine (harmless.resolve_left ?_ path member place text first other listed names).symm
        simp [toFile]

theorem Spares.harmless (spares : command.Spares settings files sources) :
    command.Harmless settings files sources := by
  cases toStdout : command.toStdout with
  | true => exact .inl toStdout
  | false =>
      right
      intro path member place text outputs other listed names
      obtain ⟨front, back, rfl⟩ := List.append_of_mem member
      have same := (command.filesAfter_rewrites settings files front).directories
      have again := outputs.of_kept same (spares front (List.prefix_append front _) path member)
      have starts : front ++ [path] <+: front ++ path :: back := ⟨back, by simp⟩
      rw [← spares _ starts other listed place names]
      rcases command.lookup_filesAfter_concat settings files front path place with
        ⟨_, none_made⟩ | ⟨_, _, made, lookup⟩
      · exact absurd again (none_made.resolve_left (by simp [toStdout]) text)
      · rw [lookup, (again.unique made).2]

theorem harmless_of_names
    (named : ∀ path ∈ sources, ¬ (command.task.ending settings).toList <:+ (Path.fileName path).toList) :
    command.Harmless settings files sources := by
  right
  rintro path _ place text ⟨finds, _, _, rfl, _⟩ other listed ⟨directory, name, reaches, same⟩
  obtain ⟨_, last⟩ := List.append_inj' same (by simp)
  apply absurd _ (named other listed)
  rw [reaches.fileName, ← List.singleton_inj.mp last, String.toList_append]
  exact List.suffix_append _ _

/-! ## Sources that are written over -/

-- A source that is written over itself is named like its own output.
theorem Outputs.of_rewrites (outputs : command.Outputs settings files path place text)
    (parse : command.task = .parse) (rewrites : command.Rewrites settings files now)
    (kept : now.lookup place = files.lookup place) : command.Outputs settings now path place text := by
  apply outputs.of_kept rewrites.directories
  obtain ⟨finds, _, _, placed, _⟩ := outputs
  intro own names
  obtain rfl := finds.names.unique names
  rcases rewrites.elsewhere _ with same | ⟨directory, stem, some_stem, named⟩
  · exact same
  · obtain ⟨rfl, last⟩ := List.append_inj' named rfl
    have base : Path.stem (stem ++ command.task.ending settings) = stem := by
      have plain : '.' ∉ settings.format.extension.toList := by cases settings.format <;> decide
      rw [parse, Task.ending, ← String.append_assoc]
      exact Path.stem_append some_stem plain
    rw [List.singleton_inj.mp last, base] at placed
    rw [List.singleton_inj.mp last, ← placed]
    exact kept

theorem lookup_filesAfter_parse (parse : command.task = .parse) (toFile : command.toStdout = false)
    (settings : Settings) (files : FileMap) (place : List String) (sources : List String) :
    ((∀ path ∈ sources, ∀ text, ¬ command.Outputs settings files path place text) ∧
      (command.filesAfter settings files sources).lookup place = files.lookup place) ∨
    ((∃ path ∈ sources, ∃ text, command.Outputs settings files path place text) ∧
      ∃ source text, command.task.Makes settings source text ∧
        (command.filesAfter settings files sources).lookup place = some (.file text.toUTF8)) := by
  induction sources using List.reverseRecOn with
  | nil => exact .inl ⟨by simp, rfl⟩
  | append_singleton front path ih =>
      have rewrites := command.filesAfter_rewrites settings files front
      have last : path ∈ front ++ [path] := List.mem_append_right front List.mem_cons_self
      rcases command.lookup_filesAfter_concat settings files front path place with
        ⟨same, none_made⟩ | ⟨_, text, outputs, lookup⟩
      · rw [same]
        rcases ih with ⟨none_before, kept⟩ | ⟨⟨before, member, earlier⟩, spoiled⟩
        · refine .inl ⟨?_, kept⟩
          intro other listed text outputs
          rcases List.mem_append.mp listed with before | here
          · exact none_before other before text outputs
          · obtain rfl := List.mem_singleton.mp here
            exact none_made.resolve_left (by simp [toFile]) text (outputs.of_rewrites parse rewrites kept)
        · exact .inr ⟨⟨before, List.mem_append_left _ member, earlier⟩, spoiled⟩
      · right
        constructor
        · rcases ih with ⟨_, kept⟩ | ⟨⟨before, member, earlier⟩, _⟩
          · exact ⟨path, last, text, outputs.of_rewrites parse rewrites.symm kept.symm⟩
          · exact ⟨before, List.mem_append_left _ member, earlier⟩
        · obtain ⟨_, _, made, _, _⟩ := outputs
          exact ⟨_, text, made, lookup⟩

theorem read_filesAfter_parse (parse : command.task = .parse) (toFile : command.toStdout = false)
    {bytes : ByteArray} {source : String} (read : files.read path = .ok bytes)
    (decoded : String.fromUTF8? bytes = some source) (made : command.task.Makes settings source text) :
    (command.filesAfter settings files sources).read path = .ok bytes ↔
      ∀ other ∈ sources, ∀ place again, command.Outputs settings files other place again →
        ¬ files.Names path place := by
  obtain ⟨directory, finds⟩ := FileMap.exists_finds read
  have same := (command.filesAfter_rewrites settings files sources).directories
  rcases command.lookup_filesAfter_parse parse toFile settings files (directory ++ [Path.lastName path]) sources
    with ⟨free, kept⟩ | ⟨⟨other, listed, again, outputs⟩, _, _, spoiled, lookup⟩
  · apply iff_of_true
    · rw [FileMap.read_of_kept same, read]
      intro place names
      rwa [← finds.names.unique names]
    · intro other listed place again outputs names
      obtain rfl := finds.names.unique names
      exact free other listed again outputs
  · apply iff_of_false
    · intro still
      obtain ⟨directory', finds'⟩ := FileMap.exists_finds still
      have here := (finds'.names.of_sameDirectories same.symm).unique finds.names
      have file := finds'.file
      rw [here, lookup] at file
      -- The text there is an output, and no class can be read from an output.
      obtain rfl := Entry.file.inj (Option.some.inj file)
      rw [fromUTF8?_toUTF8] at decoded
      obtain rfl := Option.some.inj decoded
      rw [parse] at made spoiled
      obtain ⟨first⟩ := spoiled
      obtain ⟨second⟩ := made
      exact parseSource_emit_ne_ok _ _ _ _ second
    · intro apart
      exact apart other listed _ again outputs finds.names

/-! ## Whole runs -/

theorem run_files (collected : files.Collected command.paths sources) :
    ∃ code after, (command.run : StateM Desk Nat).run { files } = (code, after) ∧
      ((∀ settings, ¬ command.Effective files settings) → after.files = files) ∧
      ∀ settings, command.Effective files settings →
        after.files = command.filesAfter settings files sources := by
  obtain ⟨loaded, loading, effective_iff⟩ := Desk.run_loadSettings { files } command
  have collecting := Desk.run_collectSources { files } collected
  cases loaded with
  | error notice =>
      obtain ⟨notices, said⟩ := Desk.run_say { files } command notice
      refine ⟨1, { files, notices }, ?_, fun _ => rfl, ?_⟩
      · simp only [Command.run, Desk.run_bind, loading, said, Desk.run_pure]
      · intro settings effective
        obtain ⟨_, loaded, _⟩ := (effective_iff _).mp effective
        contradiction
  | ok settings =>
      have effective := (effective_iff _).mpr ⟨settings, rfl, rfl⟩
      cases sources with
      | nil =>
          obtain ⟨notices, said⟩ := Desk.run_say { files } command .noSources
          refine ⟨1, { files, notices }, ?_, fun _ => rfl, fun _ _ => rfl⟩
          simp only [Command.run, Desk.run_bind, loading, collecting, said, Desk.run_pure]
      | cons path rest =>
          rcases treating : ((path :: rest).mapM (command.treat (command.override settings)) :
            StateM Desk (List Bool)).run { files } with ⟨successes, treated⟩
          obtain ⟨notices, said⟩ := treated.run_say command (.done (path :: rest).length (successes.all id))
          refine ⟨if successes.all id then 0 else 1, { treated with notices := notices }, ?_, ?_, ?_⟩
          · simp only [Command.run, Command.treatAll, Desk.run_bind, loading, collecting, treating, said,
              Desk.run_pure]
          · intro unsettled
            exact absurd effective (unsettled _)
          · intro other also
            rw [← effective.unique also, filesAfter, treating]

end Command

/-- A run leaves its sources as they are unless the output of one of them goes where one is read, be it the same
one. At the end a source is what the last output that went there says, and a class that was read is gone whenever
there was one. -/
theorem runArguments_overwrites {arguments : List String} {command : Command}
    (accepted : Command.ofArguments arguments = .ok command) (files : FileMap) :
    (∃ sources, files.Collected command.paths sources) ∧
    ∀ sources, files.Collected command.paths sources →
      ∃ code after, (runArguments arguments : StateM Desk Nat).run { files } = (code, after) ∧
        ((∀ settings, ¬ command.Effective files settings) → after.files = files) ∧
        ∀ settings, command.Effective files settings →
          after.files = command.filesAfter settings files sources ∧
          (command.Spares settings files sources ↔ command.Harmless settings files sources) ∧
          (command.Harmless settings files sources → ∀ path ∈ sources, ∀ bytes,
            after.files.read path = .ok bytes ↔ files.read path = .ok bytes) ∧
          ((∀ path ∈ sources, ¬ (command.task.ending settings).toList <:+ (Path.fileName path).toList) →
            command.Harmless settings files sources) ∧
          (command.toStdout = false → ∀ path ∈ sources, ∀ bytes, files.read path = .ok bytes →
            (after.files.read path = .ok bytes ↔
              ∀ place text, files.Names path place → command.LastOutput settings files place sources text →
                text.toUTF8 = bytes)) ∧
          (command.task = .parse → command.toStdout = false → ∀ path ∈ sources, ∀ bytes source text,
            files.read path = .ok bytes → String.fromUTF8? bytes = some source →
            command.task.Makes settings source text →
            (after.files.read path = .ok bytes ↔
              ∀ other ∈ sources, ∀ place again, command.Outputs settings files other place again →
                ¬ files.Names path place)) := by
  refine ⟨files.exists_collected command.paths, ?_⟩
  intro sources collected
  have run_eq : (runArguments arguments : StateM Desk Nat) = command.run := by rw [runArguments, accepted]
  obtain ⟨code, after, run, unsettled, settled⟩ := Command.run_files collected
  refine ⟨code, after, by rw [run_eq, run], unsettled, ?_⟩
  intro settings effective
  have ends := settled settings effective
  refine ⟨ends, ⟨Command.Spares.harmless, Command.Harmless.spares⟩, ?_, Command.harmless_of_names, ?_, ?_⟩
  · intro harmless path member bytes
    rw [ends]
    apply FileMap.read_of_kept (command.filesAfter_rewrites settings files sources).directories
    exact harmless.spares sources (List.prefix_refl sources) path member
  · intro toFile path _ bytes read
    rw [ends]
    exact Command.read_filesAfter_iff toFile read sources
  · intro parse toFile path _ bytes source text read decoded made
    rw [ends]
    exact Command.read_filesAfter_parse parse toFile read decoded made

/-- Two classes, the second where the output for the first goes. -/
def collidingFiles : FileMap where
  entries := [(["w", "A.jack"], .file "class A \x7b \x7d".toUTF8), (["w", "A.xml"], .file "class B \x7b \x7d".toUTF8)]
  home := ["w"]

def collidingCommand : Command := { task := .parse, paths := ["A.jack", "A.xml"] }

theorem runArguments_overwrites_collidingFiles :
    Command.ofArguments ["parse", "A.jack", "A.xml"] = .ok collidingCommand ∧
    collidingFiles.Collected collidingCommand.paths ["A.jack", "A.xml"] ∧
    ∃ code after,
      (runArguments ["parse", "A.jack", "A.xml"] : StateM Desk Nat).run { files := collidingFiles } =
        (code, after) ∧
      collidingFiles.read "A.xml" = .ok "class B \x7b \x7d".toUTF8 ∧
      after.files.read "A.xml" ≠ .ok "class B \x7b \x7d".toUTF8 := by
  have accepted : Command.ofArguments ["parse", "A.jack", "A.xml"] = .ok collidingCommand := by decide +kernel
  have collected : collidingFiles.Collected collidingCommand.paths ["A.jack", "A.xml"] :=
    .file (by decide +kernel) (.file (by decide +kernel) .nil)
  have effective : collidingCommand.Effective collidingFiles (collidingCommand.override {}) :=
    .default (by decide +kernel)
  have makes (source : String) (read : (parseSource {} source).toOption.isSome = true) :
      ∃ text, collidingCommand.task.Makes (collidingCommand.override {}) source text := by
    cases parsed : parseSource {} source with
    | error d => simp [parsed, Except.toOption] at read
    | ok result => exact ⟨_, .parse parsed⟩
  obtain ⟨first, made⟩ := makes "class A \x7b \x7d" (by decide +kernel)
  obtain ⟨second, also⟩ := makes "class B \x7b \x7d" (by decide +kernel)
  have finds : collidingFiles.Finds "A.jack" ["w"] "A.jack" "class A \x7b \x7d".toUTF8 :=
    ⟨⟨⟨[], by decide +kernel, .stay⟩, FileMap.isDirectory_around List.prefix_rfl⟩, by decide, by decide, rfl⟩
  have target : collidingFiles.Finds "A.xml" ["w"] "A.xml" "class B \x7b \x7d".toUTF8 :=
    ⟨⟨⟨[], by decide +kernel, .stay⟩, FileMap.isDirectory_around List.prefix_rfl⟩, by decide, by decide, rfl⟩
  have outputs : collidingCommand.Outputs (collidingCommand.override {}) collidingFiles "A.jack" ["w", "A.xml"] first := by
    refine ⟨finds, fromUTF8?_toUTF8 _, made, by decide +kernel, ?_⟩
    intro taken
    have clash := target.file.symm.trans taken
    simp at clash
  obtain ⟨code, after, run, _, settled⟩ := (runArguments_overwrites accepted collidingFiles).2 _ collected
  obtain ⟨_, _, _, _, _, kept_iff⟩ := settled _ effective
  refine ⟨accepted, collected, code, after, run, target.read, ?_⟩
  rw [Ne, kept_iff rfl rfl "A.xml" (by simp) _ _ second target.read (fromUTF8?_toUTF8 _) also]
  intro apart
  exact apart "A.jack" (by simp) _ first outputs target.names

/-- A class whose output goes where it stands itself. -/
def misnamedFiles : FileMap where
  entries := [(["w", "A.xml"], .file "class A \x7b \x7d".toUTF8)]
  home := ["w"]

theorem runArguments_overwrites_misnamedFiles :
    Command.ofArguments ["parse", "A.xml"] = .ok { task := .parse, paths := ["A.xml"] } ∧
    misnamedFiles.Collected ["A.xml"] ["A.xml"] ∧
    ¬ ∀ bytes, misnamedFiles.read "A.xml" = .ok bytes →
      ((runArguments ["parse", "A.xml"] : StateM Desk Nat).run { files := misnamedFiles }).2.files.read "A.xml" =
        .ok bytes := by
  refine ⟨by decide +kernel, .file (by decide +kernel) .nil, ?_⟩
  intro kept
  have read : misnamedFiles.read "A.xml" = .ok "class A \x7b \x7d".toUTF8 := rfl
  have size : (((runArguments ["parse", "A.xml"] : StateM Desk Nat).run
      { files := misnamedFiles }).2.files.read "A.xml").toOption.map ByteArray.size ≠ some 11 := by
    decide +kernel
  rw [kept _ read] at size
  exact size rfl

end Jack

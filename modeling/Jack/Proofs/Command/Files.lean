import Jack.Command.Desk
import Jack.Command.Run
import Jack.Proofs.Command.Paths

/-!
# Following paths through a map of files

Only directories lead a path further. So a file written where no directory stands changes what a path
leads to at its very end and nowhere else, and a path that ends with another name does not see it.
-/

namespace Jack

namespace FileMap

def IsDirectory (files : FileMap) (place : List String) : Prop := files.lookup place = some .directory

/-- The parts lead from one place to another. -/
inductive Leads (files : FileMap) : List String → List String → List String → Prop
  | stay {place} : Leads files place [] place
  | silent {place part rest last} (here : files.IsDirectory place) (quiet : Path.isSilent part = true)
      (onward : Leads files place rest last) : Leads files place (part :: rest) last
  | up {place rest last} (here : files.IsDirectory place)
      (onward : Leads files place.dropLast rest last) : Leads files place (".." :: rest) last
  | down {place name rest last} (here : files.IsDirectory place) (heard : Path.isSilent name = false)
      (inward : name ≠ "..") (present : (files.lookup (place ++ [name])).isSome)
      (onward : Leads files (place ++ [name]) rest last) : Leads files place (name :: rest) last

variable {files now : FileMap} {place other : List String}

theorem isDirectory_around (around : place <+: files.home) : files.IsDirectory place := if_pos around

theorem isDirectory_root (files : FileMap) : files.IsDirectory [] := isDirectory_around List.nil_prefix

theorem lookup_put_of_ne (apart : other ≠ place) (entry : Entry) :
    (files.put place entry).lookup other = files.lookup other := by
  have differs : ¬ (other == place) = true := by simpa using apart
  rw [lookup, lookup, put, AssocList.lookup_put, if_neg differs]

theorem lookup_put_self (free : ¬ files.IsDirectory place) (entry : Entry) :
    (files.put place entry).lookup place = some entry := by
  have inner : ¬ place <+: files.home := fun around => free (isDirectory_around around)
  rw [lookup, put, if_neg inner, AssocList.lookup_put, if_pos (beq_self_eq_true place)]

/-! ## Ways -/

section

variable {part : String} (here : files.IsDirectory place)
include here

theorem follow_silent (quiet : Path.isSilent part = true) (rest : List String) :
    files.follow place (part :: rest) = files.follow place rest := by
  have entry : files.lookup place = some .directory := here
  simp only [follow, entry, quiet, if_true]

theorem follow_up (rest : List String) : files.follow place (".." :: rest) = files.follow place.dropLast rest := by
  have entry : files.lookup place = some .directory := here
  have heard : Path.isSilent ".." = false := by decide
  simp only [follow, entry, heard, Bool.false_eq_true, if_false, if_true]

theorem follow_down (heard : Path.isSilent part = false) (inward : part ≠ "..") (rest : List String) :
    files.follow place (part :: rest) =
      if (files.lookup (place ++ [part])).isSome then files.follow (place ++ [part]) rest
      else .error .notFound := by
  have entry : files.lookup place = some .directory := here
  simp only [follow, entry, heard, inward, Bool.false_eq_true, if_false]

end

theorem follow_blocked (blocked : ¬ files.IsDirectory place) (part : String) (rest : List String) :
    files.follow place (part :: rest) = .error .notDirectory := by
  unfold follow
  split
  · contradiction
  · rfl

theorem Leads.follow_append {middle first : List String} (leads : files.Leads place first middle)
    (second : List String) : files.follow place (first ++ second) = files.follow middle second := by
  induction leads with
  | stay => rfl
  | silent here quiet onward ih => rw [List.cons_append, follow_silent here quiet, ih]
  | up here onward ih => rw [List.cons_append, follow_up here, ih]
  | down here heard inward present onward ih =>
      rw [List.cons_append, follow_down here heard inward, if_pos present, ih]

theorem Leads.follow {last parts : List String} (leads : files.Leads place parts last) :
    files.follow place parts = .ok last := by
  have whole := leads.follow_append []
  rwa [List.append_nil] at whole

theorem leads_of_follow {last parts : List String} (followed : files.follow place parts = .ok last) :
    files.Leads place parts last := by
  induction parts generalizing place with
  | nil =>
      obtain rfl := Except.ok.inj followed
      exact .stay
  | cons part rest ih =>
      by_cases here : files.IsDirectory place
      · by_cases quiet : Path.isSilent part = true
        · rw [follow_silent here quiet] at followed
          exact .silent here quiet (ih followed)
        · rw [Bool.not_eq_true] at quiet
          by_cases up : part = ".."
          · subst up
            rw [follow_up here] at followed
            exact .up here (ih followed)
          · rw [follow_down here quiet up] at followed
            by_cases present : (files.lookup (place ++ [part])).isSome = true
            · rw [if_pos present] at followed
              exact .down here quiet up present (ih followed)
            · rw [if_neg present] at followed
              contradiction
      · rw [follow_blocked here] at followed
        contradiction

theorem follow_eq_ok_iff {last parts : List String} :
    files.follow place parts = .ok last ↔ files.Leads place parts last :=
  ⟨leads_of_follow, Leads.follow⟩

namespace Leads

variable {start middle last first second parts : List String}

theorem append (leads : files.Leads start first middle) (onward : files.Leads middle second last) :
    files.Leads start (first ++ second) last := by
  induction leads with
  | stay => exact onward
  | silent here quiet _ ih => exact .silent here quiet (ih onward)
  | up here _ ih => exact .up here (ih onward)
  | down here heard inward present _ ih => exact .down here heard inward present (ih onward)

theorem split (leads : files.Leads start (first ++ second) last) :
    ∃ middle, files.Leads start first middle ∧ files.Leads middle second last := by
  induction first generalizing start with
  | nil => exact ⟨start, .stay, leads⟩
  | cons part rest ih =>
      cases leads with
      | silent here quiet onward =>
          obtain ⟨middle, begun, ended⟩ := ih onward
          exact ⟨middle, .silent here quiet begun, ended⟩
      | up here onward =>
          obtain ⟨middle, begun, ended⟩ := ih onward
          exact ⟨middle, .up here begun, ended⟩
      | down here heard inward present onward =>
          obtain ⟨middle, begun, ended⟩ := ih onward
          exact ⟨middle, .down here heard inward present begun, ended⟩

theorem directory (leads : files.Leads start parts last) (ends : files.IsDirectory last) :
    files.IsDirectory start := by
  cases leads with
  | stay => exact ends
  | silent here quiet onward => exact here
  | up here onward => exact here
  | down here heard inward present onward => exact here

theorem of_silent (leads : files.Leads start parts last) (quiet : ∀ part ∈ parts, Path.isSilent part = true) :
    start = last := by
  induction leads with
  | stay => rfl
  | silent here _ onward ih => exact ih fun part member => quiet part (List.mem_cons_of_mem _ member)
  | up here onward ih => exact absurd (quiet ".." List.mem_cons_self) (by decide)
  | down here heard inward present onward ih =>
      rw [quiet _ List.mem_cons_self] at heard
      contradiction

end Leads

/-- All directories around the place are there. -/
def Rooted (files : FileMap) (place : List String) : Prop :=
  ∀ front, front <+: place → front ≠ place → files.IsDirectory front

namespace Rooted

theorem start (files : FileMap) (path : String) : files.Rooted (files.start path) := by
  intro front starts proper
  rw [FileMap.start] at starts
  split at starts
  · rw [List.prefix_nil.mp starts]
    exact isDirectory_root files
  · exact isDirectory_around starts

theorem isDirectory_dropLast (rooted : files.Rooted place) : files.IsDirectory place.dropLast := by
  cases place with
  | nil => exact isDirectory_root files
  | cons first others =>
      apply rooted _ (List.dropLast_prefix _)
      intro same
      have length := congrArg List.length same
      simp at length

theorem dropLast (rooted : files.Rooted place) : files.Rooted place.dropLast := by
  intro front starts proper
  have outer := List.dropLast_prefix place
  apply rooted front (starts.trans outer)
  rintro rfl
  exact proper (starts.eq_of_length_le outer.length_le)

theorem down (rooted : files.Rooted place) (here : files.IsDirectory place) (name : String) :
    files.Rooted (place ++ [name]) := by
  intro front starts proper
  have inner := (List.prefix_concat_iff.mp starts).resolve_left proper
  by_cases same : front = place
  · rwa [same]
  · exact rooted front inner same

end Rooted

theorem Leads.rooted {start last parts : List String} (leads : files.Leads start parts last)
    (rooted : files.Rooted start) : files.Rooted last := by
  induction leads with
  | stay => exact rooted
  | silent _ _ _ ih => exact ih rooted
  | up _ _ ih => exact ih rooted.dropLast
  | down here _ _ _ _ ih => exact ih (rooted.down here _)

/-! ## Ways back

The place of the working directory is known, so paths that leave it can lead back. -/

section

variable (plain : ∀ part ∈ files.home, Path.isSilent part = false ∧ part ≠ ".." ∧ '/' ∉ part.toList)
include plain

theorem leads_home {front back : List String} (split : front ++ back = files.home) :
    files.Leads front back files.home := by
  induction back generalizing front with
  | nil =>
      rw [List.append_nil] at split
      rw [split]
      exact .stay
  | cons name back ih =>
      obtain ⟨heard, inward, -⟩ := plain name (by simp [← split])
      have next : front ++ [name] ++ back = files.home := by rw [← split, List.append_cons front name back]
      have here : files.IsDirectory front := isDirectory_around ⟨_, split⟩
      have inner : files.IsDirectory (front ++ [name]) := isDirectory_around ⟨_, next⟩
      exact .down here heard inward (by rw [inner]; rfl) (ih next)

variable {path : String} (relative : Path.isAbsolute path = false)
include relative

theorem locate_absolute :
    files.locate (Path.ofParts ("" :: (files.home ++ Path.parts path))) = files.locate path := by
  have named : ∀ piece ∈ "" :: files.home, '/' ∉ piece.toList :=
    List.forall_mem_cons.mpr ⟨by simp, fun piece around => (plain piece around).2.2⟩
  have parts := Path.parts_ofParts_append path named
  rw [List.cons_append] at parts
  have absolute : Path.isAbsolute (Path.ofParts ("" :: (files.home ++ Path.parts path))) = true := by
    rw [Path.isAbsolute, parts, List.dropLast_cons_of_ne_nil (by simp [Path.parts_ne_nil])]
    rfl
  rw [locate, locate, start, start, absolute, relative, parts, if_pos rfl, if_neg Bool.false_ne_true,
    follow_silent (isDirectory_root files) rfl]
  exact (leads_home plain (List.nil_append _)).follow_append (Path.parts path)

theorem locate_outward {around : List String} {name : String} (split : around ++ [name] = files.home) :
    files.locate (Path.ofParts (".." :: name :: Path.parts path)) = files.locate path := by
  have named : ∀ piece ∈ ["..", name], '/' ∉ piece.toList := by
    simpa using (plain name (by simp [← split])).2.2
  have parts := Path.parts_ofParts_append path named
  rw [List.cons_append, List.singleton_append] at parts
  have relative' : Path.isAbsolute (Path.ofParts (".." :: name :: Path.parts path)) = false := by
    rw [Path.isAbsolute, parts, List.dropLast_cons_of_ne_nil (by simp)]
    rfl
  rw [locate, locate, start, start, relative, relative', parts, if_neg Bool.false_ne_true,
    follow_up (isDirectory_around List.prefix_rfl)]
  have back := (leads_home plain split).follow_append (Path.parts path)
  rwa [← split, List.dropLast_concat, split]

end

/-! ## Maps with the same directories -/

/-- The maps have the same working directory and the same directories. -/
structure SameDirectories (files now : FileMap) : Prop where
  home : now.home = files.home
  directories : ∀ place, files.IsDirectory place ↔ now.IsDirectory place

namespace SameDirectories

theorem refl (files : FileMap) : files.SameDirectories files := ⟨rfl, fun _ => Iff.rfl⟩

theorem symm (same : files.SameDirectories now) : now.SameDirectories files :=
  ⟨same.home.symm, fun place => (same.directories place).symm⟩

theorem start (same : files.SameDirectories now) (path : String) : now.start path = files.start path := by
  rw [FileMap.start, FileMap.start, same.home]

/-- All places on the way to a directory are directories, so the way is there in the other map too. -/
theorem leads (same : files.SameDirectories now) {start last parts : List String}
    (leads : files.Leads start parts last) (ends : files.IsDirectory last) : now.Leads start parts last := by
  induction leads with
  | stay => exact .stay
  | silent here quiet onward ih => exact .silent ((same.directories _).mp here) quiet (ih ends)
  | up here onward ih => exact .up ((same.directories _).mp here) (ih ends)
  | @down place name rest last here heard inward present onward ih =>
      have next : now.IsDirectory (place ++ [name]) := (same.directories _).mp (onward.directory ends)
      exact .down ((same.directories _).mp here) heard inward (by rw [next]; rfl) (ih ends)

theorem put (same : files.SameDirectories now) (free : ¬ now.IsDirectory place) (bytes : ByteArray) :
    files.SameDirectories (now.put place (.file bytes)) where
  home := same.home
  directories other := by
    rw [same.directories other]
    by_cases here : other = place
    · subst here
      apply iff_of_false free
      rw [IsDirectory, lookup_put_self free]
      simp
    · rw [IsDirectory, IsDirectory, lookup_put_of_ne here]

end SameDirectories

/-! ## Files that no source path leads to -/

/-- The maps have the same directories, and the same files under the names of sources. -/
structure Varies (files now : FileMap) : Prop extends files.SameDirectories now where
  sources : ∀ directory name, Path.extension? name = some sourceExtension →
    now.lookup (directory ++ [name]) = files.lookup (directory ++ [name])

namespace Varies

theorem refl (files : FileMap) : files.Varies files := ⟨.refl files, fun _ _ _ => rfl⟩

theorem symm (varies : files.Varies now) : now.Varies files :=
  ⟨varies.toSameDirectories.symm, fun directory name source => (varies.sources directory name source).symm⟩

theorem put (varies : files.Varies now) {directory : List String} {name : String}
    (other : Path.extension? name ≠ some sourceExtension) (free : ¬ now.IsDirectory (directory ++ [name]))
    (bytes : ByteArray) : files.Varies (now.put (directory ++ [name]) (.file bytes)) where
  toSameDirectories := varies.toSameDirectories.put free bytes
  sources inner entry source := by
    rw [lookup_put_of_ne, varies.sources inner entry source]
    intro same
    have alike : entry = name := by simpa using congrArg List.getLast? same
    exact other (alike ▸ source)

end Varies

/-! ## Files and their siblings -/

/-- The path names something in a directory, whether or not it is there. -/
structure Reaches (files : FileMap) (path : String) (directory : List String) (name : String) : Prop where
  way : ∃ front, Path.parts path = front ++ [name] ∧ files.Leads (files.start path) front directory
  within : files.IsDirectory directory

/-- The path leads to a file in a directory, under a name of its own. -/
structure Finds (files : FileMap) (path : String) (directory : List String) (name : String)
    (bytes : ByteArray) : Prop extends files.Reaches path directory name where
  heard : Path.isSilent name = false
  inward : name ≠ ".."
  file : files.lookup (directory ++ [name]) = some (.file bytes)

theorem read_eq_ok_iff {path : String} {bytes : ByteArray} :
    files.read path = .ok bytes ↔
      ∃ place, files.locate path = .ok place ∧ files.lookup place = some (.file bytes) := by
  cases located : files.locate path with
  | error e => simp [read, located, bind, Except.bind]
  | ok place =>
      cases entry : files.lookup place with
      | none => simp [read, located, entry, bind, Except.bind]
      | some content =>
          cases content with
          | directory => simp [read, located, entry, bind, Except.bind]
          | file stored => simp [read, located, entry, bind, Except.bind]

namespace Reaches

variable {path name other : String} {directory : List String}

theorem of_sameDirectories (reaches : files.Reaches path directory name) (same : files.SameDirectories now) :
    now.Reaches path directory name where
  way := by
    obtain ⟨front, split, leads⟩ := reaches.way
    rw [same.start]
    exact ⟨front, split, same.leads leads reaches.within⟩
  within := (same.directories _).mp reaches.within

theorem fileName (reaches : files.Reaches path directory name) : Path.fileName path = name := by
  obtain ⟨front, split, _⟩ := reaches.way
  simp [Path.fileName, split]

/-- The directory's part of the path may lose parts at its end, but none that leads anywhere. -/
theorem sibling (reaches : files.Reaches path directory name) (plain : '/' ∉ other.toList) :
    files.Reaches (Path.sibling path other) directory other where
  way := by
    obtain ⟨front, split, leads⟩ := reaches.way
    obtain ⟨dropped, trimmed, quiet⟩ := Path.directoryParts_append front
    have parts : Path.parts (Path.sibling path other) = Path.directoryParts front ++ [other] := by
      rw [Path.sibling, split, List.dropLast_concat]
      apply Path.parts_ofParts (by simp)
      intro piece member
      cases List.mem_append.mp member with
      | inl old =>
          have given : piece ∈ Path.parts path := by
            rw [split, trimmed]
            exact List.mem_append_left _ (List.mem_append_left _ old)
          exact Path.slash_not_mem_of_mem_parts given
      | inr new =>
          rw [List.mem_singleton.mp new]
          exact plain
    have start : files.start (Path.sibling path other) = files.start path := by
      rw [FileMap.start, FileMap.start, Path.isAbsolute, Path.isAbsolute, parts, split, List.dropLast_concat,
        List.dropLast_concat]
      cases front with
      | nil => rfl
      | cons first rest => rfl
    refine ⟨Path.directoryParts front, parts, ?_⟩
    rw [trimmed] at leads
    obtain ⟨middle, begun, ended⟩ := leads.split
    rw [start, ← ended.of_silent quiet]
    exact begun
  within := reaches.within

theorem write (reaches : files.Reaches path directory name) (content : ByteArray) :
    files.write path content =
      match files.lookup (directory ++ [name]) with
      | some .directory => .error .isDirectory
      | _ => .ok (files.put (directory ++ [name]) (.file content)) := by
  obtain ⟨front, split, leads⟩ := reaches.way
  have located : files.locateDirectory path = .ok directory := by
    rw [locateDirectory, split, List.dropLast_concat]
    exact leads.follow
  have fileName := reaches.fileName
  have here : files.lookup directory = some .directory := reaches.within
  rw [FileMap.write, located]
  simp only [bind, Except.bind, here, fileName]
  rfl

theorem write_eq_ok_iff (reaches : files.Reaches path directory name) {content : ByteArray} :
    files.write path content = .ok now ↔
      files.lookup (directory ++ [name]) ≠ some .directory ∧
        now = files.put (directory ++ [name]) (.file content) := by
  rw [reaches.write]
  split
  · rename_i taken
    simp [taken]
  · rename_i free
    rw [Except.ok.injEq, eq_comm]
    exact (and_iff_right free).symm

theorem lookup_of_write_eq_error (reaches : files.Reaches path directory name) {content : ByteArray}
    {error : FileError} (refused : files.write path content = .error error) :
    files.lookup (directory ++ [name]) = some .directory := by
  rw [reaches.write] at refused
  split at refused
  · assumption
  · contradiction

end Reaches

namespace Finds

variable {path name : String} {directory : List String} {bytes : ByteArray}

theorem locate (finds : files.Finds path directory name bytes) :
    files.locate path = .ok (directory ++ [name]) := by
  obtain ⟨front, split, leads⟩ := finds.way
  rw [FileMap.locate, split]
  apply (leads.append (.down finds.within finds.heard finds.inward ?_ .stay)).follow
  rw [finds.file]
  rfl

theorem unique (finds : files.Finds path directory name bytes) {place : List String} {content : ByteArray}
    (also : files.Finds path place name content) : directory = place := by
  have same := Except.ok.inj (finds.locate.symm.trans also.locate)
  exact (List.append_inj' same rfl).1

theorem read (finds : files.Finds path directory name bytes) : files.read path = .ok bytes :=
  read_eq_ok_iff.mpr ⟨_, finds.locate, finds.file⟩

theorem of_varies (finds : files.Finds path directory name bytes) (varies : files.Varies now)
    (source : Path.extension? name = some sourceExtension) : now.Finds path directory name bytes where
  toReaches := finds.toReaches.of_sameDirectories varies.toSameDirectories
  heard := finds.heard
  inward := finds.inward
  file := by rw [varies.sources _ _ source, finds.file]

end Finds

theorem exists_finds {path : String} {bytes : ByteArray} (read : files.read path = .ok bytes) :
    ∃ directory, files.Finds path directory (Path.lastName path) bytes := by
  obtain ⟨last, located, file⟩ := read_eq_ok_iff.mp read
  have notDirectory : ¬ files.IsDirectory last := by
    rw [IsDirectory, file]
    simp
  obtain ⟨front, name, split⟩ : ∃ front name, Path.parts path = front ++ [name] := by
    have some_part := Path.parts_ne_nil path
    exact ⟨_, _, (List.dropLast_concat_getLast some_part).symm⟩
  rw [locate, split, follow_eq_ok_iff] at located
  obtain ⟨middle, leads, step⟩ := located.split
  cases step with
  | silent here quiet onward =>
      cases onward
      contradiction
  | up here onward =>
      -- The way down to the place led through the directory that it lies in.
      rw [← onward.of_silent (by simp)] at notDirectory
      exact absurd (leads.rooted (.start files path)).isDirectory_dropLast notDirectory
  | down here heard up present onward =>
      cases onward
      rw [Path.lastName_of_parts split heard]
      exact ⟨middle, ⟨⟨front, split, leads⟩, here⟩, heard, up, file⟩

end FileMap

end Jack

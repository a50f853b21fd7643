import Lipi.Module.Files

set_option autoImplicit false

/-! # Which file a specifier names

A specifier without an extension means the file of that name, or else the script of that name. That
is the rule (`FileTree.ruled`). What is tried in fact (`FileTree.candidate`) stays as it is already if
anything stands there. **The two part at directories, and only there** (`candidate_eq_ruled`,
`candidate_of_directory`): the name of a directory gets no extension, and a directory is no module.

A file is known by its absolute path. Where names have no slash in them, as in every file system,
different files have different paths (`absolutePath_injective`), so that the text of a module and the
directory that it lies in can be found from its identity.
-/

namespace Lipi

/-- Whether the name at the end of a route has no extension. -/
def Route.isBare (route : Route) : Bool :=
  !(route.fileName?.any Route.hasExtension)

namespace FileTree

variable {t : FileTree} {route : Route} {names names' : List String}

/-! ## What stands at the end of a route -/

/-- A directory stands at the end of a route. -/
def IsDirectory (t : FileTree) (route : Route) : Prop :=
  ∃ place, t.find route = .ok (place, .directory)

/-- A file that is found has a place inside the tree. -/
theorem inside_of_find {place : Place} {bytes : ByteArray}
    (h : t.find route = .ok (place, .file bytes)) :
    ∃ names, place = .inside names ∧ t.entry? names = some (.file bytes) := by
  unfold find at h
  by_cases hsize : maxPathSize < route.size
  · rw [if_pos hsize] at h
    cases h
  rw [if_neg hsize] at h
  cases hwalk : route.parts.foldlM t.step route.start with
  | error e =>
      rw [hwalk] at h
      cases h
  | ok ended =>
      rw [hwalk] at h
      cases ended with
      | outside => cases h
      | inside names =>
          simp only [bind, Except.bind] at h
          split at h
          · cases h
          · cases h
          next hentry =>
            split at h
            · cases h
            · cases h
              exact ⟨names, rfl, hentry⟩

theorem file?_eq_some : t.file? route = some names ↔
    ∃ bytes, t.find route = .ok (.inside names, .file bytes) := by
  unfold file?
  split
  next names' bytes hfind =>
    rw [hfind]
    constructor
    · rintro ⟨⟩
      exact ⟨bytes, rfl⟩
    · rintro ⟨bytes, heq⟩
      cases heq
      rfl
  next hnone =>
    refine iff_of_false (fun heq => nomatch heq) ?_
    rintro ⟨bytes, hfind⟩
    exact hnone names bytes hfind

/-- A file stands where it is found. -/
theorem entry?_of_file? (h : t.file? route = some names) :
    ∃ bytes, t.entry? names = some (.file bytes) := by
  obtain ⟨bytes, hfind⟩ := file?_eq_some.mp h
  obtain ⟨_, heq, hentry⟩ := inside_of_find hfind
  cases heq
  exact ⟨bytes, hentry⟩

theorem IsDirectory.file?_eq_none (h : t.IsDirectory route) : t.file? route = none := by
  obtain ⟨place, hfind⟩ := h
  refine Option.eq_none_iff_forall_ne_some.mpr fun names hfile => ?_
  obtain ⟨bytes, hfound⟩ := file?_eq_some.mp hfile
  exact nomatch hfind.symm.trans hfound

/-- What stands at the end of a route is a file or a directory. -/
theorem hasEntry_iff : t.hasEntry route = true ↔
    (∃ names, t.file? route = some names) ∨ t.IsDirectory route := by
  unfold hasEntry
  cases hfind : t.find route with
  | error e =>
      refine iff_of_false Bool.false_ne_true ?_
      rintro (⟨names, hfile⟩ | ⟨place, hdirectory⟩)
      · obtain ⟨bytes, hfound⟩ := file?_eq_some.mp hfile
        exact nomatch hfind.symm.trans hfound
      · exact nomatch hfind.symm.trans hdirectory
  | ok found =>
      refine iff_of_true rfl ?_
      obtain ⟨place, entry⟩ := found
      cases entry with
      | file bytes =>
          obtain ⟨names, rfl, -⟩ := inside_of_find hfind
          exact .inl ⟨names, file?_eq_some.mpr ⟨bytes, hfind⟩⟩
      | directory => exact .inr ⟨place, hfind⟩

/-! ## What is tried -/

/-- What the rule says is tried: a name without an extension that is no file gets the extension of
scripts. -/
def ruled (t : FileTree) (route : Route) : Route :=
  if route.isBare ∧ t.file? route = none then route.addExtension scriptExtension else route

theorem candidate_eq (t : FileTree) (route : Route) : t.candidate route =
    if route.isBare && !t.hasEntry route then route.addExtension scriptExtension else route :=
  rfl

/-- The name of a directory is tried as it is. -/
theorem candidate_of_directory (h : t.IsDirectory route) : t.candidate route = route := by
  rw [candidate_eq, hasEntry_iff.mpr (.inr h), Bool.not_true, Bool.and_false,
    if_neg Bool.false_ne_true]

theorem ruled_of_directory (hbare : route.isBare = true) (h : t.IsDirectory route) :
    t.ruled route = route.addExtension scriptExtension := by
  unfold ruled
  rw [if_pos ⟨hbare, h.file?_eq_none⟩]

/-- **Apart from directories without an extension, what is tried is what the rule says.** -/
theorem candidate_eq_ruled (h : ¬ (route.isBare = true ∧ t.IsDirectory route)) :
    t.candidate route = t.ruled route := by
  rw [candidate_eq]
  unfold ruled
  cases hbare : route.isBare with
  | false => simp
  | true =>
      have hsame : t.hasEntry route = true ↔ ¬ t.file? route = none := by
        rw [hasEntry_iff, ← ne_eq, Option.ne_none_iff_exists']
        exact or_iff_left fun hdirectory => h ⟨hbare, hdirectory⟩
      by_cases hfile : t.file? route = none
      · have hnone : t.hasEntry route = false := by
          rw [Bool.eq_false_iff, ne_eq, hsame]
          exact not_not_intro hfile
        rw [hnone, Bool.not_false, Bool.and_self, if_pos rfl, if_pos ⟨rfl, hfile⟩]
      · rw [hsame.mpr hfile, Bool.not_true, Bool.and_false, if_neg Bool.false_ne_true,
          if_neg fun hboth => hfile hboth.2]

/-- The path that an importer means by a specifier. -/
def specified (t : FileTree) (root : Route) (specifier : String) (importer : Option ModuleId) :
    Route :=
  t.join (t.importBase root importer) specifier

theorem resolveModule_eq (t : FileTree) (root : Route) (specifier : String)
    (importer : Option ModuleId) : t.resolveModule root specifier importer =
      match t.file? (t.candidate (t.specified root specifier importer)) with
      | some names => .ok (t.absolutePath names)
      | none => .error .notFound := by
  unfold resolveModule specified
  rfl

theorem loader_resolve (t : FileTree) (root : Route) :
    (t.loader root).resolve = t.resolveModule root :=
  rfl

theorem resolveModule_eq_ok {root : Route} {specifier : String} {importer : Option ModuleId}
    {id : ModuleId} : t.resolveModule root specifier importer = .ok id ↔
      ∃ names, t.file? (t.candidate (t.specified root specifier importer)) = some names ∧
        id = t.absolutePath names := by
  rw [resolveModule_eq]
  cases t.file? (t.candidate (t.specified root specifier importer)) with
  | none => exact iff_of_false (fun heq => nomatch heq) fun ⟨_, heq, _⟩ => nomatch heq
  | some names =>
      constructor
      · rintro ⟨⟩
        exact ⟨names, rfl, rfl⟩
      · rintro ⟨_, ⟨⟩, rfl⟩
        rfl

theorem resolveModule_eq_error {root : Route} {specifier : String} {importer : Option ModuleId}
    {e : LoadError} : t.resolveModule root specifier importer = .error e ↔
      t.file? (t.candidate (t.specified root specifier importer)) = none ∧ e = .notFound := by
  rw [resolveModule_eq]
  cases t.file? (t.candidate (t.specified root specifier importer)) with
  | none =>
      constructor
      · rintro ⟨⟩
        exact ⟨rfl, rfl⟩
      · rintro ⟨-, rfl⟩
        rfl
  | some names => exact iff_of_false (fun heq => nomatch heq) fun h => nomatch h.1

/-! ## Absolute paths -/

/-- Names as file systems have them: there is one, and none has a slash in it. -/
def Named (names : List String) : Prop :=
  names ≠ [] ∧ ∀ name ∈ names, '/' ∉ name.toList

/-- Everything in the tree is named as in file systems. -/
def WellNamed (t : FileTree) : Prop :=
  ∀ entry ∈ t.entries, Named entry.1

/-- A path of names without slashes gives the names back. -/
theorem Named.splitOn (h : Named names) :
    List.splitOn '/' ("/".intercalate names).toList = names.map String.toList := by
  rw [String.toList_intercalate]
  refine List.splitOn_intercalate '/' (fun l hl => ?_) (by simpa using h.1)
  obtain ⟨name, hname, rfl⟩ := List.mem_map.mp hl
  exact h.2 name hname

/-- **Different files have different paths.** -/
theorem absolutePath_injective (h : Named names) (h' : Named names')
    (hpath : t.absolutePath names = t.absolutePath names') : names = names' := by
  unfold absolutePath at hpath
  have htext := (String.append_right_inj _).mp hpath
  have hsplit := congrArg (fun text : String => List.splitOn '/' text.toList) htext
  rw [h.splitOn, h'.splitOn] at hsplit
  exact (List.map_inj_right fun _ _ => String.toList_inj.mp).mp hsplit

/-- A file has the entry that was made last for its place. -/
theorem find?_of_file {bytes : ByteArray} (h : t.entry? names = some (.file bytes)) :
    t.entries.find? (·.1 == names) = some (names, .file bytes) := by
  unfold entry? at h
  by_cases hroot : names.isEmpty = true
  · rw [if_pos hroot] at h
    cases h
  rw [if_neg hroot] at h
  cases hfound : t.entries.find? (·.1 == names) with
  | none =>
      rw [hfound] at h
      dsimp only at h
      split at h <;> cases h
  | some entry =>
      rw [hfound] at h
      obtain ⟨other, what⟩ := entry
      cases h
      obtain rfl : other = names := by simpa using List.find?_some hfound
      rfl

theorem WellNamed.named (hnamed : t.WellNamed) {bytes : ByteArray}
    (h : t.entry? names = some (.file bytes)) : Named names :=
  hnamed _ (List.mem_of_find?_eq_some (find?_of_file h))

/-- The directory of a file is found from its path. -/
theorem importBase_absolutePath (hnamed : t.WellNamed) (root : Route) {bytes : ByteArray}
    (h : t.entry? names = some (.file bytes)) :
    t.importBase root (some (t.absolutePath names)) = t.directory names.dropLast := by
  have hmem := List.mem_of_find?_eq_some (find?_of_file h)
  have hdirectory : t.directoryOf? (t.absolutePath names) = some names.dropLast := by
    unfold directoryOf?
    cases hfound : t.entries.find? (t.absolutePath ·.1 == t.absolutePath names) with
    | none =>
        have hnone := List.find?_eq_none.mp hfound _ hmem
        exact absurd (beq_self_eq_true _) hnone
    | some entry =>
        have hpath := List.find?_some hfound
        have hnames := absolutePath_injective (hnamed entry (List.mem_of_find?_eq_some hfound))
          (hnamed.named h) (beq_iff_eq.mp hpath)
        rw [← hnames]
        rfl
  unfold importBase
  simp only [hdirectory]

/-- The text of a file is found from its path. -/
theorem read_absolutePath (hnamed : t.WellNamed) (root : Route) {bytes : ByteArray}
    (h : t.entry? names = some (.file bytes)) :
    (t.loader root).read (t.absolutePath names) = t.moduleText names bytes := by
  -- the file has the first entry with its names, and so the first one with its path
  have hfirst : ∀ entries : List (List String × Entry), (∀ entry ∈ entries, Named entry.1) →
      entries.find? (·.1 == names) = some (names, .file bytes) →
      Dict.find? (t.absolutePath names) (entries.filterMap t.moduleOf?) =
        some (t.moduleText names bytes) := by
    intro entries hentries hfound
    induction entries with
    | nil => cases hfound
    | cons entry entries ih =>
        obtain ⟨other, what⟩ := entry
        by_cases hnames : other = names
        · subst hnames
          rw [List.find?_cons_of_pos (by simp)] at hfound
          cases hfound
          exact if_pos rfl
        · rw [List.find?_cons_of_neg (by simpa using hnames)] at hfound
          have hrest := ih (fun entry hentry => hentries entry (List.mem_cons_of_mem _ hentry)) hfound
          cases what with
          | directory => exact hrest
          | file bytes' =>
              have hpath : t.absolutePath other ≠ t.absolutePath names := fun heq =>
                hnames (absolutePath_injective (hentries _ List.mem_cons_self) (hnamed.named h) heq)
              exact (if_neg hpath).trans hrest
  have hread : (t.loader root).catalog.get? (t.absolutePath names) =
      some (t.moduleText names bytes) :=
    hfirst t.entries hnamed (find?_of_file h)
  unfold Loader.read
  rw [hread]
  rfl

end FileTree

end Lipi

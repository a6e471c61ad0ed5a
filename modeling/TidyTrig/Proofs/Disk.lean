import Mathlib.Data.List.Basic
import TidyTrig.Disk

/-!
# Writing a file that is there

A file that can be read can be written (`exists_of_write`). Writing it leaves every path where it led,
and changes what is read at the place of the file and nowhere else.
-/

namespace TidyTrig.Disk

variable {disk : Disk} {place : List String} {former : Bytes}

/-! ## Places -/

theorem place_of_find? {file : File} (h : disk.files.find? (·.place = place) = some file) :
    file.place = place := by
  simpa using List.find?_some h

theorem any_place_of_node (h : disk.node place = .file former) :
    disk.files.any (·.place = place) = true := by
  unfold node at h
  split at h
  · next file hfile =>
    exact List.any_eq_true.2
      ⟨file, List.mem_of_find?_eq_some hfile, decide_eq_true (place_of_find? hfile)⟩
  · split at h <;> cases h

/-- New contents change what is at their place alone. -/
theorem node_put (h : disk.node place = .file former) (contents : Bytes) (other : List String) :
    (disk.put place contents).node other
      = if other = place then .file contents else disk.node other := by
  -- New contents stand in for old ones at the same place, so searches by place find the same.
  have hplace : ∀ file : File,
      (if file.place = place then (⟨place, contents⟩ : File) else file).place = file.place := by
    intro file
    split
    · next heq => exact heq.symm
    · rfl
  have hany := any_place_of_node h
  rw [put, if_pos hany]
  by_cases hother : other = place
  · subst hother
    obtain ⟨file, hfile⟩ := Option.isSome_iff_exists.1 (List.find?_isSome.2 (List.any_eq_true.1 hany))
    simp only [node, List.find?_map, Function.comp_def, hplace, hfile, Option.map_some,
      place_of_find? hfile, if_true]
  · have hfound : ∀ file ∈ disk.files.find? (·.place = other), file.place ≠ place := by
      intro file hfile heq
      exact hother ((place_of_find? hfile).symm.trans heq)
    simp only [node, List.find?_map, List.any_map, Function.comp_def, hplace, if_neg hother]
    cases hfind : disk.files.find? (·.place = other) with
    | none => rfl
    | some file => simp [hfound file hfind]

/-- Paths lead where they led, as files stay files. -/
theorem follow_put (h : disk.node place = .file former) (contents : Bytes) (start : List String)
    (names : List String) : (disk.put place contents).follow start names = disk.follow start names := by
  induction names generalizing start with
  | nil => rfl
  | cons name rest ih =>
    rw [follow, follow, node_put h]
    by_cases hstart : start = place
    · rw [if_pos hstart, hstart, h]
    · rw [if_neg hstart]
      simp only [ih]

theorem locate_put (h : disk.node place = .file former) (contents : Bytes) (path : String) :
    (disk.put place contents).locate path = disk.locate path := by
  simp only [locate, follow_put h]

/-! ## Paths -/

/-- What reading a place gives. -/
def Node.contents : Node → Except Fault Bytes
  | .file contents => .ok contents
  | .directory => .error .isDirectory
  | .missing => .error .notFound

theorem read_of_locate {path : String} (h : disk.locate path = .ok place) :
    disk.read path = (disk.node place).contents := by
  rw [read, h]
  dsimp only [bind, Except.bind]
  cases disk.node place <;> rfl

/-- What can be read is a file at some place. -/
theorem of_read {path : String} (h : disk.read path = .ok former) :
    ∃ place, disk.locate path = .ok place ∧ disk.node place = .file former := by
  cases hlocate : disk.locate path with
  | error fault =>
    rw [read, hlocate] at h
    cases h
  | ok place =>
    rw [read_of_locate hlocate] at h
    refine ⟨place, rfl, ?_⟩
    cases hnode : disk.node place with
    | file contents =>
      rw [hnode] at h
      rw [Except.ok.inj h]
    | directory | missing =>
      rw [hnode] at h
      cases h

/-- Following names and then staying ends in a directory. -/
theorem node_of_follow_dot {start place : List String} {names : List String}
    (h : disk.follow start (names ++ ["."]) = .ok place) : disk.node place = .directory := by
  induction names generalizing start with
  | nil =>
    rw [List.nil_append, follow] at h
    split at h
    · cases h
    · cases h
    · next hnode =>
      -- The last name is followed from a directory alone, and stays there.
      have hdot : ¬ longestName < (Utf8.encode ".").length := by decide
      rw [if_neg hdot] at h
      have hsame : step start "." = place := Except.ok.inj h
      rw [← hsame, step, if_pos rfl, hnode]
  | cons name rest ih =>
    rw [List.cons_append, follow] at h
    split at h
    · cases h
    · cases h
    · split at h
      · cases h
      · exact ih h

/-- A file that can be read can be written. Paths lead where they led, and what leads to another
place is read as before. -/
theorem exists_of_write {path : String} (h : disk.read path = .ok former) (contents : Bytes) :
    ∃ disk', disk.write path contents = .ok disk'
      ∧ (∀ other, disk'.locate other = disk.locate other)
      ∧ ∀ other, disk'.read other
        = if disk.locate other = disk.locate path then .ok contents else disk.read other := by
  obtain ⟨place, hlocate, hnode⟩ := of_read h
  have hcheck : checkPath path = .ok () := by
    cases hcheck : checkPath path with
    | ok => rfl
    | error fault =>
      rw [locate, hcheck] at hlocate
      cases hlocate
  -- A path that ends in a slash leads to a directory, if it leads anywhere.
  have hslash : endsWithSlash path = false := by
    cases hslash : endsWithSlash path with
    | false => rfl
    | true =>
      have hfollow : disk.follow [] (names path ++ ["."]) = .ok place := by
        rw [locate, hcheck, hslash] at hlocate
        exact hlocate
      rw [node_of_follow_dot hfollow] at hnode
      cases hnode
  refine ⟨disk.put place contents, ?_, locate_put hnode contents, ?_⟩
  · rw [write, hcheck, hslash, hlocate]
    dsimp only [bind, Except.bind]
    rw [if_neg Bool.false_ne_true, hnode]
  · intro other
    have hother := locate_put hnode contents other
    rw [hlocate]
    cases hplace : disk.locate other with
    | error fault =>
      rw [if_neg nofun, read, read, hother, hplace]
      rfl
    | ok place' =>
      rw [read_of_locate (hother.trans hplace), read_of_locate hplace, node_put hnode]
      by_cases hsame : place' = place
      · rw [if_pos hsame, if_pos (congrArg Except.ok hsame), Node.contents]
      · rw [if_neg hsame, if_neg fun heq => hsame (Except.ok.inj heq)]

end TidyTrig.Disk

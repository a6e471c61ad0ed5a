import TidyTrig.CommandLine.Run
import TidyTrig.Proofs.Disk
import TidyTrig.Proofs.Malformed

/-!
# Checking predicts formatting

Formatting some files and only checking them find the same: of each file whether it is malformed,
canonical or to be rewritten (`Fate`). A step is one file (`exists_of_formatFile`), and what it leaves
of the other files is all that the steps after it need. What both runs print, how they exit and what
they leave on the disk follow from the findings (`check_predicts_format`).
-/

namespace TidyTrig

open Utf8

namespace CommandLine

/-! ## One file -/

section

variable {labels : Nat → String} {s : FormatSettings} {content after : Bytes}
  {outcome : FormatOutcome} {disk : Disk} {path : String}

/-- A file gets its fate, or is checked for it. All else is as before. -/
theorem exists_of_formatFile (hread : disk.read path = .ok content)
    (h : Fate labels s content outcome after) (onlyCheck : Bool) :
    ∃ disk', formatFile labels s onlyCheck disk path = .ok (outcome, disk')
      ∧ (onlyCheck = true → disk' = disk)
      ∧ (∀ other, disk'.locate other = disk.locate other)
      ∧ (disk'.read path = .ok (if onlyCheck then content else after))
      ∧ ∀ other, disk.locate other ≠ disk.locate path → disk'.read other = disk.read other := by
  unfold formatFile
  cases onlyCheck with
  | true =>
    refine ⟨disk, ?_, fun _ => rfl, fun _ => rfl, hread, fun _ _ => rfl⟩
    rw [if_pos rfl, hread]
    dsimp only
    cases hdecode : decode? content with
    | none => rw [h.eq_malformed hdecode]
    | some text =>
      rw [decode?_eq_some_iff] at hdecode
      -- The copy holds the same text, and nothing is refused of it.
      have hopened : Buffer.document.read (.ofText text) = .ok content (.ofText text) := by
        rw [hdecode]
        rfl
      obtain ⟨left, hformat, -⟩ := h.exists_of_format hopened fun text' => ⟨_, rfl⟩
      simp only [hformat]
  | false =>
    have hopened : (Disk.document path).read disk = .ok content disk := by
      simp only [Disk.document, hread]
    have hwrite : ∀ text, ∃ written, (Disk.document path).write text disk = .ok () written := by
      intro text
      obtain ⟨written, hwritten, -⟩ := Disk.exists_of_write hread (encode text)
      exact ⟨written, by simp only [Disk.document, hwritten]⟩
    obtain ⟨disk', hformat, hkept, hrewritten⟩ := h.exists_of_format hopened hwrite
    refine ⟨disk', ?_, nofun, ?_⟩
    · rw [if_neg Bool.false_ne_true, hformat]
    · by_cases houtcome : outcome = .formatted true
      · obtain ⟨canonical, hafter, hwritten⟩ := hrewritten houtcome
        obtain ⟨written, hdisk, hlocate, hothers⟩ := Disk.exists_of_write hread (encode canonical)
        simp only [Disk.document, hdisk] at hwritten
        -- There is one disk that writing leaves.
        cases hwritten
        refine ⟨hlocate, ?_, ?_⟩
        · rw [hothers, if_pos rfl, hafter]
          rfl
        · intro other hother
          rw [hothers, if_neg hother]
      · -- What is not written is what the fate of the content asks for.
        rw [hkept houtcome]
        have hsame : after = content := by
          by_contra hne
          exact houtcome (h.after_ne_iff.1 hne)
        exact ⟨fun _ => rfl, by rw [hread, hsame]; rfl, fun _ _ => rfl⟩

end

/-! ## Files one after the other -/

/-- What was found of a file. -/
structure Finding where
  path : String
  former : Bytes
  outcome : FormatOutcome
  /-- The contents if the file is formatted. -/
  after : Bytes

namespace Finding

def isMalformed (f : Finding) : Bool := f.outcome = .malformed

def isChanged (f : Finding) : Bool := f.outcome = .formatted true

end Finding

/-- A line for each file that changes. -/
def changedLines (verb : String) (findings : List Finding) : String :=
  String.join ((findings.filter Finding.isChanged).map fun f => verb ++ " " ++ f.path ++ "\n")

/-- A line for each malformed file. -/
def malformedLines (findings : List Finding) : String :=
  String.join ((findings.filter Finding.isMalformed).map fun f =>
    f.path ++ ": malformed, left unchanged\n")

/-- The line with the totals. -/
def totalLine (verb : String) (findings : List Finding) : String :=
  s!"{findings.length} file(s) checked, {findings.countP Finding.isChanged} {verb}\n"

/-- The progress when some more files were handled. -/
def Progress.plus (p : Progress) (onlyCheck : Bool) (findings : List Finding) (disk : Disk) :
    Progress where
  disk
  stdout := p.stdout
    ++ changedLines (if onlyCheck then "would reformat" else "reformatted") findings
  stderr := p.stderr ++ malformedLines findings
  handled := p.handled + findings.length
  changed := p.changed + findings.countP Finding.isChanged
  malformed := p.malformed + findings.countP Finding.isMalformed

theorem Progress.disk_add (p : Progress) (onlyCheck : Bool) (path : String) (disk : Disk)
    (outcome : FormatOutcome) : (p.add onlyCheck path disk outcome).disk = disk := by
  cases outcome with
  | malformed => rfl
  | formatted isChanged => cases isChanged <;> rfl

theorem Progress.handled_add (p : Progress) (onlyCheck : Bool) (path : String) (disk : Disk)
    (outcome : FormatOutcome) : (p.add onlyCheck path disk outcome).handled = p.handled + 1 := by
  cases outcome with
  | malformed => rfl
  | formatted isChanged => cases isChanged <;> rfl

/-- Handling a file and then more is handling them all. -/
theorem Progress.plus_add (p : Progress) (onlyCheck : Bool) (f : Finding) (findings : List Finding)
    (disk disk' : Disk) :
    (p.add onlyCheck f.path disk f.outcome).plus onlyCheck findings disk'
      = p.plus onlyCheck (f :: findings) disk' := by
  obtain ⟨path, former, outcome, after⟩ := f
  cases outcome with
  | malformed =>
    simp [add, plus, changedLines, malformedLines, Finding.isChanged, Finding.isMalformed,
      String.append_assoc, Nat.add_comm, Nat.add_left_comm]
  | formatted isChanged =>
    cases isChanged <;> cases onlyCheck <;>
    simp [add, plus, changedLines, malformedLines, Finding.isChanged, Finding.isMalformed,
      String.append_assoc, Nat.add_comm, Nat.add_left_comm]

section

variable {labels : Nat → Nat → String} {s : FormatSettings}

/-- Whether findings are right for a disk, where the first file gets the labels of this number. -/
def AreFound (labels : Nat → Nat → String) (s : FormatSettings) (disk : Disk) (number : Nat)
    (findings : List Finding) : Prop :=
  ∀ n f, findings[n]? = some f →
    disk.read f.path = .ok f.former ∧ Fate (labels (number + n)) s f.former f.outcome f.after

theorem areFound_cons_iff {disk : Disk} {number : Nat} {f : Finding} {findings : List Finding} :
    AreFound labels s disk number (f :: findings)
      ↔ (disk.read f.path = .ok f.former ∧ Fate (labels number) s f.former f.outcome f.after)
        ∧ AreFound labels s disk (number + 1) findings := by
  have hnumber : ∀ n, number + 1 + n = number + (n + 1) := by omega
  constructor
  · intro h
    refine ⟨h 0 f rfl, ?_⟩
    intro n g hg
    rw [hnumber]
    exact h (n + 1) g hg
  · rintro ⟨hfirst, hrest⟩ n g hg
    cases n with
    | zero =>
      cases hg
      exact hfirst
    | succ n =>
      rw [← hnumber]
      exact hrest n g hg

/-- Files that can be read have findings. -/
theorem exists_findings {base : Option Iri} (hbase : s.options.base? = .ok base)
    (labels : Nat → Nat → String) {disk : Disk} {paths : List String}
    (hreadable : ∀ path ∈ paths, (disk.read path).isOk) (number : Nat) :
    ∃ findings, findings.map Finding.path = paths ∧ AreFound labels s disk number findings := by
  induction paths generalizing number with
  | nil => exact ⟨[], rfl, nofun⟩
  | cons path paths ih =>
    obtain ⟨hpath, hpaths⟩ := List.forall_mem_cons.1 hreadable
    obtain ⟨findings, hfindings, hfound⟩ := ih hpaths (number + 1)
    cases hread : disk.read path with
    | error fault =>
      rw [hread] at hpath
      cases hpath
    | ok former =>
      obtain ⟨outcome, after, hfate, -⟩ := exists_fate hbase (labels number) former
      exact ⟨⟨path, former, outcome, after⟩ :: findings, by rw [List.map_cons, hfindings],
        areFound_cons_iff.2 ⟨⟨hread, hfate⟩, hfound⟩⟩

/-- A run handles all files, and each gets its fate, or is checked for it. Files that it was not
given are as before. -/
theorem exists_of_formatFiles (onlyCheck : Bool) {findings : List Finding} {p : Progress}
    (hfound : AreFound labels s p.disk p.handled findings)
    (hdistinct : findings.Pairwise fun f g => p.disk.locate f.path ≠ p.disk.locate g.path) :
    ∃ disk', formatFiles labels s onlyCheck p (findings.map Finding.path)
        = (p.plus onlyCheck findings disk', none)
      ∧ (onlyCheck = true → disk' = p.disk)
      ∧ (∀ f ∈ findings, disk'.read f.path = .ok (if onlyCheck then f.former else f.after))
      ∧ ∀ other, (∀ f ∈ findings, p.disk.locate other ≠ p.disk.locate f.path) →
        disk'.read other = p.disk.read other := by
  induction findings generalizing p with
  | nil =>
    refine ⟨p.disk, ?_, fun _ => rfl, nofun, fun _ _ => rfl⟩
    simp [formatFiles, Progress.plus, changedLines, malformedLines]
  | cons f findings ih =>
    obtain ⟨⟨hread, hfate⟩, hfound⟩ := areFound_cons_iff.1 hfound
    obtain ⟨hfirst, hrest⟩ := List.pairwise_cons.1 hdistinct
    obtain ⟨disk₁, hformat, hkept, hlocate, hwritten, hothers⟩ :=
      exists_of_formatFile hread hfate onlyCheck
    -- The files after this one are as they were.
    have hlater : AreFound labels s disk₁ (p.handled + 1) findings := by
      intro n g hg
      obtain ⟨hg', hfate'⟩ := hfound n g hg
      exact ⟨(hothers g.path (hfirst g (List.mem_of_getElem? hg)).symm).trans hg', hfate'⟩
    replace ih := @ih (p.add onlyCheck f.path disk₁ f.outcome)
    rw [Progress.disk_add, Progress.handled_add] at ih
    simp only [hlocate] at ih
    obtain ⟨disk', hall, hkept', hwritten', hothers'⟩ := ih hlater hrest
    refine ⟨disk', ?_, fun hcheck => (hkept' hcheck).trans (hkept hcheck), ?_, ?_⟩
    · rw [List.map_cons, formatFiles, hformat, ← Progress.plus_add]
      exact hall
    · -- No later file is where this one is, so it stays as it was left.
      intro g hg
      rcases List.mem_cons.1 hg with rfl | hg
      · rw [hothers' g.path hfirst, hwritten]
      · exact hwritten' g hg
    · intro other hother
      obtain ⟨hne, hnes⟩ := List.forall_mem_cons.1 hother
      rw [hothers' other hnes, hothers other hne]

/-! ## Both runs -/

/-- A run fails with a malformed file, and if it only checks, with one that would change. -/
theorem countP_add_eq_zero_iff (onlyCheck : Bool) (findings : List Finding) :
    (findings.countP Finding.isMalformed
        + if onlyCheck then findings.countP Finding.isChanged else 0) = 0
      ↔ (findings.any fun f => f.isMalformed || onlyCheck && f.isChanged) = false := by
  cases onlyCheck with
  | false => simp [List.countP_eq_zero]
  | true => simp [List.countP_eq_zero, forall_and]

/-- What a run over files prints, how it exits, and what it leaves. -/
theorem exists_of_runFormat (onlyCheck : Bool) {disk : Disk} {findings : List Finding}
    (hfound : AreFound labels s disk 0 findings)
    (hdistinct : findings.Pairwise fun f g => disk.locate f.path ≠ disk.locate g.path) :
    ∃ disk', runFormat labels s onlyCheck disk (findings.map Finding.path)
        = ⟨if findings.any fun f => f.isMalformed || onlyCheck && f.isChanged then 1 else 0,
          changedLines (if onlyCheck then "would reformat" else "reformatted") findings
            ++ totalLine (if onlyCheck then "would change" else "changed") findings,
          malformedLines findings, disk'⟩
      ∧ (onlyCheck = true → disk' = disk)
      ∧ (∀ f ∈ findings, disk'.read f.path = .ok (if onlyCheck then f.former else f.after))
      ∧ ∀ other, (∀ f ∈ findings, disk.locate other ≠ disk.locate f.path) →
        disk'.read other = disk.read other := by
  obtain ⟨disk', hall, hrest⟩ :=
    @exists_of_formatFiles labels s onlyCheck findings ⟨disk, "", "", 0, 0, 0⟩ hfound hdistinct
  refine ⟨disk', ?_, hrest⟩
  rw [runFormat, hall]
  simp only [Progress.plus, Nat.zero_add, String.empty_append, countP_add_eq_zero_iff, totalLine]
  cases findings.any _ <;> rfl

/-- Checking files leaves them, tells exactly those that formatting rewrites, in the same order, and
finds the same malformed. Formatting leaves a file as it was or with all of its canonical text, and
fails only with malformed ones, where checking also fails with those that would change. -/
theorem check_predicts_format {base : Option Iri} (hbase : s.options.base? = .ok base)
    (labels : Nat → Nat → String) {disk : Disk} {paths : List String}
    (hreadable : ∀ path ∈ paths, (disk.read path).isOk)
    (hdistinct : paths.Pairwise fun path path' => disk.locate path ≠ disk.locate path') :
    ∃ findings disk', findings.map Finding.path = paths ∧ AreFound labels s disk 0 findings
      ∧ runFormat labels s true disk paths
        = ⟨if findings.any fun f => f.isMalformed || f.isChanged then 1 else 0,
          changedLines "would reformat" findings ++ totalLine "would change" findings,
          malformedLines findings, disk⟩
      ∧ runFormat labels s false disk paths
        = ⟨if findings.any Finding.isMalformed then 1 else 0,
          changedLines "reformatted" findings ++ totalLine "changed" findings,
          malformedLines findings, disk'⟩
      ∧ (∀ f ∈ findings, disk'.read f.path = .ok f.after
        ∧ (f.isChanged = true ↔ f.after ≠ f.former))
      ∧ ∀ other, (∀ path ∈ paths, disk.locate other ≠ disk.locate path) →
        disk'.read other = disk.read other := by
  obtain ⟨findings, rfl, hfound⟩ := exists_findings hbase labels hreadable 0
  rw [List.pairwise_map] at hdistinct
  obtain ⟨checked, hcheck, hkept, -, -⟩ := exists_of_runFormat true hfound hdistinct
  obtain ⟨disk', hformat, -, hwritten, hothers⟩ := exists_of_runFormat false hfound hdistinct
  rw [hkept rfl] at hcheck
  refine ⟨findings, disk', rfl, hfound, hcheck, ?_, ?_, ?_⟩
  · simpa using hformat
  · intro f hf
    obtain ⟨n, hn⟩ := List.mem_iff_getElem?.1 hf
    refine ⟨hwritten f hf, ?_⟩
    rw [(hfound n f hn).2.after_ne_iff, Finding.isChanged, decide_eq_true_iff]
  · intro other hother
    apply hothers
    intro f hf
    exact hother f.path (List.mem_map_of_mem hf)

/-- A file to rewrite, a canonical one, a malformed one, and one that is no text. -/
theorem check_predicts_format_mixed :
    let disk : Disk := ⟨[⟨["a.trig"], encode "<u:> a<u:>."⟩, ⟨["b.trig"], encode "<u:> a <u:> .\n"⟩,
      ⟨["in", "c.trig"], encode "<u:> ."⟩, ⟨["d.ttl"], [byte '#', 0xFF]⟩], []⟩
    let paths := ["a.trig", "./b.trig", "in//c.trig", "d.ttl"]
    let check := runFormat (fun _ _ => "f") {} true disk paths
    let formatted := runFormat (fun _ _ => "f") {} false disk paths
    check.status = 1 ∧ check.disk = disk ∧ check.stderr = formatted.stderr
      ∧ check.stdout = "would reformat a.trig\n4 file(s) checked, 1 would change\n"
      ∧ formatted.status = 1 ∧ formatted.stdout = "reformatted a.trig\n4 file(s) checked, 1 changed\n"
      ∧ ∃ findings, findings.map Finding.path = paths ∧ AreFound (fun _ _ => "f") {} disk 0 findings
        ∧ ∀ f ∈ findings, formatted.disk.read f.path = .ok f.after := by
  intro disk paths check formatted
  have hreadable : ∀ path ∈ paths, (disk.read path).isOk := by decide +kernel
  have hplaces : paths.Pairwise fun path path' =>
      (disk.locate path).toOption ≠ (disk.locate path').toOption := by decide +kernel
  have hdistinct := hplaces.imp fun hne heq => hne (congrArg Except.toOption heq)
  obtain ⟨findings, disk', hpaths, hfound, hcheck, hformat, hwritten, -⟩ :=
    check_predicts_format (s := {}) rfl (fun _ _ => "f") hreadable hdistinct
  refine ⟨by decide +kernel, congrArg Outcome.disk hcheck, ?_, by decide +kernel,
    by decide +kernel, by decide +kernel, findings, hpaths, hfound, ?_⟩
  · exact (congrArg Outcome.stderr hcheck).trans (congrArg Outcome.stderr hformat).symm
  · intro f hf
    rw [show formatted.disk = disk' from congrArg Outcome.disk hformat]
    exact (hwritten f hf).1

end

end CommandLine
end TidyTrig

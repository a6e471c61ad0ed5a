import TidyTrig.Proofs.Disk
import TidyTrig.Proofs.Malformed
import TidyTrig.Proofs.Sink.Watching

/-!
# Documents are rewritten whole or not at all

Formatting a document takes one of a few courses, and in all but one the document is as it was. The
courses are told apart by `Course`, with the texts that were written on the way; to know these, a
document is watched as it is formatted. Whatever can go wrong, the document is left with its former
content or with all of its canonical text (`format_all_or_nothing`).
-/

namespace TidyTrig

open Trig Utf8

/-! ## What a document holds -/

section

variable {σ : Type}

/-- What a document holds in each state, `none` where nothing can be read. Reading tells it and leaves
it, a write replaces it if it is there, and a write that fails leaves it. -/
structure Document.Holds (doc : Document σ) (content : σ → Option Bytes) : Prop where
  of_read_ok : ∀ {state opened bytes}, doc.read state = .ok bytes opened →
    content state = some bytes ∧ content opened = some bytes
  of_read_error : ∀ {state left e}, doc.read state = .error e left → content left = content state
  of_write_ok : ∀ {text state left bytes}, content state = some bytes →
    doc.write text state = .ok () left → content left = some (encode text)
  of_write_error : ∀ {text state left e}, doc.write text state = .error e left →
    content left = content state

theorem Buffer.holds : Buffer.document.Holds fun b => some (encode b.text) where
  of_read_ok := by
    intro b opened bytes h
    unfold Buffer.document at h
    dsimp only at h
    split at h
    · cases h
    · cases h
      exact ⟨rfl, rfl⟩
  of_read_error := by
    intro b left e h
    unfold Buffer.document at h
    dsimp only at h
    split at h
    · cases h
      rfl
    · cases h
  of_write_ok := by
    intro text b left bytes _ h
    unfold Buffer.document at h
    dsimp only at h
    split at h
    · cases h
    · cases h
      rfl
  of_write_error := by
    intro text b left e h
    unfold Buffer.document at h
    dsimp only at h
    split at h
    · cases h
      rfl
    · cases h

theorem Disk.holds (path : String) :
    (Disk.document path).Holds fun disk => (disk.read path).toOption where
  of_read_ok := by
    intro disk opened bytes h
    unfold Disk.document at h
    dsimp only at h
    split at h
    · next contents hread =>
      cases h
      rw [hread]
      exact ⟨rfl, rfl⟩
    · cases h
  of_read_error := by
    intro disk left e h
    unfold Disk.document at h
    dsimp only at h
    split at h
    · cases h
    · cases h
      rfl
  of_write_ok := by
    intro text disk left bytes hcontent h
    -- What can be read is a file, and that is where the text goes.
    obtain ⟨written, hwritten, -, hread⟩ :=
      exists_of_write (eq_ok_of_toOption hcontent) (encode text)
    unfold Disk.document at h
    dsimp only at h
    rw [hwritten] at h
    cases h
    rw [hread, if_pos rfl]
    rfl
  of_write_error := by
    intro text disk left e h
    unfold Disk.document at h
    dsimp only at h
    split at h
    · cases h
    · cases h
      rfl

/-! ## Watching a document -/

/-- A document of which each text is noted that it is asked to hold. -/
def Document.watched (doc : Document σ) : Document (σ × List String) where
  read := fun (state, written) =>
    match doc.read state with
    | .ok bytes opened => .ok bytes (opened, written)
    | .error e left => .error e (left, written)
  write text := fun (state, written) =>
    match doc.write text state with
    | .ok () left => .ok () (left, written ++ [text])
    | .error e left => .error e (left, written ++ [text])

variable {labels : Nat → String} {s : FormatSettings} {doc : Document σ} {state : σ}

/-- The courses that formatting can take: the answer, the state it leaves, and what was written. -/
inductive Course (labels : Nat → String) (s : FormatSettings) (doc : Document σ) (state : σ) :
    Except Failure FormatOutcome → σ → List String → Prop where
  | unreadable {e : DocumentError} {left : σ} (hread : doc.read state = .error e left) :
      Course labels s doc state (.error (.document e)) left []
  | refused {bytes : Bytes} {opened : σ} {e : Failure} (hread : doc.read state = .ok bytes opened)
      (hreformat : reformat? labels s bytes = .error e) :
      Course labels s doc state (.error e) opened []
  | malformed {bytes : Bytes} {opened : σ} (hread : doc.read state = .ok bytes opened)
      (hreformat : reformat? labels s bytes = .ok none) :
      Course labels s doc state (.ok .malformed) opened []
  | canonical {bytes : Bytes} {opened : σ} {canonical : String}
      (hread : doc.read state = .ok bytes opened)
      (hreformat : reformat? labels s bytes = .ok (some (canonical, false))) :
      Course labels s doc state (.ok (.formatted false)) opened []
  | rewritten {bytes : Bytes} {opened left : σ} {canonical : String}
      (hread : doc.read state = .ok bytes opened)
      (hreformat : reformat? labels s bytes = .ok (some (canonical, true)))
      (hwrite : doc.write canonical opened = .ok () left) :
      Course labels s doc state (.ok (.formatted true)) left [canonical]
  | unwritten {bytes : Bytes} {opened left : σ} {canonical : String} {e : DocumentError}
      (hread : doc.read state = .ok bytes opened)
      (hreformat : reformat? labels s bytes = .ok (some (canonical, true)))
      (hwrite : doc.write canonical opened = .error e left) :
      Course labels s doc state (.error (.document e)) left [canonical]

/-- Formatting takes one of the courses, and watching the document does not change it. -/
theorem exists_course (labels : Nat → String) (s : FormatSettings) (doc : Document σ) (state : σ) :
    ∃ answer left written, ended (format labels s doc state) = (answer, left)
      ∧ ended (format labels s doc.watched (state, [])) = (answer, left, written)
      ∧ Course labels s doc state answer left written := by
  -- The cases are those of `format`, in its order: the content is read, reformatted, and written.
  cases hread : doc.read state with
  | error e left =>
    have hwatched : doc.watched.read (state, []) = .error e (left, []) := by
      simp only [Document.watched, hread]
    refine ⟨_, _, _, ?_, ?_, .unreadable hread⟩
    · rw [format, adaptExcept_bind_of_error hread, ended]
    · rw [format, adaptExcept_bind_of_error hwatched, ended]
  | ok bytes opened =>
    have hwatched : doc.watched.read (state, []) = .ok bytes (opened, []) := by
      simp only [Document.watched, hread]
    rw [format, format, adaptExcept_bind_of_ok hread, adaptExcept_bind_of_ok hwatched]
    cases hreformat : reformat? labels s bytes with
    | error e => exact ⟨_, _, _, rfl, rfl, .refused hread hreformat⟩
    | ok answer =>
      rcases answer with _ | ⟨canonical, _ | _⟩
      · exact ⟨_, _, _, rfl, rfl, .malformed hread hreformat⟩
      · exact ⟨_, _, _, rfl, rfl, .canonical hread hreformat⟩
      · cases hwrite : doc.write canonical opened with
        | ok done left =>
          have hnoted : doc.watched.write canonical (opened, []) = .ok () (left, [canonical]) := by
            simp only [Document.watched, hwrite, List.nil_append]
          refine ⟨_, _, _, ?_, ?_, .rewritten hread hreformat hwrite⟩
          · exact congrArg ended (adaptExcept_bind_of_ok hwrite)
          · exact congrArg ended (adaptExcept_bind_of_ok hnoted)
        | error e left =>
          have hnoted : doc.watched.write canonical (opened, [])
              = .error e (left, [canonical]) := by
            simp only [Document.watched, hwrite, List.nil_append]
          refine ⟨_, _, _, ?_, ?_, .unwritten hread hreformat hwrite⟩
          · exact congrArg ended (adaptExcept_bind_of_error hwrite)
          · exact congrArg ended (adaptExcept_bind_of_error hnoted)

/-! ## What formatting a content gives -/

/-- Content has a canonical form if it is a text that has one. -/
theorem reformat?_eq_some_iff {bytes : Bytes} {canonical : String} {isChanged : Bool} :
    reformat? labels s bytes = .ok (some (canonical, isChanged)) ↔
      ∃ text, bytes = encode text ∧ canonicalText? labels s text = .ok (some canonical)
        ∧ isChanged = decide (canonical ≠ text) := by
  constructor
  · intro h
    rw [reformat?] at h
    split at h
    · cases h
    · next text hdecode =>
      refine ⟨text, decode?_eq_some_iff.1 hdecode, ?_⟩
      cases hanswer : canonicalText? labels s text with
      | error e =>
        rw [hanswer] at h
        cases h
      | ok canonical? =>
        rw [hanswer] at h
        cases canonical? with
        | none => cases h
        | some _ =>
          cases h
          exact ⟨rfl, rfl⟩
  · rintro ⟨text, rfl, hcanonical, rfl⟩
    rw [reformat?_encode, hcanonical]
    rfl

/-- Only an invalid base keeps content from having a canonical form or being malformed. -/
theorem base?_of_reformat?_eq_error {bytes : Bytes} {e : Failure}
    (h : reformat? labels s bytes = .error e) : s.options.base? = .error e := by
  cases hbase : s.options.base? with
  | error e' =>
    rw [reformat?] at h
    split at h
    · cases h
    · next text hdecode =>
      -- A text is read under the base first of all.
      rw [canonicalText?, Trig.read, hbase] at h
      exact congrArg Except.error (Except.error.inj h)
  | ok base =>
    -- Under a valid base every content has a fate, and no fate is a failure.
    obtain ⟨outcome, after, hfate, -⟩ := exists_fate hbase labels bytes
    rcases hfate.reformat?_eq with ⟨-, hanswer⟩ | ⟨_, _, -, -, hanswer⟩
    · rw [hanswer] at h
      cases h
    · rw [hanswer] at h
      cases h

/-- A text that has a canonical form is read without a problem. -/
theorem problemsOf_of_canonicalText? {text canonical : String}
    (h : canonicalText? labels s text = .ok (some canonical)) :
    ∃ base, s.options.base? = .ok base
      ∧ problemsOf (readAll labels base false (encode text)) = [] := by
  obtain ⟨base, w, hbase, hfine, -⟩ := canonicalText?_eq_some_iff.1 h
  refine ⟨base, hbase, List.eq_nil_iff_forall_not_mem.2 fun p hp => ?_⟩
  have herror := isError_of_readAll labels base (encode text) p hp
  rw [hfine p hp] at herror
  cases herror

/-! ## What a course leaves -/

namespace Course

variable {content : σ → Option Bytes} {answer : Except Failure FormatOutcome} {left : σ}
  {written : List String}

/-- All that is ever written is the whole canonical form, once, of a text that differs from it. -/
theorem of_mem_written (hdoc : doc.Holds content)
    (h : Course labels s doc state answer left written) {canonical : String}
    (hmem : canonical ∈ written) :
    written = [canonical] ∧ ∃ text, content state = some (encode text)
      ∧ canonicalText? labels s text = .ok (some canonical) ∧ canonical ≠ text := by
  cases h with
  | unreadable | refused | malformed | canonical => cases hmem
  | rewritten hread hreformat | unwritten hread hreformat =>
    obtain rfl := List.mem_singleton.1 hmem
    obtain ⟨text, rfl, hcanonical, hchanged⟩ := reformat?_eq_some_iff.1 hreformat
    exact ⟨rfl, text, (hdoc.of_read_ok hread).1, hcanonical, of_decide_eq_true hchanged.symm⟩

/-- A document that was rewritten holds what was written, which is new. -/
theorem content_of_rewritten (hdoc : doc.Holds content)
    (h : Course labels s doc state (.ok (.formatted true)) left written) :
    ∃ canonical, written = [canonical] ∧ content left = some (encode canonical)
      ∧ content left ≠ content state := by
  cases h with
  | @rewritten bytes opened left canonical hread hreformat hwrite =>
    obtain ⟨text, rfl, -, hchanged⟩ := reformat?_eq_some_iff.1 hreformat
    obtain ⟨hformer, hopened⟩ := hdoc.of_read_ok hread
    have hheld := hdoc.of_write_ok hopened hwrite
    refine ⟨canonical, rfl, hheld, ?_⟩
    rw [hheld, hformer]
    exact fun heq => of_decide_eq_true hchanged.symm (encode_injective (Option.some.inj heq))

/-- In any other case the document holds what it held. -/
theorem content_eq (hdoc : doc.Holds content)
    (h : Course labels s doc state answer left written) (hanswer : answer ≠ .ok (.formatted true)) :
    content left = content state := by
  cases h with
  | unreadable hread => exact hdoc.of_read_error hread
  | refused hread | malformed hread | canonical hread =>
    obtain ⟨hformer, hopened⟩ := hdoc.of_read_ok hread
    rw [hformer, hopened]
  | rewritten => exact absurd rfl hanswer
  | unwritten hread hreformat hwrite =>
    obtain ⟨hformer, hopened⟩ := hdoc.of_read_ok hread
    rw [hdoc.of_write_error hwrite, hformer, hopened]

/-- A document is found canonical just if it holds a text without a problem that is its own canonical
form. -/
theorem eq_unchanged_iff (h : Course labels s doc state answer left written) :
    answer = .ok (.formatted false) ↔
      ∃ text opened base, doc.read state = .ok (encode text) opened
        ∧ s.options.base? = .ok base
        ∧ problemsOf (readAll labels base false (encode text)) = []
        ∧ canonicalText? labels s text = .ok (some text) := by
  constructor
  · rintro rfl
    cases h with
    | @canonical bytes opened canonical hread hreformat =>
      obtain ⟨text, rfl, hcanonical, hsame⟩ := reformat?_eq_some_iff.1 hreformat
      obtain rfl : canonical = text := by simpa using hsame
      obtain ⟨base, hbase, hproblems⟩ := problemsOf_of_canonicalText? hcanonical
      exact ⟨_, _, base, hread, hbase, hproblems, hcanonical⟩
  · rintro ⟨text, opened, base, hread, -, -, hcanonical⟩
    -- Nothing else comes of such a text.
    have hreformat : reformat? labels s (encode text) = .ok (some (text, false)) :=
      reformat?_eq_some_iff.2 ⟨text, rfl, hcanonical, by simp⟩
    cases h with
    | canonical => rfl
    | unreadable hread' => cases hread.symm.trans hread'
    | refused hread' hreformat' | malformed hread' hreformat' | rewritten hread' hreformat'
    | unwritten hread' hreformat' =>
      cases hread.symm.trans hread'
      cases hreformat.symm.trans hreformat'

/-- A failure is one to read the document, to write it, or of the base. -/
theorem cause_of_error {e : Failure} (h : Course labels s doc state (.error e) left written) :
    (∃ cause, e = .document cause ∧ doc.read state = .error cause left ∧ written = [])
      ∨ (s.options.base? = .error e ∧ written = [])
      ∨ ∃ cause opened canonical, e = .document cause ∧ written = [canonical]
        ∧ doc.write canonical opened = .error cause left := by
  cases h with
  | unreadable hread => exact .inl ⟨_, rfl, hread, rfl⟩
  | refused hread hreformat => exact .inr (.inl ⟨base?_of_reformat?_eq_error hreformat, rfl⟩)
  | unwritten hread hreformat hwrite => exact .inr (.inr ⟨_, _, _, rfl, rfl, hwrite⟩)

end Course

/-- Formatting is all or nothing. It writes once at most, and then all of a canonical form that the
document does not hold; whenever the document is not said to have changed, it holds what it held. -/
theorem format_all_or_nothing {content : σ → Option Bytes} (hdoc : doc.Holds content)
    (labels : Nat → String) (s : FormatSettings) (state : σ) :
    ∃ answer left written, ended (format labels s doc state) = (answer, left)
      ∧ ended (format labels s doc.watched (state, [])) = (answer, left, written)
      ∧ (∀ canonical ∈ written, written = [canonical] ∧ ∃ text, content state = some (encode text)
        ∧ canonicalText? labels s text = .ok (some canonical) ∧ canonical ≠ text)
      ∧ (answer = .ok (.formatted true) → ∃ canonical, written = [canonical]
        ∧ content left = some (encode canonical) ∧ content left ≠ content state)
      ∧ (answer ≠ .ok (.formatted true) → content left = content state)
      ∧ (answer = .ok (.formatted false) ↔
        ∃ text opened base, doc.read state = .ok (encode text) opened
          ∧ s.options.base? = .ok base
          ∧ problemsOf (readAll labels base false (encode text)) = []
          ∧ canonicalText? labels s text = .ok (some text))
      ∧ ∀ e, answer = .error e →
        (∃ cause, e = .document cause ∧ doc.read state = .error cause left ∧ written = [])
        ∨ (s.options.base? = .error e ∧ written = [])
        ∨ ∃ cause opened canonical, e = .document cause ∧ written = [canonical]
          ∧ doc.write canonical opened = .error cause left := by
  obtain ⟨answer, left, written, hplain, hwatched, hcourse⟩ := exists_course labels s doc state
  refine ⟨answer, left, written, hplain, hwatched, fun _ => hcourse.of_mem_written hdoc, ?_,
    hcourse.content_eq hdoc, hcourse.eq_unchanged_iff, ?_⟩
  · rintro rfl
    exact hcourse.content_of_rewritten hdoc
  · rintro e rfl
    exact hcourse.cause_of_error

end

/-- A buffer that cannot be written keeps its text, though its canonical form is another. -/
theorem format_all_or_nothing_locked :
    ∃ left written,
      ended (format (fun _ => "x") {} Buffer.document ⟨"<u:> a<u:>.", none, some "locked"⟩)
          = (.error (.document (.unavailable "locked")), left)
        ∧ ended (format (fun _ => "x") {} Buffer.document.watched
            (⟨"<u:> a<u:>.", none, some "locked"⟩, []))
          = (.error (.document (.unavailable "locked")), left, written)
        ∧ written = ["<u:> a <u:> .\n"]
        ∧ left.text = "<u:> a<u:>." := by
  have hwatched : ended (format (fun _ => "x") {} Buffer.document.watched
      (⟨"<u:> a<u:>.", none, some "locked"⟩, []))
      = (.error (.document (.unavailable "locked")), ⟨"<u:> a<u:>.", none, some "locked"⟩,
        ["<u:> a <u:> .\n"]) := by
    decide +kernel
  obtain ⟨answer, left, written, hplain, hsame, -, -, hkept, -⟩ := format_all_or_nothing
    Buffer.holds (fun _ => "x") {} ⟨"<u:> a<u:>.", none, some "locked"⟩
  cases hsame.symm.trans hwatched
  exact ⟨_, _, hplain, hsame, rfl, encode_injective (Option.some.inj (hkept nofun))⟩

end TidyTrig

import TidyTrig.Proofs.Trig.Awaiting

/-!
# IRIs that are read are stated

A document that is read without a fault loses no IRI: what a token stands for as a term is mentioned
by a statement, unless it is the name of a block, which may be empty (`states_of_token?`).
-/

namespace TidyTrig.Trig.Parser

variable (labels : Nat → String)

/-- The `n`-th token that the parser takes on reading what it was given to its end, with what it knew
before. -/
def token? : Nat → Parser → Option (Recognition × Token)
  | 0, p =>
    match p.cursor.skipBlank true false p.unread with
    | some (_, b :: rest) =>
      match scan p.recognition.base true b rest with
      | .found t _ => some (p.recognition, t)
      | _ => none
    | _ => none
  | n + 1, p =>
    match p.next? labels true with
    | some (_, p') => token? n p'
    | none => none

variable {labels} {p p' : Parser} {events : List Event}

/-- At the end of a document, blanks are skipped whatever they are. -/
theorem exists_of_skipBlank (c : Cursor) (inComment : Bool) (bytes : Bytes) :
    ∃ next, c.skipBlank true inComment bytes = some next := by
  rw [← Option.isSome_iff_exists]
  fun_induction Cursor.skipBlank true inComment c bytes <;> simp_all

theorem faults_eq_nil_of_report {cursor : Cursor} {token : Bytes} {r : Recognition}
    (h : problemsOf (report cursor token r) = []) : r.faults = [] := by
  rwa [problemsOf_report_eq, List.map_eq_nil_iff] at h

/-- Where there is no fault, the next token is taken. -/
theorem exists_of_next? (hnext : p.next? labels true = some (events, p'))
    (hclean : problemsOf events = []) :
    ∃ t, p.token? labels 0 = some (p.recognition, t)
      ∧ (p.recognition.accept labels t).faults = []
      ∧ statementsOf events = (p.recognition.accept labels t).statements
      ∧ p'.recognition = (p.recognition.accept labels t).cleared := by
  unfold next? at hnext
  split at hnext
  · next cursor b rest hskip =>
    unfold readToken at hnext
    split at hnext
    · split at hnext
      · cases hnext
        cases hclean
      · cases hnext
    · cases hnext
      cases hclean
    · next t size hscan =>
      cases hnext
      refine ⟨t, ?_, faults_eq_nil_of_report hclean, statementsOf_report _ _ _, rfl⟩
      unfold token?
      rw [hskip]
      dsimp only
      rw [hscan]
  · cases hnext

/-- A parser that takes a token gets on. -/
theorem exists_next?_of_token? {r : Recognition} {t : Token}
    (h : p.token? labels 0 = some (r, t)) :
    ∃ events p', p.next? labels true = some (events, p') := by
  unfold token? at h
  split at h
  · next cursor b rest hskip =>
    split at h
    · next t' size hscan =>
      unfold next? readToken
      rw [hskip]
      dsimp only
      rw [hscan]
      exact ⟨_, _, rfl⟩
    · cases h
  · cases h

theorem token?_succ (hnext : p.next? labels true = some (events, p')) {n : Nat} :
    p.token? labels (n + 1) = p'.token? labels n := by
  rw [token?, hnext]

/-- What was due before a token is awaited after it, or was stated. At the top the token may stand for
the name of a block. -/
theorem exists_awaits_of_next? {awaited : List String}
    (hp : p.recognition.IsAwaiting awaited)
    (hnext : p.next? labels true = some (events, p')) (hclean : problemsOf events = [])
    (x : String) :
    ∃ t later, p.token? labels 0 = some (p.recognition, t)
      ∧ p'.recognition.IsAwaiting later
      ∧ ((p.recognition.Owes awaited t x → x ∈ later ∨ ∃ s ∈ statementsOf events, x ∈ s.iris)
        ∨ p.recognition.goals = [.document]
          ∧ p'.recognition.goals = [.blockOrPredicates (.iri x), .document]) := by
  obtain ⟨t, htoken, hfaults, hstatements, hafter⟩ := exists_of_next? hnext hclean
  have hgoals : p'.recognition.goals = (p.recognition.accept labels t).goals := by rw [hafter]; rfl
  rcases Recognition.carries_accept hp with hcarries | hnamed
  · obtain ⟨later, hlater, hdue⟩ := hcarries.resolve_left (absurd hfaults)
    refine ⟨t, later, htoken, ?_, .inl ?_⟩
    · rw [hafter]
      exact hlater
    · rw [hstatements]
      exact hdue
  · refine ⟨t, [], htoken, ?_, .inr ?_⟩
    · rw [Recognition.IsAwaiting, hgoals, hnamed.2]
      exact .between .blockOrPredicates
    · rw [hgoals]
      exact hnamed

/-- Whether some statement of a document mentions an IRI. -/
def States (labels : Nat → String) (p : Parser) (x : String) : Prop :=
  ∃ s ∈ statementsOf (p.close labels), x ∈ s.iris

theorem States.of_next? {x : String} (h : States labels p' x)
    (hnext : p.next? labels true = some (events, p')) : States labels p x := by
  obtain ⟨s, hs, hx⟩ := h
  refine ⟨s, ?_, hx⟩
  rw [close_of_some labels hnext, statementsOf_append]
  exact List.mem_append_right _ hs

theorem states_of_mem_next? {x : String} (hnext : p.next? labels true = some (events, p'))
    (h : ∃ s ∈ statementsOf events, x ∈ s.iris) : States labels p x := by
  obtain ⟨s, hs, hx⟩ := h
  refine ⟨s, ?_, hx⟩
  rw [close_of_some labels hnext, statementsOf_append]
  exact List.mem_append_left _ hs

theorem problemsOf_of_next? (hnext : p.next? labels true = some (events, p'))
    (hclean : problemsOf (p.close labels) = []) :
    problemsOf events = [] ∧ problemsOf (p'.close labels) = [] := by
  rwa [close_of_some labels hnext, problemsOf_append, List.append_eq_nil_iff] at hclean

/-- A document that ends without a fault is closed in a state without one. -/
theorem faults_close_of_none (hnext : p.next? labels true = none)
    (hclean : problemsOf (p.close labels) = []) : p.recognition.close.faults = [] := by
  obtain ⟨⟨cursor, rest⟩, hskip⟩ := exists_of_skipBlank p.cursor false p.unread
  rw [close_of_none labels hnext hskip] at hclean
  exact faults_eq_nil_of_report hclean

/-- What is awaited is stated when the document ends without a fault. -/
theorem states_of_awaits {awaited : List String}
    (hp : p.recognition.IsAwaiting awaited)
    (hclean : problemsOf (p.close labels) = []) {x : String} (hx : x ∈ awaited) :
    States labels p x := by
  induction hn : p.unread.length using Nat.strongRecOn generalizing p awaited with
  | _ n ih =>
    cases hnext : p.next? labels true with
    | none =>
      rw [Recognition.eq_nil_of_close hp (faults_close_of_none hnext hclean)] at hx
      cases hx
    | some next =>
      obtain ⟨events, p'⟩ := next
      have hlength := length_lt_of_next? hnext
      obtain ⟨hevents, hrest⟩ := problemsOf_of_next? hnext hclean
      obtain ⟨t, later, -, hlater, hdue⟩ := exists_awaits_of_next? hp hnext hevents x
      rcases hdue with hdue | ⟨hgoals, -⟩
      · rcases hdue (.inl hx) with hx | hstated
        · exact (ih _ (by omega) hlater hrest hx rfl).of_next? hnext
        · exact states_of_mem_next? hnext hstated
      · -- Between statements nothing is awaited.
        rw [Recognition.IsAwaiting, hgoals] at hp
        cases hp with
        | between h => cases hx
        | within h => exact absurd h.two_le_length (by decide)

/-- The first resource of a statement or a block is stated unless it is the name of a block. -/
theorem states_of_blockOrPredicates {x : String}
    (hgoals : p.recognition.goals = [.blockOrPredicates (.iri x), .document])
    (hclean : problemsOf (p.close labels) = []) :
    States labels p x ∨ p.token? labels 0 = some (p.recognition, .mark .openBrace) := by
  have hp : p.recognition.IsAwaiting [] := by
    rw [Recognition.IsAwaiting, hgoals]
    exact .between .blockOrPredicates
  cases hnext : p.next? labels true with
  | none =>
    have hfaults := faults_close_of_none hnext hclean
    unfold Recognition.close at hfaults
    rw [hgoals] at hfaults
    cases hfaults
  | some next =>
    obtain ⟨events, p'⟩ := next
    obtain ⟨hevents, hrest⟩ := problemsOf_of_next? hnext hclean
    obtain ⟨t, later, htoken, hlater, hdue⟩ := exists_awaits_of_next? hp hnext hevents x
    by_cases ht : t = .mark .openBrace
    · exact .inr (ht ▸ htoken)
    · rcases hdue with hdue | ⟨hother, -⟩
      · rcases hdue (.inr (.inr ⟨hgoals, ht⟩)) with hx | hstated
        · exact .inl ((states_of_awaits hlater hrest hx).of_next? hnext)
        · exact .inl (states_of_mem_next? hnext hstated)
      · rw [hgoals] at hother
        cases hother

/-- Without a fault, an IRI for which the parser takes a token as a term is stated, unless it turns
out to be the name of a block. -/
theorem states_of_token? {n : Nat} {awaited : List String} {r : Recognition} {t : Token} {x : String}
    (htoken : p.token? labels n = some (r, t))
    (hp : p.recognition.IsAwaiting awaited)
    (hclean : problemsOf (p.close labels) = []) (hterm : Recognition.IsTerm x r t r.goals) :
    States labels p x ∨ ∃ r', p.token? labels (n + 1) = some (r', .mark .openBrace)
      ∧ r'.goals = [.blockOrPredicates (.iri x), .document] := by
  induction n generalizing p awaited with
  | zero =>
    obtain ⟨events, p', hnext⟩ := exists_next?_of_token? htoken
    obtain ⟨hevents, hrest⟩ := problemsOf_of_next? hnext hclean
    obtain ⟨t', later, htoken', hlater, hdue⟩ := exists_awaits_of_next? hp hnext hevents x
    rw [htoken] at htoken'
    cases htoken'
    rcases hdue with hdue | ⟨-, hgoals⟩
    · rcases hdue (.inr (.inl hterm)) with hx | hstated
      · exact .inl ((states_of_awaits hlater hrest hx).of_next? hnext)
      · exact .inl (states_of_mem_next? hnext hstated)
    · exact (states_of_blockOrPredicates hgoals hrest).imp (·.of_next? hnext)
        fun hopen => ⟨_, (token?_succ hnext).trans hopen, hgoals⟩
  | succ n ih =>
    rw [token?] at htoken
    split at htoken
    · next events p' hnext =>
      obtain ⟨hevents, hrest⟩ := problemsOf_of_next? hnext hclean
      obtain ⟨-, later, -, hlater, -⟩ := exists_awaits_of_next? hp hnext hevents x
      rw [token?_succ hnext]
      exact (ih htoken hlater hrest).imp_left (·.of_next? hnext)
    · cases htoken

end TidyTrig.Trig.Parser

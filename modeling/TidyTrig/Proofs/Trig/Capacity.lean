import TidyTrig.Proofs.Trig.Replies

/-!
# Devices that are full

A device of limited capacity cuts off what is written: it holds the first bytes of what a device
without limits would hold, whatever calls a writer is given and however they fail. The two writers
go on alike as long as all fits (`Truncates.fits`). The first call that writes too much fails, and from
then on the full device keeps what it has (`Truncates.stuck`), while the other only grows
(`Truncates.grows`). Every operation of the writer is made of steps that do so, and so does it.
-/

namespace TidyTrig

open Recorder (Call)

/-! ## Writing to a device with limits -/

namespace Device

variable {d : Device} {room : Nat} {bytes : Bytes}

theorem write_of_le (hroom : d.room = some room) (h : bytes.length ≤ room) :
    d.write bytes
      = ({ d with kept := bytes.reverse ++ d.kept, room := some (room - bytes.length) }, true) := by
  unfold write
  rw [hroom]
  dsimp only
  rw [List.take_of_length_le h, decide_eq_true h]

/-- A write that does not fit fills the device. -/
theorem write_of_lt (hroom : d.room = some room) (h : room < bytes.length) :
    d.write bytes
      = ({ d with kept := (bytes.take room).reverse ++ d.kept, room := some 0 }, false) := by
  unfold write
  rw [hroom]
  dsimp only
  rw [List.length_take_of_le (Nat.le_of_lt h), Nat.sub_self,
    decide_eq_false (Nat.not_le_of_gt h)]

end Device

namespace Trig.Writer

open Utf8 (encode)

/-- The failure of a write that does not fit. -/
def fullFailure : SinkError := .output "disk full"

/-- The writer on a device that holds what it holds, but not more than `c` bytes. -/
def limited (c : Nat) (w : Writer) : Writer :=
  { w with device := { w.device with room := some (c - w.device.contents.length) } }

/-- Whether a device is full with the first bytes of some longer text. -/
structure IsFull (c : Nat) (d : Device) (text : Bytes) : Prop where
  room : d.room = some 0
  contents : d.contents = text.take c
  exceeds : c < text.length

/-- What an operation does on a device without limits, on one of capacity `c` that is not full, and on
one that is. -/
structure Truncates (c : Nat) {α : Type} (x : Writing α) : Prop where
  grows : ∀ w answer w', w.device.room = none → ended (x w) = (answer, w') →
    w'.device.room = none ∧ w'.device.failsToFlush = w.device.failsToFlush
      ∧ w.device.contents <+: w'.device.contents ∧ answer ≠ .error fullFailure
  fits : ∀ w answer w', w.device.room = none → w.device.contents.length ≤ c →
    ended (x w) = (answer, w') →
    w'.device.contents.length ≤ c ∧ ended (x (limited c w)) = (answer, limited c w')
      ∨ ∃ full, ended (x (limited c w)) = (.error fullFailure, full)
        ∧ IsFull c full.device w'.device.contents
  stuck : ∀ w, w.device.room = some 0 → (ended (x w)).2.device = w.device

variable {c : Nat} {α β : Type}

theorem ended_bind (x : Writing α) (f : α → Writing β) (w : Writer) :
    ended ((x >>= f) w) = match ended (x w) with
      | (.ok a, w') => ended (f a w')
      | (.error e, w') => (.error e, w') := by
  show ended (EStateM.bind x f w) = _
  unfold EStateM.bind
  cases x w <;> rfl

theorem Truncates.bind {x : Writing α} {f : α → Writing β} (hx : Truncates c x)
    (hf : ∀ a, Truncates c (f a)) : Truncates c (x >>= f) where
  grows := by
    intro w answer w' hroom h
    rw [ended_bind] at h
    generalize hfirst : ended (x w) = first at h
    obtain ⟨answer₁, w₁⟩ := first
    obtain ⟨hroom₁, hflush₁, hprefix₁, hanswer₁⟩ := hx.grows w answer₁ w₁ hroom hfirst
    cases answer₁ with
    | error e =>
      cases h
      exact ⟨hroom₁, hflush₁, hprefix₁, fun he => hanswer₁ (by rw [Except.error.inj he])⟩
    | ok a =>
      obtain ⟨hroom', hflush', hprefix', hanswer'⟩ := (hf a).grows w₁ answer w' hroom₁ h
      exact ⟨hroom', hflush'.trans hflush₁, hprefix₁.trans hprefix', hanswer'⟩
  fits := by
    intro w answer w' hroom hlength h
    rw [ended_bind] at h ⊢
    generalize hfirst : ended (x w) = first at h
    obtain ⟨answer₁, w₁⟩ := first
    have hroom₁ := (hx.grows w answer₁ w₁ hroom hfirst).1
    rcases hx.fits w answer₁ w₁ hroom hlength hfirst with
      ⟨hlength₁, hlimited⟩ | ⟨full, hlimited, hfull⟩
    · rw [hlimited]
      cases answer₁ with
      | error e =>
        cases h
        exact .inl ⟨hlength₁, rfl⟩
      | ok a => exact (hf a).fits w₁ answer w' hroom₁ hlength₁ h
    · -- The first step has filled the device, and what the second adds is cut off.
      rw [hlimited]
      refine .inr ⟨full, rfl, ?_⟩
      cases answer₁ with
      | error e =>
        cases h
        exact hfull
      | ok a =>
        obtain ⟨more, hmore⟩ := ((hf a).grows w₁ answer w' hroom₁ h).2.2.1
        refine ⟨hfull.room, ?_, ?_⟩
        · rw [hfull.contents, ← hmore, List.take_append_of_le_length (Nat.le_of_lt hfull.exceeds)]
        · rw [← hmore, List.length_append]
          exact Nat.lt_add_right _ hfull.exceeds
  stuck := by
    intro w hroom
    rw [ended_bind]
    have hfirst := hx.stuck w hroom
    generalize ended (x w) = first at hfirst
    obtain ⟨answer₁, w₁⟩ := first
    cases answer₁ with
    | error e => exact hfirst
    | ok a => exact ((hf a).stuck w₁ (by rw [hfirst]; exact hroom)).trans hfirst

theorem truncates_pure (a : α) : Truncates c (pure a : Writing α) where
  grows := by
    intro w answer w' hroom h
    cases h
    exact ⟨hroom, rfl, List.prefix_rfl, nofun⟩
  fits := by
    intro w answer w' hroom hlength h
    cases h
    exact .inl ⟨hlength, rfl⟩
  stuck := fun w hroom => rfl

theorem truncates_throw {e : SinkError} (he : e ≠ fullFailure) :
    Truncates c (throw e : Writing α) where
  grows := by
    intro w answer w' hroom h
    cases h
    exact ⟨hroom, rfl, List.prefix_rfl, fun h => he (Except.error.inj h)⟩
  fits := by
    intro w answer w' hroom hlength h
    cases h
    exact .inl ⟨hlength, rfl⟩
  stuck := fun w hroom => rfl

/-- A change of the writer that its device does not take part in. -/
theorem truncates_modify {f : Writer → Writer}
    (hf : ∀ w d, f { w with device := d } = { f w with device := d }) :
    Truncates c (modify f : Writing Unit) where
  grows := by
    intro w answer w' hroom h
    cases h
    rw [device_of_modify hf]
    exact ⟨hroom, rfl, List.prefix_rfl, nofun⟩
  fits := by
    intro w answer w' hroom hlength h
    cases h
    refine .inl ⟨by rw [device_of_modify hf]; exact hlength, ?_⟩
    show (Except.ok (), f (limited c w)) = _
    rw [limited, hf, limited, device_of_modify hf]
  stuck := fun w _ => device_of_modify hf w

/-- What comes next depends on the writer, but not on how much room there is. -/
theorem truncates_get_bind {f : Writer → Writing α}
    (hf : ∀ w room, f { w with device := { w.device with room } } = f w)
    (h : ∀ w, Truncates c (f w)) : Truncates c (get >>= f) where
  grows := fun w => (h w).grows w
  fits := by
    intro w answer w' hroom hlength hended
    have hlimited : (get >>= f) (limited c w) = f w (limited c w) := congrFun (hf w _) _
    rw [hlimited]
    exact (h w).fits w answer w' hroom hlength hended
  stuck := fun w => (h w).stuck w

theorem truncates_put (text : String) : Truncates c (put text) where
  grows := by
    intro w answer w' hroom h
    rw [put_ok hroom] at h
    cases h
    exact ⟨hroom, rfl, ⟨_, (contents_wrote w text).symm⟩, nofun⟩
  fits := by
    intro w answer w' hroom hlength h
    rw [put_ok hroom] at h
    cases h
    have hlimited : (limited c w).device.room = some (c - w.device.contents.length) := rfl
    rw [contents_wrote, List.length_append]
    by_cases hfit : (encode text).length ≤ c - w.device.contents.length
    · left
      refine ⟨by omega, ?_⟩
      have hleft : c - (w.wrote text).device.contents.length
          = c - w.device.contents.length - (encode text).length := by
        rw [contents_wrote, List.length_append, Nat.sub_sub]
      unfold put
      rw [Device.write_of_le hlimited hfit]
      show _ = (Except.ok (), { w.wrote text with device := { (w.wrote text).device with
        room := some (c - (w.wrote text).device.contents.length) } })
      rw [hleft]
      rfl
    · right
      rw [Nat.not_le] at hfit
      unfold put
      rw [Device.write_of_lt hlimited hfit]
      refine ⟨_, rfl, rfl, ?_, ?_⟩
      · rw [List.take_append, List.take_of_length_le hlength]
        simp [Device.contents, limited]
      · rw [List.length_append]
        omega
  stuck := by
    intro w hroom
    obtain ⟨⟨kept, room, failsToFlush⟩, layout, spaces, graph, subject, predicate, hasWritten⟩ := w
    cases hroom
    -- Of no text there is nothing to keep, and nothing is kept of any other.
    unfold put
    rcases Nat.eq_zero_or_pos (encode text).length with hempty | hsome
    · rw [Device.write_of_le rfl (Nat.le_of_eq hempty), List.length_eq_zero_iff.1 hempty]
      rfl
    · rw [Device.write_of_lt rfl hsome]
      rfl

theorem isModular_truncates : IsModular (Truncates c) where
  of_pure := truncates_pure
  of_throw _ he := truncates_throw he
  of_put := truncates_put
  of_modify hf _ := truncates_modify hf
  of_bind := Truncates.bind
  of_get := truncates_get_bind

theorem truncates_perform (call : Call) : Truncates c (call.perform : Writing Unit) := by
  cases call with
  | start => exact truncates_pure ()
  | declare space => exact isModular_truncates.declare (truncates_modify fun _ _ => rfl)
  | add s => exact isModular_truncates.add s
  | finish => exact isModular_truncates.finish

end Trig.Writer

/-! ## Calls one after the other -/

open Trig Writer

/-- Whether a call has failed because the device was full. -/
def Reply.isCutOff (r : Reply Writer) : Bool :=
  match r.answer with
  | .ok _ => false
  | .error e => e = fullFailure

/-- What the device held after each call. -/
def outputs (rs : List (Reply Writer)) : List Bytes := rs.map fun r => r.after.device.contents

variable {c : Nat}

section

variable {w v : Writer} (hroom : w.device.room = none)
include hroom

theorem room_reply (call : Call) : (call.reply w).after.device.room = none :=
  ((truncates_perform (c := 0) call).grows w _ _ hroom (ended_perform call w)).1

/-- Without limits no call is cut off. -/
theorem isCutOff_reply (call : Call) : (call.reply w).isCutOff = false := by
  obtain ⟨-, -, -, hanswer⟩ :=
    (truncates_perform (c := 0) call).grows w _ _ hroom (ended_perform call w)
  unfold Reply.isCutOff
  split
  · rfl
  · next e he => exact decide_eq_false fun heq => hanswer (he.trans (congrArg Except.error heq))

/-- A full device stays as it is when the other gets more. -/
theorem Trig.Writer.IsFull.reply (h : IsFull c v.device w.device.contents) (call : Call) :
    IsFull c (call.reply v).after.device (call.reply w).after.device.contents := by
  obtain ⟨-, -, ⟨more, hmore⟩, -⟩ := 
    (truncates_perform (c := c) call).grows w _ _ hroom (ended_perform call w)
  have hstuck : (call.reply v).after.device = v.device :=
    (truncates_perform (c := c) call).stuck v h.room
  change _ ++ _ = (call.reply w).after.device.contents at hmore
  rw [hstuck, ← hmore]
  refine ⟨h.room, ?_, ?_⟩
  · rw [h.contents, List.take_append_of_le_length (Nat.le_of_lt h.exceeds)]
  · rw [List.length_append]
    exact Nat.lt_add_right _ h.exceeds

theorem outputs_of_isFull (h : IsFull c v.device w.device.contents) (calls : List Call) :
    outputs (replies calls v) = (outputs (replies calls w)).map (·.take c) := by
  induction calls generalizing w v with
  | nil => rfl
  | cons call rest ih =>
    have hnext := h.reply hroom call
    have hrest := ih (room_reply hroom call) hnext
    exact List.cons_eq_cons.2 ⟨hnext.contents, hrest⟩

/-- As long as all fits, a call does the same with limits as without; else it is cut off. -/
theorem fits_reply (hlength : w.device.contents.length ≤ c) (call : Call) :
    (call.reply w).after.device.contents.length ≤ c
        ∧ (call.reply (limited c w)).answer = (call.reply w).answer
        ∧ (call.reply (limited c w)).after = limited c (call.reply w).after
        ∧ (call.reply (limited c w)).isCutOff = false
      ∨ (call.reply (limited c w)).isCutOff
        ∧ IsFull c (call.reply (limited c w)).after.device
          (call.reply w).after.device.contents := by
  rcases (truncates_perform (c := c) call).fits w _ _ hroom hlength (ended_perform call w) with
    ⟨hlength', hlimited⟩ | ⟨full, hlimited, hfull⟩
  · rw [ended_perform, Prod.mk.injEq] at hlimited
    obtain ⟨hsame, hafter⟩ := hlimited
    refine .inl ⟨hlength', hsame, hafter, ?_⟩
    rw [Reply.isCutOff, hsame]
    exact isCutOff_reply hroom call
  · rw [ended_perform, Prod.mk.injEq] at hlimited
    obtain ⟨hanswer', hafter⟩ := hlimited
    right
    rw [Reply.isCutOff, hanswer', hafter]
    exact ⟨decide_eq_true rfl, hfull⟩

/-- After each call the device holds the first bytes of what it would hold without limits. The first
call that is cut off is the first after which they are too many, and those before it answer the same. -/
theorem outputs_limited (hlength : w.device.contents.length ≤ c) (calls : List Call) :
    outputs (replies calls (limited c w)) = (outputs (replies calls w)).map (·.take c)
      ∧ ∃ n, (replies calls (limited c w)).findIdx Reply.isCutOff = n
        ∧ (outputs (replies calls w)).findIdx (fun text => c < text.length) = n
        ∧ ((replies calls (limited c w)).map Reply.answer).take n
          = ((replies calls w).map Reply.answer).take n := by
  induction calls generalizing w with
  | nil => exact ⟨rfl, 0, rfl, rfl, rfl⟩
  | cons call rest ih =>
    rw [replies, replies, outputs, outputs, List.map_cons, List.map_cons, List.map_cons,
      List.findIdx_cons, List.findIdx_cons, List.map_cons, List.map_cons]
    rcases fits_reply hroom hlength call with ⟨hlength', hanswer, hafter, hopen⟩ | ⟨hcut, hfull⟩
    · obtain ⟨houtputs, n, hcut, hlong, hanswers⟩ := ih (room_reply hroom call) hlength'
      rw [hafter, hopen, hanswer, decide_eq_false (Nat.not_lt_of_ge hlength'), cond_false, cond_false]
      refine ⟨?_, n + 1, ?_, ?_, ?_⟩
      · rw [List.take_of_length_le hlength']
        exact List.cons_eq_cons.2 ⟨rfl, houtputs⟩
      · rw [hcut]
      · exact congrArg (· + 1) hlong
      · rw [List.take_succ_cons, List.take_succ_cons, hanswers]
    · rw [hcut, decide_eq_true hfull.exceeds, cond_true, cond_true]
      refine ⟨?_, 0, rfl, rfl, rfl⟩
      rw [hfull.contents]
      exact List.cons_eq_cons.2 ⟨rfl, outputs_of_isFull (room_reply hroom call) hfull rest⟩

/-- What is written stays, and so does the device's way of confirming it. -/
theorem grows_of_performAll {calls : List Call} {w' : Writer}
    (h : performAll calls w = .ok () w') :
    w.device.contents.length ≤ w'.device.contents.length
      ∧ w'.device.failsToFlush = w.device.failsToFlush := by
  induction calls generalizing w with
  | nil =>
    cases h
    exact ⟨Nat.le_refl _, rfl⟩
  | cons call rest ih =>
    obtain ⟨-, hrest⟩ := performAll_cons_eq_ok_iff.1 h
    obtain ⟨hroom', hflush, hprefix, -⟩ :=
      (truncates_perform (c := 0) call).grows w _ _ hroom (ended_perform call w)
    obtain ⟨hlength, hflush'⟩ := ih hroom' hrest
    exact ⟨Nat.le_trans hprefix.length_le hlength, hflush'.trans hflush⟩

/-- Calls succeed one after the other on a device with limits just if they do without, and all fits. -/
theorem performAll_limited_iff (hlength : w.device.contents.length ≤ c) {calls : List Call} :
    performAll calls (limited c w) = .ok () v
      ↔ ∃ w', performAll calls w = .ok () w' ∧ w'.device.contents.length ≤ c ∧ v = limited c w' := by
  induction calls generalizing w with
  | nil =>
    constructor
    · intro h
      cases h
      exact ⟨w, rfl, hlength, rfl⟩
    · rintro ⟨w', h, -, rfl⟩
      cases h
      rfl
  | cons call rest ih =>
    rw [performAll_cons_eq_ok_iff]
    rcases fits_reply hroom hlength call with ⟨hlength', hanswer, hafter, -⟩ | ⟨hcut, hfull⟩
    · rw [hanswer, hafter, ih (room_reply hroom call) hlength']
      simp only [performAll_cons_eq_ok_iff, exists_and_left, and_assoc]
    · constructor
      · rintro ⟨hanswer, -⟩
        rw [Reply.isCutOff, hanswer] at hcut
        cases hcut
      · rintro ⟨w', hall, hshort, -⟩
        have hgrown := (grows_of_performAll (room_reply hroom call)
          (performAll_cons_eq_ok_iff.1 hall).2).1
        exact absurd hfull.exceeds (Nat.not_lt_of_ge (Nat.le_trans hgrown hshort))

/-- A document is only ended well on a device that confirms what it holds. -/
theorem flushes_of_finish (h : (Call.finish.reply w).answer = .ok ()) :
    w.device.failsToFlush = false := by
  change (ended (Writer.finish w)).1 = _ at h
  unfold Writer.finish at h
  rw [ended_bind] at h
  generalize hclose : ended (closeGraph w) = closed at h
  obtain ⟨answer, w'⟩ := closed
  have hcloses : Truncates 0 closeGraph := isModular_truncates.closeGraph
  rw [← (hcloses.grows w answer w' hroom hclose).2.1]
  cases answer with
  | error e => cases h
  | ok a =>
    cases hflush : w'.device.failsToFlush with
    | false => rfl
    | true =>
      change (ended ((if w'.device.failsToFlush then throw (.output "flush failed") else pure () :
        Writing Unit) w')).1 = _ at h
      rw [if_pos hflush] at h
      cases h

theorem flushes_of_performAll {calls : List Call} (hfinish : .finish ∈ calls) {w' : Writer}
    (h : performAll calls w = .ok () w') : w.device.failsToFlush = false := by
  induction calls generalizing w with
  | nil => cases hfinish
  | cons call rest ih =>
    obtain ⟨hanswer, hrest⟩ := performAll_cons_eq_ok_iff.1 h
    rcases List.mem_cons.1 hfinish with rfl | hfinish
    · exact flushes_of_finish hroom hanswer
    · rw [← ((truncates_perform (c := 0) call).grows w _ _ hroom (ended_perform call w)).2.1]
      exact ih (room_reply hroom call) hfinish hrest

end

/-- A document is told to be written if it is whole and every call that it makes succeeds. -/
theorem canonicalize_eq_ok_true_iff {σ : Type} [StatementSink σ] {events : List Event} {s s' : σ} :
    canonicalize events s = .ok true s'
      ↔ isWhole events ∧ performAll (plannedCalls events) s = .ok () s' := by
  rw [canonicalize_eq, ← verdict_eq_true_iff]
  change EStateM.bind _ _ s = _ ↔ _
  rw [EStateM.bind]
  cases performAll (plannedCalls events) s with
  | error e left => exact iff_of_false nofun fun h => nomatch h.2
  | ok a left =>
    cases verdict (terminal? events) with
    | error failure => exact iff_of_false nofun fun h => nomatch h.1
    | ok isWritten =>
      change EStateM.Result.ok isWritten left = .ok true s' ↔ _
      rw [EStateM.Result.ok.injEq, EStateM.Result.ok.injEq, Except.ok.injEq, and_iff_right rfl]

/-- A device of capacity `c` cuts off what is written, and this is told. Whatever calls a writer is
given, those that fail included, the device holds after each of them the first `c` bytes of what a
device without limits holds. No call on the latter is cut off; on the former the first that is cut off
is the first after which the other holds more than `c` bytes, and the calls before it answer the same.
A document is told to be written on it just if it is on the other, where no more than `c` bytes are
held, and then both hold the same and have confirmed it. -/
theorem outputs_of_capacity (layout : Layout) (failsToFlush : Bool) (c : Nat) (calls : List Call)
    (events : List Event) :
    let free := Writer.start ⟨[], none, failsToFlush⟩ layout
    let tight := Writer.start ⟨[], some c, failsToFlush⟩ layout
    outputs (replies calls tight) = (outputs (replies calls free)).map (·.take c)
      ∧ (∀ r ∈ replies calls free, r.isCutOff = false)
      ∧ (∃ n, (replies calls tight).findIdx Reply.isCutOff = n
        ∧ (outputs (replies calls free)).findIdx (fun text => c < text.length) = n
        ∧ ((replies calls tight).map Reply.answer).take n
          = ((replies calls free).map Reply.answer).take n)
      ∧ ∀ w, canonicalize events tight = .ok true w
        ↔ ∃ w', canonicalize events free = .ok true w' ∧ w'.device.contents.length ≤ c
          ∧ w = limited c w' ∧ w.device.contents = w'.device.contents ∧ failsToFlush = false := by
  intro free tight
  have hroom : free.device.room = none := rfl
  have hlength : free.device.contents.length ≤ c := Nat.zero_le c
  have htight : tight = limited c free := rfl
  rw [htight]
  obtain ⟨houtputs, hfirst⟩ := outputs_limited hroom hlength calls
  refine ⟨houtputs, ?_, hfirst, ?_⟩
  · intro r hr
    obtain ⟨hbefore, hreply⟩ := before_of_mem_replies (·.device.room = none)
      (fun call w hw => room_reply hw call) hroom r hr
    rw [hreply]
    exact isCutOff_reply hbefore r.call
  · intro w
    simp only [canonicalize_eq_ok_true_iff, performAll_limited_iff hroom hlength]
    constructor
    · rintro ⟨hwhole, w', hall, hshort, rfl⟩
      exact ⟨w', ⟨hwhole, hall⟩, hshort, rfl, rfl,
        flushes_of_performAll hroom ((finish_mem_plannedCalls_iff events).2 hwhole) hall⟩
    · rintro ⟨w', ⟨hwhole, hall⟩, hshort, rfl, -, -⟩
      exact ⟨hwhole, w', hall, hshort, rfl⟩

end TidyTrig

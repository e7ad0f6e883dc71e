import ProgramQueue.Proofs.Frames

/-!
# The push server

The server keeps events by their ids.  An update that it accepts removes events and
then stores others; one that it refuses changes nothing.  An event that is live may fire
at any moment, and no program is run because of an event that is still live.
-/

namespace ProgramQueue.Queue

/-- What has become of an event. -/
inductive Standing where
  | live
  | fired
  /-- A run of its program has begun because of it. -/
  | spent
deriving DecidableEq, Repr

/-- An event that the server keeps. -/
structure Registration where
  event : Push.Event
  standing : Standing

/-- The events that the server keeps, by their ids. -/
abbrev Server := String → Option Registration

namespace Server

def empty : Server := fun _ => none

/-- An event has not fired yet. -/
def IsLive (server : Server) (id : String) : Prop :=
  ∃ event, server id = some ⟨event, .live⟩

/-- An event is live, or it has fired and no run of its program has begun because of
it. -/
def Outstanding (server : Server) (id : String) : Prop :=
  ∃ registration, server id = some registration ∧ registration.standing ≠ .spent

/-- The server once an event that stood at one standing stands at another. -/
def mark (id : String) (old new : Standing) (server : Server) : Server := fun other =>
  if other = id then
    (server id).map fun kept => if kept.standing = old then { kept with standing := new } else kept
  else server other

/-- The server after it has accepted an update: of events with one id the last one is
kept. -/
def accept (update : Push.LoginUpdate) (server : Server) : Server := fun id =>
  match update.events.reverse.find? (·.eventId = id) with
  | some event => some ⟨event, .live⟩
  | none => if id ∈ update.removeEvents then none else server id

/-- The server after a request that was answered. -/
def after (server : Server) : Answered Surroundings → Server
  | ⟨.push (.updateLogin update), .ok _⟩ => server.accept update
  | ⟨.note (.step _ (some id)), _⟩ => server.mark id .fired .spent
  | _ => server

/-- A program is run because of an event only after the event has fired. -/
def Permits (server : Server) : Request → Prop
  | .note (.step _ (some id)) => ¬server.IsLive id
  | _ => True

/-- How the server may change while requests are made: those that are told to it change
it, and now and then an event fires. -/
inductive Evolves : Server → Log Surroundings → Server → Prop
  | done (server : Server) : Evolves server [] server
  | fires {server final : Server} {log : Log Surroundings} {id : String}
      (hlive : server.IsLive id) (rest : Evolves (server.mark id .live .fired) log final) :
      Evolves server log final
  | answers {server final : Server} {entry : Answered Surroundings}
      {log : Log Surroundings} (hpermits : server.Permits entry.request)
      (rest : Evolves (server.after entry) log final) : Evolves server (entry :: log) final

theorem evolves_append {server final : Server} {first later : Log Surroundings}
    (h : Evolves server (first ++ later) final) :
    ∃ middle, Evolves server first middle ∧ Evolves middle later final := by
  -- an event may fire where the log is cut, so the induction is on how the server changes
  generalize hlog : first ++ later = log at h
  induction h generalizing first with
  | done server =>
      obtain ⟨rfl, rfl⟩ := List.append_eq_nil_iff.1 hlog
      exact ⟨server, .done _, .done _⟩
  | fires hlive _ ih =>
      obtain ⟨middle, hfirst, hlater⟩ := ih hlog
      exact ⟨middle, .fires hlive hfirst, hlater⟩
  | @answers server final entry log hpermits rest ih =>
      cases first with
      | nil =>
          obtain rfl : later = entry :: log := hlog
          exact ⟨server, .done _, .answers hpermits rest⟩
      | cons head first =>
          obtain ⟨rfl, hrest⟩ := List.cons.inj hlog
          obtain ⟨middle, hfirst, hlater⟩ := ih hrest
          exact ⟨middle, .answers hpermits hfirst, hlater⟩

theorem Evolves.append {server middle final : Server} {first later : Log Surroundings}
    (hfirst : Evolves server first middle) (hlater : Evolves middle later final) :
    Evolves server (first ++ later) final := by
  induction hfirst with
  | done => exact hlater
  | fires hlive _ ih => exact .fires hlive (ih hlater)
  | answers hpermits _ ih => exact .answers hpermits (ih hlater)

theorem evolves_calm {log : Log Surroundings}
    (h : ∀ note ∈ journal log, note.fired? = none) (server : Server) :
    Evolves server log (log.foldl after server) := by
  induction log generalizing server with
  | nil => exact .done server
  | cons entry log ih =>
      rw [← List.singleton_append, journal_append] at h
      refine .answers ?_ (ih (fun note hnote => h note (List.mem_append_right _ hnote)) _)
      unfold Permits
      split
      · rename_i id hrequest
        have hmem : Note.step _ (some id) ∈ journal [entry] :=
          List.mem_filterMap.2 ⟨entry, List.mem_cons_self, by rw [hrequest]; rfl⟩
        cases h _ (List.mem_append_left _ hmem)
      · trivial

/-! ## Marks and updates -/

variable {server final : Server} {id other : String} {old new : Standing}
  {update : Push.LoginUpdate}

theorem mark_self : server.mark id old new id = (server id).map fun kept =>
    if kept.standing = old then { kept with standing := new } else kept :=
  if_pos rfl

theorem mark_of_ne (hne : other ≠ id) : server.mark id old new other = server other :=
  if_neg hne

/-- After an update an event is one of those sent, or it was there and is not removed. -/
theorem accept_cases (server : Server) (update : Push.LoginUpdate) (id : String) :
    (∃ event ∈ update.events, event.eventId = id ∧
        server.accept update id = some ⟨event, .live⟩) ∨
      (∀ event ∈ update.events, event.eventId ≠ id) ∧
        server.accept update id = if id ∈ update.removeEvents then none else server id := by
  unfold accept
  cases hsent : update.events.reverse.find? (·.eventId = id) with
  | some event =>
      have hmem := List.mem_reverse.1 (List.mem_of_find?_eq_some hsent)
      exact Or.inl ⟨event, hmem, by simpa using List.find?_some hsent, rfl⟩
  | none =>
      refine Or.inr ⟨fun event hevent => ?_, rfl⟩
      simpa using List.find?_eq_none.1 hsent event (List.mem_reverse.2 hevent)

theorem outstanding_accept : (server.accept update).Outstanding id ↔
    (∃ event ∈ update.events, event.eventId = id) ∨
      id ∉ update.removeEvents ∧ server.Outstanding id := by
  obtain ⟨event, hmem, heq, hkept⟩ | ⟨hnone, hkept⟩ := server.accept_cases update id
  · exact iff_of_true ⟨_, hkept, nofun⟩ (Or.inl ⟨event, hmem, heq⟩)
  · have hunsent : ¬∃ event ∈ update.events, event.eventId = id := by
      rintro ⟨event, hmem, heq⟩
      exact hnone event hmem heq
    rw [Outstanding, Outstanding, hkept, or_iff_right hunsent]
    by_cases hremoved : id ∈ update.removeEvents
    · simp [hremoved]
    · simp [hremoved]

theorem live_of_accept {event : Push.Event}
    (h : server.accept update id = some ⟨event, .live⟩) :
    (event ∈ update.events ∧ event.eventId = id) ∨ server id = some ⟨event, .live⟩ := by
  obtain ⟨sent, hmem, heq, hkept⟩ | ⟨-, hkept⟩ := server.accept_cases update id
  · rw [hkept] at h
    cases h
    exact Or.inl ⟨hmem, heq⟩
  · rw [hkept] at h
    split at h
    · cases h
    · exact Or.inr h

theorem accept_of_isEmpty (h : update.isEmpty = true) : server.accept update = server := by
  obtain ⟨hevents, hremoved⟩ := Bool.and_eq_true_iff.1 h
  funext id
  rw [accept, List.isEmpty_iff.1 hevents, List.isEmpty_iff.1 hremoved]
  simp

/-- An event that is not live is outstanding no more once a run has begun because of
it. -/
theorem outstanding_spent (hlive : ¬server.IsLive id) :
    (server.mark id .fired .spent).Outstanding other ↔
      server.Outstanding other ∧ other ≠ id := by
  by_cases heq : other = id
  · subst heq
    refine iff_of_false ?_ fun h => h.2 rfl
    rintro ⟨registration, hfound, hstanding⟩
    rw [mark_self] at hfound
    obtain ⟨⟨event, standing⟩, hkept, rfl⟩ := Option.map_eq_some_iff.1 hfound
    cases standing with
    | live => exact hlive ⟨event, hkept⟩
    | fired => exact hstanding rfl
    | spent => exact hstanding rfl
  · rw [Outstanding, Outstanding, mark_of_ne heq]
    exact (and_iff_left heq).symm

/-! ## The events of one program -/

/-- Nothing has become of the events of a program but that some of them have fired. -/
structure Ages (id : String) (before after : Server) : Prop where
  outstanding : ∀ event, Push.programIdOf? event = some id →
    (after.Outstanding event ↔ before.Outstanding event)
  live : ∀ event, Push.programIdOf? event = some id → ∀ kept,
    after event = some ⟨kept, .live⟩ → before event = some ⟨kept, .live⟩

theorem Ages.refl (id : String) (server : Server) : Ages id server server :=
  ⟨fun _ _ => Iff.rfl, fun _ _ _ h => h⟩

theorem Ages.trans {middle : Server} (first : Ages id server middle)
    (later : Ages id middle final) : Ages id server final :=
  ⟨fun event hevent => (later.outstanding event hevent).trans (first.outstanding event hevent),
    fun event hevent kept h => first.live event hevent kept (later.live event hevent kept h)⟩

/-- Where all events of a program are as they were, none has fired. -/
theorem ages_of_eq (h : ∀ event, Push.programIdOf? event = some id → final event = server event) :
    Ages id server final where
  outstanding event hevent := by rw [Outstanding, Outstanding, h event hevent]
  live event hevent kept hkept := by rwa [← h event hevent]

theorem ages_fire {event : String} (hlive : server.IsLive event) (id : String) :
    Ages id server (server.mark event .live .fired) where
  outstanding other _ := by
    by_cases heq : other = event
    · subst heq
      obtain ⟨kept, hkept⟩ := hlive
      simp [Outstanding, mark_self, hkept]
    · rw [Outstanding, Outstanding, mark_of_ne heq]
  live other _ kept hkept := by
    by_cases heq : other = event
    · subst heq
      rw [mark_self] at hkept
      obtain ⟨found, hfound⟩ := hlive
      simp [hfound] at hkept
    · rwa [mark_of_ne heq] at hkept

/-- An answered request that does nothing to the events of a program. -/
def Spares (id : String) : Answered Surroundings → Prop
  | ⟨.push (.updateLogin update), .ok _⟩ =>
      (∀ event ∈ update.events, Push.programIdOf? event.eventId ≠ some id) ∧
        ∀ event ∈ update.removeEvents, Push.programIdOf? event ≠ some id
  | ⟨.note (.step _ (some event)), _⟩ => Push.programIdOf? event ≠ some id
  | _ => True

theorem ages_after {entry : Answered Surroundings} (h : Spares id entry) (server : Server) :
    Ages id server (server.after entry) := by
  refine ages_of_eq fun event hevent => ?_
  unfold after
  split
  · rename_i update answer
    obtain ⟨hsent, hremoved⟩ := h
    obtain ⟨sent, hmem, rfl, -⟩ | ⟨-, heq⟩ := server.accept_cases update event
    · exact absurd hevent (hsent sent hmem)
    · rw [heq, if_neg fun hmem => hremoved event hmem hevent]
  · exact mark_of_ne fun heq => h (heq ▸ hevent)
  · rfl

/-- Requests that do nothing to the events of a program leave them as they are, but
some may fire. -/
theorem Evolves.ages {log : Log Surroundings} (h : Evolves server log final)
    (hspares : ∀ entry ∈ log, Spares id entry) : Ages id server final := by
  induction h with
  | done server => exact .refl id server
  | fires hlive _ ih => exact (ages_fire hlive id).trans (ih hspares)
  | @answers server final entry log _ _ ih =>
      have hfirst := ages_after (hspares entry List.mem_cons_self) server
      exact hfirst.trans (ih fun other hother => hspares other (List.mem_cons_of_mem _ hother))

theorem spares_of_isForeign {entry : Answered Surroundings} (h : entry.request.IsForeign id) :
    Spares id entry := by
  unfold Spares
  split
  · exact h
  · exact h.2 _ rfl
  · trivial

theorem spares_of_silent {log : Log Surroundings} (h : Silent log) (id : String) :
    ∀ entry ∈ log, Spares id entry := fun entry hentry =>
  spares_of_isForeign (isForeign_of_silent h id entry hentry)

/-- A journal without runs does nothing to any event. -/
theorem spares_of_note {note : Note} (h : note.fired? = none) (answer : Unit) (id : String) :
    Spares id ⟨.note note, answer⟩ := by
  cases note with
  | step other fired =>
      obtain rfl : fired = none := h
      trivial
  | _ => trivial

theorem spares_kept {inner : Log Journaled} {outer : Log Surroundings} (h : Kept inner outer)
    (hnotes : ∀ note ∈ Journaled.journal inner, note.fired? = none) (id : String) :
    ∀ entry ∈ outer, Spares id entry := by
  rintro ⟨request, answer⟩ hentry
  obtain ⟨note, hnote, heq⟩ | ⟨query, heq⟩ := mem_kept h hentry
  · obtain rfl : request = .note note := heq
    exact spares_of_note (hnotes note hnote) answer id
  · obtain rfl : request = .outside query := heq
    trivial

/-- What comes before a request that is answered, and what comes of it. -/
theorem Evolves.cons {entry : Answered Surroundings} {log : Log Surroundings}
    (h : Evolves server (entry :: log) final) (id : String) :
    ∃ aged, Ages id server aged ∧ aged.Permits entry.request ∧
      Evolves (aged.after entry) log final := by
  generalize hlog : entry :: log = whole at h
  induction h with
  | done => cases hlog
  | fires hlive _ ih =>
      obtain ⟨aged, hages, hpermits, hrest⟩ := ih hlog
      exact ⟨aged, (ages_fire hlive id).trans hages, hpermits, hrest⟩
  | @answers server final other rest hpermits hrest =>
      obtain ⟨rfl, rfl⟩ := List.cons.inj hlog
      exact ⟨server, .refl id server, hpermits, hrest⟩

end Server

end ProgramQueue.Queue

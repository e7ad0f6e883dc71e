import ProgramQueue.Proofs.Batches
import ProgramQueue.Proofs.Interleavings
import ProgramQueue.Proofs.Rereading

/-!
# What the server knows of after a registration

A registration of the device sends the events of all programs that are not over, and then
records for each program the events that were sent for it.  A program of which a wallet
cannot be looked up is passed over: none of its events is sent, and its record goes on to
list those that were sent before.
-/

namespace ProgramQueue

namespace Push.DeviceUpdate

/-- The ids of the events that are sent for a program, in order. -/
def idsOf (update : DeviceUpdate) (id : String) : List String :=
  (update.events.map (·.eventId)).filter fun event => programIdOf? event = some id

end Push.DeviceUpdate

namespace Queue

/-! ## What is planned -/

/-- The programs that are not over are planned in order.  The events of a program are
prepared, or a lookup of one of its wallets has failed and it is missed. -/
inductive Surveyed (settings : Settings) : List (String × Item) → Log Surroundings →
    List (String × List Push.Event) → List String → Prop
  | nil : Surveyed settings [] [] [] []
  | finished {key : String} {item : Item} {entries : List (String × Item)} {log : Log Surroundings}
      {planned : List (String × List Push.Event)} {missed : List String}
      (hdone : item.state.isDone = true) (rest : Surveyed settings entries log planned missed) :
      Surveyed settings ((key, item) :: entries) log planned missed
  | planned {key : String} {item : Item} {entries : List (String × Item)} {lookups : Log Outside}
      {asked log : Log Surroundings} {events : List Push.Event}
      {planned : List (String × List Push.Event)} {missed : List String}
      (hopen : item.state.isDone = false) (hasked : Asked lookups asked)
      (hfound : Push.Found lookups)
      (hprepared : Prepared settings item.program item.state.current lookups events)
      (rest : Surveyed settings entries log planned missed) :
      Surveyed settings ((key, item) :: entries) (asked ++ log)
        ((item.program.id, events) :: planned) missed
  | missed {key : String} {item : Item} {entries : List (String × Item)} {lookups : Log Outside}
      {asked log : Log Surroundings} {e : CollaboratorError}
      {planned : List (String × List Push.Event)} {missed : List String}
      (hopen : item.state.isDone = false) (hasked : Asked lookups asked)
      (hmissed : Push.Missed lookups e) (rest : Surveyed settings entries log planned missed) :
      Surveyed settings ((key, item) :: entries) (asked ++ log) planned
        (item.program.id :: missed)

/-- What becomes of the record under an id: nothing is stored under it, its program is over,
the events that were sent for it are recorded in what was read from its text, or it was missed,
so that none was sent and it lists what it listed before. -/
inductive Enrolled (update : Push.DeviceUpdate) (missed : List String) (id : String) :
    Option Item → Option Item → Prop
  | absent : Enrolled update missed id none none
  | finished {item : Item} (hdone : item.state.isDone = true) :
      Enrolled update missed id (some item) (some item)
  | told {item : Item} (hopen : item.state.isDone = false) (htold : id ∉ missed)
      (htext : item.state.IsRegular →
        Kind.item.decode? (Kind.item.encode item) = some item.transcribed) :
      Enrolled update missed id (some item)
        (some { item with state := item.state.transcribed.listing (update.idsOf id) })
  | missed {item : Item} (hopen : item.state.isDone = false) (hmissed : id ∈ missed)
      (hnone : update.idsOf id = []) : Enrolled update missed id (some item) (some item)

/-- The record of every program that is not over lists the events that were sent for it. -/
def Agrees (update : Push.DeviceUpdate) (before after : Store) : Prop :=
  ∀ id item, before.items.find? id = some item → item.state.isDone = false →
    ∃ later, after.items.find? id = some later ∧ later.state.pushEventIds = update.idsOf id

/-- Only the lists of events are others. -/
def Relisted (before after : Store) : Prop :=
  ∀ id item, before.items.find? id = some item → ∃ ids,
    after.items.find? id = some { item with state := item.state.listing ids }

/-- A registration fails and changes nothing; or one update is sent with the events of all
programs that could be planned, and the records tell what was sent, except for programs
that were missed and list events from before.  Nothing else of a record changes, unless it
holds a rate that does not come back from its text. -/
inductive Enrols (settings : Settings) (identity : DeviceIdentity) (before : Store) :
    Log Surroundings → Except Error Push.Device → Store → Prop
  | failed {log : Log Surroundings} {e : Error} :
      Enrols settings identity before log (.error e) before
  | sent {asked recording : Log Surroundings} {planned : List (String × List Push.Event)}
      {missed : List String} {update : Push.DeviceUpdate} {device : Push.Device} {after : Store}
      (hsurveyed : Surveyed settings before.listed asked planned missed)
      (hupdate : update =
        { rootLoginIds := identity.rootLoginIds.map Push.encodeLoginId
          events := planned.flatMap (·.2)
          deviceToken := identity.deviceToken })
      (hrecording : ∀ entry ∈ recording, ∃ own, entry.request = .store own)
      (hclaims : after.claims = before.claims) (hretired : after.retired = before.retired)
      (hrecords : ∀ id,
        Enrolled update missed id (before.items.find? id) (after.items.find? id))
      (hagrees : Agrees update before after ↔ ∀ id ∈ missed, ∀ item,
        before.items.find? id = some item → item.state.isDone = false →
          item.state.pushEventIds = [])
      (hrelisted : Relisted before after ↔ ∀ id ∉ missed, ∀ item,
        before.items.find? id = some item → item.state.isDone = false →
          item.state.current.transcribed = item.state.current) :
      Enrols settings identity before (⟨.store .list, .ok before.listed⟩ ::
        (asked ++ ⟨.push (.updateDevice update), .ok device⟩ :: recording)) (.ok device) after

variable {settings : Settings} {identity : DeviceIdentity} {before after store : Store}
  {log : Log Surroundings} {id : String} {item : Item} {entries : List (String × Item)}
  {planned : List (String × List Push.Event)} {missed : List String}
  {update : Push.DeviceUpdate}

theorem planAll_surveyed (h : Completes (planAll settings entries) before log planned after) :
    after = before ∧ ∃ missed, Surveyed settings entries log planned missed := by
  induction entries generalizing log planned after with
  | nil =>
      obtain ⟨rfl, rfl, rfl⟩ := completes_pure.1 h
      exact ⟨rfl, [], .nil⟩
  | cons entry rest ih =>
      rw [planAll] at h
      cases hopen : entry.2.state.isDone with
      | true =>
          rw [if_pos hopen] at h
          obtain ⟨rfl, missed, hrest⟩ := ih h
          exact ⟨rfl, missed, .finished hopen hrest⟩
      | false =>
          rw [if_neg (by rw [hopen]; exact Bool.false_ne_true)] at h
          obtain ⟨asked, result, _, _, rfl, hplan, hothers⟩ := completes_bind.1 h
          obtain ⟨rfl, lookups, hasked, hresult⟩ := planEvents_cases hplan
          obtain ⟨_, others, _, _, rfl, hlater, hdone⟩ := completes_bind.1 hothers
          obtain ⟨rfl, missed, hrest⟩ := ih hlater
          rcases hresult with ⟨e, rfl, hmissed⟩ | ⟨events, rfl, hfound, hprepared⟩
          · obtain ⟨rfl, rfl, rfl⟩ := completes_pure.1 hdone
            rw [List.append_nil]
            exact ⟨rfl, _, .missed hopen hasked hmissed hrest⟩
          · obtain ⟨rfl, rfl, rfl⟩ := completes_pure.1 hdone
            rw [List.append_nil]
            exact ⟨rfl, missed, .planned hopen hasked hfound hprepared hrest⟩

namespace Surveyed

/-- What is planned are the wanted events of a program that is not over. -/
theorem of_planned (h : Surveyed settings entries log planned missed)
    {entry : String × List Push.Event} (hentry : entry ∈ planned) :
    ∃ listed ∈ entries, listed.2.program.id = entry.1 ∧ listed.2.state.isDone = false ∧
      entry.2.map (·.eventId) = listed.2.program.wantedIds listed.2.state.current := by
  induction h with
  | nil => cases hentry
  | finished _ _ ih | missed _ _ _ _ ih =>
      obtain ⟨listed, hlisted, hrest⟩ := ih hentry
      exact ⟨listed, List.mem_cons_of_mem _ hlisted, hrest⟩
  | planned hopen _ _ hprepared _ ih =>
      rcases List.mem_cons.1 hentry with rfl | hmem
      · exact ⟨_, List.mem_cons_self, rfl, hopen, hprepared.ids⟩
      · obtain ⟨listed, hlisted, hrest⟩ := ih hmem
        exact ⟨listed, List.mem_cons_of_mem _ hlisted, hrest⟩

theorem of_missed (h : Surveyed settings entries log planned missed) (hid : id ∈ missed) :
    ∃ listed ∈ entries, listed.2.program.id = id ∧ listed.2.state.isDone = false := by
  induction h with
  | nil => cases hid
  | finished _ _ ih | planned _ _ _ _ _ ih =>
      obtain ⟨listed, hlisted, hrest⟩ := ih hid
      exact ⟨listed, List.mem_cons_of_mem _ hlisted, hrest⟩
  | missed hopen _ _ _ ih =>
      rcases List.mem_cons.1 hid with rfl | hmem
      · exact ⟨_, List.mem_cons_self, rfl, hopen⟩
      · obtain ⟨listed, hlisted, hrest⟩ := ih hmem
        exact ⟨listed, List.mem_cons_of_mem _ hlisted, hrest⟩

/-- Every program that is not over is planned or missed. -/
theorem of_open (h : Surveyed settings entries log planned missed) {entry : String × Item}
    (hentry : entry ∈ entries) (hopen : entry.2.state.isDone = false) :
    (∃ events, (entry.2.program.id, events) ∈ planned) ∨ entry.2.program.id ∈ missed := by
  induction h with
  | nil => cases hentry
  | finished hdone _ ih =>
      rcases List.mem_cons.1 hentry with rfl | hmem
      · cases hdone.symm.trans hopen
      · exact ih hmem
  | planned _ _ _ _ _ ih =>
      rcases List.mem_cons.1 hentry with rfl | hmem
      · exact Or.inl ⟨_, List.mem_cons_self⟩
      · exact (ih hmem).imp_left fun ⟨events, hevents⟩ => ⟨events, List.mem_cons_of_mem _ hevents⟩
  | missed _ _ _ _ ih =>
      rcases List.mem_cons.1 hentry with rfl | hmem
      · exact Or.inr List.mem_cons_self
      · exact (ih hmem).imp_right (List.mem_cons_of_mem _)

/-- No program is planned twice, or both planned and missed. -/
theorem distinct (h : Surveyed settings entries log planned missed)
    (hentries : (entries.map (·.2.program.id)).Nodup) :
    (planned.map (·.1)).Nodup ∧ ∀ entry ∈ planned, entry.1 ∉ missed := by
  induction h with
  | nil => exact ⟨.nil, List.forall_mem_nil _⟩
  | finished _ _ ih => exact ih (List.nodup_cons.1 hentries).2
  | planned _ _ _ _ rest ih =>
      obtain ⟨hnew, hothers⟩ := List.nodup_cons.1 hentries
      obtain ⟨hnodup, hapart⟩ := ih hothers
      refine ⟨List.nodup_cons.2 ⟨fun hmem => ?_, hnodup⟩,
        List.forall_mem_cons.2 ⟨fun hmem => ?_, hapart⟩⟩
      · obtain ⟨entry, hentry, heq⟩ := List.mem_map.1 hmem
        obtain ⟨listed, hlisted, hid, -⟩ := rest.of_planned hentry
        exact hnew (List.mem_map.2 ⟨listed, hlisted, hid.trans heq⟩)
      · obtain ⟨listed, hlisted, hid, -⟩ := rest.of_missed hmem
        exact hnew (List.mem_map.2 ⟨listed, hlisted, hid⟩)
  | missed _ _ _ rest ih =>
      obtain ⟨hnew, hothers⟩ := List.nodup_cons.1 hentries
      obtain ⟨hnodup, hapart⟩ := ih hothers
      refine ⟨hnodup, fun entry hentry hmem => ?_⟩
      rcases List.mem_cons.1 hmem with heq | hmissed
      · obtain ⟨listed, hlisted, hid, -⟩ := rest.of_planned hentry
        exact hnew (List.mem_map.2 ⟨listed, hlisted, hid.trans heq⟩)
      · exact hapart entry hentry hmissed

end Surveyed

/-! ## What is sent -/

/-- Of the events that are sent, those of a program were planned for it. -/
theorem idsOf_planned (hplanned : ∀ entry ∈ planned, ∀ event ∈ entry.2,
      Push.programIdOf? event.eventId = some entry.1)
    (hevents : update.events = planned.flatMap (·.2)) (id : String) :
    update.idsOf id = (planned.filter (·.1 = id)).flatMap fun entry => entry.2.map (·.eventId) := by
  rw [Push.DeviceUpdate.idsOf, hevents]
  clear hevents
  induction planned with
  | nil => rfl
  | cons entry rest ih =>
      obtain ⟨hentry, hrest⟩ := List.forall_mem_cons.1 hplanned
      rw [List.flatMap_cons, List.map_append, List.filter_append, ih hrest, List.filter_cons]
      by_cases hid : entry.1 = id
      · have hall : (entry.2.map (·.eventId)).filter
            (fun event => Push.programIdOf? event = some id) = entry.2.map (·.eventId) := by
          apply List.filter_eq_self.2
          intro event hevent
          obtain ⟨own, hown, rfl⟩ := List.mem_map.1 hevent
          exact decide_eq_true (hid ▸ hentry own hown)
        rw [hall, if_pos (decide_eq_true hid), List.flatMap_cons]
      · have hnone : (entry.2.map (·.eventId)).filter
            (fun event => Push.programIdOf? event = some id) = [] := by
          apply List.filter_eq_nil_iff.2
          intro event hevent heq
          obtain ⟨own, hown, rfl⟩ := List.mem_map.1 hevent
          exact hid (Option.some.inj ((hentry own hown).symm.trans (of_decide_eq_true heq)))
        rw [hnone, if_neg (by simpa using hid), List.nil_append]

theorem filter_key_eq {events : List Push.Event} (hnodup : (planned.map (·.1)).Nodup)
    (hmem : (id, events) ∈ planned) : planned.filter (·.1 = id) = [(id, events)] := by
  induction planned with
  | nil => cases hmem
  | cons entry rest ih =>
      obtain ⟨hnew, hothers⟩ := List.nodup_cons.1 hnodup
      rcases List.mem_cons.1 hmem with rfl | hrest
      · rw [List.filter_cons, if_pos (decide_eq_true rfl), List.filter_eq_nil_iff.2]
        intro other hother heq
        exact hnew (List.mem_map.2 ⟨other, hother, of_decide_eq_true heq⟩)
      · rw [List.filter_cons_of_neg, ih hothers hrest]
        intro heq
        exact hnew (List.mem_map.2 ⟨_, hrest, (of_decide_eq_true heq).symm⟩)

/-! ## What is recorded -/

/-- What is recorded for different programs whose records can be read, and nothing else. -/
structure Records (planned : List (String × List Push.Event)) (before after : Store) : Prop where
  claims : after.claims = before.claims
  retired : after.retired = before.retired
  recorded : ∀ entry ∈ planned, ∀ item, before.items.find? entry.1 = some item →
    after.items.find? entry.1 =
      some { item with state := item.state.transcribed.listing (entry.2.map (·.eventId)) }
  others : ∀ id, id ∉ planned.map (·.1) → after.items.find? id = before.items.find? id

/-- Where every record can be read, recording does not fail. -/
theorem recordEvents_records {result : Except Error Unit}
    (hnodup : (planned.map (·.1)).Nodup)
    (hplanned : ∀ entry ∈ planned, ∃ item, before.items.find? entry.1 = some item ∧
      item.isReadable = true)
    (h : Completes (recordEvents planned) before log result after) :
    result = .ok () ∧ Records planned before after := by
  induction planned generalizing before log with
  | nil =>
      obtain ⟨rfl, rfl, rfl⟩ := completes_pure.1 h
      exact ⟨rfl, rfl, rfl, List.forall_mem_nil _, fun _ _ => rfl⟩
  | cons entry rest ih =>
      obtain ⟨hnew, hothers⟩ := List.nodup_cons.1 hnodup
      obtain ⟨hentry, hrest⟩ := List.forall_mem_cons.1 hplanned
      obtain ⟨item, hfound, hreadable⟩ := hentry
      obtain ⟨_, answer, middle, _, rfl, hupdate, hlater⟩ := completes_bind.1 h
      obtain ⟨rfl, hstore⟩ := completes_store.1 hupdate
      have hclaims := Store.claims_update entry.1
        (fun state => state.listing (entry.2.map (·.eventId))) before
      obtain ⟨_, hother, -, hanswer, hputs⟩ | ⟨hnone, -, -⟩ := before.update_cases entry.1
        fun state => state.listing (entry.2.map (·.eventId))
      swap
      · cases (hnone item hfound).symm.trans hreadable
      obtain rfl := Option.some.inj (hfound.symm.trans hother)
      obtain ⟨rfl, rfl⟩ :
          answer = .ok (item.state.transcribed.listing (entry.2.map (·.eventId))) ∧
            middle = (before.update entry.1
              fun state => state.listing (entry.2.map (·.eventId))).2 :=
        ⟨(congrArg Prod.fst hstore).symm.trans hanswer, (congrArg Prod.snd hstore).symm⟩
      have hapart (other : String × List Push.Event) (hmem : other ∈ rest) : other.1 ≠ entry.1 :=
        fun heq => hnew (List.mem_map.2 ⟨other, hmem, heq⟩)
      have hstill : ∀ other ∈ rest, ∃ item, (before.update entry.1
          fun state => state.listing (entry.2.map (·.eventId))).2.items.find? other.1 =
            some item ∧ item.isReadable = true := by
        intro other hmem
        rw [hputs.other (hapart other hmem)]
        exact hrest other hmem
      obtain ⟨rfl, hrecords⟩ := ih hothers hstill hlater
      refine ⟨rfl, hrecords.claims.trans hclaims, hrecords.retired.trans hputs.retired, ?_, ?_⟩
      · refine List.forall_mem_cons.2 ⟨fun found hitem => ?_, fun other hmem found hitem => ?_⟩
        · obtain rfl := Option.some.inj (hfound.symm.trans hitem)
          rw [hrecords.others _ hnew, hputs.self]
        · apply hrecords.recorded other hmem
          rwa [hputs.other (hapart other hmem)]
      · intro id hid
        obtain ⟨hne, hlast⟩ := not_or.1 (mt List.mem_cons.2 hid)
        rw [hrecords.others id hlast, hputs.other hne]

theorem recordEvents_stores {result : Except Error Unit}
    (h : (recordEvents planned).Follows log result) :
    ∀ entry ∈ log, ∃ own, entry.request = .store own := by
  induction planned generalizing log with
  | nil =>
      obtain ⟨rfl, -⟩ := Task.follows_pure.1 h
      exact List.forall_mem_nil _
  | cons entry rest ih =>
      obtain ⟨_, answer, later, rfl, hupdate, hrest⟩ := Task.follows_bind.1 h
      obtain rfl := Task.follows_request.1 hupdate
      refine List.forall_mem_cons.2 ⟨⟨_, rfl⟩, ?_⟩
      cases answer with
      | error e =>
          obtain ⟨rfl, -⟩ := Task.follows_pure.1 hrest
          exact List.forall_mem_nil _
      | ok state => exact ih hrest

/-! ## The whole registration -/

namespace Surveyed

/-- Every record is listed under the id of its program. -/
theorem found (hnamed : before.Named) {entry : String × Item} (hentry : entry ∈ before.listed) :
    ∃ stored, before.items.find? entry.2.program.id = some stored ∧
      entry.2 = stored.transcribed := by
  obtain ⟨stored, hfound, heq⟩ := Store.mem_listed.1 hentry
  have hid : entry.2.program.id = entry.1 :=
    (congrArg (·.program.id) heq).trans (hnamed _ _ hfound)
  exact ⟨stored, hid ▸ hfound, heq⟩

variable (h : Surveyed settings before.listed log planned missed) (hnamed : before.Named)

include h hnamed

theorem keys : (planned.map (·.1)).Nodup ∧ ∀ entry ∈ planned, entry.1 ∉ missed := by
  apply h.distinct
  have hkeys : before.listed.map (·.2.program.id) = before.items.entries.map (·.1) := by
    rw [Store.listed, List.map_map]
    apply List.map_congr_left
    intro entry hentry
    exact hnamed entry.1 entry.2 (Table.find?_of_mem hentry)
  rw [hkeys]
  exact (List.pairwise_map.2 before.items.sorted).imp String.ne_of_lt

theorem planned_open {entry : String × List Push.Event} (hentry : entry ∈ planned) :
    ∃ item, before.items.find? entry.1 = some item ∧ item.state.isDone = false := by
  obtain ⟨listed, hlisted, hid, hopen, -⟩ := h.of_planned hentry
  obtain ⟨stored, hfound, heq⟩ := found hnamed hlisted
  rw [heq, Item.transcribed_state, State.isDone_transcribed] at hopen
  exact ⟨stored, hid ▸ hfound, hopen⟩

theorem planned_readable
    (hreadable : ∀ entry ∈ before.items.entries, entry.2.isReadable = true)
    {entry : String × List Push.Event} (hentry : entry ∈ planned) :
    ∃ item, before.items.find? entry.1 = some item ∧ item.isReadable = true := by
  obtain ⟨item, hfound, -⟩ := h.planned_open hnamed hentry
  exact ⟨item, hfound, hreadable _ (Table.mem_of_find? hfound)⟩

omit hnamed in
theorem planned_programs (entry : String × List Push.Event) (hentry : entry ∈ planned)
    (event : Push.Event) (hevent : event ∈ entry.2) :
    Push.programIdOf? event.eventId = some entry.1 := by
  obtain ⟨listed, -, hid, -, hids⟩ := h.of_planned hentry
  rw [← hid]
  apply programIdOf?_wantedIds
  rw [← hids]
  exact List.mem_map_of_mem hevent

/-- Records of programs that were surveyed, once what was sent is recorded. -/
theorem enrolled (hevents : update.events = planned.flatMap (·.2))
    (hreadable : ∀ entry ∈ before.items.entries, entry.2.isReadable = true)
    (hrecords : Records planned before after) (id : String) :
    Enrolled update missed id (before.items.find? id) (after.items.find? id) := by
  obtain ⟨hnodup, hapart⟩ := h.keys hnamed
  have hids := idsOf_planned h.planned_programs hevents id
  cases hfound : before.items.find? id with
  | none =>
      rw [hrecords.others id, hfound]
      · exact .absent
      · intro hmem
        obtain ⟨entry, hentry, rfl⟩ := List.mem_map.1 hmem
        obtain ⟨item, hitem, -⟩ := h.planned_open hnamed hentry
        cases hfound.symm.trans hitem
  | some item =>
      cases hopen : item.state.isDone with
      | true =>
          rw [hrecords.others id, hfound]
          · exact .finished hopen
          · intro hmem
            obtain ⟨entry, hentry, rfl⟩ := List.mem_map.1 hmem
            obtain ⟨other, hother, hdone⟩ := h.planned_open hnamed hentry
            cases hfound.symm.trans hother
            cases hopen.symm.trans hdone
      | false =>
          have hlisted : (id, item.transcribed) ∈ before.listed :=
            Store.mem_listed.2 ⟨item, hfound, rfl⟩
          have hstored := h.of_open hlisted ((State.isDone_transcribed _).trans hopen)
          rw [Item.transcribed_program, hnamed _ _ hfound] at hstored
          rcases hstored with ⟨events, hevents⟩ | hmissed
          · rw [filter_key_eq hnodup hevents] at hids
            have hown : update.idsOf id = events.map (·.eventId) := hids.trans (List.append_nil _)
            have hlater := hrecords.recorded _ hevents item hfound
            rw [← hown] at hlater
            rw [hlater]
            refine .told hopen (hapart _ hevents) fun hregular => ?_
            exact item.decode_of_readable hregular (hreadable _ (Table.mem_of_find? hfound))
          · have hnew : id ∉ planned.map (·.1) := by
              intro hmem
              obtain ⟨entry, hentry, rfl⟩ := List.mem_map.1 hmem
              exact hapart entry hentry hmissed
            rw [hrecords.others id hnew, hfound]
            refine .missed hopen hmissed ?_
            rw [hids, List.filter_eq_nil_iff.2 fun entry hentry heq => hnew ?_]
            · rfl
            · exact List.mem_map.2 ⟨entry, hentry, of_decide_eq_true heq⟩

end Surveyed

/-- The records tell what was sent, unless a program that was missed lists some events. -/
theorem agrees_iff (hrecords : ∀ id,
      Enrolled update missed id (before.items.find? id) (after.items.find? id)) :
    Agrees update before after ↔ ∀ id ∈ missed, ∀ item, before.items.find? id = some item →
      item.state.isDone = false → item.state.pushEventIds = [] := by
  constructor
  · intro hagrees id hmissed item hfound hopen
    obtain ⟨later, hlater, hids⟩ := hagrees id item hfound hopen
    have hrecord := hrecords id
    rw [hfound, hlater] at hrecord
    cases hrecord with
    | finished hdone => cases hdone.symm.trans hopen
    | told _ htold => exact absurd hmissed htold
    | missed _ _ hnone => rw [hids, hnone]
  · intro hlists id item hfound hopen
    have hrecord := hrecords id
    rw [hfound] at hrecord
    generalize after.items.find? id = later at hrecord ⊢
    cases hrecord with
    | finished hdone => cases hdone.symm.trans hopen
    | told => exact ⟨_, rfl, rfl⟩
    | missed _ hmissed hnone =>
        exact ⟨item, rfl, (hlists id hmissed item hfound hopen).trans hnone.symm⟩

/-- What is told is recorded in what is read of a record. -/
theorem relisted_iff (hrecords : ∀ id,
      Enrolled update missed id (before.items.find? id) (after.items.find? id)) :
    Relisted before after ↔ ∀ id ∉ missed, ∀ item, before.items.find? id = some item →
      item.state.isDone = false → item.state.current.transcribed = item.state.current := by
  constructor
  · intro hrelisted id htold item hfound hopen
    obtain ⟨ids, hlater⟩ := hrelisted id item hfound
    have hrecord := hrecords id
    rw [hfound] at hrecord
    generalize after.items.find? id = last at hrecord hlater
    cases hrecord with
    | finished hdone => cases hdone.symm.trans hopen
    | told =>
        have heffect : item.state.transcribed.effect = item.state.effect :=
          congrArg (·.state.effect) (Option.some.inj hlater)
        rw [← State.transcribed_eq_self, State.transcribed, ← State.transcribed_effect, heffect]
    | missed _ hmissed => exact absurd hmissed htold
  · intro hkept id item hfound
    have hrecord := hrecords id
    rw [hfound] at hrecord
    generalize after.items.find? id = later at hrecord ⊢
    cases hrecord with
    | finished | missed => exact ⟨item.state.pushEventIds, rfl⟩
    | told hopen htold =>
        rw [State.transcribed_eq_self.2 (hkept id htold item hfound hopen)]
        exact ⟨_, rfl⟩

/-- A registration needs the records to stand under the ids of their programs, and nothing more. -/
theorem enrols_of_named {result : Except Error Push.Device} (hnamed : before.Named)
    (h : Completes (registerDevice settings identity) before log result after) :
    Enrols settings identity before log result after := by
  obtain ⟨_, answer, _, _, rfl, hlist, hrest⟩ := completes_bind.1 h
  obtain ⟨rfl, hstore⟩ := completes_store.1 hlist
  obtain ⟨hanswer, rfl⟩ := Prod.mk.inj hstore
  cases answer with
  | error e =>
      obtain ⟨rfl, rfl, rfl⟩ := completes_pure.1 hrest
      exact .failed
  | ok entries =>
      have hreadable := Store.list_iff.1 ⟨entries, hanswer⟩
      obtain rfl := Store.list_ok hanswer
      obtain ⟨asked, planned, _, _, rfl, hplan, hpush⟩ := completes_bind.1 hrest
      obtain ⟨rfl, missed, hsurveyed⟩ := planAll_surveyed hplan
      obtain ⟨_, answer, _, _, rfl, hupdate, hrecord⟩ := completes_bind.1 hpush
      obtain ⟨rfl, rfl⟩ := completes_push.1 hupdate
      cases answer with
      | error e =>
          obtain ⟨rfl, rfl, rfl⟩ := completes_pure.1 hrecord
          exact .failed
      | ok device =>
          obtain ⟨recording, result, _, _, rfl, hrecorded, hdone⟩ := completes_bind.1 hrecord
          obtain ⟨rfl, rfl, rfl⟩ := completes_pure.1 hdone
          obtain ⟨rfl, hrecords⟩ := recordEvents_records (hsurveyed.keys hnamed).1
            (fun entry hentry => hsurveyed.planned_readable hnamed hreadable hentry) hrecorded
          let update : Push.DeviceUpdate :=
            { rootLoginIds := identity.rootLoginIds.map Push.encodeLoginId
              events := planned.flatMap (·.2)
              deviceToken := identity.deviceToken }
          have henrolled (id : String) : Enrolled update missed id _ _ :=
            hsurveyed.enrolled hnamed rfl hreadable hrecords id
          rw [List.append_nil]
          exact .sent hsurveyed rfl (recordEvents_stores hrecorded.follows) hrecords.claims
            hrecords.retired henrolled (agrees_iff henrolled) (relisted_iff henrolled)

theorem registerDevice_enrols {result : Except Error Push.Device} (hfiled : before.Filed)
    (h : Completes (registerDevice settings identity) before log result after) :
    Enrols settings identity before log result after :=
  enrols_of_named hfiled.named h

/-- Whatever the world outside answers, a registration that fails changes no record, and one
that succeeds leaves records that tell what was sent, apart from programs that it missed. -/
theorem registration_agrees_unless_missed {σ : Type} (settings : Settings)
    (identity : DeviceIdentity) (host : Host σ) (session : Session σ)
    (hfiled : session.store.Filed) :
    Enrols settings identity session.store
      ((registerDevice settings identity).log host.world session)
      ((registerDevice settings identity).run host.world session).value
      ((registerDevice settings identity).run host.world session).state.store :=
  registerDevice_enrols hfiled (completes_run host _ session)

/-- A payment whose wallet is found goes on to list its event, which is sent again. -/
theorem payment_enrolled :
    (besidePayment messages).Filed ∧
      Enrols ⟨"queue", 9, 300, none, 0⟩ ⟨"token", []⟩ (besidePayment messages)
        ((registerDevice ⟨"queue", 9, 300, none, 0⟩ ⟨"token", []⟩).log
          (Host.granting 0).world ⟨besidePayment messages, ()⟩)
        ((registerDevice ⟨"queue", 9, 300, none, 0⟩ ⟨"token", []⟩).run
          (Host.granting 0).world ⟨besidePayment messages, ()⟩).value
        ((registerDevice ⟨"queue", 9, 300, none, 0⟩ ⟨"token", []⟩).run
          (Host.granting 0).world ⟨besidePayment messages, ()⟩).state.store :=
  have hfiled := besidePayment_filed messages
  ⟨hfiled,
    registration_agrees_unless_missed _ _ (Host.granting 0) ⟨besidePayment messages, ()⟩ hfiled⟩

/-- No wallet can be found. -/
def Host.withoutWallets : Host Unit :=
  { Host.granting 0 with
    outside := ⟨fun
      | .walletInfo id, _ => (.error (.walletNotFound id), ())
      | query, _ => (grant 0 query, ())⟩ }

/-- The device is registered without any event, and the record of a payment that is not over
still lists one. -/
theorem payment_lists_unsent :
    let log := (registerDevice ⟨"queue", 9, 300, none, 0⟩ ⟨"token", []⟩).log
      Host.withoutWallets.world ⟨besidePayment messages, ()⟩
    let registered := (registerDevice ⟨"queue", 9, 300, none, 0⟩ ⟨"token", []⟩).run
      Host.withoutWallets.world ⟨besidePayment messages, ()⟩
    registered.value = .ok ⟨[], [], false, false⟩ ∧
      ⟨.push (.updateDevice ⟨[], [], "token"⟩), .ok ⟨[], [], false, false⟩⟩ ∈ log ∧
      registered.state.store.items.find? "payment" = some paymentItem ∧
      ¬Agrees ⟨[], [], "token"⟩ (besidePayment messages) registered.state.store := by
  refine ⟨rfl, .tail _ (.tail _ (.head _)), rfl, fun hagrees => ?_⟩
  obtain ⟨later, hlater, hids⟩ := hagrees "payment" paymentItem rfl rfl
  obtain rfl : paymentItem = later := Option.some.inj hlater
  cases hids

end Queue

end ProgramQueue
